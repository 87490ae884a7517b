import ApiProperties.Proofs.Collection

/-!
Settling the pending properties of one class, as a plain fold. A `Desk` is the class as it stands
with what was counted and renamed so far, and `Desk.settle` treats one pending property on which the
verdict is known. As the verdict needs only the outline, which no step changes, all verdicts can be
given before the first step.
-/

set_option autoImplicit false

namespace ApiProperties

/-- The class that is being processed, and what has been done to it. -/
structure Desk where
  cls : Class
  stats : Statistics
  renames : List RenameRecord

namespace Desk

def progress (d : Desk) (m : Model) (c : ClassId) : Progress :=
  ⟨m.putClass c d.cls, d.stats, d.renames⟩

def giveBack (d : Desk) (ids : List MethodId) : Desk :=
  { d with
    cls := d.cls.tag ids .generate
    stats := d.stats.merge { Statistics.zero with methodsDemoted := ids.length } }

def commit (d : Desk) (c : ClassId) (q : Property) : Desk :=
  { cls := (d.cls.makeRoom q.name).addProperty q
    stats := d.stats.merge { Statistics.zero with
      propertiesCommitted := 1
      methodsAbsorbed := (q.accessors.filter (·.owner == c)).length
      membersRenamed := (d.cls.displaced q.name).length }
    renames := d.renames ++ d.cls.displaced q.name }

/-- Commits what the verdict keeps of `p`, and gives the other accessors back. -/
def settle (c : ClassId) (d : Desk) (p : Property) : (verdict : Option Property) → Desk
  | some q => (d.giveBack (p.lost q)).commit c q
  | none => d.giveBack p.accessors

end Desk

@[simp] theorem Method.outline_makeRoom (n : String) (f : Method) :
    (f.makeRoom n).outline = f.outline := by
  unfold makeRoom
  split <;> rfl

@[simp] theorem Class.outline_makeRoom (n : String) (k : Class) :
    (k.makeRoom n).outline = k.outline := by
  simp [makeRoom, outline]

@[simp] theorem Class.outline_addProperty (k : Class) (p : Property) :
    (k.addProperty p).outline = k.outline := rfl

namespace Model
variable {m : Model} {c : ClassId} {k k' : Class}

theorem Valid.demote?_putClass (hm : m.Valid) (hk : m.class? c = some k)
    (ho : k'.outline = k.outline) {id : MethodId} (hid : k.Emits id) :
    (m.putClass c k').demote? c id = some (m.putClass c (k'.tag [id] .generate), true) := by
  have hkc : k.id = c := (hm.consistent hk).id
  have hkc' : k'.id = c := (congrArg (·.id) ho).trans hkc
  have howner : id.owner = c := hid.owner.trans hkc
  obtain ⟨f, hf, -⟩ := (hid.of_outline ho.symm).method
  simp [demote?, howner, method?_putClass_self k' hk howner, hf, retag_putClass hk hkc' howner]

theorem Valid.releaseOne?_putClass (hm : m.Valid) (hk : m.class? c = some k)
    (ho : k'.outline = k.outline) {p : Property} (hp : ∀ id ∈ p.accessors, k.Emits id) :
    (m.putClass c k').releaseOne? c p =
      some (m.putClass c (k'.tag (p.lost p.yielded) .generate), p.yielded,
        (p.lost p.yielded).length) := by
  cases hs : p.setter with
  | some s =>
    have hdemote := hm.demote?_putClass hk ho (hp s (Property.mem_accessors.2 (.inr hs)))
    cases hg : p.getter <;> simp [releaseOne?, hs, hg, hdemote, Property.yielded, Property.lost]
  | none =>
    cases hg : p.getter with
    | some g =>
      have hdemote := hm.demote?_putClass hk ho (hp g (Property.mem_accessors.2 (.inl hg)))
      simp [releaseOne?, hs, hg, hdemote, Property.yielded, Property.lost]
    | none =>
      have hsame : p.yielded = p := by
        cases p
        simp_all [Property.yielded]
      simp [releaseOne?, hs, hg, hsame]

theorem Valid.replaceSetter?_putClass (hm : m.Valid) (hk : m.class? c = some k)
    (ho : k'.outline = k.outline) {p : Property} (hp : ∀ id ∈ p.accessors, k.Emits id)
    {o : Option MethodId} (hone : (p.setter.isNone || o.isNone) = true) :
    (m.putClass c k').replaceSetter? c p o =
      some (m.putClass c (k'.tag (p.lost { p with setter := o }) .generate), { p with setter := o },
        (p.lost { p with setter := o }).length) := by
  cases hs : p.setter with
  | some s =>
    have hdemote := hm.demote?_putClass hk ho (hp s (Property.mem_accessors.2 (.inr hs)))
    obtain rfl : o = none := by simpa [hs] using hone
    cases hg : p.getter <;> simp [replaceSetter?, hs, hg, hdemote, Property.lost]
  | none => cases hg : p.getter <;> simp [replaceSetter?, hs, hg, Property.lost]

/-- Comparing with the base gives back just the accessors that are lost. -/
theorem Valid.resolveOverride?_putClass (hm : m.Valid) (hk : m.class? c = some k)
    (hc : m.IsDefinition c) (ho : k'.outline = k.outline) {p : Property}
    (hp : ∀ id ∈ p.accessors, k.Emits id) :
    (m.putClass c k').resolveOverride? c p = (m.reshaped? c p).map fun q =>
      (m.putClass c (k'.tag (p.lost q) .generate), q, (p.lost q).length) := by
  have hover := isOverriding?_congr (outline_putClass hk ho) p
  have hfind := findBaseProperty?_putClass hc hk ho p
  rw [resolveOverride?, reshaped?, hover]
  cases m.isOverriding? p with
  | none => rfl
  | some b =>
    cases b with
    | false => simp
    | true =>
      simp only [hfind, Option.bind_eq_bind, Option.bind_some, if_true]
      cases m.findBaseProperty? c p with
      | none => rfl
      | some r =>
        cases r with
        | none => simp [hm.releaseOne?_putClass hk ho hp]
        | some base =>
          simp only [Option.bind_some]
          by_cases hborrow : (p.getter.isNone && base.setter.isSome) = true
          · have hnone : p.getter = none := by simp_all
            rw [if_pos hborrow, if_pos hborrow]
            cases hs : p.setter <;> simp [Property.lost, hnone, hs]
          · rw [if_neg hborrow, if_neg hborrow]
            by_cases hone : (p.setter.isNone || base.setter.isNone) = true
            · rw [if_pos hone, if_pos hone, hm.replaceSetter?_putClass hk ho hp hone]
              rfl
            · rw [if_neg hone, if_neg hone]
              simp

/-- A property that does not stay gives back what it still has. -/
theorem Valid.finalize?_putClass (hm : m.Valid) (hk : m.class? c = some k)
    (ho : k'.outline = k.outline) {q : Property}
    (hq : q.getter.isSome = false ∨ q.setter.isSome = false → ∀ id ∈ q.accessors, k.Emits id) :
    (m.putClass c k').finalize? c q = (m.stays? c q).map fun stays =>
      if stays then (m.putClass c k', true, 0)
      else (m.putClass c (k'.tag q.accessors .generate), false, q.accessors.length) := by
  have hover := fun g => hasOverloads?_congr (outline_putClass hk ho) c g
  have hdemote : q.getter.isSome = false ∨ q.setter.isSome = false → ∀ {id}, id ∈ q.accessors →
      (m.putClass c k').demote? c id = some (m.putClass c (k'.tag [id] .generate), true) :=
    fun h _ hid => hm.demote?_putClass hk ho (hq h _ hid)
  cases hg : q.getter with
  | none =>
    cases hs : q.setter with
    | none => simp [finalize?, stays?, Property.accessors, hg, hs]
    | some s =>
      have hd := hdemote (.inl (by simp [hg])) (Property.mem_accessors.2 (.inr hs))
      simp [finalize?, stays?, Property.accessors, hg, hs, hd]
  | some g =>
    cases hs : q.setter with
    | none =>
      have hd := hdemote (.inr (by simp [hs])) (Property.mem_accessors.2 (.inl hg))
      cases hb : m.hasOverloads? c g with
      | none => simp [finalize?, stays?, hg, hs, hover, hb]
      | some b => cases b <;> simp [finalize?, stays?, Property.accessors, hg, hs, hover, hb, hd]
    | some s => simp [finalize?, stays?, hg, hs]

/-- A property that came out with one half has the accessors it had, less what it lost. -/
theorem Reshaped.lost_perm {p q : Property} (h : m.Reshaped c p q)
    (hq : q.getter.isSome = false ∨ q.setter.isSome = false) :
    (p.lost q ++ q.accessors).Perm p.accessors := by
  cases h with
  | plain => simp
  | orphan =>
    cases hs : p.setter with
    | some s =>
      cases hg : p.getter with
      | some g =>
        simpa [Property.yielded, Property.lost, Property.accessors, hs, hg] using .swap g s []
      | none => simp [Property.yielded, Property.lost, Property.accessors, hs, hg]
    | none =>
      cases hg : p.getter <;> simp [Property.yielded, Property.lost, Property.accessors, hs, hg]
  | @borrowsGetter b hb hg hs =>
    obtain ⟨s, hs⟩ := Option.isSome_iff_exists.1 hs
    have hbg : b.getter = none := by simpa [hs] using hq
    simp [Property.lost, Property.accessors, hbg, hg, hs]
  | borrowsSetter hb hs hg hp =>
    rcases hq with hq | hq
    · simp [hg] at hq
    · simp at hq
  | losesSetter =>
    cases hg : p.getter with
    | none => simp [Property.lost, Property.accessors, hg]
    | some g => simp [Property.lost, Property.accessors, hg]

/-- A property that came out with a getter has not lost all it had. -/
theorem Reshaped.length_lost_lt {p q : Property} (h : m.Reshaped c p q)
    (hq : q.getter.isSome = true) : (p.lost q).length < p.accessors.length := by
  cases h with
  | plain =>
    obtain ⟨g, hg⟩ := Option.isSome_iff_exists.1 hq
    simp [Property.accessors, hg]
  | orphan =>
    cases hs : p.setter with
    | none => simp [Property.yielded, hs] at hq
    | some s =>
      obtain ⟨g, hg⟩ : ∃ g, p.getter = some g := by
        simpa [Property.yielded, hs, Option.isSome_iff_exists] using hq
      simp [Property.yielded, Property.lost, Property.accessors, hs, hg]
  | borrowsGetter _ hg hs =>
    obtain ⟨s, hs⟩ := Option.isSome_iff_exists.1 hs
    simp [Property.lost, Property.accessors, hg, hs]
  | borrowsSetter _ _ hg hp =>
    obtain ⟨g, hg⟩ := Option.isSome_iff_exists.1 hg
    simp [Property.lost, Property.accessors, hg, hp]
  | losesSetter =>
    obtain ⟨g, hg⟩ : ∃ g, p.getter = some g := Option.isSome_iff_exists.1 hq
    simp [Property.lost, Property.accessors, hg]

theorem lost_subset (p q : Property) {id : MethodId} (h : id ∈ p.lost q) : id ∈ p.accessors := by
  simp only [Property.lost, List.mem_append] at h
  rcases h with h | h
  · split at h
    · exact List.mem_append_left _ h
    · simp at h
  · split at h
    · exact List.mem_append_right _ h
    · simp at h

theorem outline_settle {d : Desk} {p : Property} (hd : d.cls.outline = k.outline)
    (hp : ∀ id ∈ p.accessors, k.Emits id) (v : Option Property) :
    (d.settle c p v).cls.outline = k.outline := by
  have htag : ∀ ids : List MethodId, (∀ id ∈ ids, id ∈ p.accessors) →
      (d.cls.tag ids .generate).outline = k.outline := fun ids hids =>
    (Class.outline_tag (fun id hid => (hp id (hids id hid)).of_outline hd.symm) (by simp)).trans hd
  cases v with
  | none => exact htag _ fun _ h => h
  | some q =>
    simp only [Desk.settle, Desk.commit, Desk.giveBack, Class.outline_addProperty,
      Class.outline_makeRoom]
    exact htag _ fun _ => lost_subset p q

theorem Valid.hasMethod_of_emits (hm : m.Valid) (hk : m.class? c = some k) {id : MethodId}
    (h : k.Emits id) : m.hasMethod id = true := by
  obtain ⟨howner, f, hf, -⟩ := h
  refine hasMethod_iff.2 ⟨f, ?_⟩
  rw [method?, howner, (hm.consistent hk).id, hk, Option.bind_some, hf]

/-- Making room renames members, which no comment depends on. -/
theorem commit?_progress (hk : m.class? c = some k) {d : Desk}
    (hd : d.cls.outline = k.outline) {q : Property} {o : Option Comment}
    (hcomment : m.mergedComment? q = some o) :
    (d.progress m c).commit? c q =
      some ((d.commit c { q with comment := o, owner := c }).progress m c) := by
  have hroom : (m.putClass c d.cls).makeRoom? c q.name =
      some (m.putClass c (d.cls.makeRoom q.name), d.cls.displaced q.name) := by
    simp [makeRoom?, class?_putClass_self _ hk]
  have hout := outline_putClass hk ((Class.outline_makeRoom q.name d.cls).trans hd)
  have hmerged : (m.putClass c (d.cls.makeRoom q.name)).mergedComment? q = some o := by
    rw [mergedComment?_congr hout, hcomment]
  simp only [Desk.progress, Progress.commit?, hroom, hmerged, Option.bind_eq_bind, Option.bind_some,
    modifyClass_putClass]
  rfl

/-- A property that is dropped has one half at most. -/
theorem half_of_stays? {q : Property} (h : m.stays? c q = some false) :
    q.getter.isSome = false ∨ q.setter.isSome = false := by
  cases hg : q.getter with
  | none => exact .inl rfl
  | some g =>
    cases hs : q.setter with
    | none => exact .inr rfl
    | some s => simp [stays?, hg, hs] at h

/-- Settling a pending property is the step that its verdict asks for. -/
theorem Valid.settle?_progress (hm : m.Valid) (hk : m.class? c = some k) (hc : m.IsDefinition c)
    {d : Desk} (hd : d.cls.outline = k.outline) {p : Property}
    (hp : ∀ id ∈ p.accessors, k.Emits id) :
    (d.progress m c).settle? c p = (m.verdict? c p).map fun v => (d.settle c p v).progress m c := by
  have hlinks := fun id hid => hm.hasMethod_of_emits hk (hp id hid)
  obtain ⟨q, hq, hr⟩ := hm.reshaped?_total hk hc hlinks
  obtain ⟨b, hb, -⟩ := hm.stays?_total hk (hm.hasMethod_of_reshaped hr hlinks)
  have ho : (d.giveBack (p.lost q)).cls.outline = k.outline :=
    (Class.outline_tag (fun id hid => (hp id (lost_subset p q hid)).of_outline hd.symm)
      (by simp)).trans hd
  have hperm := hr.lost_perm
  have hemits : q.getter.isSome = false ∨ q.setter.isSome = false →
      ∀ id ∈ q.accessors, k.Emits id := fun h id hid =>
    hp id ((hperm h).mem_iff.1 (List.mem_append_right _ hid))
  have hfinalize := hm.finalize?_putClass hk ho hemits
  rw [Desk.giveBack] at hfinalize
  simp only [Progress.settle?, Desk.progress, hm.resolveOverride?_putClass hk hc hd hp, hq,
    hfinalize, hb, verdict?, Option.bind_eq_bind, Option.map_some, Option.bind_some]
  cases b with
  | false =>
    -- what the comparison gave back and what the end gives back is all there was
    have hperm := hperm (half_of_stays? hb)
    have hlen : (p.lost q).length + q.accessors.length = p.accessors.length := by
      simpa using hperm.length_eq
    have htag : d.cls.tag (p.lost q ++ q.accessors) .generate = d.cls.tag p.accessors .generate :=
      Class.tag_congr _ _ fun id => hperm.mem_iff
    simp [Desk.settle, Desk.giveBack, hlen, htag]
  | true =>
    obtain ⟨o, hcomment⟩ := mergedComment?_total (hm.hasMethod_of_reshaped hr hlinks)
    have hcommit := commit?_progress hk ho hcomment
    simp only [Desk.progress, Desk.giveBack] at hcommit
    simp only [if_true, hcomment, Option.bind_some, Nat.add_zero, hcommit]
    rfl

end Model
end ApiProperties

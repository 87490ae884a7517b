import ApiProperties.Proofs.Settlement

/-!
Processing one class from its first candidate to its last pending property. `Model.Processed` lists
what was decided on the way, and `Desk.settleAll` does what was decided.
-/

set_option autoImplicit false

namespace ApiProperties

/-- Whether the pending property is a getter alone whose name reads as an action. -/
def Property.readsAsAction (m : Model) (verbs : VerbDictionary) (p : Property) : Bool :=
  match p.getter, p.setter with
  | some g, none => ((m.method? g).map fun f => isActionLike f.name verbs).getD false
  | _, _ => false

theorem Property.getter_of_readsAsAction {m : Model} {verbs : VerbDictionary}
    {p : Property} (h : p.readsAsAction m verbs = true) :
    ∃ g, p.getter = some g ∧ p.setter = none := by
  cases hg : p.getter with
  | none => simp [Property.readsAsAction, hg] at h
  | some g =>
    cases hs : p.setter with
    | none => exact ⟨g, rfl, rfl⟩
    | some s => simp [Property.readsAsAction, hg, hs] at h

/-- Whether the pending property is given up for its name. -/
def Synthesis.dismisses (y : Synthesis) (m : Model) (p : Property) : Bool :=
  y.useHeuristics && p.readsAsAction m y.verbs

namespace Model

/-- The property with the comment that its accessors give it. -/
def documented (m : Model) (p : Property) : Property :=
  { p with comment := (m.mergedComment? p).getD none }

/-- The class's properties once those that were completed are documented. -/
def documentedOwn (m : Model) (own : List Property) (completed : List Nat) : List Property :=
  own.mapIdx fun i p => if i ∈ completed then m.documented p else p

variable {m : Model} {c : ClassId} {k k' : Class}

@[simp] theorem documented_documented (p : Property) :
    m.documented (m.documented p) = m.documented p := by
  have h : m.mergedComment? (m.documented p) = m.mergedComment? p :=
    mergedComment?_accessors m rfl rfl
  rw [documented, h]
  rfl

theorem getElem?_documentedOwn (own : List Property) (completed : List Nat) (i : Nat) :
    (m.documentedOwn own completed)[i]? = (own[i]?).map fun p =>
      if i ∈ completed then m.documented p else p := by
  simp [documentedOwn, List.getElem?_mapIdx]

theorem flatMap_documentedOwn (own : List Property) (completed : List Nat) :
    (m.documentedOwn own completed).flatMap (·.accessors) = own.flatMap (·.accessors) := by
  have hmap : (m.documentedOwn own completed).map (·.accessors) = own.map (·.accessors) := by
    apply List.ext_getElem?
    intro i
    rw [List.getElem?_map, List.getElem?_map, getElem?_documentedOwn, Option.map_map]
    congr 1
    funext p
    by_cases h : i ∈ completed <;> simp [h, documented, Property.accessors]
  rw [List.flatMap_def, List.flatMap_def, hmap]

theorem mem_documentedOwn {own : List Property} {completed : List Nat} {p : Property}
    (h : p ∈ m.documentedOwn own completed) : ∃ q ∈ own, p = q ∨ p = m.documented q := by
  obtain ⟨i, hi⟩ := List.mem_iff_getElem?.1 h
  rw [getElem?_documentedOwn, Option.map_eq_some_iff] at hi
  obtain ⟨q, hq, rfl⟩ := hi
  refine ⟨q, List.mem_of_getElem? hq, ?_⟩
  split
  · exact .inr rfl
  · exact .inl rfl

@[simp] theorem documentedOwn_nil (own : List Property) : m.documentedOwn own [] = own :=
  List.ext_getElem? fun i => by simp [getElem?_documentedOwn]

theorem documentedOwn_modify (own : List Property) (i : Nat) (completed : List Nat) :
    m.documentedOwn (own.modify i m.documented) completed =
      m.documentedOwn own (i :: completed) := by
  apply List.ext_getElem?
  intro j
  rw [getElem?_documentedOwn, getElem?_documentedOwn, List.getElem?_modify]
  cases own[j]? with
  | none => simp
  | some p =>
    by_cases hij : i = j
    · by_cases hj : j ∈ completed <;> simp [hij, hj]
    · by_cases hj : j ∈ completed <;> simp [hij, hj, Ne.symm hij]

theorem documentedOwn_append_length (own own' : List Property) (p : Property) :
    m.documentedOwn (own ++ p :: own') [own.length] = own ++ m.documented p :: own' := by
  rw [← documentedOwn_modify, documentedOwn_nil, modify_append_length]

theorem documented_attach_documented {m' : Model} (p : Property) (id : MethodId) (f : Method)
    (a : Accessor) :
    m'.documented ((m.documented p).attach id f a) = m'.documented (p.attach id f a) := by
  have hmerged : m'.mergedComment? ((m.documented p).attach id f a) =
      m'.mergedComment? (p.attach id f a) :=
    mergedComment?_accessors m' (by cases h : a.role <;> simp [Property.attach, h, documented])
      (by cases h : a.role <;> simp [Property.attach, h, documented])
  simp only [documented] at hmerged ⊢
  rw [hmerged]
  cases h : a.role <;> simp [Property.attach, h]

theorem documentCompleted?_putClass (hk : m.class? c = some k) {completed : List Nat}
    (ho : k'.outline = k.outline) (hlt : ∀ i ∈ completed, i < k'.properties.length)
    (hlinks : ∀ p ∈ k'.properties, ∀ id ∈ p.accessors, m.hasMethod id = true) :
    (m.putClass c k').documentCompleted? c completed =
      some (m.putClass c { k' with properties := m.documentedOwn k'.properties completed }) := by
  induction completed generalizing k' with
  | nil => simp [documentCompleted?]
  | cons i rest ih =>
    obtain ⟨hi, hrest⟩ := List.forall_mem_cons.1 hlt
    obtain ⟨p, hp⟩ : ∃ p, k'.properties[i]? = some p := ⟨_, List.getElem?_eq_getElem hi⟩
    obtain ⟨o, hcomment⟩ := mergedComment?_total (hlinks p (List.mem_of_getElem? hp))
    have hmerged : (m.putClass c k').mergedComment? p = some o := by
      rw [← hcomment]
      exact mergedComment?_congr (outline_putClass hk ho) p
    -- `o` is only known for the property at `i`, and only that one changes
    have hmodify : k'.modifyProperty i (fun p => { p with comment := o }) =
        k'.modifyProperty i m.documented := by
      rw [Class.modifyProperty, Class.modifyProperty]
      congr 1
      apply List.ext_getElem?
      intro j
      rw [List.getElem?_modify, List.getElem?_modify]
      by_cases hij : i = j
      · subst hij
        simp [hp, documented, hcomment]
      · simp [hij]
    have hnext := @ih (k'.modifyProperty i m.documented) ho
      (by simpa [Class.modifyProperty] using hrest) (fun q hq => by
        rcases mem_modify hp hq with rfl | hq
        · exact hlinks p (List.mem_of_getElem? hp)
        · exact hlinks q hq)
    rw [← documentedOwn_modify]
    rw [documentCompleted?] at hnext ⊢
    rw [List.foldlM_cons, class?_putClass_self k' hk]
    simp only [Option.bind_eq_bind, Option.bind_some, hp, hmerged, modifyClass_putClass, hmodify,
      Option.pure_def]
    exact hnext

/-! ### Giving up actions -/

theorem actionGetter?_of_names {m' : Model}
    (h : ∀ id, (m'.method? id).map (·.name) = (m.method? id).map (·.name)) (verbs : VerbDictionary)
    {p : Property} (hp : ∀ id ∈ p.accessors, m.hasMethod id = true) :
    Pending.actionGetter? m' verbs p =
      some (if p.readsAsAction m verbs then p.getter else none) := by
  cases hg : p.getter with
  | none => simp [Pending.actionGetter?, hg]
  | some g =>
    cases hs : p.setter with
    | some s => simp [Pending.actionGetter?, Property.readsAsAction, hg, hs]
    | none =>
      obtain ⟨f, hf⟩ := hasMethod_iff.1 (hp g (Property.mem_accessors.2 (.inl hg)))
      have hname := h g
      rw [hf, Option.map_some, Option.map_eq_some_iff] at hname
      obtain ⟨f', hf', hname⟩ := hname
      simp [Pending.actionGetter?, Property.readsAsAction, hg, hs, hf, hf', hname]

/-- Actions are given up one by one, so that a list of them is one `Class.tag`. -/
theorem Valid.withoutActions?_putClass (hm : m.Valid) (hk : m.class? c = some k)
    (ho : k'.outline = k.outline) (verbs : VerbDictionary)
    (hnames : ∀ id, ((m.putClass c k').method? id).map (·.name) = (m.method? id).map (·.name))
    (ps : List Property) (hps : ∀ p ∈ ps, ∀ id ∈ p.accessors, k.Emits id) :
    Pending.withoutActions? c verbs (m.putClass c k') ps =
      some (ps.filter (! ·.readsAsAction m verbs),
        m.putClass c
          (k'.tag ((ps.filter (·.readsAsAction m verbs)).flatMap (·.accessors)) .generate),
        (ps.filter (·.readsAsAction m verbs)).length) := by
  have hkc' : k'.id = c := (congrArg (·.id) ho).trans (hm.consistent hk).id
  have hk' := class?_putClass_self k' hk
  induction ps with
  | nil => simp [Pending.withoutActions?]
  | cons p rest ih =>
    have hp := hps p List.mem_cons_self
    have hrest := fun q hq => hps q (List.mem_cons_of_mem p hq)
    let given := (rest.filter (·.readsAsAction m verbs)).flatMap (·.accessors)
    have hgiven : ∀ id ∈ given, k.Emits id := fun id hid => by
      obtain ⟨q, hq, hid⟩ := List.mem_flatMap.1 hid
      exact hrest q (List.mem_of_mem_filter hq) id hid
    have hot : (k'.tag given .generate).outline = k.outline :=
      (Class.outline_tag (fun id hid => (hgiven id hid).of_outline ho.symm) (by simp)).trans ho
    have hname : ∀ id, ((m.putClass c (k'.tag given .generate)).method? id).map (·.name) =
        (m.method? id).map (·.name) := fun id => by
      have htag := map_method?_putClass_tag (k'.tag given .generate) hk' hkc'
        (fun j hj => (hgiven j hj).owner.trans (hm.consistent hk).id) rfl (·.name)
        (fun _ => rfl) id
      rw [← hnames id, ← htag, putClass_putClass]
    have hlinks := fun id hid => hm.hasMethod_of_emits hk (hp id hid)
    rw [Pending.withoutActions?, ih hrest]
    simp only [Option.bind_eq_bind, Option.bind_some]
    rw [actionGetter?_of_names hname verbs hlinks]
    cases hread : p.readsAsAction m verbs with
    | false => simp [hread]
    | true =>
      obtain ⟨g, hg, hs⟩ := Property.getter_of_readsAsAction hread
      have haccessors : p.accessors = [g] := by simp [Property.accessors, hg, hs]
      have hdemote := hm.demote?_putClass hk hot (hp g (by simp [haccessors]))
      have htag : k'.tag (given ++ [g]) .generate = k'.tag (p.accessors ++ given) .generate :=
        Class.tag_congr _ _ fun id => by simp [haccessors, or_comm]
      simp [hread, hg, hdemote, given, htag]

theorem Offers.generation {id : MethodId} {f : Method} {a : Accessor} (h : m.Offers c id f a) :
    f.generation = .generate := by
  have hc := h.candidate
  simp only [Method.isCandidate, Method.isGenerated, Bool.and_eq_true, beq_iff_eq] at hc
  exact hc.1.2

theorem Offers.emits (hm : m.Valid) (hk : m.class? c = some k) {id : MethodId} {f : Method}
    {a : Accessor} (h : m.Offers c id f a) : k.Emits id := by
  have hf := h.method
  rw [method?, h.owner, hk, Option.bind_some] at hf
  exact ⟨h.owner.trans (hm.consistent hk).id.symm, f, hf, by simp [Method.isIgnored, h.generation]⟩

theorem Assembly.emits (hm : m.Valid) (hk : m.class? c = some k) {ids : List MethodId} {s : Pending}
    {own : List Property} (h : m.Assembly k ids s own) : ∀ id ∈ ids, k.Emits id := by
  intro id hid
  obtain ⟨f, a, ho⟩ := h.offers id hid
  rw [(hm.consistent hk).id] at ho
  exact ho.emits hm hk

theorem outline_collected {ids : List MethodId} (h : ∀ id ∈ ids, k.Emits id)
    (own : List Property) : (k.collected ids own).outline = k.outline :=
  Class.outline_tag (k := k) h (by simp)

end Model

/-! ### The whole class -/

/-- The class as it is before the first pending property is settled. -/
def Synthesis.desk (y : Synthesis) (m : Model) (k : Class) (ids : List MethodId) (s : Pending)
    (own : List Property) : Desk :=
  let given := s.properties.filter (y.dismisses m)
  { cls := (k.collected ids (m.documentedOwn own s.completed)).tag
      (given.flatMap (·.accessors)) .generate
    stats := { Statistics.oneClass with
      methodsAbsorbed := s.completed.length
      methodsDemoted := given.length }
    renames := [] }

def Desk.settleAll (c : ClassId) (d : Desk) (vs : List (Property × Option Property)) : Desk :=
  vs.foldl (fun d v => d.settle c v.1 v.2) d

namespace Model
variable {m : Model} {c : ClassId} {k : Class}

/-- What was decided while class `c` was processed: the offers, in order, what they made pending,
what they completed, and the verdict on each pending property that was not given up. -/
structure Processed (y : Synthesis) (m : Model) (c : ClassId) (k : Class) (ids : List MethodId)
    (s : Pending) (own : List Property) (vs : List (Property × Option Property)) : Prop where
  assembly : m.Assembly k ids s own
  collect : Pending.collect? m c = some (s, m.putClass c (k.collected ids own))
  all : ∀ id, id ∈ ids ↔ ∃ f a, m.Offers c id f a
  pending : vs.map (·.1) = s.properties.filter (! y.dismisses m ·)
  verdict : ∀ v ∈ vs, m.verdict? c v.1 = some v.2
  kept : ∀ v ∈ vs, ∀ q, v.2 = some q → m.Kept c v.1 q

@[simp] theorem properties_desk (y : Synthesis) (ids : List MethodId) (s : Pending)
    (own : List Property) :
    (y.desk m k ids s own).cls.properties = m.documentedOwn own s.completed := rfl

theorem Assembly.outline_desk (hm : m.Valid) (hk : m.class? c = some k) (y : Synthesis)
    {ids : List MethodId} {s : Pending} {own : List Property} (h : m.Assembly k ids s own) :
    (y.desk m k ids s own).cls.outline = k.outline := by
  have hemits := h.emits hm hk
  refine (Class.outline_tag (fun id hid => ?_) (by simp)).trans (outline_collected hemits _)
  exact (hemits id (h.mem_of_flatMap_filter hid)).of_outline (outline_collected hemits _).symm

theorem Valid.foldlM_settle? (hm : m.Valid) (hk : m.class? c = some k) (hc : m.IsDefinition c)
    {d : Desk} (hd : d.cls.outline = k.outline) (ps : List Property)
    (hps : ∀ p ∈ ps, ∀ id ∈ p.accessors, k.Emits id) :
    ∃ vs : List (Property × Option Property), vs.map (·.1) = ps ∧
      (∀ v ∈ vs, m.verdict? c v.1 = some v.2 ∧ ∀ q, v.2 = some q → m.Kept c v.1 q) ∧
      ps.foldlM (Progress.settle? c) (d.progress m c) = some ((d.settleAll c vs).progress m c) := by
  induction ps generalizing d with
  | nil => exact ⟨[], rfl, by simp, rfl⟩
  | cons p rest ih =>
    have hp := hps p List.mem_cons_self
    obtain ⟨v, hv, hkept⟩ := hm.verdict?_total hk hc
      fun id hid => hm.hasMethod_of_emits hk (hp id hid)
    obtain ⟨vs, hvs, hall, hfold⟩ := ih (outline_settle hd hp v)
      fun q hq => hps q (List.mem_cons_of_mem p hq)
    refine ⟨(p, v) :: vs, by simp [hvs], ?_, ?_⟩
    · exact List.forall_mem_cons.2 ⟨⟨hv, hkept⟩, hall⟩
    · rw [List.foldlM_cons, hm.settle?_progress hk hc hd hp, hv]
      exact hfold

theorem Valid.dropActions?_putClass (hm : m.Valid) (hk : m.class? c = some k) (y : Synthesis)
    {ids : List MethodId} {s : Pending} {own : List Property} (h : m.Assembly k ids s own) :
    y.dropActions? s (m.putClass c (k.collected ids (m.documentedOwn own s.completed))) =
      some ({ s with properties := s.properties.filter (! y.dismisses m ·) },
        m.putClass c (y.desk m k ids s own).cls, (s.properties.filter (y.dismisses m)).length) := by
  have hkc : k.id = c := (hm.consistent hk).id
  have hemits := h.emits hm hk
  cases hy : y.useHeuristics with
  | false =>
    have hnone : y.dismisses m = fun _ => false := funext fun p => by simp [Synthesis.dismisses, hy]
    simp [Synthesis.dropActions?, hy, Synthesis.desk, hnone]
  | true =>
    have hsame : y.dismisses m = fun p => p.readsAsAction m y.verbs := funext fun p => by
      simp [Synthesis.dismisses, hy]
    have hwithout := hm.withoutActions?_putClass hk
      (outline_collected hemits (m.documentedOwn own s.completed)) y.verbs
      (fun id => ?_) s.properties
      (fun p hp id hid => hemits id (h.accessors_subset p hp id hid))
    · simp [Synthesis.dropActions?, hy, Pending.dropActions?, h.owner, hkc, hwithout,
        Synthesis.desk, hsame]
    · exact map_method?_putClass_tag (k.collected ids (m.documentedOwn own s.completed)) hk hkc
        (fun j hj => (hemits j hj).owner.trans hkc) rfl (·.name) (fun _ => rfl) id

/-- Processing a class answers, and does what was decided. -/
theorem Valid.processClass?_total (hm : m.Valid) (hk : m.class? c = some k)
    (hc : m.IsDefinition c) (y : Synthesis) :
    ∃ ids s own vs, m.Processed y c k ids s own vs ∧
      y.processClass? m c = some (((y.desk m k ids s own).settleAll c vs).progress m c) := by
  obtain ⟨ids, s, own, hcollect, hassembly, -, hall⟩ := hm.collect?_total hk
  have hkc : k.id = c := (hm.consistent hk).id
  have hemits := hassembly.emits hm hk
  have hpending : ∀ p ∈ s.properties, ∀ id ∈ p.accessors, k.Emits id := fun p hp id hid =>
    hemits id (hassembly.accessors_subset p hp id hid)
  have hdocument : (m.putClass c (k.collected ids own)).documentCompleted? c s.completed =
      some (m.putClass c (k.collected ids (m.documentedOwn own s.completed))) :=
    documentCompleted?_putClass hk (outline_collected hemits own) hassembly.completed_lt
      fun p hp id hid =>
        ((hassembly.consistent hm (hkc ▸ hk)).1 p hp).links id (List.mem_append_left _ hid)
  have hdrop := hm.dropActions?_putClass hk y hassembly
  obtain ⟨vs, hvs, hverdict, hfold⟩ := hm.foldlM_settle? hk hc (hassembly.outline_desk hm hk y)
    (s.properties.filter (! y.dismisses m ·))
    fun p hp => hpending p (List.mem_of_mem_filter hp)
  refine ⟨ids, s, own, vs, ⟨hassembly, hcollect, hall, hvs, ?_, ?_⟩, ?_⟩
  · exact fun v hv => (hverdict v hv).1
  · exact fun v hv => (hverdict v hv).2
  simp only [Synthesis.processClass?, hcollect, hdocument, hdrop, Option.bind_eq_bind,
    Option.bind_some]
  exact hfold

end Model
end ApiProperties

import ApiProperties.Proofs.Run

/-!
Where the accessors of a class end up. A method that was taken in is given back or stays internal,
and those that stay internal are accessors of the class's properties, each of one only.
-/

set_option autoImplicit false

namespace ApiProperties

/-- The accessors of `p` that its verdict gives back. -/
def Property.released (p : Property) : (verdict : Option Property) → List MethodId
  | some q => p.lost q
  | none => p.accessors

theorem Property.released_subset (p : Property) (v : Option Property) {id : MethodId}
    (h : id ∈ p.released v) : id ∈ p.accessors := by
  cases v with
  | none => exact h
  | some q => exact Model.lost_subset p q h

/-- Every accessor that is given back while the class is processed. -/
def Synthesis.released (y : Synthesis) (m : Model) (s : Pending)
    (vs : List (Property × Option Property)) : List MethodId :=
  (s.properties.filter (y.dismisses m)).flatMap (·.accessors) ++
    vs.flatMap fun v => v.1.released v.2

namespace Class

def generation? (k : Class) (x : Nat) : Option Generation := (k.methods[x]?).map (·.generation)

variable (k : Class) (x : Nat)

@[simp] theorem generation?_tag (ids : List MethodId) (g : Generation) :
    (k.tag ids g).generation? x = (k.generation? x).map fun old =>
      if (⟨k.id, x⟩ : MethodId) ∈ ids then g else old := by
  simp only [generation?, getElem?_tag, Option.map_map]
  congr 1
  funext f
  by_cases h : (⟨k.id, x⟩ : MethodId) ∈ ids <;> simp [h]

@[simp] theorem generation?_makeRoom (n : String) :
    (k.makeRoom n).generation? x = k.generation? x := by
  simp only [generation?, makeRoom, List.getElem?_map, Option.map_map]
  congr 1
  funext f
  simp only [Function.comp_apply, Method.makeRoom]
  split <;> rfl

@[simp] theorem generation?_addProperty (p : Property) :
    (k.addProperty p).generation? x = k.generation? x := rfl

@[simp] theorem generation?_collected (ids : List MethodId) (own : List Property) :
    (k.collected ids own).generation? x = (k.tag ids .internal).generation? x := rfl

end Class

namespace Desk
variable {c : ClassId}

@[simp] theorem id_settle (d : Desk) (p : Property) (v : Option Property) :
    (d.settle c p v).cls.id = d.cls.id := by
  cases v <;> rfl

theorem generation?_settle (d : Desk) (p : Property) (v : Option Property) (x : Nat) :
    (d.settle c p v).cls.generation? x = (d.cls.generation? x).map fun old =>
      if (⟨d.cls.id, x⟩ : MethodId) ∈ p.released v then .generate else old := by
  cases v <;> simp only [settle, commit, giveBack, Class.generation?_tag,
    Class.generation?_makeRoom, Class.generation?_addProperty] <;> rfl

theorem generation?_settleAll (d : Desk) (vs : List (Property × Option Property)) (x : Nat) :
    (d.settleAll c vs).cls.generation? x = (d.cls.generation? x).map fun old =>
      if (⟨d.cls.id, x⟩ : MethodId) ∈ vs.flatMap fun v => v.1.released v.2 then .generate
      else old := by
  induction vs generalizing d with
  | nil => simp
  | cons v rest ih =>
    rw [settleAll_cons, ih, generation?_settle, id_settle, Option.map_map, List.flatMap_cons]
    congr 1
    funext old
    simp only [Function.comp_apply, List.mem_append]
    by_cases h : (⟨d.cls.id, x⟩ : MethodId) ∈ v.1.released v.2
    · simp [h]
    · rw [if_neg h]
      simp only [h, false_or]

/-- A method that is internal stays as it is unless it is given back. -/
theorem methods_settle {d : Desk} {x : Nat} {f : Method} (hf : d.cls.methods[x]? = some f)
    (hi : f.generation = .internal) {p : Property} {v : Option Property}
    (hx : (⟨d.cls.id, x⟩ : MethodId) ∉ p.released v) :
    (d.settle c p v).cls.methods[x]? = some f := by
  cases v with
  | none => simp [settle, giveBack, hf, show (⟨d.cls.id, x⟩ : MethodId) ∉ p.accessors from hx]
  | some q =>
    have hlost : (⟨d.cls.id, x⟩ : MethodId) ∉ p.lost q := hx
    have hroom : f.makeRoom q.name = f := by
      simp [Method.makeRoom, Method.clashesWith, Method.isGenerated, hi]
    simp [settle, commit, giveBack, Class.addProperty, Class.makeRoom, hf, hlost, hroom]

theorem methods_settleAll {d : Desk} {vs : List (Property × Option Property)} {x : Nat}
    {f : Method} (hf : d.cls.methods[x]? = some f) (hi : f.generation = .internal)
    (hx : (⟨d.cls.id, x⟩ : MethodId) ∉ vs.flatMap fun v => v.1.released v.2) :
    (d.settleAll c vs).cls.methods[x]? = some f := by
  induction vs generalizing d with
  | nil => exact hf
  | cons v rest ih =>
    rw [List.flatMap_cons, List.mem_append, not_or] at hx
    exact ih (methods_settle hf hi hx.1) (by rw [id_settle]; exact hx.2)

end Desk

namespace Model
variable {m : Model} {c : ClassId} {k : Class} {y : Synthesis} {ids : List MethodId} {s : Pending}
  {own : List Property} {vs : List (Property × Option Property)}

theorem generation?_of_class {id : MethodId} (hk : m.class? id.owner = some k) {g : Generation} :
    (∃ f, m.method? id = some f ∧ f.generation = g) ↔ k.generation? id.index = some g := by
  simp [method?, hk, Class.generation?]

theorem generation?_settled (x : Nat) :
    ((y.desk m k ids s own).settleAll c vs).cls.generation? x = (k.generation? x).map fun old =>
      if (⟨k.id, x⟩ : MethodId) ∈ y.released m s vs then .generate
      else if (⟨k.id, x⟩ : MethodId) ∈ ids then .internal
      else old := by
  rw [Desk.generation?_settleAll, Synthesis.desk, Synthesis.released]
  simp only [Class.generation?_tag, Class.generation?_collected, Class.id_tag, Option.map_map]
  congr 1
  funext old
  simp only [Function.comp_apply, List.mem_append,
    show (k.collected ids (m.documentedOwn own s.completed)).id = k.id from rfl]
  split <;> split <;> simp_all

/-- What a class keeps of its own accessors, and what it loses, is what was pending. -/
theorem Kept.accessors_perm {p q : Property} (h : m.Kept c p q)
    (hp : ∀ id ∈ p.accessors, id.owner = c) (hborrow : ∀ id, m.Borrowable c id → id.owner ≠ c) :
    (p.lost q ++ q.accessors.filter (·.owner == c)).Perm p.accessors := by
  obtain ⟨g, hg⟩ := Option.isSome_iff_exists.1 h.readable
  have howned : ∀ {o : Option MethodId}, (∀ id, o = some id → id.owner = c) →
      o.toList.filter (·.owner == c) = o.toList := by
    rintro (_ | id) ho
    · rfl
    · simp [ho id rfl]
  have hforeign : ∀ {o : Option MethodId}, (∀ id, o = some id → m.Borrowable c id) →
      o.toList.filter (·.owner == c) = [] := by
    rintro (_ | id) ho
    · rfl
    · simp [hborrow id (ho id rfl)]
  have hgetter : q.getter.toList.filter (·.owner == c) = p.getter.toList := by
    rcases h.getter with heq | ⟨hnone, hb⟩
    · rw [heq]
      exact howned fun id hid => hp id (Property.mem_accessors.2 (.inl hid))
    · rw [hforeign hb, hnone, Option.toList_none]
  have hlost : p.lost q = if q.setter.isNone then p.setter.toList else [] := by
    simp [Property.lost, hg]
  rw [hlost, Property.accessors, Property.accessors, List.filter_append, hgetter]
  rcases h.setter with heq | hnone | ⟨hnone, hb⟩
  · rw [heq, howned fun id hid => hp id (Property.mem_accessors.2 (.inr hid))]
    cases p.setter <;> simp
  · simp only [hnone, Option.isNone_none, if_true, Option.toList_none, List.filter_nil,
      List.append_nil]
    exact List.perm_append_comm
  · rw [hforeign hb, hnone]
    simp

namespace Processed

section
variable (h : m.Processed y c k ids s own vs)
include h

theorem released_subset {id : MethodId} (hid : id ∈ y.released m s vs) : id ∈ ids := by
  rcases List.mem_append.1 hid with hid | hid
  · exact h.assembly.mem_of_flatMap_filter hid
  · obtain ⟨v, hv, hid⟩ := List.mem_flatMap.1 hid
    exact h.mem_of_verdict hv id (v.1.released_subset v.2 hid)

theorem generation?_of_mem (hk : m.class? c = some k) {id : MethodId} (hid : id ∈ ids) :
    k.generation? id.index = some .generate := by
  obtain ⟨f, a, ho⟩ := (h.all id).1 hid
  obtain rfl := ho.owner
  exact (generation?_of_class hk).1 ⟨f, ho.method, ho.generation⟩

variable (hm : m.Valid) (hk : m.class? c = some k) {m' : Model}
  (hk' : m'.class? c = some ((y.desk m k ids s own).settleAll c vs).cls) {id : MethodId}
include hm hk hk'

theorem generate_of_released (hid : id ∈ y.released m s vs) :
    ∃ f, m'.method? id = some f ∧ f.generation = .generate := by
  have hkc : k.id = c := (hm.consistent hk).id
  have hmem := h.released_subset hid
  have hself : (⟨k.id, id.index⟩ : MethodId) = id := by rw [hkc, ← h.owner_of_mem hmem]
  refine (generation?_of_class (h.owner_of_mem hmem ▸ hk')).2 ?_
  rw [generation?_settled, h.generation?_of_mem hk hmem, hself, Option.map_some, if_pos hid]

/-- Of a method that was taken in and not given back, only the tag has changed. -/
theorem method?_of_not_released {f : Method} {a : Accessor} (ho : m.Offers c id f a)
    (hid : id ∉ y.released m s vs) :
    m'.method? id = some { f with generation := .internal } := by
  have hkc : k.id = c := (hm.consistent hk).id
  have hself : (⟨k.id, id.index⟩ : MethodId) = id := by rw [hkc, ← ho.owner]
  have hmem : id ∈ ids := (h.all id).2 ⟨f, a, ho⟩
  have hf : k.methods[id.index]? = some f := by
    rw [← ho.method, method?, ho.owner, hk, Option.bind_some]
  obtain ⟨hgiven, hsettled⟩ := not_or.1 (List.mem_append.not.1 hid)
  have hdesk : (y.desk m k ids s own).cls.methods[id.index]? =
      some { f with generation := .internal } := by
    have hself' : (⟨(k.collected ids (m.documentedOwn own s.completed)).id, id.index⟩ : MethodId) =
        id := hself
    simp only [Synthesis.desk, Class.getElem?_tag, hself', if_neg hgiven]
    simp [Class.collected, hf, hself, hmem]
  rw [method?, ho.owner, hk', Option.bind_some]
  refine Desk.methods_settleAll hdesk rfl ?_
  exact hself.symm ▸ hsettled

end

variable (h : m.Processed y c k ids s own vs) (hborrow : ∀ id, m.Borrowable c id → id.owner ≠ c)
  (hkc : k.id = c)
include h hborrow hkc

/-- Every pending accessor is given back or kept. -/
theorem pending_perm :
    (y.released m s vs ++ ((vs.filterMap (·.2)).flatMap (·.accessors)).filter (·.owner == c)).Perm
      (s.properties.flatMap (·.accessors)) := by
  have hone : ∀ v ∈ vs, (v.1.released v.2 ++
      (v.2.toList.flatMap (·.accessors)).filter (·.owner == c)).Perm v.1.accessors := by
    intro v hv
    cases hq : v.2 with
    | none => simp [Property.released]
    | some q =>
      have hp : ∀ id ∈ v.1.accessors, id.owner = c := fun id hid => by
        exact (h.assembly.owner_of_mem (h.mem_of_verdict hv id hid)).trans hkc
      simpa [Property.released] using (h.kept v hv q hq).accessors_perm hp hborrow
  have hkept : ((vs.filterMap (·.2)).flatMap (·.accessors)).filter (·.owner == c) =
      vs.flatMap fun v => (v.2.toList.flatMap (·.accessors)).filter (·.owner == c) := by
    rw [List.filterMap_eq_flatMap_toList, List.flatMap_assoc, List.filter_flatMap]
  have hrest : (vs.flatMap fun v => v.1.accessors) =
      (s.properties.filter (! y.dismisses m ·)).flatMap (·.accessors) := by
    rw [← h.pending, List.flatMap_map]
  have hsettled := (List.flatMap_append_perm vs (fun v => v.1.released v.2) _).trans
    (List.Perm.flatMap_left vs hone)
  rw [hrest] at hsettled
  rw [Synthesis.released, hkept, List.append_assoc]
  refine (hsettled.append_left _).trans ?_
  rw [← List.flatMap_append]
  exact List.Perm.flatMap_right _ (List.filter_append_perm _ _)

variable (hdisjoint : ∀ p ∈ k.properties, ∀ id ∈ p.accessors, id ∉ ids)
include hdisjoint

/-- Every method that was taken in completes a property of the class, is given back or is kept, and
only one of these. -/
theorem accounted :
    ((own.flatMap (·.accessors)).filter (· ∈ ids) ++ (y.released m s vs ++
      ((vs.filterMap (·.2)).flatMap (·.accessors)).filter (·.owner == c))).Perm ids := by
  have hfree : (k.properties.flatMap (·.accessors)).filter (· ∈ ids) = [] := by
    refine List.filter_eq_nil_iff.2 fun id hid => ?_
    obtain ⟨p, hp, hid⟩ := List.mem_flatMap.1 hid
    simpa using hdisjoint p hp id hid
  -- only the methods that were taken in count, so the class's old accessors drop out
  have hperm := h.assembly.perm_filter (P := (· ∈ ids)) fun id hid => decide_eq_true hid
  rw [hfree, List.nil_append] at hperm
  exact ((h.pending_perm hborrow hkc).append_left _).trans hperm

/-- What completed a property of the class, or was kept, is not given back. -/
theorem not_released {id : MethodId} (hid : (∃ p ∈ own, id ∈ p.accessors ∧ id ∈ ids) ∨
    ∃ v ∈ vs, ∃ q, v.2 = some q ∧ id ∈ q.accessors ∧ id.owner = c) : id ∉ y.released m s vs := by
  -- the three parts of the account have no method in common
  have hnodup := (h.accounted hborrow hkc hdisjoint).nodup_iff.2 h.assembly.nodup
  obtain ⟨-, hrest, hown⟩ := List.nodup_append.1 hnodup
  obtain ⟨-, -, hkept⟩ := List.nodup_append.1 hrest
  intro hrel
  rcases hid with ⟨p, hp, hacc, hmem⟩ | ⟨v, hv, q, hq, hacc, howner⟩
  · have hin : id ∈ (own.flatMap (·.accessors)).filter (· ∈ ids) :=
      List.mem_filter.2 ⟨List.mem_flatMap.2 ⟨p, hp, hacc⟩, by simpa using hmem⟩
    exact hown id hin id (List.mem_append_left _ hrel) rfl
  · have hin : id ∈ ((vs.filterMap (·.2)).flatMap (·.accessors)).filter (·.owner == c) :=
      List.mem_filter.2 ⟨List.mem_flatMap.2 ⟨q, List.mem_filterMap.2 ⟨v, hv, hq⟩, hacc⟩, by
        simpa using howner⟩
    exact hkept id hrel id hin rfl

/-- If no two properties of the class shared an accessor of the class, none do afterwards. -/
theorem distinct
    (hdistinct : ((k.properties.flatMap (·.accessors)).filter (·.owner == c)).Nodup) :
    ((((y.desk m k ids s own).settleAll c vs).cls.properties.flatMap (·.accessors)).filter
      (·.owner == c)).Nodup := by
  have hperm := h.assembly.perm_filter (P := (·.owner == c)) fun id hid =>
    beq_iff_eq.2 ((h.assembly.owner_of_mem hid).trans hkc)
  have hnodup : ((k.properties.flatMap (·.accessors)).filter (·.owner == c) ++ ids).Nodup := by
    refine List.nodup_append.2 ⟨hdistinct, h.assembly.nodup, ?_⟩
    rintro a ha b hb rfl
    obtain ⟨p, hp, ha⟩ := List.mem_flatMap.1 (List.mem_of_mem_filter ha)
    exact hdisjoint p hp a ha hb
  have hall := (((h.pending_perm hborrow hkc).append_left _).trans hperm).nodup_iff.2 hnodup
  rw [Desk.properties_settleAll, properties_desk, List.flatMap_append, List.filter_append,
    flatMap_documentedOwn]
  exact hall.sublist ((List.sublist_append_right _ _).append_left _)

end Processed
end Model
end ApiProperties

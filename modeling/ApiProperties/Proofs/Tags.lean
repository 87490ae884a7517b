import ApiProperties.Proofs.Outline

/-!
Tagging several methods of a class at once. The methods tagged so far are a list of ids, so a run of
single steps is one `Class.tag`, and only membership in the list matters.
-/

set_option autoImplicit false

namespace ApiProperties

namespace Class

/-- The class with those of its methods that are listed tagged anew. -/
def tag (k : Class) (ids : List MethodId) (g : Generation) : Class :=
  { k with methods := k.methods.mapIdx fun i f =>
      if (⟨k.id, i⟩ : MethodId) ∈ ids then { f with generation := g } else f }

/-- The id is one of the class's methods, and the method is not left out. -/
structure Emits (k : Class) (id : MethodId) : Prop where
  owner : id.owner = k.id
  method : ∃ f, k.methods[id.index]? = some f ∧ f.isIgnored = false

variable (k : Class) (ids ids' : List MethodId) (g g' : Generation)

@[simp] theorem id_tag : (k.tag ids g).id = k.id := rfl
@[simp] theorem properties_tag : (k.tag ids g).properties = k.properties := rfl

@[simp] theorem getElem?_tag (i : Nat) :
    (k.tag ids g).methods[i]? = (k.methods[i]?).map fun f =>
      if (⟨k.id, i⟩ : MethodId) ∈ ids then { f with generation := g } else f := by
  simp [tag, List.getElem?_mapIdx]

theorem ext_methods {k k' : Class} (h : ∀ i : Nat, k.methods[i]? = k'.methods[i]?)
    (hrest : { k with methods := [] } = { k' with methods := [] }) : k = k' := by
  have hm : k.methods = k'.methods := List.ext_getElem? h
  cases k
  cases k'
  simp_all

@[simp] theorem tag_nil : k.tag [] g = k :=
  ext_methods (by simp) rfl

theorem tag_congr {ids ids' : List MethodId} (h : ∀ id, id ∈ ids ↔ id ∈ ids') :
    k.tag ids g = k.tag ids' g := by
  simp only [tag, h]

@[simp] theorem tag_tag_same : (k.tag ids g).tag ids' g = k.tag (ids ++ ids') g := by
  refine ext_methods (fun i => ?_) rfl
  simp only [getElem?_tag, id_tag, List.mem_append, Option.map_map]
  congr 1
  funext f
  by_cases h : (⟨k.id, i⟩ : MethodId) ∈ ids <;>
    by_cases h' : (⟨k.id, i⟩ : MethodId) ∈ ids' <;> simp [h, h']

/-- Tags that are taken back leave no trace. -/
theorem tag_restore {k : Class} {ids ids' : List MethodId} {g g' : Generation}
    (hsub : ∀ id ∈ ids, id ∈ ids')
    (hg : ∀ i f, (⟨k.id, i⟩ : MethodId) ∈ ids' → k.methods[i]? = some f → f.generation = g) :
    (k.tag ids g').tag ids' g = k := by
  refine ext_methods (fun i => ?_) rfl
  rw [getElem?_tag, getElem?_tag, Option.map_map]
  cases hf : k.methods[i]? with
  | none => rfl
  | some f =>
    by_cases h' : (⟨k.id, i⟩ : MethodId) ∈ ids'
    · have hgen := hg i f h' hf
      by_cases h : (⟨k.id, i⟩ : MethodId) ∈ ids <;> simp [h, h', ← hgen]
    · have h : (⟨k.id, i⟩ : MethodId) ∉ ids := fun h => h' (hsub _ h)
      simp [h, h']

theorem Emits.of_outline {k k' : Class} (h : k.outline = k'.outline) {id : MethodId}
    (hid : k.Emits id) : k'.Emits id := by
  obtain ⟨howner, f, hf, hi⟩ := hid
  have hk : k.id = k'.id := congrArg (·.id) h
  have hm : (k.outline.methods[id.index]?) = k'.outline.methods[id.index]? := by rw [h]
  simp only [outline, List.getElem?_map, hf, Option.map_some, eq_comm (a := some _),
    Option.map_eq_some_iff] at hm
  obtain ⟨f', hf', ho⟩ := hm
  exact ⟨howner.trans hk, f', hf', by
    rw [← Method.isIgnored_outline, ho, Method.isIgnored_outline, hi]⟩

/-- Tags that keep a method are no part of the outline. -/
theorem outline_tag {k : Class} {ids : List MethodId} {g : Generation}
    (h : ∀ id ∈ ids, k.Emits id) (hg : g ≠ .excluded) : (k.tag ids g).outline = k.outline := by
  refine ext_methods (fun i => ?_) rfl
  simp only [outline, List.getElem?_map, getElem?_tag, Option.map_map]
  refine Option.map_congr fun f hf => ?_
  by_cases hid : (⟨k.id, i⟩ : MethodId) ∈ ids
  · obtain ⟨f', hf', hi⟩ := (h _ hid).method
    obtain rfl : f = f' := Option.some.inj (Eq.trans (Eq.symm hf) hf')
    have hig : ({ f with generation := g } : Method).isIgnored = false := by
      cases g <;> simp_all [Method.isIgnored]
    simp [hid, Method.outline, hi, hig]
  · simp [hid]

end Class

namespace Model

theorem retag_putClass {m : Model} {c : ClassId} {k k₀ : Class} (hk₀ : m.class? c = some k₀)
    (hk : k.id = c) {id : MethodId} (hid : id.owner = c) (g : Generation) :
    (m.putClass c k).retag id g = m.putClass c (k.tag [id] g) := by
  subst hid
  rw [retag, modifyMethod, modifyClass_putClass]
  congr 1
  refine Class.ext_methods (fun i => ?_) rfl
  obtain ⟨o, j⟩ := id
  simp only [Class.modifyMethod, List.getElem?_modify, Class.getElem?_tag, hk, List.mem_singleton,
    MethodId.mk.injEq, true_and]
  by_cases h : j = i <;> simp [h, eq_comm (a := i)]

theorem method?_putClass_tag {m : Model} {c : ClassId} {k : Class} (k' : Class)
    (hk : m.class? c = some k) (hid : k.id = c) {ids : List MethodId}
    (hids : ∀ id ∈ ids, id.owner = c) {g : Generation}
    (hk' : k'.methods = (k.tag ids g).methods) (id : MethodId) :
    (m.putClass c k').method? id =
      (m.method? id).map fun f => if id ∈ ids then { f with generation := g } else f := by
  by_cases ho : id.owner = c
  · obtain ⟨o, i⟩ := id
    obtain rfl : o = c := ho
    rw [method?_putClass_self k' hk rfl, hk', Class.getElem?_tag, hid]
    simp [method?, hk]
  · have hmem : id ∉ ids := fun h => ho (hids id h)
    rw [method?_putClass_ne m k' ho]
    simp [hmem]

/-- What does not look at tags sees no difference. -/
theorem map_method?_putClass_tag {m : Model} {c : ClassId} {k : Class} (k' : Class)
    (hk : m.class? c = some k) (hid : k.id = c) {ids : List MethodId}
    (hids : ∀ id ∈ ids, id.owner = c) {g : Generation}
    (hk' : k'.methods = (k.tag ids g).methods) {β : Type} (r : Method → β)
    (hr : ∀ f : Method, r { f with generation := g } = r f) (id : MethodId) :
    ((m.putClass c k').method? id).map r = (m.method? id).map r := by
  rw [method?_putClass_tag k' hk hid hids hk', Option.map_map]
  congr 1
  funext f
  by_cases h : id ∈ ids <;> simp [h, hr]

end Model
end ApiProperties

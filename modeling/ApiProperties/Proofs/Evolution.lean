import ApiProperties.Proofs.Ownership

/-!
How a model evolves: it is processed, and methods are added to its classes, in any order. An orderly
model stays so, and an accessor that has been taken in stays in use.
-/

set_option autoImplicit false

namespace ApiProperties.Model

/-- What a step of the model's evolution keeps: who is used stays so, and who becomes internal is
used. -/
structure Keeps (m m' : Model) : Prop where
  uses : ∀ id, m.Uses id → m'.Uses id
  internal : ∀ id, m'.Internal id → m.Internal id ∨ m'.Uses id

/-- A model that runs and added methods keep in order. -/
structure Orderly (m : Model) : Prop where
  valid : m.Valid
  acyclic : m.Acyclic
  owned : m.WellOwned

theorem Orderly.run? {m : Model} (h : m.Orderly) (y : Synthesis) :
    ∃ t, y.run? m = some t ∧ t.model.Orderly ∧ m.Keeps t.model := by
  have hacyclic : ∀ {m' : Model}, m'.outline = m.outline → m'.Acyclic := fun hout =>
    acyclic_of_skeleton (skeleton_congr hout.symm) h.acyclic
  obtain ⟨t, ht, hvalid, hout, howned, hkeeps⟩ := h.valid.run?_induction y
    (fun t _ => t.model.WellOwned ∧ m.Keeps t.model)
    (fun _ _ _ => ⟨h.owned, fun _ hu => hu, fun _ hi => .inl hi⟩)
    (fun t c rest k ids s own vs hbefore hvalid hout hk _ hp => by
      obtain ⟨howned, huses, hinternal⟩ := hbefore
      have hac := hacyclic hout
      refine ⟨hp.wellOwned hvalid hk hac howned, fun id hu => hp.uses hk (huses id hu), ?_⟩
      intro id hi
      rcases hp.internal_or_used hvalid hk hac howned hi with hi | hu
      · exact (hinternal id hi).imp_right (hp.uses hk)
      · exact .inr hu)
  exact ⟨t, ht, ⟨hvalid, hacyclic hout, howned⟩, hkeeps⟩

theorem mergedComment?_mono {m m' : Model} {p : Property} {o : Option Comment}
    (h : ∀ id f, m.method? id = some f → m'.method? id = some f)
    (hp : ∀ id ∈ p.accessors, m.hasMethod id = true) (ho : m.mergedComment? p = some o) :
    m'.mergedComment? p = some o := by
  rw [← ho]
  refine mergedComment?_of_accessors fun id hid => ?_
  obtain ⟨f, hf⟩ := hasMethod_iff.1 (hp id hid)
  rw [hf, h id f hf]

section AddMethod
variable {m m' : Model} {c : ClassId} {f : Method} {id : MethodId}
  (h : m.addMethod? c f = some (m', id))
include h

theorem class?_addMethod? {d : ClassId} {k' : Class} (hk' : m'.class? d = some k') :
    ∃ k, m.class? d = some k ∧ k'.properties = k.properties ∧ k'.bases = k.bases ∧
      k'.definition = k.definition ∧
      ∀ (i : Nat) g, k.methods[i]? = some g → k'.methods[i]? = some g := by
  simp only [addMethod?, Option.bind_eq_bind, Option.bind_eq_some_iff] at h
  obtain ⟨k, hk, hm'⟩ := h
  obtain ⟨rfl, -⟩ := Prod.mk.inj (Option.some.inj hm')
  rw [class?_modifyClass] at hk'
  by_cases hcd : c = d
  · subst hcd
    simp only [if_true, hk, Option.map_some, Option.some.injEq] at hk'
    subst hk'
    refine ⟨k, hk, rfl, rfl, rfl, fun i g hg => ?_⟩
    rw [List.getElem?_append_left (List.getElem?_eq_some_iff.1 hg).1, hg]
  · rw [if_neg hcd] at hk'
    exact ⟨k', hk', rfl, rfl, rfl, fun _ _ hg => hg⟩

theorem length_addMethod? : m'.classes.length = m.classes.length := by
  simp only [addMethod?, Option.bind_eq_bind, Option.bind_eq_some_iff] at h
  obtain ⟨k, -, hm'⟩ := h
  obtain ⟨rfl, -⟩ := Prod.mk.inj (Option.some.inj hm')
  simp [modifyClass]

theorem class?_of_addMethod? {d : ClassId} {k : Class} (hk : m.class? d = some k) :
    ∃ k', m'.class? d = some k' ∧ k'.properties = k.properties ∧
      ∀ (i : Nat) g, k.methods[i]? = some g → k'.methods[i]? = some g := by
  have hlt : d < m'.classes.length := by
    rw [length_addMethod? h]
    exact of_decide_eq_true (hasClass_iff.2 ⟨k, hk⟩)
  obtain ⟨k', hk'⟩ := (hasClass_iff (m := m')).1 (decide_eq_true hlt)
  obtain ⟨k₁, hk₁, hp, -, -, hmethods⟩ := class?_addMethod? h hk'
  obtain rfl := Option.some.inj (hk.symm.trans hk₁)
  exact ⟨k', hk', hp, hmethods⟩

theorem method?_addMethod? {j : MethodId} {g : Method} (hg : m.method? j = some g) :
    m'.method? j = some g := by
  obtain ⟨k, hk, hg⟩ := Option.bind_eq_some_iff.1 hg
  obtain ⟨k', hk', -, hmethods⟩ := class?_of_addMethod? h hk
  rw [method?, hk', Option.bind_some]
  exact hmethods _ g hg

theorem skeleton_addMethod? : m'.skeleton = m.skeleton := by
  apply List.ext_getElem?
  intro d
  have hskeleton : ∀ n : Model,
      n.skeleton[d]? = (n.class? d).map fun k => (k.bases, k.definition) := fun n => by
    simp [skeleton, class?]
  rw [hskeleton, hskeleton]
  cases hk' : m'.class? d with
  | none =>
    cases hk : m.class? d with
    | none => rfl
    | some k =>
      obtain ⟨k', hsome, -⟩ := class?_of_addMethod? h hk
      simp [hk'] at hsome
  | some k' =>
    obtain ⟨k, hk, -, hb, hd, -⟩ := class?_addMethod? h hk'
    simp [hk, hb, hd]

theorem uses_addMethod? {j : MethodId} (hu : m.Uses j) : m'.Uses j := by
  obtain ⟨k, hk, p, hp, hj⟩ := hu
  obtain ⟨k', hk', hprops, -⟩ := class?_of_addMethod? h hk
  exact ⟨k', hk', p, hprops ▸ hp, hj⟩

theorem Orderly.addMethod? (ho : m.Orderly) (hv : m'.Valid) : m'.Orderly := by
  refine ⟨hv, acyclic_of_skeleton (skeleton_addMethod? h).symm ho.acyclic, fun d k' hk' => ?_⟩
  obtain ⟨k, hk, hprops, -⟩ := class?_addMethod? h hk'
  have hold := ho.owned d k hk
  have hlinks := (ho.valid.consistent hk).properties
  refine ⟨fun p hp => ?_, hprops ▸ hold.distinct⟩
  rw [hprops] at hp
  have hp' := hold.properties p hp
  refine ⟨hp'.readable, hp'.owner, fun j hj => ?_, fun j hj => ?_, ?_⟩
  · obtain ⟨g, hg, hgen⟩ := hp'.internal j hj
    exact ⟨g, method?_addMethod? h hg, hgen⟩
  · exact (hp'.inherited j hj).imp_right (ancestor_of_skeleton (skeleton_addMethod? h).symm)
  · exact mergedComment?_mono (fun _ _ => method?_addMethod? h)
      (fun j hj => (hlinks p hp).links j (List.mem_append_left _ hj)) hp'.comment

end AddMethod

/-- A run, or a method added to a class so that the model is still consistent. -/
inductive Step (m : Model) : Model → Prop
  | run {y : Synthesis} {t : Progress} (h : y.run? m = some t) : Step m t.model
  | add {c : ClassId} {f : Method} {m' : Model} {id : MethodId}
      (h : m.addMethod? c f = some (m', id)) (hv : m'.Valid) : Step m m'

def Evolves : Model → Model → Prop := Relation.ReflTransGen Step

theorem Step.orderly {m m' : Model} (h : m.Step m') (ho : m.Orderly) :
    m'.Orderly ∧ ∀ id, m.Uses id → m'.Uses id := by
  cases h with
  | @run y t h =>
    obtain ⟨t', ht', horderly, hkeeps⟩ := ho.run? y
    obtain rfl := Option.some.inj (h.symm.trans ht')
    exact ⟨horderly, hkeeps.uses⟩
  | add h hv => exact ⟨ho.addMethod? h hv, fun _ => uses_addMethod? h⟩

theorem Evolves.orderly {m m' : Model} (h : m.Evolves m') (ho : m.Orderly) :
    m'.Orderly ∧ ∀ id, m.Uses id → m'.Uses id := by
  induction h with
  | refl => exact ⟨ho, fun _ hu => hu⟩
  | tail _ hstep ih =>
    obtain ⟨horderly, huses⟩ := hstep.orderly ih.1
    exact ⟨horderly, fun id hu => huses id (ih.2 id hu)⟩

/-- Wherever a model without properties and without cyclic bases evolves to: runs answer, every
property has a getter, belongs to the class that lists it, has internal accessors and the comment
that these give it, and a method that some run has made internal is an accessor of just one property
of its class. -/
theorem evolution_keeps_accessors (m₀ : Model) (hm : m₀.Valid) (hfree : m₀.PropertyFree)
    (hac : m₀.Acyclic) :
    (∀ m, m₀.Evolves m → (∀ y : Synthesis, ∃ t, y.run? m = some t) ∧
      ∀ c k, m.class? c = some k → ∀ p ∈ k.properties, p.getter.isSome = true ∧ p.owner = c ∧
        (∀ id ∈ p.accessors, ∃ f, m.method? id = some f ∧ f.generation = .internal) ∧
        m.mergedComment? p = some p.comment) ∧
    ∀ (m₁ : Model) (y : Synthesis) (t : Progress) (m₂ : Model) (id : MethodId) (f g : Method),
      m₀.Evolves m₁ → y.run? m₁ = some t → t.model.Evolves m₂ →
      m₁.method? id = some f → f.generation = .generate →
      t.model.method? id = some g → g.generation = .internal →
      ∃ k, m₂.class? id.owner = some k ∧
        k.properties.countP (fun p => decide (id ∈ p.accessors)) = 1 := by
  have h₀ : m₀.Orderly := ⟨hm, hac, hfree.wellOwned⟩
  refine ⟨fun m hevolves => ?_, ?_⟩
  · obtain ⟨ho, -⟩ := hevolves.orderly h₀
    refine ⟨fun y => ?_, fun c k hk p hp => ?_⟩
    · obtain ⟨t, ht, -⟩ := ho.run? y
      exact ⟨t, ht⟩
    · have howned := (ho.owned c k hk).properties p hp
      exact ⟨howned.readable, howned.owner, howned.internal, howned.comment⟩
  · intro m₁ y t m₂ id f g hevolves ht hevolves' hf hfgen hg hggen
    obtain ⟨h₁, -⟩ := hevolves.orderly h₀
    obtain ⟨t', ht', horderly, hkeeps⟩ := h₁.run? y
    obtain rfl := Option.some.inj (ht.symm.trans ht')
    obtain ⟨h₂, huses⟩ := hevolves'.orderly horderly
    rcases hkeeps.internal id ⟨g, hg, hggen⟩ with ⟨f', hf', hgen⟩ | hu
    · obtain rfl := Option.some.inj (hf.symm.trans hf')
      rw [hfgen] at hgen
      simp at hgen
    · exact h₂.owned.uses_once (huses id hu)

/-- A shape with a width, and a square that overrides the getter of it. -/
def shapes : Model :=
  let int := QualifiedType.plain (.builtin .int)
  let shape := { Class.empty 0 "Shape" with
    methods := [.plain "getWidth" int, .plainSetter "setWidth" int] }
  let getter := { (Method.plain "getWidth" int).overriding ⟨0, 0⟩ with owner := 1 }
  let square := { Class.empty 1 "Square" with bases := [⟨0, .pub⟩], methods := [getter] }
  ⟨"unit", [shape, square]⟩

theorem acyclic_shapes : shapes.Acyclic := acyclic_of_parents (by decide)

/-- The square borrows the setter of the shape. -/
theorem evolution_keeps_accessors_shapes :
    shapes.Valid ∧ shapes.PropertyFree ∧ shapes.Acyclic ∧
    ((Synthesis.withoutVerbs.run? shapes).bind (·.model.class? 1)).map
      (fun k => k.properties.map (·.accessors)) = some [[⟨1, 0⟩, ⟨0, 1⟩]] ∧
    ∀ m, shapes.Evolves m → ∀ c k, m.class? c = some k → ∀ p ∈ k.properties, ∀ id ∈ p.accessors,
      ∃ f, m.method? id = some f ∧ f.generation = .internal := by
  have hvalid : shapes.Valid := by decide
  have hfree : shapes.PropertyFree := by decide
  refine ⟨hvalid, hfree, acyclic_shapes, by decide, fun m hm c k hk p hp => ?_⟩
  have hkeeps := (evolution_keeps_accessors shapes hvalid hfree acyclic_shapes).1 m hm
  exact (hkeeps.2 c k hk p hp).2.2.1

end ApiProperties.Model

import ApiProperties.Proofs.Outline

/-!
Consistency said declaratively: what `Model.Valid`, the absence of a first fault, means for every
class, method and property. Every check of a requirement answers, as no id is followed that is out of
range. Only the condition on properties looks at more than the outline.
-/

set_option autoImplicit false

namespace ApiProperties

structure Method.Consistent (m : Model) (c : ClassId) (f : Method) : Prop where
  owner : f.owner = c
  links : ∀ link ∈ f.overridden.toList ++ f.implemented.toList, m.hasMethod link = true
  returnType : f.returnType.type.tagsBelow m.classes.length = true
  parameters : ∀ p ∈ f.parameters, p.type.type.tagsBelow m.classes.length = true

structure Property.Consistent (m : Model) (c : ClassId) (p : Property) : Prop where
  owner : p.owner = c
  links : ∀ link ∈ p.accessors ++ p.implemented.toList, m.hasMethod link = true

structure Class.Consistent (m : Model) (c : ClassId) (k : Class) : Prop where
  id : k.id = c
  bases : ∀ b ∈ k.bases, m.hasClass b.target = true
  definition : ∀ d, k.definition = some d → m.hasClass d = true
  methods : ∀ f ∈ k.methods, f.Consistent m c
  properties : ∀ p ∈ k.properties, p.Consistent m c

namespace Requirement
variable {m : Model} {k : Class}

def holds (m : Model) : Requirement → Bool
  | id k index => k.id == index
  | base _ b => m.hasClass b.target
  | definition _ d => m.hasClass d
  | methodOwner k f => f.owner == k.id
  | methodLink _ _ link | propertyLink _ _ link => m.hasMethod link
  | returnType _ f => f.returnType.type.tagsBelow m.classes.length
  | parameterType _ _ p => p.type.type.tagsBelow m.classes.length
  | propertyOwner k p => p.owner == k.id

theorem check?_eq (m : Model) (r : Requirement) : r.check? m = some (r.holds m) := by
  cases r with
  | methodLink k f link => exact m.checkMethod?_eq link
  | propertyLink k p link => exact m.checkMethod?_eq link
  | _ => rfl

/-- The fault of the requirement, if it has one. -/
def fault? (m : Model) (r : Requirement) : Option Fault := if r.holds m then none else some r.fault

theorem fault?_eq_none {r : Requirement} : r.fault? m = none ↔ r.holds m = true := by
  rw [fault?, ite_eq_left_iff]
  simp

theorem holds_ofMethod {f : Method} :
    (∀ r ∈ ofMethod k f, r.holds m = true) ↔ f.Consistent m k.id := by
  simp only [ofMethod, List.forall_mem_append, List.forall_mem_map, List.forall_mem_singleton, holds,
    beq_iff_eq]
  constructor
  · rintro ⟨⟨⟨ho, hl⟩, hr⟩, hp⟩
    exact ⟨ho, List.forall_mem_append.2 hl, hr, hp⟩
  · rintro ⟨ho, hl, hr, hp⟩
    exact ⟨⟨⟨ho, List.forall_mem_append.1 hl⟩, hr⟩, hp⟩

theorem holds_ofProperty {p : Property} :
    (∀ r ∈ ofProperty k p, r.holds m = true) ↔ p.Consistent m k.id := by
  simp only [ofProperty, List.forall_mem_append, List.forall_mem_map, List.forall_mem_singleton,
    holds, beq_iff_eq]
  constructor
  · rintro ⟨ho, hl⟩
    exact ⟨ho, List.forall_mem_append.2 hl⟩
  · rintro ⟨ho, hl⟩
    exact ⟨ho, List.forall_mem_append.1 hl⟩

theorem holds_ofClass {c : ClassId} :
    (∀ r ∈ ofClass k c, r.holds m = true) ↔ k.Consistent m c := by
  simp only [ofClass, List.forall_mem_append, List.forall_mem_map, List.forall_mem_singleton,
    List.forall_mem_flatMap, Option.mem_toList, holds_ofMethod, holds_ofProperty]
  simp only [holds, beq_iff_eq]
  constructor
  · rintro ⟨⟨⟨⟨rfl, hb⟩, hd⟩, hm⟩, hp⟩
    exact ⟨rfl, hb, hd, hm, hp⟩
  · rintro ⟨rfl, hb, hd, hm, hp⟩
    exact ⟨⟨⟨⟨rfl, hb⟩, hd⟩, hm⟩, hp⟩

end Requirement

namespace Model

/-- Every check answers. -/
theorem checkAll?_eq_some (m : Model) :
    m.checkAll? = some (m.requirements.findSome? (·.fault? m)) := by
  rw [checkAll?]
  simp only [Requirement.check?_eq, Option.map_some]
  exact List.findSomeM?_pure

theorem fault?_eq (m : Model) : m.fault? = m.requirements.findSome? (·.fault? m) := by
  rw [fault?, checkAll?_eq_some, Option.join_some]

theorem valid_iff {m : Model} : m.Valid ↔ ∀ c k, m.class? c = some k → k.Consistent m c := by
  simp only [Valid, fault?_eq, List.findSome?_eq_none_iff, Requirement.fault?_eq_none, requirements,
    List.forall_mem_flatMap, Requirement.holds_ofClass, Prod.forall,
    List.mk_mem_zipIdx_iff_getElem?, class?]
  exact ⟨fun h c k => h k c, fun h k c => h c k⟩

namespace Valid
variable {m : Model} (hm : m.Valid)
include hm

theorem consistent {c : ClassId} {k : Class} (hk : m.class? c = some k) : k.Consistent m c :=
  valid_iff.1 hm c k hk

theorem bases_lt {c : ClassId} {k : Class} (hk : m.class? c = some k) :
    ∀ t ∈ k.bases.map (·.target), t < m.classes.length := by
  intro t ht
  obtain ⟨b, hb, rfl⟩ := List.mem_map.1 ht
  exact of_decide_eq_true ((hm.consistent hk).bases b hb)

theorem method_consistent {id : MethodId} {f : Method} (hf : m.method? id = some f) :
    f.Consistent m id.owner := by
  obtain ⟨k, hk, hf⟩ := Option.bind_eq_some_iff.1 hf
  exact (hm.consistent hk).methods f (List.mem_of_getElem? hf)

end Valid

end Model

/-! ### What is consistent stays so -/

section Outlines
variable {m m' : Model} (h : m.outline = m'.outline)
include h

theorem Property.Consistent.congr {c : ClassId} {p : Property} (hp : p.Consistent m c) :
    p.Consistent m' c :=
  ⟨hp.owner, fun link hl => Model.hasMethod_congr h link ▸ hp.links link hl⟩

theorem Method.Consistent.congr {c : ClassId} {f f' : Method} (ho : f.outline = f'.outline)
    (hf : f.Consistent m c) : f'.Consistent m' c := by
  have howner : f.owner = f'.owner := congrArg (·.owner) ho
  have hover : f.overridden = f'.overridden := congrArg (·.overridden) ho
  have himpl : f.implemented = f'.implemented := congrArg (·.implemented) ho
  have htype : f.returnType = f'.returnType := congrArg (·.returnType) ho
  have hparams : f.parameters = f'.parameters := congrArg (·.parameters) ho
  have hlength := Model.length_congr h
  refine ⟨howner ▸ hf.owner, fun link hl => ?_, ?_, fun p hp => ?_⟩
  · rw [← hover, ← himpl] at hl
    exact Model.hasMethod_congr h link ▸ hf.links link hl
  · rw [← htype, ← hlength]
    exact hf.returnType
  · rw [← hparams] at hp
    rw [← hlength]
    exact hf.parameters p hp

theorem Class.Consistent.congr {c : ClassId} {k k' : Class} (ho : k.outline = k'.outline)
    (hk : k.Consistent m c) (hp : ∀ p ∈ k'.properties, p.Consistent m' c) :
    k'.Consistent m' c := by
  have hid : k.id = k'.id := congrArg (·.id) ho
  have hbases : k.bases = k'.bases := congrArg (·.bases) ho
  have hdef : k.definition = k'.definition := congrArg (·.definition) ho
  have hmethods : k.methods.map (·.outline) = k'.methods.map (·.outline) :=
    congrArg (·.methods) ho
  refine ⟨hid ▸ hk.id, fun b hb => ?_, fun d hd => ?_, fun f' hf' => ?_, hp⟩
  · exact Model.hasClass_congr h b.target ▸ hk.bases b (hbases ▸ hb)
  · exact Model.hasClass_congr h d ▸ hk.definition d (hdef ▸ hd)
  · have hmem : f'.outline ∈ k.methods.map (·.outline) := hmethods ▸ List.mem_map_of_mem hf'
    obtain ⟨f, hf, hff⟩ := List.mem_map.1 hmem
    exact (hk.methods f hf).congr h hff

/-- Only properties can spoil the consistency of a model whose outline is that of a consistent
one. -/
theorem Model.Valid.congr (hm : m.Valid)
    (hp : ∀ c k, m'.class? c = some k → ∀ p ∈ k.properties, p.Consistent m' c) : m'.Valid := by
  refine Model.valid_iff.2 fun c k' hk' => ?_
  obtain ⟨k, hk, ho⟩ := Model.class?_of_outline h hk'
  exact (hm.consistent hk).congr h ho (hp c k' hk')

end Outlines
end ApiProperties

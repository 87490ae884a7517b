import ApiProperties.Proofs.Consistency

/-!
What a consistent model has to satisfy. A model is valid if it meets all its requirements, and its
fault is that of the first one it fails, in the order in which they are checked. Every model gets an
answer.
-/

set_option autoImplicit false

namespace ApiProperties

/-- The class occurs in the type, below any number of pointers and aliases. -/
inductive TypeExpr.Mentions : TypeExpr → ClassId → Prop
  | tag (c : ClassId) : Mentions (.tag c) c
  | pointer {t : TypeExpr} {c : ClassId} (const : Bool) (kind : PointerKind) (h : Mentions t c) :
    Mentions (.pointer t const kind) c
  | typedef {t : TypeExpr} {c : ClassId} (name : String) (const : Bool) (h : Mentions t c) :
    Mentions (.typedef name t const) c

theorem TypeExpr.tagsBelow_iff {t : TypeExpr} {n : Nat} :
    t.tagsBelow n = true ↔ ∀ c, t.Mentions c → c < n := by
  induction t with
  | builtin p => exact ⟨fun _ _ h => (nomatch h), fun _ => rfl⟩
  | named s => exact ⟨fun _ _ h => (nomatch h), fun _ => rfl⟩
  | tag c =>
    rw [tagsBelow, decide_eq_true_eq]
    refine ⟨fun h _ hc => ?_, fun h => h c (.tag c)⟩
    cases hc
    exact h
  | pointer t const kind ih =>
    rw [tagsBelow, ih]
    refine ⟨fun h c hc => ?_, fun h c hc => h c (.pointer const kind hc)⟩
    cases hc with
    | pointer _ _ hc => exact h c hc
  | typedef name t const ih =>
    rw [tagsBelow, ih]
    refine ⟨fun h c hc => ?_, fun h c hc => h c (.typedef name const hc)⟩
    cases hc with
    | typedef _ _ hc => exact h c hc

/-! ### Models without a fault -/

namespace Model

/-- The model has the classes that the type mentions. -/
def Knows (m : Model) (q : QualifiedType) : Prop := ∀ c, q.type.Mentions c → c < m.classes.length

/-- The link names a method of the model. -/
def Links (m : Model) (link : MethodId) : Prop := ∃ f, m.method? link = some f

theorem knows_iff {m : Model} {q : QualifiedType} :
    q.type.tagsBelow m.classes.length = true ↔ m.Knows q := TypeExpr.tagsBelow_iff

end Model

structure Method.Faultless (m : Model) (c : ClassId) (f : Method) : Prop where
  owner : f.owner = c
  overridden : ∀ link, f.overridden = some link → m.Links link
  implemented : ∀ link, f.implemented = some link → m.Links link
  returnType : m.Knows f.returnType
  parameters : ∀ p ∈ f.parameters, m.Knows p.type

structure Property.Faultless (m : Model) (c : ClassId) (p : Property) : Prop where
  owner : p.owner = c
  accessors : ∀ link ∈ p.accessors, m.Links link
  implemented : ∀ link, p.implemented = some link → m.Links link

structure Class.Faultless (m : Model) (c : ClassId) (k : Class) : Prop where
  id : k.id = c
  bases : ∀ b ∈ k.bases, b.target < m.classes.length
  definition : ∀ d, k.definition = some d → d < m.classes.length
  methods : ∀ f ∈ k.methods, f.Faultless m c
  properties : ∀ p ∈ k.properties, p.Faultless m c

section Faultless
variable {m : Model} {c : ClassId}

theorem Method.consistent_iff {f : Method} : f.Consistent m c ↔ f.Faultless m c := by
  constructor
  · intro h
    refine ⟨h.owner, fun link hl => ?_, fun link hl => ?_, ?_, fun p hp => ?_⟩
    · exact Model.hasMethod_iff.1 (h.links link (by simp [hl]))
    · exact Model.hasMethod_iff.1 (h.links link (by simp [hl]))
    · exact Model.knows_iff.1 h.returnType
    · exact Model.knows_iff.1 (h.parameters p hp)
  · intro h
    refine ⟨h.owner, fun link hl => ?_, Model.knows_iff.2 h.returnType, fun p hp => ?_⟩
    · rw [List.mem_append, Option.mem_toList, Option.mem_toList] at hl
      exact Model.hasMethod_iff.2 (hl.elim (h.overridden link) (h.implemented link))
    · exact Model.knows_iff.2 (h.parameters p hp)

theorem Property.consistent_iff {p : Property} : p.Consistent m c ↔ p.Faultless m c := by
  constructor
  · intro h
    refine ⟨h.owner, fun link hl => ?_, fun link hl => ?_⟩
    · exact Model.hasMethod_iff.1 (h.links link (List.mem_append_left _ hl))
    · exact Model.hasMethod_iff.1 (h.links link (by simp [hl]))
  · intro h
    refine ⟨h.owner, fun link hl => ?_⟩
    rw [List.mem_append, Option.mem_toList] at hl
    exact Model.hasMethod_iff.2 (hl.elim (h.accessors link) (h.implemented link))

theorem Class.consistent_iff {k : Class} : k.Consistent m c ↔ k.Faultless m c := by
  constructor
  · intro h
    refine ⟨h.id, fun b hb => of_decide_eq_true (h.bases b hb),
      fun d hd => of_decide_eq_true (h.definition d hd), fun f hf => ?_, fun p hp => ?_⟩
    · exact Method.consistent_iff.1 (h.methods f hf)
    · exact Property.consistent_iff.1 (h.properties p hp)
  · intro h
    refine ⟨h.id, fun b hb => decide_eq_true (h.bases b hb),
      fun d hd => decide_eq_true (h.definition d hd), fun f hf => ?_, fun p hp => ?_⟩
    · exact Method.consistent_iff.2 (h.methods f hf)
    · exact Property.consistent_iff.2 (h.properties p hp)

end Faultless

/-! ### Requirements -/

namespace Requirement
variable {m : Model} {r : Requirement}

def Met (m : Model) : Requirement → Prop
  | id k index => k.id = index
  | base _ b => b.target < m.classes.length
  | definition _ d => d < m.classes.length
  | methodOwner k f => f.owner = k.id
  | methodLink _ _ link | propertyLink _ _ link => m.Links link
  | returnType _ f => m.Knows f.returnType
  | parameterType _ _ p => m.Knows p.type
  | propertyOwner k p => p.owner = k.id

theorem holds_iff : r.holds m = true ↔ r.Met m := by
  cases r with
  | id k index => exact beq_iff_eq
  | base k b => exact decide_eq_true_iff
  | definition k d => exact decide_eq_true_iff
  | methodOwner k f => exact beq_iff_eq
  | methodLink k f link => exact Model.hasMethod_iff
  | returnType k f => exact Model.knows_iff
  | parameterType k f p => exact Model.knows_iff
  | propertyOwner k p => exact beq_iff_eq
  | propertyLink k p link => exact Model.hasMethod_iff

theorem fault?_eq_some {f : Fault} : r.fault? m = some f ↔ ¬ r.Met m ∧ r.fault = f := by
  rw [← holds_iff, fault?]
  cases r.holds m <;> simp

end Requirement

namespace Model
variable {m : Model}

/-- The fault of the first requirement that is not met. -/
theorem fault?_eq_some_iff {f : Fault} : m.fault? = some f ↔
    ∃ before r after, m.requirements = before ++ r :: after ∧ (∀ q ∈ before, q.Met m) ∧ ¬ r.Met m ∧
      r.fault = f := by
  rw [fault?_eq, List.findSome?_eq_some_iff]
  simp only [Requirement.fault?_eq_none, Requirement.fault?_eq_some, Requirement.holds_iff]
  constructor
  · rintro ⟨before, r, after, hsplit, ⟨hr, hf⟩, hbefore⟩
    exact ⟨before, r, after, hsplit, hbefore, hr, hf⟩
  · rintro ⟨before, r, after, hsplit, hbefore, hr, hf⟩
    exact ⟨before, r, after, hsplit, ⟨hr, hf⟩, hbefore⟩

theorem checkAll?_eq (m : Model) : m.checkAll? = some m.fault? := by
  rw [fault?_eq, checkAll?_eq_some]

end Model
end ApiProperties

import ApiProperties.Proofs.Settlement

/-!
Bringing a property in line with the one it overrides. The property comes out readable and writable
as the inherited one is, without a setter if nothing is inherited, and each accessor that it lost is
a plain method again.
-/

set_option autoImplicit false

namespace ApiProperties

namespace Property

/-- The property with the accessors that go with those of its base. -/
def inLineWith (p : Property) (b : BaseAccessors) : Property :=
  if p.getter.isNone && b.setter.isSome then { p with getter := b.getter }
  else if p.setter.isNone || b.setter.isNone then { p with setter := b.setter }
  else p

/-- The accessors of the property that are none of `q`. -/
def departed (p q : Property) : List MethodId := p.accessors.filter (· ∉ q.accessors)

variable {p : Property} {b : BaseAccessors}

theorem halves_of_ne_nil (hne : p.accessors ≠ []) (hg : p.getter = none) :
    p.setter.isSome = true := by
  cases hs : p.setter with
  | none => simp [accessors, hg, hs] at hne
  | some s => rfl

/-- The property can be written just in case its base can. -/
theorem setter_inLineWith (hne : p.accessors ≠ []) :
    (p.inLineWith b).setter.isSome = b.setter.isSome := by
  cases hb : b.setter with
  | none => simp [inLineWith, hb]
  | some s =>
    cases hg : p.getter with
    | none => simp [inLineWith, hb, hg, halves_of_ne_nil hne hg]
    | some g => cases hs : p.setter <;> simp [inLineWith, hb, hg, hs]

theorem getter_inLineWith
    (h : p.getter.isSome = true ∨ b.getter.isSome = true ∧ b.setter.isSome = true) :
    (p.inLineWith b).getter.isSome = true := by
  cases hg : p.getter with
  | none =>
    obtain ⟨hbg, hbs⟩ : b.getter.isSome = true ∧ b.setter.isSome = true := by simpa [hg] using h
    simp [inLineWith, hg, hbg, hbs]
  | some g => cases hs : p.setter <;> cases hb : b.setter <;> simp [inLineWith, hg, hs, hb]

@[simp] theorem setter_yielded (p : Property) : p.yielded.setter = none := by
  cases hs : p.setter <;> simp [yielded, hs]

theorem getter_of_yielded (h : p.yielded.getter.isSome = true) :
    p.getter.isSome = true ∧ p.setter.isSome = true := by
  cases hs : p.setter with
  | none => simp [yielded, hs] at h
  | some s => simpa [yielded, hs] using h

end Property

namespace Model
variable {m : Model} {c : ClassId} {p q : Property}

/-- An accessor of the property overrides a method. -/
def Overriding (m : Model) (p : Property) : Prop :=
  ∃ id ∈ p.accessors, ∃ f, m.method? id = some f ∧ f.isOverride = true

/-- What a property that came out as `q` has lost, it has no more in any role. -/
theorem Reshaped.lost_eq (h : m.Reshaped c p q) (hnodup : p.accessors.Nodup) :
    p.lost q = p.departed q := by
  have hdistinct : ∀ {g s}, p.getter = some g → p.setter = some s → s ≠ g := by
    rintro g s hg hs rfl
    simp [Property.accessors, hg, hs] at hnodup
  rw [Property.departed]
  cases h with
  | plain => simp
  | orphan =>
    cases hg : p.getter with
    | none =>
      cases hs : p.setter <;>
        simp [Property.yielded, Property.lost, Property.accessors, hg, hs]
    | some g =>
      cases hs : p.setter with
      | none => simp [Property.yielded, Property.lost, Property.accessors, hg, hs]
      | some s =>
        simp [Property.yielded, Property.lost, Property.accessors, hg, hs, hdistinct hg hs]
  | borrowsGetter hb hg hs =>
    obtain ⟨s, hs⟩ := Option.isSome_iff_exists.1 hs
    simp [Property.lost, Property.accessors, hg, hs]
  | borrowsSetter hb hs hg hp =>
    obtain ⟨g, hg⟩ := Option.isSome_iff_exists.1 hg
    simp [Property.lost, Property.accessors, hg, hp]
  | losesSetter =>
    cases hs : p.setter with
    | none => cases hg : p.getter <;> simp [Property.lost, Property.accessors, hg, hs]
    | some s =>
      cases hg : p.getter with
      | none => simp [Property.lost, Property.accessors, hg, hs]
      | some g => simp [Property.lost, Property.accessors, hg, hs, hdistinct hg hs]

section Reshaping
variable (hp : ∀ id ∈ p.accessors, m.hasMethod id = true)
include hp

theorem isOverriding?_eq_true : m.isOverriding? p = some true ↔ m.Overriding p := by
  rw [isOverriding?_eq_some hp, Option.some.injEq, List.any_eq_true, Overriding]
  refine exists_congr fun id => and_congr_right fun hid => ?_
  obtain ⟨f, hf⟩ := hasMethod_iff.1 (hp id hid)
  simp [hf]

theorem isOverriding?_eq_false : m.isOverriding? p = some false ↔ ¬ m.Overriding p := by
  rw [← isOverriding?_eq_true hp, isOverriding?_eq_some hp]
  simp

theorem reshaped?_of_plain (h : ¬ m.Overriding p) : m.reshaped? c p = some p := by
  simp [reshaped?, (isOverriding?_eq_false hp).2 h]

theorem reshaped?_of_orphan (h : m.Overriding p) (hb : m.findBaseProperty? c p = some none) :
    m.reshaped? c p = some p.yielded := by
  simp [reshaped?, (isOverriding?_eq_true hp).2 h, hb]

theorem reshaped?_of_inherited (h : m.Overriding p) {b : BaseAccessors}
    (hb : m.findBaseProperty? c p = some (some b)) :
    m.reshaped? c p = some (p.inLineWith b) := by
  simp only [reshaped?, (isOverriding?_eq_true hp).2 h, hb, Option.bind_eq_bind, Option.bind_some,
    if_true, Option.pure_def, Property.inLineWith, apply_ite some]

end Reshaping

/-- What the comparison with its base has made of a property and of the model. -/
structure Conforms (m : Model) (c : ClassId) (p : Property) (m' : Model) (q : Property) (n : Nat) :
    Prop where
  plain : ¬ m.Overriding p → m' = m ∧ q = p ∧ n = 0
  inherited : m.Overriding p → ∀ b, m.findBaseProperty? c p = some (some b) →
    (q.setter.isSome = true ↔ b.setter.isSome = true) ∧
      (p.getter.isSome = true ∨ b.getter.isSome = true ∧ b.setter.isSome = true →
        q.getter.isSome = true)
  orphan : m.Overriding p → m.findBaseProperty? c p = some none →
    q.setter = none ∧ (q.getter.isSome = true → p.getter.isSome = true ∧ p.setter.isSome = true)
  count : n = (p.departed q).length
  methods : ∀ id, m'.method? id = (m.method? id).map fun f =>
    if id ∈ p.departed q then { f with generation := .generate } else f
  rest : ∀ k, m.class? c = some k → m' = m.putClass c (k.tag (p.departed q) .generate)

/-- A property of a class comes out with the shape of the one that it overrides, and what it lost
is given back. -/
theorem resolveOverride?_conforms (m : Model) (hm : m.Valid) (c : ClassId) (hc : m.IsDefinition c)
    (p : Property) (hne : p.accessors ≠ []) (hnodup : p.accessors.Nodup)
    (hown : ∀ id ∈ p.accessors, id.owner = c ∧
      (m.method? id).map (·.generation) = some .internal) :
    (∃ r, m.findBaseProperty? c p = some r) ∧
      ∃ m' q n, m.resolveOverride? c p = some (m', q, n) ∧ m.Conforms c p m' q n := by
  obtain ⟨k, hk⟩ := hc.listed
  have hkc : k.id = c := (hm.consistent hk).id
  have hemits : ∀ id ∈ p.accessors, k.Emits id := by
    intro id hid
    obtain ⟨howner, hgen⟩ := hown id hid
    obtain ⟨f, hf, hinternal⟩ := Option.map_eq_some_iff.1 hgen
    refine ⟨howner.trans hkc.symm, f, ?_, by simp [Method.isIgnored, hinternal]⟩
    rwa [method?, howner, hk, Option.bind_some] at hf
  have hlinks : ∀ id ∈ p.accessors, m.hasMethod id = true := fun id hid =>
    hm.hasMethod_of_emits hk (hemits id hid)
  obtain ⟨r, hr, -⟩ := hm.findBaseProperty?_total hk hc hlinks
  obtain ⟨q, hq, hreshaped⟩ := hm.reshaped?_total hk hc hlinks
  have hresolve := hm.resolveOverride?_putClass hk hc rfl hemits
  rw [putClass_self hk, hq, Option.map_some, hreshaped.lost_eq hnodup] at hresolve
  refine ⟨⟨r, hr⟩, _, q, _, hresolve, ?_, ?_, ?_, rfl, ?_, ?_⟩
  · intro hplain
    obtain rfl := Option.some.inj ((reshaped?_of_plain hlinks hplain).symm.trans hq)
    simp [← hreshaped.lost_eq hnodup, putClass_self hk]
  · intro hover b hb
    obtain rfl := Option.some.inj ((reshaped?_of_inherited hlinks hover hb).symm.trans hq)
    exact ⟨by rw [Property.setter_inLineWith hne], Property.getter_inLineWith⟩
  · intro hover hb
    obtain rfl := Option.some.inj ((reshaped?_of_orphan hlinks hover hb).symm.trans hq)
    exact ⟨p.setter_yielded, Property.getter_of_yielded⟩
  · have hdeparted : ∀ id ∈ p.departed q, id.owner = c := fun id hid =>
      (hown id (List.mem_of_mem_filter hid)).1
    exact method?_putClass_tag _ hk hkc hdeparted rfl
  · intro k' hk'
    rw [Option.some.inj (hk'.symm.trans hk)]

/-- A shape whose width can only be read, and a square that overrides its getter and adds a setter,
in the middle of the synthesis. -/
def readOnly : Model :=
  let int := QualifiedType.plain (.builtin .int)
  let getter := { Method.plain "getWidth" int with generation := .internal }
  let setter := { Method.plain "setWidth" .void with
    owner := 1, generation := .internal, parameters := [⟨"value", .regular, int⟩] }
  ⟨"unit", [
    { Class.empty 0 "Shape" with
      methods := [getter]
      properties := [{ Property.plain "width" int 0 .pub with getter := some ⟨0, 0⟩ }] },
    { Class.empty 1 "Square" with
      bases := [⟨0, .pub⟩], methods := [{ getter.overriding ⟨0, 0⟩ with owner := 1 }, setter] }]⟩

def readOnly.width : Property :=
  { Property.plain "width" (.plain (.builtin .int)) 1 .pub with
    getter := some ⟨1, 0⟩, setter := some ⟨1, 1⟩ }

/-- The square's setter is given back. -/
theorem resolveOverride?_conforms_readOnly : readOnly.Valid ∧ readOnly.IsDefinition 1 ∧
    readOnly.width.accessors ≠ [] ∧ readOnly.width.accessors.Nodup ∧
    (∀ id ∈ readOnly.width.accessors, id.owner = 1 ∧
      (readOnly.method? id).map (·.generation) = some .internal) ∧
    (readOnly.resolveOverride? 1 readOnly.width).map (fun r => (r.2.1.setter, r.2.2)) =
      some (none, 1) ∧
    (∃ r, readOnly.findBaseProperty? 1 readOnly.width = some r) ∧
      ∃ m' q n, readOnly.resolveOverride? 1 readOnly.width = some (m', q, n) ∧
        readOnly.Conforms 1 readOnly.width m' q n :=
  have hvalid : readOnly.Valid := by decide
  have hdef : readOnly.IsDefinition 1 := by decide
  have hne : readOnly.width.accessors ≠ [] := by decide
  have hnodup : readOnly.width.accessors.Nodup := by decide
  have hown : ∀ id ∈ readOnly.width.accessors, id.owner = 1 ∧
      (readOnly.method? id).map (·.generation) = some .internal := by decide
  ⟨hvalid, hdef, hne, hnodup, hown, by decide,
    resolveOverride?_conforms readOnly hvalid 1 hdef readOnly.width hne hnodup hown⟩

end Model
end ApiProperties

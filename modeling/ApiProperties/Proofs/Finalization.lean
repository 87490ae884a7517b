import ApiProperties.Proofs.Provenance

/-!
What a property without a setter stands for. Its getter is a method of its own class and has no
overloads there. That is found out before the other pending properties are settled and members are
renamed, and it is still so at the end, since it depends on the outline of the class alone.
-/

set_option autoImplicit false

namespace ApiProperties.Model

/-- No other method of class `k` that is not left out has the original name of method `id`. -/
def StandsAlone (m : Model) (k : Class) (id : MethodId) : Prop :=
  ∃ f, m.method? id = some f ∧ ∀ i g, k.methods[i]? = some g → (⟨k.id, i⟩ : MethodId) ≠ id →
    g.generation ≠ .excluded → g.originalName ≠ f.originalName

variable {m n m' : Model} {c : ClassId} {k k' : Class} {y : Synthesis} {ids : List MethodId}
  {s : Pending} {vs : List (Property × Option Property)} {p p₀ : Property} {id : MethodId}

theorem Valid.standsAlone_of_hasOverloads? (hm : m.Valid) (hk : m.class? c = some k)
    (h : m.hasOverloads? c id = some false) : m.StandsAlone k id := by
  have hkc : k.id = c := (hm.consistent hk).id
  obtain ⟨f, hf⟩ : ∃ f, m.method? id = some f := by
    cases hf : m.method? id with
    | none => simp [hasOverloads?, hf] at h
    | some f => exact ⟨f, rfl⟩
  refine ⟨f, hf, fun i g hg hne hgen hname => ?_⟩
  rw [hm.hasOverloads?_eq_some hk hf, Option.some.injEq, List.any_eq_false] at h
  have hmem : (⟨k.id, i⟩ : MethodId) ∈ k.methodIds :=
    List.mem_map_of_mem (List.mem_range.2 (List.getElem?_eq_some_iff.1 hg).1)
  have hg' : m.method? ⟨k.id, i⟩ = some g := by simp [method?, hkc, hk, hg]
  have hnot := h _ hmem
  simp [hne, hg', Method.isIgnored, hgen, hname] at hnot

/-- A borrowed getter comes with a setter of the class. -/
theorem Descends.own_getter (h : m.Descends y m' c p₀ p) (hm : m.Valid) (hk : m.class? c = some k)
    (hs : p.setter = none) : ∃ g, p.getter = some g ∧ g.owner = c := by
  have hown : ∀ g, p₀.getter = some g → g.owner = c := fun g hg => by
    obtain ⟨f, a, ho⟩ := h.assembled.offers hm hk g (Property.mem_accessors.2 (.inl hg))
    exact ho.owner
  cases h.remains with
  | whole hp hg _ => exact ⟨_, hg, hown _ hp⟩
  | returned hp _ _ _ _ hg _ => exact ⟨_, hg, hown _ hp⟩
  | borrowsGetter _ _ _ hs' => simp [hs] at hs'
  | borrowsSetter _ _ _ hs' => simp [hs] at hs'

theorem Built.stays (h : n.Built y c k k' ids s vs) (hp : p ∈ k'.properties) :
    n.stays? c p = some true := by
  rw [h.properties_eq] at hp
  obtain ⟨v, hv, hq⟩ := List.mem_filterMap.1 hp
  have hlinks := fun id hid => h.valid.hasMethod_of_emits h.listed
    (h.processed.emits h.valid h.listed hv id hid)
  have hverdict := h.processed.verdict v hv
  rw [hq] at hverdict
  obtain ⟨r, -, -, hstays, hpr⟩ :=
    h.valid.reshaped?_of_verdict? h.listed h.definition hlinks hverdict
  rw [hpr]
  exact hstays

theorem getter_of_stays? (h : m.stays? c p = some true) : ∃ g, p.getter = some g ∧
    (p.setter = none → m.hasOverloads? c g = some false) := by
  cases hg : p.getter with
  | none => simp [stays?, hg] at h
  | some g => exact ⟨g, rfl, fun hs => by simpa [stays?, hg, hs] using h⟩

/-- After a run every property has a getter, and if it has no setter its getter is a method of the
class that has no overloads there. -/
theorem run_lone_getters (m : Model) (hm : m.Valid) (hfree : m.PropertyFree) (y : Synthesis) :
    ∃ t, y.run? m = some t ∧ ∀ c k', t.model.class? c = some k' → ∀ p ∈ k'.properties,
      p.getter.isSome = true ∧ (p.setter = none →
        ∃ g, p.getter = some g ∧ g.owner = c ∧ t.model.StandsAlone k' g) := by
  obtain ⟨t, ht, hvalid, hout, h⟩ := hm.run?_building hfree y
  refine ⟨t, ht, fun c k' hk' p hp => ?_⟩
  obtain ⟨n, k, ids, s, vs, hout', hk, hbuilt⟩ := h.built_of_property hfree hk' hp
  obtain ⟨g, hg, halone⟩ := getter_of_stays? (hbuilt.stays hp)
  refine ⟨by simp [hg], fun hs => ?_⟩
  obtain ⟨p₀, hdescends⟩ := hbuilt.descends hk' hm hk hout' hp
  obtain ⟨g', hg', howner⟩ := hdescends.own_getter hm hk hs
  obtain rfl := Option.some.inj (hg.symm.trans hg')
  -- the class was settled in another model, but of the same outline
  have hsame := hasOverloads?_congr (hout'.trans hout.symm) c g
  exact ⟨g, hg, howner, hvalid.standsAlone_of_hasOverloads? hk' (hsame ▸ halone hs)⟩

/-- Rows have an overload that is left out, columns have one that is not, and a square overrides
the getter of the rows. -/
def matrix : Model :=
  let int := QualifiedType.plain (.builtin .int)
  let block (name : String) : Method := { Method.plain name int with
    parameters := [⟨"from", .regular, int⟩, ⟨"to", .regular, int⟩] }
  ⟨"unit", [
    { Class.empty 0 "Matrix" with
      methods := [.plain "rows" int, { block "rows" with generation := .excluded },
        .plain "columns" int, block "columns"] },
    { Class.empty 1 "Square" with
      bases := [⟨0, .pub⟩]
      methods := [{ (Method.plain "rows" int).overriding ⟨0, 0⟩ with owner := 1 }] }]⟩

theorem run_lone_getters_matrix : matrix.Valid ∧ matrix.PropertyFree ∧
    (Synthesis.withoutVerbs.run? matrix).map (fun t =>
      t.model.classes.map fun k => k.properties.map (·.accessors)) =
        some [[[⟨0, 0⟩]], [[⟨1, 0⟩]]] ∧
    ∃ t, Synthesis.withoutVerbs.run? matrix = some t ∧ ∀ c k', t.model.class? c = some k' →
      ∀ p ∈ k'.properties, p.getter.isSome = true ∧ (p.setter = none →
        ∃ g, p.getter = some g ∧ g.owner = c ∧ t.model.StandsAlone k' g) :=
  have hvalid : matrix.Valid := by decide
  have hfree : matrix.PropertyFree := by decide
  ⟨hvalid, hfree, by decide, run_lone_getters matrix hvalid hfree .withoutVerbs⟩

end ApiProperties.Model

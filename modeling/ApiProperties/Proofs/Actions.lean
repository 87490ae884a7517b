import ApiProperties.Proofs.Provenance

/-!
What the heuristics leave of getters that read as actions. They are given up before overrides are
settled, so what is committed without a setter can still read as an action: if it had a setter then
and lost it to its base.
-/

set_option autoImplicit false

namespace ApiProperties

/-- Heuristics, with a dictionary of one word. -/
def Synthesis.withVerb (verb : String) : Synthesis := ⟨true, ⟨[verb]⟩⟩

namespace Model
variable {m m' : Model} {c : ClassId} {k : Class} {y : Synthesis} {p₀ p : Property}

theorem actionLike_of_not_dismissed (hy : y.useHeuristics = true)
    (h : y.dismisses m p = false) {g : MethodId} {f : Method} (hg : p.getter = some g)
    (hs : p.setter = none) (hf : m.method? g = some f) : isActionLike f.name y.verbs = false := by
  simpa [Synthesis.dismisses, Property.readsAsAction, hy, hg, hs, hf] using h

/-- The getter and the setter were a pair that overrides something, and the setter was given back
when it was compared with its base. -/
structure Divided (m m' : Model) (c : ClassId) (g s : MethodId) (p : Property) : Prop where
  assembled : m.Assembles c p
  getter : p.getter = some g
  setter : p.setter = some s
  overriding : m.isOverriding? p = some true
  returned : ∃ f, m'.method? s = some f ∧ f.generation = .generate

theorem Descends.divided (h : m.Descends y m' c p₀ p) (hm : m.Valid) (hk : m.class? c = some k)
    (hy : y.useHeuristics = true) (hs : p.setter = none) {g : MethodId} {f : Method}
    (hg : p.getter = some g) (hf : m'.method? g = some f)
    (haction : isActionLike f.name y.verbs = true) : ∃ s, m.Divided m' c g s p₀ := by
  cases h.remains with
  | borrowsGetter _ _ _ hs' => simp [hs] at hs'
  | borrowsSetter _ _ _ hs' => simp [hs] at hs'
  | returned hp hp' ho hf' hgen hg' =>
    obtain rfl := Option.some.inj (hg.symm.trans hg')
    exact ⟨_, h.assembled, hp, hp', ho, _, hf', hgen⟩
  | whole hp hg' hs' =>
    obtain rfl := Option.some.inj (hg.symm.trans hg')
    obtain ⟨f₀, a, ho⟩ := h.assembled.offers hm hk g (Property.mem_accessors.2 (.inl hp))
    obtain ⟨f₁, hf₁, hsame⟩ := h.internal g (Property.mem_accessors.2 (.inl hg)) ho.owner
    obtain rfl := Option.some.inj (hf.symm.trans hsame)
    have hnot := actionLike_of_not_dismissed hy h.settled hp (hs'.symm.trans hs) hf₁
    rw [hnot] at haction
    simp at haction

/-- After a run with heuristics the getter of a property without a setter reads as an action only
if it had been paired with a setter that the pair lost to its base. -/
theorem run_actions_divided (m : Model) (hm : m.Valid) (hfree : m.PropertyFree) (y : Synthesis)
    (hy : y.useHeuristics = true) :
    ∃ t, y.run? m = some t ∧ ∀ c k', t.model.class? c = some k' → ∀ p ∈ k'.properties, ∀ g f,
      p.setter = none → p.getter = some g → t.model.method? g = some f →
        isActionLike f.name y.verbs = true → ∃ s p₀, m.Divided t.model c g s p₀ := by
  obtain ⟨t, ht, -, hall⟩ := hm.run?_descends hfree y
  refine ⟨t, ht, fun c k' hk' p hp g f hs hg hf haction => ?_⟩
  obtain ⟨k, hk, p₀, h⟩ := hall c k' hk' p hp
  obtain ⟨s, hdivided⟩ := h.divided hm hk hy hs hg hf haction
  exact ⟨s, p₀, hdivided⟩

/-- A view that overrides the getter of a class without properties, and has a setter for it. -/
def refresh : Model :=
  let int := QualifiedType.plain (.builtin .int)
  let update := Method.plain "update" int
  ⟨"unit", [
    { Class.empty 0 "Source" with methods := [update] },
    { Class.empty 1 "View" with
      bases := [⟨0, .pub⟩]
      methods := [{ update.overriding ⟨0, 0⟩ with owner := 1 },
        { Method.plainSetter "setUpdate" int with owner := 1 }] }]⟩

/-- The view's property `update` has lost the setter `setUpdate`, with which the getter was pending. -/
theorem run_actions_divided_refresh : refresh.Valid ∧ refresh.PropertyFree ∧
    (Synthesis.withVerb "update").useHeuristics = true ∧
    ∃ t k' p p₀, (Synthesis.withVerb "update").run? refresh = some t ∧
      t.model.class? 1 = some k' ∧ k'.properties = [p] ∧ p.name = "update" ∧
      p.getter = some ⟨1, 0⟩ ∧ p.setter = none ∧ refresh.Divided t.model 1 ⟨1, 0⟩ ⟨1, 1⟩ p₀ := by
  have hvalid : refresh.Valid := by decide
  have hfree : refresh.PropertyFree := by decide
  obtain ⟨t, ht, hall⟩ := run_actions_divided refresh hvalid hfree (.withVerb "update") rfl
  have hclass : (((Synthesis.withVerb "update").run? refresh).bind (·.model.class? 1)).map
      (fun k => k.properties.map fun p => (p.name, p.getter, p.setter)) =
        some [("update", some ⟨1, 0⟩, none)] := by decide
  have hmethod : (((Synthesis.withVerb "update").run? refresh).bind
      (·.model.method? ⟨1, 0⟩)).map (·.name) = some "update" := by decide
  rw [ht, Option.bind_some] at hclass hmethod
  obtain ⟨k', hk', hproperties⟩ := Option.map_eq_some_iff.1 hclass
  obtain ⟨p, hp, hsame⟩ := List.map_eq_singleton_iff.1 hproperties
  obtain ⟨hname, hboth⟩ := Prod.mk.inj hsame
  obtain ⟨hg, hs⟩ := Prod.mk.inj hboth
  obtain ⟨f, hf, hfname⟩ := Option.map_eq_some_iff.1 hmethod
  obtain ⟨s, p₀, hdivided⟩ := hall 1 k' hk' p (by simp [hp]) ⟨1, 0⟩ f hs hg hf
    (by rw [hfname]; decide)
  -- only one property is pending, with both methods of the class
  have hsetter : p₀.setter ∈ [some ⟨1, 1⟩] := hdivided.assembled.mem_map (·.setter) (by decide)
  rw [List.mem_singleton, hdivided.setter, Option.some.injEq] at hsetter
  subst hsetter
  exact ⟨hvalid, hfree, rfl, t, k', p, p₀, ht, hk', hp, hname, hg, hs, hdivided⟩

/-- The view's getter is no action as long as it has its setter, and is committed without it. -/
theorem run_actions_refresh :
    ¬ ∀ (m : Model) (y : Synthesis) (t : Progress), m.Valid → m.PropertyFree →
      y.useHeuristics = true → y.run? m = some t → ∀ c k', t.model.class? c = some k' →
        ∀ p ∈ k'.properties, ∀ g f, p.setter = none → p.getter = some g →
          t.model.method? g = some f → isActionLike f.name y.verbs = false := by
  intro h
  let y := Synthesis.withVerb "update"
  have hrun : ((y.run? refresh).map fun t => ((t.model.class? 1).map fun k => k.properties.map
        fun p => (p.getter, p.setter), (t.model.method? ⟨1, 0⟩).map (·.name))) =
      some (some [(some ⟨1, 0⟩, none)], some "update") := by decide
  obtain ⟨t, ht, hboth⟩ := Option.map_eq_some_iff.1 hrun
  obtain ⟨hclass, hmethod⟩ := Prod.mk.inj hboth
  obtain ⟨k', hk', hprops⟩ := Option.map_eq_some_iff.1 hclass
  obtain ⟨f, hf, hname⟩ := Option.map_eq_some_iff.1 hmethod
  obtain ⟨p, hp, hboth⟩ := List.mem_map.1 (hprops ▸ List.mem_singleton.2 rfl)
  obtain ⟨hgetter, hsetter⟩ := Prod.mk.inj hboth
  have hnot := h refresh y t (by decide) (by decide) rfl ht 1 k' hk' p hp ⟨1, 0⟩ f hsetter hgetter hf
  have haction : isActionLike "update" y.verbs = true := by decide
  rw [hname, haction] at hnot
  simp at hnot

end Model
end ApiProperties

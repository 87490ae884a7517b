import Mathlib.Data.List.Pairwise
import ApiProperties.Proofs.Traits

/-!
Getters and setters that share a property. The two halves of a property that has both from its own
class fit together in type, static-ness and name. Conversely a getter and a setter that fit together,
and of which no other method of the class can take one, get a property of their own, wherever they
are declared.
-/

set_option autoImplicit false

namespace ApiProperties

/-- What a method offers is told by what it is: a getter, or a setter of something. -/
theorem Method.accessor?_cases {f : Method} {a : Accessor} (h : f.accessor? = some a) :
    f.isGetter = true ∧ a = ⟨.getter, propertyNameFromGetter f.name, f.returnType⟩ ∨
      f.isSetter = true ∧ ∃ x, f.regularParameters = [x] ∧
        a = ⟨.setter, propertyNameFromSetter f.name, x.type⟩ := by
  cases hg : f.isGetter with
  | true =>
    simp only [accessor?, hg, if_true, Option.some.injEq] at h
    exact .inl ⟨rfl, h.symm⟩
  | false =>
    cases hs : f.isSetter with
    | true =>
      have hone := hs
      simp only [isSetter, Bool.and_eq_true, beq_iff_eq] at hone
      obtain ⟨x, hx⟩ := List.length_eq_one_iff.1 hone.2
      simp only [accessor?, hg, hs, if_true, Bool.false_eq_true, if_false, hx, List.head?_cons,
        Option.map_some] at h
      split at h
      · cases h
      · exact .inr ⟨rfl, x, hx, (Option.some.inj h).symm⟩
    | false => simp [accessor?, hg, hs] at h

/-- Getter `f` and setter `f'` are the halves of the property. -/
structure Property.Unites (p : Property) (f f' : Method) : Prop where
  isStatic : f.isStatic = f'.isStatic
  underlying : ∃ x, f'.regularParameters = [x] ∧ f.returnType.underlying = x.type.underlying
  setterName : p.name = propertyNameFromSetter f'.name
  getterName : p.name = propertyNameFromGetter f.name ∨
    p.name = readWritePropertyName f.name p.name
  type : p.type = f.returnType

namespace Model
variable {m m' : Model} {c : ClassId} {k : Class} {y : Synthesis} {ids : List MethodId} {s : Pending}
  {own : List Property} {p₀ p : Property} {g s' : MethodId} {f f' : Method} {n : String}

/-! ### The halves of a property -/

/-- If the property has both halves, what they offer goes together. -/
def Fitting (m : Model) (c : ClassId) (p : Property) : Prop :=
  ∀ g s f f' a a', p.getter = some g → p.setter = some s → m.Offers c g f a → m.Offers c s f' a' →
    f.isStatic = f'.isStatic ∧ a.type.underlying = a'.type.underlying

theorem WellMade.fitting_attach {id : MethodId} {a : Accessor} (hp : m.WellMade c p)
    (ho : m.Offers c id f a) (ha : m.Accepts id a p) : m.Fitting c (p.attach id f a) := by
  obtain ⟨-, hfree, j, f₁, f₂, hj, hf₁, hf₂, hstatic, htype, -⟩ := ha
  obtain rfl := Option.some.inj (ho.method.symm.trans hf₂)
  obtain ⟨role, name, type⟩ := a
  cases role with
  | getter =>
    have hnone : p.getter = none := hfree
    have hsetter : p.setter = some j := hj
    rintro g s f₃ f₄ a₃ a₄ ⟨⟩ hs hg' hs'
    obtain rfl := Option.some.inj (hsetter.symm.trans hs)
    obtain ⟨rfl, rfl⟩ := ho.inj hg'
    obtain ⟨f₅, a₅, ho₅, -, -, hp₅⟩ := hp.setter j hsetter
    obtain ⟨rfl, rfl⟩ := ho₅.inj hs'
    obtain rfl := Option.some.inj (hf₁.symm.trans hs'.method)
    rw [hp₅ hnone] at htype
    exact ⟨hstatic.symm, htype.symm⟩
  | setter =>
    have hgetter : p.getter = some j := hj
    rintro g s f₃ f₄ a₃ a₄ hg ⟨⟩ hg' hs'
    obtain rfl := Option.some.inj (hgetter.symm.trans hg)
    obtain ⟨rfl, rfl⟩ := ho.inj hs'
    obtain ⟨f₅, a₅, hclaim, -, hp₅, -⟩ := hp.getter j hgetter
    obtain ⟨rfl, rfl⟩ := hclaim.offers.inj hg'
    obtain rfl := Option.some.inj (hf₁.symm.trans hg'.method)
    rw [hp₅] at htype
    exact ⟨hstatic, htype⟩

theorem Assembly.fitting (h : m.Assembly k ids s own) : ∀ p ∈ s.properties, m.Fitting k.id p := by
  induction h with
  | start => simp [Pending.empty]
  | complete _ _ _ _ _ _ ih => exact ih
  | join h ho _ _ hp ha _ ih =>
    intro q hq
    rcases mem_modify hp hq with rfl | hq
    · exact (h.wellMade _ (List.mem_of_getElem? hp)).fitting_attach ho (accepts?_eq_true.1 ha)
    · exact ih q hq
  | @create _ _ _ id f a _ _ _ _ _ ih =>
    intro q hq
    rcases List.mem_append.1 hq with hq | hq
    · exact ih q hq
    · -- one half is missing
      obtain rfl := List.mem_singleton.1 hq
      intro g s _ _ _ _ hg hs
      cases hr : a.role <;> simp [Property.single, Property.attach, Property.plain, hr] at hg hs

theorem Assembles.unites (h : m.Assembles c p) (hm : m.Valid) (hk : m.class? c = some k)
    {s : MethodId} (hg : p.getter = some g) (hs : p.setter = some s) (hf : m.method? g = some f)
    (hf' : m.method? s = some f') : p.Unites f f' := by
  obtain ⟨ids, t, own, hassembly, -, hp⟩ := h.assembly hm hk
  have hfitting := (hm.consistent hk).id ▸ hassembly.fitting p hp
  have hmade := h.wellMade hm hk
  obtain ⟨f₁, a, hclaim, hr, htype, -⟩ := hmade.getter g hg
  obtain ⟨f₂, a', ho', hr', hname', -⟩ := hmade.setter s hs
  obtain rfl := Option.some.inj (hf.symm.trans hclaim.offers.method)
  obtain rfl := Option.some.inj (hf'.symm.trans ho'.method)
  obtain ⟨hstatic, hunderlying⟩ := hfitting g s f f' a a' hg hs hclaim.offers ho'
  rcases Method.accessor?_cases hclaim.offers.accessor with ⟨-, rfl⟩ | ⟨-, _, -, rfl⟩
  · rcases Method.accessor?_cases ho'.accessor with ⟨-, rfl⟩ | ⟨-, x, hx, rfl⟩
    · cases hr'
    · refine ⟨hstatic, ⟨x, hx, hunderlying⟩, hname'.symm, ?_, htype⟩
      exact hclaim.name.imp Eq.symm fun h => h.2.symm
  · cases hr

/-- After a run the getter and the setter of a property fit together, if both are methods of the class.
Of either only the tag has changed since it was a candidate. -/
theorem run_unites (m : Model) (hm : m.Valid) (hfree : m.PropertyFree) (y : Synthesis) :
    ∃ t, y.run? m = some t ∧ ∀ c k', t.model.class? c = some k' → ∀ p ∈ k'.properties,
      ∀ g s, p.getter = some g → p.setter = some s → g.owner = c → s.owner = c →
        ∃ f f', m.method? g = some f ∧ m.method? s = some f' ∧
          t.model.method? g = some { f with generation := .internal } ∧
          t.model.method? s = some { f' with generation := .internal } ∧
          f.isCandidate = true ∧ f'.isCandidate = true ∧ p.Unites f f' := by
  obtain ⟨t, ht, -, hall⟩ := hm.run?_descends hfree y
  refine ⟨t, ht, fun c k' hk' p hp g s hg hs hgc hsc => ?_⟩
  obtain ⟨k, hk, p₀, h⟩ := hall c k' hk' p hp
  -- a property that lost or borrowed a half does not have two of its own
  obtain ⟨hg₀, hs₀⟩ : p₀.getter = some g ∧ p₀.setter = some s := by
    cases h.remains with
    | whole hp₀ hg' hs' => exact ⟨hp₀.trans (hg'.symm.trans hg), hs'.symm.trans hs⟩
    | returned _ _ _ _ _ _ hs' => cases hs'.symm.trans hs
    | borrowsGetter _ _ hg' _ hne => cases hg'.symm.trans hg; exact absurd hgc hne
    | borrowsSetter _ _ _ hs' hne => cases hs'.symm.trans hs; exact absurd hsc hne
  obtain ⟨f, hf, hf'⟩ := h.internal g (Property.mem_accessors.2 (.inl hg)) hgc
  obtain ⟨f₁, hf₁, hf₁'⟩ := h.internal s (Property.mem_accessors.2 (.inr hs)) hsc
  have hoffers := h.assembled.offers hm hk
  obtain ⟨f₂, a, ho⟩ := hoffers g (Property.mem_accessors.2 (.inl hg₀))
  obtain ⟨f₃, a', ho'⟩ := hoffers s (Property.mem_accessors.2 (.inr hs₀))
  obtain rfl := Option.some.inj (hf.symm.trans ho.method)
  obtain rfl := Option.some.inj (hf₁.symm.trans ho'.method)
  have hu := h.assembled.unites hm hk hg₀ hs₀ hf hf₁
  have hname : p.name = p₀.name := congrArg (·.name) h.rest
  refine ⟨f, f₁, hf, hf₁, hf', hf₁', ho.candidate, ho'.candidate, ?_⟩
  exact ⟨hu.isStatic, hu.underlying, hname ▸ hu.setterName, hname ▸ hu.getterName,
    h.type.trans hu.type⟩

/-- Two pairs of accessors, with a setter that comes before its getter and takes a reference. -/
def panel : Model :=
  let int := QualifiedType.plain (.builtin .int)
  let bool := QualifiedType.plain (.builtin .bool)
  .ofMembers [.plainSetter "setWidth" (int.toConst.pointerTo .lValueReference),
    .plain "isReady" bool, .plain "getWidth" int, .plainSetter "setReady" bool] []

/-- The second property is `ready`, with the getter `isReady` and the setter `setReady`. -/
theorem run_unites_panel : panel.Valid ∧ panel.PropertyFree ∧
    ∃ t k' p f f', Synthesis.withoutVerbs.run? panel = some t ∧ t.model.class? 0 = some k' ∧
      k'.properties[1]? = some p ∧ p.name = "ready" ∧ p.getter = some ⟨0, 1⟩ ∧
      p.setter = some ⟨0, 3⟩ ∧ panel.method? ⟨0, 1⟩ = some f ∧ f.name = "isReady" ∧
      panel.method? ⟨0, 3⟩ = some f' ∧ f'.name = "setReady" ∧
      t.model.method? ⟨0, 1⟩ = some { f with generation := .internal } ∧
      t.model.method? ⟨0, 3⟩ = some { f' with generation := .internal } ∧ p.Unites f f' := by
  have hvalid : panel.Valid := by decide
  have hfree : panel.PropertyFree := by decide
  obtain ⟨t, ht, hall⟩ := run_unites panel hvalid hfree .withoutVerbs
  have hrun : ((Synthesis.withoutVerbs.run? panel).bind fun t => t.model.class? 0).bind
      (fun k => (k.properties[1]?).map fun p => (p.name, p.getter, p.setter)) =
        some ("ready", some ⟨0, 1⟩, some ⟨0, 3⟩) := by decide
  rw [ht, Option.bind_some] at hrun
  obtain ⟨k', hk', hp⟩ := Option.bind_eq_some_iff.1 hrun
  obtain ⟨p, hp, heq⟩ := Option.map_eq_some_iff.1 hp
  obtain ⟨hname, hg, hs⟩ : p.name = "ready" ∧ p.getter = some ⟨0, 1⟩ ∧ p.setter = some ⟨0, 3⟩ := by
    simpa using heq
  obtain ⟨f, f', hf, hf', hinternal, hinternal', -, -, hunites⟩ :=
    hall 0 k' hk' p (List.mem_of_getElem? hp) _ _ hg hs rfl rfl
  have hgetter : (panel.method? ⟨0, 1⟩).map (·.name) = some "isReady" := by decide
  have hsetter : (panel.method? ⟨0, 3⟩).map (·.name) = some "setReady" := by decide
  rw [hf, Option.map_some, Option.some.injEq] at hgetter
  rw [hf', Option.map_some, Option.some.injEq] at hsetter
  exact ⟨hvalid, hfree, t, k', p, f, f', ht, hk', hp, hname, hg, hs, hf, hgetter, hf', hsetter,
    hinternal, hinternal', hunites⟩

/-! ### Getters and setters without rivals -/

/-- The method is a candidate of the class for the synthesis. -/
structure Candidate (m : Model) (c : ClassId) (id : MethodId) (f : Method) : Prop where
  owner : id.owner = c
  method : m.method? id = some f
  candidate : f.isCandidate = true

/-- Getter `f` and setter `f'` are candidates of the class that fit together and give a property the
same name `n`. -/
structure Partners (m : Model) (c : ClassId) (n : String) (g s : MethodId) (f f' : Method) :
    Prop where
  getter : m.Candidate c g f
  isGetter : f.isGetter = true
  setter : m.Candidate c s f'
  isSetter : f'.isSetter = true
  isStatic : f.isStatic = f'.isStatic
  underlying : ∀ x ∈ f'.regularParameters, f.returnType.underlying = x.type.underlying
  getterName : propertyNameFromGetter f.name = n
  setterName : propertyNameFromSetter f'.name = n
  nonempty : n ≠ ""

/-- No other candidate of the class can be a half of a property named `n`, or be paired with getter
`g`, declared as `f`. -/
structure Unrivalled (m : Model) (c : ClassId) (n : String) (g s : MethodId) (f : Method) :
    Prop where
  getters : ∀ id h, m.Candidate c id h → h.isGetter = true → id ≠ g →
    propertyNameFromGetter h.name ≠ n ∧ readWritePropertyName h.name n ≠ n
  setters : ∀ id h, m.Candidate c id h → h.isSetter = true → id ≠ s →
    propertyNameFromSetter h.name ≠ n ∧
      readWritePropertyName f.name (propertyNameFromSetter h.name) ≠ propertyNameFromSetter h.name

theorem Offers.toCandidate {id : MethodId} {a : Accessor} (h : m.Offers c id f a) :
    m.Candidate c id f := ⟨h.owner, h.method, h.candidate⟩

theorem Candidate.of_class (hk : m'.class? c = m.class? c) {id : MethodId}
    (h : m.Candidate c id f) : m'.Candidate c id f :=
  ⟨h.owner, (method?_of_class hk h.owner).trans h.method, h.candidate⟩

theorem Unrivalled.of_class (hk : m'.class? c = m.class? c) (h : m.Unrivalled c n g s' f) :
    m'.Unrivalled c n g s' f :=
  ⟨fun id f₁ hc => h.getters id f₁ (hc.of_class hk.symm),
    fun id f₁ hc => h.setters id f₁ (hc.of_class hk.symm)⟩

theorem Partners.of_class (hk : m'.class? c = m.class? c) (h : m.Partners c n g s' f f') :
    m'.Partners c n g s' f f' :=
  { h with getter := h.getter.of_class hk, setter := h.setter.of_class hk }

namespace Partners
variable (h : m.Partners c n g s' f f')
include h

theorem offers_getter : m.Offers c g f ⟨.getter, n, f.returnType⟩ :=
  ⟨h.getter.owner, h.getter.method, h.getter.candidate, by
    simp [Method.accessor?, h.isGetter, h.getterName]⟩

theorem offers_setter :
    ∃ x : Parameter, m.Offers c s' f' ⟨.setter, n, x.type⟩ ∧ f.returnType.underlying = x.type.underlying := by
  have hone := h.isSetter
  simp only [Method.isSetter, Bool.and_eq_true, beq_iff_eq] at hone
  obtain ⟨x, hx⟩ := List.length_eq_one_iff.1 hone.2
  have hgetter : f'.isGetter = false := by simp [Method.isGetter, hx]
  refine ⟨x, ⟨h.setter.owner, h.setter.method, h.setter.candidate, ?_⟩,
    h.underlying x (hx ▸ List.mem_singleton.2 rfl)⟩
  simp [Method.accessor?, hgetter, h.isSetter, h.setterName, h.nonempty, hx]

end Partners

namespace Unrivalled
variable (h : m.Unrivalled c n g s' f) (hp : m.WellMade c p) {id : MethodId}
include h hp

/-- What is named `n` has no other getter and no other setter. -/
theorem getter_eq (hname : p.name = n) (hid : p.getter = some id) : id = g := by
  by_contra hne
  obtain ⟨f₁, a, hclaim, hr, -⟩ := hp.getter id hid
  rcases Method.accessor?_cases hclaim.offers.accessor with ⟨hg, rfl⟩ | ⟨-, _, -, rfl⟩
  · obtain ⟨hn, hrw⟩ := h.getters id f₁ hclaim.offers.toCandidate hg hne
    rcases hclaim.name with hclaimed | ⟨-, hclaimed⟩
    · exact hn (hclaimed.trans hname)
    · exact hrw (hname ▸ hclaimed)
  · cases hr

theorem setter_eq (hname : p.name = n) (hid : p.setter = some id) : id = s' := by
  by_contra hne
  obtain ⟨f₁, a, ho, hr, hn, -⟩ := hp.setter id hid
  rcases Method.accessor?_cases ho.accessor with ⟨-, rfl⟩ | ⟨hs, _, -, rfl⟩
  · cases hr
  · exact (h.setters id f₁ ho.toCandidate hs hne).1 (hn.trans hname)

/-- The getter's property is named `n`: no other setter could have renamed it. -/
theorem name_of_getter (ho : m.Offers c g f ⟨.getter, n, f.returnType⟩) (hg : p.getter = some g)
    (hs : p.setter ≠ some s') : p.name = n := by
  obtain ⟨f₁, a, hclaim, -, -, halone⟩ := hp.getter g hg
  obtain ⟨rfl, rfl⟩ := ho.inj hclaim.offers
  cases hsetter : p.setter with
  | none => exact (halone hsetter).symm
  | some id =>
    obtain ⟨f₂, a', ho', hr', hn', -⟩ := hp.setter id hsetter
    rcases Method.accessor?_cases ho'.accessor with ⟨-, rfl⟩ | ⟨hs', _, -, rfl⟩
    · cases hr'
    · have hrw := (h.setters id f₂ ho'.toCandidate hs' fun heq => hs (heq ▸ hsetter)).2
      rcases hclaim.name with hclaimed | ⟨-, hclaimed⟩
      · exact hclaimed.symm
      · exact absurd (by rwa [← hn'] at hclaimed) hrw

end Unrivalled

/-! ### What unrivalled partners get -/

/-- No two pending properties have an accessor in common. -/
theorem Assembly.eq_of_shared (h : m.Assembly k ids s own) {p q : Property}
    (hp : p ∈ s.properties) (hq : q ∈ s.properties) {id : MethodId} (hid : id ∈ p.accessors)
    (hid' : id ∈ q.accessors) : p = q := by
  have hdisjoint := (List.nodup_flatMap.1 h.nodup_pending).2
  have : Std.Symm (Function.onFun List.Disjoint (·.accessors) : Property → Property → Prop) :=
    ⟨fun _ _ hxy => hxy.symm⟩
  by_contra hne
  exact hdisjoint.forall hp hq hne hid hid'

theorem Assembly.nodup_properties (h : m.Assembly k ids s own) : s.properties.Nodup := by
  have hdisjoint := (List.nodup_flatMap.1 h.nodup_pending).2
  refine hdisjoint.imp_of_mem fun {p q} hp _ hpq heq => ?_
  obtain ⟨id, hid⟩ := List.exists_mem_of_ne_nil _ (h.wellMade p hp).accessors
  exact hpq hid (heq ▸ hid)

/-- In a class without properties every offer goes to a pending one. -/
theorem Assembly.exists_pending (h : m.Assembly k ids s own) (hfree : k.properties = [])
    {id : MethodId} (hid : id ∈ ids) : ∃ p ∈ s.properties, id ∈ p.accessors := by
  have hmem := h.perm.mem_iff (a := id)
  simp only [h.own_eq_nil hfree, hfree, List.flatMap_nil, List.nil_append] at hmem
  exact List.mem_flatMap.1 (hmem.2 hid)

/-- A method is the half of its property that it offers. -/
theorem WellMade.half_of_mem (hp : m.WellMade c p) {id : MethodId} {a : Accessor}
    (ho : m.Offers c id f a) (hid : id ∈ p.accessors) : p.half a.role = some id := by
  rcases Property.mem_accessors.1 hid with hg | hs
  · obtain ⟨f₁, a₁, hclaim, hr, -⟩ := hp.getter id hg
    obtain ⟨rfl, rfl⟩ := ho.inj hclaim.offers
    rw [hr]
    exact hg
  · obtain ⟨f₁, a₁, ho₁, hr, -⟩ := hp.setter id hs
    obtain ⟨rfl, rfl⟩ := ho.inj ho₁
    rw [hr]
    exact hs

section Meeting
variable (h : m.Assembly k ids s own) (hpair : m.Partners k.id n g s' f f')
  (hrivals : m.Unrivalled k.id n g s' f)
include h hpair hrivals

/-- The property of the getter and that of the setter are one. -/
theorem Assembly.eq_of_partners {q : Property} (hp : p ∈ s.properties) (hq : q ∈ s.properties)
    (hg : p.getter = some g) (hs : q.setter = some s') : p = q := by
  by_contra hne
  obtain ⟨x, ho, hunderlying⟩ := hpair.offers_setter
  have hmade := h.wellMade p hp
  have hmade' := h.wellMade q hq
  have hps : p.setter ≠ some s' := fun hps => hne <| h.eq_of_shared hp hq
    (Property.mem_accessors.2 (.inr hps)) (Property.mem_accessors.2 (.inr hs))
  have hqg : q.getter ≠ some g := fun hqg => hne <| h.eq_of_shared hp hq
    (Property.mem_accessors.2 (.inl hg)) (Property.mem_accessors.2 (.inl hqg))
  obtain ⟨f₁, a, hclaim, -, htype, -⟩ := hmade.getter g hg
  obtain ⟨f₂, a', ho', -, hname', htype'⟩ := hmade'.setter s' hs
  obtain ⟨rfl, rfl⟩ := hpair.offers_getter.inj hclaim.offers
  obtain ⟨rfl, rfl⟩ := ho.inj ho'
  have hname : p.name = n := hrivals.name_of_getter hmade hpair.offers_getter hg hps
  -- each of the two lacks the other half, so the later one would have been taken in
  have hpnone : p.setter = none :=
    Option.eq_none_iff_forall_ne_some.2 fun id hid => hps (hrivals.setter_eq hmade hname hid ▸ hid)
  have hqnone : q.getter = none := Option.eq_none_iff_forall_ne_some.2 fun id hid =>
    hqg (hrivals.getter_eq hmade' hname'.symm hid ▸ hid)
  obtain ⟨i, hi⟩ := List.mem_iff_getElem?.1 hp
  obtain ⟨j, hj⟩ := List.mem_iff_getElem?.1 hq
  have hij : i ≠ j := by
    rintro rfl
    exact hne (Option.some.inj (hi.symm.trans hj))
  rcases h.apart hij hi hj (hname.trans hname') hpnone hqnone g s' f f' hg hs
    hpair.getter.method hpair.setter.method with hstatic | htypes
  · exact hstatic hpair.isStatic
  · exact htypes (by rw [htype, htype' hqnone, hunderlying])

/-- Partners that were offered share the only pending property of their name. -/
theorem Assembly.exists_shared (hfree : k.properties = []) (hg : g ∈ ids) (hs : s' ∈ ids) :
    ∃ p ∈ s.properties, p.getter = some g ∧ p.setter = some s' ∧
      ∀ q ∈ s.properties, q.name = n ↔ q = p := by
  obtain ⟨x, ho, -⟩ := hpair.offers_setter
  obtain ⟨p, hp, hgp⟩ := h.exists_pending hfree hg
  obtain ⟨q, hq, hsq⟩ := h.exists_pending hfree hs
  have hgetter : p.getter = some g := (h.wellMade p hp).half_of_mem hpair.offers_getter hgp
  have hsetter : q.setter = some s' := (h.wellMade q hq).half_of_mem ho hsq
  obtain rfl := h.eq_of_partners hpair hrivals hp hq hgetter hsetter
  obtain ⟨f₂, a', ho', -, hname', -⟩ := (h.wellMade p hp).setter s' hsetter
  obtain ⟨rfl, rfl⟩ := ho.inj ho'
  refine ⟨p, hp, hgetter, hsetter, fun q hq => ⟨fun hname => ?_, fun heq => heq ▸ hname'.symm⟩⟩
  obtain ⟨id, hid⟩ := List.exists_mem_of_ne_nil _ (h.wellMade q hq).accessors
  rcases Property.mem_accessors.1 hid with hqg | hqs
  · obtain rfl := hrivals.getter_eq (h.wellMade q hq) hname hqg
    exact h.eq_of_shared hq hp hid hgp
  · obtain rfl := hrivals.setter_eq (h.wellMade q hq) hname hqs
    exact h.eq_of_shared hq hp hid hsq

end Meeting

section Settling
variable {vs : List (Property × Option Property)} (h : m.Processed y c k ids s own vs)
include h

/-- A property with both halves, neither of which overrides anything, is kept as it is. -/
theorem Processed.verdict_of_plain (hm : m.Valid) (hk : m.class? c = some k)
    {v : Property × Option Property} (hv : v ∈ vs) (hg : v.1.getter = some g)
    (hs : v.1.setter = some s') (ho : m.isOverriding? v.1 = some false) :
    ∃ q, v.2 = some q ∧ q.getter = some g ∧ q.setter = some s' := by
  obtain ⟨o, hcomment⟩ := mergedComment?_total fun id hid =>
    hm.hasMethod_of_emits hk (h.emits hm hk hv id hid)
  have hverdict := h.verdict v hv
  simp only [verdict?, reshaped?, ho, Bool.false_eq_true, if_false, Option.bind_eq_bind,
    Option.bind_some, Option.pure_def, stays?, hg, hs, Option.isSome_some, if_true, hcomment,
    Option.some.injEq] at hverdict
  exact ⟨_, hverdict.symm, rfl, rfl⟩

/-- What a settled property loses nothing of is not given back. -/
theorem Processed.not_released_of_plain {v : Property × Option Property} (hv : v ∈ vs)
    (hplain : v.1.released v.2 = []) (hsettled : y.dismisses m v.1 = false) {id : MethodId}
    (hid : id ∈ v.1.accessors) : id ∉ y.released m s vs := by
  have hp := h.mem_pending hv
  intro hrel
  rcases List.mem_append.1 hrel with hrel | hrel
  · obtain ⟨q, hq, hid'⟩ := List.mem_flatMap.1 hrel
    obtain ⟨hq, hdismissed⟩ := List.mem_filter.1 hq
    rw [← h.assembly.eq_of_shared hp hq hid hid', hsettled] at hdismissed
    cases hdismissed
  · obtain ⟨w, hw, hid'⟩ := List.mem_flatMap.1 hrel
    have hsame := h.assembly.eq_of_shared hp (h.mem_pending hw) hid
      (w.1.released_subset w.2 hid')
    -- the verdict is a function of the pending property
    have hverdict : v.2 = w.2 :=
      Option.some.inj ((h.verdict v hv).symm.trans (hsame ▸ h.verdict w hw))
    rw [← hsame, ← hverdict, hplain] at hid'
    cases hid'

theorem Processed.filter_verdicts {v : Property × Option Property} (hv : v ∈ vs)
    (honly : ∀ p ∈ s.properties, p.name = n ↔ p = v.1) : vs.filter (·.1.name == n) = [v] := by
  have hone : (s.properties.filter (! y.dismisses m ·)).filter (·.name == n) = [v.1] := by
    have hmem : v.1 ∈ s.properties.filter (! y.dismisses m ·) :=
      h.pending ▸ List.mem_map_of_mem hv
    have hsame : ∀ p ∈ s.properties.filter (! y.dismisses m ·), (p.name == n) = (p == v.1) :=
      fun p hp => by
        rw [Bool.eq_iff_iff, beq_iff_eq, beq_iff_eq]
        exact honly p (List.mem_of_mem_filter hp)
    have hnodup := h.assembly.nodup_properties.filter (! y.dismisses m ·)
    rw [List.filter_congr hsame, List.filter_beq, List.count_eq_one_of_mem hnodup hmem]
    rfl
  rw [← h.pending, List.filter_map] at hone
  obtain ⟨w, hw, -⟩ := List.map_eq_singleton_iff.1 hone
  have hw' : vs.filter (·.1.name == n) = [w] := hw
  have hv' : v ∈ vs.filter (·.1.name == n) :=
    List.mem_filter.2 ⟨hv, by simpa using (honly v.1 (h.mem_pending hv)).2 rfl⟩
  rw [hw'] at hv' ⊢
  rw [List.mem_singleton.1 hv']

/-- If only one pending property has the name, the class gets at most one property of that name. -/
theorem Processed.filter_name (hfree : k.properties = []) {v : Property × Option Property}
    (hv : v ∈ vs) {q : Property} (hq : v.2 = some q)
    (honly : ∀ p ∈ s.properties, p.name = n ↔ p = v.1) :
    ((y.desk m k ids s own).settleAll c vs).cls.properties.filter (·.name == n) = [q] := by
  have hnames : ∀ w ∈ vs, w.2.filter (·.name == n) = if w.1.name == n then w.2 else none := by
    intro w hw
    cases hr : w.2 with
    | none => simp
    | some r =>
      have hname : r.name = w.1.name := congrArg (·.name) (h.kept w hw r hr).rest
      simp [Option.filter, hname]
  rw [Desk.properties_settleAll, properties_desk, h.assembly.own_eq_nil hfree, documentedOwn,
    List.mapIdx_nil, List.nil_append, List.filter_filterMap, List.filterMap_congr hnames,
    ← List.filterMap_filter, h.filter_verdicts hv honly]
  simp [hq]

end Settling

/-- A run unites partners without rivals, if no candidate of their class overrides anything and the
class had no properties. Their property is the only one of its name, wherever they were declared. -/
theorem run_unites_partners (m : Model) (hm : m.Valid) (y : Synthesis) :
    ∃ t, y.run? m = some t ∧ ∀ c k, m.class? c = some k → m.IsDefinition c → k.properties = [] →
      (∀ id h, m.Candidate c id h → h.isOverride = false) →
      ∀ n g s f f', m.Partners c n g s f f' → m.Unrivalled c n g s f →
        ∃ k' p, t.model.class? c = some k' ∧ k'.properties.filter (·.name == n) = [p] ∧
          p.getter = some g ∧ p.setter = some s ∧
          t.model.method? g = some { f with generation := .internal } ∧
          t.model.method? s = some { f' with generation := .internal } := by
  obtain ⟨t, ht, -, hout, hall⟩ := hm.run?_classes y
  refine ⟨t, ht, fun c k hk hc hfree hplain n g s f f' hpair hrivals => ?_⟩
  obtain ⟨k', hk'⟩ := ((isDefinition_congr hout).2 hc).listed
  rcases hall c k' hk' with ⟨hnot, -⟩ | ⟨k₀, hk₀, m', ids, s₀, own, vs, hvalid, -, -, hk₁, h, rfl⟩
  · exact absurd hc hnot
  obtain rfl := Option.some.inj (hk.symm.trans hk₀)
  have hkc : k.id = c := (hvalid.consistent hk₁).id
  have hsame : m'.class? c = m.class? c := hk₁.trans hk.symm
  have hpair' := hpair.of_class hsame
  have hrivals' := hrivals.of_class hsame
  obtain ⟨x, ho', -⟩ := hpair'.offers_setter
  have ho := hpair'.offers_getter
  obtain ⟨p, hp, hg, hs, honly⟩ := h.assembly.exists_shared (hkc ▸ hpair') (hkc ▸ hrivals') hfree
    ((h.all g).2 ⟨f, _, ho⟩) ((h.all s).2 ⟨f', _, ho'⟩)
  -- with both halves the property is not an action, and it overrides nothing
  have hsettled : y.dismisses m' p = false := by
    simp [Synthesis.dismisses, Property.readsAsAction, hg, hs]
  obtain ⟨v, hv, rfl⟩ := (h.dismissed_or_settled hp).resolve_left (by simp [hsettled])
  have hover : m'.isOverriding? v.1 = some false := by
    rw [isOverriding?_eq_some fun id hid => hvalid.hasMethod_of_emits hk₁
      (h.emits hvalid hk₁ hv id hid), Option.some.injEq, List.any_eq_false]
    intro id hid
    obtain ⟨f₁, a, ho₁⟩ := (h.all id).1 (h.mem_of_verdict hv id hid)
    simp [ho₁.method, hplain id f₁ (ho₁.toCandidate.of_class hsame.symm)]
  obtain ⟨q, hq, hqg, hqs⟩ := h.verdict_of_plain hvalid hk₁ hv hg hs hover
  have hlost : v.1.released v.2 = [] := by simp [hq, Property.released, Property.lost, hqg, hqs]
  refine ⟨_, q, hk', h.filter_name hfree hv hq honly, hqg, hqs, ?_, ?_⟩
  · exact h.method?_of_not_released hvalid hk₁ hk' ho
      (h.not_released_of_plain hv hlost hsettled (Property.mem_accessors.2 (.inl hg)))
  · exact h.method?_of_not_released hvalid hk₁ hk' ho'
      (h.not_released_of_plain hv hlost hsettled (Property.mem_accessors.2 (.inr hs)))

theorem run_unites_partners_panel : panel.Valid ∧ ∃ t, Synthesis.withoutVerbs.run? panel = some t ∧
    ∃ k' p, t.model.class? 0 = some k' ∧ k'.properties.filter (·.name == "width") = [p] ∧
      p.getter = some ⟨0, 2⟩ ∧ p.setter = some ⟨0, 0⟩ := by
  have hvalid : panel.Valid := by decide
  refine ⟨hvalid, ?_⟩
  obtain ⟨t, ht, hall⟩ := run_unites_partners panel hvalid .withoutVerbs
  obtain ⟨k, hk⟩ : ∃ k, panel.class? 0 = some k := ⟨_, rfl⟩
  obtain ⟨f, hf⟩ : ∃ f, panel.method? ⟨0, 2⟩ = some f := ⟨_, rfl⟩
  obtain ⟨f', hf'⟩ : ∃ f', panel.method? ⟨0, 0⟩ = some f' := ⟨_, rfl⟩
  have hpair : panel.Partners 0 "width" ⟨0, 2⟩ ⟨0, 0⟩ f f' := by
    cases hf
    cases hf'
    exact ⟨⟨rfl, rfl, by decide⟩, by decide, ⟨rfl, rfl, by decide⟩, by decide, rfl, by decide,
      by decide, by decide, by decide⟩
  -- what is asked of every candidate is decided method by method
  have hcandidates : ∀ {P : MethodId → Method → Prop},
      (∀ i : Fin 4, ∀ h ∈ panel.method? ⟨0, i⟩, P ⟨0, i⟩ h) →
        ∀ id h, panel.Candidate 0 id h → P id h := by
    rintro P hall ⟨owner, i⟩ h ⟨rfl, hm, -⟩
    exact hall ⟨i, (List.getElem?_eq_some_iff.1 hm).1⟩ h hm
  have hplain : ∀ id h, panel.Candidate 0 id h → h.isOverride = false := hcandidates (by decide)
  have hrivals : panel.Unrivalled 0 "width" ⟨0, 2⟩ ⟨0, 0⟩ f := by
    cases hf
    exact ⟨hcandidates (by decide), hcandidates (by decide)⟩
  obtain ⟨k', p, hk', hfilter, hg, hs, -, -⟩ :=
    hall 0 k hk rfl (by cases hk; rfl) hplain "width" ⟨0, 2⟩ ⟨0, 0⟩ f f' hpair hrivals
  exact ⟨t, ht, k', p, hk', hfilter, hg, hs⟩

end Model
end ApiProperties

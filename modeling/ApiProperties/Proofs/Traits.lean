import ApiProperties.Proofs.PropertyNames
import ApiProperties.Proofs.Provenance

/-!
The access, the interface link and the type of a property. A pending property has them from its
accessors. They stay when a setter is given back or a getter is borrowed, and so they can be those
of a method that is not an accessor of the property, or not be those of one that is.
-/

set_option autoImplicit false

namespace ApiProperties.Model

/-- The access and the interface link of a pending property are those of its accessors: the wider
access, and the link of the accessor that was declared last, or else of the other one. -/
inductive Credited (m : Model) (p : Property) : Prop
  | one {id : MethodId} {f : Method} (h : p.accessors = [id]) (hf : m.method? id = some f)
      (access : p.access = f.access) (implemented : p.implemented = f.implemented)
  | two {g s : MethodId} {f f' : Method} (hg : p.getter = some g) (hs : p.setter = some s)
      (hne : g.index ≠ s.index) (hf : m.method? g = some f) (hf' : m.method? s = some f')
      (access : p.access = f.access.widest f'.access)
      (implemented : p.implemented = if g.index < s.index then f'.implemented <|> f.implemented
        else f.implemented <|> f'.implemented)

variable {m m' : Model} {c : ClassId} {k : Class} {y : Synthesis} {ids : List MethodId} {s : Pending}
  {own : List Property} {p₀ p : Property}

theorem Offers.credited {id : MethodId} {f : Method} {a : Accessor} (h : m.Offers c id f a) :
    m.Credited (.single c id f a) := by
  have haccess : (Property.single c id f a).access = f.access := by
    simp [Property.single, Property.plain]
  have himpl : (Property.single c id f a).implemented = f.implemented := by
    simp [Property.single, Property.plain]
  exact .one (Property.accessors_single c id f a) h.method haccess himpl

theorem Credited.attach {id : MethodId} {f : Method} {a : Accessor} (h : m.Credited p)
    (ha : m.Accepts id a p) (hf : m.method? id = some f)
    (hlast : ∀ j ∈ p.accessors, j.index < id.index) : m.Credited (p.attach id f a) := by
  obtain ⟨-, hfree, j, f₁, -, hpartner, hf₁, -⟩ := ha
  cases h with
  | two hg hs => cases hr : a.role <;> simp_all [Property.half]
  | @one i f₂ h hf₂ haccess himpl =>
    have hj := Property.mem_accessors_of_partner hpartner
    obtain rfl : j = i := by simpa [h] using hj
    obtain rfl := Option.some.inj (hf₁.symm.trans hf₂)
    have hlt := hlast j hj
    cases hr : a.role with
    | getter =>
      have hs : p.setter = some j := by simpa [Property.partner, hr] using hpartner
      refine .two (g := id) (s := j) (by simp [Property.attach, hr])
        (by simp [Property.attach, hr, hs]) hlt.ne' hf hf₁ ?_ ?_
      · simp [haccess, Access.widest_comm]
      · simp [himpl, Nat.not_lt.2 hlt.le]
    | setter =>
      have hg : p.getter = some j := by simpa [Property.partner, hr] using hpartner
      refine .two (g := j) (s := id) (by simp [Property.attach, hr, hg])
        (by simp [Property.attach, hr]) hlt.ne hf₁ hf ?_ ?_
      · simp [haccess]
      · simp [himpl, hlt]

theorem Assembly.credited (h : m.Assembly k ids s own)
    (hsorted : ids.Pairwise (·.index < ·.index)) : ∀ p ∈ s.properties, m.Credited p := by
  induction h with
  | start => simp [Pending.empty]
  | complete _ _ _ _ _ _ ih => exact ih (List.pairwise_append.1 hsorted).1
  | join h ho _ _ hp ha _ ih =>
    obtain ⟨hbefore, -, hlast⟩ := List.pairwise_append.1 hsorted
    intro q hq
    rcases mem_modify hp hq with rfl | hq
    · have hmem := List.mem_of_getElem? hp
      exact (ih hbefore _ hmem).attach (accepts?_eq_true.1 ha) ho.method fun j hj =>
        hlast j (h.accessors_subset _ hmem j hj) _ (List.mem_singleton.2 rfl)
    · exact ih hbefore q hq
  | create _ ho _ _ _ ih =>
    intro q hq
    rcases List.mem_append.1 hq with hq | hq
    · exact ih (List.pairwise_append.1 hsorted).1 q hq
    · exact List.mem_singleton.1 hq ▸ ho.credited

theorem Assembles.credited (h : m.Assembles c p) (hm : m.Valid) (hk : m.class? c = some k) :
    m.Credited p := by
  obtain ⟨ids, s, own, hassembly, hsorted, hp⟩ := h.assembly hm hk
  exact hassembly.credited hsorted p hp

theorem Assembles.wellMade (h : m.Assembles c p) (hm : m.Valid) (hk : m.class? c = some k) :
    m.WellMade c p := by
  obtain ⟨ids, s, own, hassembly, -, hp⟩ := h.assembly hm hk
  exact (hm.consistent hk).id ▸ hassembly.wellMade p hp

/-! ### Access and interface link -/

/-- The property is just as visible as the most visible of its own accessors, and if it has an
interface link, one of them has it. -/
structure Backed (m : Model) (c : ClassId) (p : Property) : Prop where
  reached : ∃ id ∈ p.accessors, id.owner = c ∧ (m.method? id).map (·.access) = some p.access
  bounded : ∀ id ∈ p.accessors, id.owner = c → ∀ a, (m.method? id).map (·.access) = some a →
    a.rank ≤ p.access.rank
  implemented : p.implemented = none ∨ ∃ id ∈ p.accessors, id.owner = c ∧
    (m.method? id).map (·.implemented) = some p.implemented

/-- Only the class's own accessors count, and of these only what they declare. -/
theorem Backed.congr {q : Property} (h : m.Backed c q) (haccess : p.access = q.access)
    (himpl : p.implemented = q.implemented)
    (hown : ∀ id, id.owner = c → (id ∈ p.accessors ↔ id ∈ q.accessors))
    (hsame : ∀ id ∈ q.accessors, id.owner = c →
      (m'.method? id).map (·.access) = (m.method? id).map (·.access) ∧
        (m'.method? id).map (·.implemented) = (m.method? id).map (·.implemented)) :
    m'.Backed c p := by
  obtain ⟨⟨id, hid, howner, hreached⟩, hbounded, hlink⟩ := h
  rw [← haccess] at hreached hbounded
  rw [← himpl] at hlink
  refine ⟨⟨id, (hown id howner).2 hid, howner, (hsame id hid howner).1.trans hreached⟩,
    fun j hj ho a ha => ?_, hlink.imp_right ?_⟩
  · have hj := (hown j ho).1 hj
    exact hbounded j hj ho a ((hsame j hj ho).1.symm.trans ha)
  · rintro ⟨j, hj, ho, hj'⟩
    exact ⟨j, (hown j ho).2 hj, ho, (hsame j hj ho).2.trans hj'⟩

/-- A pending property is backed by the accessors it was assembled from. -/
theorem Credited.backed (h : m.Credited p) (hown : ∀ id ∈ p.accessors, id.owner = c) :
    m.Backed c p := by
  cases h with
  | @one id f h hf haccess himpl =>
    have hid : id ∈ p.accessors := by simp [h]
    refine ⟨⟨id, hid, hown id hid, by simp [hf, haccess]⟩, fun j hj _ a ha => ?_,
      .inr ⟨id, hid, hown id hid, by simp [hf, himpl]⟩⟩
    obtain rfl : j = id := by simpa [h] using hj
    obtain rfl : f.access = a := by simpa [hf] using ha
    rw [haccess]
  | @two g s f f' hg hs _ hf hf' haccess himpl =>
    have hgm : g ∈ p.accessors := Property.mem_accessors.2 (.inl hg)
    have hsm : s ∈ p.accessors := Property.mem_accessors.2 (.inr hs)
    have hlink : p.implemented = f.implemented ∨ p.implemented = f'.implemented := by
      rw [himpl]
      split
      · cases f'.implemented <;> simp
      · cases f.implemented <;> simp
    refine ⟨?_, fun j hj _ a ha => ?_, .inr ?_⟩
    · rcases Access.widest_cases f.access f'.access with h | h
      · exact ⟨g, hgm, hown g hgm, by simp [hf, haccess, h]⟩
      · exact ⟨s, hsm, hown s hsm, by simp [hf', haccess, h]⟩
    · rw [haccess, Access.rank_widest]
      rcases Property.mem_accessors.1 hj with h | h
      · obtain rfl := Option.some.inj (hg.symm.trans h)
        obtain rfl : f.access = a := by simpa [hf] using ha
        exact Nat.le_max_left _ _
      · obtain rfl := Option.some.inj (hs.symm.trans h)
        obtain rfl : f'.access = a := by simpa [hf'] using ha
        exact Nat.le_max_right _ _
    · rcases hlink with h | h
      · exact ⟨g, hgm, hown g hgm, by simp [hf, h]⟩
      · exact ⟨s, hsm, hown s hsm, by simp [hf', h]⟩

/-- Setter `s`, declared as `f'`, lends nothing to a property that it shares with getter `g`,
declared as `f`. -/
def Traceless (g s : MethodId) (f f' : Method) : Prop :=
  f'.access.rank ≤ f.access.rank ∧
    (f'.implemented = none ∨ f'.implemented = f.implemented ∨
      s.index < g.index ∧ f.implemented ≠ none)

theorem Credited.of_pair {g s : MethodId} {f f' : Method} (h : m.Credited p)
    (hg : p.getter = some g) (hs : p.setter = some s) (hf : m.method? g = some f)
    (hf' : m.method? s = some f') :
    g.index ≠ s.index ∧ p.access = f.access.widest f'.access ∧
      p.implemented = if g.index < s.index then f'.implemented <|> f.implemented
        else f.implemented <|> f'.implemented := by
  cases h with
  | one h => simp [Property.accessors, hg, hs] at h
  | two hg' hs' hne hf₁ hf₁' haccess himpl =>
    obtain rfl := Option.some.inj (hg.symm.trans hg')
    obtain rfl := Option.some.inj (hs.symm.trans hs')
    obtain rfl := Option.some.inj (hf.symm.trans hf₁)
    obtain rfl := Option.some.inj (hf'.symm.trans hf₁')
    exact ⟨hne, haccess, himpl⟩

/-- Without the setter the property is backed only if the setter lent it nothing. -/
theorem Credited.backed_getter_iff {g s : MethodId} {f f' : Method} (h : m.Credited p)
    (hg : p.getter = some g) (hs : p.setter = some s) (hf : m.method? g = some f)
    (hf' : m.method? s = some f') (hown : g.owner = c) :
    m.Backed c { p with setter := none } ↔ Traceless g s f f' := by
  obtain ⟨hne, haccess, himpl⟩ := h.of_pair hg hs hf hf'
  have haccessors : ({ p with setter := none } : Property).accessors = [g] := by
    simp [Property.accessors, hg]
  have hvisible : f.access = p.access ↔ f'.access.rank ≤ f.access.rank := by
    rw [haccess, eq_comm, Access.widest_eq_left_iff]
  have hlink : (p.implemented = none ∨ f.implemented = p.implemented) ↔
      (f'.implemented = none ∨ f'.implemented = f.implemented ∨
        s.index < g.index ∧ f.implemented ≠ none) := by
    rw [himpl]
    rcases Nat.lt_or_gt_of_ne hne with h | h
    · rw [if_pos h]
      cases f'.implemented <;> cases f.implemented <;> simp [Nat.lt_asymm h, eq_comm]
    · rw [if_neg (Nat.lt_asymm h)]
      cases f'.implemented <;> cases f.implemented <;> simp [h]
  rw [Traceless, ← hvisible, ← hlink]
  constructor
  · rintro ⟨⟨id, hid, -, hreached⟩, -, hlinked⟩
    obtain rfl : id = g := by simpa [haccessors] using hid
    refine ⟨by simpa [hf] using hreached, hlinked.imp_right ?_⟩
    rintro ⟨j, hj, -, hj'⟩
    obtain rfl : j = id := by simpa [haccessors] using hj
    simpa [hf] using hj'
  · rintro ⟨hreached, hlinked⟩
    refine ⟨⟨g, by simp [haccessors], hown, by simp [hf, hreached]⟩, fun j hj _ a ha => ?_,
      hlinked.imp_right fun h => ⟨g, by simp [haccessors], hown, by simp [hf, h]⟩⟩
    obtain rfl : j = g := by simpa [haccessors] using hj
    obtain rfl : f.access = a := by simpa [hf] using ha
    exact le_of_eq (congrArg Access.rank hreached)

/-- Whether the property is backed can be said of the model before the run. -/
theorem Descends.backed_congr (h : m.Descends y m' c p₀ p) {q : Property}
    (haccess : q.access = p₀.access) (himpl : q.implemented = p₀.implemented)
    (hown : ∀ id, id.owner = c → (id ∈ p.accessors ↔ id ∈ q.accessors)) :
    m'.Backed c p ↔ m.Backed c q := by
  have haccess : p.access = q.access := (congrArg (·.access) h.rest).trans haccess.symm
  have himpl : p.implemented = q.implemented := (congrArg (·.implemented) h.rest).trans himpl.symm
  have hsame : ∀ id ∈ p.accessors, id.owner = c →
      (m'.method? id).map (·.access) = (m.method? id).map (·.access) ∧
        (m'.method? id).map (·.implemented) = (m.method? id).map (·.implemented) := by
    intro id hid howner
    obtain ⟨f, hf, hf'⟩ := h.internal id hid howner
    rw [hf, hf']
    exact ⟨rfl, rfl⟩
  constructor
  · intro hb
    exact hb.congr haccess.symm himpl.symm (fun id ho => (hown id ho).symm) fun id hid ho =>
      ⟨(hsame id hid ho).1.symm, (hsame id hid ho).2.symm⟩
  · intro hb
    exact hb.congr haccess himpl hown fun id hid ho => hsame id ((hown id ho).2 hid) ho

/-- A property is backed unless its setter was given back and lent it something. -/
theorem Descends.backed_iff (h : m.Descends y m' c p₀ p) (hm : m.Valid)
    (hk : m.class? c = some k) : m'.Backed c p ↔
      ∀ g s f f', p.getter = some g → p.setter = none → p₀.setter = some s →
        m.method? g = some f → m.method? s = some f' → Traceless g s f f' := by
  have hcredited := h.assembled.credited hm hk
  have hoffers := h.assembled.offers hm hk
  -- whatever has not lost its setter has the pending property's own accessors
  have hbacked : (∀ id, id.owner = c → (id ∈ p.accessors ↔ id ∈ p₀.accessors)) →
      (p.setter = none → p₀.setter = none) → (m'.Backed c p ↔
        ∀ g s f f', p.getter = some g → p.setter = none → p₀.setter = some s →
          m.method? g = some f → m.method? s = some f' → Traceless g s f f') := by
    intro hown hnone
    refine iff_of_true ((h.backed_congr rfl rfl hown).2 (hcredited.backed fun id hid => ?_))
      fun g s f f' _ hs hs' => ?_
    · obtain ⟨f, a, ho⟩ := hoffers id hid
      exact ho.owner
    · simp [hnone hs] at hs'
  cases h.remains with
  | whole hp hg hs =>
    refine hbacked (fun id _ => ?_) fun hnone => hs ▸ hnone
    simp [Property.mem_accessors, hp, hg, hs]
  | @returned g s f' hp hp' ho hf' _ hg hs =>
    obtain ⟨f, _, hf⟩ := hoffers g (Property.mem_accessors.2 (.inl hp))
    obtain ⟨f₁, _, hf₁⟩ := hoffers s (Property.mem_accessors.2 (.inr hp'))
    rw [h.backed_congr (q := { p₀ with setter := none }) rfl rfl fun id _ => by
      simp [Property.mem_accessors, hp, hg, hs],
      hcredited.backed_getter_iff hp hp' hf.method hf₁.method hf.owner]
    constructor
    · intro ht g' s' f₂ f₃ hg' _ hs' hf₂ hf₃
      obtain rfl := Option.some.inj (hg.symm.trans hg')
      obtain rfl := Option.some.inj (hp'.symm.trans hs')
      obtain rfl := Option.some.inj (hf.method.symm.trans hf₂)
      obtain rfl := Option.some.inj (hf₁.method.symm.trans hf₃)
      exact ht
    · exact fun hall => hall g s f f₁ hg hs hp' hf.method hf₁.method
  | @borrowsGetter g s hp hp' hg hs hne =>
    refine hbacked (fun id howner => ?_) fun hnone => by simp [hs] at hnone
    have hid : g ≠ id := fun heq => hne (heq ▸ howner)
    simp [Property.mem_accessors, hp, hp', hg, hs, hid]
  | @borrowsSetter g s hp hp' hg hs hne =>
    refine hbacked (fun id howner => ?_) fun hnone => by simp [hs] at hnone
    have hid : s ≠ id := fun heq => hne (heq ▸ howner)
    simp [Property.mem_accessors, hp, hp', hg, hs, hid]

/-- After a run the access and the interface link of a property come from its own accessors, unless
a setter that it lost was more visible than its getter, or had given it its link. -/
theorem run_backed_iff (m : Model) (hm : m.Valid) (hfree : m.PropertyFree) (y : Synthesis) :
    ∃ t, y.run? m = some t ∧ ∀ c k', t.model.class? c = some k' → ∀ p ∈ k'.properties,
      ∃ p₀, m.Descends y t.model c p₀ p ∧ (t.model.Backed c p ↔
        ∀ g s f f', p.getter = some g → p.setter = none → p₀.setter = some s →
          m.method? g = some f → m.method? s = some f' → Traceless g s f f') := by
  obtain ⟨t, ht, -, hall⟩ := hm.run?_descends hfree y
  refine ⟨t, ht, fun c k' hk' p hp => ?_⟩
  obtain ⟨k, hk, p₀, h⟩ := hall c k' hk' p hp
  exact ⟨p₀, h, h.backed_iff hm hk⟩

/-- A gauge that overrides the protected getter of a class without properties, and has a public
setter from an interface. -/
def gauge : Model :=
  let int := QualifiedType.plain (.builtin .int)
  let getter := { Method.plain "getLevel" int with access := .prot }
  let scaled := { getter with parameters := [⟨"scale", .regular, int⟩] }
  let override := { getter.overriding ⟨0, 0⟩ with owner := 2 }
  let setter := { Method.plainSetter "setLevel" int with owner := 2, implemented := some ⟨1, 0⟩ }
  ⟨"unit", [
    { Class.empty 0 "Device" with methods := [getter, scaled] },
    { Class.empty 1 "Adjustable" with
      methods := [{ Method.plainSetter "setLevel" int with owner := 1 }] },
    { Class.empty 2 "Gauge" with
      bases := [⟨0, .pub⟩, ⟨1, .pub⟩], methods := [override, setter] }]⟩

/-- The property was pending with the setter, which is more visible than the getter. -/
theorem run_backed_iff_gauge : gauge.Valid ∧ gauge.PropertyFree ∧
    ∃ t k' p p₀, Synthesis.withoutVerbs.run? gauge = some t ∧ t.model.class? 2 = some k' ∧
      k'.properties = [p] ∧ p.getter = some ⟨2, 0⟩ ∧ p.setter = none ∧
      gauge.Descends .withoutVerbs t.model 2 p₀ p ∧ p₀.setter = some ⟨2, 1⟩ ∧
      ¬ t.model.Backed 2 p := by
  have hvalid : gauge.Valid := by decide
  have hfree : gauge.PropertyFree := by decide
  obtain ⟨t, ht, hall⟩ := run_backed_iff gauge hvalid hfree .withoutVerbs
  have hrun : ((Synthesis.withoutVerbs.run? gauge).bind (·.model.class? 2)).map
      (fun k => k.properties.map fun p => (p.getter, p.setter)) =
        some [(some ⟨2, 0⟩, none)] := by decide
  rw [ht, Option.bind_some] at hrun
  obtain ⟨k', hk', hproperties⟩ := Option.map_eq_some_iff.1 hrun
  obtain ⟨p, hp, hsame⟩ := List.map_eq_singleton_iff.1 hproperties
  obtain ⟨hg, hs⟩ := Prod.mk.inj hsame
  obtain ⟨p₀, hdescends, hiff⟩ := hall 2 k' hk' p (by simp [hp])
  have hsetter : p₀.setter ∈ [some ⟨2, 1⟩] := hdescends.assembled.mem_map (·.setter) (by decide)
  rw [List.mem_singleton] at hsetter
  refine ⟨hvalid, hfree, t, k', p, p₀, ht, hk', hp, hg, hs, hdescends, hsetter, fun hbacked => ?_⟩
  obtain ⟨haccess, -⟩ := hiff.1 hbacked ⟨2, 0⟩ ⟨2, 1⟩ _ _ hg hs hsetter rfl rfl
  exact absurd haccess (by decide)

/-- The setter is given back, and leaves its access and its interface link with the property. -/
theorem run_residue_gauge :
    ¬ ∀ (m : Model) (y : Synthesis) (t : Progress), m.Valid → m.PropertyFree → y.run? m = some t →
      ∀ c k', t.model.class? c = some k' → ∀ p ∈ k'.properties, t.model.Backed c p := by
  intro h
  let y := Synthesis.withoutVerbs
  have hrun : ((y.run? gauge).map fun t => ((t.model.class? 2).map (·.properties),
        (t.model.method? ⟨2, 0⟩).map fun f => f.access)) =
      some (some [{ Property.plain "level" (.plain (.builtin .int)) 2 .pub with
        getter := some ⟨2, 0⟩, implemented := some ⟨1, 0⟩ }], some .prot) := by decide
  obtain ⟨t, ht, hboth⟩ := Option.map_eq_some_iff.1 hrun
  obtain ⟨hclass, hmethod⟩ := Prod.mk.inj hboth
  obtain ⟨k', hk', hprops⟩ := Option.map_eq_some_iff.1 hclass
  have hbacked := h gauge y t (by decide) (by decide) ht 2 k' hk' _
    (hprops ▸ List.mem_singleton.2 rfl)
  obtain ⟨id, hid, -, haccess⟩ := hbacked.reached
  obtain rfl : id = ⟨2, 0⟩ := by simpa [Property.accessors, Property.plain] using hid
  rw [hmethod] at haccess
  simp [Property.plain] at haccess

/-! ### Type -/

theorem Descends.type (h : m.Descends y m' c p₀ p) : p.type = p₀.type := congrArg (·.type) h.rest

/-- A property has the type of its getter if this is its own, and else if it happens to be the type
that its setter takes. -/
theorem Descends.type_iff (h : m.Descends y m' c p₀ p) (hm : m.Valid) (hk : m.class? c = some k)
    {g : MethodId} {f : Method} (hg : p.getter = some g) (hf : m'.method? g = some f) :
    p.type = f.returnType ↔ g.owner = c ∨ ∃ s f' x, p.setter = some s ∧ s.owner = c ∧
      m'.method? s = some f' ∧ f'.regularParameters = [x] ∧ x.type = f.returnType := by
  have hmade := h.assembled.wellMade hm hk
  rw [h.type]
  have hown : p₀.getter = some g → (p₀.type = f.returnType ↔ g.owner = c ∨
      ∃ s f' x, p.setter = some s ∧ s.owner = c ∧ m'.method? s = some f' ∧
        f'.regularParameters = [x] ∧ x.type = f.returnType) := by
    intro hg₀
    obtain ⟨f₀, a, hclaim, hr, htype, -⟩ := hmade.getter g hg₀
    have howner := hclaim.offers.owner
    obtain ⟨f₁, hf₁, hsame⟩ := h.internal g (Property.mem_accessors.2 (.inl hg)) howner
    obtain rfl := Option.some.inj (hf₁.symm.trans hclaim.offers.method)
    obtain rfl := Option.some.inj (hf.symm.trans hsame)
    exact iff_of_true (htype.trans (hclaim.offers.type_of_getter hr)) (.inl howner)
  cases h.remains with
  | whole hp hg' => exact hown (hp.trans (hg'.symm.trans hg))
  | returned hp _ _ _ _ hg' => exact hown (hp.trans (hg'.symm.trans hg))
  | borrowsSetter hp _ hg' => exact hown (hp.trans (hg'.symm.trans hg))
  | @borrowsGetter g' s hp hp' hg' hs hne =>
    obtain rfl := Option.some.inj (hg.symm.trans hg')
    obtain ⟨f₀, a, ho, hr, -, htype⟩ := hmade.setter s hp'
    obtain ⟨x, hx, hxa⟩ := ho.type_of_setter hr
    obtain ⟨f₁, hf₁, hsame⟩ := h.internal s (Property.mem_accessors.2 (.inr hs)) ho.owner
    obtain rfl := Option.some.inj (hf₁.symm.trans ho.method)
    rw [htype hp, ← hxa]
    constructor
    · exact fun heq => .inr ⟨s, _, x, hs, ho.owner, hsame, hx, heq⟩
    · rintro (howner | ⟨s', f', x', hs', -, hf', hx', heq⟩)
      · exact absurd howner hne
      · obtain rfl := Option.some.inj (hs.symm.trans hs')
        obtain rfl := Option.some.inj (hf'.symm.trans hsame)
        obtain rfl : x = x' := by simpa using hx.symm.trans hx'
        exact heq

/-- After a run every property has a getter, and it has the getter's type unless it borrows the
getter and its own setter takes another type. -/
theorem run_type_iff (m : Model) (hm : m.Valid) (hfree : m.PropertyFree) (y : Synthesis) :
    ∃ t, y.run? m = some t ∧ ∀ c k', t.model.class? c = some k' → ∀ p ∈ k'.properties,
      ∃ g f, p.getter = some g ∧ t.model.method? g = some f ∧
        (p.type = f.returnType ↔ g.owner = c ∨ ∃ s f' x, p.setter = some s ∧ s.owner = c ∧
          t.model.method? s = some f' ∧ f'.regularParameters = [x] ∧ x.type = f.returnType) := by
  obtain ⟨t, ht, hvalid, hall⟩ := hm.run?_descends hfree y
  refine ⟨t, ht, fun c k' hk' p hp => ?_⟩
  obtain ⟨k, hk, p₀, h⟩ := hall c k' hk' p hp
  obtain ⟨g, hg⟩ : ∃ g, p.getter = some g := by
    cases h.remains <;> exact ⟨_, ‹p.getter = some _›⟩
  have hlink := ((hvalid.consistent hk').properties p hp).links g
    (List.mem_append_left _ (Property.mem_accessors.2 (.inl hg)))
  obtain ⟨f, hf⟩ := hasMethod_iff.1 hlink
  exact ⟨g, f, hg, hf, h.type_iff hm hk hg hf⟩

/-- A label that overrides the setter of a text, which takes a reference. -/
def label : Model :=
  let string := QualifiedType.plain (.named "std::string")
  let setter := Method.plainSetter "setText" (string.toConst.pointerTo .lValueReference)
  ⟨"unit", [
    { Class.empty 0 "Text" with methods := [.plain "getText" string, setter] },
    { Class.empty 1 "Label" with
      bases := [⟨0, .pub⟩], methods := [{ setter.overriding ⟨0, 1⟩ with owner := 1 }] }]⟩

/-- The property borrows its getter, and its own setter takes another type. -/
theorem run_type_iff_label : label.Valid ∧ label.PropertyFree ∧
    ∃ t k' p f, Synthesis.withoutVerbs.run? label = some t ∧ t.model.class? 1 = some k' ∧
      k'.properties = [p] ∧ p.getter = some ⟨0, 0⟩ ∧ p.setter = some ⟨1, 0⟩ ∧
      t.model.method? ⟨0, 0⟩ = some f ∧ p.type ≠ f.returnType := by
  have hvalid : label.Valid := by decide
  have hfree : label.PropertyFree := by decide
  obtain ⟨t, ht, hall⟩ := run_type_iff label hvalid hfree .withoutVerbs
  have hclass : ((Synthesis.withoutVerbs.run? label).bind (·.model.class? 1)).map
      (fun k => k.properties.map fun p => (p.getter, p.setter)) =
        some [(some ⟨0, 0⟩, some ⟨1, 0⟩)] := by decide
  have htypes : (Synthesis.withoutVerbs.run? label).map (fun t =>
      ((t.model.method? ⟨0, 0⟩).map (·.returnType),
        (t.model.method? ⟨1, 0⟩).map fun f => f.regularParameters.map (·.type))) =
      some (some (.plain (.named "std::string")),
        some [.plain (.pointer (.named "std::string") true .lValueReference)]) := by decide
  rw [ht, Option.bind_some] at hclass
  rw [ht, Option.map_some, Option.some.injEq] at htypes
  obtain ⟨hreturn, hparameters⟩ := Prod.mk.inj htypes
  obtain ⟨k', hk', hproperties⟩ := Option.map_eq_some_iff.1 hclass
  obtain ⟨p, hp, hsame⟩ := List.map_eq_singleton_iff.1 hproperties
  obtain ⟨hg, hs⟩ := Prod.mk.inj hsame
  obtain ⟨g, f, hgetter, hf, hiff⟩ := hall 1 k' hk' p (by simp [hp])
  obtain rfl := Option.some.inj (hg.symm.trans hgetter)
  rw [hf, Option.map_some, Option.some.injEq] at hreturn
  refine ⟨hvalid, hfree, t, k', p, f, ht, hk', hp, hg, hs, hf, fun htype => ?_⟩
  obtain hown | ⟨s, f', x, hsetter, -, hf', hx, heq⟩ := hiff.1 htype
  · simp at hown
  · obtain rfl := Option.some.inj (hs.symm.trans hsetter)
    simp only [hf', Option.map_some, hx, List.map_cons, List.map_nil, heq, hreturn] at hparameters
    simp [QualifiedType.plain] at hparameters

/-- The label borrows the getter of the text and keeps the type that its setter takes. -/
theorem run_type_label :
    ¬ ∀ (m : Model) (y : Synthesis) (t : Progress), m.Valid → m.PropertyFree → y.run? m = some t →
      ∀ c k', t.model.class? c = some k' → ∀ p ∈ k'.properties, ∀ g f, p.getter = some g →
        t.model.method? g = some f → p.type = f.returnType := by
  intro h
  let y := Synthesis.withoutVerbs
  have hrun : ((y.run? label).map fun t => ((t.model.class? 1).map fun k => k.properties.map
        fun p => (p.getter, p.type), (t.model.method? ⟨0, 0⟩).map (·.returnType))) =
      some (some [(some ⟨0, 0⟩, .plain (.pointer (.named "std::string") true .lValueReference))],
        some (.plain (.named "std::string"))) := by decide
  obtain ⟨t, ht, hboth⟩ := Option.map_eq_some_iff.1 hrun
  obtain ⟨hclass, hmethod⟩ := Prod.mk.inj hboth
  obtain ⟨k', hk', hprops⟩ := Option.map_eq_some_iff.1 hclass
  obtain ⟨f, hf, hreturn⟩ := Option.map_eq_some_iff.1 hmethod
  obtain ⟨p, hp, hboth⟩ := List.mem_map.1 (hprops ▸ List.mem_singleton.2 rfl)
  obtain ⟨hgetter, htype⟩ := Prod.mk.inj hboth
  have heq := h label y t (by decide) (by decide) ht 1 k' hk' p hp ⟨0, 0⟩ f hgetter hf
  rw [htype, hreturn] at heq
  simp [QualifiedType.plain] at heq

end ApiProperties.Model

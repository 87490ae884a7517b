import ApiProperties.Proofs.Provenance

/-!
When two properties of a class have one name. Each was assembled from an accessor that claims the
name, and no property can have both accessors: they are the same half, or one is static and the
other is not, or their types differ.
-/

set_option autoImplicit false

namespace ApiProperties.Model

/-- What the method offers can give a property the name `n`: it is named so, or it is a getter that
a setter named so can join. -/
structure Claims (m : Model) (c : ClassId) (n : String) (id : MethodId) (f : Method)
    (a : Accessor) : Prop where
  offers : m.Offers c id f a
  name : a.name = n ∨ a.role = .getter ∧ readWritePropertyName f.name n = n

theorem Claims.of_class {m m' : Model} {c : ClassId} {k : Class} (hk : m.class? c = some k)
    (hk' : m'.class? c = some k) {n : String} {id : MethodId} {f : Method} {a : Accessor}
    (h : m.Claims c n id f a) : m'.Claims c n id f a := by
  have hmethod := h.offers.method
  rw [method?, h.offers.owner, hk, ← hk', ← h.offers.owner] at hmethod
  exact ⟨⟨h.offers.owner, hmethod, h.offers.candidate, h.offers.accessor⟩, h.name⟩

/-- No property can have both accessors. -/
def Competes (f f' : Method) (a a' : Accessor) : Prop :=
  a.role = a'.role ∨ f.isStatic ≠ f'.isStatic ∨ a.type.underlying ≠ a'.type.underlying

/-- What holds of every pending property. -/
structure WellMade (m : Model) (c : ClassId) (p : Property) : Prop where
  field : p.field = none
  accessors : p.accessors ≠ []
  getter : ∀ id, p.getter = some id → ∃ f a, m.Claims c p.name id f a ∧ a.role = .getter ∧
    p.type = a.type ∧ (p.setter = none → a.name = p.name)
  setter : ∀ id, p.setter = some id → ∃ f a, m.Offers c id f a ∧ a.role = .setter ∧
    a.name = p.name ∧ (p.getter = none → p.type = a.type)

variable {m : Model} {c : ClassId} {k : Class} {ids : List MethodId} {s : Pending}
  {own : List Property}

theorem Offers.type_of_getter {id : MethodId} {f : Method} {a : Accessor} (h : m.Offers c id f a)
    (hr : a.role = .getter) : a.type = f.returnType := by
  have ha := h.accessor
  by_cases hg : f.isGetter = true
  · simp only [Method.accessor?, hg, if_true, Option.some.injEq] at ha
    rw [← ha]
  · by_cases hs : f.isSetter = true
    · rw [Method.accessor?, if_neg hg, if_pos hs] at ha
      simp only at ha
      split at ha
      · simp at ha
      · obtain ⟨p, -, rfl⟩ := Option.map_eq_some_iff.1 ha
        simp at hr
    · simp [Method.accessor?, hg, hs] at ha

theorem Offers.type_of_setter {id : MethodId} {f : Method} {a : Accessor} (h : m.Offers c id f a)
    (hr : a.role = .setter) : ∃ x, f.regularParameters = [x] ∧ x.type = a.type := by
  have ha := h.accessor
  by_cases hg : f.isGetter = true
  · simp only [Method.accessor?, hg, if_true, Option.some.injEq] at ha
    simp [← ha] at hr
  · by_cases hs : f.isSetter = true
    · simp only [Method.isSetter, Bool.and_eq_true, beq_iff_eq] at hs
      obtain ⟨x, hx⟩ := List.length_eq_one_iff.1 hs.2
      refine ⟨x, hx, ?_⟩
      simp only [Method.accessor?, hg, Method.isSetter, hs.1, hx] at ha
      simp only [List.length_singleton, BEq.rfl, Bool.and_self, if_true, List.head?_cons,
        Option.map_some, Bool.false_eq_true, if_false] at ha
      split at ha
      · simp at ha
      · rw [← Option.some.inj ha]
    · simp [Method.accessor?, hg, hs] at ha

theorem WellMade.single {id : MethodId} {f : Method} {a : Accessor} (ho : m.Offers c id f a) :
    m.WellMade c (.single c id f a) := by
  have htype := ho.type_of_getter
  obtain ⟨role, name, type⟩ := a
  cases role with
  | getter =>
    refine ⟨rfl, by simp, ?_, by simp [Property.single, Property.attach, Property.plain]⟩
    rintro _ ⟨⟩
    exact ⟨f, _, ⟨ho, .inl rfl⟩, rfl, (htype rfl).symm, fun _ => rfl⟩
  | setter =>
    refine ⟨rfl, by simp, by simp [Property.single, Property.attach, Property.plain], ?_⟩
    rintro _ ⟨⟩
    exact ⟨f, _, ho, rfl, rfl, fun _ => rfl⟩

theorem WellMade.attach {p : Property} {id : MethodId} {f : Method} {a : Accessor}
    (hp : m.WellMade c p) (ho : m.Offers c id f a) (ha : m.Accepts id a p) :
    m.WellMade c (p.attach id f a) := by
  have htype := ho.type_of_getter
  obtain ⟨hfield, hfree, partnerId, partner, f', hpartner, hpm, -, -, -, hname⟩ := ha
  obtain ⟨role, name, type⟩ := a
  cases role with
  | getter =>
    have hg : p.getter = none := hfree
    obtain ⟨g, b, hb, hbr, hbn, -⟩ := hp.setter partnerId hpartner
    have hname : p.name = name := by simpa using hname
    refine ⟨hfield, ?_, ?_, ?_⟩
    · simp [Property.attach, Property.accessors]
    · rintro _ ⟨⟩
      exact ⟨f, _, ⟨ho, .inl rfl⟩, rfl, (htype rfl).symm, fun _ => rfl⟩
    · intro j hj
      obtain rfl : partnerId = j := Option.some.inj (hpartner.symm.trans hj)
      exact ⟨g, b, hb, hbr, hbn.trans hname, fun h => by simp [Property.attach] at h⟩
  | setter =>
    have hs : p.setter = none := hfree
    obtain ⟨g, b, hb, hbr, hbt, hbn⟩ := hp.getter partnerId hpartner
    obtain rfl : partner = g := Option.some.inj (hpm.symm.trans hb.offers.method)
    refine ⟨hfield, ?_, ?_, ?_⟩
    · simp [Property.attach, Property.accessors]
    · intro j hj
      obtain rfl : partnerId = j := Option.some.inj (hpartner.symm.trans hj)
      refine ⟨partner, b, ⟨hb.offers, ?_⟩, hbr, hbt, fun h => by simp [Property.attach] at h⟩
      rcases hname with hname | ⟨-, hname⟩
      · exact .inl ((hbn hs).trans hname)
      · exact .inr ⟨hbr, hname⟩
    · rintro _ ⟨⟩
      exact ⟨f, _, ho, rfl, rfl, fun h => by
        have hh : p.getter = none := h
        have hp' : p.getter = some partnerId := hpartner
        simp [hh] at hp'⟩

theorem Assembly.wellMade (h : m.Assembly k ids s own) : ∀ p ∈ s.properties, m.WellMade k.id p := by
  induction h with
  | start => simp [Pending.empty]
  | complete _ _ _ _ _ _ ih => exact ih
  | join _ ho _ _ hp ha _ ih =>
    intro q hq
    rcases mem_modify hp hq with rfl | hq
    · exact (ih _ (List.mem_of_getElem? hp)).attach ho (accepts?_eq_true.1 ha)
    · exact ih q hq
  | create _ ho _ _ _ ih =>
    intro q hq
    rcases List.mem_append.1 hq with hq | hq
    · exact ih q hq
    · exact List.mem_singleton.1 hq ▸ .single ho

/-- A getter without setter and a setter without getter of one name do not fit together. -/
def Apart (m : Model) (p q : Property) : Prop :=
  p.name = q.name → p.setter = none → q.getter = none →
    ∀ g s f f', p.getter = some g → q.setter = some s → m.method? g = some f →
      m.method? s = some f' →
      f.isStatic ≠ f'.isStatic ∨ p.type.underlying ≠ q.type.underlying

theorem apart_of_whole {p : Property} (hp : p.getter ≠ none ∧ p.setter ≠ none) (q : Property) :
    m.Apart p q ∧ m.Apart q p :=
  ⟨fun _ hs => absurd hs hp.2, fun _ _ hg => absurd hg hp.1⟩

theorem Accepts.whole_attach {p : Property} {id : MethodId} {f : Method} {a : Accessor}
    (h : m.Accepts id a p) :
    (p.attach id f a).getter ≠ none ∧ (p.attach id f a).setter ≠ none := by
  obtain ⟨-, -, partnerId, -, -, hpartner, -⟩ := h
  obtain ⟨role, name, type⟩ := a
  cases role with
  | getter =>
    have hs : p.setter = some partnerId := hpartner
    simp [Property.attach, hs]
  | setter =>
    have hg : p.getter = some partnerId := hpartner
    simp [Property.attach, hg]

/-- What did not accept an offer is apart from the property that starts with it. -/
theorem WellMade.apart {p : Property} (hp : m.WellMade c p) {id : MethodId} {f : Method}
    {a : Accessor} (ho : m.Offers c id f a) (hn : ¬ m.Accepts id a p) :
    m.Apart p (.single c id f a) ∧ m.Apart (.single c id f a) p := by
  have htype := ho.type_of_getter
  obtain ⟨role, name, type⟩ := a
  cases role with
  | getter =>
    refine ⟨fun _ _ hg => by simp [Property.single, Property.attach] at hg, ?_⟩
    rintro hname - hg g s f₁ f₂ ⟨⟩ hs hf₁ hf₂
    obtain rfl : f = f₁ := Option.some.inj (ho.method.symm.trans hf₁)
    by_contra hsame
    simp only [not_or, not_not] at hsame
    refine hn ⟨hp.field, hg, s, f₂, f, hs, hf₂, hf₁, hsame.1.symm, ?_, .inl hname.symm⟩
    rw [htype rfl]
    exact hsame.2.symm
  | setter =>
    refine ⟨?_, fun _ hs => by simp [Property.single, Property.attach] at hs⟩
    rintro hname hs - g s f₁ f₂ hg ⟨⟩ hf₁ hf₂
    obtain rfl : f = f₂ := Option.some.inj (ho.method.symm.trans hf₂)
    by_contra hsame
    simp only [not_or, not_not] at hsame
    exact hn ⟨hp.field, hs, g, f₁, f, hg, hf₁, hf₂, hsame.1, hsame.2, .inl hname⟩

theorem Assembly.apart (h : m.Assembly k ids s own) {i j : Nat} {p q : Property} (hij : i ≠ j)
    (hp : s.properties[i]? = some p) (hq : s.properties[j]? = some q) : m.Apart p q := by
  induction h generalizing i j p q with
  | start => simp [Pending.empty] at hp
  | complete _ _ _ _ _ _ ih => exact ih hij hp hq
  | @join ids s own id f a l r _ _ _ _ hr ha _ ih =>
    -- the joined property is whole, and the others have not changed
    have hwhole := (accepts?_eq_true.1 ha).whole_attach (f := f)
    rcases getElem?_modify_cases hr hp with ⟨-, rfl⟩ | hp
    · exact (apart_of_whole hwhole q).1
    · rcases getElem?_modify_cases hr hq with ⟨-, rfl⟩ | hq
      · exact (apart_of_whole hwhole p).2
      · exact ih hij hp hq
  | @create ids s own id f a h ho _ _ hn ih =>
    -- none of the others accepted what the new property starts with
    have hapart : ∀ z ∈ s.properties, m.Apart z (.single k.id id f a) ∧
        m.Apart (.single k.id id f a) z := fun z hz =>
      (h.wellMade z hz).apart ho fun ha => by
        have hfalse := hn z hz
        rw [accepts?_eq_true.2 ha] at hfalse
        simp at hfalse
    rcases getElem?_concat_cases hp with hp | ⟨hi, rfl⟩
    · rcases getElem?_concat_cases hq with hq | ⟨hj, rfl⟩
      · exact ih hij hp hq
      · exact (hapart p (List.mem_of_getElem? hp)).1
    · rcases getElem?_concat_cases hq with hq | ⟨hj, rfl⟩
      · exact (hapart q (List.mem_of_getElem? hq)).2
      · exact absurd (hi.trans hj.symm) hij

/-- Two methods of class `c`, of which `P` and `Q` hold, claim the name and compete. -/
def Rivals (m : Model) (c : ClassId) (n : String) (P Q : MethodId → Prop) : Prop :=
  ∃ id f a id' f' a', id ≠ id' ∧ m.Claims c n id f a ∧ m.Claims c n id' f' a' ∧
    Competes f f' a a' ∧ P id ∧ Q id'

theorem Competes.symm {f f' : Method} {a a' : Accessor} (h : Competes f f' a a') :
    Competes f' f a' a :=
  h.imp Eq.symm (Or.imp Ne.symm Ne.symm)

theorem Rivals.symm {n : String} {P Q : MethodId → Prop} (h : m.Rivals c n P Q) :
    m.Rivals c n Q P := by
  obtain ⟨id, f, a, id', f', a', hne, hclaim, hclaim', hcomp, hP, hQ⟩ := h
  exact ⟨id', f', a', id, f, a, hne.symm, hclaim', hclaim, hcomp.symm, hQ, hP⟩

namespace WellMade
variable {p q : Property}

theorem setter_of_getter_eq_none (hp : m.WellMade c p) (hg : p.getter = none) :
    ∃ id, p.setter = some id := by
  cases hs : p.setter with
  | none => exact absurd (by simp [Property.accessors, hg, hs]) hp.accessors
  | some id => exact ⟨id, rfl⟩

variable (hp : m.WellMade c p) (hq : m.WellMade c q) (hname : p.name = q.name)
  (hd : ∀ id ∈ p.accessors, id ∉ q.accessors) {id id' : MethodId}
include hp hq hname hd

theorem rivals_of_getters (hid : p.getter = some id) (hid' : q.getter = some id') :
    m.Rivals c p.name (· ∈ p.accessors) (· ∈ q.accessors) := by
  have hmem := Property.mem_accessors.2 (.inl hid)
  have hmem' := Property.mem_accessors.2 (.inl hid')
  obtain ⟨f, a, hclaim, hr, -⟩ := hp.getter id hid
  obtain ⟨f', a', hclaim', hr', -⟩ := hq.getter id' hid'
  exact ⟨id, f, a, id', f', a', fun heq => hd id hmem (heq ▸ hmem'), hclaim, hname ▸ hclaim',
    .inl (hr.trans hr'.symm), hmem, hmem'⟩

theorem rivals_of_setters (hid : p.setter = some id) (hid' : q.setter = some id') :
    m.Rivals c p.name (· ∈ p.accessors) (· ∈ q.accessors) := by
  have hmem := Property.mem_accessors.2 (.inr hid)
  have hmem' := Property.mem_accessors.2 (.inr hid')
  obtain ⟨f, a, ho, hr, hn, -⟩ := hp.setter id hid
  obtain ⟨f', a', ho', hr', hn', -⟩ := hq.setter id' hid'
  exact ⟨id, f, a, id', f', a', fun heq => hd id hmem (heq ▸ hmem'), ⟨ho, .inl hn⟩,
    ⟨ho', .inl (hn'.trans hname.symm)⟩, .inl (hr.trans hr'.symm), hmem, hmem'⟩

theorem rivals_of_halves (hapart : m.Apart p q) (hid : p.getter = some id) (hs : p.setter = none)
    (hid' : q.setter = some id') (hg : q.getter = none) :
    m.Rivals c p.name (· ∈ p.accessors) (· ∈ q.accessors) := by
  have hmem := Property.mem_accessors.2 (.inl hid)
  have hmem' := Property.mem_accessors.2 (.inr hid')
  obtain ⟨f, a, hclaim, -, ht, -⟩ := hp.getter id hid
  obtain ⟨f', a', ho', -, hn', ht'⟩ := hq.setter id' hid'
  refine ⟨id, f, a, id', f', a', fun heq => hd id hmem (heq ▸ hmem'), hclaim,
    ⟨ho', .inl (hn'.trans hname.symm)⟩, .inr ?_, hmem, hmem'⟩
  rw [← ht, ← ht' hg]
  exact hapart hname hs hg id id' f f' hid hid' hclaim.offers.method ho'.method

/-- Properties of one name that share no accessor were assembled from rivals. -/
theorem rivals (hpq : m.Apart p q) (hqp : m.Apart q p) :
    m.Rivals c p.name (· ∈ p.accessors) (· ∈ q.accessors) := by
  have hd' : ∀ id ∈ q.accessors, id ∉ p.accessors := fun id hid hid' => hd id hid' hid
  cases hpg : p.getter with
  | none =>
    obtain ⟨id, hid⟩ := hp.setter_of_getter_eq_none hpg
    cases hqs : q.setter with
    | some id' => exact hp.rivals_of_setters hq hname hd hid hqs
    | none =>
      cases hqg : q.getter with
      | none =>
        obtain ⟨id', hid'⟩ := hq.setter_of_getter_eq_none hqg
        simp [hqs] at hid'
      | some id' =>
        have hrivals := hq.rivals_of_halves hp hname.symm hd' hqp hqg hqs hid hpg
        exact hname ▸ hrivals.symm
  | some id =>
    cases hqg : q.getter with
    | some id' => exact hp.rivals_of_getters hq hname hd hpg hqg
    | none =>
      obtain ⟨id', hid'⟩ := hq.setter_of_getter_eq_none hqg
      cases hps : p.setter with
      | some id'' => exact hp.rivals_of_setters hq hname hd hps hid'
      | none => exact hp.rivals_of_halves hq hname hd hpq hpg hps hid' hqg

end WellMade

theorem Assembly.rivals (h : m.Assembly k ids s own) (hfree : k.properties = []) :
    s.properties.Pairwise fun p q => p.name = q.name →
      m.Rivals k.id p.name (· ∈ p.accessors) (· ∈ q.accessors) := by
  have hperm : (s.properties.flatMap (·.accessors)).Perm ids := by
    simpa [h.own_eq_nil hfree, hfree] using h.perm
  have hdisjoint := (List.nodup_flatMap.1 (hperm.nodup_iff.2 h.nodup)).2
  rw [List.pairwise_iff_getElem] at hdisjoint ⊢
  intro i j hi hj hij hname
  have hp := List.getElem?_eq_getElem hi
  have hq := List.getElem?_eq_getElem hj
  exact (h.wellMade _ (List.getElem_mem hi)).rivals (h.wellMade _ (List.getElem_mem hj)) hname
    (fun id hid hid' => hdisjoint i j hi hj hij hid hid')
    (h.apart (Nat.ne_of_lt hij) hp hq) (h.apart (Nat.ne_of_gt hij) hq hp)

/-! ### After a run -/

/-- The method was taken in for the pending property that `p` of class `c` descends from. In `m'`, after
the run, it is an accessor of `p`, or has been given back. -/
def Entered (m : Model) (y : Synthesis) (m' : Model) (c : ClassId) (p : Property)
    (id : MethodId) : Prop :=
  ∃ p₀, m.Descends y m' c p₀ p ∧ id ∈ p₀.accessors ∧
    (id ∈ p.accessors ∨ ∃ f, m'.method? id = some f ∧ f.generation = .generate)

theorem Kept.accessors_or_lost {p q : Property} (h : m.Kept c p q) {id : MethodId}
    (hid : id ∈ p.accessors) : id ∈ q.accessors ∨ id ∈ p.lost q := by
  rcases Property.mem_accessors.1 hid with hg | hs
  · rcases h.getter with heq | ⟨hnone, -⟩
    · exact .inl (Property.mem_accessors.2 (.inl (heq.trans hg)))
    · simp [hnone] at hg
  · rcases h.setter with heq | hnone | ⟨hnone, -⟩
    · exact .inl (Property.mem_accessors.2 (.inr (heq.trans hs)))
    · exact .inr (by simp [Property.lost, hnone, hs])
    · simp [hnone] at hs

/-- What was taken in for a property is bound in it, or has been given back. -/
theorem Processed.accessors_or_generate {y : Synthesis} {vs : List (Property × Option Property)}
    (h : m.Processed y c k ids s own vs) (hm : m.Valid) (hk : m.class? c = some k) {m' : Model}
    (hk' : m'.class? c = some ((y.desk m k ids s own).settleAll c vs).cls)
    {v : Property × Option Property} (hv : v ∈ vs) {q : Property} (hq : v.2 = some q)
    {id : MethodId} (hid : id ∈ v.1.accessors) :
    id ∈ q.accessors ∨ ∃ f, m'.method? id = some f ∧ f.generation = .generate := by
  refine ((h.kept v hv q hq).accessors_or_lost hid).imp_right fun hlost => ?_
  refine h.generate_of_released hm hk hk' (List.mem_append_right _ ?_)
  exact List.mem_flatMap.2 ⟨v, hv, by rw [hq]; exact hlost⟩

/-- Properties that a class is built with have different names, or descend from rivals. -/
theorem Built.rivals {y : Synthesis} {n m' : Model} {k' : Class}
    {vs : List (Property × Option Property)} (h : n.Built y c k k' ids s vs) (hm : m.Valid)
    (hk : m.class? c = some k) (hout : n.outline = m.outline) (hk' : m'.class? c = some k') :
    k'.properties.Pairwise fun p q => p.name = q.name →
      m.Rivals c p.name (m.Entered y m' c p) (m.Entered y m' c q) := by
  have hkc : k.id = c := (h.valid.consistent h.listed).id
  have hpending : vs.Pairwise fun v w => v.1.name = w.1.name →
      n.Rivals c v.1.name (· ∈ v.1.accessors) (· ∈ w.1.accessors) := by
    have hall := (h.processed.assembly.rivals h.free).filter (! y.dismisses n ·)
    rw [← h.processed.pending, List.pairwise_map, hkc] at hall
    exact hall
  have hentered : ∀ v ∈ vs, ∀ q, v.2 = some q → ∀ id ∈ v.1.accessors, m.Entered y m' c q id :=
    fun v hv q hq id hid => ⟨v.1, h.descends_of_verdict hk' hm hk hout hv hq, hid,
      h.processed.accessors_or_generate h.valid h.listed (h.result ▸ hk') hv hq hid⟩
  rw [h.properties_eq, List.pairwise_filterMap]
  refine hpending.imp_of_mem fun {v w} hv hw hvw p hp q hq hname => ?_
  have hpn : v.1.name = p.name := (congrArg (·.name) (h.processed.kept v hv p hp).rest).symm
  have hqn : w.1.name = q.name := (congrArg (·.name) (h.processed.kept w hw q hq).rest).symm
  obtain ⟨id, f, a, id', f', a', hne, hclaim, hclaim', hcomp, hid, hid'⟩ :=
    hvw (hpn.trans (hname.trans hqn.symm))
  rw [hpn] at hclaim hclaim'
  exact ⟨id, f, a, id', f', a', hne, hclaim.of_class h.listed hk, hclaim'.of_class h.listed hk, hcomp,
    hentered v hv p hp id hid, hentered w hw q hq id' hid'⟩

/-- Two properties of a class that have one name after a run were assembled from two methods that
claim the name and that no property can have both. -/
theorem run_names_compete (m : Model) (hm : m.Valid) (hfree : m.PropertyFree) (y : Synthesis) :
    ∃ t, y.run? m = some t ∧ ∀ c k', t.model.class? c = some k' →
      ∀ (i j : Nat) p q, i < j → k'.properties[i]? = some p → k'.properties[j]? = some q →
        p.name = q.name →
          m.Rivals c p.name (m.Entered y t.model c p) (m.Entered y t.model c q) := by
  obtain ⟨t, ht, -, -, hbuilding⟩ := hm.run?_building hfree y
  refine ⟨t, ht, fun c k' hk' i j p q hij hp hq hname => ?_⟩
  obtain ⟨n, k, ids, s, vs, hout, hk, hbuilt⟩ :=
    hbuilding.built_of_property hfree hk' (List.mem_of_getElem? hp)
  obtain ⟨hi, rfl⟩ := List.getElem?_eq_some_iff.1 hp
  obtain ⟨hj, rfl⟩ := List.getElem?_eq_some_iff.1 hq
  exact List.pairwise_iff_getElem.1 (hbuilt.rivals hm hk hout hk') i j hi hj hij hname

/-- Two getters of one property name. -/
def widths : Model :=
  .ofMembers
    [.plain "getWidth" (.plain (.builtin .int)), .plain "width" (.plain (.builtin .int))] []

/-- Either getter has its own property of the name `width`, and the two getters are rivals. -/
theorem run_names_compete_widths : widths.Valid ∧ widths.PropertyFree ∧
    ∃ t k' p q, Synthesis.withoutVerbs.run? widths = some t ∧ t.model.class? 0 = some k' ∧
      k'.properties = [p, q] ∧ p.name = "width" ∧ p.getter = some ⟨0, 0⟩ ∧ q.name = "width" ∧
        q.getter = some ⟨0, 1⟩ ∧ widths.Rivals 0 "width"
          (widths.Entered .withoutVerbs t.model 0 p) (widths.Entered .withoutVerbs t.model 0 q) := by
  have hvalid : widths.Valid := by decide
  have hfree : widths.PropertyFree := by decide
  obtain ⟨t, ht, hall⟩ := run_names_compete widths hvalid hfree .withoutVerbs
  have hrun : ((Synthesis.withoutVerbs.run? widths).bind fun t => t.model.class? 0).map
      (fun k => k.properties.map fun p => (p.name, p.getter)) =
        some [("width", some ⟨0, 0⟩), ("width", some ⟨0, 1⟩)] := by decide
  rw [ht, Option.bind_some] at hrun
  obtain ⟨k', hk', hproperties⟩ := Option.map_eq_some_iff.1 hrun
  obtain ⟨p, rest, hcons, hp, hrest⟩ := List.map_eq_cons_iff.1 hproperties
  obtain ⟨q, rfl, hq⟩ := List.map_eq_singleton_iff.1 hrest
  obtain ⟨hpname, hpgetter⟩ := Prod.mk.inj hp
  obtain ⟨hqname, hqgetter⟩ := Prod.mk.inj hq
  have hrivals := hall 0 k' hk' 0 1 p q Nat.zero_lt_one (by rw [hcons]; rfl) (by rw [hcons]; rfl)
    (hpname.trans hqname.symm)
  rw [hpname] at hrivals
  exact ⟨hvalid, hfree, t, k', p, q, ht, hk', hcons, hpname, hpgetter, hqname, hqgetter, hrivals⟩

/-- A getter takes no part in a property that has one, so the second getter gets its own. -/
theorem run_names_widths :
    ¬ ∀ (m : Model) (y : Synthesis) (t : Progress), m.Valid → m.PropertyFree → y.run? m = some t →
      ∀ c k', t.model.class? c = some k' → (k'.properties.map (·.name)).Nodup := by
  intro h
  let y := Synthesis.withoutVerbs
  have hrun : ((y.run? widths).bind fun t => t.model.class? 0).map
      (fun k => k.properties.map (·.name)) = some ["width", "width"] := by decide
  obtain ⟨k', hbind, hnames⟩ := Option.map_eq_some_iff.1 hrun
  obtain ⟨t, ht, hk'⟩ := Option.bind_eq_some_iff.1 hbind
  have hnodup := h widths y t (by decide) (by decide) ht 0 k' hk'
  rw [hnames] at hnodup
  simp at hnodup

end ApiProperties.Model

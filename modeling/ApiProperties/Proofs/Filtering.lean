import ApiProperties.Proofs.Independence

/-!
What the heuristics come to. A run with them leaves the properties of a run without them, less the
new ones that are actions. The extra properties of the other run do have an effect, since a method
may be renamed to make room for them: it is felt where a class that is processed later has a property
with this method as its getter, and a setter is offered to it.
-/

set_option autoImplicit false

namespace ApiProperties.Model

/-- No method is marked as an override. -/
def OverrideFree (m : Model) : Prop := ∀ k ∈ m.classes, ∀ f ∈ k.methods, f.isOverride = false

instance (m : Model) : Decidable m.OverrideFree :=
  inferInstanceAs (Decidable (∀ k ∈ m.classes, ∀ f ∈ k.methods, f.isOverride = false))

/-- A run comes to class `a` before it comes to class `c`. -/
def Precedes (m : Model) (a c : ClassId) : Prop :=
  ∃ (order : List ClassId) (i : Nat), m.visitOrder? = some order ∧ order[i]? = some c ∧
    a ∈ order.take i

variable {m n n' : Model} {c : ClassId} {k k' : Class} {y y' : Synthesis} {ids ids' : List MethodId}
  {s s' : Pending} {own own' : List Property} {vs vs' : List (Property × Option Property)}

/-! ### Stages of a run -/

/-- Class `c` became `k'` when it was processed in `n`, on the way from `m` to `t`, where just the
classes in `done` had been processed before. -/
structure Stage (m : Model) (y : Synthesis) (t n : Model) (done : List ClassId) (c : ClassId)
    (k k' : Class) : Prop where
  valid : n.Valid
  outline : n.outline = m.outline
  listed : n.class? c = some k
  processed : ∃ ids s own vs, n.Processed y c k ids s own vs ∧
    k' = ((y.desk n k ids s own).settleAll c vs).cls
  behind : ∀ a ∈ done, n.class? a = t.class? a
  ahead : ∀ a ∉ done, n.class? a = m.class? a

/-- What holds once the classes in `done` are processed. -/
structure Staged (m : Model) (y : Synthesis) (t : Progress) (done rest : List ClassId) : Prop where
  nodup : (done ++ rest).Nodup
  ahead : ∀ c ∉ done, t.model.class? c = m.class? c
  stages : ∀ (i : Nat) c, done[i]? = some c → ∃ n k k', m.class? c = some k ∧
    t.model.class? c = some k' ∧ m.Stage y t.model n (done.take i) c k k'

theorem Staged.step {t : Progress} {done rest : List ClassId} (h : m.Staged y t done (c :: rest))
    (hvalid : t.model.Valid) (hout : t.model.outline = m.outline) (hk : t.model.class? c = some k)
    (hp : t.model.Processed y c k ids s own vs) :
    m.Staged y
      (t.followedBy (((y.desk t.model k ids s own).settleAll c vs).progress t.model c))
      (done ++ [c]) rest := by
  have hc : c ∉ done := fun hmem =>
    (List.nodup_append.1 h.nodup).2.2 c hmem c List.mem_cons_self rfl
  have hother : ∀ d, d ≠ c →
      (t.model.putClass c ((y.desk t.model k ids s own).settleAll c vs).cls).class? d =
        t.model.class? d := fun d hd => class?_putClass_ne t.model _ hd.symm
  have hfirst : m.class? c = some k := (h.ahead c hc).symm.trans hk
  refine ⟨by simpa using h.nodup, fun d hd => ?_, fun i d hi => ?_⟩
  · simp only [List.mem_append, List.mem_singleton, not_or] at hd
    exact (hother d hd.2).trans (h.ahead d hd.1)
  · rcases getElem?_concat_cases hi with hi | ⟨rfl, rfl⟩
    · obtain ⟨n, k₁, k', hk₁, hk', hstage⟩ := h.stages i d hi
      have hlt := (List.getElem?_eq_some_iff.1 hi).1
      have hdc : d ≠ c := fun hdc => hc (hdc ▸ List.mem_of_getElem? hi)
      rw [List.take_append_of_le_length (Nat.le_of_lt hlt)]
      refine ⟨n, k₁, k', hk₁, (hother d hdc).trans hk', hstage.valid, hstage.outline,
        hstage.listed, hstage.processed, fun a ha => ?_, hstage.ahead⟩
      have hac : a ≠ c := fun hac => hc (hac ▸ List.mem_of_mem_take ha)
      exact (hstage.behind a ha).trans (hother a hac).symm
    · refine ⟨t.model, k, _, hfirst, class?_putClass_self _ hk, ?_⟩
      rw [List.take_left' rfl]
      refine ⟨hvalid, hout, hk, ⟨ids, s, own, vs, hp, rfl⟩, fun a ha => ?_, h.ahead⟩
      have hac : a ≠ d := fun hac => hc (hac ▸ ha)
      exact (hother a hac).symm

/-- A run answers, and every class it processes went through a stage of its own. -/
theorem Valid.run?_staged (hm : m.Valid) (y : Synthesis) :
    ∃ order t, m.visitOrder? = some order ∧ y.run? m = some t ∧ m.Staged y t order [] := by
  obtain ⟨order, horder, hnodup, hmem⟩ := hm.visitOrder?_total
  obtain ⟨t, ht, -, -, done, hdone, hstaged⟩ := hm.processAll?_induction y
    (fun t rest => ∃ done, order = done ++ rest ∧ m.Staged y t done rest)
    (fun c hc => ((hmem c).1 hc).2)
    ⟨[], rfl, by simpa using hnodup, fun _ _ => rfl, fun i c hi => by simp at hi⟩
    (fun t c rest k ids s own vs ⟨done, hdone, h⟩ hvalid hout hk _ hp =>
      ⟨done ++ [c], by simp [hdone], h.step hvalid hout hk hp⟩)
  obtain rfl : order = done := by simpa using hdone
  exact ⟨order, t, horder, by simp [Synthesis.run?, horder, ht], hstaged⟩

/-! ### One class in two runs -/

theorem OverrideFree.isOverriding? (hno : m.OverrideFree) (hout : n.outline = m.outline)
    {p : Property} (hp : ∀ id ∈ p.accessors, n.hasMethod id = true) :
    n.isOverriding? p = some false := by
  rw [isOverriding?_eq_some hp, Option.some_inj, List.any_eq_false]
  intro id hid
  obtain ⟨f, hf⟩ := hasMethod_iff.1 (hp id hid)
  obtain ⟨f₀, hf₀, ho⟩ := method?_of_outline hout.symm hf
  obtain ⟨k, hk, hmem⟩ := Option.bind_eq_some_iff.1 hf₀
  have hover : f₀.isOverride = false :=
    hno k (List.mem_of_getElem? hk) f₀ (List.mem_of_getElem? hmem)
  have hsame : f₀.isOverride = f.isOverride := congrArg (·.isOverride) ho
  simp [hf, ← hsame, hover]

/-- Where nothing is overridden the verdict is given by the outline. -/
theorem verdict?_of_plain (hout : n'.outline = n.outline) {p : Property}
    (hp : n.isOverriding? p = some false) : n'.verdict? c p = n.verdict? c p := by
  simp only [verdict?, reshaped?, stays?, isOverriding?_congr hout, hp,
    hasOverloads?_congr hout, mergedComment?_congr hout]
  rfl

/-- Where nothing is overridden a property is committed with the accessors it has. -/
theorem accessors_of_verdict? {p q : Property} (hp : n.isOverriding? p = some false)
    (hq : n.verdict? c p = some (some q)) : q.getter = p.getter ∧ q.setter = p.setter := by
  simp only [verdict?, reshaped?, hp, Option.bind_eq_bind, Option.bind_some, Bool.false_eq_true,
    if_false, Option.pure_def, Option.bind_eq_some_iff] at hq
  obtain ⟨stays, -, hq⟩ := hq
  cases stays with
  | false => simp at hq
  | true =>
    obtain ⟨comment, -, hq⟩ := Option.bind_eq_some_iff.1 hq
    obtain rfl := Option.some.inj (Option.some.inj hq)
    exact ⟨rfl, rfl⟩

theorem readsAsAction_congr {verbs : VerbDictionary} {p q : Property}
    (hg : q.getter = p.getter) (hs : q.setter = p.setter) :
    q.readsAsAction m verbs = p.readsAsAction m verbs := by
  simp only [Property.readsAsAction, hg, hs]

theorem Processed.committed (h : n.Processed y c k ids s own vs) :
    vs.filterMap (·.2) =
      (s.properties.filter (! y.dismisses n ·)).filterMap fun p => (n.verdict? c p).getD none := by
  rw [← h.pending, List.filterMap_map]
  exact List.filterMap_congr fun v hv => by simp [h.verdict v hv]

theorem documentedOwn_congr (hout : n'.outline = n.outline) (own : List Property)
    (completed : List Nat) : n'.documentedOwn own completed = n.documentedOwn own completed := by
  have hsame : n'.documented = n.documented :=
    funext fun p => by simp only [documented, mergedComment?_congr hout]
  simp only [documentedOwn, hsame]

section Filter
variable {verbs : VerbDictionary} {t t' : Model} {done : List ClassId} {k₁ k₂ : Class}

/-- With the heuristics, the class gets what it gets without them, less the actions. -/
theorem Stage.filter (hno : m.OverrideFree) (hk : m.class? c = some k)
    (h : m.Stage ⟨false, verbs⟩ t n done c k k₁) (h' : m.Stage ⟨true, verbs⟩ t' n' done c k k₂)
    (hknown : ∀ p ∈ k.properties, n.LooksAlike n' p) :
    k₂.properties = k₁.properties.take k.properties.length ++
      (k₁.properties.drop k.properties.length).filter (! ·.readsAsAction m verbs) := by
  have hout : n'.outline = n.outline := h'.outline.trans h.outline.symm
  have hself : n'.class? c = n.class? c := h'.listed.trans h.listed.symm
  obtain ⟨ids, s, own, vs, hp, rfl⟩ := h.processed
  obtain ⟨ids', s', own', vs', hp', rfl⟩ := h'.processed
  obtain ⟨rfl, hcollected⟩ := hp.collected_eq hp' hself h.valid h'.valid h.listed hknown
  obtain rfl : own' = own := congrArg (·.properties) hcollected
  have hlength : (n.documentedOwn own' s'.completed).length = k.properties.length := by
    simpa [documentedOwn] using hp.assembly.own_length
  have hplain : ∀ p ∈ s'.properties, n.isOverriding? p = some false := fun p hmem =>
    hno.isOverriding? h.outline fun id hid => h.valid.hasMethod_of_emits h.listed
      (hp.assembly.emits h.valid h.listed id (hp.assembly.accessors_subset p hmem id hid))
  rw [Desk.properties_settleAll, Desk.properties_settleAll, properties_desk, properties_desk,
    List.take_left' hlength, List.drop_left' hlength, documentedOwn_congr hout, hp.committed,
    hp'.committed, List.filter_filterMap, List.filterMap_filter, List.filterMap_filter]
  congr 1
  refine List.filterMap_congr fun p hmem => ?_
  have hlenient : (⟨false, verbs⟩ : Synthesis).dismisses n p = false := rfl
  have hstrict : (⟨true, verbs⟩ : Synthesis).dismisses n' p = p.readsAsAction m verbs :=
    dismisses_of_accessors ⟨true, verbs⟩ fun id hid =>
      method?_of_class (h'.listed.trans hk.symm)
        (hp.owner_of_mem (hp.assembly.accessors_subset p hmem id hid))
  rw [hlenient, hstrict, verdict?_of_plain hout (hplain p hmem)]
  cases hv : n.verdict? c p with
  | none => simp
  | some v =>
    cases v with
    | none => simp
    | some q =>
      obtain ⟨hg, hs⟩ := accessors_of_verdict? (hplain p hmem) hv
      have hreads : q.readsAsAction m verbs = p.readsAsAction m verbs := readsAsAction_congr hg hs
      simp [Option.filter, hreads]

end Filter

/-! ### Whole runs -/

/-- The heuristics only filter what a class gets, unless a property that the class had has for its
getter a method of a class processed before, and this method is named for another property after
the one run than after the other. -/
theorem run_filters (m : Model) (hm : m.Valid) (hno : m.OverrideFree) (verbs : VerbDictionary) :
    ∃ strict lenient, (⟨true, verbs⟩ : Synthesis).run? m = some strict ∧
      (⟨false, verbs⟩ : Synthesis).run? m = some lenient ∧
      ∀ c k, m.class? c = some k →
        (∀ p ∈ k.properties, ∀ g, p.getter = some g → p.setter = none → p.field = none →
          m.Precedes g.owner c →
          strict.model.getterName? g = lenient.model.getterName? g) →
        ∃ k₁ k₂, strict.model.class? c = some k₁ ∧ lenient.model.class? c = some k₂ ∧
          k₁.properties = k₂.properties.take k.properties.length ++
            (k₂.properties.drop k.properties.length).filter (! ·.readsAsAction m verbs) := by
  obtain ⟨order, strict, horder, hstrict, h⟩ := hm.run?_staged ⟨true, verbs⟩
  obtain ⟨order', lenient, horder', hlenient, h'⟩ := hm.run?_staged ⟨false, verbs⟩
  obtain rfl := Option.some.inj (horder.symm.trans horder')
  refine ⟨strict, lenient, hstrict, hlenient, fun c k hk hnames => ?_⟩
  by_cases hc : c ∈ order
  · obtain ⟨i, hi⟩ := List.mem_iff_getElem?.1 hc
    obtain ⟨n, k₀, k₁, hk₀, hk₁, hstage⟩ := h.stages i c hi
    obtain ⟨n', k₀', k₂, hk₀', hk₂, hstage'⟩ := h'.stages i c hi
    obtain rfl := Option.some.inj (hk.symm.trans hk₀)
    obtain rfl := Option.some.inj (hk.symm.trans hk₀')
    refine ⟨k₁, k₂, hk₁, hk₂, hstage'.filter hno hk hstage fun p hp => ⟨fun j _ => ?_, ?_⟩⟩
    · exact map_method?_congr (hstage.outline.trans hstage'.outline.symm) _ (fun _ => rfl) j
    · intro hfield hs g hg
      by_cases hdone : g.owner ∈ order.take i
      · have hsame := hnames p hp g hg hs hfield ⟨order, i, horder, hi, hdone⟩
        have hn := method?_of_class (hstage.behind g.owner hdone) rfl
        have hn' := method?_of_class (hstage'.behind g.owner hdone) rfl
        rwa [getterName?, getterName?, ← hn, ← hn'] at hsame
      · have hn := method?_of_class (hstage.ahead g.owner hdone) rfl
        have hn' := method?_of_class (hstage'.ahead g.owner hdone) rfl
        rw [getterName?, getterName?, hn, hn']
  · refine ⟨k, k, (h.ahead c hc).trans hk, (h'.ahead c hc).trans hk, ?_⟩
    rw [List.take_length, List.drop_length, List.filter_nil, List.append_nil]

/-- A source with a method that was renamed to the name of an action, and a panel whose property
has this method for its getter. -/
def relay : Model :=
  let int := QualifiedType.plain (.builtin .int)
  let action := Method.plain "Update" int
  let renamed := { action with
    originalName := "Refresh", excludedPasses := NameSet.empty.insert passName }
  let status := { Property.plain "Status" int 1 .pub with getter := some ⟨0, 1⟩ }
  ⟨"unit", [
    { Class.empty 0 "Source" with methods := [action, renamed] },
    { Class.empty 1 "Panel" with
      methods := [{ Method.plainSetter "SetUpdate" int with owner := 1 }]
      properties := [status] }]⟩

/-- The source has the property `Update` without the heuristics alone. -/
theorem run_filters_relay : relay.Valid ∧ relay.OverrideFree ∧
    ∃ strict lenient k₁ k₂ p, (⟨true, ⟨["update"]⟩⟩ : Synthesis).run? relay = some strict ∧
      (⟨false, ⟨["update"]⟩⟩ : Synthesis).run? relay = some lenient ∧
      strict.model.class? 0 = some k₁ ∧ lenient.model.class? 0 = some k₂ ∧
      k₂.properties = [p] ∧ p.name = "Update" ∧ p.getter = some ⟨0, 0⟩ ∧ p.setter = none ∧
      p.readsAsAction relay ⟨["update"]⟩ = true ∧ k₁.properties = [] := by
  have hvalid : relay.Valid := by decide
  have hno : relay.OverrideFree := by decide
  obtain ⟨strict, lenient, hstrict, hlenient, hall⟩ := run_filters relay hvalid hno ⟨["update"]⟩
  have hrun : (((⟨false, ⟨["update"]⟩⟩ : Synthesis).run? relay).bind (·.model.class? 0)).map
      (fun k => k.properties.map fun p => (p.name, p.getter, p.setter)) =
        some [("Update", some ⟨0, 0⟩, none)] := by decide
  rw [hlenient, Option.bind_some] at hrun
  obtain ⟨k₁, k₂, hk₁, hk₂, hfiltered⟩ := hall 0 _ rfl fun p hp => by cases hp
  obtain ⟨k', hk', hproperties⟩ := Option.map_eq_some_iff.1 hrun
  obtain rfl := Option.some.inj (hk₂.symm.trans hk')
  obtain ⟨p, hp, hsame⟩ := List.map_eq_singleton_iff.1 hproperties
  obtain ⟨hname, hboth⟩ := Prod.mk.inj hsame
  obtain ⟨hg, hs⟩ := Prod.mk.inj hboth
  have hreads : p.readsAsAction relay ⟨["update"]⟩ = true := by
    simp only [Property.readsAsAction, hg, hs]
    decide
  have hnone : k₁.properties = [] := by simpa [hp, hreads, Class.empty] using hfiltered
  exact ⟨hvalid, hno, strict, lenient, k₁, k₂, p, hstrict, hlenient, hk₁, hk₂, hp, hname, hg, hs,
    hreads, hnone⟩

/-- Without the heuristics the source gets the property `Update`, so the other method is called
`getUpdate` when the panel is processed, and the setter does not fit it any more. -/
theorem run_renames_getter_relay :
    ¬ ∀ (m : Model) (verbs : VerbDictionary) (strict lenient : Progress), m.Valid →
      m.OverrideFree → (⟨true, verbs⟩ : Synthesis).run? m = some strict →
      (⟨false, verbs⟩ : Synthesis).run? m = some lenient → ∀ c k k₁ k₂, m.class? c = some k →
        strict.model.class? c = some k₁ → lenient.model.class? c = some k₂ →
          k₁.properties = k₂.properties.take k.properties.length ++
            (k₂.properties.drop k.properties.length).filter (! ·.readsAsAction m verbs) := by
  intro h
  let verbs : VerbDictionary := ⟨["update"]⟩
  have hstrict : (((⟨true, verbs⟩ : Synthesis).run? relay).bind fun t => t.model.class? 1).map
      (fun k => k.properties.map (·.setter)) = some [some ⟨1, 0⟩] := by decide
  have hlenient : (((⟨false, verbs⟩ : Synthesis).run? relay).bind fun t => t.model.class? 1).map
      (fun k => k.properties.map (·.setter)) = some [none] := by decide
  obtain ⟨k₁, hbind₁, hsetter₁⟩ := Option.map_eq_some_iff.1 hstrict
  obtain ⟨k₂, hbind₂, hsetter₂⟩ := Option.map_eq_some_iff.1 hlenient
  obtain ⟨t₁, ht₁, hk₁⟩ := Option.bind_eq_some_iff.1 hbind₁
  obtain ⟨t₂, ht₂, hk₂⟩ := Option.bind_eq_some_iff.1 hbind₂
  have heq := h relay verbs t₁ t₂ (by decide) (by decide) ht₁ ht₂ 1 _ k₁ k₂ rfl hk₁ hk₂
  have hone : k₂.properties.length = 1 := by simpa using congrArg List.length hsetter₂
  have hsame : k₁.properties = k₂.properties := by
    rw [heq]
    change k₂.properties.take 1 ++ (k₂.properties.drop 1).filter _ = k₂.properties
    rw [← hone, List.take_length, List.drop_length, List.filter_nil, List.append_nil]
  rw [hsame, hsetter₂] at hsetter₁
  simp at hsetter₁

end ApiProperties.Model

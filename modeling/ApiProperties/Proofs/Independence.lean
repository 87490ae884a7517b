import ApiProperties.Proofs.Run

/-!
What the processing of a class depends on. It looks at the outline of the model, at the class itself
and at the properties of its ancestors, and it writes to no other class. So two models that agree on
these have the same done to the class, whatever became of their other classes.
-/

set_option autoImplicit false

namespace ApiProperties

theorem Property.of_mem_accessors_attach {p : Property} {id j : MethodId} {f : Method}
    {a : Accessor} (h : j ∈ (p.attach id f a).accessors) : j = id ∨ j ∈ p.accessors := by
  cases hr : a.role <;> simp only [mem_accessors, attach, hr, Option.some.injEq] at h ⊢ <;> tauto

namespace Model

/-- The models differ in nothing that the processing of class `c` looks at. -/
structure AgreesOn (m : Model) (c : ClassId) (m' : Model) : Prop where
  outline : m'.outline = m.outline
  self : m'.class? c = m.class? c
  ancestors : ∀ d, m.Ancestor c d → m'.class? d = m.class? d

variable {m m' : Model} {c : ClassId} {k : Class}

/-! ### The verdict -/

theorem AgreesOn.searchBases? (h : m.AgreesOn c m') (hm : m.Valid) (q : BaseQuery) (fuel : Nat) :
    ∀ {seen todo : List ClassId}, (∀ t ∈ todo, t < m.classes.length ∧
      ∀ d, m.definition? t = some d → m.Ancestor c d) →
      m'.searchBases? q fuel seen todo = m.searchBases? q fuel seen todo := by
  induction fuel with
  | zero => simp [Model.searchBases?]
  | succ fuel ih =>
    intro seen todo htodo
    cases todo with
    | nil => simp [Model.searchBases?]
    | cons t todo =>
      obtain ⟨ht, hanc⟩ := htodo t List.mem_cons_self
      have hrest := fun u hu => htodo u (List.mem_cons_of_mem t hu)
      obtain ⟨d, hd, hlt⟩ := hm.definition?_isSome ht
      have hcd := hanc d hd
      obtain ⟨k, hk⟩ := hasClass_iff.1 (decide_eq_true hlt)
      have hbases : ∀ u ∈ k.bases.map (·.target) ++ todo, u < m.classes.length ∧
          ∀ e, m.definition? u = some e → m.Ancestor c e := by
        intro u hu
        rcases List.mem_append.1 hu with hu | hu
        · refine ⟨hm.bases_lt hk u hu, fun e he => ?_⟩
          obtain ⟨b, hb, rfl⟩ := List.mem_map.1 hu
          exact hcd.tail ⟨hm.isDefinition_of_definition? ht hd, k, hk, b, hb, he⟩
        · exact hrest u hu
      simp only [Model.searchBases?, definition?_congr h.outline, hd, h.ancestors d hcd, hk,
        Option.bind_eq_bind, Option.bind_some, ih hrest, ih hbases]

theorem AgreesOn.findBaseProperty? (h : m.AgreesOn c m') (hm : m.Valid) (hc : m.IsDefinition c)
    (hk : m.class? c = some k) (p : Property) :
    m'.findBaseProperty? c p = m.findBaseProperty? c p := by
  have hdef : m.definition? c = some c := hc
  have hbases : ∀ t ∈ k.bases.map (·.target), t < m.classes.length ∧
      ∀ d, m.definition? t = some d → m.Ancestor c d := by
    intro t ht
    refine ⟨hm.bases_lt hk t ht, fun d hd => ?_⟩
    obtain ⟨b, hb, rfl⟩ := List.mem_map.1 ht
    exact .single ⟨hc, k, hk, b, hb, hd⟩
  simp only [Model.findBaseProperty?, baseQuery?_congr h.outline, definition?_congr h.outline,
    baseCount_congr h.outline, hdef, h.self, hk, Option.bind_eq_bind, Option.bind_some,
    h.searchBases? hm _ _ hbases]

theorem AgreesOn.verdict? (h : m.AgreesOn c m') (hm : m.Valid) (hc : m.IsDefinition c)
    (hk : m.class? c = some k) (p : Property) : m'.verdict? c p = m.verdict? c p := by
  simp only [Model.verdict?, reshaped?, stays?, isOverriding?_congr h.outline,
    h.findBaseProperty? hm hc hk, hasOverloads?_congr h.outline, mergedComment?_congr h.outline]

/-! ### What becomes pending -/

theorem accepts?_of_accessors {id : MethodId} (hid : m'.method? id = m.method? id) (a : Accessor)
    {p : Property} (hp : ∀ j ∈ p.accessors, m'.method? j = m.method? j) :
    m'.accepts? id a p = m.accepts? id a p := by
  cases hj : p.partner a.role with
  | none => simp [accepts?, hj]
  | some j =>
    simp only [accepts?, hj, hid, hp j (Property.mem_accessors_of_partner hj)]

theorem method?_of_class (h : m'.class? c = m.class? c) {id : MethodId} (hid : id.owner = c) :
    m'.method? id = m.method? id := by
  simp [Model.method?, hid, h]

theorem dismisses_of_accessors (y : Synthesis) {p : Property}
    (h : ∀ id ∈ p.accessors, m'.method? id = m.method? id) :
    y.dismisses m' p = y.dismisses m p := by
  cases hg : p.getter with
  | none => simp [Synthesis.dismisses, Property.readsAsAction, hg]
  | some g =>
    have hmethod := h g (Property.mem_accessors.2 (.inl hg))
    cases hs : p.setter <;> simp [Synthesis.dismisses, Property.readsAsAction, hg, hs, hmethod]

/-- The property name that the method's name stands for if it is a getter. -/
def getterName? (m : Model) (id : MethodId) : Option String :=
  (m.method? id).map fun f => propertyNameFromGetter f.name

/-- The models answer alike when an accessor is offered to the property `p`: of what it has already
they know the same, as far as they are asked. -/
structure LooksAlike (n n' : Model) (p : Property) : Prop where
  traits : ∀ j ∈ p.accessors, (n'.method? j).map (fun f => (f.isStatic, f.isOverride)) =
    (n.method? j).map fun f => (f.isStatic, f.isOverride)
  name : p.field = none → p.setter = none → ∀ g, p.getter = some g →
    n'.getterName? g = n.getterName? g

theorem readWritePropertyName_congr {g g' : String}
    (h : propertyNameFromGetter g' = propertyNameFromGetter g) (s : String) :
    readWritePropertyName g' s = readWritePropertyName g s := by
  have hchars : Name.fromGetter g'.toList = Name.fromGetter g.toList := by
    simpa [propertyNameFromGetter, onName] using congrArg String.toList h
  simp only [readWritePropertyName, Name.readWrite, hchars]

namespace LooksAlike
variable {n n' : Model} {p : Property} {id : MethodId} {a : Accessor}

theorem accepts? (h : n.LooksAlike n' p) (hid : n'.method? id = n.method? id) :
    n'.accepts? id a p = n.accepts? id a p := by
  by_cases hfree : (p.field.isSome || (p.half a.role).isSome) = true
  · simp [Model.accepts?, hfree]
  · cases hj : p.partner a.role with
    | none => simp [Model.accepts?, hj]
    | some j =>
      have htraits := h.traits j (Property.mem_accessors_of_partner hj)
      have hname : a.role = .setter → n'.getterName? j = n.getterName? j := fun hrole => by
        simp only [hrole, Property.half, Property.partner, Bool.or_eq_true, not_or,
          Option.not_isSome_iff_eq_none] at hfree hj
        exact h.name hfree.1 hfree.2 j hj
      simp only [Model.accepts?, hfree, hj, hid, Bool.false_eq_true, if_false, Option.bind_eq_bind]
      cases hf : n.method? j with
      | none =>
        have hf' : n'.method? j = none := by simpa [hf] using htraits
        rw [hf']
      | some f =>
        obtain ⟨f', hf'⟩ : ∃ f', n'.method? j = some f' := by
          rw [hf] at htraits
          exact (Option.map_eq_some_iff.1 htraits).imp fun _ h => h.1
        obtain ⟨hstatic, -⟩ : f'.isStatic = f.isStatic ∧ f'.isOverride = f.isOverride := by
          simpa [hf, hf'] using htraits
        have hsame : (a.role == .setter && readWritePropertyName f'.name a.name == a.name) =
            (a.role == .setter && readWritePropertyName f.name a.name == a.name) := by
          cases hrole : a.role with
          | getter => rfl
          | setter =>
            have hname' := hname hrole
            rw [getterName?, getterName?, hf, hf'] at hname'
            rw [readWritePropertyName_congr (Option.some.inj hname')]
        simp only [hf', Option.bind_some, hstatic, hsame]

theorem completable? (h : n.LooksAlike n' p) (hid : n'.method? id = n.method? id) :
    Pending.completable? n' id a p = Pending.completable? n id a p := by
  have hover : n'.isOverriding? p = n.isOverriding? p := by
    refine anyM_congr fun j hj => ?_
    have htraits := congrArg (Option.map Prod.snd) (h.traits j hj)
    simpa [Function.comp_def] using htraits
  simp only [Pending.completable?, hover, h.accepts? hid]

/-- Once it has both halves, a property looks alike wherever the new half does. -/
theorem attach {f : Method} (h : n.LooksAlike n' p) (hid : n'.method? id = n.method? id)
    (hc : Pending.completable? n id a p = some true) : n.LooksAlike n' (p.attach id f a) := by
  obtain ⟨-, -, j, -, -, hpartner, -⟩ := accepts_of_completable? hc
  refine ⟨fun i hi => ?_, fun _ hs => ?_⟩
  · rcases Property.of_mem_accessors_attach hi with rfl | hi
    · rw [hid]
    · exact h.traits i hi
  · obtain ⟨role, name, type⟩ := a
    cases role with
    | getter =>
      have hsetter : p.setter = none := hs
      simp [Property.partner, hsetter] at hpartner
    | setter => cases hs

end LooksAlike

/-- What an offer makes of what is pending and of the class's own properties. -/
inductive Placement (m : Model) (c : ClassId) (id : MethodId) (f : Method) (a : Accessor)
    (s : Pending) (own : List Property) : Pending → List Property → Prop
  | completes {i : Nat}
      (hi : firstIndex? (Pending.completable? m id a) own = some (some i)) :
      Placement m c id f a s own { s with completed := s.completed ++ [i] }
        (own.modify i (·.attach id f a))
  | joins {i : Nat} (hn : firstIndex? (Pending.completable? m id a) own = some none)
      (hi : firstIndex? (m.accepts? id a) s.properties = some (some i)) :
      Placement m c id f a s own
        { s with properties := s.properties.modify i (·.attach id f a) } own
  | starts (hn : firstIndex? (Pending.completable? m id a) own = some none)
      (hi : firstIndex? (m.accepts? id a) s.properties = some none) :
      Placement m c id f a s own
        { s with properties := s.properties ++ [Property.single c id f a] } own

namespace Placement
variable {id : MethodId} {f : Method} {a : Accessor} {s s₁ s₂ : Pending}
  {own own₁ own₂ : List Property} {i : Nat}

theorem eq_of_completes (h : m.Placement c id f a s own s₁ own₁)
    (hi : firstIndex? (Pending.completable? m id a) own = some (some i)) :
    s₁ = { s with completed := s.completed ++ [i] } ∧ own₁ = own.modify i (·.attach id f a) := by
  cases h with
  | completes hi' =>
    obtain rfl := Option.some.inj (Option.some.inj (hi'.symm.trans hi))
    exact ⟨rfl, rfl⟩
  | joins hn' => cases hn'.symm.trans hi
  | starts hn' => cases hn'.symm.trans hi

theorem eq_of_joins (h : m.Placement c id f a s own s₁ own₁)
    (hn : firstIndex? (Pending.completable? m id a) own = some none)
    (hi : firstIndex? (m.accepts? id a) s.properties = some (some i)) :
    s₁ = { s with properties := s.properties.modify i (·.attach id f a) } ∧ own₁ = own := by
  cases h with
  | completes hi' => cases hi'.symm.trans hn
  | joins _ hi' =>
    obtain rfl := Option.some.inj (Option.some.inj (hi'.symm.trans hi))
    exact ⟨rfl, rfl⟩
  | starts _ hi' => cases hi'.symm.trans hi

theorem eq_of_starts (h : m.Placement c id f a s own s₁ own₁)
    (hn : firstIndex? (Pending.completable? m id a) own = some none)
    (hi : firstIndex? (m.accepts? id a) s.properties = some none) :
    s₁ = { s with properties := s.properties ++ [Property.single c id f a] } ∧ own₁ = own := by
  cases h with
  | completes hi' => cases hi'.symm.trans hn
  | joins _ hi' => cases hi'.symm.trans hi
  | starts => exact ⟨rfl, rfl⟩

/-- Models that decide alike put the method in the same place. -/
theorem unique (h : m.Placement c id f a s own s₁ own₁) (h' : m'.Placement c id f a s own s₂ own₂)
    (hcompletable : ∀ p ∈ own, Pending.completable? m' id a p = Pending.completable? m id a p)
    (haccepts : ∀ p ∈ s.properties, m'.accepts? id a p = m.accepts? id a p) :
    s₂ = s₁ ∧ own₂ = own₁ := by
  have hown := firstIndex?_congr hcompletable
  have hpending := firstIndex?_congr haccepts
  cases h with
  | completes hi => exact h'.eq_of_completes (hown.trans hi)
  | joins hn hi => exact h'.eq_of_joins (hown.trans hn) (hpending.trans hi)
  | starts hn hi => exact h'.eq_of_starts (hown.trans hn) (hpending.trans hi)

end Placement

namespace Assembly
variable {ids : List MethodId} {id : MethodId} {s s' : Pending} {own own' : List Property}

theorem of_nil (h : m.Assembly k [] s own) : s = .empty k.id ∧ own = k.properties := by
  generalize hl : ([] : List MethodId) = l at h
  cases h with
  | start => exact ⟨rfl, rfl⟩
  | complete => simp at hl
  | join => simp at hl
  | create => simp at hl

/-- The offer that came last was placed after the others. -/
theorem last (h : m.Assembly k (ids ++ [id]) s own) : ∃ s₀ own₀ f a, m.Assembly k ids s₀ own₀ ∧
    m.Offers k.id id f a ∧ m.Placement k.id id f a s₀ own₀ s own := by
  generalize hl : ids ++ [id] = l at h
  cases h with
  | start => simp at hl
  | complete h ho _ _ _ hi =>
    obtain ⟨rfl, hid⟩ := List.append_inj' hl rfl
    obtain rfl := List.singleton_inj.1 hid
    exact ⟨_, _, _, _, h, ho, .completes hi⟩
  | join h ho _ hn _ _ hi =>
    obtain ⟨rfl, hid⟩ := List.append_inj' hl rfl
    obtain rfl := List.singleton_inj.1 hid
    exact ⟨_, _, _, _, h, ho, .joins (firstIndex?_eq_none.2 hn) hi⟩
  | create h ho _ hn hn' =>
    obtain ⟨rfl, hid⟩ := List.append_inj' hl rfl
    obtain rfl := List.singleton_inj.1 hid
    exact ⟨_, _, _, _, h, ho, .starts (firstIndex?_eq_none.2 hn) (firstIndex?_eq_none.2 hn')⟩

/-- What becomes pending is decided by the methods that are offered and by the class's properties,
as far as these look alike. -/
theorem unique {k' : Class} (h : m.Assembly k ids s own) (h' : m'.Assembly k' ids s' own')
    (hkid : k'.id = k.id) (hprops : k'.properties = k.properties)
    (hmethods : ∀ j ∈ ids, m'.method? j = m.method? j)
    (hknown : ∀ p ∈ k.properties, m.LooksAlike m' p) :
    s' = s ∧ own' = own ∧ ∀ p ∈ own, m.LooksAlike m' p := by
  induction ids using List.reverseRecOn generalizing s s' own own' with
  | nil =>
    obtain ⟨rfl, rfl⟩ := h.of_nil
    obtain ⟨rfl, rfl⟩ := h'.of_nil
    exact ⟨by rw [hkid], hprops, hknown⟩
  | append_singleton ids id ih =>
    obtain ⟨s₀, own₀, f, a, h₀, ho, hplace⟩ := h.last
    obtain ⟨s₀', own₀', f', a', h₀', ho', hplace'⟩ := h'.last
    obtain ⟨rfl, rfl, halike⟩ := ih h₀ h₀' fun j hj => hmethods j (List.mem_append_left _ hj)
    have hid : m'.method? id = m.method? id :=
      hmethods id (List.mem_append_right _ (List.mem_singleton.2 rfl))
    obtain rfl : f = f' := Option.some.inj (ho.method.symm.trans (hid.symm.trans ho'.method))
    obtain rfl : a = a' := Option.some.inj (ho.accessor.symm.trans ho'.accessor)
    rw [hkid] at hplace'
    have haccepts : ∀ p ∈ s₀'.properties, m'.accepts? id a p = m.accepts? id a p := fun p hp =>
      accepts?_of_accessors hid a fun j hj =>
        hmethods j (List.mem_append_left _ (h₀.accessors_subset p hp j hj))
    obtain ⟨rfl, rfl⟩ := hplace.unique hplace' (fun p hp => (halike p hp).completable? hid) haccepts
    refine ⟨rfl, rfl, fun q hq => ?_⟩
    cases hplace with
    | completes hi =>
      obtain ⟨l₁, p, l₂, rfl, rfl, hc, -⟩ := firstIndex?_found hi
      rcases mem_modify (x := p) (by simp) hq with rfl | hq
      · exact (halike p (by simp)).attach hid hc
      · exact halike q hq
    | joins => exact halike q hq
    | starts => exact halike q hq

end Assembly

variable {y : Synthesis} {ids ids' : List MethodId} {s s' : Pending} {own own' : List Property}
  {vs vs' : List (Property × Option Property)}

theorem Processed.dismisses_eq (hp : m.Processed y c k ids s own vs)
    (h : m'.class? c = m.class? c) {p : Property} (hmem : p ∈ s.properties) :
    y.dismisses m' p = y.dismisses m p :=
  dismisses_of_accessors y fun id hid =>
    method?_of_class h (hp.owner_of_mem (hp.assembly.accessors_subset p hmem id hid))

/-- The same becomes pending, and the class looks the same afterwards. -/
theorem Valid.collect?_of_class (hm : m.Valid) (hm' : m'.Valid) (hk : m.class? c = some k)
    (hk' : m'.class? c = some k) (hknown : ∀ p ∈ k.properties, m.LooksAlike m' p) {n n' : Model}
    (h : Pending.collect? m c = some (s, n)) (h' : Pending.collect? m' c = some (s', n')) :
    s' = s ∧ n'.class? c = n.class? c := by
  obtain ⟨own, hassembly, rfl⟩ := hm.assembly_of_collect? hk h
  obtain ⟨own', hassembly', rfl⟩ := hm'.assembly_of_collect? hk' h'
  have hown : ∀ id ∈ k.methodIds, m'.method? id = m.method? id := fun id hid =>
    method?_of_class (hk'.trans hk.symm) ((hm.mem_methodIds hk).1 hid).1
  have hoffered : k.methodIds.filter m'.takesPart = k.methodIds.filter m.takesPart :=
    List.filter_congr fun id hid => takesPart_congr (hown id hid)
  rw [hoffered] at hassembly' ⊢
  obtain ⟨rfl, rfl, -⟩ := hassembly.unique hassembly' rfl rfl
    (fun id hid => hown id (List.mem_of_mem_filter hid)) hknown
  exact ⟨rfl, by rw [class?_putClass_self _ hk, class?_putClass_self _ hk']⟩

/-- The same offers were taken, the same is pending, and the same was completed. -/
theorem Processed.collected_eq {y' : Synthesis} (hp : m.Processed y c k ids s own vs)
    (hp' : m'.Processed y' c k ids' s' own' vs') (h : m'.class? c = m.class? c) (hm : m.Valid)
    (hm' : m'.Valid) (hk : m.class? c = some k) (hknown : ∀ p ∈ k.properties, m.LooksAlike m' p) :
    s' = s ∧ k.collected ids' own' = k.collected ids own := by
  have hk' := h.trans hk
  obtain ⟨hs, hself⟩ := hm.collect?_of_class hm' hk hk' hknown hp.collect hp'.collect
  simp only [class?_putClass_self _ hk, class?_putClass_self _ hk', Option.some.injEq] at hself
  exact ⟨hs, hself⟩

namespace Processed
variable (hp : m.Processed y c k ids s own vs) (hp' : m'.Processed y c k ids' s' own' vs')
  (h : m.AgreesOn c m') (hm : m.Valid) (hm' : m'.Valid) (hk : m.class? c = some k)
  (hfree : k.properties = [])
include hp hp' h hm hm' hk hfree

theorem desk_eq : y.desk m' k ids' s' own' = y.desk m k ids s own := by
  obtain ⟨rfl, hcollected⟩ := hp.collected_eq hp' h.self hm hm' hk (by simp [hfree])
  rw [hp.assembly.own_eq_nil hfree, hp'.assembly.own_eq_nil hfree] at hcollected
  have hgiven : s'.properties.filter (y.dismisses m') = s'.properties.filter (y.dismisses m) :=
    List.filter_congr fun p hmem => hp.dismisses_eq h.self hmem
  simp only [Synthesis.desk, hgiven, hp.assembly.own_eq_nil hfree, hp'.assembly.own_eq_nil hfree,
    documentedOwn, List.mapIdx_nil, hcollected]

theorem verdicts_eq (hc : m.IsDefinition c) : vs' = vs := by
  obtain ⟨rfl, -⟩ := hp.collected_eq hp' h.self hm hm' hk (by simp [hfree])
  have hpending : vs'.map (·.1) = vs.map (·.1) := by
    rw [hp.pending, hp'.pending]
    refine List.filter_congr fun p hmem => ?_
    rw [hp.dismisses_eq h.self hmem]
  -- the verdicts are given by the properties, and by these in the same way
  have hverdicts : ∀ ws : List (Property × Option Property),
      (∀ v ∈ ws, m.verdict? c v.1 = some v.2) →
      ws.map (fun v => (v.1, some v.2)) = (ws.map (·.1)).map fun p => (p, m.verdict? c p) := by
    intro ws hws
    rw [List.map_map]
    exact List.map_congr_left fun v hv => by simp [hws v hv]
  have hall := hverdicts vs' fun v hv => by
    rw [← h.verdict? hm hc hk]
    exact hp'.verdict v hv
  rw [hpending, ← hverdicts vs hp.verdict] at hall
  refine List.map_injective_iff.2 (fun v w hvw => ?_) hall
  simpa [Prod.ext_iff] using hvw

end Processed

/-- What is done to a class without properties is the same in every consistent model that agrees on
the class. -/
theorem Valid.processClass?_agree (hm : m.Valid) (hk : m.class? c = some k)
    (hc : m.IsDefinition c) (hfree : k.properties = []) (y : Synthesis) :
    ∃ d : Desk, ∀ m', m'.Valid → m.AgreesOn c m' →
      y.processClass? m' c = some (d.progress m' c) := by
  obtain ⟨ids, s, own, vs, hp, -⟩ := hm.processClass?_total hk hc y
  refine ⟨(y.desk m k ids s own).settleAll c vs, fun m' hm' h => ?_⟩
  have hk' : m'.class? c = some k := h.self.trans hk
  have hc' : m'.IsDefinition c := (isDefinition_congr h.outline).2 hc
  obtain ⟨ids', s', own', vs', hp', hprocess⟩ := hm'.processClass?_total hk' hc' y
  rw [hprocess, hp.desk_eq hp' h hm hm' hk hfree, hp.verdicts_eq hp' h hm hm' hk hfree hc]

end Model
end ApiProperties

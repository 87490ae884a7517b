import ApiProperties.Proofs.Independence
import ApiProperties.Proofs.Outcome

/-!
Where the properties come from when there were none. Each of them descends from one pending property
that was assembled from the methods of its class alone: it has the same accessors, or its setter was
given back, or it borrows the half that was missing.
-/

set_option autoImplicit false

namespace ApiProperties.Model

/-- Class `c` was processed in a model in which its methods are not yet accessors of any property,
and became `k'`. -/
structure Built (m : Model) (y : Synthesis) (c : ClassId) (k k' : Class) (ids : List MethodId)
    (s : Pending) (vs : List (Property × Option Property)) : Prop where
  valid : m.Valid
  definition : m.IsDefinition c
  listed : m.class? c = some k
  free : k.properties = []
  foreign : ∀ id, m.Borrowable c id → id.owner ≠ c
  processed : m.Processed y c k ids s [] vs
  result : k' = ((y.desk m k ids s []).settleAll c vs).cls

/-- The property is one of those that the candidates of the class make pending. -/
def Assembles (m : Model) (c : ClassId) (p : Property) : Prop :=
  ∃ s n, Pending.collect? m c = some (s, n) ∧ p ∈ s.properties

/-- How the committed property `q` comes by its getter and its setter, from the pending `p`. -/
inductive Remains (m m' : Model) (c : ClassId) (p q : Property) : Prop
  | whole {g : MethodId} (hp : p.getter = some g) (hg : q.getter = some g)
      (hs : q.setter = p.setter)
  | returned {g s : MethodId} {f : Method} (hp : p.getter = some g) (hp' : p.setter = some s)
      (ho : m.isOverriding? p = some true) (hf : m'.method? s = some f)
      (hgen : f.generation = .generate) (hg : q.getter = some g) (hs : q.setter = none)
  | borrowsGetter {g s : MethodId} (hp : p.getter = none) (hp' : p.setter = some s)
      (hg : q.getter = some g) (hs : q.setter = some s) (hne : g.owner ≠ c)
  | borrowsSetter {g s : MethodId} (hp : p.getter = some g) (hp' : p.setter = none)
      (hg : q.getter = some g) (hs : q.setter = some s) (hne : s.owner ≠ c)

/-- The property `p` of class `c` after a run, in `m'`, was the pending property `p₀`. -/
structure Descends (m : Model) (y : Synthesis) (m' : Model) (c : ClassId) (p₀ p : Property) :
    Prop where
  assembled : m.Assembles c p₀
  settled : y.dismisses m p₀ = false
  rest : p = { p₀ with getter := p.getter, setter := p.setter, comment := p.comment, owner := c }
  remains : m.Remains m' c p₀ p
  internal : ∀ id ∈ p.accessors, id.owner = c →
    ∃ f, m.method? id = some f ∧ m'.method? id = some { f with generation := .internal }

variable {m n : Model} {c : ClassId} {k k' : Class} {y : Synthesis} {ids : List MethodId}
  {s : Pending} {vs : List (Property × Option Property)}

theorem Assembles.assembly {p : Property} (h : m.Assembles c p) (hm : m.Valid)
    (hk : m.class? c = some k) :
    ∃ ids s own, m.Assembly k ids s own ∧ ids.Pairwise (·.index < ·.index) ∧ p ∈ s.properties := by
  obtain ⟨s, n, hcollect, hp⟩ := h
  obtain ⟨own, hassembly, -⟩ := hm.assembly_of_collect? hk hcollect
  exact ⟨_, s, own, hassembly, (pairwise_methodIds k).filter _, hp⟩

theorem Assembles.offers {p : Property} (h : m.Assembles c p) (hm : m.Valid)
    (hk : m.class? c = some k) : ∀ id ∈ p.accessors, ∃ f a, m.Offers c id f a := by
  obtain ⟨ids, s, own, hassembly, -, hp⟩ := h.assembly hm hk
  exact fun id hid =>
    (hm.consistent hk).id ▸ hassembly.offers id (hassembly.accessors_subset p hp id hid)

/-- What is pending can be read off the candidates that are collected. -/
theorem Assembles.mem_map {α : Type} {p : Property} (h : m.Assembles c p) (f : Property → α)
    {l : List α} (hl : (Pending.collect? m c).map (fun r => r.1.properties.map f) = some l) :
    f p ∈ l := by
  obtain ⟨s, n, hcollect, hp⟩ := h
  rw [hcollect, Option.map_some, Option.some.injEq] at hl
  exact hl ▸ List.mem_map_of_mem hp

namespace Built
variable (h : n.Built y c k k' ids s vs)
include h

theorem properties_eq : k'.properties = vs.filterMap (·.2) := by
  rw [h.result, Desk.properties_settleAll, properties_desk, documentedOwn, List.mapIdx_nil,
    List.nil_append]

theorem not_released {v : Property × Option Property} (hv : v ∈ vs) {q : Property}
    (hq : v.2 = some q) {id : MethodId} (hid : id ∈ q.accessors) (howner : id.owner = c) :
    id ∉ y.released n s vs :=
  h.processed.not_released h.foreign (h.valid.consistent h.listed).id (by simp [h.free])
    (.inr ⟨v, hv, q, hq, hid, howner⟩)

/-- What becomes pending depends on the class alone. -/
theorem assembles (hm : m.Valid) (hk : m.class? c = some k) {p : Property}
    (hp : p ∈ s.properties) : m.Assembles c p := by
  obtain ⟨ids', s', own', hcollect, -⟩ := hm.collect?_total hk
  obtain ⟨rfl, -⟩ := h.valid.collect?_of_class hm h.listed hk (by simp [h.free])
    h.processed.collect hcollect
  exact ⟨s', _, hcollect, hp⟩

variable {m' : Model} (hk' : m'.class? c = some k')
include hk'

/-- A setter that the property had and has no longer was given back. -/
theorem generate_of_lost {v : Property × Option Property} (hv : v ∈ vs) {q : Property}
    (hq : v.2 = some q) {id : MethodId} (hid : v.1.setter = some id) (hs : q.setter = none) :
    ∃ f, m'.method? id = some f ∧ f.generation = .generate := by
  have hlost : id ∈ v.1.released (some q) := by simp [Property.released, Property.lost, hs, hid]
  exact h.processed.generate_of_released h.valid h.listed (h.result ▸ hk')
    (List.mem_append_right _ (List.mem_flatMap.2 ⟨v, hv, hq ▸ hlost⟩))

theorem remains (hout : n.outline = m.outline) {v : Property × Option Property} (hv : v ∈ vs)
    {q : Property} (hq : v.2 = some q) : m.Remains m' c v.1 q := by
  have hlinks := fun id hid => h.valid.hasMethod_of_emits h.listed
    (h.processed.emits h.valid h.listed hv id hid)
  have hverdict := h.processed.verdict v hv
  rw [hq] at hverdict
  obtain ⟨r, hr, hreshaped, -, hqr⟩ :=
    h.valid.reshaped?_of_verdict? h.listed h.definition hlinks hverdict
  have hgetter : q.getter = r.getter := congrArg (·.getter) hqr
  have hsetter : q.setter = r.setter := congrArg (·.setter) hqr
  obtain ⟨g, hg⟩ := Option.isSome_iff_exists.1 (h.processed.kept v hv q hq).readable
  have hrg : r.getter = some g := hgetter.symm.trans hg
  cases ho : n.isOverriding? v.1 with
  | none => simp [reshaped?, ho] at hr
  | some b =>
    cases b with
    | false =>
      obtain rfl : v.1 = r := by simpa [reshaped?, ho] using hr
      exact .whole hrg hg hsetter
    | true =>
      rw [isOverriding?_congr hout] at ho
      have hnone : v.1.getter = some g → q.setter = none → m.Remains m' c v.1 q := by
        intro hp hs
        cases hps : v.1.setter with
        | none => exact .whole hp hg (hs.trans hps.symm)
        | some s' =>
          obtain ⟨f, hf, hgen⟩ := h.generate_of_lost hk' hv hq hps hs
          exact .returned hp hps ho hf hgen hg hs
      cases hreshaped with
      | plain => exact .whole hrg hg hsetter
      | orphan =>
        cases hps : v.1.setter with
        | none => simp [Property.yielded, hps] at hrg
        | some s' =>
          simp only [Property.yielded, hps, Option.isSome_some, if_true] at hrg hsetter
          exact hnone hrg hsetter
      | @borrowsGetter b hb hp hps =>
        obtain ⟨s', hps⟩ := Option.isSome_iff_exists.1 hps
        exact .borrowsGetter hp hps hg (hsetter.trans hps) (h.foreign g (hb.borrowable (.inl hrg)))
      | @borrowsSetter b s' hb hs _ hps =>
        exact .borrowsSetter hrg hps hg hsetter (h.foreign s' (hb.borrowable (.inr hs)))
      | losesSetter => exact hnone hrg hsetter

theorem internal (hk : m.class? c = some k) {v : Property × Option Property} (hv : v ∈ vs) {q : Property}
    (hq : v.2 = some q) {id : MethodId} (hid : id ∈ q.accessors) (howner : id.owner = c) :
    ∃ f, m.method? id = some f ∧ m'.method? id = some { f with generation := .internal } := by
  have hpending := ((h.processed.kept v hv q hq).accessors hid).resolve_right
    fun hb => h.foreign id hb howner
  obtain ⟨f, a, ho⟩ := (h.processed.all id).1 (h.processed.mem_of_verdict hv id hpending)
  refine ⟨f, ?_, ?_⟩
  · rw [method?_of_class (hk.trans h.listed.symm) howner, ho.method]
  · exact h.processed.method?_of_not_released h.valid h.listed (h.result ▸ hk') ho
      (h.not_released hv hq hid howner)

theorem descends_of_verdict (hm : m.Valid) (hk : m.class? c = some k) (hout : n.outline = m.outline)
    {v : Property × Option Property} (hv : v ∈ vs) {q : Property} (hq : v.2 = some q) :
    m.Descends y m' c v.1 q := by
  have hsettled : v.1 ∈ s.properties.filter (! y.dismisses n ·) :=
    h.processed.pending ▸ List.mem_map_of_mem hv
  have hdismisses : y.dismisses n v.1 = false := by simpa using (List.mem_filter.1 hsettled).2
  refine ⟨h.assembles hm hk (List.mem_of_mem_filter hsettled), ?_,
    (h.processed.kept v hv q hq).rest, h.remains hk' hout hv hq,
    fun id hid howner => h.internal hk' hk hv hq hid howner⟩
  rw [h.processed.dismisses_eq (hk.trans h.listed.symm) (List.mem_of_mem_filter hsettled)]
  exact hdismisses

theorem descends (hm : m.Valid) (hk : m.class? c = some k) (hout : n.outline = m.outline)
    {p : Property} (hp : p ∈ k'.properties) : ∃ p₀, m.Descends y m' c p₀ p := by
  rw [h.properties_eq] at hp
  obtain ⟨v, hv, hq⟩ := List.mem_filterMap.1 hp
  exact ⟨v.1, h.descends_of_verdict hk' hm hk hout hv hq⟩

end Built

/-! ### Runs -/

/-- What holds while the classes `rest` are still to be processed: none of their methods is in use,
and every other complete class was built. -/
structure Building (m : Model) (y : Synthesis) (t : Progress) (rest : List ClassId) : Prop where
  running : m.Running y t rest
  unused : ∀ c k', t.model.class? c = some k' → ∀ p ∈ k'.properties, ∀ id ∈ p.accessors,
    id.owner ∉ rest
  built : ∀ c k', t.model.class? c = some k' → m.IsDefinition c → c ∉ rest →
    ∃ (n : Model) (k : Class) (ids : List MethodId) (s : Pending)
      (vs : List (Property × Option Property)),
      n.outline = m.outline ∧ m.class? c = some k ∧ n.Built y c k k' ids s vs

theorem Building.start (hfree : m.PropertyFree) {order : List ClassId} (hnodup : order.Nodup)
    (hmem : ∀ d, d ∈ order ↔ d < m.classes.length ∧ m.IsDefinition d) :
    m.Building y (.start m) order := by
  refine ⟨.start hnodup hmem, fun c k' hk' p hp => ?_, fun c k' hk' hc hnot => ?_⟩
  · simp [hfree.class hk'] at hp
  · exact absurd ((hmem c).2 ⟨of_decide_eq_true (hasClass_iff.2 ⟨k', hk'⟩), hc⟩) hnot

section Step
variable {t : Progress} {rest : List ClassId} {own : List Property}

theorem Building.foreign (h : m.Building y t (c :: rest)) {id : MethodId}
    (hb : t.model.Borrowable c id) : id.owner ∉ c :: rest := by
  obtain ⟨d, k₁, -, hk₁, p, hp, hid⟩ := hb
  exact h.unused d k₁ hk₁ p hp id hid

variable (hfree : m.PropertyFree) (h : m.Building y t (c :: rest)) (hvalid : t.model.Valid)
  (hout : t.model.outline = m.outline) (hk : t.model.class? c = some k)
  (hdef : t.model.IsDefinition c) (hp : t.model.Processed y c k ids s own vs)
include hfree h hvalid hk hdef hp

theorem Building.builds : m.class? c = some k ∧ own = [] ∧
    t.model.Built y c k ((y.desk t.model k ids s own).settleAll c vs).cls ids s vs := by
  have hfirst : m.class? c = some k := by rw [← h.running.ahead c List.mem_cons_self, hk]
  have hnone := hfree.class hfirst
  obtain rfl := hp.assembly.own_eq_nil hnone
  refine ⟨hfirst, rfl, hvalid, hdef, hk, hnone, fun id hb => ?_, hp, rfl⟩
  exact (List.ne_and_not_mem_of_not_mem_cons (h.foreign hb)).1

include hout

theorem Building.step :
    m.Building y
      (t.followedBy (((y.desk t.model k ids s own).settleAll c vs).progress t.model c)) rest := by
  obtain ⟨hfirst, rfl, hbuilt⟩ := h.builds hfree hvalid hk hdef hp
  have hself := class?_putClass_self ((y.desk t.model k ids s []).settleAll c vs).cls hk
  refine ⟨h.running.step hvalid hout hk hdef hp, fun d k' hk' p hmem id hid => ?_,
    fun d k' hk' hd hnot => ?_⟩
  · by_cases hcd : c = d
    · subst hcd
      obtain rfl := Option.some.inj (hself.symm.trans hk')
      rw [hbuilt.properties_eq] at hmem
      obtain ⟨v, hv, hq⟩ := List.mem_filterMap.1 hmem
      rcases (hp.kept v hv p hq).accessors hid with hid | hb
      · rw [hp.owner_of_mem (hp.mem_of_verdict hv id hid)]
        exact (List.nodup_cons.1 h.running.nodup).1
      · exact fun hmem => h.foreign hb (List.mem_cons_of_mem c hmem)
    · have hold := (class?_putClass_ne t.model _ hcd).symm.trans hk'
      exact fun hin => h.unused d k' hold p hmem id hid (List.mem_cons_of_mem c hin)
  · by_cases hcd : c = d
    · subst hcd
      obtain rfl := Option.some.inj (hself.symm.trans hk')
      exact ⟨t.model, k, ids, s, vs, hout, hfirst, hbuilt⟩
    · have hold := (class?_putClass_ne t.model _ hcd).symm.trans hk'
      exact h.built d k' hold hd (List.not_mem_cons_of_ne_of_not_mem (Ne.symm hcd) hnot)

end Step

theorem Valid.run?_building (hm : m.Valid) (hfree : m.PropertyFree) (y : Synthesis) :
    ∃ t, y.run? m = some t ∧ t.model.Valid ∧ t.model.outline = m.outline ∧ m.Building y t [] :=
  hm.run?_induction y (m.Building y)
    (fun _ hnodup hmem => .start hfree hnodup hmem)
    (fun _ _ _ _ _ _ _ _ h hvalid hout hk hdef hp => h.step hfree hvalid hout hk hdef hp)

/-- A class that has a property at the end was built. -/
theorem Building.built_of_property {t : Progress} (h : m.Building y t []) (hfree : m.PropertyFree)
    (hk' : t.model.class? c = some k') {p : Property} (hp : p ∈ k'.properties) :
    ∃ (n : Model) (k : Class) (ids : List MethodId) (s : Pending)
      (vs : List (Property × Option Property)),
      n.outline = m.outline ∧ m.class? c = some k ∧ n.Built y c k k' ids s vs := by
  rcases h.running.classes c k' hk' with ⟨-, hsame⟩ | ⟨-, -, n, -, -, -, -, -, hout, hdef, -⟩
  · simp [hfree.class hsame] at hp
  · exact h.built c k' hk' ((isDefinition_congr hout).1 hdef) List.not_mem_nil

/-- After a run over a model without properties every property descends from a pending one. -/
theorem Valid.run?_descends (hm : m.Valid) (hfree : m.PropertyFree) (y : Synthesis) :
    ∃ t, y.run? m = some t ∧ t.model.Valid ∧ ∀ c k', t.model.class? c = some k' →
      ∀ p ∈ k'.properties, ∃ k, m.class? c = some k ∧ ∃ p₀, m.Descends y t.model c p₀ p := by
  obtain ⟨t, ht, hvalid, -, h⟩ := hm.run?_building hfree y
  refine ⟨t, ht, hvalid, fun c k' hk' p hp => ?_⟩
  obtain ⟨n, k, ids, s, vs, hout, hk, hbuilt⟩ := h.built_of_property hfree hk' hp
  exact ⟨k, hk, hbuilt.descends hk' hm hk hout hp⟩

end ApiProperties.Model

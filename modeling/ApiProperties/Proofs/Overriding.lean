import ApiProperties.Proofs.Actions
import ApiProperties.Proofs.BaseSearch
import ApiProperties.Proofs.Evolution
import ApiProperties.Proofs.PropertyNames
import ApiProperties.Proofs.Provenance
import ApiProperties.Proofs.Reordering

/-!
Overriding getters follow what they override. Without cycles of bases a class meets its ancestors as
they are after the run, so an override of a getter that became a property finds a property to come
in line with. It becomes the getter of one itself unless its name reads as an action, or it has
overloads and there is no setter to tell the property from them.
-/

set_option autoImplicit false

namespace ApiProperties.Model
variable {m n : Model} {c : ClassId} {k k' : Class} {y : Synthesis} {ids : List MethodId}
  {s : Pending} {vs : List (Property × Option Property)} {id b : MethodId} {f : Method}

/-- A class may go back to what it was before it had properties. -/
theorem Valid.restore (hm : m.Valid) (hk' : m.class? c = some k') (ho : k.outline = k'.outline)
    (hfree : k.properties = []) : (m.putClass c k).Valid := by
  have hout := outline_putClass hk' ho
  refine Valid.congr hout.symm hm fun e ke hke p hp => ?_
  by_cases hce : c = e
  · subst hce
    obtain rfl := Option.some.inj ((class?_putClass_self k hk').symm.trans hke)
    simp [hfree] at hp
  · rw [class?_putClass_ne m k hce] at hke
    exact ((hm.consistent hke).properties p hp).congr hout.symm

theorem Orderly.foreign (h : m.Orderly) (hk' : m.class? c = some k')
    (ho : k.outline = k'.outline) : ∀ id, (m.putClass c k).Borrowable c id → id.owner ≠ c := by
  rintro id ⟨e, ke, hce, hke, p, hp, hid⟩
  have hce := ancestor_of_skeleton (skeleton_congr (outline_putClass hk' ho)) hce
  have hne : c ≠ e := fun heq => h.acyclic c (heq ▸ hce)
  rw [class?_putClass_ne m k hne] at hke
  exact h.owned.borrowable_ne h.acyclic ⟨e, ke, hce, hke, p, hp, hid⟩

/-- Without cycles every class was built from what the run left of its ancestors. -/
theorem Valid.run?_built (hm : m.Valid) (hfree : m.PropertyFree) (hac : m.Acyclic)
    (y : Synthesis) :
    ∃ t, y.run? m = some t ∧ t.model.Orderly ∧ t.model.outline = m.outline ∧
      ∀ c k', t.model.class? c = some k' → m.IsDefinition c → ∃ k ids s vs,
        m.class? c = some k ∧ k.outline = k'.outline ∧
          (t.model.putClass c k).Built y c k k' ids s vs := by
  obtain ⟨order, hvisit, horder⟩ := hm.schedule_visitOrder? hac
  have hclosed := horder.baseClosed hm
  obtain ⟨d, hd⟩ := hclosed.exists_determines hm hfree y
  obtain ⟨hjournal, hvalid, hout⟩ := hclosed.reaches hm hd
  obtain ⟨t, ht, horderly, -⟩ := Orderly.run? ⟨hm, hac, hfree.wellOwned⟩ y
  have hmodel : t.model = m.advance d order := by
    rw [Synthesis.run?, hvisit, Option.bind_eq_bind, Option.bind_some, y.processAll?_eq_journal?,
      hjournal, Option.map_some] at ht
    exact (congrArg (·.model) (Option.some.inj ht)).symm
  rw [← hmodel] at hvalid hout
  refine ⟨t, ht, horderly, hout, fun c k' hk' hc => ?_⟩
  obtain ⟨k, hk, ho⟩ := class?_of_outline hout.symm hk'
  have hmem : c ∈ order :=
    (horder.complete c).2 ⟨c, hasClass_iff.2 ⟨k, hk⟩, hc⟩
  have hbuilt : k' = (d c).cls := by
    rw [hmodel, hclosed.class?_advance d hmem] at hk'
    exact (Option.some.inj hk').symm
  -- the final model with the class as it was before
  have hself := class?_putClass_self k hk'
  have hout' : (t.model.putClass c k).outline = m.outline := (outline_putClass hk' ho).trans hout
  have hvalid' := hvalid.restore hk' ho (hfree.class hk)
  have hprocess : y.processClass? (t.model.putClass c k) c =
      some ((d c).progress (t.model.putClass c k) c) := by
    refine hd c hmem _ hvalid' hout' (hself.trans hk.symm) fun a ha => ?_
    have hne : c ≠ a := fun heq => hac c (heq ▸ ha)
    rw [class?_putClass_ne t.model k hne, hmodel, hclosed.class?_advance d (hclosed.ancestor_mem hmem ha)]
  have hdef := (isDefinition_congr hout').2 hc
  obtain ⟨ids, s, own, vs, h, hprocess'⟩ := hvalid'.processClass?_total hself hdef y
  obtain rfl := h.assembly.own_eq_nil (hfree.class hk)
  have hsame := congrArg (·.model.class? c) (Option.some.inj (hprocess'.symm.trans hprocess))
  simp only [Desk.progress, class?_putClass_self _ hself, Option.some.injEq] at hsame
  exact ⟨k, ids, s, vs, hk, ho, hvalid', hdef, hself, hfree.class hk, horderly.foreign hk' ho, h,
    hbuilt.trans hsame.symm⟩

/-- The method is a candidate of class `c` that reads and overrides method `b`. -/
structure Overrides (m : Model) (c : ClassId) (id : MethodId) (f : Method) (b : MethodId) :
    Prop where
  owner : id.owner = c
  method : m.method? id = some f
  candidate : f.isCandidate = true
  reads : f.isGetter = true
  isOverride : f.isOverride = true
  overridden : f.overridden = some b

theorem Overrides.offers (h : m.Overrides c id f b) :
    m.Offers c id f ⟨.getter, propertyNameFromGetter f.name, f.returnType⟩ :=
  ⟨h.owner, h.method, h.candidate, by simp [Method.accessor?, h.reads]⟩

/-- The getters of the properties that the class has. -/
def getters (m : Model) (c : ClassId) : List MethodId :=
  ((m.class? c).map fun k => k.properties.filterMap (·.getter)).getD []

theorem mem_getters : id ∈ m.getters c ↔
    ∃ k, m.class? c = some k ∧ ∃ p ∈ k.properties, p.getter = some id := by
  cases hk : m.class? c <;> simp [getters, hk]

/-- The override cannot follow: its name reads as an action, or it has overloads and there is no
setter. -/
def Hindered (m : Model) (y : Synthesis) (c : ClassId) (id : MethodId) (f : Method) (p : Property)
    (base : BaseAccessors) : Prop :=
  y.useHeuristics = true ∧ p.setter = none ∧ isActionLike f.name y.verbs = true ∨
    base.setter = none ∧ m.hasOverloads? c id = some true

theorem stays?_eq_false_iff {p : Property} (hg : p.getter = some id) :
    m.stays? c p = some false ↔ p.setter = none ∧ m.hasOverloads? c id = some true := by
  cases hs : p.setter <;> simp [stays?, hg, hs]

theorem verdict?_eq_none_iff {p q : Property} (hq : m.reshaped? c p = some q) :
    m.verdict? c p = some none ↔ m.stays? c q = some false := by
  simp only [verdict?, hq, Option.bind_eq_bind, Option.bind_some]
  cases m.stays? c q with
  | none => simp
  | some b => cases b <;> simp [Option.bind_eq_some_iff]

/-- A getter that finds its base keeps or gets a setter just if the base has one. -/
theorem reshaped?_of_base {p : Property} {base : BaseAccessors} (hg : p.getter = some id)
    (ho : m.isOverriding? p = some true) (hb : m.findBaseProperty? c p = some (some base)) :
    ∃ q, m.reshaped? c p = some q ∧ q.getter = some id ∧
      (q.setter = none ↔ base.setter = none) := by
  cases hs : p.setter with
  | none => exact ⟨{ p with setter := base.setter }, by simp [reshaped?, ho, hb, hg, hs], hg, .rfl⟩
  | some s =>
    cases hbs : base.setter with
    | none => exact ⟨{ p with setter := none }, by simp [reshaped?, ho, hb, hg, hs, hbs], hg, by simp⟩
    | some s' => exact ⟨p, by simp [reshaped?, ho, hb, hg, hs, hbs], hg, by simp [hs]⟩

namespace Built
variable (h : n.Built y c k k' ids s vs)
include h

theorem getter_pending {a : Accessor} (ho : n.Offers c id f a) (hr : a.role = .getter) :
    ∃ p ∈ s.properties, p.getter = some id := by
  have hkc : k.id = c := (h.valid.consistent h.listed).id
  have hperm : (s.properties.flatMap (·.accessors)).Perm ids := by
    simpa [h.free] using h.processed.assembly.perm
  obtain ⟨p, hp, hid⟩ :=
    List.mem_flatMap.1 (hperm.mem_iff.2 ((h.processed.all id).2 ⟨f, a, ho⟩))
  refine ⟨p, hp, (Property.mem_accessors.1 hid).resolve_right fun hs => ?_⟩
  obtain ⟨f', a', ho', hr', -⟩ := (h.processed.assembly.wellMade p hp).setter id hs
  obtain ⟨-, rfl⟩ := ho.inj ho'
  rw [hr] at hr'
  simp at hr'

/-- The search for a base does not miss the property that the override aims at. -/
theorem finds_base (ho : n.Overrides c id f b) {p : Property} (hp : p ∈ s.properties)
    (hg : p.getter = some id) {d : ClassId} (hcd : n.Ancestor c d) (hne : d ≠ c) {kd : Class}
    (hkd : n.class? d = some kd) {r : Property} (hr : r ∈ kd.properties) (hb : b ∈ r.accessors) :
    n.isOverriding? p = some true ∧ ∃ base, n.findBaseProperty? c p = some (some base) := by
  have hlinks : ∀ j ∈ p.accessors, n.hasMethod j = true := fun j hj =>
    h.valid.hasMethod_of_emits h.listed
      (h.processed.assembly.emits h.valid h.listed j (h.processed.assembly.accessors_subset p hp j hj))
  have hid : id ∈ p.accessors := Property.mem_accessors.2 (.inl hg)
  refine ⟨?_, ?_⟩
  · rw [isOverriding?_eq_some hlinks, Option.some.injEq, List.any_eq_true]
    exact ⟨id, hid, by simp [ho.method, ho.isOverride]⟩
  · obtain ⟨base, hbase, -⟩ := h.valid.findBaseProperty?_total h.listed h.definition hlinks
    cases base with
    | some base => exact ⟨base, hbase⟩
    | none =>
      have hmisses := h.valid.not_hasRefined h.definition hlinks hbase hcd hne
      exact absurd ⟨kd, hkd, r, hr, .inl ⟨id, hid, f, ho.method, b, hb, ho.overridden⟩⟩ hmisses

/-- The override is given back if it is hindered, and else it is the getter of a property. -/
theorem settles_override (ho : n.Overrides c id f b) {p : Property} (hp : p ∈ s.properties)
    (hg : p.getter = some id) (hover : n.isOverriding? p = some true) {base : BaseAccessors}
    (hbase : n.findBaseProperty? c p = some (some base)) {m' : Model}
    (hk' : m'.class? c = some k') :
    (n.Hindered y c id f p base → ∃ g, m'.method? id = some g ∧ g.generation = .generate) ∧
      (¬ n.Hindered y c id f p base →
        (∃ g, m'.method? id = some g ∧ g.generation = .internal) ∧
          ∃ q ∈ k'.properties, q.getter = some id) := by
  have hid : id ∈ p.accessors := Property.mem_accessors.2 (.inl hg)
  have hreleased : id ∈ y.released n s vs →
      ∃ g, m'.method? id = some g ∧ g.generation = .generate :=
    h.processed.generate_of_released h.valid h.listed (h.result ▸ hk')
  have hdismisses : y.dismisses n p = true ↔
      y.useHeuristics = true ∧ p.setter = none ∧ isActionLike f.name y.verbs = true := by
    cases hs : p.setter <;> simp [Synthesis.dismisses, Property.readsAsAction, hg, hs, ho.method]
  rcases h.processed.dismissed_or_settled hp with hd | ⟨v, hv, rfl⟩
  · refine ⟨fun _ => hreleased ?_, fun hnot => absurd (.inl (hdismisses.1 hd)) hnot⟩
    exact List.mem_append_left _ (List.mem_flatMap.2 ⟨p, List.mem_filter.2 ⟨hp, hd⟩, hid⟩)
  · have hsettled : v.1 ∈ s.properties.filter (! y.dismisses n ·) :=
      h.processed.pending ▸ List.mem_map_of_mem hv
    have hnot : ¬ y.dismisses n v.1 = true := by simpa using (List.mem_filter.1 hsettled).2
    obtain ⟨q, hq, hqg, hqs⟩ := reshaped?_of_base hg hover hbase
    have hnone : n.Hindered y c id f v.1 base ↔ v.2 = none := by
      rw [Hindered, or_iff_right (hdismisses.not.1 hnot), ← hqs, ← stays?_eq_false_iff hqg,
        ← verdict?_eq_none_iff hq, h.processed.verdict v hv, Option.some.injEq]
    rw [hnone]
    refine ⟨fun hv2 => hreleased ?_, fun hv2 => ?_⟩
    · refine List.mem_append_right _ (List.mem_flatMap.2 ⟨v, hv, ?_⟩)
      rw [hv2]
      exact hid
    · obtain ⟨r, hr⟩ := Option.ne_none_iff_exists'.1 hv2
      have hrg : r.getter = some id := by
        rcases (h.processed.kept v hv r hr).getter with hsame | ⟨hgone, -⟩
        · exact hsame.trans hg
        · simp [hg] at hgone
      obtain ⟨g, -, hinternal⟩ := h.internal hk' h.listed hv hr
        (Property.mem_accessors.2 (.inl hrg)) ho.owner
      refine ⟨⟨_, hinternal, rfl⟩, r, ?_, hrg⟩
      rw [h.properties_eq]
      exact List.mem_filterMap.2 ⟨v, hv, hr⟩

end Built

theorem Overrides.of_class (h : m.Overrides c id f b) (hsame : n.class? c = m.class? c) :
    n.Overrides c id f b :=
  { h with method := (method?_of_class hsame h.owner).trans h.method }

/-- Whatever overrides the getter of an ancestor's property in `m'` is one itself. -/
def OverridesFollow (m m' : Model) : Prop :=
  ∀ c id f b d, m.Overrides c id f b → m.Ancestor c d → b ∈ m'.getters d → id ∈ m'.getters c

/-- After a run a candidate that overrides the getter of an ancestor's property is the getter of a
property of its class, unless it is hindered, and then it is a plain method again. -/
theorem run_overrides_follow (m : Model) (hm : m.Valid) (hfree : m.PropertyFree)
    (hac : m.Acyclic) (y : Synthesis) :
    ∃ t, y.run? m = some t ∧ ∀ c id f b d, m.Overrides c id f b → m.Ancestor c d →
      b ∈ t.model.getters d → ∃ p base, m.Assembles c p ∧ p.getter = some id ∧
        t.model.findBaseProperty? c p = some (some base) ∧
        (m.Hindered y c id f p base →
          ∃ g, t.model.method? id = some g ∧ g.generation = .generate) ∧
        (¬ m.Hindered y c id f p base →
          (∃ g, t.model.method? id = some g ∧ g.generation = .internal) ∧
            id ∈ t.model.getters c) := by
  obtain ⟨t, ht, -, hout, hall⟩ := hm.run?_built hfree hac y
  refine ⟨t, ht, fun c id f b d ho hcd hb => ?_⟩
  obtain ⟨kd, hkd, r, hr, hrb⟩ := mem_getters.1 hb
  obtain ⟨-, ⟨hdef, k₀, hk₀, -⟩, -⟩ := Relation.TransGen.head'_iff.1 hcd
  obtain ⟨k', hk', -⟩ := class?_of_outline hout hk₀
  obtain ⟨k, ids, s, vs, hk, hko, hbuilt⟩ := hall c k' hk' hdef
  have hne : c ≠ d := fun heq => hac c (heq ▸ hcd)
  have hout' : (t.model.putClass c k).outline = m.outline := (outline_putClass hk' hko).trans hout
  have ho' := ho.of_class (hbuilt.listed.trans hk.symm)
  obtain ⟨p, hp, hg⟩ := hbuilt.getter_pending ho'.offers rfl
  obtain ⟨hover, base, hbase⟩ := hbuilt.finds_base ho' hp hg
    (ancestor_of_skeleton (skeleton_congr hout'.symm) hcd) hne.symm
    ((class?_putClass_ne t.model k hne).trans hkd) hr (Property.mem_accessors.2 (.inl hrb))
  have hsettles := hbuilt.settles_override ho' hp hg hover hbase hk'
  rw [Hindered, hasOverloads?_congr hout', ← Hindered] at hsettles
  rw [findBaseProperty?_putClass ((isDefinition_congr hout).2 hdef) hk' hko] at hbase
  exact ⟨p, base, hbuilt.assembles hm hk hp, hg, hbase, hsettles.1, fun hnot =>
    ⟨(hsettles.2 hnot).1, mem_getters.2 ⟨k', hk', (hsettles.2 hnot).2⟩⟩⟩

/-- The square of `shapes` overrides the getter of the shape's width. -/
theorem run_overrides_follow_shapes : shapes.Valid ∧ shapes.PropertyFree ∧ shapes.Acyclic ∧
    ∃ t f, Synthesis.withoutVerbs.run? shapes = some t ∧ shapes.Overrides 1 ⟨1, 0⟩ f ⟨0, 0⟩ ∧
      shapes.Ancestor 1 0 ∧ ⟨0, 0⟩ ∈ t.model.getters 0 ∧ ⟨1, 0⟩ ∈ t.model.getters 1 := by
  have hvalid : shapes.Valid := by decide
  have hfree : shapes.PropertyFree := by decide
  refine ⟨hvalid, hfree, acyclic_shapes, ?_⟩
  obtain ⟨t, ht, hall⟩ := run_overrides_follow shapes hvalid hfree acyclic_shapes .withoutVerbs
  have hoverrides : shapes.Overrides 1 ⟨1, 0⟩ _ ⟨0, 0⟩ := ⟨rfl, rfl, by decide, by decide, rfl, rfl⟩
  have hancestor : shapes.Ancestor 1 0 :=
    .single ⟨by decide, _, rfl, ⟨0, .pub⟩, List.mem_singleton.2 rfl, by decide⟩
  have hrun : (Synthesis.withoutVerbs.run? shapes).map (·.model.getters 0) = some [⟨0, 0⟩] := by
    decide
  have hbase : ⟨0, 0⟩ ∈ t.model.getters 0 := by
    rw [ht, Option.map_some] at hrun
    simp [Option.some.inj hrun]
  obtain ⟨p, base, -, -, -, -, hfollows⟩ := hall 1 ⟨1, 0⟩ _ ⟨0, 0⟩ 0 hoverrides hancestor hbase
  refine ⟨t, _, ht, hoverrides, hancestor, hbase, (hfollows ?_).2⟩
  rintro (⟨-, -, haction⟩ | ⟨-, hoverloads⟩)
  · exact absurd haction (by decide)
  · exact absurd hoverloads (by decide)

/-- A feed that can be told whether to update, a table with rows, and a class derived from each: a
cache that overrides how the one is read, and a grid that does so with the other and overloads it. -/
def feeds : Model :=
  let int := QualifiedType.plain (.builtin .int)
  let update := Method.plain "update" (.plain (.builtin .bool))
  let rows := { Method.plain "rows" int with owner := 2 }
  ⟨"unit", [
    { Class.empty 0 "Feed" with
      methods := [update, .plainSetter "setUpdate" (.plain (.builtin .bool))] },
    { Class.empty 1 "Cache" with
      bases := [⟨0, .pub⟩], methods := [{ update.overriding ⟨0, 0⟩ with owner := 1 }] },
    { Class.empty 2 "Table" with methods := [rows] },
    { Class.empty 3 "Grid" with
      bases := [⟨2, .pub⟩]
      methods := [{ rows.overriding ⟨2, 0⟩ with owner := 3 },
        { rows with owner := 3, parameters := [⟨"from", .regular, int⟩, ⟨"to", .regular, int⟩] }] }]⟩

/-- With its setter the feed's getter is no action. The cache's is one, and is given up before the
setter can be borrowed. The table's getter stands for itself, but the grid's does not. -/
theorem run_overrides_feeds :
    (¬ ∀ (m : Model) (y : Synthesis) (t : Progress), m.Valid → m.PropertyFree → m.Acyclic →
      y.useHeuristics = true → y.run? m = some t → m.OverridesFollow t.model) ∧
    ¬ ∀ (m : Model) (y : Synthesis) (t : Progress), m.Valid → m.PropertyFree → m.Acyclic →
      y.useHeuristics = false → y.run? m = some t → m.OverridesFollow t.model := by
  have hvalid : feeds.Valid := by decide
  have hfree : feeds.PropertyFree := by decide
  have hac : feeds.Acyclic := acyclic_of_parents (by decide)
  constructor
  · intro h
    have hrun : ((Synthesis.withVerb "update").run? feeds).map
        (fun t => (t.model.getters 0, t.model.getters 1)) = some ([⟨0, 0⟩], []) := by decide
    obtain ⟨t, ht, hgetters⟩ := Option.map_eq_some_iff.1 hrun
    obtain ⟨hfeed, hcache⟩ := Prod.mk.inj hgetters
    have hfollow := h feeds _ t hvalid hfree hac rfl ht 1 ⟨1, 0⟩ _ ⟨0, 0⟩ 0
      ⟨rfl, rfl, by decide, by decide, rfl, rfl⟩
      (.single ⟨by decide, _, rfl, ⟨0, .pub⟩, List.mem_singleton.2 rfl, by decide⟩) (by simp [hfeed])
    simp [hcache] at hfollow
  · intro h
    have hrun : ((⟨false, ⟨[]⟩⟩ : Synthesis).run? feeds).map
        (fun t => (t.model.getters 2, t.model.getters 3)) = some ([⟨2, 0⟩], []) := by decide
    obtain ⟨t, ht, hgetters⟩ := Option.map_eq_some_iff.1 hrun
    obtain ⟨htable, hgrid⟩ := Prod.mk.inj hgetters
    have hfollow := h feeds _ t hvalid hfree hac rfl ht 3 ⟨3, 0⟩ _ ⟨2, 0⟩ 2
      ⟨rfl, rfl, by decide, by decide, rfl, rfl⟩
      (.single ⟨by decide, _, rfl, ⟨2, .pub⟩, List.mem_singleton.2 rfl, by decide⟩)
      (by simp [htable])
    simp [hgrid] at hfollow

end ApiProperties.Model

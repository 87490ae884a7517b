import ApiProperties.Proofs.Run

/-!
What processing a class leaves alone. Every other class stays as it is, and in the class itself each
method, event and property keeps its position and all that the synthesis has no business with.
-/

set_option autoImplicit false

namespace ApiProperties

/-- What may become of a method while its class is processed. -/
inductive Method.Framed (f : Method) : Method → Prop
  | kept : f.Framed f
  | absorbed (hcandidate : f.isCandidate = true) : f.Framed { f with generation := .internal }
  | renamed {name : String} {passes : NameSet} (hgen : f.generation = .generate)
      (hgrow : ∀ n, f.excludedPasses.contains n = true → passes.contains n = true) :
      f.Framed { f with name, excludedPasses := passes }

namespace Method.Framed
variable {f g : Method}

theorem giveBack (h : f.Framed g) (hgen : f.generation = .generate) :
    f.Framed { g with generation := .generate } := by
  cases h with
  | kept =>
    rw [← hgen]
    exact .kept
  | absorbed hcandidate =>
    rw [← hgen]
    exact .kept
  | renamed _ hgrow =>
    rw [← hgen]
    exact .renamed hgen hgrow

/-- A method that was taken in is not in the way of any property. -/
theorem makeRoom (h : f.Framed g) (n : String) : f.Framed (g.makeRoom n) := by
  rw [Method.makeRoom]
  split
  · rename_i hclash
    have hgen : g.generation = .generate := by
      simp only [Method.clashesWith, Method.isGenerated, Bool.and_eq_true, beq_iff_eq] at hclash
      exact hclash.1
    cases h with
    | kept => exact .renamed hgen fun x hx => by rw [NameSet.contains_insert, hx, Bool.or_true]
    | absorbed => cases hgen
    | renamed hgen hgrow =>
      exact .renamed hgen fun x hx => by
        rw [NameSet.contains_insert, hgrow x hx, Bool.or_true]
  · exact h

end Method.Framed

/-- The property, which had one accessor and no field and overrode nothing, has gained the other
accessor, and with it what an accessor brings. -/
structure Property.Completed (m : Model) (p q : Property) : Prop where
  field : p.field = none
  plain : m.isOverriding? p = some false
  one : p.accessors.length = 1
  both : q.getter.isSome = true ∧ q.setter.isSome = true
  keeps : q.Extends p
  rest : q = { p with
    name := q.name, originalName := q.originalName, type := q.type, getter := q.getter,
    setter := q.setter, access := q.access, comment := q.comment, implemented := q.implemented }

theorem Property.Completed.half_isSome {m : Model} {p q : Property} (h : p.Completed m q)
    (r : Role) : (q.half r).isSome = true := by
  cases r with
  | getter => exact h.both.1
  | setter => exact h.both.2

namespace Class

/-- What becomes of the members of `k`, leaving out its properties. -/
structure MembersFramed (k k' : Class) : Prop where
  rest : { k' with methods := k.methods, properties := k.properties, events := k.events } = k
  methodCount : k'.methods.length = k.methods.length
  eventCount : k'.events.length = k.events.length
  methods : ∀ (x : Nat) f, k.methods[x]? = some f → ∃ g, k'.methods[x]? = some g ∧ f.Framed g
  events : ∀ (x : Nat) e, k.events[x]? = some e →
    ∃ e', k'.events[x]? = some e' ∧ e' = { e with name := e'.name }

/-- What becomes of `k` when it is processed as a class of `m`. -/
structure Framed (m : Model) (k k' : Class) : Prop extends k.MembersFramed k' where
  properties : ∀ (i : Nat) p, k.properties[i]? = some p →
    ∃ q, k'.properties[i]? = some q ∧ (q = p ∨ p.Completed m q)

namespace MembersFramed
variable {k k' : Class}

theorem refl (k : Class) : k.MembersFramed k :=
  ⟨rfl, rfl, rfl, fun _ f hf => ⟨f, hf, .kept⟩, fun _ e he => ⟨e, he, rfl⟩⟩

theorem properties (h : k.MembersFramed k') (own : List Property) :
    k.MembersFramed { k' with properties := own } :=
  ⟨h.rest, h.methodCount, h.eventCount, h.methods, h.events⟩

theorem tag (h : k.MembersFramed k') (ids : List MethodId) (g : Generation)
    (htag : ∀ (x : Nat) f f', k.methods[x]? = some f → k'.methods[x]? = some f' → f.Framed f' →
      (⟨k.id, x⟩ : MethodId) ∈ ids → f.Framed { f' with generation := g }) :
    k.MembersFramed (k'.tag ids g) := by
  have hid : k'.id = k.id := congrArg (·.id) h.rest
  refine ⟨h.rest, by simpa [Class.tag] using h.methodCount, h.eventCount, fun x f hf => ?_,
    h.events⟩
  obtain ⟨f', hf', hframed⟩ := h.methods x f hf
  rw [getElem?_tag, hf', hid, Option.map_some]
  refine ⟨_, rfl, ?_⟩
  by_cases hx : (⟨k.id, x⟩ : MethodId) ∈ ids
  · rw [if_pos hx]
    exact htag x f f' hf hf' hframed hx
  · rw [if_neg hx]
    exact hframed

theorem makeRoom (h : k.MembersFramed k') (n : String) : k.MembersFramed (k'.makeRoom n) := by
  refine ⟨h.rest, by simpa [Class.makeRoom] using h.methodCount,
    by simpa [Class.makeRoom] using h.eventCount, fun x f hf => ?_, fun x e he => ?_⟩
  · obtain ⟨f', hf', hframed⟩ := h.methods x f hf
    exact ⟨f'.makeRoom n, by simp [Class.makeRoom, hf'], hframed.makeRoom n⟩
  · obtain ⟨e', he', hname⟩ := h.events x e he
    refine ⟨e'.makeRoom n, by simp [Class.makeRoom, he'], ?_⟩
    rw [Event.makeRoom]
    split <;> rw [hname]

end MembersFramed
end Class

namespace Model
variable {m : Model} {c : ClassId} {k : Class} {y : Synthesis} {ids : List MethodId} {s : Pending}
  {own : List Property} {vs : List (Property × Option Property)}

theorem completed_attach {p : Property} {id : MethodId} {f : Method} {a : Accessor}
    (h : Pending.completable? m id a p = some true) : p.Completed m (p.attach id f a) := by
  have hplain : m.isOverriding? p = some false := by
    simp only [Pending.completable?, Option.bind_eq_bind, Option.bind_eq_some_iff] at h
    obtain ⟨b, hb, hrest⟩ := h
    cases b
    · exact hb
    · simp at hrest
  obtain ⟨hfield, hfree, partnerId, -, -, hpartner, -⟩ := accepts_of_completable? h
  have hkeeps : (p.attach id f a).Extends p := Property.extends_attach hfree
  obtain ⟨role, name, type⟩ := a
  cases role with
  | getter =>
    have hg : p.getter = none := hfree
    have hs : p.setter = some partnerId := hpartner
    exact ⟨hfield, hplain, by simp [Property.accessors, hg, hs], by simp [Property.attach, hs],
      hkeeps, rfl⟩
  | setter =>
    have hs : p.setter = none := hfree
    have hg : p.getter = some partnerId := hpartner
    exact ⟨hfield, hplain, by simp [Property.accessors, hg, hs], by simp [Property.attach, hg],
      hkeeps, rfl⟩

theorem completed_documented {p q : Property} (h : p.Completed m q) :
    p.Completed m (m.documented q) := by
  refine ⟨h.field, h.plain, h.one, h.both, ⟨h.keeps.getter, h.keeps.setter, h.keeps.owner⟩, ?_⟩
  exact congrArg (fun r : Property => { r with comment := (m.mergedComment? q).getD none }) h.rest

/-- What is counted as completed has been completed, and only once. -/
theorem Assembly.own_completed (h : m.Assembly k ids s own) {i : Nat} {p q : Property}
    (hp : k.properties[i]? = some p) (hq : own[i]? = some q) (hi : i ∈ s.completed) :
    p.Completed m q := by
  induction h generalizing q with
  | start => simp [Pending.empty] at hi
  | @complete ids s own id f a j r h _ _ hr hc _ ih =>
    by_cases hij : j = i
    · subst hij
      obtain rfl : r.attach id f a = q := by simpa [hr] using hq
      by_cases hold : j ∈ s.completed
      · -- no offer fits a property that has both halves
        have hhalf := (ih hr hold).half_isSome a.role
        rw [(accepts_of_completable? hc).free] at hhalf
        cases hhalf
      · rw [h.own_eq hold, hp] at hr
        obtain rfl := Option.some.inj hr
        exact completed_attach hc
    · have hold : i ∈ s.completed := (List.mem_append.1 hi).resolve_right fun h =>
        hij (List.mem_singleton.1 h).symm
      rw [List.getElem?_modify_ne _ _ hij] at hq
      exact ih hq hold
  | join _ _ _ _ _ _ _ ih => exact ih hq hi
  | create _ _ _ _ _ ih => exact ih hq hi

theorem Assembly.own_framed (h : m.Assembly k ids s own) {i : Nat} {p : Property}
    (hp : k.properties[i]? = some p) :
    ∃ q, (m.documentedOwn own s.completed)[i]? = some q ∧ (q = p ∨ p.Completed m q) := by
  rw [getElem?_documentedOwn]
  by_cases hi : i ∈ s.completed
  · obtain ⟨q, hq⟩ : ∃ q, own[i]? = some q :=
      ⟨_, List.getElem?_eq_getElem (h.completed_lt i hi)⟩
    rw [hq, Option.map_some, if_pos hi]
    exact ⟨_, rfl, .inr (completed_documented (h.own_completed hp hq hi))⟩
  · rw [h.own_eq hi, hp, Option.map_some, if_neg hi]
    exact ⟨p, rfl, .inl rfl⟩

namespace Processed
variable (h : m.Processed y c k ids s own vs) (hm : m.Valid) (hk : m.class? c = some k)
include h hm hk

theorem offer_of_mem {x : Nat} {f : Method} (hf : k.methods[x]? = some f)
    (hx : (⟨k.id, x⟩ : MethodId) ∈ ids) : f.isCandidate = true ∧ f.generation = .generate := by
  obtain ⟨g, a, ho⟩ := (h.all _).1 hx
  have hg := ho.method
  rw [method?, (hm.consistent hk).id, hk, Option.bind_some, hf] at hg
  obtain rfl := Option.some.inj hg
  exact ⟨ho.candidate, ho.generation⟩

theorem membersFramed_giveBack {k' : Class} (hk' : k.MembersFramed k') {back : List MethodId}
    (hback : ∀ id ∈ back, id ∈ ids) : k.MembersFramed (k'.tag back .generate) :=
  hk'.tag back .generate fun _ _ _ hf _ hframed hx =>
    hframed.giveBack (h.offer_of_mem hm hk hf (hback _ hx)).2

theorem membersFramed_desk : k.MembersFramed (y.desk m k ids s own).cls := by
  have htaken : k.MembersFramed (k.tag ids .internal) :=
    (Class.MembersFramed.refl k).tag ids .internal fun x f f' hf hf' _ hx => by
      obtain rfl := Option.some.inj (hf.symm.trans hf')
      exact .absorbed (h.offer_of_mem hm hk hf hx).1
  exact h.membersFramed_giveBack hm hk (htaken.properties _) fun id hid =>
    h.assembly.mem_of_flatMap_filter hid

theorem framed : k.Framed m ((y.desk m k ids s own).settleAll c vs).cls := by
  refine ⟨?_, fun i p hp => ?_⟩
  · refine Desk.settleAll_induction (fun d => k.MembersFramed d.cls) (fun v hv d hd => ?_)
      (h.membersFramed_desk hm hk)
    have hids := h.mem_of_verdict hv
    cases hq : v.2 with
    | none => exact h.membersFramed_giveBack hm hk hd hids
    | some q =>
      have hback := h.membersFramed_giveBack hm hk hd fun id hid => hids id (lost_subset v.1 q hid)
      exact (hback.makeRoom q.name).properties _
  · obtain ⟨q, hq, hframed⟩ := h.assembly.own_framed hp
    rw [Desk.properties_settleAll, properties_desk]
    have hlt := (List.getElem?_eq_some_iff.1 hq).1
    exact ⟨q, by rw [List.getElem?_append_left hlt, hq], hframed⟩

end Processed

/-- Processing a class changes that class alone, and of it only what the synthesis is about; a run
leaves every class alone that is the definition of none. -/
theorem processClass?_framed (m : Model) (hm : m.Valid) (y : Synthesis) :
    (∀ c, m.IsDefinition c → ∃ k k' t, m.class? c = some k ∧ y.processClass? m c = some t ∧
      t.model = m.putClass c k' ∧ k.Framed m k') ∧
    ∃ t, y.run? m = some t ∧
      ∀ d, (∀ c, m.definition? c ≠ some d) → t.model.class? d = m.class? d := by
  constructor
  · intro c hc
    obtain ⟨k, hk⟩ := hc.listed
    obtain ⟨ids, s, own, vs, h, hprocess⟩ := hm.processClass?_total hk hc y
    exact ⟨k, _, _, hk, hprocess, rfl, h.framed hm hk⟩
  · obtain ⟨t, ht, -, hout, hall⟩ := hm.run?_classes y
    refine ⟨t, ht, fun d hd => ?_⟩
    cases hk' : t.model.class? d with
    | none =>
      cases hk : m.class? d with
      | none => rfl
      | some k =>
        obtain ⟨k', hlisted, -⟩ := class?_of_outline hout hk
        rw [hk'] at hlisted
        cases hlisted
    | some k' =>
      rcases hall d k' hk' with ⟨-, hsame⟩ | ⟨k, -, m', _, _, _, _, -, hout', hdef, -⟩
      · exact hsame.symm
      · exact absurd ((isDefinition_congr hout').1 hdef) (hd d)

/-- A shape whose property lacks the setter that it declares, and a view of the shape. -/
def forward : Model :=
  let int := QualifiedType.plain (.builtin .int)
  let getter := { Method.plain "getWidth" int with generation := .internal }
  let width := { Property.plain "width" int 0 .pub with getter := some ⟨0, 0⟩ }
  let shape := { Class.empty 0 "Shape" with
    methods := [getter, .plainSetter "setWidth" int], properties := [width] }
  ⟨"unit", [shape, { Class.empty 1 "Shape" with definition := some 0 }]⟩

theorem processClass?_framed_forward : forward.Valid ∧
    (∀ c, forward.IsDefinition c → ∃ k k' t, forward.class? c = some k ∧
      Synthesis.withoutVerbs.processClass? forward c = some t ∧
      t.model = forward.putClass c k' ∧ k.Framed forward k') ∧
    ∃ t, Synthesis.withoutVerbs.run? forward = some t ∧
      ∀ d, (∀ c, forward.definition? c ≠ some d) → t.model.class? d = forward.class? d :=
  have hvalid : forward.Valid := by decide
  ⟨hvalid, processClass?_framed forward hvalid .withoutVerbs⟩

end Model
end ApiProperties

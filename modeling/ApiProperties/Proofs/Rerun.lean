import ApiProperties.Proofs.Run

/-!
When a run changes nothing. A class is at rest if none of its candidates completes a property of the
class and whatever the candidates make pending is dropped again. A run over classes at rest is no
change, and every other run is one; in particular a second run changes nothing just in case the
first one left every class at rest. It need not: a setter that was given back can later complete the
property that its getter became.
-/

set_option autoImplicit false

namespace ApiProperties

namespace Statistics

@[simp] theorem isNoop_merge (a b : Statistics) : (a.merge b).isNoop = (a.isNoop && b.isNoop) := by
  rw [Bool.eq_iff_iff]
  simp only [isNoop, merge, Bool.and_eq_true, beq_iff_eq, Nat.add_eq_zero_iff]
  tauto

end Statistics

namespace Desk
variable {c : ClassId}

theorem isNoop_settle (d : Desk) (p : Property) (v : Option Property) :
    (d.settle c p v).stats.isNoop = (d.stats.isNoop && v.isNone) := by
  have hgiven : ∀ n : Nat,
      ({ Statistics.zero with methodsDemoted := n } : Statistics).isNoop = true := fun _ => rfl
  cases v with
  | none => simp [settle, giveBack, hgiven]
  | some q =>
    have hcommit : ∀ n l : Nat, ({ Statistics.zero with
        propertiesCommitted := 1, methodsAbsorbed := n, membersRenamed := l } : Statistics).isNoop =
        false := fun _ _ => rfl
    simp [settle, commit, hcommit]

theorem isNoop_settleAll (d : Desk) (vs : List (Property × Option Property)) :
    (d.settleAll c vs).stats.isNoop = (d.stats.isNoop && vs.all (·.2.isNone)) := by
  induction vs generalizing d with
  | nil => simp
  | cons v rest ih => rw [settleAll_cons, ih, isNoop_settle, List.all_cons, Bool.and_assoc]

theorem settleAll_of_dropped (d : Desk) {vs : List (Property × Option Property)}
    (h : ∀ v ∈ vs, v.2 = none) :
    (d.settleAll c vs).cls = d.cls.tag (vs.flatMap (·.1.accessors)) .generate ∧
      (d.settleAll c vs).renames = d.renames := by
  induction vs generalizing d with
  | nil => simp
  | cons v rest ih =>
    obtain ⟨hv, hrest⟩ := List.forall_mem_cons.1 h
    obtain ⟨hcls, hrenames⟩ := ih (d.settle c v.1 v.2) hrest
    rw [settleAll_cons, hcls, hrenames, hv]
    simp [settle, giveBack]

end Desk

namespace Model

/-- Nothing about the class is left to do. -/
structure AtRest (y : Synthesis) (m : Model) (c : ClassId) : Prop where
  /-- No candidate completes a property that the class has. -/
  completes : ∀ k, m.class? c = some k → ∀ id f a, m.Offers c id f a → ∀ p ∈ k.properties,
    Pending.completable? m id a p = some false
  /-- What becomes pending is given up, or settled by committing nothing. -/
  keeps : ∀ s m', Pending.collect? m c = some (s, m') → ∀ p ∈ s.properties,
    y.dismisses m p = true ∨
      ∃ t, (Progress.start m).settle? c p = some t ∧ t.stats.propertiesCommitted = 0

instance (y : Synthesis) (m : Model) (c : ClassId) : Decidable (m.AtRest y c) :=
  decidable_of_iff
    ((∀ k ∈ m.class? c, ∀ i < k.methods.length, ∀ f ∈ m.method? ⟨c, i⟩, f.isCandidate = true →
        ∀ a ∈ f.accessor?, ∀ p ∈ k.properties,
          Pending.completable? m ⟨c, i⟩ a p = some false) ∧
      ∀ r ∈ Pending.collect? m c, ∀ p ∈ r.1.properties, y.dismisses m p = true ∨
        ∃ t ∈ (Progress.start m).settle? c p, t.stats.propertiesCommitted = 0) <| by
    constructor
    · rintro ⟨hcompletes, hkeeps⟩
      refine ⟨fun k hk id f a ho p hp => ?_, fun s m' hs => hkeeps (s, m') hs⟩
      obtain ⟨o, i⟩ := id
      obtain rfl : o = c := ho.owner
      have hi : k.methods[i]? = some f := by simpa [method?, hk] using ho.method
      exact hcompletes k hk i (List.getElem?_eq_some_iff.1 hi).1 f ho.method ho.candidate a
        ho.accessor p hp
    · rintro ⟨hcompletes, hkeeps⟩
      exact ⟨fun k hk i _ f hf hcandidate a ha =>
        hcompletes k hk ⟨c, i⟩ f a ⟨rfl, hf, hcandidate, ha⟩, fun r hr => hkeeps r.1 r.2 hr⟩

variable {m : Model} {c : ClassId} {k : Class} {y : Synthesis} {ids : List MethodId} {s : Pending}
  {own : List Property} {vs : List (Property × Option Property)}

/-- A pending property settled by itself commits nothing just in case the verdict is to drop it. -/
theorem Valid.settle?_alone (hm : m.Valid) (hk : m.class? c = some k) (hc : m.IsDefinition c)
    {p : Property} (hp : ∀ id ∈ p.accessors, k.Emits id) {v : Option Property}
    (hv : m.verdict? c p = some v) :
    (∃ t, (Progress.start m).settle? c p = some t ∧ t.stats.propertiesCommitted = 0) ↔
      v = none := by
  let d : Desk := ⟨k, .zero, []⟩
  have hstart : Progress.start m = d.progress m c := by
    simp [d, Desk.progress, Progress.start, putClass_self hk]
  have hsettle : (Progress.start m).settle? c p = some ((d.settle c p v).progress m c) := by
    rw [hstart, hm.settle?_progress hk hc rfl hp, hv, Option.map_some]
  have hcount : ((d.settle c p v).progress m c).stats.propertiesCommitted = v.toList.length := by
    cases v <;>
      simp [d, Desk.progress, Desk.settle, Desk.giveBack, Desk.commit, Statistics.merge,
        Statistics.zero]
  rw [hsettle]
  simp only [Option.some.injEq, exists_eq_left', hcount]
  cases v <;> simp

namespace Processed
variable (h : m.Processed y c k ids s own vs)
include h

theorem atRest_iff (hm : m.Valid) (hk : m.class? c = some k) (hc : m.IsDefinition c) :
    m.AtRest y c ↔ s.completed = [] ∧ ∀ v ∈ vs, v.2 = none := by
  have hkc : k.id = c := (hm.consistent hk).id
  have hcompletes : s.completed = [] ↔ ∀ id ∈ ids, m.Unplaced k id := h.assembly.completed_eq_nil
  rw [hcompletes]
  constructor
  · rintro ⟨hcompletes, hkeeps⟩
    refine ⟨fun id _ f a ho => hcompletes k hk id f a (hkc ▸ ho), fun v hv => ?_⟩
    have hmem : v.1 ∈ s.properties.filter (! y.dismisses m ·) :=
      h.pending ▸ List.mem_map_of_mem hv
    obtain ⟨hpending, hstays⟩ := List.mem_filter.1 hmem
    rcases hkeeps s _ h.collect v.1 hpending with hd | hd
    · simp [hd] at hstays
    · exact (hm.settle?_alone hk hc (h.emits hm hk hv) (h.verdict v hv)).1 hd
  · rintro ⟨hunplaced, hnone⟩
    refine ⟨fun k' hk' id f a ho => ?_, fun s' m' hs' p hp => ?_⟩
    · obtain rfl := Option.some.inj (hk.symm.trans hk')
      exact hunplaced id ((h.all id).2 ⟨f, a, ho⟩) f a (hkc ▸ ho)
    · obtain ⟨rfl, -⟩ := Prod.mk.inj (Option.some.inj (h.collect.symm.trans hs'))
      refine (h.dismissed_or_settled hp).imp_right ?_
      rintro ⟨v, hv, rfl⟩
      exact (hm.settle?_alone hk hc (h.emits hm hk hv) (h.verdict v hv)).2 (hnone v hv)

theorem isNoop_iff (hm : m.Valid) (hk : m.class? c = some k) (hc : m.IsDefinition c) :
    ((y.desk m k ids s own).settleAll c vs).stats.isNoop = true ↔ m.AtRest y c := by
  have hdesk : (y.desk m k ids s own).stats.isNoop = true ↔ s.completed = [] := by
    simp [Synthesis.desk, Statistics.isNoop, Statistics.oneClass, Statistics.zero]
  rw [Desk.isNoop_settleAll, Bool.and_eq_true, hdesk, h.atRest_iff hm hk hc]
  simp

theorem unchanged (hm : m.Valid) (hk : m.class? c = some k) (hc : m.IsDefinition c)
    (hrest : m.AtRest y c) :
    ((y.desk m k ids s own).settleAll c vs).cls = k ∧
      ((y.desk m k ids s own).settleAll c vs).renames = [] := by
  have hkc : k.id = c := (hm.consistent hk).id
  obtain ⟨hnil, hnone⟩ := (h.atRest_iff hm hk hc).1 hrest
  have hown := h.assembly.own_eq_properties hnil
  obtain ⟨hcls, hrenames⟩ := Desk.settleAll_of_dropped (c := c) (y.desk m k ids s own) hnone
  refine ⟨?_, hrenames⟩
  -- nothing was completed, so all that was taken in is pending
  have hpending : (s.properties.flatMap (·.accessors)).Perm ids := by
    have hperm := h.assembly.perm
    rwa [hown, List.perm_append_left_iff] at hperm
  rw [hcls, Synthesis.desk, hnil, documentedOwn_nil, hown]
  simp only [Class.tag_tag_same]
  refine Class.tag_restore (k := k) (fun id hid => ?_) fun i f hid hf => ?_
  · obtain ⟨p, hp, hid⟩ := List.mem_flatMap.1 (hpending.mem_iff.2 hid)
    rcases h.dismissed_or_settled hp with hd | ⟨v, hv, rfl⟩
    · exact List.mem_append_left _ (List.mem_flatMap.2 ⟨p, List.mem_filter.2 ⟨hp, hd⟩, hid⟩)
    · exact List.mem_append_right _ (List.mem_flatMap.2 ⟨v, hv, hid⟩)
  · have hids : (⟨k.id, i⟩ : MethodId) ∈ ids := by
      rcases List.mem_append.1 hid with hid | hid
      · exact h.assembly.mem_of_flatMap_filter hid
      · obtain ⟨v, hv, hid⟩ := List.mem_flatMap.1 hid
        exact h.mem_of_verdict hv _ hid
    obtain ⟨f', a, ho⟩ := (h.all _).1 hids
    have hf' := ho.method
    rw [method?, hkc, hk, Option.bind_some, hf] at hf'
    exact Option.some.inj hf' ▸ ho.generation

end Processed

def Rests (y : Synthesis) (m : Model) : Prop :=
  ∀ c, m.hasClass c = true → m.IsDefinition c → m.AtRest y c

/-- What holds while the classes `rest` are still to be processed. As long as nothing has been
counted, nothing has changed and the classes behind were at rest; and if all classes are at rest,
nothing has been counted. -/
structure Quiet (m : Model) (y : Synthesis) (t : Progress) (rest : List ClassId) : Prop where
  noop : t.stats.isNoop = true → t.model = m ∧ t.renames = [] ∧
    ∀ c, m.hasClass c = true → m.IsDefinition c → c ∈ rest ∨ m.AtRest y c
  rests : m.Rests y → t.model = m ∧ t.stats.isNoop = true

theorem Quiet.step {t : Progress} {rest : List ClassId} (hq : m.Quiet y t (c :: rest))
    (hvalid : t.model.Valid) (hk : t.model.class? c = some k) (hc : t.model.IsDefinition c)
    (h : t.model.Processed y c k ids s own vs) :
    m.Quiet y
      (t.followedBy (((y.desk t.model k ids s own).settleAll c vs).progress t.model c)) rest := by
  obtain ⟨hnoop, hrests⟩ := hq
  have hiff := h.isNoop_iff hvalid hk hc
  have hsame := h.unchanged hvalid hk hc
  have hput : t.model.AtRest y c →
      t.model.putClass c ((y.desk t.model k ids s own).settleAll c vs).cls = t.model :=
    fun hrest => by rw [(hsame hrest).1, putClass_self hk]
  refine ⟨fun hno => ?_, fun hall => ?_⟩
  · obtain ⟨ht, hd⟩ : t.stats.isNoop = true ∧
        ((y.desk t.model k ids s own).settleAll c vs).stats.isNoop = true := by
      simpa [Progress.followedBy, Desk.progress] using hno
    obtain ⟨hmodel, hrenames, hdone⟩ := hnoop ht
    have hrest := hiff.1 hd
    refine ⟨(hput hrest).trans hmodel, ?_, fun d hd hdef => ?_⟩
    · simp [Progress.followedBy, Desk.progress, hrenames, (hsame hrest).2]
    · rcases hdone d hd hdef with hmem | hr
      · rcases List.mem_cons.1 hmem with rfl | hmem
        · exact .inr (hmodel ▸ hrest)
        · exact .inl hmem
      · exact .inr hr
  · obtain ⟨hmodel, ht⟩ := hrests hall
    have hrest : t.model.AtRest y c := by
      rw [hmodel] at hk hc ⊢
      exact hall c (hasClass_iff.2 ⟨k, hk⟩) hc
    refine ⟨(hput hrest).trans hmodel, ?_⟩
    simp [Progress.followedBy, Desk.progress, ht, hiff.2 hrest]

/-- A run is no change just in case there was nothing left to do. -/
theorem Valid.run?_noop_iff (hm : m.Valid) (y : Synthesis) :
    ∃ t, y.run? m = some t ∧
      (t.model = m ∧ t.renames = [] ∧ t.stats.isNoop = true ↔ m.Rests y) := by
  obtain ⟨t, ht, -, -, hnoop, hrests⟩ := hm.run?_induction y (m.Quiet y)
    (fun order _ hmem => by
      refine ⟨fun _ => ⟨rfl, rfl, fun c hc hdef => ?_⟩, fun _ => ⟨rfl, rfl⟩⟩
      exact .inl ((hmem c).2 ⟨of_decide_eq_true hc, hdef⟩))
    (fun _ _ _ _ _ _ _ _ hq hvalid _ hk hc h => hq.step hvalid hk hc h)
  refine ⟨t, ht, fun hsame c hc hdef => ?_, fun hall => ?_⟩
  · exact ((hnoop hsame.2.2).2.2 c hc hdef).resolve_left List.not_mem_nil
  · obtain ⟨hmodel, hno⟩ := hrests hall
    exact ⟨hmodel, (hnoop hno).2.1, hno⟩

/-- A second run changes nothing just in case the first one left every class at rest. -/
theorem second_run_noop_iff (m : Model) (hm : m.Valid) (y : Synthesis) :
    ∃ t₁ t₂, y.run? m = some t₁ ∧ y.run? t₁.model = some t₂ ∧
      (t₂.model = t₁.model ∧ t₂.renames = [] ∧ t₂.stats.isNoop = true ↔ t₁.model.Rests y) := by
  obtain ⟨t₁, h₁, hvalid, -⟩ := hm.run?_classes y
  obtain ⟨t₂, h₂, hiff⟩ := hvalid.run?_noop_iff y
  exact ⟨t₁, t₂, h₁, h₂, hiff⟩

/-- A flag whose setter is declared before its getter. -/
def flag : Model :=
  let bool := QualifiedType.plain (.builtin .bool)
  .ofMembers [.plainSetter "setReady" bool, .plain "isReady" bool] []

/-- The flag is not at rest after the first run, so the second one changes it. -/
theorem second_run_noop_iff_flag : flag.Valid ∧
    ∃ t₁ t₂, Synthesis.withoutVerbs.run? flag = some t₁ ∧
      Synthesis.withoutVerbs.run? t₁.model = some t₂ ∧ ¬ t₁.model.Rests .withoutVerbs ∧
      (t₁.model.class? 0).map (fun k => k.properties.map (·.name)) = some ["isReady"] ∧
      (t₂.model.class? 0).map (fun k => k.properties.map (·.name)) = some ["ready"] := by
  have hvalid : flag.Valid := by decide
  obtain ⟨t₁, t₂, h₁, h₂, hiff⟩ := second_run_noop_iff flag hvalid .withoutVerbs
  have hfirst : ((Synthesis.withoutVerbs.run? flag).bind (·.model.class? 0)).map
      (fun k => k.properties.map (·.name)) = some ["isReady"] := by decide
  have hsecond : (((Synthesis.withoutVerbs.run? flag).bind fun t =>
      Synthesis.withoutVerbs.run? t.model).bind (·.model.class? 0)).map
        (fun k => k.properties.map (·.name)) = some ["ready"] := by decide
  rw [h₁, Option.bind_some] at hfirst hsecond
  rw [h₂, Option.bind_some] at hsecond
  refine ⟨hvalid, t₁, t₂, h₁, h₂, fun hrests => ?_, hfirst, hsecond⟩
  rw [(hiff.2 hrests).1, hfirst] at hsecond
  simp at hsecond

/-- The first run gives the setter back, since `setReady` offers half of `ready` and `isReady` half
of `isReady`; the second run lets it complete the property that the getter became. -/
theorem second_run_completes_flag :
    ¬ ∀ (m : Model) (y : Synthesis) (t₁ t₂ : Progress), m.Valid → y.run? m = some t₁ →
      y.run? t₁.model = some t₂ →
      t₂.model = t₁.model ∧ t₂.renames = [] ∧ t₂.stats.isNoop = true := by
  intro h
  let y := Synthesis.withoutVerbs
  have hruns : ((y.run? flag).bind fun t => y.run? t.model).map (·.stats.isNoop) = some false := by
    decide
  obtain ⟨t₂, hbind, hno⟩ := Option.map_eq_some_iff.1 hruns
  obtain ⟨t₁, h₁, h₂⟩ := Option.bind_eq_some_iff.1 hbind
  have hyes := (h flag y t₁ t₂ (by decide) h₁ h₂).2.2
  rw [hno] at hyes
  exact Bool.false_ne_true hyes

end Model
end ApiProperties

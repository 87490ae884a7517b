import Mathlib.Algebra.Order.BigOperators.Group.List
import Mathlib.Algebra.Order.Ring.Nat
import ApiProperties.Proofs.Ownership
import ApiProperties.Proofs.Rerun

/-!
Repeated runs come to an end. Every class that is not at rest loses an emitted method when it is
processed: what is given back was emitted before, and of what was taken in something stays. So a run
either changes nothing, and counts nothing, or leaves fewer emitted methods than there were.
-/

set_option autoImplicit false

namespace ApiProperties

section Counting
variable {α β : Type} {p : α → Bool}

/-- What has the property no longer, where nothing gained it. -/
theorem countP_zip {l l' : List α} (hlen : l'.length = l.length)
    (h : ∀ x ∈ l.zip l', p x.2 = true → p x.1 = true) :
    l'.countP p + (l.zip l').countP (fun x => p x.1 && !p x.2) = l.countP p := by
  induction l generalizing l' with
  | nil => simp [List.length_eq_zero_iff.1 hlen]
  | cons a rest ih =>
    cases l' with
    | nil => simp at hlen
    | cons b rest' =>
      have hrest := ih (by simpa using hlen) fun x hx => h x (by simp [hx])
      have hb : p b = true → p a = true := h (a, b) (by simp)
      cases ha : p a <;> cases hb' : p b <;> simp_all <;> omega

theorem countP_flatMap_modify {l : List β} {i : Nat} {x : β} (hx : l[i]? = some x) (x' : β)
    (g : β → List α) :
    ((l.modify i fun _ => x').flatMap g).countP p + (g x).countP p =
      (l.flatMap g).countP p + (g x').countP p := by
  induction l generalizing i with
  | nil => simp at hx
  | cons y rest ih =>
    cases i with
    | zero =>
      obtain rfl : y = x := by simpa using hx
      simp only [List.modify_zero_cons, List.flatMap_cons, List.countP_append]
      omega
    | succ i =>
      have hrest := @ih i (by simpa using hx)
      simp only [List.modify_succ_cons, List.flatMap_cons, List.countP_append]
      omega

end Counting

/-- The methods that are emitted. -/
def Class.emitted (k : Class) : Nat := k.methods.countP (·.isGenerated)

/-- The methods that were emitted in `k` and are not in `k'`. -/
def Class.withdrawn (k k' : Class) : Nat :=
  (k.methods.zip k'.methods).countP fun f => f.1.isGenerated && !f.2.isGenerated

theorem Class.emitted_add_withdrawn {k k' : Class}
    (hlen : k'.methods.length = k.methods.length)
    (h : ∀ x : Nat, k'.generation? x = some .generate → k.generation? x = some .generate) :
    k'.emitted + k.withdrawn k' = k.emitted := by
  refine countP_zip hlen fun f hf hg => ?_
  obtain ⟨x, hx⟩ := List.mem_iff_getElem?.1 hf
  obtain ⟨h₁, h₂⟩ := List.getElem?_zip_eq_some.1 hx
  have hold := h x (by simpa [generation?, h₂, Method.isGenerated] using hg)
  simpa [generation?, h₁, Method.isGenerated] using hold

namespace Model

def emitted (m : Model) : Nat := (m.classes.flatMap (·.methods)).countP (·.isGenerated)

theorem emitted_putClass {m : Model} {c : ClassId} {k : Class} (hk : m.class? c = some k)
    (k' : Class) : (m.putClass c k').emitted + k.emitted = m.emitted + k'.emitted :=
  countP_flatMap_modify hk k' (·.methods)

variable {m : Model} {c : ClassId} {k : Class} {y : Synthesis} {ids : List MethodId} {s : Pending}
  {own : List Property} {vs : List (Property × Option Property)}

/-- A property that is kept gives back fewer accessors than it had. -/
theorem Valid.length_lost_lt (hm : m.Valid) (hk : m.class? c = some k) (hc : m.IsDefinition c)
    {p q : Property} (hp : ∀ id ∈ p.accessors, m.hasMethod id = true)
    (hv : m.verdict? c p = some (some q)) : (p.lost q).length < p.accessors.length := by
  obtain ⟨r, -, hreshaped, -, hq⟩ := hm.reshaped?_of_verdict? hk hc hp hv
  have hgetter : q.getter = r.getter := congrArg (·.getter) hq
  have hlost : p.lost q = p.lost r := by rw [hq]; rfl
  obtain ⟨v, hv', hkept⟩ := hm.verdict?_total hk hc hp
  obtain rfl := Option.some.inj (hv'.symm.trans hv)
  rw [hlost]
  exact hreshaped.length_lost_lt (hgetter ▸ (hkept q rfl).readable)

namespace Processed
variable (h : m.Processed y c k ids s own vs)
include h

theorem length_pending : ((s.properties.filter (y.dismisses m)).flatMap (·.accessors)).length +
    (vs.map fun v => v.1.accessors.length).sum + s.completed.length = ids.length := by
  have hsplit := (List.Perm.flatMap_right (·.accessors)
    (List.filter_append_perm (y.dismisses m) s.properties)).length_eq
  have hsettled : (s.properties.filter (! y.dismisses m ·)).flatMap (·.accessors) =
      vs.flatMap fun v => v.1.accessors := by
    rw [← h.pending, List.flatMap_map]
  rw [List.flatMap_append, hsettled, List.length_append, List.length_flatMap (l := vs)] at hsplit
  have hall := h.assembly.length_pending
  omega

variable (hm : m.Valid) (hk : m.class? c = some k)
include hk

/-- Whatever is emitted in the end was emitted before. -/
theorem generation?_mono {x : Nat}
    (hx : ((y.desk m k ids s own).settleAll c vs).cls.generation? x = some .generate) :
    k.generation? x = some .generate := by
  rw [generation?_settled, Option.map_eq_some_iff] at hx
  obtain ⟨old, hold, hnew⟩ := hx
  by_cases hrel : (⟨k.id, x⟩ : MethodId) ∈ y.released m s vs
  · exact h.generation?_of_mem hk (h.released_subset hrel)
  · by_cases hid : (⟨k.id, x⟩ : MethodId) ∈ ids
    · simp [hrel, hid] at hnew
    · simpa [hrel, hid, hold] using hnew

variable (hc : m.IsDefinition c)
include hm hc

theorem length_released_settled {v : Property × Option Property} (hv : v ∈ vs) :
    (v.1.released v.2).length ≤ v.1.accessors.length ∧
      (v.2 ≠ none → (v.1.released v.2).length < v.1.accessors.length) := by
  have hlinks := fun id hid => hm.hasMethod_of_emits hk (h.emits hm hk hv id hid)
  have hverdict := h.verdict v hv
  cases hq : v.2 with
  | none => simp [Property.released]
  | some q =>
    rw [hq] at hverdict
    have hlt := hm.length_lost_lt hk hc hlinks hverdict
    exact ⟨Nat.le_of_lt hlt, fun _ => hlt⟩

/-- Unless the class is at rest, something that was taken in is not given back. -/
theorem exists_not_released (hrest : ¬ m.AtRest y c) : ∃ id ∈ ids, id ∉ y.released m s vs := by
  have hlt : (y.released m s vs).length < ids.length := by
    have hpending := h.length_pending
    have hle : (vs.map fun v => (v.1.released v.2).length).sum ≤
        (vs.map fun v => v.1.accessors.length).sum :=
      List.sum_le_sum fun v hv => (h.length_released_settled hm hk hc hv).1
    rw [Synthesis.released, List.length_append, List.length_flatMap (l := vs)]
    by_cases hnil : s.completed = []
    · have hkept : ∃ v ∈ vs, v.2 ≠ none := by
        by_contra hnone
        exact hrest ((h.atRest_iff hm hk hc).2 ⟨hnil, by simpa using hnone⟩)
      obtain ⟨v, hv, hne⟩ := hkept
      have hless := List.sum_lt_sum (fun v => (v.1.released v.2).length)
        (fun v : Property × Option Property => v.1.accessors.length)
        (fun v hv => (h.length_released_settled hm hk hc hv).1)
        ⟨v, hv, (h.length_released_settled hm hk hc hv).2 hne⟩
      omega
    · have hpos := List.length_pos_iff.2 hnil
      omega
  by_contra hall
  have hsub : ids ⊆ y.released m s vs := fun id hid => by
    by_contra hrel
    exact hall ⟨id, hid, hrel⟩
  have hle := (List.subperm_of_subset h.assembly.nodup hsub).length_le
  omega

theorem emitted_lt (hrest : ¬ m.AtRest y c) :
    ((y.desk m k ids s own).settleAll c vs).cls.emitted < k.emitted := by
  have hkc : k.id = c := (hm.consistent hk).id
  have hlen : ((y.desk m k ids s own).settleAll c vs).cls.methods.length = k.methods.length := by
    simpa [Class.outline] using congrArg (·.methods.length) (h.outline_settleAll hm hk)
  have hadd := Class.emitted_add_withdrawn hlen fun x hx => h.generation?_mono hk hx
  obtain ⟨id, hid, hrel⟩ := h.exists_not_released hm hk hc hrest
  have hself : (⟨k.id, id.index⟩ : MethodId) = id := by rw [hkc, ← h.owner_of_mem hid]
  have hold := h.generation?_of_mem hk hid
  have hnew : ((y.desk m k ids s own).settleAll c vs).cls.generation? id.index =
      some .internal := by
    rw [generation?_settled, hold, hself]
    simp [hid, hrel]
  obtain ⟨f, hf, hfg⟩ := Option.map_eq_some_iff.1 hold
  obtain ⟨f', hf', hfg'⟩ := Option.map_eq_some_iff.1 hnew
  have hpos : 0 < k.withdrawn ((y.desk m k ids s own).settleAll c vs).cls := by
    refine List.countP_pos_iff.2 ⟨(f, f'), ?_, by simp [Method.isGenerated, hfg, hfg']⟩
    exact List.mem_of_getElem? (List.getElem?_zip_eq_some.2 ⟨hf, hf'⟩)
  omega

end Processed

/-! ### Runs -/

/-- Nothing was counted and nothing has changed, or something was counted and fewer methods are
emitted. -/
def Dwindled (m : Model) (t : Progress) : Prop :=
  t.stats.isNoop = true ∧ t.model = m ∨ t.stats.isNoop = false ∧ t.model.emitted < m.emitted

theorem Dwindled.step {t : Progress} (hd : m.Dwindled t) (hm : t.model.Valid)
    (hk : t.model.class? c = some k) (hc : t.model.IsDefinition c)
    (h : t.model.Processed y c k ids s own vs) :
    m.Dwindled
      (t.followedBy (((y.desk t.model k ids s own).settleAll c vs).progress t.model c)) := by
  have hnoop := h.isNoop_iff hm hk hc
  have hcount := emitted_putClass hk ((y.desk t.model k ids s own).settleAll c vs).cls
  by_cases hrest : t.model.AtRest y c
  · have hsame : t.model.putClass c ((y.desk t.model k ids s own).settleAll c vs).cls = t.model := by
      rw [(h.unchanged hm hk hc hrest).1, putClass_self hk]
    simpa [Dwindled, Progress.followedBy, Desk.progress, hnoop.2 hrest, hsame] using hd
  · have hlt := h.emitted_lt hm hk hc hrest
    have hno : ((y.desk t.model k ids s own).settleAll c vs).stats.isNoop = false := by
      simpa [hrest] using hnoop
    have hle : t.model.emitted ≤ m.emitted := by
      rcases hd with ⟨-, hmodel⟩ | ⟨-, hless⟩
      · rw [hmodel]
      · exact Nat.le_of_lt hless
    refine .inr ⟨by simp [Progress.followedBy, Desk.progress, hno], ?_⟩
    simp only [Progress.followedBy, Desk.progress]
    omega

theorem Valid.run?_dwindled (hm : m.Valid) (y : Synthesis) :
    ∃ t, y.run? m = some t ∧ t.model.Valid ∧ m.Dwindled t := by
  obtain ⟨t, ht, hvalid, -, hd⟩ := hm.run?_induction y (fun t _ => m.Dwindled t)
    (fun _ _ _ => .inl ⟨rfl, rfl⟩)
    (fun _ _ _ _ _ _ _ _ hd hvalid _ hk hc h => hd.step hvalid hk hc h)
  exact ⟨t, ht, hvalid, hd⟩

/-- The counters tell exactly whether a run has changed the model. -/
theorem run_isNoop_iff_unchanged (m : Model) (hm : m.Valid) (y : Synthesis) :
    ∃ t, y.run? m = some t ∧ (t.stats.isNoop = true ↔ t.model = m) := by
  obtain ⟨t, ht, -, hd⟩ := hm.run?_dwindled y
  refine ⟨t, ht, ?_⟩
  rcases hd with ⟨hno, hmodel⟩ | ⟨hno, hlt⟩
  · simp [hno, hmodel]
  · have hne : t.model ≠ m := fun heq => by simp [heq] at hlt
    simp [hno, hne]

/-- Two classes that derive from each other; the first one has a property without a setter. -/
def loop : Model :=
  let int := QualifiedType.plain (.builtin .int)
  let getter := { Method.plain "getWidth" int with generation := .internal }
  let width := { Property.plain "width" int 0 .pub with getter := some ⟨0, 0⟩ }
  let first := { Class.empty 0 "First" with
    bases := [⟨1, .pub⟩], methods := [getter, .plainSetter "setWidth" int], properties := [width] }
  ⟨"unit", [first, { Class.empty 1 "Second" with bases := [⟨0, .pub⟩] }]⟩

/-- The property of the first class gets its setter, so the run has changed the model. -/
theorem run_isNoop_iff_unchanged_loop : loop.Valid ∧
    ∃ t, Synthesis.withoutVerbs.run? loop = some t ∧ t.stats.isNoop = false ∧ t.model ≠ loop := by
  have hvalid : loop.Valid := by decide
  obtain ⟨t, ht, hiff⟩ := run_isNoop_iff_unchanged loop hvalid .withoutVerbs
  have hrun : (Synthesis.withoutVerbs.run? loop).map (·.stats.isNoop) = some false := by decide
  rw [ht, Option.map_some, Option.some.injEq] at hrun
  refine ⟨hvalid, t, ht, hrun, fun hsame => ?_⟩
  rw [hiff.2 hsame] at hrun
  exact Bool.noConfusion hrun

end Model

/-! ### One run after the other -/

/-- The model after `n` runs. -/
def Synthesis.iterate? (y : Synthesis) (m : Model) : Nat → Option Model
  | 0 => some m
  | n + 1 => do
    let m' ← y.iterate? m n
    let t ← y.run? m'
    pure t.model

/-- A run leaves the model as it is. -/
def Synthesis.Fixes (y : Synthesis) (m : Model) : Prop :=
  ∃ t, y.run? m = some t ∧ t.model = m ∧ t.stats.isNoop = true

namespace Model
variable {m : Model}

/-- Until the model is fixed, every run so far has taken an emitted method from it. -/
theorem Valid.iterate?_total (hm : m.Valid) (y : Synthesis) (n : Nat) :
    ∃ m', y.iterate? m n = some m' ∧ m'.Valid ∧ (y.Fixes m' ∨ m'.emitted + n ≤ m.emitted) := by
  induction n with
  | zero => exact ⟨m, rfl, hm, .inr (Nat.le_refl _)⟩
  | succ n ih =>
    obtain ⟨m', hm', hvalid, hleft⟩ := ih
    obtain ⟨t, ht, hvalid', hd⟩ := hvalid.run?_dwindled y
    refine ⟨t.model, by simp [Synthesis.iterate?, hm', ht], hvalid', ?_⟩
    rcases hd with ⟨hno, hmodel⟩ | ⟨hno, hlt⟩
    · exact .inl ⟨t, by rw [hmodel, ht], rfl, hno⟩
    · rcases hleft with ⟨t', ht', hmodel, -⟩ | hleft
      · obtain rfl := Option.some.inj (ht.symm.trans ht')
        simp [hmodel] at hlt
      · exact .inr (by omega)

/-- Repeated runs converge: each run that changes the model leaves fewer emitted methods, so no more
runs change it than there were emitted methods at first, and all later ones count nothing. -/
theorem runs_converge (m : Model) (hm : m.Valid) (y : Synthesis) :
    (∀ n, ∃ m' t, y.iterate? m n = some m' ∧ y.run? m' = some t ∧
      y.iterate? m (n + 1) = some t.model ∧
      (t.model ≠ m' → t.model.emitted < m'.emitted) ∧
      (m.emitted ≤ n → t.model = m' ∧ t.stats.isNoop = true)) ∧
    ∀ changes : Finset Nat, (∀ n ∈ changes, y.iterate? m (n + 1) ≠ y.iterate? m n) →
      changes.card ≤ m.emitted := by
  have hall : ∀ n, ∃ m' t, y.iterate? m n = some m' ∧ y.run? m' = some t ∧
      y.iterate? m (n + 1) = some t.model ∧
      (t.model ≠ m' → t.model.emitted < m'.emitted) ∧
      (m.emitted ≤ n → t.model = m' ∧ t.stats.isNoop = true) := by
    intro n
    obtain ⟨m', hm', hvalid, hleft⟩ := hm.iterate?_total y n
    obtain ⟨t, ht, -, hd⟩ := hvalid.run?_dwindled y
    refine ⟨m', t, hm', ht, by simp [Synthesis.iterate?, hm', ht], fun hne => ?_, fun hn => ?_⟩
    · rcases hd with ⟨-, hmodel⟩ | ⟨-, hlt⟩
      · exact absurd hmodel hne
      · exact hlt
    · rcases hleft with ⟨t', ht', hmodel, hno⟩ | hleft
      · obtain rfl := Option.some.inj (ht.symm.trans ht')
        exact ⟨hmodel, hno⟩
      · -- no emitted method is left, so there is nothing to take
        rcases hd with ⟨hno, hmodel⟩ | ⟨-, hlt⟩
        · exact ⟨hmodel, hno⟩
        · omega
  refine ⟨hall, fun changes hchanges => ?_⟩
  have hsub : changes ⊆ Finset.range m.emitted := by
    intro n hn
    by_contra hge
    obtain ⟨m', t, hm', -, hnext, -, hlate⟩ := hall n
    obtain ⟨hmodel, -⟩ := hlate (by simpa using hge)
    exact hchanges n hn (by rw [hnext, hm', hmodel])
  simpa using Finset.card_le_card hsub

/-- Both emitted methods of the flag are needed: the first run takes the getter and the second one
the setter. -/
theorem runs_converge_flag : flag.Valid ∧ flag.emitted = 2 ∧
    Synthesis.withoutVerbs.iterate? flag 1 ≠ Synthesis.withoutVerbs.iterate? flag 0 ∧
    Synthesis.withoutVerbs.iterate? flag 2 ≠ Synthesis.withoutVerbs.iterate? flag 1 ∧
    ∀ n, ∃ m' t, Synthesis.withoutVerbs.iterate? flag n = some m' ∧
      Synthesis.withoutVerbs.run? m' = some t ∧
      (flag.emitted ≤ n → t.model = m' ∧ t.stats.isNoop = true) := by
  have hvalid : flag.Valid := by decide
  refine ⟨hvalid, by decide, by decide, by decide, fun n => ?_⟩
  obtain ⟨m', t, hm', ht, -, -, hlate⟩ := (runs_converge flag hvalid .withoutVerbs).1 n
  exact ⟨m', t, hm', ht, hlate⟩

end Model
end ApiProperties

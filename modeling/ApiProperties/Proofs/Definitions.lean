import Mathlib.Data.Set.Function
import Mathlib.Data.Finset.Card
import Mathlib.Dynamics.PeriodicPts.Defs
import ApiProperties.Proofs.Consistency

/-!
The complete class behind a class. The walk along definition links is the iteration of
`Model.next`, in which a class without a link stands still, and `Model.definition?` answers the
first class that the iteration meets again: the one at which the chain of links stops, or the one at
which it runs into a cycle. Hence it answers on every consistent model, and the answer is its own
definition.
-/

set_option autoImplicit false

namespace ApiProperties.Model

/-- The class to which the definition link leads, or the class itself without one. -/
def next (m : Model) (c : ClassId) : ClassId := ((m.class? c).bind (·.definition)).getD c

/-- The class is the complete one, as far as its links say. -/
def IsDefinition (m : Model) (c : ClassId) : Prop := m.definition? c = some c

instance (m : Model) (c : ClassId) : Decidable (m.IsDefinition c) :=
  inferInstanceAs (Decidable (m.definition? c = some c))

theorem IsDefinition.listed {m : Model} {c : ClassId} (h : m.IsDefinition c) :
    ∃ k, m.class? c = some k := by
  cases hk : m.class? c with
  | none => simp [IsDefinition, definition?, definitionFrom?, hk] at h
  | some k => exact ⟨k, rfl⟩

/-- The class has no definition link, or one to itself. -/
def IsComplete (m : Model) (c : ClassId) : Prop :=
  ∃ k, m.class? c = some k ∧ (k.definition = none ∨ k.definition = some c)

theorem isComplete_iff {m : Model} {c : ClassId} (hc : c < m.classes.length) :
    m.IsComplete c ↔ m.next c = c := by
  obtain ⟨k, hk⟩ := hasClass_iff.1 (decide_eq_true hc)
  cases hd : k.definition <;> simp [IsComplete, next, hk, hd]

theorem exists_link {m : Model} {c : ClassId} (h : m.next c ≠ c) :
    ∃ k, m.class? c = some k ∧ k.definition = some (m.next c) := by
  cases hk : m.class? c with
  | none => exact absurd (by simp [next, hk]) h
  | some k =>
    cases hd : k.definition with
    | none => exact absurd (by simp [next, hk, hd]) h
    | some d => exact ⟨k, rfl, by simp [next, hk, hd]⟩

/-- The walk along definition links, as it stands without fuel: with the classes `seen` behind it, it
goes from `c` on and ends at `d`. -/
inductive Leads (m : Model) : (seen : List ClassId) → (c d : ClassId) → Prop
  | again {seen : List ClassId} {c : ClassId} (hc : c ∈ seen) : Leads m seen c c
  | stay {seen : List ClassId} {c : ClassId} (hc : c ∉ seen) (hcomplete : m.IsComplete c) :
      Leads m seen c c
  | follow {seen : List ClassId} {c d link : ClassId} {k : Class} (hc : c ∉ seen)
      (hk : m.class? c = some k) (hlink : k.definition = some link) (hne : link ≠ c)
      (rest : Leads m (c :: seen) link d) : Leads m seen c d

theorem definitionFrom?_seen (m : Model) (fuel : Nat) {seen : List ClassId} {c : ClassId}
    (h : c ∈ seen) : m.definitionFrom? (fuel + 1) seen c = some c := by
  simp [definitionFrom?, h]

theorem definitionFrom?_unseen {m : Model} {fuel : Nat} {seen : List ClassId} {c : ClassId}
    (hc : c < m.classes.length) (h : c ∉ seen) :
    m.definitionFrom? (fuel + 1) seen c =
      if m.next c = c then some c else m.definitionFrom? fuel (c :: seen) (m.next c) := by
  obtain ⟨k, hk⟩ := hasClass_iff.1 (decide_eq_true hc)
  cases hd : k.definition with
  | none => simp [definitionFrom?, next, h, hk, hd]
  | some d => simp [definitionFrom?, next, h, hk, hd]

theorem Valid.next_lt {m : Model} (hm : m.Valid) {c : ClassId} (hc : c < m.classes.length) :
    m.next c < m.classes.length := by
  obtain ⟨k, hk⟩ := hasClass_iff.1 (decide_eq_true hc)
  cases hd : k.definition with
  | none => simpa [next, hk, hd] using hc
  | some d => simpa [next, hk, hd, hasClass] using (hm.consistent hk).definition d hd

theorem Valid.iterate_next_lt {m : Model} (hm : m.Valid) {c : ClassId}
    (hc : c < m.classes.length) (i : Nat) : m.next^[i] c < m.classes.length := by
  induction i with
  | zero => exact hc
  | succ i ih =>
    rw [Function.iterate_succ_apply']
    exact hm.next_lt ih

/-- Where the first `j` classes on the way from `c` are distinct and the next one is the `i`th. -/
structure Rho (m : Model) (c : ClassId) (i j : Nat) : Prop where
  lt : i < j
  distinct : Set.InjOn (fun l => m.next^[l] c) (Set.Iio j)
  meets : m.next^[j] c = m.next^[i] c

theorem length_le_of_distinct {m : Model} {c : ClassId} {j : Nat}
    (hr : ∀ i, m.next^[i] c < m.classes.length)
    (hd : Set.InjOn (fun l => m.next^[l] c) (Set.Iio j)) : j ≤ m.classes.length := by
  have hmaps : Set.MapsTo (fun l => m.next^[l] c) (Finset.range j : Set Nat)
      (Finset.range m.classes.length) := fun i _ => by simpa using hr i
  have hinj : Set.InjOn (fun l => m.next^[l] c) (Finset.range j : Set Nat) := by
    simpa [Set.Iio_def] using hd
  simpa using Finset.card_le_card_of_injOn _ hmaps hinj

theorem distinct_succ {m : Model} {c : ClassId} {j : Nat}
    (hd : Set.InjOn (fun l => m.next^[l] c) (Set.Iio j))
    (hnew : ∀ i < j, m.next^[i] c ≠ m.next^[j] c) :
    Set.InjOn (fun l => m.next^[l] c) (Set.Iio (j + 1)) := by
  intro a ha b hb hab
  simp only [Set.mem_Iio] at ha hb
  rcases Nat.lt_succ_iff_lt_or_eq.1 ha with ha | rfl <;>
    rcases Nat.lt_succ_iff_lt_or_eq.1 hb with hb | rfl
  · exact hd ha hb hab
  · exact absurd hab (hnew a ha)
  · exact absurd hab.symm (hnew b hb)
  · rfl

/-- The walk, `j` steps on its way, still has to meet a class again and answers it. -/
theorem definitionFrom?_walk {m : Model} {c : ClassId}
    (hr : ∀ i, m.next^[i] c < m.classes.length) {fuel j : Nat} {seen : List ClassId}
    (hseen : ∀ d, d ∈ seen ↔ ∃ i < j, m.next^[i] c = d)
    (hd : Set.InjOn (fun l => m.next^[l] c) (Set.Iio j)) (hfuel : m.classes.length < fuel + j) :
    ∃ i j', m.Rho c i j' ∧ m.Leads seen (m.next^[j] c) (m.next^[i] c) ∧
      m.definitionFrom? fuel seen (m.next^[j] c) = some (m.next^[i] c) := by
  induction fuel generalizing j seen with
  | zero =>
    -- without fuel more classes would be distinct than there are
    have := length_le_of_distinct hr hd
    omega
  | succ fuel ih =>
    by_cases hmem : m.next^[j] c ∈ seen
    · obtain ⟨i, hi, heq⟩ := (hseen _).1 hmem
      refine ⟨i, j, ⟨hi, hd, heq.symm⟩, ?_, ?_⟩
      · rw [heq]
        exact .again hmem
      · rw [definitionFrom?_seen m fuel hmem, heq]
    · have hnew : ∀ i < j, m.next^[i] c ≠ m.next^[j] c := fun i hi heq =>
        hmem ((hseen _).2 ⟨i, hi, heq⟩)
      have hd' := distinct_succ hd hnew
      have hstep : m.next^[j + 1] c = m.next (m.next^[j] c) := Function.iterate_succ_apply' _ _ _
      rw [definitionFrom?_unseen (hr j) hmem]
      by_cases hstop : m.next (m.next^[j] c) = m.next^[j] c
      · have hstay := (isComplete_iff (hr j)).2 hstop
        exact ⟨j, j + 1, ⟨Nat.lt_succ_self j, hd', hstep.trans hstop⟩, .stay hmem hstay,
          by simp [hstop]⟩
      · have hseen' : ∀ d, d ∈ m.next^[j] c :: seen ↔ ∃ i < j + 1, m.next^[i] c = d := by
          intro d
          rw [List.mem_cons, hseen]
          constructor
          · rintro (rfl | ⟨i, hi, heq⟩)
            · exact ⟨j, Nat.lt_succ_self j, rfl⟩
            · exact ⟨i, Nat.lt_succ_of_lt hi, heq⟩
          · rintro ⟨i, hi, heq⟩
            rcases Nat.lt_succ_iff_lt_or_eq.1 hi with hi | rfl
            · exact .inr ⟨i, hi, heq⟩
            · exact .inl heq.symm
        obtain ⟨i, j', hrho, hleads, hanswer⟩ := ih hseen' hd' (by omega)
        obtain ⟨k, hk, hlink⟩ := exists_link hstop
        rw [hstep] at hleads hanswer
        exact ⟨i, j', hrho, .follow hmem hk hlink hstop hleads, by rw [if_neg hstop, hanswer]⟩

theorem Valid.definition?_rho {m : Model} (hm : m.Valid) {c : ClassId}
    (hc : c < m.classes.length) :
    ∃ i j, m.Rho c i j ∧ m.Leads [] c (m.next^[i] c) ∧ m.definition? c = some (m.next^[i] c) := by
  have hseen : ∀ d, d ∈ ([] : List ClassId) ↔ ∃ i < 0, m.next^[i] c = d := by simp
  have hd : Set.InjOn (fun l => m.next^[l] c) (Set.Iio 0) :=
    fun i hi => absurd hi (Nat.not_lt_zero i)
  exact definitionFrom?_walk (hm.iterate_next_lt hc) hseen hd (Nat.lt_succ_self _)

section Cycles
open Function
variable {m : Model} {c d : ClassId} {i j : Nat}

theorem Rho.isPeriodicPt (h : m.Rho c i j) : IsPeriodicPt m.next (j - i) (m.next^[i] c) := by
  rw [IsPeriodicPt, IsFixedPt, ← iterate_add_apply, Nat.sub_add_cancel h.lt.le]
  exact h.meets

theorem Rho.mem_periodicPts (h : m.Rho c i j) : m.next^[i] c ∈ periodicPts m.next :=
  mk_mem_periodicPts (Nat.sub_pos_of_lt h.lt) h.isPeriodicPt

/-- The classes before the one that is met again lie on no cycle of links. -/
theorem Rho.le_of_mem_periodicPts (h : m.Rho c i j) {l : Nat}
    (hl : m.next^[l] c ∈ periodicPts m.next) : i ≤ l := by
  by_contra hlt
  rw [not_le] at hlt
  -- a class on a cycle comes back as soon as one behind it does
  have hahead : IsPeriodicPt m.next (j - i) (m.next^[i - l] (m.next^[l] c)) := by
    rw [← iterate_add_apply, Nat.sub_add_cancel hlt.le]
    exact h.isPeriodicPt
  have hback : m.next^[j - i + l] c = m.next^[l] c := by
    rw [iterate_add_apply]
    exact isPeriodicPt_of_mem_periodicPts_of_isPeriodicPt_iterate hl hahead
  have hij := h.lt
  have hsame : j - i + l = l :=
    h.distinct (show j - i + l < j by omega) (show l < j by omega) hback
  omega

end Cycles

namespace Valid
variable {m : Model} (hm : m.Valid) {c d : ClassId}
include hm

theorem definition?_isSome (hc : c < m.classes.length) :
    ∃ d, m.definition? c = some d ∧ d < m.classes.length := by
  obtain ⟨i, j, -, -, h⟩ := hm.definition?_rho hc
  exact ⟨_, h, hm.iterate_next_lt hc i⟩

theorem isDefinition_of_definition? (hc : c < m.classes.length) (h : m.definition? c = some d) :
    m.IsDefinition d := by
  obtain ⟨i, j, hrho, -, hi⟩ := hm.definition?_rho hc
  obtain rfl : m.next^[i] c = d := Option.some.inj (hi.symm.trans h)
  obtain ⟨i', j', hrho', -, hi'⟩ := hm.definition?_rho (hm.iterate_next_lt hc i)
  have hzero : i' = 0 := Nat.le_zero.1 (hrho'.le_of_mem_periodicPts hrho.mem_periodicPts)
  rw [IsDefinition, hi', hzero]
  rfl

theorem isDefinition_iff : d < m.classes.length ∧ m.IsDefinition d ↔
    ∃ c, m.hasClass c = true ∧ m.definition? c = some d := by
  constructor
  · rintro ⟨hlt, hd⟩
    exact ⟨d, decide_eq_true hlt, hd⟩
  · rintro ⟨c, hc, hd⟩
    have hlt := of_decide_eq_true hc
    obtain ⟨e, he, helt⟩ := hm.definition?_isSome hlt
    obtain rfl := Option.some.inj (hd.symm.trans he)
    exact ⟨helt, hm.isDefinition_of_definition? hlt hd⟩

end Valid

/-! ### The end of the chain -/

/-- The chain of links from `c` stops, namely at `d`. -/
def EndsAt (m : Model) (c d : ClassId) : Prop := (∃ i, m.next^[i] c = d) ∧ m.IsComplete d

/-- Of the classes on the chain from `c` the first that lies on a cycle of links is `d`. -/
def EntersAt (m : Model) (c d : ClassId) : Prop :=
  ∃ i, m.next^[i] c = d ∧ d ∈ Function.periodicPts m.next ∧
    ∀ l < i, m.next^[l] c ∉ Function.periodicPts m.next

theorem Rho.entersAt {m : Model} {c : ClassId} {i j : Nat} (h : m.Rho c i j) :
    m.EntersAt c (m.next^[i] c) :=
  ⟨i, rfl, h.mem_periodicPts, fun _ hl hmem => absurd (h.le_of_mem_periodicPts hmem) (not_le.2 hl)⟩

/-- The end of a chain is a cycle of one class. -/
theorem Valid.eq_of_endsAt {m : Model} (hm : m.Valid) {c d e : ClassId}
    (hc : c < m.classes.length) (hd : m.EntersAt c d) (he : m.EndsAt c e) : d = e := by
  obtain ⟨i, rfl, hcycle, hfirst⟩ := hd
  obtain ⟨⟨l, rfl⟩, hcomplete⟩ := he
  have hfixed : Function.IsFixedPt m.next (m.next^[l] c) :=
    (isComplete_iff (hm.iterate_next_lt hc l)).1 hcomplete
  have hle : i ≤ l := by
    by_contra hlt
    exact hfirst l (not_le.1 hlt)
      (Function.mk_mem_periodicPts Nat.one_pos (hfixed.isPeriodicPt 1))
  have hsplit : m.next^[l] c = m.next^[l - i] (m.next^[i] c) := by
    rw [← Function.iterate_add_apply, Nat.sub_add_cancel hle]
  have hstill : Function.IsPeriodicPt m.next 1 (m.next^[i] c) :=
    Function.isPeriodicPt_of_mem_periodicPts_of_isPeriodicPt_iterate hcycle
      (hsplit ▸ hfixed.isPeriodicPt 1)
  rw [hsplit]
  exact (Function.iterate_fixed hstill (l - i)).symm

/-- The walk along the links of a class ends, and its end is its own definition: the class at which the
chain of links stops, or else the first one on it that lies on a cycle. -/
theorem definition?_retracts (m : Model) (hm : m.Valid) (c : ClassId) (hc : m.hasClass c = true) :
    ∃ d, m.Leads [] c d ∧ m.definition? c = some d ∧ m.definition? d = some d ∧
      (∀ e, m.EndsAt c e → d = e) ∧ ((∀ e, ¬ m.EndsAt c e) → m.EntersAt c d) := by
  have hlt : c < m.classes.length := of_decide_eq_true hc
  obtain ⟨i, j, hrho, hleads, hd⟩ := hm.definition?_rho hlt
  have henters := hrho.entersAt
  exact ⟨m.next^[i] c, hleads, hd, hm.isDefinition_of_definition? hlt hd,
    fun e he => hm.eq_of_endsAt hlt henters he, fun _ => henters⟩

/-- A chain of two views that stops, and one that runs into two views of each other. -/
def viewChains : Model :=
  ⟨"unit", [
    { Class.empty 0 "Full" with definition := some 0 },
    { Class.empty 1 "Near" with definition := some 0 },
    { Class.empty 2 "Far" with definition := some 1 },
    { Class.empty 3 "Left" with definition := some 4 },
    { Class.empty 4 "Right" with definition := some 3 },
    { Class.empty 5 "Outer" with definition := some 4 }]⟩

theorem viewChains_goes_on (e : ClassId) : ¬ viewChains.EndsAt 5 e := by
  rintro ⟨⟨i, rfl⟩, hcomplete⟩
  have hkept : ∀ c ∈ [3, 4, 5], viewChains.next c ∈ [3, 4, 5] := by decide
  have hmoves : ∀ c ∈ [3, 4, 5], c < viewChains.classes.length ∧ viewChains.next c ≠ c := by decide
  have hring : ∀ i, viewChains.next^[i] 5 ∈ [3, 4, 5] := by
    intro i
    induction i with
    | zero => decide
    | succ i ih =>
      rw [Function.iterate_succ_apply']
      exact hkept _ ih
  obtain ⟨hlt, hne⟩ := hmoves _ (hring i)
  exact hne ((isComplete_iff hlt).1 hcomplete)

theorem definition?_retracts_viewChains :
    viewChains.Valid ∧ (viewChains.hasClass 2 = true ∧ viewChains.definition? 2 = some 0) ∧
    viewChains.hasClass 5 = true ∧ viewChains.Leads [] 5 4 ∧ viewChains.definition? 5 = some 4 ∧
      viewChains.EntersAt 5 4 := by
  have hvalid : viewChains.Valid := by decide
  obtain ⟨d, -, hd, -, hend, -⟩ := definition?_retracts viewChains hvalid 2 (by decide)
  obtain rfl : d = 0 := hend 0 ⟨⟨2, rfl⟩, _, rfl, .inr rfl⟩
  obtain ⟨e, hleads, he, -, -, hring⟩ := definition?_retracts viewChains hvalid 5 (by decide)
  have hfour : viewChains.definition? 5 = some 4 := by decide
  obtain rfl : e = 4 := Option.some.inj (he.symm.trans hfour)
  exact ⟨hvalid, ⟨by decide, hd⟩, by decide, hleads, he, hring viewChains_goes_on⟩

/-! ### Definitions and bases alone decide -/

/-- How the classes refer to each other. -/
def skeleton (m : Model) : List (List Base × Option ClassId) :=
  m.classes.map fun k => (k.bases, k.definition)

theorem skeleton_congr {m m' : Model} (h : m.outline = m'.outline) : m.skeleton = m'.skeleton := by
  have hm : ∀ n : Model, n.skeleton = n.outline.skeleton := fun n => by
    simp [skeleton, outline, Class.outline]
  rw [hm m, hm m', h]

theorem map_class?_of_skeleton {m m' : Model} (h : m.skeleton = m'.skeleton) (c : ClassId) :
    (m.class? c).map (fun k => (k.bases, k.definition)) =
      (m'.class? c).map fun k => (k.bases, k.definition) := by
  simpa [skeleton, class?] using congrArg (·[c]?) h

theorem class?_of_skeleton {m m' : Model} (h : m.skeleton = m'.skeleton) {c : ClassId} {k : Class}
    (hk : m.class? c = some k) :
    ∃ k', m'.class? c = some k' ∧ k'.bases = k.bases ∧ k'.definition = k.definition := by
  have hc := map_class?_of_skeleton h c
  rw [hk, Option.map_some, eq_comm, Option.map_eq_some_iff] at hc
  obtain ⟨k', hk', heq⟩ := hc
  exact ⟨k', hk', congrArg Prod.fst heq, congrArg Prod.snd heq⟩

theorem definitionFrom?_of_skeleton {m m' : Model} (h : m.skeleton = m'.skeleton) (fuel : Nat)
    (seen : List ClassId) (c : ClassId) :
    m.definitionFrom? fuel seen c = m'.definitionFrom? fuel seen c := by
  induction fuel generalizing seen c with
  | zero => rfl
  | succ fuel ih =>
    cases hk : m.class? c with
    | none =>
      have hc := map_class?_of_skeleton h c
      rw [hk, Option.map_none, eq_comm, Option.map_eq_none_iff] at hc
      simp [definitionFrom?, hk, hc]
    | some k =>
      obtain ⟨k', hk', -, hd⟩ := class?_of_skeleton h hk
      simp only [definitionFrom?, hk, hk', hd, ih, Option.bind_eq_bind, Option.bind_some]

theorem definition?_of_skeleton {m m' : Model} (h : m.skeleton = m'.skeleton) (c : ClassId) :
    m.definition? c = m'.definition? c := by
  have hlen : m.classes.length = m'.classes.length := by
    simpa [skeleton] using congrArg List.length h
  rw [definition?, definition?, hlen]
  exact definitionFrom?_of_skeleton h _ _ _

theorem definition?_congr {m m' : Model} (h : m.outline = m'.outline) (c : ClassId) :
    m.definition? c = m'.definition? c :=
  definition?_of_skeleton (skeleton_congr h) c

theorem isDefinition_congr {m m' : Model} (h : m.outline = m'.outline) {c : ClassId} :
    m.IsDefinition c ↔ m'.IsDefinition c := by
  rw [IsDefinition, IsDefinition, definition?_congr h]

end ApiProperties.Model

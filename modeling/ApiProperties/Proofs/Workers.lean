import Mathlib.Data.List.Induction
import Mathlib.Data.List.Nodup
import Mathlib.Data.List.Perm.Basic
import ApiProperties.Batch

/-!
What the steps of workers come to, in whichever order they are taken. A step with one file leaves the
jobs of the others alone, so that a file goes from stage to stage by its own two steps. What is collected
at the end is the record of the jobs in the order of the files.
-/

set_option autoImplicit false

namespace ApiProperties

namespace Timetable
variable {workers count i : Nat} (o : Timetable workers count)

/-- A file comes up for being loaded and for being saved. -/
theorem exists_split (h : i < count) : ∃ front mid back,
    o.steps = front ++ i :: (mid ++ i :: back) ∧ i ∉ front ∧ i ∉ mid ∧ i ∉ back := by
  have htwo : o.steps.count i = 2 := by
    rw [o.twice.count_eq, List.count_append, List.count_eq_one_of_mem List.nodup_range
      (List.mem_range.2 h)]
  have hmem : i ∈ o.steps := List.count_pos_iff.1 (by omega)
  obtain ⟨front, rest, hsteps, hfront⟩ := List.eq_append_cons_of_mem hmem
  have hone : rest.count i = 1 := by
    rw [hsteps, List.count_append, List.count_eq_zero_of_not_mem hfront, List.count_cons_self] at htwo
    omega
  have hmem' : i ∈ rest := List.count_pos_iff.1 (by omega)
  obtain ⟨mid, back, rfl, hmid⟩ := List.eq_append_cons_of_mem hmem'
  refine ⟨front, mid, back, hsteps, hfront, hmid, List.count_eq_zero.1 ?_⟩
  rw [List.count_append, List.count_cons_self] at hone
  omega

/-! ### A timetable without one of the files -/

/-- The places of the other files among all of them. -/
def skip (i k : Nat) : Nat := if k < i then k else k + 1

theorem skip_injective (i : Nat) : Function.Injective (skip i) := by
  intro a b h
  unfold skip at h
  split at h <;> split at h <;> omega

/-- The place of another file when the one at `i` is gone. -/
def shift (i k : Nat) : Nat := if k < i then k else k - 1

theorem skip_shift {k : Nat} (h : k ≠ i) : skip i (shift i k) = k := by
  unfold skip shift
  grind

theorem map_skip_shift (l : List Nat) :
    ((l.filter (· != i)).map (shift i)).map (skip i) = l.filter (· != i) := by
  rw [List.map_map]
  refine (List.map_congr_left fun k hk => ?_).trans (List.map_id _)
  exact skip_shift (by simpa using (List.mem_filter.1 hk).2)

theorem range_perm (h : i < count) :
    ((List.range count).filter (· != i)).Perm ((List.range (count - 1)).map (skip i)) := by
  refine (List.perm_ext_iff_of_nodup (List.nodup_range.filter _)
    (List.nodup_range.map (skip_injective i))).2 fun k => ?_
  simp only [List.mem_filter, List.mem_range, bne_iff_ne, List.mem_map]
  constructor
  · rintro ⟨hk, hne⟩
    exact ⟨shift i k, by unfold shift; split <;> omega, skip_shift hne⟩
  · rintro ⟨j, hj, rfl⟩
    unfold skip
    split <;> omega

theorem foldl_hold_filter (i : Nat) (held l : List Nat) :
    (l.filter (· != i)).foldl hold (held.filter (· != i)) = (l.foldl hold held).filter (· != i) := by
  induction l generalizing held with
  | nil => rfl
  | cons k l ih =>
    rw [List.foldl_cons, ← ih]
    by_cases hk : k = i
    · subst hk
      rw [List.filter_cons_of_neg (by simp)]
      congr 1
      unfold hold
      split
      · rw [← List.erase_filter, List.erase_of_not_mem (by simp)]
      · rw [List.filter_cons_of_neg (by simp)]
    · rw [List.filter_cons_of_pos (by simpa using hk), List.foldl_cons]
      congr 1
      unfold hold
      simp only [List.contains_iff_mem, List.mem_filter, bne_iff_ne, ne_eq, hk, not_false_eq_true,
        and_true]
      split
      · exact List.erase_filter
      · rw [List.filter_cons_of_pos (by simpa using hk)]

theorem foldl_hold_map {f : Nat → Nat} (hf : Function.Injective f) (held l : List Nat) :
    (l.map f).foldl hold (held.map f) = (l.foldl hold held).map f := by
  induction l generalizing held with
  | nil => rfl
  | cons k l ih =>
    rw [List.map_cons, List.foldl_cons, List.foldl_cons, ← ih]
    congr 1
    unfold hold
    simp only [List.contains_iff_mem, List.mem_map_of_injective hf]
    split
    · exact (List.map_erase hf _).symm
    · rfl

/-- The others keep their order, and no more of them are in the hands of workers than before. -/
def without (h : i < count) : Timetable workers (count - 1) where
  steps := (o.steps.filter (· != i)).map (shift i)
  twice := by
    refine (List.map_perm_map_iff (skip_injective i)).1 ?_
    rw [map_skip_shift, List.map_append]
    have hperm := o.twice.filter (· != i)
    rw [List.filter_append] at hperm
    exact hperm.trans ((range_perm h).append (range_perm h))
  hands n _ := by
    obtain ⟨front, hfront, htake⟩ := List.prefix_map_iff.1
      (List.take_prefix n ((o.steps.filter (· != i)).map (shift i)))
    obtain ⟨steps, hsteps, rfl⟩ := List.prefix_filter_iff.1 hfront
    have hheld : ((steps.filter (· != i)).map (shift i)).foldl hold [] =
        ((steps.foldl hold []).filter (· != i)).map (shift i) := by
      refine List.map_injective_iff.2 (skip_injective i) ?_
      rw [map_skip_shift, ← foldl_hold_map (skip_injective i), map_skip_shift, List.map_nil]
      exact foldl_hold_filter i [] steps
    rw [htake, hheld, List.length_map]
    obtain ⟨k, hk, rfl⟩ : ∃ k ≤ o.steps.length, steps = o.steps.take k :=
      ⟨steps.length, hsteps.length_le, List.prefix_iff_eq_take.1 hsteps⟩
    exact Nat.le_trans (List.length_filter_le ..) (o.hands k hk)

end Timetable

theorem Job.file_outcome (j : Job) : j.outcome.1 = j.file := by
  unfold outcome
  split <;> rfl

namespace Batch
variable {b : Batch} {root : List Char} {t t' : FileTree} {files : List (List Char)}
  {steps : List Nat} {i k : Nat} {j : Job} {state : FileTree × List Job}

/-! ### Steps -/

theorem file_advance (b : Batch) (root : List Char) (t : FileTree) (j : Job) :
    (b.advance root t j).2.file = j.file := by
  unfold advance
  split
  · split <;> rfl
  · split <;> rfl
  · rfl

theorem advance_ended {run : Option Progress} (h : j.stage = .ended run) :
    b.advance root t j = (t, j) := by
  rw [advance, h]

theorem step_eq (h : state.2[i]? = some j) : b.step root state i =
    ((b.advance root state.1 j).1, state.2.set i (b.advance root state.1 j).2) := by
  simp only [step, h]

theorem step_of_none (h : state.2[i]? = none) : b.step root state i = state := by
  simp only [step, h]

section Outcomes
variable {file : List Char} {s : Progress}

theorem step_load (h : state.2[i]? = some ⟨file, .waiting⟩)
    (hrun : b.runFile? state.1 file = some s) :
    b.step root state i = (state.1, state.2.set i ⟨file, .loaded s⟩) := by
  simp only [step_eq h, advance, hrun]

theorem step_unloaded (h : state.2[i]? = some ⟨file, .waiting⟩)
    (hrun : b.runFile? state.1 file = none) :
    b.step root state i = (state.1, state.2.set i ⟨file, .ended none⟩) := by
  simp only [step_eq h, advance, hrun]

theorem step_save (h : state.2[i]? = some ⟨file, .loaded s⟩)
    (hsave : ModelFile.save state.1 (Path.outputPath file root b.output) s.model = (t', true)) :
    b.step root state i = (t', state.2.set i ⟨file, .ended (some s)⟩) := by
  simp only [step_eq h, advance, hsave]

theorem step_unsaved (h : state.2[i]? = some ⟨file, .loaded s⟩)
    (hsave : ModelFile.save state.1 (Path.outputPath file root b.output) s.model = (t', false)) :
    b.step root state i = (t', state.2.set i ⟨file, .ended none⟩) := by
  simp only [step_eq h, advance, hsave]

theorem step_ended {run : Option Progress} (h : state.2[i]? = some ⟨file, .ended run⟩) :
    b.step root state i = state := by
  obtain ⟨hlt, hget⟩ := List.getElem?_eq_some_iff.1 h
  rw [step_eq h, advance_ended rfl, ← hget, List.set_getElem_self]

end Outcomes

theorem getElem?_step_self (b : Batch) (root : List Char) (h : state.2[i]? = some j) :
    (b.step root state i).2[i]? = some (b.advance root state.1 j).2 := by
  obtain ⟨hi, -⟩ := List.getElem?_eq_some_iff.1 h
  rw [step_eq h, List.getElem?_set_self hi]

/-- A step leaves the other files alone. -/
theorem getElem?_step_ne (h : k ≠ i) : (b.step root state k).2[i]? = state.2[i]? := by
  cases hk : state.2[k]? with
  | none => rw [step_of_none hk]
  | some j => rw [step_eq hk, List.getElem?_set_ne h]

theorem getElem?_foldl_step (h : i ∉ steps) :
    (steps.foldl (b.step root) state).2[i]? = state.2[i]? := by
  induction steps generalizing state with
  | nil => rfl
  | cons k steps ih =>
    obtain ⟨hk, hsteps⟩ := List.ne_and_not_mem_of_not_mem_cons h
    rw [List.foldl_cons, ih hsteps, getElem?_step_ne (Ne.symm hk)]

theorem map_file_step (b : Batch) (root : List Char) (state : FileTree × List Job) (i : Nat) :
    (b.step root state i).2.map (·.file) = state.2.map (·.file) := by
  cases hi : state.2[i]? with
  | none => rw [step_of_none hi]
  | some j =>
    obtain ⟨hlt, rfl⟩ := List.getElem?_eq_some_iff.1 hi
    rw [step_eq hi, List.map_set, file_advance, ← List.map_set, List.set_getElem_self]

/-! ### From the start on -/

theorem after_append (b : Batch) (root : List Char) (t : FileTree) (files : List (List Char))
    (steps steps' : List Nat) : b.after root t files (steps ++ steps') =
      steps'.foldl (b.step root) (b.after root t files steps) :=
  List.foldl_append

theorem after_concat (b : Batch) (root : List Char) (t : FileTree) (files : List (List Char))
    (steps : List Nat) (i : Nat) :
    b.after root t files (steps ++ [i]) = b.step root (b.after root t files steps) i :=
  b.after_append root t files steps [i]

theorem map_file_after (b : Batch) (root : List Char) (t : FileTree) (files : List (List Char))
    (steps : List Nat) : (b.after root t files steps).2.map (·.file) = files := by
  induction steps using List.reverseRecOn with
  | nil => exact List.map_map.trans (List.map_id files)
  | append_singleton steps i ih => rw [after_concat, map_file_step, ih]

theorem getElem?_after_of_notMem (h : i ∉ steps) :
    (b.after root t files steps).2[i]? = files[i]?.map Job.start := by
  rw [after, getElem?_foldl_step h, List.getElem?_map]

/-! ### The record of the jobs -/

/-- The runs whose models were saved. -/
def finished (outcomes : List (List Char × Option Progress)) : List Progress :=
  outcomes.filterMap (·.2)

/-- What came of the files, taken together. -/
def tally (y : Synthesis) (outcomes : List (List Char × Option Progress)) : BatchResult where
  report := ⟨y.useHeuristics, .sum ((finished outcomes).map (·.stats)),
    (finished outcomes).flatMap (·.renames)⟩
  processed := (outcomes.filter (·.2.isSome)).map (·.1)
  failed := (outcomes.filter (·.2.isNone)).map (·.1)

theorem add_tally (y : Synthesis) (outcomes : List (List Char × Option Progress))
    (x : List Char × Option Progress) : (tally y outcomes).add x = tally y (outcomes ++ [x]) := by
  obtain ⟨file, run⟩ := x
  cases run <;> simp [BatchResult.add, tally, finished, Report.add, Statistics.sum]

theorem foldl_add (y : Synthesis) (outcomes : List (List Char × Option Progress)) :
    outcomes.foldl BatchResult.add (.empty y) = tally y outcomes := by
  induction outcomes using List.reverseRecOn with
  | nil => rfl
  | append_singleton outcomes x ih => rw [List.foldl_concat, ih, add_tally]

/-- A batch makes a place for the outputs, takes the steps with its files, and writes the record of
the jobs at last. -/
theorem processFiles_eq_ok {machine : Machine}
    {order : Timetable (b.workers machine) (b.limit files).length} {r : BatchResult} :
    b.processFiles t root files machine order = (.ok r, t') ↔
      ∃ t₁, t.makeDirectories b.output = (t₁, true) ∧
        tally b.synthesis ((b.after root t₁ (b.limit files) order.steps).2.map Job.outcome) = r ∧
        (b.after root t₁ (b.limit files) order.steps).1.write b.reportPath
          (.file (String.ofList r.encode.print)) = (t', true) := by
  rw [processFiles]
  constructor
  · intro h
    split at h
    · cases h
    · rename_i t₁ hmade
      simp only [foldl_add] at h
      split at h
      · rename_i t₂ hreport
        cases h
        exact ⟨t₁, hmade, rfl, hreport⟩
      · cases h
  · rintro ⟨t₁, hmade, rfl, hreport⟩
    simp only [hmade, foldl_add, hreport]

end Batch
end ApiProperties

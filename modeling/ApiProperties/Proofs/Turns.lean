import ApiProperties.Proofs.Outputs

/-!
The turns of the files of a batch. A file is loaded at one of its two steps and saved at the other one,
and in between workers may have changed other files; but what comes of it depends on nothing else. A file
that cannot be loaded takes no part: the others take their steps as if it were not there.
-/

set_option autoImplicit false

namespace ApiProperties

namespace ModelFile
variable {t t' : FileTree} {path : List Char}

/-- There is no text, or it is no model, or the model is not valid. -/
inductive Unloaded (t : FileTree) (path : List Char) : Prop where
  | unreadable (hread : t.read? path = none)
  | malformed (text : String) (hread : t.read? path = some text)
      (hparse : parse? text.toList = none)
  | invalid (text : String) (m : Model) (hread : t.read? path = some text)
      (hparse : parse? text.toList = some m) (hm : ¬ m.Valid)

theorem unloaded_iff : Unloaded t path ↔ ∀ m, load t path ≠ .ok m := by
  constructor
  · intro h m hload
    obtain ⟨text, m₀, hread, hparse, rfl, hm⟩ := load_eq_ok.1 hload
    cases h with
    | unreadable hnone => cases hnone.symm.trans hread
    | malformed text' hread' hnone =>
      obtain rfl := Option.some.inj (hread'.symm.trans hread)
      cases hnone.symm.trans hparse
    | invalid text' m' hread' hparse' hm' =>
      obtain rfl := Option.some.inj (hread'.symm.trans hread)
      obtain rfl := Option.some.inj (hparse'.symm.trans hparse)
      exact hm' ((fault?_nameAfter path m').symm.trans hm)
  · intro h
    cases hread : t.read? path with
    | none => exact .unreadable hread
    | some text =>
      cases hparse : parse? text.toList with
      | none => exact .malformed text hread hparse
      | some m =>
        refine .invalid text m hread hparse fun hm => ?_
        exact h _ (load_eq_ok.2 ⟨text, m, hread, hparse, rfl, (fault?_nameAfter path m).trans hm⟩)

theorem load_congr (h : t'.read? path = t.read? path) : load t' path = load t path := by
  rw [load, load, h]

end ModelFile

open ModelFile (Unloaded load unloaded_iff)

/-- What happened to one file: the tree of files when it was loaded, the tree when its output was to be
saved and the one that this left, and the run, unless something failed. -/
structure Turn where
  file : List Char
  loading : FileTree
  saving : FileTree
  left : FileTree
  run : Option Progress

def Turn.outcome (x : Turn) : List Char × Option Progress := (x.file, x.run)

namespace Batch
variable {b : Batch} {root file : List Char} {t : FileTree} {files : List (List Char)}
  {x : Turn} {steps front mid back : List Nat} {i : Nat} {workers : Nat}

/-- A model is loaded, but what the run makes of it cannot be written. -/
def Unsaved (b : Batch) (root : List Char) (x : Turn) : Prop :=
  ∃ m s t', load x.loading x.file = .ok m ∧ b.synthesis.run? m = some s ∧
    ModelFile.save x.saving (Path.outputPath x.file root b.output) s.model = (t', false)

/-- The turn of the file at a place, which is loaded when the place comes up, and saved when it comes
up again. -/
def turn (b : Batch) (root : List Char) (t : FileTree) (files : List (List Char)) (steps : List Nat)
    (i : Nat) (file : List Char) : Turn :=
  let front := steps.takeWhile (· != i)
  let mid := (steps.drop (front.length + 1)).takeWhile (· != i)
  { file
    loading := (b.after root t files front).1
    saving := (b.after root t files (front ++ i :: mid)).1
    left := (b.after root t files (front ++ i :: mid ++ [i])).1
    run := ((b.after root t files steps).2[i]?).bind (·.outcome.2) }

/-- The turns of the files, in the order of these. -/
def turns (b : Batch) (root : List Char) (t : FileTree) (files : List (List Char))
    (steps : List Nat) : List Turn :=
  files.mapIdx (b.turn root t files steps)

/-! ### One turn -/

/-- All that can happen to a file. -/
inductive Outcome (b : Batch) (root : List Char) : Turn → Prop where
  | unloaded (loading saving : FileTree) (file : List Char) (h : Unloaded loading file) :
      b.Outcome root ⟨file, loading, saving, saving, none⟩
  | unsaved (loading saving left : FileTree) (file : List Char) (m : Model) (s : Progress)
      (hload : load loading file = .ok m) (hrun : b.synthesis.run? m = some s)
      (hsave : ModelFile.save saving (Path.outputPath file root b.output) s.model = (left, false)) :
      b.Outcome root ⟨file, loading, saving, left, none⟩
  | saved (loading saving left : FileTree) (file : List Char) (m : Model) (s : Progress)
      (hload : load loading file = .ok m) (hrun : b.synthesis.run? m = some s)
      (hsave : ModelFile.save saving (Path.outputPath file root b.output) s.model = (left, true)) :
      b.Outcome root ⟨file, loading, saving, left, some s⟩

namespace Outcome
variable (h : b.Outcome root x)
include h

theorem run_eq_none_iff : x.run = none ↔ Unloaded x.loading x.file ∨ b.Unsaved root x := by
  cases h with
  | unloaded loading saving file h => exact ⟨fun _ => .inl h, fun _ => rfl⟩
  | unsaved loading saving left file m s hload hrun hsave =>
    exact ⟨fun _ => .inr ⟨m, s, left, hload, hrun, hsave⟩, fun _ => rfl⟩
  | saved loading saving left file m s hload hrun hsave =>
    refine ⟨nofun, ?_⟩
    rintro (h | ⟨m', s', left', hload', hrun', hsave'⟩)
    · exact absurd hload (unloaded_iff.1 h m)
    · obtain rfl : m' = m := Except.ok.inj (hload'.symm.trans hload)
      obtain rfl : s' = s := Option.some.inj (hrun'.symm.trans hrun)
      cases hsave'.symm.trans hsave

theorem run_eq_some {s : Progress} (hs : x.run = some s) :
    ∃ m, load x.loading x.file = .ok m ∧ b.synthesis.run? m = some s ∧
      ModelFile.save x.saving (Path.outputPath x.file root b.output) s.model = (x.left, true) := by
  cases h with
  | unloaded => cases hs
  | unsaved => cases hs
  | saved loading saving left file m s' hload hrun hsave =>
    cases hs
    exact ⟨m, hload, hrun, hsave⟩

theorem left_of_unloaded (hx : Unloaded x.loading x.file) : x.left = x.saving := by
  cases h with
  | unloaded => rfl
  | unsaved loading saving left file m s hload => exact absurd hload (unloaded_iff.1 hx m)
  | saved loading saving left file m s hload => exact absurd hload (unloaded_iff.1 hx m)

end Outcome

/-- A model that has been loaded is valid, so its run does not fail. -/
theorem runFile?_eq_none : b.runFile? t file = none ↔ Unloaded t file := by
  rw [unloaded_iff]
  constructor
  · intro hrun m hload
    obtain ⟨-, -, -, -, -, hm⟩ := ModelFile.load_eq_ok.1 hload
    obtain ⟨s, hs, -⟩ := hm.run?_classes b.synthesis
    cases hrun.symm.trans (runFile?_eq_some.2 ⟨m, hload, hs⟩)
  · intro h
    rw [Option.eq_none_iff_forall_ne_some]
    intro s hrun
    obtain ⟨m, hload, -⟩ := runFile?_eq_some.1 hrun
    exact h m hload

theorem takeWhile_bne (h : i ∉ front) : (front ++ i :: back).takeWhile (· != i) = front := by
  have hfront : ∀ k ∈ front, (k != i) = true := fun k hk => by simpa using ne_of_mem_of_not_mem hk h
  rw [List.takeWhile_append_of_pos hfront, List.takeWhile_cons_of_neg (by simp), List.append_nil]

theorem loading_turn (hsteps : steps = front ++ i :: back) (hfront : i ∉ front) :
    (b.turn root t files steps i file).loading = (b.after root t files front).1 := by
  rw [turn, hsteps, takeWhile_bne hfront]

theorem turn_eq (hsteps : steps = front ++ i :: (mid ++ i :: back)) (hfront : i ∉ front)
    (hmid : i ∉ mid) : b.turn root t files steps i file =
      { file
        loading := (b.after root t files front).1
        saving := (b.after root t files (front ++ i :: mid)).1
        left := (b.after root t files (front ++ i :: mid ++ [i])).1
        run := ((b.after root t files steps).2[i]?).bind (·.outcome.2) } := by
  have hdrop : steps.drop (front.length + 1) = mid ++ i :: back := by
    rw [hsteps, List.append_cons, List.drop_left' (by simp)]
  have hfirst : steps.takeWhile (· != i) = front := by rw [hsteps, takeWhile_bne hfront]
  simp only [turn, hfirst, hdrop, takeWhile_bne hmid]

/-- A file goes from stage to stage by its own two steps. -/
theorem outcome_turn (order : Timetable workers files.length) (hi : files[i]? = some file) :
    b.Outcome root (b.turn root t files order.steps i file) := by
  obtain ⟨hlt, -⟩ := List.getElem?_eq_some_iff.1 hi
  obtain ⟨front, mid, back, hsteps, hfront, hmid, hback⟩ := order.exists_split hlt
  have hstart : (b.after root t files front).2[i]? = some ⟨file, .waiting⟩ := by
    rw [getElem?_after_of_notMem hfront, hi]
    rfl
  have hbetween : b.after root t files (front ++ i :: mid) =
      mid.foldl (b.step root) (b.step root (b.after root t files front) i) := by
    rw [after_append, List.foldl_cons]
  have hend : (b.after root t files order.steps).2[i]? =
      (b.after root t files (front ++ i :: mid ++ [i])).2[i]? := by
    have happend : order.steps = front ++ i :: mid ++ [i] ++ back := by simp [hsteps]
    rw [happend, after_append, getElem?_foldl_step hback]
  rw [turn_eq hsteps hfront hmid, hend, after_concat]
  cases hrun : b.runFile? (b.after root t files front).1 file with
  | none =>
    have hended : (b.after root t files (front ++ i :: mid)).2[i]? = some ⟨file, .ended none⟩ := by
      rw [hbetween, getElem?_foldl_step hmid, getElem?_step_self b root hstart, advance, hrun]
    rw [step_ended hended, hended]
    exact .unloaded _ _ file (runFile?_eq_none.1 hrun)
  | some s =>
    obtain ⟨m, hload, hs⟩ := runFile?_eq_some.1 hrun
    have hloaded : (b.after root t files (front ++ i :: mid)).2[i]? = some ⟨file, .loaded s⟩ := by
      rw [hbetween, getElem?_foldl_step hmid, getElem?_step_self b root hstart, advance, hrun]
    have hlt' := (List.getElem?_eq_some_iff.1 hloaded).1
    cases hsave : ModelFile.save (b.after root t files (front ++ i :: mid)).1
        (Path.outputPath file root b.output) s.model with
    | mk left done =>
      cases done with
      | false =>
        rw [step_unsaved hloaded hsave, List.getElem?_set_self hlt']
        exact .unsaved _ _ _ file m s hload hs hsave
      | true =>
        rw [step_save hloaded hsave, List.getElem?_set_self hlt']
        exact .saved _ _ _ file m s hload hs hsave

/-! ### All turns -/

theorem mem_turns : x ∈ b.turns root t files steps ↔
    ∃ i file, files[i]? = some file ∧ b.turn root t files steps i file = x := by
  simp only [turns, List.mem_mapIdx, List.getElem?_eq_some_iff]
  grind

theorem outcome_of_mem (order : Timetable workers files.length)
    (hx : x ∈ b.turns root t files order.steps) : b.Outcome root x := by
  obtain ⟨i, file, hi, rfl⟩ := mem_turns.1 hx
  exact outcome_turn order hi

theorem map_file_turns (b : Batch) (root : List Char) (t : FileTree) (files : List (List Char))
    (steps : List Nat) : (b.turns root t files steps).map (·.file) = files := by
  apply List.ext_getElem?
  intro i
  rw [List.getElem?_map, turns, List.getElem?_mapIdx]
  cases files[i]? <;> rfl

/-- What is collected of the jobs is what came of the turns. -/
theorem map_outcome_turns (b : Batch) (root : List Char) (t : FileTree) (files : List (List Char))
    (steps : List Nat) : (b.turns root t files steps).map Turn.outcome =
      (b.after root t files steps).2.map Job.outcome := by
  apply List.ext_getElem?
  intro i
  have hfile : (b.after root t files steps).2[i]?.map (·.file) = files[i]? := by
    rw [← List.getElem?_map, map_file_after]
  rw [List.getElem?_map, List.getElem?_map, turns, List.getElem?_mapIdx, ← hfile]
  cases hj : (b.after root t files steps).2[i]? with
  | none => rfl
  | some j =>
    simp only [Option.map_some, Turn.outcome, turn, hj, Option.bind_some]
    rw [← Job.file_outcome j]

theorem map_filter_outcome (ts : List Turn) (p : Option Progress → Bool) :
    ((ts.map Turn.outcome).filter (p ·.2)).map (·.1) = (ts.filter (p ·.run)).map (·.file) := by
  rw [List.filter_map, List.map_map]
  rfl

/-! ### Without a file that could not be loaded -/

theorem getElem?_foldl_ended {state : FileTree × List Job} {run : Option Progress}
    (h : state.2[i]? = some ⟨file, .ended run⟩) (steps : List Nat) :
    (steps.foldl (b.step root) state).2[i]? = some ⟨file, .ended run⟩ := by
  induction steps generalizing state with
  | nil => exact h
  | cons k steps ih =>
    refine ih ?_
    by_cases hk : k = i
    · subst hk
      rwa [step_ended h]
    · rwa [getElem?_step_ne hk]

theorem step_eraseIdx (b : Batch) (root : List Char) (state : FileTree × List Job) {k : Nat}
    (h : k ≠ i) : b.step root (state.1, state.2.eraseIdx i) (Timetable.shift i k) =
      ((b.step root state k).1, (b.step root state k).2.eraseIdx i) := by
  have hget : (state.2.eraseIdx i)[Timetable.shift i k]? = state.2[k]? := by
    rw [List.getElem?_eraseIdx]
    unfold Timetable.shift
    grind
  cases hk : state.2[k]? with
  | none => rw [step_of_none hk, step_of_none (hget.trans hk)]
  | some j =>
    rw [step_eq hk, step_eq (hget.trans hk)]
    unfold Timetable.shift
    split
    · rw [List.eraseIdx_set_gt ‹_›]
    · rw [List.eraseIdx_set_lt (by omega)]

/-- A file that cannot be loaded when it comes up takes no part. -/
theorem after_eraseIdx (hi : files[i]? = some file)
    (hunloaded : ∀ front back, steps = front ++ i :: back → i ∉ front →
      b.runFile? (b.after root t files front).1 file = none) :
    b.after root t (files.eraseIdx i) ((steps.filter (· != i)).map (Timetable.shift i)) =
      ((b.after root t files steps).1, (b.after root t files steps).2.eraseIdx i) := by
  induction steps using List.reverseRecOn with
  | nil => simp [after, List.eraseIdx_map]
  | append_singleton steps k ih =>
    have hsame := ih fun front back hsteps => hunloaded front (back ++ [k]) (by simp [hsteps])
    rw [after_concat]
    by_cases hk : k = i
    · subst hk
      have hfilter : (steps ++ [k]).filter (· != k) = steps.filter (· != k) := by simp
      rw [hfilter, hsame]
      by_cases hmem : k ∈ steps
      · -- it is over
        obtain ⟨front, back, hsteps, hfront⟩ := List.eq_append_cons_of_mem hmem
        have hstart : (b.after root t files front).2[k]? = some ⟨file, .waiting⟩ := by
          rw [getElem?_after_of_notMem hfront, hi]
          rfl
        have hrun := hunloaded front (back ++ [k]) (by simp [hsteps]) hfront
        have hended : (b.after root t files steps).2[k]? = some ⟨file, .ended none⟩ := by
          rw [hsteps, after_append, List.foldl_cons]
          refine getElem?_foldl_ended ?_ back
          rw [getElem?_step_self b root hstart, advance, hrun]
        rw [step_ended hended]
      · have hstart : (b.after root t files steps).2[k]? = some ⟨file, .waiting⟩ := by
          rw [getElem?_after_of_notMem hmem, hi]
          rfl
        rw [step_unloaded hstart (hunloaded steps [] rfl hmem), List.eraseIdx_set_eq]
    · have hfilter : (steps ++ [k]).filter (· != i) = steps.filter (· != i) ++ [k] := by
        simp [hk]
      rw [hfilter, List.map_append, List.map_singleton, after_concat, hsame,
        step_eraseIdx b root _ hk]

end Batch
end ApiProperties

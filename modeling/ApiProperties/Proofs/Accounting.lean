import ApiProperties.Proofs.Confinement
import ApiProperties.Proofs.Turns

/-!
How a batch accounts for its files. Each of the files that the limit leaves has its turn, in which it is
processed or fails, and the result is the record of these turns, whatever the order in which workers
take their steps. If the outputs are kept apart from the files, a turn finds its file as it was at the
start.
-/

set_option autoImplicit false

namespace ApiProperties

open FileTree (Confined)
open ModelFile (Unloaded load)

namespace Batch
variable {b : Batch} {root file : List Char} {t t₁ : FileTree} {files : List (List Char)}
  {x : Turn} {steps : List Nat} {workers : Nat}

/-- How many of the files are taken. -/
def quota (b : Batch) (n : Nat) : Nat := (b.maxFiles.map (min · n)).getD n

theorem limit_eq_take (b : Batch) (files : List (List Char)) :
    b.limit files = files.take (b.quota files.length) := by
  unfold limit quota
  cases b.maxFiles with
  | none => simp
  | some n => simp [List.take_eq_take_iff]

/-! ### Turns apart from each other -/

/-- The file does not lie in the output directory: but for directories that are there already, its way
touches neither this directory nor one that has to be made for it. -/
def Clear (b : Batch) (t : FileTree) (file : List Char) : Prop :=
  ∀ l ∈ t.way file, t.node? l = some .directory ∨
    ¬ t.place b.output <+: l ∧ (l ∈ t.way b.output → (t.node? l).isSome = true)

instance (b : Batch) (t : FileTree) (file : List Char) : Decidable (b.Clear t file) :=
  inferInstanceAs (Decidable (∀ l ∈ _, _))

/-- For a file that is there, its place decides. -/
theorem clear_of_find? (h : (t.find? file).isSome = true)
    (hplace : ¬ t.place b.output <+: t.place file) : b.Clear t file := by
  obtain ⟨n, hn⟩ := Option.isSome_iff_exists.1 h
  obtain ⟨l, hl, hnode⟩ := Option.bind_eq_some_iff.1 hn
  obtain rfl := FileTree.eq_place_of_resolve? hl
  intro k hk
  rcases FileTree.directory_of_mem_way hl hk with hdir | rfl
  · exact .inl hdir
  · exact .inr ⟨hplace, fun _ => by rw [hnode]; rfl⟩

/-- The outputs of the files are placed in the output directory, of which the files keep clear. -/
def Disjoint (b : Batch) (t : FileTree) (root : List Char) (files : List (List Char)) : Prop :=
  ∀ file ∈ files, Path.Inside (Path.outputPath file root b.output) b.output ∧ b.Clear t file

instance (b : Batch) (t : FileTree) (root : List Char) (files : List (List Char)) :
    Decidable (b.Disjoint t root files) :=
  inferInstanceAs (Decidable (∀ file ∈ _, _))

/-- A step changes the files by one write at most. -/
theorem step_cases (b : Batch) (root : List Char) (state : FileTree × List Job) (i : Nat) :
    (b.step root state i).1 = state.1 ∨ ∃ j ∈ state.2, ∃ n, (b.step root state i).1 =
      (state.1.write (Path.outputPath j.file root b.output) n).1 := by
  cases hi : state.2[i]? with
  | none => exact .inl (by rw [step_of_none hi])
  | some j =>
    obtain ⟨file, stage⟩ := j
    cases stage with
    | waiting =>
      cases hrun : b.runFile? state.1 file with
      | none => exact .inl (by rw [step_unloaded hi hrun])
      | some s => exact .inl (by rw [step_load hi hrun])
    | loaded s =>
      refine .inr ⟨_, List.mem_of_getElem? hi, .file (String.ofList (ModelFile.print s.model)), ?_⟩
      cases hsave : ModelFile.save state.1 (Path.outputPath file root b.output) s.model with
      | mk left done =>
        cases done with
        | false =>
          rw [step_unsaved hi hsave]
          exact (congrArg Prod.fst hsave).symm
        | true =>
          rw [step_save hi hsave]
          exact (congrArg Prod.fst hsave).symm
    | ended run => exact .inl (by rw [step_ended hi])

theorem confined_after (houtput : t.Stands b.output)
    (hinside : ∀ file ∈ files, Path.Inside (Path.outputPath file root b.output) b.output)
    (steps : List Nat) :
    Confined (t.place b.output <+: ·) t (b.after root t files steps).1 ∧
      (b.after root t files steps).1.Stands b.output := by
  induction steps using List.reverseRecOn with
  | nil => exact ⟨.refl t, houtput⟩
  | append_singleton steps i ih =>
    obtain ⟨hbefore, hstands⟩ := ih
    rw [after_concat]
    rcases b.step_cases root (b.after root t files steps) i with hsame | ⟨j, hj, n, hwrite⟩
    · rw [hsame]
      exact ⟨hbefore, hstands⟩
    · have hfile : j.file ∈ files := by
        rw [← b.map_file_after root t files steps]
        exact List.mem_map_of_mem hj
      have hwritten := Confined.write_inside hstands (hinside j.file hfile) n
      rw [hwrite]
      refine ⟨hbefore.trans (hwritten.mono fun l hl => ?_), hstands.write _ n⟩
      rwa [FileTree.place_congr hbefore.current] at hl

/-- A turn finds its file as it was at the start. -/
theorem load_loading (hmade : t.makeDirectories b.output = (t₁, true))
    (hdisjoint : b.Disjoint t root files) (hx : x ∈ b.turns root t₁ files steps) :
    load x.loading x.file = load t x.file := by
  obtain ⟨i, file, hi, rfl⟩ := mem_turns.1 hx
  have hclear := (hdisjoint file (List.mem_of_getElem? hi)).2
  have hstart : Confined (t.Open b.output) t t₁ := by
    have hconfined := Confined.makeDirectories t b.output
    rwa [hmade] at hconfined
  have hbefore := (confined_after (FileTree.stands_of_makeDirectories hmade)
    (fun file hfile => (hdisjoint file hfile).1) (steps.takeWhile (· != i))).1
  have hall : Confined (fun l => t.Open b.output l ∨ t₁.place b.output <+: l) t
      (b.turn root t₁ files steps i file).loading :=
    (hstart.mono fun _ => .inl).trans (hbefore.mono fun _ => .inr)
  refine ModelFile.load_congr (hall.read? fun l hl => (hclear l hl).imp_right ?_)
  rintro ⟨hout, hshared⟩ (hopen | hinside)
  · have hsome := hshared hopen.mem_way
    rw [hopen.1] at hsome
    cases hsome
  · rw [FileTree.place_congr hstart.current] at hinside
    exact hout hinside

/-! ### The accounts -/

/-- The result `r` tells what happened to the files that were taken, from the tree `t` on. -/
structure Accounts (b : Batch) (root : List Char) (t : FileTree) (taken : List (List Char))
    (order : Timetable workers taken.length) (r : BatchResult) : Prop where
  processed : r.processed =
    ((b.turns root t taken order.steps).filter (·.run.isSome)).map (·.file)
  failed : r.failed = ((b.turns root t taken order.steps).filter (·.run.isNone)).map (·.file)
  processed_sublist : r.processed.Sublist taken
  failed_sublist : r.failed.Sublist taken
  perm : (r.processed ++ r.failed).Perm taken
  fails : ∀ x ∈ b.turns root t taken order.steps,
    x.run = none ↔ Unloaded x.loading x.file ∨ b.Unsaved root x
  runs : ∀ x ∈ b.turns root t taken order.steps, ∀ s, x.run = some s →
    ∃ m, load x.loading x.file = .ok m ∧ b.synthesis.run? m = some s ∧
      ModelFile.save x.saving (Path.outputPath x.file root b.output) s.model = (x.left, true)
  stats : r.report.stats =
    .sum (((b.turns root t taken order.steps).filterMap (·.run)).map (·.stats))
  renames : r.report.renames =
    ((b.turns root t taken order.steps).filterMap (·.run)).flatMap (·.renames)
  /-- The others take their steps as if the file were not there. -/
  unloaded : ∀ i (h : i < taken.length), ∀ x, (b.turns root t taken order.steps)[i]? = some x →
    Unloaded x.loading x.file → x.left = x.saving ∧
      b.after root t (taken.eraseIdx i) (order.without h).steps =
        ((b.after root t taken order.steps).1, (b.after root t taken order.steps).2.eraseIdx i)

section Accounts
variable (b : Batch) (root : List Char) (t : FileTree) (taken : List (List Char))

theorem sublist_taken (steps : List Nat) (p : Turn → Bool) :
    (((b.turns root t taken steps).filter p).map (·.file)).Sublist taken := by
  have hsub := (List.filter_sublist (p := p) (l := b.turns root t taken steps)).map (·.file)
  rwa [map_file_turns] at hsub

theorem perm_taken (steps : List Nat) :
    (((b.turns root t taken steps).filter (·.run.isSome)).map (·.file) ++
      ((b.turns root t taken steps).filter (·.run.isNone)).map (·.file)).Perm taken := by
  have hperm := (List.filter_append_perm (·.run.isSome) (b.turns root t taken steps)).map (·.file)
  simpa only [List.map_append, map_file_turns, Option.not_isSome] using hperm

theorem accounts_tally (order : Timetable workers taken.length) : b.Accounts root t taken order
    (tally b.synthesis ((b.turns root t taken order.steps).map Turn.outcome)) := by
  have hprocessed : (tally b.synthesis
      ((b.turns root t taken order.steps).map Turn.outcome)).processed =
        ((b.turns root t taken order.steps).filter (·.run.isSome)).map (·.file) :=
    map_filter_outcome _ (·.isSome)
  have hfailed : (tally b.synthesis
      ((b.turns root t taken order.steps).map Turn.outcome)).failed =
        ((b.turns root t taken order.steps).filter (·.run.isNone)).map (·.file) :=
    map_filter_outcome _ (·.isNone)
  have hfinished : finished ((b.turns root t taken order.steps).map Turn.outcome) =
      (b.turns root t taken order.steps).filterMap (·.run) := List.filterMap_map
  refine ⟨hprocessed, hfailed, hprocessed ▸ b.sublist_taken root t taken _ _,
    hfailed ▸ b.sublist_taken root t taken _ _, ?_, fun x hx => ?_, fun x hx s => ?_, ?_, ?_,
    fun i hlt x hx hunloaded => ?_⟩
  · rw [hprocessed, hfailed]
    exact b.perm_taken root t taken _
  · exact (outcome_of_mem order hx).run_eq_none_iff
  · exact (outcome_of_mem order hx).run_eq_some
  · rw [tally, hfinished]
  · rw [tally, hfinished]
  · refine ⟨(outcome_of_mem order (List.mem_of_getElem? hx)).left_of_unloaded hunloaded, ?_⟩
    have hi : taken[i]? = some taken[i] := List.getElem?_eq_getElem hlt
    rw [turns, List.getElem?_mapIdx, hi, Option.map_some, Option.some.injEq] at hx
    subst hx
    refine after_eraseIdx hi fun front back hsteps hfront => runFile?_eq_none.2 ?_
    rwa [loading_turn hsteps hfront] at hunloaded

end Accounts

/-- A batch takes the first files up to its limit, and each of them is listed as processed or as failed,
in order: as failed just in case it cannot be loaded, is not valid, or cannot be saved when its turn
comes. The report adds up the runs of the models that were processed. A file that cannot be loaded
leaves the tree as it is and the others as they would be without it. And if the batch writes apart from
its files, what is loaded is what was there at the start. All of this holds for every number of workers
and for every order in which they take their steps. -/
theorem processFiles_accounts (b : Batch) (t : FileTree) (root : List Char)
    (files : List (List Char)) (machine : Machine)
    (order : Timetable (b.workers machine) (b.limit files).length) (r : BatchResult) (t' : FileTree)
    (h : b.processFiles t root files machine order = (.ok r, t')) :
    b.limit files = files.take (b.quota files.length) ∧
      ∃ t₁, t.makeDirectories b.output = (t₁, true) ∧
        b.Accounts root t₁ (b.limit files) order r ∧
        (b.Disjoint t root (b.limit files) →
          ∀ x ∈ b.turns root t₁ (b.limit files) order.steps, load x.loading x.file = load t x.file) := by
  obtain ⟨t₁, hmade, rfl, -⟩ := processFiles_eq_ok.1 h
  rw [← map_outcome_turns]
  exact ⟨b.limit_eq_take files, t₁, hmade, b.accounts_tally root t₁ _ order,
    fun hdisjoint _ hx => load_loading hmade hdisjoint hx⟩

/-! A batch over a file that is no model and two whose outputs are in each other's way, one of them in
a directory that has the name of the other; and over a file beyond the limit. Whichever output is saved
first is the only one. -/

def bench : FileTree :=
  let text : Node := .file (String.ofList (ModelFile.print knob))
  ⟨[(["in".toList], .directory), (["in".toList, "torn.json".toList], .file "\x7b"),
    (["in".toList, "a.json".toList], .directory),
    (["in".toList, "a.json".toList, "b.json".toList], text), (["x".toList], .directory),
    (["x".toList, "a.json".toList], text)], []⟩

def benchBatch : Batch := { shelfBatch with maxFiles := some 3 }

def benchFiles : List (List Char) :=
  ["in/torn.json".toList, "in/a.json/b.json".toList, "x/a.json".toList, "in/spare.json".toList]

/-- Both are loaded before one of them is saved. -/
def innerFirst : Timetable (benchBatch.workers .single) (benchBatch.limit benchFiles).length :=
  ⟨[0, 0, 1, 2, 1, 2], by decide, by decide⟩

def outerFirst : Timetable (benchBatch.workers .single) (benchBatch.limit benchFiles).length :=
  ⟨[0, 0, 1, 2, 2, 1], by decide, by decide⟩

theorem disjoint_bench : benchBatch.Disjoint bench "in".toList (benchBatch.limit benchFiles) := by
  have hinside : ∀ file ∈ benchBatch.limit benchFiles,
      Path.Inside (Path.outputPath file "in".toList benchBatch.output) benchBatch.output := by decide
  have hplace : ∀ file ∈ benchBatch.limit benchFiles, (bench.find? file).isSome = true ∧
      ¬ bench.place benchBatch.output <+: bench.place file := by decide
  exact fun file hfile =>
    ⟨hinside file hfile, clear_of_find? (hplace file hfile).1 (hplace file hfile).2⟩

/-- With a place for the outputs. -/
def benchReady : FileTree := bench.put ["out".toList] .directory

def benchJobs (torn inner outer : Stage) : List Job :=
  [⟨"in/torn.json".toList, torn⟩, ⟨"in/a.json/b.json".toList, inner⟩, ⟨"x/a.json".toList, outer⟩]

theorem after_bench {s : Progress} (hs : benchBatch.synthesis.run? knob = some s)
    (steps : List Nat) : benchBatch.after "in".toList benchReady (benchBatch.limit benchFiles)
      (0 :: 0 :: 1 :: 2 :: steps) = steps.foldl (benchBatch.step "in".toList)
        (benchReady, benchJobs (.ended none) (.loaded s) (.loaded s)) := by
  have htorn : benchBatch.runFile? benchReady "in/torn.json".toList = none := by
    have hread : benchReady.read? "in/torn.json".toList = some "\x7b" := rfl
    have hload : load benchReady "in/torn.json".toList = .error .malformed := by
      rw [load, hread]
      rfl
    rw [runFile?, hload]
  have hinner : benchBatch.runFile? benchReady "in/a.json/b.json".toList = some s :=
    runFile?_eq_some.2 ⟨knob, load_knob rfl, hs⟩
  have houter : benchBatch.runFile? benchReady "x/a.json".toList = some s :=
    runFile?_eq_some.2 ⟨knob, load_knob rfl, hs⟩
  have h₁ : benchBatch.step "in".toList (benchReady, benchJobs .waiting .waiting .waiting) 0 =
      (benchReady, benchJobs (.ended none) .waiting .waiting) := step_unloaded rfl htorn
  have h₂ : benchBatch.step "in".toList (benchReady, benchJobs (.ended none) .waiting .waiting) 0 =
      (benchReady, benchJobs (.ended none) .waiting .waiting) := step_ended rfl
  have h₃ : benchBatch.step "in".toList (benchReady, benchJobs (.ended none) .waiting .waiting) 1 =
      (benchReady, benchJobs (.ended none) (.loaded s) .waiting) := step_load rfl hinner
  have h₄ : benchBatch.step "in".toList
      (benchReady, benchJobs (.ended none) (.loaded s) .waiting) 2 =
      (benchReady, benchJobs (.ended none) (.loaded s) (.loaded s)) := step_load rfl houter
  change (0 :: 0 :: 1 :: 2 :: steps).foldl (benchBatch.step "in".toList)
    (benchReady, benchJobs .waiting .waiting .waiting) = _
  rw [List.foldl_cons, h₁, List.foldl_cons, h₂, List.foldl_cons, h₃, List.foldl_cons, h₄]

theorem processFiles_bench {t₂ : FileTree} {jobs : List Job}
    (order : Timetable (benchBatch.workers .single) (benchBatch.limit benchFiles).length)
    (hafter : benchBatch.after "in".toList benchReady (benchBatch.limit benchFiles) order.steps =
      (t₂, jobs))
    (hreport : ∀ text, ∃ t₃, t₂.write benchBatch.reportPath (.file text) = (t₃, true)) :
    ∃ t₃, benchBatch.processFiles bench "in".toList benchFiles .single order =
      (.ok (tally benchBatch.synthesis (jobs.map Job.outcome)), t₃) := by
  have hmade : bench.makeDirectories benchBatch.output = (benchReady, true) := rfl
  obtain ⟨t₃, hwrite⟩ := hreport
    (String.ofList (tally benchBatch.synthesis (jobs.map Job.outcome)).encode.print)
  refine ⟨t₃, processFiles_eq_ok.2 ⟨benchReady, hmade, by rw [hafter], ?_⟩⟩
  rw [hafter]
  exact hwrite

theorem processFiles_innerFirst : ∃ r t',
    benchBatch.processFiles bench "in".toList benchFiles .single innerFirst = (.ok r, t') ∧
      r.processed = ["in/a.json/b.json".toList] ∧
      r.failed = ["in/torn.json".toList, "x/a.json".toList] := by
  obtain ⟨s, hs, -⟩ := exists_run_knob
  -- where an output is written does not depend on what is written
  obtain ⟨t₂, hsave, hblocked, hreport⟩ : ∃ t₂,
      ModelFile.save benchReady (Path.outputPath "in/a.json/b.json".toList "in".toList "out".toList)
        s.model = (t₂, true) ∧
      ModelFile.save t₂ (Path.outputPath "x/a.json".toList "in".toList "out".toList)
        s.model = (t₂, false) ∧
      ∀ text, ∃ t₃, t₂.write benchBatch.reportPath (.file text) = (t₃, true) :=
    ⟨_, rfl, rfl, fun text => ⟨_, rfl⟩⟩
  have h₁ : benchBatch.step "in".toList
      (benchReady, benchJobs (.ended none) (.loaded s) (.loaded s)) 1 =
      (t₂, benchJobs (.ended none) (.ended (some s)) (.loaded s)) := step_save rfl hsave
  have h₂ : benchBatch.step "in".toList (t₂, benchJobs (.ended none) (.ended (some s)) (.loaded s)) 2 =
      (t₂, benchJobs (.ended none) (.ended (some s)) (.ended none)) := step_unsaved rfl hblocked
  obtain ⟨t₃, h⟩ := processFiles_bench innerFirst
    ((after_bench hs [1, 2]).trans (by rw [List.foldl_cons, h₁, List.foldl_cons, h₂, List.foldl_nil]))
    hreport
  exact ⟨_, t₃, h, rfl, rfl⟩

theorem processFiles_outerFirst : ∃ r t',
    benchBatch.processFiles bench "in".toList benchFiles .single outerFirst = (.ok r, t') ∧
      r.processed = ["x/a.json".toList] ∧
      r.failed = ["in/torn.json".toList, "in/a.json/b.json".toList] := by
  obtain ⟨s, hs, -⟩ := exists_run_knob
  obtain ⟨t₂, hsave, hblocked, hreport⟩ : ∃ t₂,
      ModelFile.save benchReady (Path.outputPath "x/a.json".toList "in".toList "out".toList)
        s.model = (t₂, true) ∧
      ModelFile.save t₂ (Path.outputPath "in/a.json/b.json".toList "in".toList "out".toList)
        s.model = (t₂, false) ∧
      ∀ text, ∃ t₃, t₂.write benchBatch.reportPath (.file text) = (t₃, true) :=
    ⟨_, rfl, rfl, fun text => ⟨_, rfl⟩⟩
  have h₁ : benchBatch.step "in".toList
      (benchReady, benchJobs (.ended none) (.loaded s) (.loaded s)) 2 =
      (t₂, benchJobs (.ended none) (.loaded s) (.ended (some s))) := step_save rfl hsave
  have h₂ : benchBatch.step "in".toList (t₂, benchJobs (.ended none) (.loaded s) (.ended (some s))) 1 =
      (t₂, benchJobs (.ended none) (.ended none) (.ended (some s))) := step_unsaved rfl hblocked
  obtain ⟨t₃, h⟩ := processFiles_bench outerFirst
    ((after_bench hs [2, 1]).trans (by rw [List.foldl_cons, h₁, List.foldl_cons, h₂, List.foldl_nil]))
    hreport
  exact ⟨_, t₃, h, rfl, rfl⟩

/-- Two workers who save in one order or in the other one: the accounts are different, and both are
right. -/
theorem processFiles_accounts_bench :
    benchBatch.Disjoint bench "in".toList (benchBatch.limit benchFiles) ∧
      (∃ r t', benchBatch.processFiles bench "in".toList benchFiles .single innerFirst = (.ok r, t') ∧
        r.processed = ["in/a.json/b.json".toList] ∧
        r.failed = ["in/torn.json".toList, "x/a.json".toList] ∧
        ∃ t₁, bench.makeDirectories benchBatch.output = (t₁, true) ∧
          benchBatch.Accounts "in".toList t₁ (benchBatch.limit benchFiles) innerFirst r ∧
          ∀ x ∈ benchBatch.turns "in".toList t₁ (benchBatch.limit benchFiles) innerFirst.steps,
            load x.loading x.file = load bench x.file) ∧
      ∃ r t', benchBatch.processFiles bench "in".toList benchFiles .single outerFirst = (.ok r, t') ∧
        r.processed = ["x/a.json".toList] ∧
        r.failed = ["in/torn.json".toList, "in/a.json/b.json".toList] ∧
        ∃ t₁, bench.makeDirectories benchBatch.output = (t₁, true) ∧
          benchBatch.Accounts "in".toList t₁ (benchBatch.limit benchFiles) outerFirst r ∧
          ∀ x ∈ benchBatch.turns "in".toList t₁ (benchBatch.limit benchFiles) outerFirst.steps,
            load x.loading x.file = load bench x.file := by
  refine ⟨disjoint_bench, ?_, ?_⟩
  · obtain ⟨r, t', h, hprocessed, hfailed⟩ := processFiles_innerFirst
    obtain ⟨-, t₁, hmade, haccounts, hload⟩ := processFiles_accounts benchBatch bench "in".toList
      benchFiles .single innerFirst r t' h
    exact ⟨r, t', h, hprocessed, hfailed, t₁, hmade, haccounts, hload disjoint_bench⟩
  · obtain ⟨r, t', h, hprocessed, hfailed⟩ := processFiles_outerFirst
    obtain ⟨-, t₁, hmade, haccounts, hload⟩ := processFiles_accounts benchBatch bench "in".toList
      benchFiles .single outerFirst r t' h
    exact ⟨r, t', h, hprocessed, hfailed, t₁, hmade, haccounts, hload disjoint_bench⟩

end Batch
end ApiProperties

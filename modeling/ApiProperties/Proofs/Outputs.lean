import ApiProperties.Proofs.Saving
import ApiProperties.Proofs.Storable
import ApiProperties.Proofs.Trees
import ApiProperties.Proofs.Workers

/-!
What a batch leaves in its output directory. Every file that was processed has its output at its
place there, and each write leaves the others alone, in whichever order workers write, so that the
outputs can be loaded afterwards: all but one, over which the report may have been written.
-/

set_option autoImplicit false

namespace ApiProperties

open ApiProperties.Path (join)
open FileTree (Below Keeps)

/-! ### Loading -/

namespace Path

theorem ne_nil_of_splitName {name stem extension : List Char}
    (h : splitName name = (stem, some extension)) : stem ≠ [] := by
  unfold splitName at h
  split at h
  · cases h
    simp
  · cases h

theorem exists_stem_of_hasExtension {path : List Char} {extension : String}
    (h : hasExtension (String.ofList path) extension = true) :
    ∃ stem, stem? path = some stem ∧ stem ≠ [] := by
  rw [hasExtension, String.toList_ofList] at h
  split at h
  · rename_i e he
    obtain ⟨name, hname, hsplit⟩ := Option.bind_eq_some_iff.1 he
    refine ⟨(splitName name).1, by rw [stem?, hname]; rfl, ?_⟩
    exact ne_nil_of_splitName (Prod.ext rfl hsplit)
  · cases h

end Path

namespace ModelFile
variable {t : FileTree} {path : List Char} {m : Model}

theorem load_eq_ok : load t path = .ok m ↔ ∃ text m₀, t.read? path = some text ∧
    parse? text.toList = some m₀ ∧ nameAfter path m₀ = m ∧ m.Valid := by
  constructor
  · intro h
    unfold load at h
    split at h
    · cases h
    · rename_i text hread
      split at h
      · cases h
      · rename_i m₀ hparse
        simp only at h
        split at h
        · cases h
        · rename_i hfault
          cases h
          exact ⟨text, m₀, hread, hparse, rfl, hfault⟩
  · rintro ⟨text, m₀, hread, hparse, rfl, hm⟩
    have hfault : m₀.fault? = none := (fault?_nameAfter path m₀).symm.trans hm
    simp [load, hread, hparse, hfault]

theorem compact_of_load (ht : t.WellFormed) (h : load t path = .ok m) :
    m.Compact Decoder.maxDepth := by
  obtain ⟨text, m₀, hread, hparse, rfl, -⟩ := load_eq_ok.1 h
  obtain ⟨l, -, hnode⟩ := FileTree.read?_eq_some.1 hread
  have hlength := ht.length_lt hnode
  have hcompact := compact_of_parse (String.length_toList ▸ Nat.le_of_lt hlength) hparse
  unfold nameAfter
  split
  · exact ⟨hcompact.classCount, hcompact.classes⟩
  · exact hcompact

theorem name_ne_empty_of_load {extension : String} (h : load t path = .ok m)
    (hextension : hasExtension (String.ofList path) extension = true) : m.name ≠ "" := by
  obtain ⟨text, m₀, -, -, rfl, -⟩ := load_eq_ok.1 h
  obtain ⟨stem, hstem, hne⟩ := Path.exists_stem_of_hasExtension hextension
  unfold nameAfter
  split
  · simpa [hstem] using hne
  · rename_i hname
    rintro hempty
    exact hname (by simp [hempty])

end ModelFile

namespace BatchResult

/-- As a model, a report has none of the known fields. -/
theorem parse?_print (r : BatchResult) :
    ModelFile.parse? r.encode.print = some (.empty "") := by
  have hplain : r.encode.Plain fun _ => True := by
    simp [encode, Report.encode, Statistics.encode, RenameRecord.encode]
  rw [ModelFile.parse?, Json.parse_print hplain]
  rfl

end BatchResult

namespace Batch
variable {b : Batch} {t t₁ t₂ t' : FileTree} {input file : List Char} {names : List (List Char)}
  {r : BatchResult} {state : FileTree × List Job} {i : Nat} {j : Job}

theorem runFile?_eq_some {s : Progress} : b.runFile? t file = some s ↔
    ∃ m, ModelFile.load t file = .ok m ∧ b.synthesis.run? m = some s := by
  unfold runFile?
  cases ModelFile.load t file <;> simp

/-! ### The run of a batch -/

/-- The places of outputs. -/
abbrev Inside (b : Batch) (t : FileTree) (l : Location) : Prop := t.place b.output <+: l

/-- Where the output of the file belongs, there is what its run in the tree `t` leaves. -/
structure Held (b : Batch) (t : FileTree) (input : List Char) (t₁ : FileTree)
    (names : List (List Char)) (file : List Char) (s : Progress) : Prop where
  collected : file ∈ collectFiles t modelExtensions input
  below : t.Below input names file
  run : b.runFile? t file = some s
  read : t₁.read? (join b.output (joinPieces '/' names)) =
    some (String.ofList (ModelFile.print s.model))

/-- What holds after some of the steps: the tree has changed only where outputs are, runs that wait are
those of the files as they were, and the outputs of files that are over are there. -/
structure Ongoing (b : Batch) (t : FileTree) (input : List Char) (state : FileTree × List Job) :
    Prop where
  keeps : Keeps (b.Inside t) t state.1
  collected : ∀ j ∈ state.2, j.file ∈ collectFiles t modelExtensions input
  loaded : ∀ j ∈ state.2, ∀ s, j.stage = .loaded s → b.runFile? t j.file = some s
  outputs : ∀ j ∈ state.2, ∀ s, j.stage = .ended (some s) →
    ∃ names, b.Held t input state.1 names j.file s

theorem not_inside_of_below (hapart : t.Apart input b.output) (h : t.Below input names file) :
    ¬ b.Inside t (t.place file) := by
  intro hinside
  rw [Inside, h.place_eq] at hinside
  rcases List.prefix_or_prefix_of_prefix hinside (List.prefix_append _ names) with hp | hp
  · exact hapart.2 hp
  · exact hapart.1 hp

theorem place_output (hcurrent : t₁.current = t.current) (h : t.Below input names file) :
    t₁.place (join b.output (joinPieces '/' names)) = t.place b.output ++ names :=
  (FileTree.place_congr hcurrent _).trans
    (FileTree.place_join t b.output h.nonempty h.ordinary)

theorem Held.of_written {s : Progress} {others : List (List Char)} {path : List Char} {n : Node}
    (h : b.Held t input t₁ names file s) (hcurrent : t₁.current = t.current)
    (hwritten : t₁.Written path n t₂ (t.place b.output ++ others)) (hne : names ≠ others) :
    b.Held t input t₂ names file s := by
  refine { h with read := hwritten.keeps.read? h.read ?_ }
  rw [place_output hcurrent h.below]
  exact fun heq => hne (List.append_cancel_left heq)

/-- An output comes to stand where none was, or where one of the same file was. -/
theorem Held.of_saved {s s' : Progress} {file' path : List Char} {names' : List (List Char)}
    {n : Node} (h : b.Held t input t₁ names' file' s') (hnew : b.Held t input t₂ names file s)
    (hcurrent : t₁.current = t.current)
    (hwritten : t₁.Written path n t₂ (t.place b.output ++ names)) :
    b.Held t input t₂ names' file' s' := by
  by_cases hnames : names' = names
  · subst hnames
    obtain rfl : file' = file := h.below.eq.trans hnew.below.eq.symm
    obtain rfl : s' = s := Option.some.inj (h.run.symm.trans hnew.run)
    exact hnew
  · exact h.of_written hcurrent hwritten hnames

/-- One job goes on, and what was said of the others can still be said. -/
theorem Ongoing.set (h : b.Ongoing t input state) (hj : j.file ∈ collectFiles t modelExtensions input)
    (hkeeps : Keeps (b.Inside t) t t₂)
    (hheld : ∀ names file s, b.Held t input state.1 names file s → b.Held t input t₂ names file s)
    (hloaded : ∀ s, j.stage = .loaded s → b.runFile? t j.file = some s)
    (hended : ∀ s, j.stage = .ended (some s) → ∃ names, b.Held t input t₂ names j.file s) :
    b.Ongoing t input (t₂, state.2.set i j) where
  keeps := hkeeps
  collected j' hj' := by
    rcases List.mem_or_eq_of_mem_set hj' with hj' | rfl
    · exact h.collected j' hj'
    · exact hj
  loaded j' hj' s hs := by
    rcases List.mem_or_eq_of_mem_set hj' with hj' | rfl
    · exact h.loaded j' hj' s hs
    · exact hloaded s hs
  outputs j' hj' s hs := by
    rcases List.mem_or_eq_of_mem_set hj' with hj' | rfl
    · exact (h.outputs j' hj' s hs).imp fun names hnames => hheld names j'.file s hnames
    · exact hended s hs

section Step
variable (ht : t.WellFormed) (hdir : t.isDirectory input = true)
  (hapart : t.Apart input b.output)
include ht hdir hapart

/-- Inputs are read as they were. -/
theorem runFile?_of_keeps (hkeeps : Keeps (b.Inside t) t t₁) (h : t.Below input names file)
    {s : Progress} (hrun : b.runFile? t₁ file = some s) : b.runFile? t file = some s := by
  obtain ⟨m, hload, hm⟩ := runFile?_eq_some.1 hrun
  obtain ⟨text, m₀, hread, hrest⟩ := ModelFile.load_eq_ok.1 hload
  have hread' := h.read?_of_keeps ht hdir hkeeps (not_inside_of_below hapart h) hread
  exact runFile?_eq_some.2 ⟨m, ModelFile.load_eq_ok.2 ⟨text, m₀, hread', hrest⟩, hm⟩

theorem Ongoing.step (h : b.Ongoing t input state) (i : Nat) :
    b.Ongoing t input (b.step input state i) := by
  cases hi : state.2[i]? with
  | none => rwa [step_of_none hi]
  | some j =>
    have hj := List.mem_of_getElem? hi
    obtain ⟨file, stage⟩ := j
    have hcollected : file ∈ collectFiles t modelExtensions input := h.collected _ hj
    obtain ⟨-, hinput, -⟩ := FileTree.exists_of_isDirectory hdir
    obtain ⟨names, hbelow, -⟩ := FileTree.exists_below_of_mem ht hdir hcollected
    cases stage with
    | waiting =>
      cases hrun : b.runFile? state.1 file with
      | none =>
        rw [step_unloaded hi hrun]
        exact h.set hcollected h.keeps (fun _ _ _ hheld => hheld) nofun nofun
      | some s =>
        have hrun' := runFile?_of_keeps ht hdir hapart h.keeps hbelow hrun
        rw [step_load hi hrun]
        refine h.set hcollected h.keeps (fun _ _ _ hheld => hheld) ?_ nofun
        rintro s' ⟨⟩
        exact hrun'
    | loaded s =>
      have hrun : b.runFile? t file = some s := h.loaded _ hj s rfl
      cases hsave : ModelFile.save state.1 (join b.output (joinPieces '/' names)) s.model with
      | mk t₂ done =>
        rw [← hbelow.outputPath_eq hinput] at hsave
        cases done with
        | false =>
          have hkeeps : Keeps (fun _ => False) state.1 t₂ := Keeps.write_of_false hsave
          rw [step_unsaved hi hsave]
          exact h.set hcollected (h.keeps.trans (Keeps.write_of_false hsave))
            (fun _ _ _ hheld => { hheld with read := hkeeps.read? hheld.read not_false }) nofun nofun
        | true =>
          rw [step_save hi hsave]
          rw [hbelow.outputPath_eq hinput] at hsave
          obtain ⟨l, hwritten⟩ := FileTree.written_of_write hsave
          obtain rfl : l = t.place b.output ++ names :=
            hwritten.eq_place.trans (place_output h.keeps.current hbelow)
          have hnew : b.Held t input t₂ names file s := ⟨hcollected, hbelow, hrun, hwritten.read?⟩
          have hinside : Keeps (b.Inside t) state.1 t₂ :=
            hwritten.keeps.mono fun _ hl => hl ▸ List.prefix_append _ names
          refine h.set hcollected (h.keeps.trans hinside)
            (fun _ _ _ hheld => hheld.of_saved hnew h.keeps.current hwritten) nofun ?_
          rintro s' ⟨⟩
          exact ⟨names, hnew⟩
    | ended run => rwa [step_ended hi]

theorem Ongoing.foldl (h : b.Ongoing t input state) (steps : List Nat) :
    b.Ongoing t input (steps.foldl (b.step input) state) := by
  induction steps generalizing state with
  | nil => exact h
  | cons i steps ih => exact ih (h.step ht hdir hapart i)

end Step

theorem mem_of_mem_limit {files : List (List Char)} (h : file ∈ b.limit files) : file ∈ files := by
  unfold limit at h
  split at h
  · exact List.mem_of_mem_take h
  · exact h

/-! ### What is loaded afterwards -/

theorem ordinary_reportName : ∀ name ∈ [reportName], Path.Ordinary name := by decide

theorem place_join_reportName (t : FileTree) (base : List Char) :
    t.place (join base reportName) = t.place base ++ [reportName] := by
  have h := FileTree.place_join t base (List.cons_ne_nil reportName []) ordinary_reportName
  rwa [joinPieces_singleton] at h

theorem fileName?_reportPath (b : Batch) : Path.fileName? b.reportPath = some reportName := by
  have h := Path.fileName?_join b.output (List.cons_ne_nil reportName []) ordinary_reportName
  rw [joinPieces_singleton] at h
  exact h

theorem eq_join_reportName_iff (h : t.Below input names file) :
    file = join input reportName ↔ names = [reportName] := by
  constructor
  · intro heq
    have hplace := place_join_reportName t input
    rw [← heq, h.place_eq] at hplace
    exact List.append_cancel_left hplace
  · rintro rfl
    exact h.eq

theorem load_reportPath {t₂ : FileTree}
    (h : t₂.write b.reportPath (.file (String.ofList r.encode.print)) = (t', true)) :
    ModelFile.load t' b.reportPath = .ok (.empty "synthesis_report") := by
  obtain ⟨l, hwritten⟩ := FileTree.written_of_write h
  have hstem : Path.stem? b.reportPath = some "synthesis_report".toList := by
    rw [Path.stem?, b.fileName?_reportPath]
    decide
  refine ModelFile.load_eq_ok.2 ⟨_, .empty "", hwritten.read?, ?_, ?_, by decide⟩
  · rw [String.toList_ofList]
    exact r.parse?_print
  · rw [ModelFile.nameAfter, hstem]
    decide

/-- A batch over a directory goes through the files below it. -/
theorem processInput_eq_ok {machine : Machine}
    {order : Timetable (b.workers machine) (b.limit (collectFiles t modelExtensions input)).length}
    (hdir : t.isDirectory input = true) : b.processInput t input machine order = (.ok r, t') ↔
      b.processFiles t input (collectFiles t modelExtensions input) machine order = (.ok r, t') := by
  rw [processInput, if_pos hdir]

theorem start_stage {files : List (List Char)} (hj : j ∈ files.map Job.start) : j.file ∈ files ∧
    j.stage = .waiting := by
  obtain ⟨file, hfile, rfl⟩ := List.mem_map.1 hj
  exact ⟨hfile, rfl⟩

/-- A file is processed when its job is over with a run. -/
theorem exists_job_of_mem {y : Synthesis} {jobs : List Job}
    (h : file ∈ (tally y (jobs.map Job.outcome)).processed) :
    ∃ j ∈ jobs, j.file = file ∧ ∃ s, j.stage = .ended (some s) := by
  obtain ⟨⟨file', run⟩, hmem, rfl⟩ := List.mem_map.1 h
  obtain ⟨hmem, hsome⟩ := List.mem_filter.1 hmem
  obtain ⟨j, hj, hout⟩ := List.mem_map.1 hmem
  obtain ⟨s, rfl⟩ := Option.isSome_iff_exists.1 hsome
  unfold Job.outcome at hout
  split at hout
  · rename_i hstage
    cases hout
    exact ⟨j, hj, rfl, s, hstage⟩
  · cases hout
  · cases hout

/-- What is loaded of an output that nothing was written over. -/
theorem Held.load {s : Progress} (h : b.Held t input t' names file s) (ht : t.WellFormed)
    (hdir : t.isDirectory input = true) :
    ModelFile.load t' (join b.output (joinPieces '/' names)) = .ok s.model := by
  obtain ⟨m, hload, hrun⟩ := runFile?_eq_some.1 h.run
  obtain ⟨-, -, -, -, -, hm⟩ := ModelFile.load_eq_ok.1 hload
  obtain ⟨-, -, extension, -, hextension⟩ := FileTree.exists_below_of_mem ht hdir h.collected
  have hname := ModelFile.name_ne_empty_of_load hload hextension
  obtain ⟨hcompact, hvalid, hsame⟩ := (ModelFile.compact_of_load ht hload).run? hm hrun
  have hfits : s.model.encode.Fits Decoder.maxDepth := Model.Compact.fits (b := 117) hcompact hvalid
  rw [ModelFile.load_of_read h.read hvalid hfits, ModelFile.nameAfter, hsame,
    if_neg (by simpa using hname)]

/-- Each output holds the model that its file gave, unless the file has the name of the report and
lies in the input directory itself: there the report is found. -/
theorem load_outputPath (b : Batch) (t : FileTree) (input : List Char) (ht : t.WellFormed)
    (hdir : t.isDirectory input = true) (hapart : t.Apart input b.output) (machine : Machine)
    (order : Timetable (b.workers machine) (b.limit (collectFiles t modelExtensions input)).length)
    (r : BatchResult) (t' : FileTree) (h : b.processInput t input machine order = (.ok r, t')) :
    ∀ file ∈ r.processed, ∃ m s, ModelFile.load t file = .ok m ∧ b.synthesis.run? m = some s ∧
      ModelFile.load t' (Path.outputPath file input b.output) =
        .ok (if file = join input reportName then .empty "synthesis_report" else s.model) := by
  obtain ⟨t₁, hmade, hresult, hreport⟩ := processFiles_eq_ok.1 ((processInput_eq_ok hdir).1 h)
  have hkeeps : Keeps (b.Inside t) t t₁ := by
    have hkeeps := Keeps.makeDirectories (S := b.Inside t) t b.output
    rwa [hmade] at hkeeps
  have hstart : b.Ongoing t input
      (t₁, (b.limit (collectFiles t modelExtensions input)).map Job.start) := by
    refine ⟨hkeeps, fun j hj => mem_of_mem_limit (start_stage hj).1, fun j hj s hs => ?_,
      fun j hj s hs => ?_⟩
    · cases (start_stage hj).2.symm.trans hs
    · cases (start_stage hj).2.symm.trans hs
  have hdone : b.Ongoing t input
      (b.after input t₁ (b.limit (collectFiles t modelExtensions input)) order.steps) :=
    hstart.foldl ht hdir hapart order.steps
  obtain ⟨l, hwritten⟩ := FileTree.written_of_write hreport
  obtain rfl : l = t.place b.output ++ [reportName] := by
    rw [hwritten.eq_place, FileTree.place_congr hdone.keeps.current]
    exact place_join_reportName t b.output
  intro file hfile
  rw [← hresult] at hfile
  obtain ⟨j, hj, rfl, s, hstage⟩ := exists_job_of_mem hfile
  obtain ⟨names, hheld⟩ := hdone.outputs j hj s hstage
  obtain ⟨m, hload, hrun⟩ := runFile?_eq_some.1 hheld.run
  obtain ⟨-, hinput, -⟩ := FileTree.exists_of_isDirectory hdir
  have hnames := eq_join_reportName_iff hheld.below
  refine ⟨m, s, hload, hrun, ?_⟩
  rw [hheld.below.outputPath_eq hinput]
  by_cases hreported : names = [reportName]
  · rw [if_pos (hnames.2 hreported), hreported]
    exact load_reportPath hreport
  · rw [if_neg (mt hnames.1 hreported)]
    exact (hheld.of_written hdone.keeps.current hwritten hreported).load ht hdir

/-! A batch over two files with one model, of which one file has the name of the report. -/

def knob : Model := .ofMembers [Method.plain "getAngle" (.plain (.builtin .int))] []

def shelf : FileTree :=
  let text : Node := .file (String.ofList (ModelFile.print knob))
  ⟨[(["in".toList], .directory), (["in".toList, "dials".toList], .directory),
    (["in".toList, "dials".toList, "knob.json".toList], text), (["in".toList, reportName], text)], []⟩

def shelfBatch : Batch := ⟨.withoutVerbs, none, some 2, "out".toList⟩

theorem load_knob (hread : t.read? file = some (String.ofList (ModelFile.print knob))) :
    ModelFile.load t file = .ok knob := by
  have hm : knob.Valid := by decide
  have hfits : knob.encode.Fits Decoder.maxDepth := by
    refine ⟨by decide, ?_⟩
    simp [knob, Model.ofMembers, Model.encode, Class.encode, Class.empty, Method.encode, Method.plain,
      QualifiedType.encode, QualifiedType.plain, encodeQualified, TypeExpr.encode, wordLimit]
  rw [ModelFile.load_of_read hread hm hfits, ModelFile.nameAfter, if_neg (by decide)]

theorem exists_run_knob : ∃ s, shelfBatch.synthesis.run? knob = some s ∧ s.model.name = "unit" := by
  have hm : knob.Valid := by decide
  obtain ⟨s, hs, -, hout, -⟩ := hm.run?_classes shelfBatch.synthesis
  exact ⟨s, hs, congrArg (·.name) hout⟩

theorem wellFormed_shelf : shelf.WellFormed := by
  have hlength : (String.ofList (ModelFile.print knob)).length < wordLimit := by
    rw [String.length_ofList]
    decide +kernel
  refine ⟨by decide, by decide, ?_⟩
  simpa [shelf] using hlength

theorem collectFiles_shelf : collectFiles shelf modelExtensions "in".toList =
    ["in/dials/knob.json".toList, "in/synthesis_report.json".toList] := by
  have hresolve : shelf.resolve? "in".toList = some ["in".toList] := by decide
  have hfile : shelf.isFile "in".toList = false := by decide
  have hbelow : shelf.below ["in".toList] = (shelf.entries.drop 1).map fun e => (e.1.drop 1, e.2) :=
    List.mergeSort_of_pairwise (by decide)
  rw [collectFiles, hfile, FileTree.walk, hresolve]
  simp only [hbelow]
  decide

theorem limit_shelf : shelfBatch.limit (collectFiles shelf modelExtensions "in".toList) =
    ["in/dials/knob.json".toList, "in/synthesis_report.json".toList] :=
  collectFiles_shelf

/-- The second file is loaded first and saved last. -/
def shelfOrder : Timetable (shelfBatch.workers .single)
    (shelfBatch.limit (collectFiles shelf modelExtensions "in".toList)).length where
  steps := [1, 0, 0, 1]
  twice := by rw [limit_shelf]; decide
  hands := by decide

theorem processInput_shelf : ∃ r t',
    shelfBatch.processInput shelf "in".toList .single shelfOrder = (.ok r, t') ∧
      r.processed = ["in/dials/knob.json".toList, "in/synthesis_report.json".toList] := by
  have hdir : shelf.isDirectory "in".toList = true := by decide
  let t₁ := shelf.put ["out".toList] .directory
  have hmade : shelf.makeDirectories "out".toList = (t₁, true) := rfl
  obtain ⟨s, hs, -⟩ := exists_run_knob
  have hrun₁ : shelfBatch.runFile? t₁ "in/dials/knob.json".toList = some s :=
    runFile?_eq_some.2 ⟨knob, load_knob rfl, hs⟩
  have hrun₂ : shelfBatch.runFile? t₁ "in/synthesis_report.json".toList = some s :=
    runFile?_eq_some.2 ⟨knob, load_knob rfl, hs⟩
  -- where the outputs are written does not depend on what is written
  obtain ⟨t₂, t₃, hsave₁, hsave₂, hreport⟩ : ∃ t₂ t₃,
      ModelFile.save t₁ (Path.outputPath "in/dials/knob.json".toList "in".toList "out".toList)
        s.model = (t₂, true) ∧
      ModelFile.save t₂ (Path.outputPath "in/synthesis_report.json".toList "in".toList "out".toList)
        s.model = (t₃, true) ∧
      ∀ text, ∃ t₄, t₃.write shelfBatch.reportPath (.file text) = (t₄, true) :=
    ⟨_, _, rfl, rfl, fun text => ⟨_, rfl⟩⟩
  have hafter : shelfBatch.after "in".toList t₁
      (shelfBatch.limit (collectFiles shelf modelExtensions "in".toList)) shelfOrder.steps =
        (t₃, [⟨"in/dials/knob.json".toList, .ended (some s)⟩,
          ⟨"in/synthesis_report.json".toList, .ended (some s)⟩]) := by
    have hload₂ : shelfBatch.step "in".toList
        (t₁, ["in/dials/knob.json".toList, "in/synthesis_report.json".toList].map .start) 1 =
          (t₁, [⟨"in/dials/knob.json".toList, .waiting⟩,
            ⟨"in/synthesis_report.json".toList, .loaded s⟩]) := step_load rfl hrun₂
    have hload₁ : shelfBatch.step "in".toList (t₁, [⟨"in/dials/knob.json".toList, .waiting⟩,
        ⟨"in/synthesis_report.json".toList, .loaded s⟩]) 0 =
          (t₁, [⟨"in/dials/knob.json".toList, .loaded s⟩,
            ⟨"in/synthesis_report.json".toList, .loaded s⟩]) := step_load rfl hrun₁
    have hsaved₁ : shelfBatch.step "in".toList (t₁, [⟨"in/dials/knob.json".toList, .loaded s⟩,
        ⟨"in/synthesis_report.json".toList, .loaded s⟩]) 0 =
          (t₂, [⟨"in/dials/knob.json".toList, .ended (some s)⟩,
            ⟨"in/synthesis_report.json".toList, .loaded s⟩]) := step_save rfl hsave₁
    have hsaved₂ : shelfBatch.step "in".toList (t₂, [⟨"in/dials/knob.json".toList, .ended (some s)⟩,
        ⟨"in/synthesis_report.json".toList, .loaded s⟩]) 1 =
          (t₃, [⟨"in/dials/knob.json".toList, .ended (some s)⟩,
            ⟨"in/synthesis_report.json".toList, .ended (some s)⟩]) := step_save rfl hsave₂
    change shelfBatch.after _ _ _ [1, 0, 0, 1] = _
    rw [limit_shelf, after, List.foldl_cons, hload₂, List.foldl_cons, hload₁, List.foldl_cons,
      hsaved₁, List.foldl_cons, hsaved₂, List.foldl_nil]
  obtain ⟨t₄, hwrite⟩ := hreport (String.ofList (tally shelfBatch.synthesis
    [("in/dials/knob.json".toList, some s), ("in/synthesis_report.json".toList, some s)]).encode.print)
  refine ⟨_, t₄, (processInput_eq_ok hdir).2 (processFiles_eq_ok.2 ⟨t₁, hmade, rfl, ?_⟩), ?_⟩
  · rw [hafter]
    exact hwrite
  · rw [hafter]
    rfl

theorem load_outputPath_shelf : shelf.WellFormed ∧ shelf.isDirectory "in".toList = true ∧
    shelf.Apart "in".toList shelfBatch.output ∧
    ∃ r t', shelfBatch.processInput shelf "in".toList .single shelfOrder = (.ok r, t') ∧
      r.processed = ["in/dials/knob.json".toList, "in/synthesis_report.json".toList] ∧
      ∀ file ∈ r.processed, ∃ m s, ModelFile.load shelf file = .ok m ∧
        shelfBatch.synthesis.run? m = some s ∧
        ModelFile.load t' (Path.outputPath file "in".toList shelfBatch.output) =
          .ok (if file = join "in".toList reportName then .empty "synthesis_report" else s.model) := by
  have hdir : shelf.isDirectory "in".toList = true := by decide
  have hapart : shelf.Apart "in".toList shelfBatch.output := by decide
  obtain ⟨r, t', h, hprocessed⟩ := processInput_shelf
  exact ⟨wellFormed_shelf, hdir, hapart, r, t', h, hprocessed,
    load_outputPath shelfBatch shelf _ wellFormed_shelf hdir hapart .single shelfOrder r t' h⟩

/-- The model of a file that has the name of the report cannot be loaded afterwards. -/
theorem output_overwritten_shelf :
    ¬ ∀ (b : Batch) (t : FileTree) (input : List Char) (machine : Machine)
      (order : Timetable (b.workers machine)
        (b.limit (collectFiles t modelExtensions input)).length) (r : BatchResult) (t' : FileTree),
      t.WellFormed → t.isDirectory input = true → t.Apart input b.output →
      b.processInput t input machine order = (.ok r, t') →
      ∀ file ∈ r.processed, ∃ m s, ModelFile.load t file = .ok m ∧ b.synthesis.run? m = some s ∧
        ModelFile.load t' (Path.outputPath file input b.output) = .ok s.model := by
  intro hkept
  have hdir : shelf.isDirectory "in".toList = true := by decide
  obtain ⟨r, t', h, hprocessed⟩ := processInput_shelf
  obtain ⟨m, s, hload, hrun, hout⟩ := hkept shelfBatch shelf "in".toList .single shelfOrder r t'
    wellFormed_shelf hdir (by decide) h "in/synthesis_report.json".toList
    (by rw [hprocessed]; decide)
  obtain ⟨t₁, -, -, hreport⟩ := processFiles_eq_ok.1 ((processInput_eq_ok hdir).1 h)
  have hpath : Path.outputPath "in/synthesis_report.json".toList "in".toList shelfBatch.output =
      shelfBatch.reportPath := by decide
  rw [hpath, load_reportPath hreport] at hout
  have hname : s.model.name = "synthesis_report" := congrArg (·.name) (Except.ok.inj hout).symm
  obtain rfl : knob = m := Except.ok.inj ((load_knob rfl).symm.trans hload)
  obtain ⟨s', hrun', hunit⟩ := exists_run_knob
  obtain rfl : s' = s := Option.some.inj (hrun'.symm.trans hrun)
  rw [hunit] at hname
  exact absurd hname (by decide)

end Batch
end ApiProperties

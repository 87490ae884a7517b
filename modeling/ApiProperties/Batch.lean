import ApiProperties.ModelFile
import ApiProperties.Settings.Toml
import ApiProperties.Synthesis.Encoding
import ApiProperties.Timetable

/-!
Processing model files: each file is loaded, put through the synthesis and written to its place below
the output directory. Workers share the files between them, so that the steps of files mix; loading
is one step and saving is another one. A file that fails is reported and does not touch the others.
What came of the files is collected in their order, and the report is written last.
-/

set_option autoImplicit false

namespace ApiProperties

/-- The files that are taken for models when a directory is given. -/
def modelExtensions : List String := ["json"]

/-- The file itself, or the files below a directory that have one of the extensions. -/
def collectFiles (t : FileTree) (extensions : List String) (input : List Char) : List (List Char) :=
  if t.isFile input then [input]
  else
    let paths := (t.walk input).map (·.1)
    paths.filter fun p => extensions.any (hasExtension (String.ofList p))

structure Batch where
  synthesis : Synthesis
  maxFiles : Option Nat
  threads : Option Nat
  output : List Char

inductive BatchError where
  | noDirectory (path : List Char)
  | notWritten (path : List Char)
  deriving DecidableEq, Repr

structure BatchResult where
  report : Report
  processed : List (List Char)
  failed : List (List Char)
  deriving DecidableEq, Repr

namespace BatchResult

def empty (y : Synthesis) : BatchResult := ⟨.empty y, [], []⟩

/-- Takes in what came of a file. -/
def add (r : BatchResult) : List Char × Option Progress → BatchResult
  | (file, some s) => { r with report := r.report.add s, processed := r.processed ++ [file] }
  | (file, none) => { r with failed := r.failed ++ [file] }

open Json in
def encode (r : BatchResult) : Json :=
  ofFields [
    ("report", r.report.encode),
    ("processed_files", ofList (fun p => ofString (String.ofList p)) r.processed),
    ("error_file_paths", ofList (fun p => ofString (String.ofList p)) r.failed)]

end BatchResult

/-- How far a batch is with a file: it waits to be loaded, or the run of its model waits to be saved, or
it is over, and unless something has failed there is a run. -/
inductive Stage where
  | waiting
  | loaded (s : Progress)
  | ended (run : Option Progress)
  deriving DecidableEq, Repr

structure Job where
  file : List Char
  stage : Stage
  deriving DecidableEq, Repr

namespace Job

def start (file : List Char) : Job := ⟨file, .waiting⟩

def outcome (j : Job) : List Char × Option Progress :=
  match j.stage with
  | .ended run => (j.file, run)
  | .waiting | .loaded _ => (j.file, none)

end Job

namespace Batch

def ofSettings (s : Settings) (output : List Char) : Batch :=
  { synthesis := ⟨s.useHeuristics, .builtin⟩, maxFiles := s.maxFiles, threads := s.threads, output }

/-- If nothing is said of the workers, one processor is left to others. -/
def workers (b : Batch) (machine : Machine) : Nat :=
  match b.threads with
  | none => max 1 (machine.processors - 1)
  | some 0 => machine.choice
  | some n => n

theorem workers_pos (b : Batch) (machine : Machine) : 0 < b.workers machine := by
  unfold workers
  split
  · exact Nat.lt_of_lt_of_le Nat.one_pos (Nat.le_max_left ..)
  · exact machine.choice_pos
  · exact Nat.pos_of_ne_zero ‹_›

def reportName : List Char := "synthesis_report.json".toList

def reportPath (b : Batch) : List Char := Path.join b.output reportName

def limit (b : Batch) (files : List (List Char)) : List (List Char) :=
  match b.maxFiles with
  | some n => files.take n
  | none => files

/-- What the synthesis does to the model of one file. -/
def runFile? (b : Batch) (t : FileTree) (file : List Char) : Option Progress :=
  match ModelFile.load t file with
  | .ok m => b.synthesis.run? m
  | .error _ => none

/-- The next step with a file. -/
def advance (b : Batch) (root : List Char) (t : FileTree) (j : Job) : FileTree × Job :=
  match j.stage with
  | .waiting =>
    match b.runFile? t j.file with
    | some s => (t, { j with stage := .loaded s })
    | none => (t, { j with stage := .ended none })
  | .loaded s =>
    match ModelFile.save t (Path.outputPath j.file root b.output) s.model with
    | (t, true) => (t, { j with stage := .ended (some s) })
    | (t, false) => (t, { j with stage := .ended none })
  | .ended _ => (t, j)

/-- The next step with the file at this place. -/
def step (b : Batch) (root : List Char) (state : FileTree × List Job) (i : Nat) :
    FileTree × List Job :=
  match state.2[i]? with
  | some j =>
    let (t, j) := b.advance root state.1 j
    (t, state.2.set i j)
  | none => state

/-- The files and the jobs after these steps. -/
def after (b : Batch) (root : List Char) (t : FileTree) (files : List (List Char))
    (steps : List Nat) : FileTree × List Job :=
  steps.foldl (b.step root) (t, files.map Job.start)

/-- The result, unless there is no place for the outputs or for the report, and the files afterwards:
outputs that were written stay when the report cannot be. The order is that of the workers' steps; in
whichever it is, what came of the files is collected in the order of the files. -/
def processFiles (b : Batch) (t : FileTree) (root : List Char) (files : List (List Char))
    (machine : Machine := .single)
    (order : Timetable (b.workers machine) (b.limit files).length := .oneByOne (b.workers_pos _)) :
    Except BatchError BatchResult × FileTree :=
  match t.makeDirectories b.output with
  | (t, false) => (.error (.noDirectory b.output), t)
  | (t, true) =>
    let (t, jobs) := b.after root t (b.limit files) order.steps
    let r := (jobs.map Job.outcome).foldl BatchResult.add (.empty b.synthesis)
    match t.write b.reportPath (.file (String.ofList r.encode.print)) with
    | (t, true) => (.ok r, t)
    | (t, false) => (.error (.notWritten b.reportPath), t)

/-- A directory with everything below it, or a single file, whose output goes straight into the
output directory. -/
def processInput (b : Batch) (t : FileTree) (input : List Char) (machine : Machine := .single)
    (order : Timetable (b.workers machine) (b.limit (collectFiles t modelExtensions input)).length :=
      .oneByOne (b.workers_pos _)) :
    Except BatchError BatchResult × FileTree :=
  let root := if t.isDirectory input then input else (Path.parent? input).getD input
  b.processFiles t root (collectFiles t modelExtensions input) machine order

end Batch
end ApiProperties

import ApiProperties.CommandLine

/-!
The program `accessor-synth`. It reads what the arguments name into a `FileTree`, runs the command on
it, and writes to the disk what the run has changed.
-/

set_option autoImplicit false

namespace ApiProperties.Disk

/-- No path is deeper: it has at most this many bytes. -/
def maxDepth : Nat := 4096

def entry (l : Location) : IO.FS.DirEntry :=
  ⟨String.ofList ('/' :: joinPieces '/' l.dropLast), String.ofList (l.getLast?.getD [])⟩

/-- What is at a location; a file that cannot be read counts as one without a text. -/
def node? (l : Location) : IO (Option Node) := do
  let path := (entry l).path
  if ← path.isDir then pure (some .directory)
  else if ← path.pathExists then
    try
      match String.fromUTF8? (← IO.FS.readBinFile path) with
      | some text => pure (some (.file text))
      | none => pure (some .binary)
    catch _ => pure (some .binary)
  else pure none

/-- Adds a location and everything below it. -/
def load : Nat → FileTree → Location → IO FileTree
  | 0, t, _ => pure t
  | depth + 1, t, l => do
    match ← node? l with
    | none => pure t
    | some .directory =>
      let names := (← (entry l).path.readDir).toList.map fun e => e.fileName.toList
      names.foldlM (fun t name => load depth t (l ++ [name])) (t.put l .directory)
    | some n => pure (t.put l n)

/-- Adds what a path passes through. -/
def loadAlong (t : FileTree) (path : List Char) : IO FileTree := do
  let step (state : FileTree × Location) (piece : List Char) : IO (FileTree × Location) := do
    let l := FileTree.follow state.2 piece
    match ← node? l with
    | some n => pure (state.1.put l n, l)
    | none => pure (state.1, l)
  let (t, _) ← (pieces '/' path).foldlM step (t, t.start path)
  pure t

/-- Adds what a path passes through and everything below it. -/
def loadPath (t : FileTree) (path : List Char) : IO FileTree := do
  let t ← loadAlong t path
  match t.resolve? path with
  | some l => load maxDepth t l
  | none => pure t

/-- What a command can see. -/
def loadFor (c : CommandLine.Command) (t : FileTree) : IO FileTree := do
  let t ← loadPath t c.input
  let t ← loadPath t (c.given.output.getD CommandLine.defaultOutput)
  match c.given.config with
  | some path => loadPath t path
  | none => pure t

/-- Writes what differs, the oldest entry first, so that a directory comes before what is in it. -/
def store (before after : FileTree) : IO Unit :=
  after.entries.reverse.forM fun (l, n) => do
    unless before.node? l == some n do
      match n with
      | .directory => IO.FS.createDirAll (entry l).path
      | .file text => IO.FS.writeFile (entry l).path text
      | .binary => pure ()

end ApiProperties.Disk

open ApiProperties in
def main (arguments : List String) : IO UInt32 := do
  let here := (← IO.currentDir).toString.toList
  let arguments := arguments.map String.toList
  let start := FileTree.empty ((pieces '/' here).filter (!·.isEmpty))
  let before ← match CommandLine.Command.parse arguments with
    | .ok c => Disk.loadFor c (← Disk.loadAlong start here)
    | .error _ => pure start
  let outcome := CommandLine.run arguments before
  Disk.store before outcome.tree
  IO.print outcome.stdout
  match outcome.failure with
  | some f => IO.eprintln ("Error: " ++ String.ofList f.message)
  | none => if outcome.exitCode = 2 then IO.eprint ("error: bad usage\n" ++ CommandLine.usageLine)
  return outcome.exitCode.toUInt32

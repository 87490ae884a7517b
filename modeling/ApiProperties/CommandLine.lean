import ApiProperties.Batch

/-!
The command `accessor-synth`. Arguments are taken one by one; a value that an option waits for is
checked when the next argument or the end shows that it is complete.
-/

set_option autoImplicit false

namespace ApiProperties.CommandLine

inductive Flag where
  | noHeuristics | verbose | version | help
  deriving DecidableEq, Repr

/-- What takes a value; the input is the one that has no option. -/
inductive Slot where
  | input | output | config | threads | maxFiles
  deriving DecidableEq, Repr

inductive Opt where
  | flag (f : Flag)
  | value (s : Slot)
  deriving DecidableEq, Repr

def longNames : List (List Char × Opt) :=
  [("output".toList, .value .output), ("config".toList, .value .config),
   ("no-heuristics".toList, .flag .noHeuristics), ("threads".toList, .value .threads),
   ("max-files".toList, .value .maxFiles), ("verbose".toList, .flag .verbose),
   ("version".toList, .flag .version), ("help".toList, .flag .help)]

def shortNames : List (Char × Opt) :=
  [('o', .value .output), ('c', .value .config), ('j', .value .threads), ('v', .flag .verbose),
   ('V', .flag .version), ('h', .flag .help)]

structure Given where
  input : Option (List Char)
  output : Option (List Char)
  config : Option (List Char)
  threads : Option Nat
  maxFiles : Option Nat
  noHeuristics : Bool
  verbose : Bool
  deriving DecidableEq, Repr

/-- The state between two arguments: `waiting` is what the last one began, with the value if there
is one already; after `--` everything is an input. -/
structure Parse where
  given : Given
  waiting : Option (Slot × Option (List Char))
  onlyInputs : Bool
  deriving DecidableEq, Repr

/-- How the arguments end the command before it starts. -/
inductive Stop where
  | usage
  | version
  | help
  deriving DecidableEq, Repr

namespace Parse

def start : Parse :=
  { given :=
      { input := none, output := none, config := none, threads := none, maxFiles := none,
        noHeuristics := false, verbose := false }
    waiting := none
    onlyInputs := false }

/-- A path may be anything but empty. -/
def pathValue (text : List Char) : Except Stop (List Char) :=
  if text.isEmpty then .error .usage else .ok text

/-- A number of 64 bits in digits, which a plus may precede. -/
def countValue (text : List Char) : Except Stop Nat :=
  let digits := match text with
    | '+' :: rest => rest
    | text => text
  let n := Nat.ofDigitChars 10 digits 0
  if !digits.isEmpty && digits.all Char.isDigit && decide (n < wordLimit) then .ok n else .error .usage

/-- Sets what may be set once. -/
def once {α : Type} (old : Option α) (new : Except Stop α) : Except Stop (Option α) :=
  match old with
  | some _ => .error .usage
  | none => new.map some

def store (g : Given) (slot : Slot) (text : List Char) : Except Stop Given := do
  match slot with
  | .input => pure { g with input := ← once g.input (pathValue text) }
  | .output => pure { g with output := ← once g.output (pathValue text) }
  | .config => pure { g with config := ← once g.config (pathValue text) }
  | .threads => pure { g with threads := ← once g.threads (countValue text) }
  | .maxFiles => pure { g with maxFiles := ← once g.maxFiles (countValue text) }

def settle (p : Parse) : Except Stop Parse :=
  match p.waiting with
  | none => .ok p
  | some (_, none) => .error .usage
  | some (slot, some text) => do
    pure { p with given := ← store p.given slot text, waiting := none }

def raise (p : Parse) (f : Flag) : Except Stop Parse := do
  let p ← p.settle
  match f with
  | .version => .error .version
  | .help => .error .help
  | .noHeuristics =>
    if p.given.noHeuristics then .error .usage
    else pure { p with given := { p.given with noHeuristics := true } }
  | .verbose =>
    if p.given.verbose then .error .usage
    else pure { p with given := { p.given with verbose := true } }

/-- An option with the value that is attached to it, or else with none yet. -/
def begin (p : Parse) (slot : Slot) (attached : Option (List Char)) : Except Stop Parse := do
  let p ← p.settle
  match attached with
  | some text => pure { p with given := ← store p.given slot text }
  | none => pure { p with waiting := some (slot, none) }

/-- An argument after `--name` or `--name=value`. -/
def long (p : Parse) (text : List Char) : Except Stop Parse :=
  let name := text.takeWhile (· != '=')
  let attached := match text.dropWhile (· != '=') with
    | _ :: value => some value
    | [] => none
  match longNames.lookup name, attached with
  | some (.flag f), none => p.raise f
  | some (.value slot), attached => p.begin slot attached
  | _, _ => .error .usage

/-- The letters after a single dash: flags, and last an option with what is left as its value. -/
def short (p : Parse) : List Char → Except Stop Parse
  | [] => .ok p
  | c :: rest =>
    match shortNames.lookup c with
    | some (.flag f) => do
      let p ← p.raise f
      p.short rest
    | some (.value slot) =>
      match rest with
      | [] => p.begin slot none
      | '=' :: value => p.begin slot (some value)
      | value => p.begin slot (some value)
    | none => .error .usage

def positional (p : Parse) (text : List Char) : Except Stop Parse := do
  let p ← p.settle
  if p.given.input.isSome then .error .usage
  else pure { p with waiting := some (.input, some text) }

/-- A value that stands alone: it belongs to an option that waits for one, else it is the input. -/
def plain (p : Parse) (text : List Char) : Except Stop Parse :=
  match p.waiting with
  | some (slot, none) => .ok { p with waiting := some (slot, some text) }
  | _ => p.positional text

def argument (p : Parse) (text : List Char) : Except Stop Parse :=
  if p.onlyInputs then p.positional text
  else
    match text with
    | ['-', '-'] => .ok { p with onlyInputs := true }
    | '-' :: '-' :: rest => p.long rest
    | '-' :: c :: rest => p.short (c :: rest)
    | text => p.plain text

def ofArguments (arguments : List (List Char)) : Except Stop Given := do
  let p ← arguments.foldlM argument start
  let p ← p.settle
  pure p.given

end Parse

structure Command where
  input : List Char
  given : Given
  deriving DecidableEq, Repr

def Command.parse (arguments : List (List Char)) : Except Stop Command := do
  let given ← Parse.ofArguments arguments
  match given.input with
  | some input => pure ⟨input, given⟩
  | none => .error .usage

inductive Failure where
  | unreadable (path : List Char)
  | badSettings (path : List Char)
  | batch (error : BatchError)
  | files (count : Nat)
  deriving DecidableEq, Repr

def Failure.message : Failure → List Char
  | .unreadable path => "Cannot read ".toList ++ path
  | .badSettings path => "Failed to load configuration ".toList ++ path
  | .batch (.noDirectory path) => "Cannot create directory ".toList ++ path
  | .batch (.notWritten path) => "Failed to write file ".toList ++ path
  | .files count => Nat.toDigits 10 count ++ " model files could not be processed".toList

def loadSettings (t : FileTree) (path : List Char) : Except Failure Settings :=
  match t.read? path with
  | none => .error (.unreadable path)
  | some text =>
    match Settings.ofToml? text with
    | some s => .ok s
    | none => .error (.badSettings path)

/-- Options have precedence over the settings in the file. -/
def Given.override (g : Given) (s : Settings) : Settings :=
  { useHeuristics := s.useHeuristics && !g.noHeuristics
    maxFiles := g.maxFiles <|> s.maxFiles
    threads := g.threads <|> s.threads
    verboseErrors := s.verboseErrors || g.verbose }

def Command.settings (c : Command) (t : FileTree) : Except Failure Settings := do
  let s ← match c.given.config with
    | some path => loadSettings t path
    | none => .ok .default
  pure (c.given.override s)

def defaultOutput : List Char := "synth_output".toList

structure Outcome where
  exitCode : Nat
  stdout : String
  failure : Option Failure
  tree : FileTree

def Command.run (c : Command) (t : FileTree) : Outcome :=
  match c.settings t with
  | .error f => ⟨1, "", some f, t⟩
  | .ok s =>
    let batch := Batch.ofSettings s (c.given.output.getD defaultOutput)
    match batch.processInput t c.input with
    | (.error e, t) => ⟨1, "", some (.batch e), t⟩
    | (.ok r, t) =>
      if r.failed.isEmpty then ⟨0, "", none, t⟩
      else ⟨1, "", some (.files r.failed.length), t⟩

def versionLine : String := "accessor-synth 0.1.0\n"

def usageLine : String := "Usage: accessor-synth [OPTIONS] <INPUT>\n"

def run (arguments : List (List Char)) (t : FileTree) : Outcome :=
  match Command.parse arguments with
  | .ok c => c.run t
  | .error .usage => ⟨2, "", none, t⟩
  | .error .version => ⟨0, versionLine, none, t⟩
  | .error .help => ⟨0, usageLine, none, t⟩

end ApiProperties.CommandLine

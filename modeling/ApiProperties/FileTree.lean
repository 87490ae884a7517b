import ApiProperties.Path

/-!
Directories and files as a value. A location is the list of names on the way from the root; a path is
resolved step by step, so every directory that it passes through has to exist, also before `..`. There
are no links, which paths and walks would follow, and there are no permissions: a file that is there can
be read and written over, and an entry can be made in every directory.
-/

set_option autoImplicit false

namespace ApiProperties

abbrev Location := List (List Char)

/-- What may be at a location. -/
inductive Node where
  | directory
  | file (text : String)
  /-- A file whose bytes are no text. -/
  | binary
  deriving DecidableEq, Repr

structure FileTree where
  entries : List (Location × Node)
  /-- Where paths that are not absolute start. -/
  current : Location
  deriving DecidableEq, Repr

namespace FileTree

def empty (current : Location) : FileTree := ⟨[], current⟩

/-- What is at a location; the root is a directory. -/
def node? (t : FileTree) (l : Location) : Option Node :=
  if l = [] then some .directory else t.entries.lookup l

/-- The tree with this at the location, whatever was there. -/
def put (t : FileTree) (l : Location) (n : Node) : FileTree :=
  { t with entries := (l, n) :: t.entries.filter (·.1 != l) }

theorem node?_put (t : FileTree) (l k : Location) (n : Node) (h : l ≠ []) :
    (t.put l n).node? k = if k = l then some n else t.node? k := by
  have filtered (es : List (Location × Node)) (hk : k ≠ l) :
      (es.filter (·.1 != l)).lookup k = es.lookup k := by
    induction es with
    | nil => rfl
    | cons e es ih =>
      obtain ⟨l', n'⟩ := e
      by_cases hl : l' = l
      · subst hl
        have : (k == l') = false := by simpa using hk
        simp [ih, List.lookup_cons, this]
      · simp [hl, List.lookup_cons, ih]
  by_cases hk : k = l
  · subst hk
    simp [node?, put, h]
  · by_cases h0 : k = []
    · subst h0
      simp [node?, hk]
    · have hne : (k == l) = false := by simpa using hk
      simp [node?, put, h0, hk, List.lookup_cons, hne, filtered]

/-! ### Finding -/

/-- Why a path leads nowhere: there is nothing, or something that does not let it pass. -/
inductive Obstacle where
  | missing
  | blocked
  deriving DecidableEq, Repr

def isPath (path : List Char) : Bool :=
  !path.contains '\x00' && decide ((String.ofList path).utf8ByteSize < 4096)

def isName (name : List Char) : Bool := decide ((String.ofList name).utf8ByteSize ≤ 255)

/-- Where a step leads from a directory. -/
def follow (l : Location) (piece : List Char) : Location :=
  if piece = [] ∨ piece = ['.'] then l
  else if piece = ['.', '.'] then l.dropLast
  else l ++ [piece]

def start (t : FileTree) (path : List Char) : Location :=
  if Path.isAbsolute path then [] else t.current

def step (t : FileTree) (l : Location) (piece : List Char) : Except Obstacle Location :=
  let next := follow l piece
  if t.node? l ≠ some .directory || !isName piece then .error .blocked
  else if (t.node? next).isSome then .ok next
  else .error .missing

def walkTo (t : FileTree) (l : Location) (pieces : List (List Char)) : Except Obstacle Location :=
  pieces.foldlM t.step l

/-- The location of what a path names, if there is something. -/
def resolve? (t : FileTree) (path : List Char) : Option Location :=
  if path = [] || !isPath path then none
  else
    match t.walkTo (t.start path) (pieces '/' path) with
    | .ok l => some l
    | .error _ => none

def find? (t : FileTree) (path : List Char) : Option Node := (t.resolve? path).bind t.node?

def isDirectory (t : FileTree) (path : List Char) : Bool := t.find? path == some .directory

def isFile (t : FileTree) (path : List Char) : Bool :=
  match t.find? path with
  | some (.file _) | some .binary => true
  | _ => false

def read? (t : FileTree) (path : List Char) : Option String :=
  match t.find? path with
  | some (.file text) => some text
  | _ => none

/-! ### Writing

What was done before something went wrong stays done, so the answer is a tree in either case. -/

/-- The place for an entry that the pieces name: all but the last lead to a directory, and the last
is a name. -/
def entryAt (t : FileTree) (path : List Char) (pieces : List (List Char)) :
    Except Obstacle Location :=
  match pieces.reverse with
  | [] => .error .blocked
  | name :: above =>
    if !isPath path then .error .blocked
    else do
      let l ← t.walkTo (t.start path) above.reverse
      if t.node? l = some .directory && Path.component? name == some (.normal name) && isName name
      then .ok (l ++ [name])
      else .error .blocked

/-- Makes one directory in a directory that is there. Slashes may follow its name. -/
def makeDirectory (t : FileTree) (path : List Char) : Except Obstacle FileTree := do
  let l ← t.entryAt path (dropEmptyEnd (pieces '/' path))
  if (t.node? l).isSome then .error .blocked else .ok (t.put l .directory)

/-- Makes the first of these directories, and if there is nothing in which to make it, the next one
before; each of them lies in the next one. -/
def makeFirst (t : FileTree) : List (List Char) → FileTree × Bool
  | [] => (t, false)
  | path :: above =>
    if path = [] then (t, true)
    else
      match t.makeDirectory path with
      | .ok t => (t, true)
      | .error .blocked => (t, t.isDirectory path)
      | .error .missing =>
        match t.makeFirst above with
        | (t, false) => (t, false)
        | (t, true) =>
          match t.makeDirectory path with
          | .ok t => (t, true)
          | .error _ => (t, t.isDirectory path)

/-- Makes a directory with those above it, and says whether it is there now. -/
def makeDirectories (t : FileTree) (path : List Char) : FileTree × Bool :=
  t.makeFirst (path :: Path.ancestors path)

/-- Writes a file into a directory that is there, over a file of that name. -/
def putFile (t : FileTree) (path : List Char) (n : Node) : FileTree × Bool :=
  match t.entryAt path (pieces '/' path) with
  | .ok l => if t.node? l = some .directory then (t, false) else (t.put l n, true)
  | .error _ => (t, false)

/-- Writes a file, making the directories above it, and says whether it could be written. -/
def write (t : FileTree) (path : List Char) (n : Node) : FileTree × Bool :=
  match Path.parent? path with
  | none => t.putFile path n
  | some above =>
    match t.makeDirectories above with
    | (t, true) => t.putFile path n
    | (t, false) => (t, false)

/-! ### Walking -/

/-- Names by code points, a shorter one before what it begins. -/
def nameBefore (a b : List Char) : Bool := a.lex b fun c d => decide (c.toNat < d.toNat)

/-- The order of a walk: a directory before what it holds, names by code points. -/
def locationLe (a b : Location) : Bool := !b.lex a nameBefore

/-- The entries below a location with their paths as seen from it, depth first. -/
def below (t : FileTree) (l : Location) : List (Location × Node) :=
  let inside := t.entries.filterMap fun (k, n) =>
    if l.isPrefixOf k && k != l then some (k.drop l.length, n) else none
  inside.mergeSort fun a b => locationLe a.1 b.1

/-- The path of what a walk that starts at a path meets at a location below it. -/
def pathBelow (path : List Char) : Location → List Char
  | [] => path
  | names => Path.join path (joinPieces '/' names)

/-- The files below a directory, each by its path; none if the path names no directory. A directory whose
path has become too long to be one is not entered. -/
def walk (t : FileTree) (path : List Char) : List (List Char × Node) :=
  match t.resolve? path with
  | some l =>
    (t.below l).filterMap fun (names, n) =>
      if n = .directory || !isPath (pathBelow path names.dropLast) then none
      else some (pathBelow path names, n)
  | none => []

end FileTree
end ApiProperties

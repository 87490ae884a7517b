import ApiProperties.Text.Blank
import ApiProperties.Text.Case

/-!
Paths as texts. A path is cut at its slashes; some pieces are components and the others vanish:
repeated slashes, a slash at the end, and every `.` that does not come first. Functions that cut a
path keep the spelling of what they leave.
-/

set_option autoImplicit false

namespace ApiProperties.Path

inductive Component where
  | root
  | here
  | up
  | normal (name : List Char)
  deriving DecidableEq, Repr

/-- What a piece stands for behind the first one. -/
def component? (piece : List Char) : Option Component :=
  if piece = [] ∨ piece = ['.'] then none
  else if piece = ['.', '.'] then some .up
  else some (.normal piece)

/-- A piece of a path as it is spelled, with the component it is. -/
structure Step where
  component : Option Component
  spelling : List Char
  deriving DecidableEq, Repr

def Step.isVoid (s : Step) : Bool := s.component.isNone

/-- An empty first piece in front of a slash is the root, and `.` as the first piece counts. -/
def steps (path : List Char) : List Step :=
  let later (pieces : List (List Char)) := pieces.map fun piece => ⟨component? piece, piece⟩
  match pieces '/' path with
  | [] :: rest => ⟨if rest.isEmpty then none else some .root, []⟩ :: later rest
  | ['.'] :: rest => ⟨some .here, ['.']⟩ :: later rest
  | pieces => later pieces

def components (path : List Char) : List Component := (steps path).filterMap (·.component)

/-- The text of steps; the root alone is a slash. -/
def spell : List Step → List Char
  | [⟨some .root, _⟩] => ['/']
  | steps => joinPieces '/' (steps.map (·.spelling))

/-- Steps without what vanishes at the end. -/
def trimEnd (steps : List Step) : List Step := (steps.reverse.dropWhile Step.isVoid).reverse

/-- The last component, if it is a name. -/
def fileName? (path : List Char) : Option (List Char) :=
  match (components path).getLast? with
  | some (.normal name) => some name
  | _ => none

/-- A name cut at its last dot, unless the dot comes first. -/
def splitName (name : List Char) : List Char × Option (List Char) :=
  match name.reverse.dropWhile (· != '.') with
  | '.' :: c :: rest => ((c :: rest).reverse, some (name.reverse.takeWhile (· != '.')).reverse)
  | _ => (name, none)

def stem? (path : List Char) : Option (List Char) := (fileName? path).map fun n => (splitName n).1

def extension? (path : List Char) : Option (List Char) :=
  (fileName? path).bind fun n => (splitName n).2

/-- The path without its last component; there is none without a component to drop. -/
def parent? (path : List Char) : Option (List Char) :=
  match (steps path).reverse.dropWhile Step.isVoid with
  | ⟨some .root, _⟩ :: _ => none
  | _ :: before => some (spell (trimEnd before.reverse))
  | [] => none

/-- The parent, its parent and so on, at most `fuel` of them. -/
def ancestorsUpTo : (fuel : Nat) → List Char → List (List Char)
  | 0, _ => []
  | fuel + 1, path =>
    match parent? path with
    | some above => above :: ancestorsUpTo fuel above
    | none => []

/-- The paths above a path, the nearest first. Each has one component less. -/
def ancestors (path : List Char) : List (List Char) :=
  ancestorsUpTo (components path).length path

def isAbsolute (path : List Char) : Bool := path.head? == some '/'

/-- `path` seen from `base`; an absolute path stays what it is. -/
def join (base path : List Char) : List Char :=
  if isAbsolute path || base.isEmpty || base.getLast? == some '/' then
    if isAbsolute path then path else base ++ path
  else base ++ '/' :: path

/-- Drops steps that spell the given components. -/
def dropComponents : List Component → List Step → Option (List Step)
  | [], steps => some steps
  | c :: cs, steps =>
    match steps.dropWhile Step.isVoid with
    | s :: rest => if s.component = some c then dropComponents cs rest else none
    | [] => none

/-- What is left of `path` behind `root`, if `path` starts with the components of `root`. -/
def relativeTo? (path root : List Char) : Option (List Char) :=
  match components root with
  | [] => some (spell (trimEnd (steps path)))
  | cs => (dropComponents cs (steps path)).map fun rest => spell (trimEnd (rest.dropWhile Step.isVoid))

/-- The name of an output whose input has none. -/
def fallbackName : List Char := "model.json".toList

/-- The place of a file below the output directory: the one it has below the input root, or for a
file that is not below it, directly in the directory. -/
def outputPath (file root output : List Char) : List Char :=
  let flat := join output ((fileName? file).getD fallbackName)
  match relativeTo? file root with
  | some path => if (fileName? path).isSome then join output path else flat
  | none => flat

end Path

def hasExtension (path extension : String) : Bool :=
  match Path.extension? path.toList with
  | some e => sameIgnoringAsciiCase e extension.toList
  | none => false

def outputPathFor (file root output : String) : String :=
  String.ofList (Path.outputPath file.toList root.toList output.toList)

end ApiProperties

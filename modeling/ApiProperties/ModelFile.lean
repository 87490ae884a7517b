import ApiProperties.FileTree
import ApiProperties.Json.Reader
import ApiProperties.Json.Printer
import ApiProperties.Model.Decoding
import ApiProperties.Model.Validity

/-!
Models in files. A model without a name is named after its file, and only a consistent model is
loaded.
-/

set_option autoImplicit false

namespace ApiProperties

inductive LoadError where
  | unreadable
  | malformed
  | faulty (model : Model) (fault : Fault)
  deriving DecidableEq, Repr

namespace ModelFile

/-- The text of a model: JSON on several lines. -/
def print (m : Model) : List Char := m.encode.print

def parse? (text : List Char) : Option Model := (Json.parse text).bind Model.ofJson?

/-- The model under the name it has or else the one of its file. -/
def nameAfter (path : List Char) (m : Model) : Model :=
  if m.name.isEmpty then { m with name := String.ofList ((Path.stem? path).getD []) } else m

def load (t : FileTree) (path : List Char) : Except LoadError Model :=
  match t.read? path with
  | none => .error .unreadable
  | some text =>
    match parse? text.toList with
    | none => .error .malformed
    | some m =>
      let m := nameAfter path m
      match m.fault? with
      | some f => .error (.faulty m f)
      | none => .ok m

/-- Writes the model, and says whether it could be written. -/
def save (t : FileTree) (path : List Char) (m : Model) : FileTree × Bool :=
  t.write path (.file (String.ofList (print m)))

end ModelFile
end ApiProperties

import ApiProperties.Verbs.Builtin
import ApiProperties.Text.Blank

/-!
Dictionaries of verbs. A dictionary is a set of words: it is read from a text with one word a line,
and it never lists a word twice.
-/

set_option autoImplicit false

namespace ApiProperties

structure VerbDictionary where
  words : List String
  deriving DecidableEq, Repr

/-- A text that comes with a program, under the name it was given there. -/
structure Resource where
  name : String
  contents : String
  deriving DecidableEq, Repr

inductive ResourceError where
  | missing
  | ambiguous (count : Nat)
  deriving DecidableEq, Repr

def ResourceError.message : ResourceError → String
  | .missing => "cannot find embedded verbs data resource"
  | .ambiguous count =>
    "found " ++ toString count ++ " embedded verbs data resources, expected exactly one"

namespace VerbDictionary

/-- One word a line, without the blanks around it; blank lines hold no word. -/
def parse (text : String) : VerbDictionary :=
  let words := (pieces '\n' text.toList).map (trimBoth isBlank)
  ⟨((words.filter (!·.isEmpty)).map String.ofList).eraseDups⟩

def builtin : VerbDictionary := ⟨builtinVerbs⟩

def contains (d : VerbDictionary) (word : String) : Bool := d.words.contains word

def size (d : VerbDictionary) : Nat := d.words.length

def isEmpty (d : VerbDictionary) : Bool := d.words.isEmpty

/-- How the name of the resource with the dictionary ends. -/
def resourceEnding : String := "verbs.txt"

def isResource (r : Resource) : Bool := resourceEnding.toList.isSuffixOf r.name.toList

/-- The dictionary of the only resource that is named like one. -/
def ofResources (resources : List Resource) : Except ResourceError VerbDictionary :=
  match resources.filter isResource with
  | [] => .error .missing
  | [r] => .ok (parse r.contents)
  | rs => .error (.ambiguous rs.length)

end VerbDictionary
end ApiProperties

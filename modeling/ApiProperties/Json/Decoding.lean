import ApiProperties.Json
import ApiProperties.Limits

/-!
Reading values of the domain out of JSON. A record is an object or an array of its fields in order;
fields nobody asks for are ignored. What is decoded may be nested `Decoder.maxDepth` levels deep, while
ignored values may be nested at will. Only in one place it matters whether the value comes straight
from a text or out of a larger document: in how the fields of a variant may be written.
-/

set_option autoImplicit false

namespace ApiProperties

/-- Where a value comes from: it is all of a text, or a part of a document. -/
inductive Provenance where
  | text
  | document
  deriving DecidableEq, Repr

/-- Decodes a value in which `budget` more levels of arrays and objects may be entered. -/
abbrev Decoder (α : Type) := Provenance → (budget : Nat) → Json → Option α

namespace Decoder

def maxDepth : Nat := 127

def string : Decoder String
  | _, _, .string text => text
  | _, _, _ => none

def bool : Decoder Bool
  | _, _, .bool b => some b
  | _, _, _ => none

/-- A natural number that fits into 64 bits. -/
def word : Decoder Nat
  | _, _, .number (.natural n) => if n < wordLimit then some n else none
  | _, _, _ => none

def list {α : Type} (d : Decoder α) : Decoder (List α)
  | source, budget + 1, .array items => items.mapM (d source budget)
  | _, _, _ => none

/-- `null` for an absent value. -/
def option {α : Type} (d : Decoder α) : Decoder (Option α)
  | _, _, .null => some none
  | source, budget, j => (d source budget j).map some

/-- One of the values of `all` by its name, which may also be written as the only key of an object,
over `null`. -/
def keyword {α : Type} (all : List α) (name : α → String) : Decoder α
  | _, _, .string (some s) => all.find? (name · == s)
  | _, _ + 1, .object [(some s, .null)] => all.find? (name · == s)
  | _, _, _ => none

end Decoder

/-- The known fields of a record, each at most once, and the levels left inside it. -/
structure Fields where
  source : Provenance
  budget : Nat
  values : List (String × Json)

namespace Fields

/-- The fields of an object that have one of the names. A key must be a text even if it is unknown. -/
def known? (names : List String) : List (Json.Text × Json) → Option (List (String × Json))
  | [] => some []
  | (none, _) :: _ => none
  | (some key, value) :: rest => do
    let others ← known? names rest
    if key ∈ names then
      if others.any (·.1 == key) then none else pure ((key, value) :: others)
    else pure others

def record (names : List String) : Decoder Fields
  | source, budget + 1, .object fields => (known? names fields).map (⟨source, budget, ·⟩)
  | source, budget + 1, .array items =>
    if items.length ≤ names.length then some ⟨source, budget, names.zip items⟩ else none
  | _, _, _ => none

/-- The fields of a variant. A part of a document has to name them. -/
def payload (names : List String) : Decoder Fields
  | .document, _, .array _ => none
  | source, budget, j => record names source budget j

def find? (f : Fields) (name : String) : Option Json := f.values.lookup name

def required {α : Type} (f : Fields) (name : String) (d : Decoder α) : Option α :=
  (f.find? name).bind (d f.source f.budget)

/-- A field that may be absent, but not `null`. -/
def defaulted {α : Type} (f : Fields) (name : String) (default : α) (d : Decoder α) : Option α :=
  match f.find? name with
  | some j => d f.source f.budget j
  | none => some default

/-- A field that may be absent or `null`. -/
def optional {α : Type} (f : Fields) (name : String) (d : Decoder α) : Option (Option α) :=
  f.defaulted name none (.option d)

end Fields

namespace Json

/-- The only key of an object and what it holds. -/
def tagged? : Json → Option (String × Json)
  | .object [(some key, value)] => some (key, value)
  | _ => none

end Json
end ApiProperties

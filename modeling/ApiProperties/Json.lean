/-!
JSON values as they are read and written. A value keeps everything a reader may have to refuse
later: repeated keys, numbers that are no naturals, and strings whose escapes name no text.
-/

set_option autoImplicit false

namespace ApiProperties

namespace Json

/-- A natural number in plain digits, or any other literal as it is spelled. -/
inductive Number where
  | natural (n : Nat)
  | other (literal : List Char)
  deriving DecidableEq, Repr

/-- The text of a string, or `none` if an escape names half of a surrogate pair. -/
abbrev Text := Option String

end Json

inductive Json where
  | null
  | bool (b : Bool)
  | number (n : Json.Number)
  | string (text : Json.Text)
  | array (items : List Json)
  | object (fields : List (Json.Text × Json))

namespace Json

def nat (n : Nat) : Json := .number (.natural n)

def ofString (s : String) : Json := .string (some s)

def ofFields (fields : List (String × Json)) : Json :=
  .object (fields.map fun (key, value) => (some key, value))

/-- `null` for what is absent. -/
def ofOption {α : Type} (f : α → Json) : Option α → Json
  | some x => f x
  | none => .null

def ofList {α : Type} (f : α → Json) (xs : List α) : Json := .array (xs.map f)

mutual

def depth : Json → Nat
  | .array items => depthOfItems items + 1
  | .object fields => depthOfFields fields + 1
  | _ => 0

def depthOfItems : List Json → Nat
  | [] => 0
  | item :: items => max item.depth (depthOfItems items)

def depthOfFields : List (Text × Json) → Nat
  | [] => 0
  | (_, value) :: fields => max value.depth (depthOfFields fields)

end

end Json
end ApiProperties

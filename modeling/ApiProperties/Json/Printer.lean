import ApiProperties.Json

/-!
Writing JSON, either over several lines, two spaces for each level, or without any space. Strings
escape the quote, the backslash and the control characters below U+0020, and nothing else.
-/

set_option autoImplicit false

namespace ApiProperties.Json

def hexDigit (n : Nat) : Char := Nat.digitChar (n % 16)

def escapeChar (c : Char) : List Char :=
  match c with
  | '"' => ['\\', '"']
  | '\\' => ['\\', '\\']
  | '\x08' => ['\\', 'b']
  | '\x0c' => ['\\', 'f']
  | '\n' => ['\\', 'n']
  | '\r' => ['\\', 'r']
  | '\t' => ['\\', 't']
  | c =>
    if c.toNat < 0x20 then ['\\', 'u', '0', '0', hexDigit (c.toNat / 16), hexDigit c.toNat]
    else [c]

/-- A string between quotes; one without text is written as a lone surrogate. -/
def printText : Text → List Char
  | some s => '"' :: s.toList.flatMap escapeChar ++ ['"']
  | none => "\"\\ud800\"".toList

def printNumber : Number → List Char
  | .natural n => Nat.toDigits 10 n
  | .other literal => literal

/-- A line feed and the blanks of a level. -/
def newLine (level : Nat) : List Char := '\n' :: List.replicate (2 * level) ' '

mutual

/-- A value on several lines; `level` is that of the line it starts on. -/
def printAt (level : Nat) : Json → List Char
  | .null => "null".toList
  | .bool b => (if b then "true" else "false").toList
  | .number n => printNumber n
  | .string text => printText text
  | .array [] => ['[', ']']
  | .array (item :: items) =>
    '[' :: newLine (level + 1) ++ printAt (level + 1) item ++ printItems (level + 1) items
      ++ newLine level ++ [']']
  | .object [] => ['{', '}']
  | .object ((key, value) :: fields) =>
    '{' :: newLine (level + 1) ++ printText key ++ ": ".toList ++ printAt (level + 1) value
      ++ printFields (level + 1) fields ++ newLine level ++ ['}']

def printItems (level : Nat) : List Json → List Char
  | [] => []
  | item :: items => ',' :: newLine level ++ printAt level item ++ printItems level items

def printFields (level : Nat) : List (Text × Json) → List Char
  | [] => []
  | (key, value) :: fields =>
    ',' :: newLine level ++ printText key ++ ": ".toList ++ printAt level value
      ++ printFields level fields

end

/-- A value on several lines, without a final line feed. -/
def print (j : Json) : List Char := printAt 0 j

mutual

def printLine : Json → List Char
  | .null => "null".toList
  | .bool b => (if b then "true" else "false").toList
  | .number n => printNumber n
  | .string text => printText text
  | .array [] => ['[', ']']
  | .array (item :: items) => '[' :: printLine item ++ printLineItems items ++ [']']
  | .object [] => ['{', '}']
  | .object ((key, value) :: fields) =>
    '{' :: printText key ++ ':' :: printLine value ++ printLineFields fields ++ ['}']

def printLineItems : List Json → List Char
  | [] => []
  | item :: items => ',' :: printLine item ++ printLineItems items

def printLineFields : List (Text × Json) → List Char
  | [] => []
  | (key, value) :: fields =>
    ',' :: printText key ++ ':' :: printLine value ++ printLineFields fields

end

end ApiProperties.Json

import ApiProperties.Text.Case
import ApiProperties.Text.Blank

/-!
Names of accessor methods and the property names they stand for. A name is read as words: `getWidth`
and `get_width` both start with the word `get`, the second one with its underscore attached.
Everything here works on characters; the `String` forms at the end are what the rest of the library
calls.
-/

set_option autoImplicit false

namespace ApiProperties.Name

/-- The rest of a first word: small letters are taken, an underscore is taken and ends the word, a
capital ends it, anything else is passed over. -/
def wordTail : List Char → List Char
  | [] => []
  | c :: rest =>
    if isLowercase c then c :: wordTail rest
    else if c = '_' then ['_']
    else if isUppercase c then []
    else wordTail rest

/-- The first word of a name, in small letters. The first character always belongs to it. -/
def firstWord : List Char → List Char
  | [] => []
  | c :: rest => lowercase c ++ wordTail rest

/-- One of `stems`, with or without an underscore behind it. -/
def matchesWord (word : List Char) (stems : List (List Char)) : Bool :=
  stems.any fun stem => word == stem || word == stem ++ ['_']

def lowercaseFirst : List Char → List Char
  | [] => []
  | c :: rest => lowercase c ++ rest

def capitalize : List Char → List Char
  | [] => []
  | c :: rest => uppercase c ++ rest

/-- What follows `word` in `name`, if `name` is spelled with it up to ASCII case. -/
def stripWord : (name word : List Char) → Option (List Char)
  | name, [] => some name
  | [], _ :: _ => none
  | c :: name, w :: word => if c.toLower = w.toLower then stripWord name word else none

/-- Only the words `get` and `get_` are dropped, and only before something that is not a digit. -/
def fromGetter (name : List Char) : List Char :=
  let word := firstWord name
  if matchesWord word ["get".toList] then
    match stripWord name word with
    | some (c :: rest) => if c.isDigit then name else lowercaseFirst (c :: rest)
    | _ => name
  else name

def startsLowercase : List Char → Bool
  | [] => false
  | c :: _ => isLowercase c

/-- The part of a setter's name that can name a property, underscores at both ends dropped. -/
def setterStem (name : List Char) : List Char :=
  let word := firstWord name
  let rest := if matchesWord word ["set".toList] then (stripWord name word).getD name else name
  trimBoth (· == '_') rest

/-- Empty if the setter cannot name a property. -/
def fromSetter (name : List Char) : List Char :=
  let stem := setterStem name
  if startsLowercase name && !startsLowercase stem then lowercaseFirst stem else stem

/-- The getter's property name as it would pair with the setter's: a leading `is` is dropped, once,
if the two differ. -/
def readWrite (getter setter : List Char) : List Char :=
  match fromGetter getter with
  | 'i' :: 's' :: c :: rest =>
    if 'i' :: 's' :: c :: rest = setter then setter else lowercaseFirst (c :: rest)
  | name => name

@[simp] theorem firstWord_nil : firstWord [] = [] := rfl

@[simp] theorem stripWord_nil (name : List Char) : stripWord name [] = some name := by
  cases name <;> rfl

end Name

/-! ### The same on strings -/

/-- A function on names, carried over to strings. -/
def onName (f : List Char → List Char) (name : String) : String := String.ofList (f name.toList)

def firstWord (name : String) : String := onName Name.firstWord name
def lowercaseFirst (name : String) : String := onName Name.lowercaseFirst name
def capitalize (name : String) : String := onName Name.capitalize name
def propertyNameFromGetter (name : String) : String := onName Name.fromGetter name
def propertyNameFromSetter (name : String) : String := onName Name.fromSetter name

def readWritePropertyName (getter setter : String) : String :=
  String.ofList (Name.readWrite getter.toList setter.toList)

def matchesWord (word : String) (stems : List String) : Bool :=
  Name.matchesWord word.toList (stems.map String.toList)

end ApiProperties

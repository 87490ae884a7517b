import ApiProperties.Json

/-!
Reading JSON. Each reader answers with what it read and the characters behind it, or `none` if the
text is not well-formed. The grammar is strict: no trailing comma, no leading zero, no raw control
character in a string.
-/

set_option autoImplicit false

namespace ApiProperties.Json

def isSpace (c : Char) : Bool := c == ' ' || c == '\n' || c == '\t' || c == '\r'

def skipSpace (s : List Char) : List Char := s.dropWhile isSpace

/-! ### Numbers -/

/-- One digit or more. -/
def readDigits (s : List Char) : Option (List Char × List Char) :=
  let digits := s.takeWhile Char.isDigit
  if digits.isEmpty then none else some (digits, s.dropWhile Char.isDigit)

/-- A leading zero stands alone. -/
def readWhole : List Char → Option (List Char × List Char)
  | '0' :: rest => some (['0'], rest)
  | s => readDigits s

def readFraction : List Char → Option (List Char × List Char)
  | '.' :: rest => (readDigits rest).map fun (digits, rest) => ('.' :: digits, rest)
  | s => some ([], s)

def readSign : List Char → List Char × List Char
  | '+' :: rest => (['+'], rest)
  | '-' :: rest => (['-'], rest)
  | s => ([], s)

def readExponent : List Char → Option (List Char × List Char)
  | [] => some ([], [])
  | c :: rest =>
    if c = 'e' ∨ c = 'E' then
      let (sign, rest) := readSign rest
      (readDigits rest).map fun (digits, rest) => (c :: sign ++ digits, rest)
    else some ([], c :: rest)

def readUnsigned (s : List Char) : Option (Number × List Char) := do
  let (whole, s) ← readWhole s
  let (fraction, s) ← readFraction s
  let (exponent, s) ← readExponent s
  if fraction.isEmpty && exponent.isEmpty then pure (.natural (Nat.ofDigitChars 10 whole 0), s)
  else pure (.other (whole ++ fraction ++ exponent), s)

def readNumber : List Char → Option (Number × List Char)
  | '-' :: rest => do
    let (n, s) ← readUnsigned rest
    match n with
    | .natural k => pure (.other ('-' :: Nat.toDigits 10 k), s)
    | .other literal => pure (.other ('-' :: literal), s)
  | s => readUnsigned s

/-! ### Strings -/

def hexValue? (c : Char) : Option Nat :=
  if c.isDigit then some (c.toNat - '0'.toNat)
  else if 'a' ≤ c ∧ c ≤ 'f' then some (c.toNat - 'a'.toNat + 10)
  else if 'A' ≤ c ∧ c ≤ 'F' then some (c.toNat - 'A'.toNat + 10)
  else none

def hexValues? (cs : List Char) : Option Nat :=
  cs.foldlM (fun n c => (hexValue? c).map (16 * n + ·)) 0

/-- The character behind a backslash, `u` apart. -/
def unescape? : Char → Option Char
  | '"' => some '"'
  | '\\' => some '\\'
  | '/' => some '/'
  | 'b' => some '\x08'
  | 'f' => some '\x0c'
  | 'n' => some '\n'
  | 'r' => some '\r'
  | 't' => some '\t'
  | _ => none

def isLead (n : Nat) : Bool := decide (0xd800 ≤ n ∧ n < 0xdc00)

def isTrail (n : Nat) : Bool := decide (0xdc00 ≤ n ∧ n < 0xe000)

/-- The character that two surrogates stand for. -/
def joinSurrogates (lead trail : Nat) : Char :=
  Char.ofNat (0x10000 + (lead - 0xd800) * 0x400 + (trail - 0xdc00))

/-- What has been read of a string, backwards, unless half a surrogate pair stood alone in it; and
the first half of a pair, if its second half is still to come. -/
structure TextSoFar where
  done : Option (List Char)
  lead : Option Nat

namespace TextSoFar

def empty : TextSoFar := ⟨some [], none⟩

/-- The text, now that no second half can follow. -/
def settled (t : TextSoFar) : Option (List Char) := if t.lead.isSome then none else t.done

def push (t : TextSoFar) (c : Char) : TextSoFar := ⟨t.settled.map (c :: ·), none⟩

/-- Adds the UTF-16 unit of an escape. -/
def pushUnit (t : TextSoFar) (n : Nat) : TextSoFar :=
  if isLead n then ⟨t.settled, some n⟩
  else if isTrail n then
    match t.lead with
    | some lead => ⟨t.done.map (joinSurrogates lead n :: ·), none⟩
    | none => ⟨none, none⟩
  else t.push (Char.ofNat n)

def text (t : TextSoFar) : Text := t.settled.map fun cs => String.ofList cs.reverse

end TextSoFar

/-- The rest of a string, up to its closing quote. -/
def readText (t : TextSoFar) : List Char → Option (Text × List Char)
  | [] => none
  | '"' :: rest => some (t.text, rest)
  | '\\' :: 'u' :: a :: b :: c :: d :: rest =>
    match hexValues? [a, b, c, d] with
    | some n => readText (t.pushUnit n) rest
    | none => none
  | '\\' :: c :: rest =>
    match unescape? c with
    | some x => readText (t.push x) rest
    | none => none
  | c :: rest => if c.toNat < 0x20 then none else readText (t.push c) rest

def readString : List Char → Option (Text × List Char)
  | '"' :: rest => readText .empty rest
  | _ => none

/-! ### Values -/

/-- Drops the given character after blanks. -/
def readMark (mark : Char) (s : List Char) : Option (List Char) :=
  match skipSpace s with
  | c :: rest => if c = mark then some rest else none
  | [] => none

mutual

def readValue : (fuel : Nat) → List Char → Option (Json × List Char)
  | 0, _ => none
  | fuel + 1, s =>
    match skipSpace s with
    | 'n' :: 'u' :: 'l' :: 'l' :: rest => some (.null, rest)
    | 't' :: 'r' :: 'u' :: 'e' :: rest => some (.bool true, rest)
    | 'f' :: 'a' :: 'l' :: 's' :: 'e' :: rest => some (.bool false, rest)
    | '"' :: rest => (readText .empty rest).map fun (text, rest) => (.string text, rest)
    | '[' :: rest =>
      match readMark ']' rest with
      | some rest => some (.array [], rest)
      | none => (readItems fuel rest).map fun (items, rest) => (.array items, rest)
    | '{' :: rest =>
      match readMark '}' rest with
      | some rest => some (.object [], rest)
      | none => (readFields fuel rest).map fun (fields, rest) => (.object fields, rest)
    | rest => (readNumber rest).map fun (n, rest) => (.number n, rest)

/-- One item or more, up to the closing bracket. -/
def readItems : (fuel : Nat) → List Char → Option (List Json × List Char)
  | 0, _ => none
  | fuel + 1, s => do
    let (item, s) ← readValue fuel s
    match readMark ',' s with
    | some s =>
      let (items, s) ← readItems fuel s
      pure (item :: items, s)
    | none =>
      let s ← readMark ']' s
      pure ([item], s)

/-- One field or more, up to the closing brace. -/
def readFields : (fuel : Nat) → List Char → Option (List (Text × Json) × List Char)
  | 0, _ => none
  | fuel + 1, s => do
    let (key, s) ← readString (skipSpace s)
    let s ← readMark ':' s
    let (value, s) ← readValue fuel s
    match readMark ',' s with
    | some s =>
      let (fields, s) ← readFields fuel s
      pure ((key, value) :: fields, s)
    | none =>
      let s ← readMark '}' s
      pure ([(key, value)], s)

end

/-- A text that holds one value and nothing else. -/
def parse (s : List Char) : Option Json :=
  match readValue (s.length + 1) s with
  | some (j, rest) => if (skipSpace rest).isEmpty then some j else none
  | none => none

end ApiProperties.Json

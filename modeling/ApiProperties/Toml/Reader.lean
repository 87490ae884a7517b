import ApiProperties.Toml
import ApiProperties.Text.Blank
import ApiProperties.Limits

/-!
Reading TOML. Each reader answers with what it read and the characters behind it, or `none`.
-/

set_option autoImplicit false

namespace ApiProperties.Toml

/-! ### Characters and blanks -/

def isSpace (c : Char) : Bool := c == ' ' || c == '\t'

/-- What may stand in comments and literal strings. -/
def isPrintable (c : Char) : Bool :=
  c == '\t' || decide (0x20 ≤ c.toNat ∧ c.toNat < 0x7f) || decide (0x80 ≤ c.toNat)

def isBareKey (c : Char) : Bool :=
  c.isDigit || decide ('a' ≤ c ∧ c ≤ 'z') || decide ('A' ≤ c ∧ c ≤ 'Z') || c == '_' || c == '-'

def skipSpace (s : List Char) : List Char := s.dropWhile isSpace

def readNewline : List Char → Option (List Char)
  | '\n' :: rest => some rest
  | '\r' :: '\n' :: rest => some rest
  | _ => none

/-- A comment, up to the end of its line. -/
def skipComment : List Char → List Char
  | '#' :: rest => rest.dropWhile isPrintable
  | s => s

/-- The end of a line, which a comment may precede. -/
def endLine (s : List Char) : Option (List Char) :=
  match skipComment (skipSpace s) with
  | [] => some []
  | s => readNewline s

/-- Blanks, comments and line ends; `fuel` bounds the lines. -/
def skipLines : (fuel : Nat) → List Char → List Char
  | 0, s => s
  | fuel + 1, s =>
    match readNewline (skipComment (skipSpace s)) with
    | some rest => skipLines fuel rest
    | none => skipSpace s

/-! ### Digits -/

/-- Digits with single underscores between them. -/
def readDigits (isDigit : Char → Bool) : List Char → Option (List Char × List Char)
  | [] => none
  | [c] => if isDigit c then some ([c], []) else none
  | c :: '_' :: rest =>
    if isDigit c then (readDigits isDigit rest).map fun (ds, rest) => (c :: ds, rest) else none
  | c :: d :: rest =>
    if !isDigit c then none
    else if isDigit d then
      (readDigits isDigit (d :: rest)).map fun (ds, rest) => (c :: ds, rest)
    else some ([c], d :: rest)

def readSign : List Char → Bool × List Char
  | '+' :: rest => (false, rest)
  | '-' :: rest => (true, rest)
  | s => (false, s)

def readWhole : List Char → Option (List Char × List Char)
  | '0' :: rest => some (['0'], rest)
  | s => readDigits Char.isDigit s

def digitValue (c : Char) : Nat :=
  if c.isDigit then c.toNat - '0'.toNat
  else if 'a' ≤ c then c.toNat - 'a'.toNat + 10
  else c.toNat - 'A'.toNat + 10

def valueOf (base : Nat) (digits : List Char) : Nat :=
  digits.foldl (fun n c => base * n + digitValue c) 0

def isHexDigit (c : Char) : Bool :=
  c.isDigit || decide ('a' ≤ c ∧ c ≤ 'f') || decide ('A' ≤ c ∧ c ≤ 'F')

/-! ### Moments -/

/-- Exactly `count` digits. -/
def readFixed (count : Nat) (s : List Char) : Option (Nat × List Char) :=
  let digits := s.take count
  if digits.length = count ∧ digits.all Char.isDigit then some (valueOf 10 digits, s.drop count)
  else none

/-- Two digits of a value in a range. -/
def readTwo (least most : Nat) (s : List Char) : Option (Nat × List Char) := do
  let (n, s) ← readFixed 2 s
  if least ≤ n ∧ n ≤ most then pure (n, s) else none

def readMark (mark : Char) : List Char → Option (List Char)
  | c :: rest => if c = mark then some rest else none
  | [] => none

def isLeapYear (year : Nat) : Bool :=
  year % 4 == 0 && (year % 100 != 0 || year % 400 == 0)

def daysIn (year month : Nat) : Nat :=
  if month = 2 then if isLeapYear year then 29 else 28
  else if month ∈ [4, 6, 9, 11] then 30
  else 31

def readDate (s : List Char) : Option (List Char) := do
  let (year, s) ← readFixed 4 s
  let (month, s) ← readTwo 1 12 (← readMark '-' s)
  let (_, s) ← readTwo 1 (daysIn year month) (← readMark '-' s)
  pure s

/-- Skips a time of day; a minute may have a leap second. -/
def readTime (s : List Char) : Option (List Char) := do
  let (_, s) ← readTwo 0 23 s
  let (_, s) ← readTwo 0 59 (← readMark ':' s)
  let (_, s) ← readTwo 0 60 (← readMark ':' s)
  match s with
  | '.' :: c :: rest => if c.isDigit then pure (rest.dropWhile Char.isDigit) else pure s
  | s => pure s

def readOffset : List Char → Option (List Char)
  | 'Z' :: rest => some rest
  | 'z' :: rest => some rest
  | c :: rest =>
    if c = '+' ∨ c = '-' then do
      let (_, s) ← readTwo 0 23 rest
      let (_, s) ← readTwo 0 59 (← readMark ':' s)
      pure s
    else some (c :: rest)
  | [] => some []

/-- Skips a date, a time, or a date with a time. -/
def readMoment (s : List Char) : Option (List Char) :=
  match readDate s with
  | some rest =>
    match rest with
    | c :: time =>
      if c = 'T' ∨ c = 't' ∨ c = ' ' then
        match readTime time with
        | some rest => readOffset rest
        | none => some rest
      else some rest
    | [] => some []
  | none => readTime s

/-! ### Numbers -/

def readFraction : List Char → Option (List Char × List Char)
  | '.' :: rest => (readDigits Char.isDigit rest).map fun (ds, rest) => ('.' :: ds, rest)
  | s => some ([], s)

def readExponent : List Char → Option (List Char × List Char)
  | c :: rest =>
    if c = 'e' ∨ c = 'E' then
      let (negative, rest) := readSign rest
      (readDigits Char.isDigit rest).map fun (ds, rest) =>
        ((if negative then ['e', '-'] else ['e']) ++ ds, rest)
    else some ([], c :: rest)
  | [] => some ([], [])

/-- Whether `whole.fraction · 10 ^ exponent` rounds to a finite double. -/
def isFinite (whole fraction exponent : List Char) : Bool :=
  let shift : Int := match exponent with
    | 'e' :: '-' :: ds => -(valueOf 10 ds : Int)
    | _ :: ds => valueOf 10 ds
    | [] => 0
  fitsDouble (valueOf 10 (whole ++ fraction.drop 1)) (shift - (fraction.drop 1).length)

def ofInt? (i : Int) : Option Toml :=
  if -(signedLimit : Int) ≤ i ∧ i < signedLimit then some (.integer i) else none

/-- A number with a sign or without. A positive one must not be too large for a double. -/
def readDecimal (s : List Char) : Option (Toml × List Char) := do
  let (negative, s) := readSign s
  match s with
  | 'i' :: 'n' :: 'f' :: rest => pure (.float "inf".toList, rest)
  | 'n' :: 'a' :: 'n' :: rest => pure (.float "nan".toList, rest)
  | s =>
    let (whole, s) ← readWhole s
    let (fraction, s) ← readFraction s
    let (exponent, s) ← readExponent s
    if fraction.isEmpty && exponent.isEmpty then
      let n : Int := valueOf 10 whole
      let v ← ofInt? (if negative then -n else n)
      pure (v, s)
    else if negative || isFinite whole fraction exponent then
      pure (.float (whole ++ fraction ++ exponent), s)
    else none

/-- An unsigned number in another base. -/
def readBased (base : Nat) (isDigit : Char → Bool) (s : List Char) :
    Option (Toml × List Char) := do
  let (digits, s) ← readDigits isDigit s
  let v ← ofInt? (valueOf base digits)
  pure (v, s)

def readNumber (s : List Char) : Option (Toml × List Char) :=
  match readMoment s with
  | some rest => some (.moment (s.take (s.length - rest.length)), rest)
  | none =>
    match s with
    | '0' :: 'x' :: rest => readBased 16 isHexDigit rest
    | '0' :: 'o' :: rest => readBased 8 (fun c => decide ('0' ≤ c ∧ c ≤ '7')) rest
    | '0' :: 'b' :: rest => readBased 2 (fun c => c == '0' || c == '1') rest
    | s => readDecimal s

/-! ### Strings -/

/-- The character that a code point in hexadecimal digits is. -/
def ofHex? (digits : List Char) : Option Char :=
  let n := valueOf 16 digits
  if digits.all isHexDigit && decide (n.isValidChar) then some (Char.ofNat n) else none

def unescape? : Char → Option Char
  | 'b' => some '\x08'
  | 't' => some '\t'
  | 'n' => some '\n'
  | 'f' => some '\x0c'
  | 'r' => some '\r'
  | '"' => some '"'
  | '\\' => some '\\'
  | _ => none

/-- Puts a character in front of the text read behind it. -/
def push? (c : Option Char) (r : Option (List Char × List Char)) : Option (List Char × List Char) :=
  match c, r with
  | some c, some (cs, rest) => some (c :: cs, rest)
  | _, _ => none

def readBasic : List Char → Option (List Char × List Char)
  | [] => none
  | '"' :: rest => some ([], rest)
  | '\\' :: 'u' :: a :: b :: c :: d :: rest => push? (ofHex? [a, b, c, d]) (readBasic rest)
  | '\\' :: 'U' :: a :: b :: c :: d :: e :: f :: g :: h :: rest =>
    push? (ofHex? [a, b, c, d, e, f, g, h]) (readBasic rest)
  | '\\' :: c :: rest => push? (unescape? c) (readBasic rest)
  | c :: rest => if isPrintable c then push? (some c) (readBasic rest) else none

def readLiteral (s : List Char) : Option (List Char × List Char) :=
  let text := s.takeWhile fun c => isPrintable c && c != '\''
  (readMark '\'' (s.dropWhile fun c => isPrintable c && c != '\'')).map fun rest => (text, rest)

/-- Three to five quotes end a string over several lines; those before the last three belong to
it. The answer is that text and what follows, or `none` if there are fewer or more. -/
def readClosing (quote : Char) (s : List Char) : Option (List Char × List Char) :=
  let quotes := s.takeWhile (· == quote)
  if 3 ≤ quotes.length ∧ quotes.length ≤ 5 then
    some (quotes.drop 3, s.dropWhile (· == quote))
  else none

def skipBlankLines : List Char → List Char
  | '\r' :: '\n' :: rest => skipBlankLines rest
  | c :: rest => if isSpace c || c == '\n' then skipBlankLines rest else c :: rest
  | [] => []

/-- What follows a backslash that ends its line. -/
def joinLines (s : List Char) : Option (List Char) :=
  (readNewline (skipSpace s)).map skipBlankLines

/-- The rest of a string over several lines; `fuel` bounds its characters. -/
def readLong : (fuel : Nat) → List Char → Option (List Char × List Char)
  | 0, _ => none
  | fuel + 1, s =>
    match s with
    | [] => none
    | '"' :: rest =>
      match s.takeWhile (· == '"') with
      | _ :: _ :: _ :: _ => readClosing '"' s
      | _ => push? (some '"') (readLong fuel rest)
    | '\\' :: 'u' :: a :: b :: c :: d :: rest => push? (ofHex? [a, b, c, d]) (readLong fuel rest)
    | '\\' :: 'U' :: a :: b :: c :: d :: e :: f :: g :: h :: rest =>
      push? (ofHex? [a, b, c, d, e, f, g, h]) (readLong fuel rest)
    | '\\' :: c :: rest =>
      match joinLines (c :: rest) with
      | some rest => readLong fuel rest
      | none => push? (unescape? c) (readLong fuel rest)
    | c :: rest =>
      match readNewline (c :: rest) with
      | some rest => push? (some '\n') (readLong fuel rest)
      | none => if isPrintable c then push? (some c) (readLong fuel rest) else none

/-- The rest of a literal string over several lines; `fuel` bounds its characters. -/
def readLongLiteral : (fuel : Nat) → List Char → Option (List Char × List Char)
  | 0, _ => none
  | fuel + 1, s =>
    match s with
    | [] => none
    | c :: rest =>
      if c = '\'' then
        match s.takeWhile (· == '\'') with
        | _ :: _ :: _ :: _ => readClosing '\'' s
        | _ => push? (some c) (readLongLiteral fuel rest)
      else
        match readNewline (c :: rest) with
        | some rest => push? (some '\n') (readLongLiteral fuel rest)
        | none => if isPrintable c then push? (some c) (readLongLiteral fuel rest) else none

/-- A line end right behind the opening quotes is dropped. -/
def dropFirstNewline (s : List Char) : List Char := (readNewline s).getD s

def readString : List Char → Option (List Char × List Char)
  | '"' :: '"' :: '"' :: rest => readLong (rest.length + 1) (dropFirstNewline rest)
  | '"' :: rest => readBasic rest
  | '\'' :: '\'' :: '\'' :: rest => readLongLiteral (rest.length + 1) (dropFirstNewline rest)
  | '\'' :: rest => readLiteral rest
  | _ => none

/-! ### Keys -/

/-- One part of a key with the blanks around it. -/
def readKeyPart (s : List Char) : Option (Key × List Char) := do
  let (key, rest) ← match skipSpace s with
    | '"' :: rest => readBasic rest
    | '\'' :: rest => readLiteral rest
    | s =>
      let key := s.takeWhile isBareKey
      if key.isEmpty then none else some (key, s.dropWhile isBareKey)
  pure (key, skipSpace rest)

/-- Parts with dots between them; `fuel` is more than the number of parts allowed. -/
def readKeyParts : (fuel : Nat) → List Char → Option (List Key × List Char)
  | 0, _ => none
  | fuel + 1, s => do
    let (key, s) ← readKeyPart s
    match s with
    | '.' :: rest =>
      let (keys, s) ← readKeyParts fuel rest
      pure (key :: keys, s)
    | s => pure ([key], s)

/-- How deep values may be nested, and how many parts a key may have. -/
def maxDepth : Nat := 79

def readKey (s : List Char) : Option (List Key × List Char) := readKeyParts maxDepth s

/-! ### Values -/

mutual

/-- A value in which `depth` more brackets or braces may be entered. -/
def readValue : (fuel depth : Nat) → List Char → Option (Toml × List Char)
  | 0, _, _ => none
  | fuel + 1, depth, s =>
    match s with
    | '"' :: _ | '\'' :: _ => (readString s).map fun (text, rest) => (.string text, rest)
    | '[' :: rest =>
      if depth = 0 then none
      else
        match readMark ']' (skipLines fuel rest) with
        | some rest => some (.array [], rest)
        | none =>
          (readItems fuel (depth - 1) rest).map fun (items, rest) => (.array items, rest)
    | '{' :: rest =>
      if depth = 0 then none
      else do
        let (pairs, rest) ← match readMark '}' (skipSpace rest) with
          | some rest => some ([], rest)
          | none => readPairs fuel (depth - 1) rest
        let table ← ofPairs? pairs
        pure (table, rest)
    | 't' :: 'r' :: 'u' :: 'e' :: rest => some (.boolean true, rest)
    | 'f' :: 'a' :: 'l' :: 's' :: 'e' :: rest => some (.boolean false, rest)
    | s => readNumber s

/-- One item or more, up to the closing bracket. A comma may stand behind the last one. -/
def readItems : (fuel depth : Nat) → List Char → Option (List Toml × List Char)
  | 0, _, _ => none
  | fuel + 1, depth, s => do
    let (item, s) ← readValue fuel depth (skipLines fuel s)
    match skipLines fuel s with
    | ',' :: rest =>
      match readMark ']' (skipLines fuel rest) with
      | some rest => pure ([item], rest)
      | none =>
        let (items, s) ← readItems fuel depth rest
        pure (item :: items, s)
    | ']' :: rest => pure ([item], rest)
    | _ => none

/-- One pair or more, up to the closing brace. -/
def readPairs : (fuel depth : Nat) → List Char → Option (List (List Key × Toml) × List Char)
  | 0, _, _ => none
  | fuel + 1, depth, s => do
    let (path, s) ← readKey s
    let s ← readMark '=' s
    let (value, s) ← readValue fuel depth (skipSpace s)
    match skipSpace s with
    | ',' :: rest =>
      let (pairs, s) ← readPairs fuel depth rest
      pure ((path, value) :: pairs, s)
    | '}' :: rest => pure ([(path, value)], rest)
    | _ => none

end

/-! ### Lines -/

def readAssignment (s : List Char) : Option (Assignment × List Char) := do
  let (path, s) ← readKey s
  let s ← readMark '=' s
  let (value, s) ← readValue (s.length + 1) maxDepth (skipSpace s)
  let s ← endLine s
  let key ← path.getLast?
  pure (⟨path.dropLast, key, value⟩, s)

/-- The assignments up to the next header or the end; `fuel` bounds the lines. -/
def readBody : (fuel : Nat) → List Char → Option (List Assignment × List Char)
  | 0, _ => none
  | fuel + 1, s =>
    match skipLines s.length s with
    | [] => some ([], [])
    | '[' :: rest => some ([], '[' :: rest)
    | '#' :: rest => if (skipComment ('#' :: rest)).isEmpty then some ([], []) else none
    | s => do
      let (a, s) ← readAssignment s
      let (body, s) ← readBody fuel s
      pure (a :: body, s)

/-- A header line: whether it repeats, and its path. -/
def readHeader (s : List Char) : Option (Bool × List Key × List Char) := do
  let s ← readMark '[' s
  match s with
  | '[' :: rest =>
    let (path, s) ← readKey rest
    let s ← endLine (← readMark ']' (← readMark ']' s))
    pure (true, path, s)
  | s =>
    let (path, s) ← readKey s
    let s ← endLine (← readMark ']' s)
    pure (false, path, s)

/-- The sections up to the end; `fuel` bounds their number. -/
def readSections : (fuel : Nat) → List Char → Option (List Section)
  | 0, _ => none
  | _ + 1, [] => some []
  | fuel + 1, s => do
    let (repeated, path, s) ← readHeader s
    let (body, s) ← readBody (s.length + 1) s
    let key ← path.getLast?
    let sections ← readSections fuel s
    pure (⟨repeated, path.dropLast, key, body⟩ :: sections)

/-- A byte order mark may precede the document. -/
def dropMark : List Char → List Char
  | c :: rest => if c = '\uFEFF' then rest else c :: rest
  | [] => []

def readDocument (s : List Char) : Option Document := do
  let s := dropMark s
  let (body, s) ← readBody (s.length + 1) s
  let sections ← readSections (s.length + 1) s
  pure ⟨body, sections⟩

def parse (s : List Char) : Option Entries := (readDocument s).bind Document.entries?

end ApiProperties.Toml

import ApiProperties.Json.Double
import ApiProperties.Json.Printer

/-!
Documents that are kept whole: every string has a text, every number that is no 64-bit integer is a
double, nothing is nested too deeply, and of a repeated key the last field counts.
-/

set_option autoImplicit false

namespace ApiProperties.Json

def digitsValue (digits : List Char) : Nat := Nat.ofDigitChars 10 digits 0

def digitsOf (cs : List Char) : List Nat :=
  (cs.filter Char.isDigit).map fun c => digitsValue [c]

/-- The exponent that a literal ends with, or 0. -/
def exponentOf (literal : List Char) : Int :=
  match literal.dropWhile fun c => c != 'e' && c != 'E' with
  | _ :: '-' :: digits => -(digitsValue digits : Int)
  | _ :: '+' :: digits => digitsValue digits
  | _ :: digits => digitsValue digits
  | [] => 0

/-- The number of a literal without a sign. -/
def decimalOf (literal : List Char) : Decimal :=
  let mantissa := literal.takeWhile fun c => c != 'e' && c != 'E'
  let whole := mantissa.takeWhile (· != '.')
  let fraction := mantissa.dropWhile (· != '.')
  let d := Decimal.ofDigits (digitsOf whole) (digitsOf fraction)
  { d with exponent := d.exponent + exponentOf literal }

/-- Whether a literal without its sign is an integer of 64 bits. Minus zero is none. -/
def isInteger (negative : Bool) (literal : List Char) : Bool :=
  let n := digitsValue literal
  literal.all Char.isDigit
    && if negative then decide (0 < n ∧ n ≤ signedLimit) else decide (n < wordLimit)

/-- A 64-bit integer, or else the double that is worked out for the number. -/
def Number.settle? (n : Number) : Option Number :=
  let (negative, literal) := match printNumber n with
    | '-' :: rest => (true, rest)
    | literal => (false, literal)
  if isInteger negative literal then some n
  else (decimalOf literal).toDouble?.map fun x => .ofDouble (if negative then -x else x)

/-- Adds a field in front, unless a later one has its key. -/
def addEarlier (key : String) (value : Json) (later : List (Text × Json)) : List (Text × Json) :=
  if later.any (·.1 == some key) then later else (some key, value) :: later

mutual

/-- The document without repeated keys; `levels` may still be entered. -/
def settle? : (levels : Nat) → Json → Option Json
  | _, .null => some .null
  | _, .bool b => some (.bool b)
  | _, .number n => n.settle?.map .number
  | _, .string text => text.map ofString
  | 0, .array _ => none
  | levels + 1, .array items => (settleItems? levels items).map .array
  | 0, .object _ => none
  | levels + 1, .object fields => (settleFields? levels fields).map .object

def settleItems? : (levels : Nat) → List Json → Option (List Json)
  | _, [] => some []
  | levels, item :: items => do
    let item ← settle? levels item
    let items ← settleItems? levels items
    pure (item :: items)

def settleFields? : (levels : Nat) → List (Text × Json) → Option (List (Text × Json))
  | _, [] => some []
  | _, (none, _) :: _ => none
  | levels, (some key, value) :: fields => do
    let value ← settle? levels value
    let fields ← settleFields? levels fields
    pure (addEarlier key value fields)

end

/-- The document that a JSON value is, nested at most 127 levels deep. -/
def document? (j : Json) : Option Json := settle? 127 j

end ApiProperties.Json

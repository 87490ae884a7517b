import ApiProperties.Limits

/-!
Decimal numbers and doubles. A decimal number is worked out in doubles from its leading digits, which
may miss the nearest double. A double is written with the fewest digits that no other double is nearer
to.
-/

set_option autoImplicit false

namespace ApiProperties

structure Decimal where
  digits : Nat
  exponent : Int
  deriving DecidableEq, Repr

namespace Decimal

def zero : Decimal := ⟨0, 0⟩

/-! ### Leading digits -/

/-- The digits with one more, if they still are a word. -/
def push? (d : Decimal) (digit : Nat) : Option Nat :=
  let n := 10 * d.digits + digit
  if n < wordLimit then some n else none

/-- Adds a digit before the point. Once one did not fit into the word, it and all behind it count as
zeros. -/
def addWhole (d : Decimal) (digit : Nat) : Decimal :=
  match d.push? digit with
  | some n => if d.exponent = 0 then ⟨n, 0⟩ else { d with exponent := d.exponent + 1 }
  | none => { d with exponent := d.exponent + 1 }

/-- Adds the digits behind the point, up to the first one that does not fit. -/
def addFraction (d : Decimal) : List Nat → Decimal
  | [] => d
  | digit :: digits =>
    match d.push? digit with
    | some n => addFraction ⟨n, d.exponent - 1⟩ digits
    | none => d

/-- The number that the digits before and behind a point stand for, up to those that are left out. -/
def ofDigits (whole fraction : List Nat) : Decimal :=
  (whole.foldl addWhole zero).addFraction fraction

/-! ### Into a double -/

def powerOfTen (k : Nat) : Float := Float.ofScientific 1 false k

/-- The largest power of ten that is a double. -/
def maxPower : Nat := 308

/-- A double divided by a power of ten, in steps of powers that are doubles. -/
def scaleDown (x : Float) (k : Nat) : Float :=
  if k ≤ maxPower then x / powerOfTen k
  else if x == 0 then x
  else scaleDown (x / powerOfTen maxPower) (k - maxPower)
termination_by k
decreasing_by simp only [maxPower] at *; omega

/-- The digits, which are a word, times the power of ten, both as doubles; none if that is infinite. -/
def toDouble? (d : Decimal) : Option Float :=
  let x := (UInt64.ofNat d.digits).toFloat
  if d.exponent < 0 then some (scaleDown x (-d.exponent).toNat)
  else if d.exponent ≤ maxPower then
    let y := x * powerOfTen d.exponent.toNat
    if y.isInf then none else some y
  else if d.digits = 0 then some x
  else none

/-! ### Out of a double -/

/-- The number `mantissa · 2 ^ exponent`. -/
structure Binary where
  mantissa : Nat
  exponent : Int
  deriving DecidableEq, Repr

/-- The exponent of the least doubles. -/
def minExponent : Int := -1074

def Binary.ofDouble (x : Float) : Binary :=
  let bits := x.toBits.toNat
  let exponent := bits / Nat.pow 2 52 % Nat.pow 2 11
  let fraction := bits % Nat.pow 2 52
  if exponent = 0 then ⟨fraction, minExponent⟩
  else ⟨Nat.pow 2 52 + fraction, minExponent - 1 + exponent⟩

/-- A multiple of `10 ^ e` to which no double is nearer than this one; the nearest of them, and of two
that are equally near, the even one. At the ends of the stretch that rounds to this double, another
one is equally near: there a tie goes to an even mantissa. -/
def Binary.multiple? (b : Binary) (e : Int) : Option Nat :=
  let step := Nat.pow 10 e.toNat * Nat.pow 2 (2 - b.exponent).toNat
  let quarter := Nat.pow 10 (-e).toNat * Nat.pow 2 (b.exponent - 2).toNat
  let belowGap := if b.mantissa = Nat.pow 2 52 ∧ minExponent < b.exponent then 1 else 2
  let value := 4 * b.mantissa * quarter
  let lower := (4 * b.mantissa - belowGap) * quarter
  let upper := (4 * b.mantissa + 2) * quarter
  let isInside (n : Nat) : Bool :=
    if b.mantissa % 2 = 0 then decide (lower ≤ n * step) && decide (n * step ≤ upper)
    else decide (lower < n * step) && decide (n * step < upper)
  let n := value / step
  if isInside n && isInside (n + 1) then
    let middle := (2 * n + 1) * step
    if 2 * value < middle || (2 * value == middle && n % 2 == 0) then some n else some (n + 1)
  else if isInside n then some n
  else if isInside (n + 1) then some (n + 1)
  else none

/-- No power of ten below this one is needed to tell doubles apart. -/
def minGrid : Int := -343

/-- The decimal number on the coarsest of the grids `minGrid`, … that has one for this double. -/
def Binary.shortestUpTo (b : Binary) : (grids : Nat) → Decimal
  | 0 => zero
  | grids + 1 =>
    match b.multiple? (minGrid + grids) with
    | some n => ⟨n, minGrid + grids⟩
    | none => b.shortestUpTo grids

def Binary.shortest (b : Binary) : Decimal := b.shortestUpTo 660

/-! ### Text -/

def intText (i : Int) : List Char :=
  if i < 0 then '-' :: Nat.toDigits 10 i.natAbs else Nat.toDigits 10 i.natAbs

/-- With a point and no exponent from `10 ^ -5` to below `10 ^ 16`, and else with an exponent and one
digit before the point. -/
def text (d : Decimal) : List Char :=
  let digits := Nat.toDigits 10 d.digits
  let point : Int := digits.length + d.exponent
  if 0 ≤ d.exponent ∧ point ≤ 16 then
    digits ++ List.replicate d.exponent.toNat '0' ++ ['.', '0']
  else if 0 < point ∧ point ≤ 16 then digits.take point.toNat ++ '.' :: digits.drop point.toNat
  else if -5 < point ∧ point ≤ 0 then
    '0' :: '.' :: List.replicate (-point).toNat '0' ++ digits
  else
    match digits with
    | [c] => c :: 'e' :: intText (point - 1)
    | c :: rest => c :: '.' :: rest ++ 'e' :: intText (point - 1)
    | [] => []

def ofDouble (x : Float) : List Char :=
  let b := Binary.ofDouble x
  let magnitude := if b.mantissa = 0 then ['0', '.', '0'] else b.shortest.text
  if Nat.pow 2 63 ≤ x.toBits.toNat then '-' :: magnitude else magnitude

end Decimal
end ApiProperties

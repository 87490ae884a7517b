/-!
How large numbers may be: words of 64 bits, and doubles, with which a decimal number is compared
exactly.
-/

set_option autoImplicit false

namespace ApiProperties

/-- One more than the largest number of 64 bits. -/
def wordLimit : Nat := Nat.pow 2 64

/-- One more than the largest signed number of 64 bits. -/
def signedLimit : Nat := Nat.pow 2 63

/-- The least magnitude that rounds to no finite double: half-way from the largest double to the next
power of two. -/
def doubleLimit : Nat := Nat.pow 2 1024 - Nat.pow 2 970

/-- Whether `n · 10 ^ k` rounds to a finite double. An exponent far from the limit is not worked
out. -/
def fitsDouble (n : Nat) (k : Int) : Bool :=
  let size := ((Nat.toDigits 10 n).length : Int) + k
  if n = 0 ∨ size < 300 then true
  else if 320 < size then false
  else if 0 ≤ k then decide (n * Nat.pow 10 k.toNat < doubleLimit)
  else decide (n < doubleLimit * Nat.pow 10 (-k).toNat)

end ApiProperties

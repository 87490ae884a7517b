import ApiProperties.Text.CaseData

/-!
Capital and small letters. ASCII is answered directly, everything else from `CaseData`. A letter can
have neither property (title case) and its other form can be several letters.
-/

set_option autoImplicit false

namespace ApiProperties

def isLowercase (c : Char) : Bool :=
  if c.toNat < 128 then c.isLower else CaseData.lowercaseRuns.any (·.has c.toNat)

def isUppercase (c : Char) : Bool :=
  if c.toNat < 128 then c.isUpper else CaseData.uppercaseRuns.any (·.has c.toNat)

/-- The image of a code point beyond ASCII: an expansion if it has one, else its shift, else itself. -/
def CaseData.image (expansions : List (Nat × List Nat)) (shifts : List Shift) (c : Char) : List Char :=
  match expansions.find? (·.1 == c.toNat) with
  | some (_, letters) => letters.map Char.ofNat
  | none =>
    match shifts.find? (·.run.has c.toNat) with
    | some s => [Char.ofNat (c.toNat + s.distance).toNat]
    | none => [c]

def lowercase (c : Char) : List Char :=
  if c.toNat < 128 then [c.toLower]
  else CaseData.image CaseData.lowerExpansions CaseData.lowerShifts c

def uppercase (c : Char) : List Char :=
  if c.toNat < 128 then [c.toUpper]
  else CaseData.image CaseData.upperExpansions CaseData.upperShifts c

theorem isLowercase_ascii {c : Char} (h : c.toNat < 128) : isLowercase c = c.isLower := by
  simp [isLowercase, h]

theorem isUppercase_ascii {c : Char} (h : c.toNat < 128) : isUppercase c = c.isUpper := by
  simp [isUppercase, h]

theorem lowercase_ascii {c : Char} (h : c.toNat < 128) : lowercase c = [c.toLower] := by
  simp [lowercase, h]

theorem uppercase_ascii {c : Char} (h : c.toNat < 128) : uppercase c = [c.toUpper] := by
  simp [uppercase, h]

/-- Equality of texts up to the case of ASCII letters. -/
def sameIgnoringAsciiCase (a b : List Char) : Bool :=
  a.map Char.toLower == b.map Char.toLower

end ApiProperties

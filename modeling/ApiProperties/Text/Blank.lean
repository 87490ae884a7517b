/-!
Blank characters (the property White_Space), trimming, and cutting a text into pieces.
-/

set_option autoImplicit false

namespace ApiProperties

def isBlank (c : Char) : Bool :=
  let n := c.toNat
  decide (9 ≤ n ∧ n ≤ 13) || n == 0x20 || n == 0x85 || n == 0xa0 || n == 0x1680
    || decide (0x2000 ≤ n ∧ n ≤ 0x200a) || n == 0x2028 || n == 0x2029 || n == 0x202f
    || n == 0x205f || n == 0x3000

def dropEndWhile (p : Char → Bool) (s : List Char) : List Char :=
  (s.reverse.dropWhile p).reverse

def trimBoth (p : Char → Bool) (s : List Char) : List Char :=
  dropEndWhile p (s.dropWhile p)

/-- The pieces between separators, empty ones included. -/
def pieces (separator : Char) : List Char → List (List Char)
  | [] => [[]]
  | c :: rest =>
    if c = separator then [] :: pieces separator rest
    else
      match pieces separator rest with
      | piece :: others => (c :: piece) :: others
      | [] => [[c]]

def joinPieces (separator : Char) : List (List Char) → List Char
  | [] => []
  | [piece] => piece
  | piece :: others => piece ++ separator :: joinPieces separator others

def dropEmptyEnd (pieces : List (List Char)) : List (List Char) :=
  (pieces.reverse.dropWhile List.isEmpty).reverse

theorem pieces_ne_nil (separator : Char) (s : List Char) : pieces separator s ≠ [] := by
  cases s with
  | nil => simp [pieces]
  | cons c rest =>
    rw [pieces]
    split
    · simp
    · split <;> simp

theorem joinPieces_pieces (separator : Char) (s : List Char) :
    joinPieces separator (pieces separator s) = s := by
  induction s with
  | nil => rfl
  | cons c rest ih =>
    have hne := pieces_ne_nil separator rest
    rw [pieces]
    split
    · rename_i hc
      cases hp : pieces separator rest with
      | nil => exact absurd hp hne
      | cons piece others => rw [joinPieces, ← hp, ih, hc] <;> simp
    · cases hp : pieces separator rest with
      | nil => exact absurd hp hne
      | cons piece others =>
        rw [hp] at ih
        cases others with
        | nil => simpa [joinPieces] using ih
        | cons other others => simpa [joinPieces] using ih

end ApiProperties

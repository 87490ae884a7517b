/-!
In which order workers take their steps. A batch goes through a list of files, and each of them takes
two steps: it is loaded, and then its output is saved. Each step is taken as a whole. Between the two
the file is in the hands of a worker, and other workers may take steps.
-/

set_option autoImplicit false

namespace ApiProperties

/-- What the number of workers depends on besides the settings. -/
structure Machine where
  processors : Nat
  /-- How many workers it chooses by itself. -/
  choice : Nat
  choice_pos : 0 < choice

def Machine.single : Machine := ⟨1, 1, Nat.one_pos⟩

/-- What workers have in their hands: a file is taken up, and put down when its turn comes again. -/
def Timetable.hold (held : List Nat) (i : Nat) : List Nat :=
  if held.contains i then held.erase i else i :: held

/-- The steps of `workers` over `count` files, each step by the place of its file. -/
structure Timetable (workers count : Nat) where
  steps : List Nat
  twice : steps.Perm (List.range count ++ List.range count)
  hands : ∀ n ≤ steps.length, ((steps.take n).foldl Timetable.hold []).length ≤ workers

namespace Timetable

theorem perm_flatMap_pair (l : List Nat) : (l.flatMap fun i => [i, i]).Perm (l ++ l) := by
  induction l with
  | nil => exact .nil
  | cons i l ih => exact ((ih.cons i).trans List.perm_middle.symm).cons i

theorem length_hold_pairs_le (l : List Nat) (n : Nat) :
    (((l.flatMap fun i => [i, i]).take n).foldl hold []).length ≤ 1 := by
  induction l generalizing n with
  | nil => simp
  | cons i l ih =>
    match n with
    | 0 => simp
    | 1 => simp [hold]
    | n + 2 => simpa [hold] using ih n

/-- One file after the other. -/
def oneByOne {workers count : Nat} (h : 0 < workers) : Timetable workers count where
  steps := (List.range count).flatMap fun i => [i, i]
  twice := perm_flatMap_pair _
  hands n _ := Nat.le_trans (length_hold_pairs_le _ n) h

end Timetable
end ApiProperties

import ApiProperties.Path

/-!
The pieces and the steps of paths, and what becomes of them when paths are joined.
-/

set_option autoImplicit false

namespace ApiProperties

section Pieces
variable {separator : Char}

theorem pieces_append (a b : List Char) :
    pieces separator (a ++ separator :: b) = pieces separator a ++ pieces separator b := by
  induction a with
  | nil => simp [pieces]
  | cons c a ih =>
    rw [List.cons_append, pieces, pieces, ih]
    split
    · rfl
    · cases h : pieces separator a with
      | nil => exact absurd h (pieces_ne_nil separator a)
      | cons piece others => rfl

theorem pieces_of_notMem {s : List Char} (h : separator ∉ s) : pieces separator s = [s] := by
  induction s with
  | nil => rfl
  | cons c s ih =>
    obtain ⟨hc, hs⟩ := not_or.1 (mt List.mem_cons.2 h)
    rw [pieces, if_neg (Ne.symm hc), ih hs]

theorem joinPieces_singleton (name : List Char) : joinPieces separator [name] = name := rfl

theorem pieces_joinPieces {names : List (List Char)} (hne : names ≠ [])
    (h : ∀ name ∈ names, separator ∉ name) : pieces separator (joinPieces separator names) = names := by
  induction names with
  | nil => exact absurd rfl hne
  | cons name names ih =>
    obtain ⟨hname, hnames⟩ := List.forall_mem_cons.1 h
    cases names with
    | nil => exact pieces_of_notMem hname
    | cons next names =>
      rw [joinPieces, pieces_append, pieces_of_notMem hname, ih (by simp) hnames]
      · rfl
      · simp

end Pieces

namespace Path

/-! ### Steps -/

/-- The step of a piece behind the first one. -/
def stepOf (piece : List Char) : Step := ⟨component? piece, piece⟩

/-- The step of the first piece, which may be the only one. -/
def firstStep (alone : Bool) (piece : List Char) : Step :=
  if piece = [] then ⟨if alone then none else some .root, []⟩
  else if piece = ['.'] then ⟨some .here, ['.']⟩
  else stepOf piece

theorem steps_of_pieces {path piece : List Char} {others : List (List Char)}
    (h : pieces '/' path = piece :: others) :
    steps path = firstStep others.isEmpty piece :: others.map stepOf := by
  unfold steps firstStep
  rw [h]
  split
  · rename_i heq
    cases heq
    rfl
  · rename_i heq
    cases heq
    rfl
  · rename_i hroot hhere
    rw [if_neg, if_neg]
    · rfl
    · rintro rfl
      exact hhere others rfl
    · rintro rfl
      exact hroot others rfl

theorem component?_of_normal {piece name : List Char} (h : component? piece = some (.normal name)) :
    piece = name ∧ piece ≠ [] ∧ piece ≠ ['.'] := by
  unfold component? at h
  split at h
  · cases h
  · rename_i hvoid
    split at h
    · cases h
    · cases h
      exact ⟨rfl, not_or.1 hvoid⟩

theorem firstStep_of_normal {alone : Bool} {name : List Char}
    (h : component? name = some (.normal name)) : firstStep alone name = stepOf name := by
  obtain ⟨-, hne, hhere⟩ := component?_of_normal h
  rw [firstStep, if_neg hne, if_neg hhere]

/-- A path whose last piece is a name ends in this name. -/
theorem fileName?_of_pieces {path name : List Char} {above : List (List Char)}
    (hpieces : pieces '/' path = above ++ [name]) (h : component? name = some (.normal name)) :
    fileName? path = some name := by
  have hlast : ∃ before, steps path = before ++ [stepOf name] := by
    cases above with
    | nil => exact ⟨[], by rw [steps_of_pieces hpieces, firstStep_of_normal h]; rfl⟩
    | cons piece above =>
      refine ⟨firstStep (above ++ [name]).isEmpty piece :: above.map stepOf, ?_⟩
      rw [steps_of_pieces hpieces]
      simp
  obtain ⟨before, hsteps⟩ := hlast
  have hcomponents : components path = before.filterMap (·.component) ++ [.normal name] := by
    simp [components, hsteps, List.filterMap_append, stepOf, h]
  rw [fileName?, hcomponents, List.getLast?_concat]

end Path
end ApiProperties

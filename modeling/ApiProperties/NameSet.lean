/-!
Sets of names, listed in ascending order and without repetition, so that equal sets are equal.
-/

set_option autoImplicit false

namespace ApiProperties

def insertName (name : String) : List String → List String
  | [] => [name]
  | other :: rest =>
    if name < other then name :: other :: rest
    else if name = other then other :: rest
    else other :: insertName name rest

theorem mem_insertName {x name : String} {names : List String} :
    x ∈ insertName name names ↔ x = name ∨ x ∈ names := by
  induction names with
  | nil => simp [insertName]
  | cons other rest ih => grind [insertName]

theorem ascending_insertName {names : List String} (name : String)
    (h : names.Pairwise (· < ·)) : (insertName name names).Pairwise (· < ·) := by
  induction names with
  | nil => simp [insertName]
  | cons other rest ih =>
    obtain ⟨hlt, hrest⟩ := List.pairwise_cons.1 h
    rw [insertName]
    split
    · rename_i hn
      refine List.pairwise_cons.2 ⟨fun x hx => ?_, h⟩
      rcases List.mem_cons.1 hx with rfl | hx
      · exact hn
      · exact String.lt_trans hn (hlt x hx)
    · split
      · exact h
      · rename_i h1 h2
        refine List.pairwise_cons.2 ⟨fun x hx => ?_, ih hrest⟩
        rcases mem_insertName.1 hx with rfl | hx
        · exact Std.lt_of_le_of_ne (Std.not_lt.1 h1) (Ne.symm h2)
        · exact hlt x hx

structure NameSet where
  names : List String
  ascending : names.Pairwise (· < ·)
  deriving DecidableEq

namespace NameSet

instance : Repr NameSet := ⟨fun s _ => repr s.names⟩

def empty : NameSet := ⟨[], List.Pairwise.nil⟩

def insert (s : NameSet) (name : String) : NameSet :=
  ⟨insertName name s.names, ascending_insertName name s.ascending⟩

def contains (s : NameSet) (name : String) : Bool := s.names.contains name

def ofList (names : List String) : NameSet := names.foldl insert empty

theorem contains_insert (s : NameSet) (name x : String) :
    (s.insert name).contains x = (x == name || s.contains x) := by
  rw [Bool.eq_iff_iff]
  simp [contains, insert, mem_insertName]

end NameSet
end ApiProperties

import ApiProperties.Proofs.Letters

/-!
First words of names, and the names that are spelled with them. A first word is collected over digits
and in small letters, so it can be `get` although the name does not begin with these letters. Whatever
drops the word from a name compares the two, and this leaves the names that begin with the word and end
it there.
-/

set_option autoImplicit false

namespace ApiProperties.Name
variable {name front word rest : List Char} {c : Char}

/-! ### Identifiers and their words -/

/-- ASCII letters, digits and underscores. -/
def Identifier (name : List Char) : Prop := ∀ c ∈ name, c.isAlphanum = true ∨ c = '_'

instance (name : List Char) : Decidable (Identifier name) := List.decidableBAll _ name

/-- The first character is of the kind. -/
def Begins (kind : Char → Bool) (name : List Char) : Prop :=
  ∃ c rest, name = c :: rest ∧ kind c = true

/-- The word itself, or the word with a capital. -/
def Spells (front word : List Char) : Prop := front = word ∨ front = capitalize word

instance (front word : List Char) : Decidable (Spells front word) :=
  inferInstanceAs (Decidable (_ ∨ _))

/-- ASCII letters, all of them small. -/
def Small (word : List Char) : Prop := word ≠ [] ∧ ∀ c ∈ word, c.isLower = true

instance (word : List Char) : Decidable (Small word) :=
  @instDecidableAnd _ _ _ (List.decidableBAll _ word)

theorem kind_of_identifier (h : c.isAlphanum = true ∨ c = '_') :
    c.isLower = true ∨ c.isUpper = true ∨ c.isDigit = true ∨ c = '_' := by
  rcases h with h | h
  · have hkinds : (c.isUpper || c.isLower || c.isDigit) = true := h
    simp only [Bool.or_eq_true] at hkinds
    rcases hkinds with (hupper | hlower) | hdigit
    · exact .inr (.inl hupper)
    · exact .inl hlower
    · exact .inr (.inr (.inl hdigit))
  · exact .inr (.inr (.inr h))

theorem ascii_of_identifier (h : c.isAlphanum = true ∨ c = '_') : c.toNat < 128 := by
  rcases kind_of_identifier h with h | h | h | rfl
  · have := toNat_of_isLower h
    omega
  · have := toNat_of_isUpper h
    omega
  · have := toNat_of_isDigit h
    omega
  · decide

/-! ### Where a first word ends -/

theorem wordTail_append (h : ∀ c ∈ word, c.isLower = true) (rest : List Char) :
    wordTail (word ++ rest) = word ++ wordTail rest := by
  induction word with
  | nil => rfl
  | cons c word ih =>
    obtain ⟨hc, hword⟩ := List.forall_mem_cons.1 h
    rw [List.cons_append, wordTail, if_pos (lowercase_of_isLower hc).1, ih hword, List.cons_append]

theorem wordTail_capital (h : c.isUpper = true) (rest : List Char) : wordTail (c :: rest) = [] := by
  obtain ⟨hupper, hlower⟩ := isUppercase_of_isUpper h
  simp [wordTail, hupper, hlower, ne_underscore_of_isUpper h]

theorem wordTail_underscore (rest : List Char) : wordTail ('_' :: rest) = ['_'] := by
  have hlower : isLowercase '_' = false := by decide
  simp [wordTail, hlower]

theorem wordTail_digit (h : c.isDigit = true) (rest : List Char) :
    wordTail (c :: rest) = wordTail rest := by
  have hascii : c.toNat < 128 := (toNat_of_isDigit h).trans (by decide)
  have hother : c.isLower = false ∧ c.isUpper = false ∧ c ≠ '_' :=
    forall_ascii (p := fun c => c.isDigit = true → c.isLower = false ∧ c.isUpper = false ∧ c ≠ '_')
      (by decide +kernel) hascii h
  simp [wordTail, isLowercase_ascii hascii, isUppercase_ascii hascii, hother]

theorem wordTail_of_digits {digits : List Char} (hdigits : ∀ c ∈ digits, c.isDigit = true)
    (hrest : rest = [] ∨ Begins Char.isUpper rest) : wordTail (digits ++ rest) = [] := by
  induction digits with
  | nil =>
    rcases hrest with rfl | ⟨c, tail, rfl, hc⟩
    · rfl
    · exact wordTail_capital hc tail
  | cons c digits ih =>
    obtain ⟨hc, hdigits⟩ := List.forall_mem_cons.1 hdigits
    rw [List.cons_append, wordTail_digit hc, ih hdigits]

theorem isUpper_of_wordTail (hc : c.isAlphanum = true ∨ c = '_') (hdigit : ¬ c.isDigit = true)
    (h : wordTail (c :: rest) = []) : c.isUpper = true := by
  rcases kind_of_identifier hc with hkind | hkind | hkind | rfl
  · rw [wordTail, if_pos (lowercase_of_isLower hkind).1] at h
    cases h
  · exact hkind
  · exact absurd hkind hdigit
  · rw [wordTail_underscore] at h
    cases h

/-- A word ends at once only if digits lead to a capital or to the end. -/
theorem exists_digits_of_wordTail (hrest : Identifier rest) (h : wordTail rest = []) :
    ∃ digits tail, rest = digits ++ tail ∧ (∀ c ∈ digits, c.isDigit = true) ∧
      (tail = [] ∨ Begins Char.isUpper tail) := by
  induction rest with
  | nil => exact ⟨[], [], rfl, by simp, .inl rfl⟩
  | cons c rest ih =>
    obtain ⟨hc, hrest⟩ := List.forall_mem_cons.1 hrest
    by_cases hdigit : c.isDigit = true
    · rw [wordTail_digit hdigit] at h
      obtain ⟨digits, tail, rfl, hdigits, htail⟩ := ih hrest h
      exact ⟨c :: digits, tail, rfl, List.forall_mem_cons.2 ⟨hdigit, hdigits⟩, htail⟩
    · exact ⟨[], c :: rest, rfl, by simp, .inr ⟨c, rest, rfl, isUpper_of_wordTail hc hdigit h⟩⟩

/-! ### Names that are spelled with a word -/

theorem stripWord_eq_some : stripWord name word = some rest ↔
    ∃ front, name = front ++ rest ∧ front.map Char.toLower = word.map Char.toLower := by
  induction word generalizing name with
  | nil =>
    rw [stripWord_nil]
    constructor
    · intro h
      exact ⟨[], Option.some.inj h, rfl⟩
    · rintro ⟨front, rfl, hmap⟩
      rw [List.map_eq_nil_iff.1 hmap, List.nil_append]
  | cons w word ih =>
    cases name with
    | nil =>
      constructor
      · intro h
        cases h
      · rintro ⟨front, happend, hmap⟩
        rw [(List.append_eq_nil_iff.1 happend.symm).1] at hmap
        cases hmap
    | cons c name =>
      rw [stripWord]
      constructor
      · intro h
        split at h
        · rename_i hc
          obtain ⟨front, rfl, hmap⟩ := ih.1 h
          exact ⟨c :: front, rfl, by rw [List.map_cons, List.map_cons, hc, hmap]⟩
        · cases h
      · rintro ⟨front, happend, hmap⟩
        cases front with
        | nil => cases hmap
        | cons c' front =>
          obtain ⟨rfl, rfl⟩ := List.cons.inj happend
          obtain ⟨hc, hmap⟩ := List.cons.inj hmap
          rw [if_pos hc]
          exact ih.2 ⟨front, rfl, hmap⟩

namespace Spells
variable (hword : Small word) (h : Spells front word)
include hword h

theorem map_toLower : front.map Char.toLower = word := by
  obtain ⟨hne, hsmall⟩ := hword
  rcases h with rfl | rfl
  · exact map_toLower_of_isLower hsmall
  · obtain ⟨c, s, rfl⟩ := List.exists_cons_of_ne_nil hne
    obtain ⟨hc, hs⟩ := List.forall_mem_cons.1 hsmall
    obtain ⟨hupper, -, hback⟩ := capital_of_isLower hc
    rw [capitalize, hupper, List.singleton_append, List.map_cons, hback, map_toLower_of_isLower hs]

theorem firstWord_append (rest : List Char) : firstWord (front ++ rest) = word ++ wordTail rest := by
  obtain ⟨hne, hsmall⟩ := hword
  obtain ⟨c, s, rfl⟩ := List.exists_cons_of_ne_nil hne
  obtain ⟨hc, hs⟩ := List.forall_mem_cons.1 hsmall
  rcases h with rfl | rfl
  · rw [List.cons_append, firstWord, (lowercase_of_isLower hc).2, wordTail_append hs]
    rfl
  · obtain ⟨hupper, hlower, -⟩ := capital_of_isLower hc
    rw [capitalize, hupper, List.singleton_append, List.cons_append, firstWord, hlower,
      wordTail_append hs]
    rfl

theorem stripWord_append (rest : List Char) : stripWord (front ++ rest) word = some rest :=
  stripWord_eq_some.2 ⟨front, rfl, by rw [h.map_toLower hword, map_toLower_of_isLower hword.2]⟩

theorem stripWord_underscore (rest : List Char) :
    stripWord (front ++ '_' :: rest) (word ++ ['_']) = some rest := by
  refine stripWord_eq_some.2 ⟨front ++ ['_'], by simp, ?_⟩
  rw [List.map_append, List.map_append, h.map_toLower hword, map_toLower_of_isLower hword.2]

end Spells

/-- Letters that a word collects are small already. -/
theorem map_toLower_of_prefix (hascii : ∀ c ∈ front, c.toNat < 128)
    (hsmall : ∀ c ∈ front, c.toLower.isLower = true)
    (h : front.map Char.toLower <+: wordTail (front ++ rest)) : front.map Char.toLower = front := by
  induction front with
  | nil => rfl
  | cons c front ih =>
    obtain ⟨hc, hascii⟩ := List.forall_mem_cons.1 hascii
    obtain ⟨hlower, hsmall⟩ := List.forall_mem_cons.1 hsmall
    rcases isLetter_of_isLower_toLower hc hlower with hletter | hletter
    · rw [List.cons_append, wordTail, if_pos (lowercase_of_isLower hletter).1, List.map_cons,
        List.cons_prefix_cons] at h
      rw [List.map_cons, h.1, ih hascii hsmall h.2]
    · rw [List.cons_append, wordTail_capital hletter, List.prefix_nil] at h
      cases h

/-- What is the word up to case, and starts with it as a word, spells it. -/
theorem spells_of_map_toLower (hascii : ∀ c ∈ front, c.toNat < 128) (hword : Small word)
    (hmap : front.map Char.toLower = word) (h : word <+: firstWord (front ++ rest)) :
    Spells front word := by
  subst hmap
  obtain ⟨hne, hsmall⟩ := hword
  cases front with
  | nil => exact absurd rfl hne
  | cons c front =>
    obtain ⟨hc, hfront⟩ := List.forall_mem_cons.1 hascii
    obtain ⟨hlower, hletters⟩ := List.forall_mem_cons.1 (List.forall_mem_map.1 hsmall)
    rw [List.cons_append, firstWord, lowercase_ascii hc, List.singleton_append, List.map_cons,
      List.cons_prefix_cons] at h
    rw [Spells, List.map_cons, map_toLower_of_prefix hfront hletters h.2, capitalize,
      (capital_of_isLower hlower).1, List.singleton_append]
    exact (eq_or_capital_of_toLower hc hlower).imp (congrArg (· :: front)) (congrArg (· :: front))

/-- A name whose first word is dropped is spelled with it, and is cut at the end of the word. -/
theorem spelled_of_stripWord (hname : Identifier name) (hword : Small word)
    (hmatch : matchesWord (firstWord name) [word] = true)
    (hrest : stripWord name (firstWord name) = some rest) :
    ∃ front, Spells front word ∧
      (name = front ++ '_' :: rest ∨ name = front ++ rest ∧ wordTail rest = []) := by
  obtain ⟨front, rfl, hmap⟩ := stripWord_eq_some.1 hrest
  have hascii : ∀ c ∈ front, c.toNat < 128 := fun c hc =>
    ascii_of_identifier (hname c (List.mem_append_left rest hc))
  have hfirst : firstWord (front ++ rest) = word ∨ firstWord (front ++ rest) = word ++ ['_'] := by
    simpa [matchesWord] using hmatch
  rcases hfirst with hfirst | hfirst
  · rw [hfirst, map_toLower_of_isLower hword.2] at hmap
    have hprefix : word <+: firstWord (front ++ rest) := ⟨[], by rw [List.append_nil, hfirst]⟩
    have hspells := spells_of_map_toLower hascii hword hmap hprefix
    rw [hspells.firstWord_append hword, List.append_right_eq_self] at hfirst
    exact ⟨front, hspells, .inr ⟨rfl, hfirst⟩⟩
  · rw [hfirst, List.map_append, map_toLower_of_isLower hword.2] at hmap
    obtain ⟨front, last, rfl, hfront, hlast⟩ := List.map_eq_append_iff.1 hmap
    obtain ⟨u, rfl, hu⟩ := List.map_eq_singleton_iff.1 hlast
    obtain rfl : u = '_' :=
      forall_ascii (p := fun c => c.toLower = '_'.toLower → c = '_') (by decide +kernel)
        (hascii u (by simp)) hu
    have hprefix : word <+: firstWord (front ++ (['_'] ++ rest)) :=
      ⟨['_'], by rw [← List.append_assoc, hfirst]⟩
    exact ⟨front, spells_of_map_toLower (fun c hc => hascii c (List.mem_append_left _ hc)) hword
      hfront hprefix, .inl (by simp)⟩

end ApiProperties.Name

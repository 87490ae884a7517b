import Mathlib.Data.List.DropRight
import ApiProperties.Name

/-!
Letters, digits and underscores of names. What is said of ASCII characters is decided on the first 128
code points; an underscore is the small form of no other character, ASCII or not.
-/

set_option autoImplicit false

namespace ApiProperties
variable {c : Char}

/-! ### ASCII -/

/-- What holds of the first 128 code points holds of the ASCII characters. -/
theorem forall_ascii {p : Char → Prop} (h : ∀ n < 128, p (Char.ofNat n)) {c : Char}
    (hc : c.toNat < 128) : p c := by
  have hp := h c.toNat hc
  rwa [Char.ofNat_toNat] at hp

theorem toNat_of_isUpper (h : c.isUpper = true) : 65 ≤ c.toNat ∧ c.toNat ≤ 90 := by
  have hrange : 65 ≤ c.val ∧ c.val ≤ 90 := of_decide_eq_true h
  simpa [UInt32.le_iff_toNat_le] using hrange

theorem toNat_of_isLower (h : c.isLower = true) : 97 ≤ c.toNat ∧ c.toNat ≤ 122 := by
  have hrange : (decide (97 ≤ c.val) && decide (c.val ≤ 122)) = true := h
  simpa [UInt32.le_iff_toNat_le] using hrange

theorem isUppercase_of_isUpper (h : c.isUpper = true) :
    isUppercase c = true ∧ isLowercase c = false := by
  have hrange := toNat_of_isUpper h
  have hascii : c.toNat < 128 := by omega
  rw [isUppercase_ascii hascii, isLowercase_ascii hascii]
  refine ⟨h, Bool.eq_false_iff.2 fun hlower => ?_⟩
  have hsmall := toNat_of_isLower hlower
  omega

theorem toLower_of_isLower (h : c.isLower = true) : c.toLower = c := by
  have hrange := toNat_of_isLower h
  exact forall_ascii (p := fun c => c.isLower = true → c.toLower = c) (by decide +kernel)
    (by omega) h

theorem map_toLower_of_isLower {word : List Char} (h : ∀ c ∈ word, c.isLower = true) :
    word.map Char.toLower = word :=
  (List.map_congr_left fun c hc => toLower_of_isLower (h c hc)).trans (List.map_id word)

theorem lowercase_of_isLower (h : c.isLower = true) :
    isLowercase c = true ∧ lowercase c = [c] := by
  have hrange := toNat_of_isLower h
  have hascii : c.toNat < 128 := by omega
  rw [isLowercase_ascii hascii, lowercase_ascii hascii, toLower_of_isLower h]
  exact ⟨h, rfl⟩

theorem ne_underscore_of_isUpper (h : c.isUpper = true) : c ≠ '_' := by
  rintro rfl
  exact absurd h (by decide)

theorem ne_underscore_of_isLower (h : c.isLower = true) : c ≠ '_' := by
  rintro rfl
  exact absurd h (by decide)

theorem isDigit_eq_false (h : 65 ≤ c.toNat) : c.isDigit = false := by
  rw [Bool.eq_false_iff]
  intro hdigit
  have hrange : 48 ≤ c.toNat ∧ c.toNat ≤ 57 := by
    simpa [Char.isDigit, UInt32.le_iff_toNat_le] using hdigit
  omega

theorem toNat_of_isDigit (h : c.isDigit = true) : c.toNat < 65 := by
  by_contra hle
  rw [isDigit_eq_false (not_lt.1 hle)] at h
  cases h

theorem isLetter_of_isLower_toLower (hc : c.toNat < 128) (h : c.toLower.isLower = true) :
    c.isLower = true ∨ c.isUpper = true :=
  forall_ascii (p := fun c => c.toLower.isLower = true → c.isLower = true ∨ c.isUpper = true)
    (by decide +kernel) hc h

theorem eq_or_capital_of_toLower (hc : c.toNat < 128) (h : c.toLower.isLower = true) :
    c = c.toLower ∨ c = c.toLower.toUpper :=
  forall_ascii (p := fun c => c.toLower.isLower = true → c = c.toLower ∨ c = c.toLower.toUpper)
    (by decide +kernel) hc h

theorem capital_of_isLower (h : c.isLower = true) :
    uppercase c = [c.toUpper] ∧ lowercase c.toUpper = [c] ∧ c.toUpper.toLower = c := by
  have hrange := toNat_of_isLower h
  have hascii : c.toNat < 128 := by omega
  have hback : c.toUpper.toNat < 128 ∧ c.toUpper.toLower = c :=
    forall_ascii (p := fun c => c.isLower = true → c.toUpper.toNat < 128 ∧ c.toUpper.toLower = c)
      (by decide +kernel) hascii h
  exact ⟨uppercase_ascii hascii, by rw [lowercase_ascii hback.1, hback.2], hback.2⟩

/-! ### Underscores -/

theorem ofNat_ne_underscore {n : Nat} (h : n ≠ 0x5f) : Char.ofNat n ≠ '_' := by
  intro heq
  by_cases hvalid : n.isValidChar
  · rw [Char.ofNat, dif_pos hvalid] at heq
    exact h (congrArg Char.toNat heq)
  · rw [Char.ofNat, dif_neg hvalid] at heq
    exact absurd heq (by decide)

theorem CaseData.underscore_lt_shifted :
    ∀ s ∈ lowerShifts, 0x5f < (s.run.first : Int) + s.distance := by
  decide +kernel

theorem lowercase_ne_nil (c : Char) : lowercase c ≠ [] := by
  rw [lowercase]
  split
  · simp
  · rw [CaseData.image]
    split
    · rename_i letters hfind
      have hmem := List.mem_of_find?_eq_some hfind
      rw [CaseData.lowerExpansions, List.mem_singleton] at hmem
      rw [(Prod.mk.inj hmem).2]
      simp
    · split <;> simp

/-- No other character has an underscore in its small form. -/
theorem underscore_notMem_lowercase (h : c ≠ '_') : '_' ∉ lowercase c := by
  rw [lowercase]
  split
  · rename_i hc
    exact forall_ascii (p := fun c => c ≠ '_' → '_' ∉ [c.toLower]) (by decide +kernel) hc h
  · rw [CaseData.image]
    split
    · rename_i letters hfind
      have hmem := List.mem_of_find?_eq_some hfind
      rw [CaseData.lowerExpansions, List.mem_singleton] at hmem
      rw [(Prod.mk.inj hmem).2]
      decide
    · split
      · rename_i s hfind
        have hfirst := CaseData.underscore_lt_shifted s (List.mem_of_find?_eq_some hfind)
        have hhas := List.find?_some hfind
        simp only [CaseData.Run.has, Bool.and_eq_true, decide_eq_true_eq] at hhas
        rw [List.mem_singleton]
        exact (ofNat_ne_underscore (by omega)).symm
      · rw [List.mem_singleton]
        exact h.symm

/-! ### Texts without their ends -/

theorem dropEndWhile_prefix (p : Char → Bool) (s : List Char) : dropEndWhile p s <+: s := by
  rw [← List.reverse_reverse s, dropEndWhile, List.reverse_prefix, List.reverse_reverse]
  exact List.dropWhile_suffix p

theorem head?_trimBoth {p : Char → Bool} {s : List Char}
    (h : (trimBoth p s).head? = some c) : p c = false := by
  obtain ⟨rest, hrest⟩ := List.head?_eq_some_iff.1 h
  obtain ⟨tail, htail⟩ := dropEndWhile_prefix p (s.dropWhile p)
  rw [trimBoth] at hrest
  rw [hrest, List.cons_append] at htail
  have hnot := List.head?_dropWhile_not p s
  rw [← htail] at hnot
  exact hnot

theorem dropEndWhile_cons {p : Char → Bool} (h : p c = false) (s : List Char) :
    dropEndWhile p (c :: s) = c :: dropEndWhile p s := by
  rw [dropEndWhile, dropEndWhile, List.reverse_cons, List.dropWhile_append]
  split
  · rename_i hall
    simp [h, List.isEmpty_iff.1 hall]
  · simp

theorem dropEndWhile_eq_self_iff {p : Char → Bool} {s : List Char} :
    dropEndWhile p s = s ↔ ∀ c, s.getLast? = some c → p c = false := by
  have h : dropEndWhile p s = s ↔ ∀ hs : s ≠ [], ¬ p (s.getLast hs) :=
    List.rdropWhile_eq_self_iff
  rw [h]
  constructor
  · intro hlast c hc
    have hne : s ≠ [] := by
      rintro rfl
      cases hc
    rw [List.getLast?_eq_some_getLast hne, Option.some.injEq] at hc
    simpa [hc] using hlast hne
  · intro hlast hne
    simp [hlast _ (List.getLast?_eq_some_getLast hne)]

theorem getLast?_trimBoth {p : Char → Bool} {s : List Char}
    (h : (trimBoth p s).getLast? = some c) : p c = false := by
  have hsame : dropEndWhile p (trimBoth p s) = trimBoth p s := List.rdropWhile_idempotent p _
  exact dropEndWhile_eq_self_iff.1 hsame c h

end ApiProperties

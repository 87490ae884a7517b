import ApiProperties.Json.Reader

/-!
How large a value can be that was read from a text: none of its arrays has more items than the text
has characters, since every item takes one at least.
-/

set_option autoImplicit false

namespace ApiProperties.Json

/-! ### What a reader leaves -/

/-- What is left behind what was read is not longer than the text. -/
def Consumes {α : Type} (read : List Char → Option (α × List Char)) : Prop :=
  ∀ s x rest, read s = some (x, rest) → rest.length ≤ s.length

section Consumes
variable {s rest : List Char}

theorem length_dropWhile_le (p : Char → Bool) (s : List Char) : (s.dropWhile p).length ≤ s.length :=
  (List.dropWhile_suffix p).length_le

theorem consumes_digits : Consumes readDigits := by
  intro s digits rest h
  simp only [readDigits] at h
  split at h
  · cases h
  · cases h
    exact length_dropWhile_le _ s

theorem consumes_whole : Consumes readWhole := by
  intro s whole rest h
  unfold readWhole at h
  split at h
  · cases h
    simp
  · exact consumes_digits _ _ _ h

theorem consumes_fraction : Consumes readFraction := by
  intro s fraction rest h
  unfold readFraction at h
  split at h
  · obtain ⟨⟨digits, rest⟩, hdigits, hread⟩ := Option.map_eq_some_iff.1 h
    cases hread
    have hle := consumes_digits _ _ _ hdigits
    simp only [List.length_cons]
    omega
  · cases h
    exact Nat.le_refl _

theorem length_readSign_le (s : List Char) : (readSign s).2.length ≤ s.length := by
  unfold readSign
  split <;> simp

theorem consumes_exponent : Consumes readExponent := by
  intro s exponent rest h
  unfold readExponent at h
  split at h
  · cases h
    simp
  · rename_i c s
    split at h
    · have hsign := length_readSign_le s
      cases hs : readSign s with
      | mk sign behind =>
        rw [hs] at h hsign
        obtain ⟨⟨digits, rest⟩, hdigits, hread⟩ := Option.map_eq_some_iff.1 h
        cases hread
        have hle := consumes_digits _ _ _ hdigits
        simp only [List.length_cons] at hsign ⊢
        omega
    · cases h
      simp

theorem consumes_unsigned : Consumes readUnsigned := by
  intro s n rest h
  simp only [readUnsigned, Option.bind_eq_bind, Option.bind_eq_some_iff, Prod.exists] at h
  obtain ⟨whole, s₁, hwhole, fraction, s₂, hfraction, exponent, s₃, hexponent, hread⟩ := h
  obtain rfl : s₃ = rest := by
    split at hread <;> cases hread <;> rfl
  have h₁ := consumes_whole _ _ _ hwhole
  have h₂ := consumes_fraction _ _ _ hfraction
  have h₃ := consumes_exponent _ _ _ hexponent
  omega

theorem consumes_number : Consumes readNumber := by
  intro s n rest h
  unfold readNumber at h
  split at h
  · simp only [Option.bind_eq_bind, Option.bind_eq_some_iff, Prod.exists] at h
    obtain ⟨k, s₁, hread, hk⟩ := h
    have hle := consumes_unsigned _ _ _ hread
    obtain rfl : s₁ = rest := by
      split at hk <;> cases hk <;> rfl
    simp only [List.length_cons]
    omega
  · exact consumes_unsigned _ _ _ h

theorem consumes_text (t : TextSoFar) : Consumes (readText t) := by
  intro s text rest h
  fun_induction readText t s with
  | case1 => cases h
  | case2 t s =>
    cases h
    simp
  | case3 t a b c d s n hn ih =>
    have hle := ih h
    simp only [List.length_cons]
    omega
  | case4 => cases h
  | case5 t c s x _ hx ih =>
    have hle := ih h
    simp only [List.length_cons]
    omega
  | case6 => cases h
  | case7 => cases h
  | case8 t c s _ _ _ _ ih =>
    have hle := ih h
    simp only [List.length_cons]
    omega

theorem consumes_string : Consumes readString := by
  intro s text rest h
  unfold readString at h
  split at h
  · have hle := consumes_text _ _ _ _ h
    simp only [List.length_cons]
    omega
  · cases h

theorem length_skipSpace_le (s : List Char) : (skipSpace s).length ≤ s.length :=
  length_dropWhile_le _ s

theorem length_of_skipSpace {c : Char} {others : List Char} (h : skipSpace s = c :: others) :
    others.length < s.length := by
  have hle := length_skipSpace_le s
  rw [h, List.length_cons] at hle
  exact hle

theorem length_of_readMark {mark : Char} (h : readMark mark s = some rest) :
    rest.length < s.length := by
  unfold readMark at h
  split at h
  · rename_i c others hs
    split at h
    · cases h
      exact length_of_skipSpace hs
    · cases h
  · cases h

end Consumes

/-! ### Bounded values -/

/-- No array has more than `n` items. -/
inductive Bounded (n : Nat) : Json → Prop
  | null : Bounded n .null
  | bool (b : Bool) : Bounded n (.bool b)
  | number (x : Number) : Bounded n (.number x)
  | string (text : Text) : Bounded n (.string text)
  | array {items : List Json} (length : items.length ≤ n) (h : ∀ item ∈ items, Bounded n item) :
    Bounded n (.array items)
  | object {fields : List (Text × Json)} (h : ∀ field ∈ fields, Bounded n field.2) :
    Bounded n (.object fields)

/-- What the three readers of values find in a text of at most `n` characters. -/
structure ReadsBounded (n fuel : Nat) : Prop where
  value : ∀ s j rest, s.length ≤ n → readValue fuel s = some (j, rest) →
    rest.length ≤ s.length ∧ j.Bounded n
  items : ∀ s items rest, s.length ≤ n → readItems fuel s = some (items, rest) →
    items.length + rest.length ≤ s.length ∧ ∀ item ∈ items, Bounded n item
  fields : ∀ s fields rest, s.length ≤ n → readFields fuel s = some (fields, rest) →
    rest.length ≤ s.length ∧ ∀ field ∈ fields, Bounded n field.2

namespace ReadsBounded
variable {n fuel : Nat} (h : ReadsBounded n fuel)
include h

theorem value_succ (s : List Char) (j : Json) (rest : List Char) (hs : s.length ≤ n)
    (hread : readValue (fuel + 1) s = some (j, rest)) : rest.length ≤ s.length ∧ j.Bounded n := by
  rw [readValue.eq_def] at hread
  split at hread
  · cases hread
  · rename_i k heq
    cases heq
    split at hread
    -- the three words
    · rename_i hs'
      cases hread
      have hlt := length_of_skipSpace hs'
      simp only [List.length_cons] at hlt
      exact ⟨by omega, .null⟩
    · rename_i hs'
      cases hread
      have hlt := length_of_skipSpace hs'
      simp only [List.length_cons] at hlt
      exact ⟨by omega, .bool true⟩
    · rename_i hs'
      cases hread
      have hlt := length_of_skipSpace hs'
      simp only [List.length_cons] at hlt
      exact ⟨by omega, .bool false⟩
    -- a string
    · rename_i hs'
      obtain ⟨⟨text, rest⟩, htext, hj⟩ := Option.map_eq_some_iff.1 hread
      cases hj
      have hlt := length_of_skipSpace hs'
      have hle := consumes_text _ _ _ _ htext
      exact ⟨by omega, .string text⟩
    -- an array
    · rename_i s' hs'
      have hlt := length_of_skipSpace hs'
      split at hread
      · rename_i hmark
        cases hread
        have hlt' := length_of_readMark hmark
        exact ⟨by omega, .array (by simp) (by simp)⟩
      · obtain ⟨⟨items, rest⟩, hitems, hj⟩ := Option.map_eq_some_iff.1 hread
        cases hj
        obtain ⟨hlength, hbounded⟩ := h.items s' items rest (by omega) hitems
        exact ⟨by omega, .array (by omega) hbounded⟩
    -- an object
    · rename_i s' hs'
      have hlt := length_of_skipSpace hs'
      split at hread
      · rename_i hmark
        cases hread
        have hlt' := length_of_readMark hmark
        exact ⟨by omega, .object (by simp)⟩
      · obtain ⟨⟨fields, rest⟩, hfields, hj⟩ := Option.map_eq_some_iff.1 hread
        cases hj
        obtain ⟨hlength, hbounded⟩ := h.fields s' fields rest (by omega) hfields
        exact ⟨by omega, .object hbounded⟩
    -- a number
    · obtain ⟨⟨x, rest⟩, hnumber, hj⟩ := Option.map_eq_some_iff.1 hread
      cases hj
      have hle := Nat.le_trans (consumes_number _ _ _ hnumber) (length_skipSpace_le _)
      exact ⟨hle, .number x⟩

theorem items_succ (s : List Char) (items : List Json) (rest : List Char) (hs : s.length ≤ n)
    (hread : readItems (fuel + 1) s = some (items, rest)) :
    items.length + rest.length ≤ s.length ∧ ∀ item ∈ items, Bounded n item := by
  simp only [readItems, Option.bind_eq_bind, Option.bind_eq_some_iff, Prod.exists] at hread
  obtain ⟨item, s₁, hitem, hread⟩ := hread
  obtain ⟨hle, hbounded⟩ := h.value s item s₁ hs hitem
  split at hread
  · rename_i s₂ hmark
    have hlt := length_of_readMark hmark
    simp only [Option.bind_eq_some_iff, Prod.exists] at hread
    obtain ⟨others, s₃, hothers, hread⟩ := hread
    cases hread
    obtain ⟨hlength, hall⟩ := h.items s₂ others rest (by omega) hothers
    exact ⟨by simp only [List.length_cons]; omega, List.forall_mem_cons.2 ⟨hbounded, hall⟩⟩
  · simp only [Option.bind_eq_some_iff] at hread
    obtain ⟨s₂, hmark, hread⟩ := hread
    cases hread
    have hlt := length_of_readMark hmark
    exact ⟨by simp only [List.length_singleton]; omega, by simpa using hbounded⟩

theorem fields_succ (s : List Char) (fields : List (Text × Json)) (rest : List Char)
    (hs : s.length ≤ n) (hread : readFields (fuel + 1) s = some (fields, rest)) :
    rest.length ≤ s.length ∧ ∀ field ∈ fields, Bounded n field.2 := by
  simp only [readFields, Option.bind_eq_bind, Option.bind_eq_some_iff, Prod.exists] at hread
  obtain ⟨key, s₁, hkey, s₂, hcolon, value, s₃, hvalue, hread⟩ := hread
  have hskip := length_skipSpace_le s
  have hle := consumes_string _ _ _ hkey
  have hlt := length_of_readMark hcolon
  obtain ⟨hle', hbounded⟩ := h.value s₂ value s₃ (by omega) hvalue
  split at hread
  · rename_i s₄ hmark
    have hlt' := length_of_readMark hmark
    simp only [Option.bind_eq_some_iff, Prod.exists] at hread
    obtain ⟨others, s₅, hothers, hread⟩ := hread
    cases hread
    obtain ⟨hlength, hall⟩ := h.fields s₄ others rest (by omega) hothers
    exact ⟨by omega, List.forall_mem_cons.2 ⟨hbounded, hall⟩⟩
  · simp only [Option.bind_eq_some_iff] at hread
    obtain ⟨s₄, hmark, hread⟩ := hread
    cases hread
    have hlt' := length_of_readMark hmark
    exact ⟨by omega, by simpa using hbounded⟩

end ReadsBounded

theorem readsBounded (n fuel : Nat) : ReadsBounded n fuel := by
  induction fuel with
  | zero =>
    refine ⟨fun s j rest _ h => ?_, fun s items rest _ h => ?_, fun s fields rest _ h => ?_⟩
    · cases h
    · cases h
    · cases h
  | succ fuel ih => exact ⟨ih.value_succ, ih.items_succ, ih.fields_succ⟩

/-- No array in a text has more items than the text has characters. -/
theorem bounded_of_parse {s : List Char} {j : Json} (h : parse s = some j) : j.Bounded s.length := by
  unfold parse at h
  split at h
  · rename_i j' rest hread
    split at h
    · cases h
      exact ((readsBounded s.length _).value s j rest (Nat.le_refl _) hread).2
    · cases h
  · cases h

end ApiProperties.Json

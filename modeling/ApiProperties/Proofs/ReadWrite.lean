import ApiProperties.Proofs.Letters

/-!
Which getters a setter finds behind `is`. The two letters are dropped whatever word they begin, and
an underscore behind them stays. So a getter of the word `is` pairs as it reads, a getter of a longer
word can pair as well, and one that is spelled with `is_` never does.
-/

set_option autoImplicit false

namespace ApiProperties

namespace Name
variable {getter setter n r : List Char}

theorem head?_lowercaseFirst (h : n.head? ≠ some '_') : (lowercaseFirst n).head? ≠ some '_' := by
  cases n with
  | nil => exact h
  | cons c rest =>
    intro heq
    have hne : c ≠ '_' := fun hc => h (by rw [hc]; rfl)
    rw [lowercaseFirst, List.head?_append_of_ne_nil _ (lowercase_ne_nil c)] at heq
    exact underscore_notMem_lowercase hne (List.mem_of_head? heq)

/-- A property does not get a name that starts with an underscore from a setter. -/
theorem head?_fromSetter (setter : List Char) : (fromSetter setter).head? ≠ some '_' := by
  have hstem : (setterStem setter).head? ≠ some '_' := fun h => by
    have hnot := head?_trimBoth h
    simp at hnot
  rw [fromSetter]
  split
  · exact head?_lowercaseFirst hstem
  · exact hstem

theorem readWrite_eq_iff (h : n ≠ fromGetter getter) :
    readWrite getter n = n ↔
      ∃ r, r ≠ [] ∧ fromGetter getter = 'i' :: 's' :: r ∧ lowercaseFirst r = n := by
  rw [readWrite]
  split
  · rename_i c rest hname
    rw [hname] at h
    rw [if_neg h.symm, hname]
    refine ⟨fun heq => ⟨c :: rest, by simp, rfl, heq⟩, ?_⟩
    rintro ⟨r, -, hr, heq⟩
    obtain rfl : c :: rest = r := by simpa using hr
    exact heq
  · rename_i hshort
    refine ⟨fun heq => absurd heq.symm h, ?_⟩
    rintro ⟨r, hr, hname, -⟩
    cases r with
    | nil => exact absurd rfl hr
    | cons c rest => exact absurd hname (hshort c rest)

end Name

/-! ### The same on strings -/

/-- The name is spelled with the word `is` or `is_`, and what follows is `n` once its first letter
is small. -/
def PairsByWord (name n : String) : Prop :=
  ∃ word rest, (word = "is" ∨ word = "is_") ∧ firstWord name = word ∧ name = word ++ rest ∧
    rest ≠ "" ∧ lowercaseFirst rest = n

variable {g d n rest : String}

theorem toList_eq_nil_iff : rest.toList = [] ↔ rest = "" :=
  @String.toList_inj rest ""

theorem lowercaseFirst_eq_iff :
    lowercaseFirst rest = n ↔ Name.lowercaseFirst rest.toList = n.toList := by
  rw [← String.toList_inj, lowercaseFirst, onName, String.toList_ofList]

/-- A setter's name is found just behind the letters `is`. -/
theorem readWritePropertyName_eq_iff (hd : propertyNameFromGetter g = d) (hne : n ≠ d) :
    readWritePropertyName g n = n ↔
      ∃ rest, rest ≠ "" ∧ d = "is" ++ rest ∧ lowercaseFirst rest = n := by
  have hgetter : Name.fromGetter g.toList = d.toList := by
    rw [← hd, propertyNameFromGetter, onName, String.toList_ofList]
  have hchars : n.toList ≠ Name.fromGetter g.toList := by
    rw [hgetter]
    exact fun h => hne (String.toList_inj.1 h)
  rw [← String.toList_inj, readWritePropertyName, String.toList_ofList,
    Name.readWrite_eq_iff hchars, hgetter]
  constructor
  · rintro ⟨r, hr, hname, hn⟩
    refine ⟨String.ofList r, ?_, ?_, ?_⟩
    · rwa [ne_eq, ← toList_eq_nil_iff, String.toList_ofList]
    · rw [← String.toList_inj, String.toList_append, hname, String.toList_ofList (l := r)]
      rfl
    · rwa [lowercaseFirst_eq_iff, String.toList_ofList]
  · rintro ⟨rest, hrest, rfl, hn⟩
    refine ⟨rest.toList, ?_, ?_, ?_⟩
    · rwa [ne_eq, toList_eq_nil_iff]
    · rw [String.toList_append]
      rfl
    · rwa [← lowercaseFirst_eq_iff]

theorem lowercaseFirst_underscore (rest : String) : lowercaseFirst ("_" ++ rest) = "_" ++ rest := by
  rw [lowercaseFirst_eq_iff, String.toList_append]
  rfl

theorem propertyNameFromSetter_ne_underscore (s rest : String) :
    propertyNameFromSetter s ≠ "_" ++ rest := by
  intro h
  rw [← String.toList_inj, propertyNameFromSetter, onName, String.toList_ofList,
    String.toList_append] at h
  exact Name.head?_fromSetter s.toList (by rw [h]; rfl)

/-- A setter whose name is not the getter's pairs with it if the name follows the letters `is`.
Where the first word is `is` that is as the words say, and where the name is spelled with `is_` the
setter does not pair. -/
theorem readWrite_pairs (g s d n : String) (hd : propertyNameFromGetter g = d)
    (hn : propertyNameFromSetter s = n) (hne : n ≠ d) :
    (readWritePropertyName g n = n ↔
      ∃ rest, rest ≠ "" ∧ d = "is" ++ rest ∧ lowercaseFirst rest = n) ∧
    (firstWord d = "is" → (readWritePropertyName g n = n ↔ PairsByWord d n)) ∧
    ∀ rest, d = "is_" ++ rest → readWritePropertyName g n ≠ n := by
  have hpairs := readWritePropertyName_eq_iff hd hne
  refine ⟨hpairs, fun hword => ?_, fun rest hspelled heq => ?_⟩
  · rw [hpairs]
    constructor
    · rintro ⟨rest, hrest, hname, hlower⟩
      exact ⟨"is", rest, .inl rfl, hword, hname, hrest, hlower⟩
    · rintro ⟨word, rest, -, hfirst, hname, hrest, hlower⟩
      obtain rfl : "is" = word := hword.symm.trans hfirst
      exact ⟨rest, hrest, hname, hlower⟩
  · obtain ⟨rest', -, hname, hlower⟩ := hpairs.1 heq
    have hsplit : "is" ++ ("_" ++ rest) = "is" ++ rest' := by
      rw [← hname, hspelled, ← String.append_assoc]
      rfl
    rw [← String.append_right_inj "is" |>.1 hsplit, lowercaseFirst_underscore] at hlower
    exact propertyNameFromSetter_ne_underscore s rest (hn.trans hlower.symm)

theorem readWrite_pairs_ready :
    propertyNameFromGetter "isReady" = "isReady" ∧ propertyNameFromSetter "setReady" = "ready" ∧
    (readWritePropertyName "isReady" "ready" = "ready" ↔
      ∃ rest, rest ≠ "" ∧ "isReady" = "is" ++ rest ∧ lowercaseFirst rest = "ready") ∧
    (firstWord "isReady" = "is" →
      (readWritePropertyName "isReady" "ready" = "ready" ↔ PairsByWord "isReady" "ready")) ∧
    ∀ rest, "isReady" = "is_" ++ rest → readWritePropertyName "isReady" "ready" ≠ "ready" :=
  have hd : propertyNameFromGetter "isReady" = "isReady" := by decide
  have hn : propertyNameFromSetter "setReady" = "ready" := by decide
  ⟨hd, hn, readWrite_pairs "isReady" "setReady" "isReady" "ready" hd hn (by decide)⟩

/-- The getter `issue` pairs with `setSue`, and `is_ready` does not with `setReady`. -/
theorem readWrite_pairs_issue :
    (¬ ∀ g s d n : String, propertyNameFromGetter g = d → propertyNameFromSetter s = n → n ≠ "" →
      n ≠ d → readWritePropertyName g n = n → PairsByWord d n) ∧
    ¬ ∀ g s d n : String, propertyNameFromGetter g = d → propertyNameFromSetter s = n → n ≠ "" →
      n ≠ d → PairsByWord d n → readWritePropertyName g n = n := by
  constructor
  · intro h
    obtain ⟨word, -, hword, hfirst, -⟩ := h "issue" "setSue" "issue" "sue" (by decide) (by decide)
      (by decide) (by decide) (by decide)
    have hissue : firstWord "issue" = "issue" := by decide
    rw [hissue] at hfirst
    subst hfirst
    revert hword
    decide
  · intro h
    have hpairs : PairsByWord "is_ready" "ready" :=
      ⟨"is_", "ready", .inr rfl, by decide, by decide, by decide, by decide⟩
    have heq := h "is_ready" "setReady" "is_ready" "ready" (by decide) (by decide) (by decide)
      (by decide) hpairs
    revert heq
    decide

end ApiProperties

import ApiProperties.Proofs.FirstWords
import ApiProperties.Proofs.ReadWrite

/-!
The property names that accessors offer, by a grammar of prefixes and stems. A prefix is `get` or `set`
with or without a capital, as it is spelled, and what the first word passes over is not forgotten: digits
behind `set` belong to the stem, and digits behind `get` leave no stem. Main statement: the grammar gives
the property name of every name of ASCII letters, digits and underscores.
-/

set_option autoImplicit false

namespace ApiProperties

namespace Name
variable {name front word rest stem part : List Char} {c : Char}

/-! ### The grammar -/

/-- What a getter's name has behind its prefix: behind `get_` all that does not start with a digit, and
behind `get` what starts with a capital. -/
inductive GetterStem : (name stem : List Char) → Prop
  | snake {front stem : List Char} (hfront : Spells front "get".toList)
      (hstem : Begins (!·.isDigit) stem) : GetterStem (front ++ '_' :: stem) stem
  | camel {front stem : List Char} (hfront : Spells front "get".toList)
      (hstem : Begins Char.isUpper stem) : GetterStem (front ++ stem) stem

/-- What a setter's name has behind its prefix: behind `set_` all, and behind `set` what starts with a
capital or ends, once digits are passed over. -/
inductive SetterStem : (name stem : List Char) → Prop
  | snake {front stem : List Char} (hfront : Spells front "set".toList) :
      SetterStem (front ++ '_' :: stem) stem
  | camel {front digits rest : List Char} (hfront : Spells front "set".toList)
      (hdigits : ∀ c ∈ digits, c.isDigit = true) (hrest : rest = [] ∨ Begins Char.isUpper rest) :
      SetterStem (front ++ (digits ++ rest)) (digits ++ rest)

/-- The underscores at both ends are taken off. -/
def Stripped (part stem : List Char) : Prop :=
  (∃ before after, part = List.replicate before '_' ++ stem ++ List.replicate after '_') ∧
    stem.head? ≠ some '_' ∧ stem.getLast? ≠ some '_'

/-- The property name that a getter's name stands for. -/
inductive GetterNames (name : List Char) : (property : List Char) → Prop
  | stem {stem : List Char} (h : GetterStem name stem) : GetterNames name (lowercaseFirst stem)
  | whole (h : ∀ stem, ¬ GetterStem name stem) : GetterNames name name

/-- The part of a setter's name that the property name is taken from. -/
def SetterPart (name part : List Char) : Prop :=
  SetterStem name part ∨ (∀ stem, ¬ SetterStem name stem) ∧ part = name

/-- The property name that a setter's name stands for. -/
inductive SetterNames (name : List Char) : (property : List Char) → Prop
  | small {part stem : List Char} (hpart : SetterPart name part) (hstem : Stripped part stem)
      (hname : Begins Char.isLower name) : SetterNames name (lowercaseFirst stem)
  | other {part stem : List Char} (hpart : SetterPart name part) (hstem : Stripped part stem)
      (hname : ¬ Begins Char.isLower name) : SetterNames name stem

/-! ### Getters -/

theorem fromGetter_of_word (h : matchesWord word ["get".toList] = true)
    (hword : firstWord name = word) (hrest : stripWord name word = some (c :: rest))
    (hc : c.isDigit = false) : fromGetter name = lowercaseFirst (c :: rest) := by
  simp only [fromGetter, hword, h, if_true, hrest, hc, Bool.false_eq_true, if_false]

theorem fromGetter_of_stem (h : GetterStem name stem) : fromGetter name = lowercaseFirst stem := by
  have hget : Small "get".toList := by decide
  cases h with
  | snake hfront hstem =>
    obtain ⟨c, rest, rfl, hc⟩ := hstem
    have hword := hfront.firstWord_append hget ('_' :: c :: rest)
    rw [wordTail_underscore] at hword
    exact fromGetter_of_word (by decide) hword (hfront.stripWord_underscore hget _) (by simpa using hc)
  | camel hfront hstem =>
    obtain ⟨c, rest, rfl, hc⟩ := hstem
    have hword := hfront.firstWord_append hget (c :: rest)
    rw [wordTail_capital hc, List.append_nil] at hword
    exact fromGetter_of_word (by decide) hword (hfront.stripWord_append hget _)
      (isDigit_eq_false (toNat_of_isUpper hc).1)

theorem fromGetter_of_no_stem (hname : Identifier name) (h : ∀ stem, ¬ GetterStem name stem) :
    fromGetter name = name := by
  rw [fromGetter]
  split
  · rename_i hmatch
    split
    · rename_i c rest hrest
      split
      · rfl
      · rename_i hdigit
        obtain ⟨front, hspells, hcut⟩ := spelled_of_stripWord hname (by decide) hmatch hrest
        rcases hcut with rfl | ⟨rfl, hend⟩
        · exact absurd (.snake hspells ⟨c, rest, rfl, by simpa using hdigit⟩) (h _)
        · have hupper := isUpper_of_wordTail (hname c (by simp)) hdigit hend
          exact absurd (.camel hspells ⟨c, rest, rfl, hupper⟩) (h _)
    · rfl
  · rfl

theorem fromGetter_eq_iff (hname : Identifier name) {p : List Char} :
    fromGetter name = p ↔ GetterNames name p := by
  constructor
  · rintro rfl
    by_cases h : ∃ stem, GetterStem name stem
    · obtain ⟨stem, hstem⟩ := h
      rw [fromGetter_of_stem hstem]
      exact .stem hstem
    · rw [fromGetter_of_no_stem hname (not_exists.1 h)]
      exact .whole (not_exists.1 h)
  · intro h
    cases h with
    | stem hstem => exact fromGetter_of_stem hstem
    | whole h => exact fromGetter_of_no_stem hname h

/-! ### Underscores at the ends -/

/-- What is left of a stem without the underscores at its end. -/
def trimEnd (stem : List Char) : List Char := dropEndWhile (· == '_') stem

theorem trimEnd_cons (h : c ≠ '_') (rest : List Char) : trimEnd (c :: rest) = c :: trimEnd rest :=
  dropEndWhile_cons (by simpa using h) rest

theorem trimEnd_eq_self_iff {stem : List Char} : trimEnd stem = stem ↔ stem.getLast? ≠ some '_' := by
  rw [trimEnd, dropEndWhile_eq_self_iff]
  constructor
  · intro h hlast
    simpa using h '_' hlast
  · intro h c hc
    simp only [beq_eq_false_iff_ne]
    rintro rfl
    exact h hc

theorem trimBoth_cons (h : c ≠ '_') (rest : List Char) :
    trimBoth (· == '_') (c :: rest) = c :: trimEnd rest := by
  rw [trimBoth, List.dropWhile_cons_of_neg (by simpa using h)]
  exact trimEnd_cons h rest

theorem takeWhile_underscore (s : List Char) :
    s.takeWhile (· == '_') = List.replicate (s.takeWhile (· == '_')).length '_' := by
  rw [List.eq_replicate_iff]
  exact ⟨rfl, fun c hc => by simpa using List.mem_takeWhile_imp hc⟩

theorem exists_dropEndWhile_append (s : List Char) :
    ∃ after, s = dropEndWhile (· == '_') s ++ List.replicate after '_' := by
  refine ⟨(s.reverse.takeWhile (· == '_')).length, List.reverse_injective ?_⟩
  rw [List.reverse_append, List.reverse_replicate, ← takeWhile_underscore, dropEndWhile,
    List.reverse_reverse, List.takeWhile_append_dropWhile]

theorem stripped_trimBoth (part : List Char) : Stripped part (trimBoth (· == '_') part) := by
  obtain ⟨after, hafter⟩ := exists_dropEndWhile_append (part.dropWhile (· == '_'))
  refine ⟨⟨(part.takeWhile (· == '_')).length, after, ?_⟩, fun h => ?_, fun h => ?_⟩
  · rw [← takeWhile_underscore, List.append_assoc, trimBoth, ← hafter,
      List.takeWhile_append_dropWhile]
  · simpa using head?_trimBoth h
  · simpa using getLast?_trimBoth h

theorem Stripped.trimBoth_eq (h : Stripped part stem) : trimBoth (· == '_') part = stem := by
  obtain ⟨⟨before, after, rfl⟩, hhead, hlast⟩ := h
  have hbefore : ∀ c ∈ List.replicate before '_', (c == '_') = true := by simp
  have hafter : ∀ c ∈ (List.replicate after '_').reverse, (c == '_') = true := by simp
  rw [List.append_assoc, trimBoth, List.dropWhile_append_of_pos hbefore]
  cases stem with
  | nil => simp [dropEndWhile]
  | cons c rest =>
    have hc : c ≠ '_' := fun hc => hhead (by rw [hc]; rfl)
    rw [List.cons_append, List.dropWhile_cons_of_neg (by simpa using hc), ← List.cons_append,
      dropEndWhile, List.reverse_append, List.dropWhile_append_of_pos hafter]
    exact trimEnd_eq_self_iff.2 hlast

/-! ### Setters -/

theorem setterStem_of_word (h : matchesWord word ["set".toList] = true)
    (hword : firstWord name = word) (hrest : stripWord name word = some rest) :
    setterStem name = trimBoth (· == '_') rest := by
  simp only [setterStem, hword, h, if_true, hrest, Option.getD_some]

theorem setterStem_of_stem (h : SetterStem name part) :
    setterStem name = trimBoth (· == '_') part := by
  have hset : Small "set".toList := by decide
  cases h with
  | snake hfront =>
    have hword := hfront.firstWord_append hset ('_' :: part)
    rw [wordTail_underscore] at hword
    exact setterStem_of_word (by decide) hword (hfront.stripWord_underscore hset _)
  | @camel _ digits rest hfront hdigits hrest =>
    have hword := hfront.firstWord_append hset (digits ++ rest)
    rw [wordTail_of_digits hdigits hrest, List.append_nil] at hword
    exact setterStem_of_word (by decide) hword (hfront.stripWord_append hset _)

theorem setterStem_of_no_stem (hname : Identifier name) (h : ∀ stem, ¬ SetterStem name stem) :
    setterStem name = trimBoth (· == '_') name := by
  rw [setterStem]
  split
  · rename_i hmatch
    cases hrest : stripWord name (firstWord name) with
    | none => rfl
    | some rest =>
      obtain ⟨front, hspells, hcut⟩ := spelled_of_stripWord hname (by decide) hmatch hrest
      rcases hcut with rfl | ⟨rfl, hend⟩
      · exact absurd (.snake hspells) (h _)
      · have hpart : Identifier rest := fun u hu => hname u (List.mem_append_right front hu)
        obtain ⟨digits, tail, rfl, hdigits, htail⟩ := exists_digits_of_wordTail hpart hend
        exact absurd (.camel hspells hdigits htail) (h _)
  · rfl

theorem SetterPart.setterStem_eq (hname : Identifier name) (h : SetterPart name part) :
    setterStem name = trimBoth (· == '_') part := by
  rcases h with hstem | ⟨hnone, rfl⟩
  · exact setterStem_of_stem hstem
  · exact setterStem_of_no_stem hname hnone

theorem exists_setterPart (name : List Char) : ∃ part, SetterPart name part := by
  by_cases h : ∃ stem, SetterStem name stem
  · obtain ⟨stem, hstem⟩ := h
    exact ⟨stem, .inl hstem⟩
  · exact ⟨name, .inr ⟨not_exists.1 h, rfl⟩⟩

theorem SetterPart.subset (h : SetterPart name part) : part ⊆ name := by
  rcases h with hstem | ⟨-, rfl⟩
  · cases hstem with
    | @snake front => exact fun c hc => List.mem_append_right front (List.mem_cons_of_mem '_' hc)
    | @camel front => exact List.subset_append_right front _
  · exact List.Subset.refl part

theorem Stripped.subset (h : Stripped part stem) : stem ⊆ part := by
  obtain ⟨⟨before, after, rfl⟩, -⟩ := h
  exact fun c hc => List.mem_append_left _ (List.mem_append_right _ hc)

theorem startsLowercase_iff (hname : Identifier name) :
    startsLowercase name = true ↔ Begins Char.isLower name := by
  cases name with
  | nil => simp [startsLowercase, Begins]
  | cons c rest =>
    have hc := ascii_of_identifier (hname c List.mem_cons_self)
    simp [startsLowercase, Begins, isLowercase_ascii hc]

theorem lowercaseFirst_of_begins (h : Begins Char.isLower stem) : lowercaseFirst stem = stem := by
  obtain ⟨c, rest, rfl, hc⟩ := h
  rw [lowercaseFirst, (lowercase_of_isLower hc).2, List.singleton_append]

/-- The first letter of a setter's stem becomes small if the name itself starts small. -/
theorem fromSetter_of_part (hname : Identifier name) (hpart : SetterPart name part)
    (hstem : Stripped part stem) :
    (Begins Char.isLower name → fromSetter name = lowercaseFirst stem) ∧
      (¬ Begins Char.isLower name → fromSetter name = stem) := by
  have hsetter : setterStem name = stem := (hpart.setterStem_eq hname).trans hstem.trimBoth_eq
  have hletters : Identifier stem := fun c hc => hname c (hpart.subset (hstem.subset hc))
  rw [fromSetter, hsetter, ← startsLowercase_iff hname]
  constructor
  · intro hstart
    by_cases hsmall : startsLowercase stem = true
    · simp [hsmall, lowercaseFirst_of_begins ((startsLowercase_iff hletters).1 hsmall)]
    · simp [hstart, hsmall]
  · intro hstart
    simp [hstart]

theorem fromSetter_eq_iff (hname : Identifier name) {p : List Char} :
    fromSetter name = p ↔ SetterNames name p := by
  constructor
  · rintro rfl
    obtain ⟨part, hpart⟩ := exists_setterPart name
    have hstem := stripped_trimBoth part
    obtain ⟨hsmall, hother⟩ := fromSetter_of_part hname hpart hstem
    by_cases hstart : Begins Char.isLower name
    · rw [hsmall hstart]
      exact .small hpart hstem hstart
    · rw [hother hstart]
      exact .other hpart hstem hstart
  · intro h
    cases h with
    | small hpart hstem hstart => exact (fromSetter_of_part hname hpart hstem).1 hstart
    | other hpart hstem hstart => exact (fromSetter_of_part hname hpart hstem).2 hstart

theorem getLast?_lowercaseFirst (h : stem.getLast? ≠ some '_') :
    (lowercaseFirst stem).getLast? ≠ some '_' := by
  cases stem with
  | nil => exact h
  | cons c rest =>
    rw [lowercaseFirst]
    by_cases hrest : rest = []
    · subst hrest
      have hc : c ≠ '_' := fun hc => h (by rw [hc]; rfl)
      rw [List.append_nil]
      exact fun heq => underscore_notMem_lowercase hc (List.mem_of_getLast? heq)
    · rwa [List.getLast?_append_of_ne_nil _ hrest,
        ← List.getLast?_append_of_ne_nil [c] hrest]

/-- A property does not get a name that ends with an underscore from a setter either. -/
theorem getLast?_fromSetter (setter : List Char) : (fromSetter setter).getLast? ≠ some '_' := by
  have hstem : (setterStem setter).getLast? ≠ some '_' := fun h => by
    have hnot := getLast?_trimBoth h
    simp at hnot
  rw [fromSetter]
  split
  · exact getLast?_lowercaseFirst hstem
  · exact hstem

end Name

/-! ### The same on strings -/

def EndsInUnderscore (s : String) : Prop := ∃ front, s = front ++ "_"

theorem endsInUnderscore_iff {s : String} : EndsInUnderscore s ↔ s.toList.getLast? = some '_' := by
  rw [List.getLast?_eq_some_iff]
  constructor
  · rintro ⟨front, rfl⟩
    exact ⟨front.toList, by rw [String.toList_append]; rfl⟩
  · rintro ⟨front, hfront⟩
    refine ⟨String.ofList front, String.toList_inj.1 ?_⟩
    rw [hfront, String.toList_append, String.toList_ofList]
    rfl

/-- A name of ASCII letters, digits and underscores offers the property name that the grammar of
prefixes and stems gives it, as a getter and as a setter. A setter's has no underscore at an end. -/
theorem propertyNames_grammar (name : String) (hname : Name.Identifier name.toList) :
    (∀ p, propertyNameFromGetter name = p ↔ Name.GetterNames name.toList p.toList) ∧
    (∀ p, propertyNameFromSetter name = p ↔ Name.SetterNames name.toList p.toList) ∧
    (∀ rest, propertyNameFromSetter name ≠ "_" ++ rest) ∧
    ¬ EndsInUnderscore (propertyNameFromSetter name) := by
  refine ⟨fun p => ?_, fun p => ?_, propertyNameFromSetter_ne_underscore name, ?_⟩
  · rw [← Name.fromGetter_eq_iff hname, ← String.toList_inj, propertyNameFromGetter, onName,
      String.toList_ofList]
  · rw [← Name.fromSetter_eq_iff hname, ← String.toList_inj, propertyNameFromSetter, onName,
      String.toList_ofList]
  · rw [endsInUnderscore_iff, propertyNameFromSetter, onName, String.toList_ofList]
    exact Name.getLast?_fromSetter name.toList

/-- A getter with a second underscore behind its prefix, and a setter with a digit behind it. -/
theorem propertyNames_grammar_digit :
    (Name.Identifier "Get__Size".toList ∧ propertyNameFromGetter "Get__Size" = "_Size") ∧
    Name.Identifier "set2D_".toList ∧ propertyNameFromSetter "set2D_" = "2D" := by
  have hget : Name.Identifier "Get__Size".toList := by decide
  have hset : Name.Identifier "set2D_".toList := by decide
  have hgetter : Name.GetterStem "Get__Size".toList "_Size".toList :=
    @Name.GetterStem.snake "Get".toList "_Size".toList (by decide) ⟨'_', "Size".toList, rfl, rfl⟩
  have hsetter : Name.SetterPart "set2D_".toList "2D_".toList :=
    .inl (@Name.SetterStem.camel "set".toList ['2'] "D_".toList (by decide)
      (List.forall_mem_singleton.2 rfl) (.inr ⟨'D', ['_'], rfl, rfl⟩))
  have hstripped : Name.Stripped "2D_".toList "2D".toList :=
    ⟨⟨0, 1, rfl⟩, by decide, by decide⟩
  exact ⟨⟨hget, ((propertyNames_grammar _ hget).1 "_Size").2 (.stem hgetter)⟩, hset,
    ((propertyNames_grammar _ hset).2.1 "2D").2 (.small hsetter hstripped ⟨'s', _, rfl, rfl⟩)⟩

end ApiProperties

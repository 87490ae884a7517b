import ApiProperties.Proofs.NameGrammar

/-!
Which getters and setters of one stem offer the same property name. A getter keeps the underscores at
the end of its stem and a setter drops them, so the two names are equal unless the stem ends with one.
-/

set_option autoImplicit false

namespace ApiProperties

namespace Name
variable {rest : List Char} {c : Char}

/-! ### What accessors of a stem offer -/

theorem fromGetter_capital (h : c.isUpper = true) (rest : List Char) :
    fromGetter ("get".toList ++ c :: rest) = lowercaseFirst (c :: rest) :=
  fromGetter_of_stem (.camel (.inl rfl) ⟨c, rest, rfl, h⟩)

theorem fromGetter_underscore (h : c.isLower = true) (rest : List Char) :
    fromGetter ("get_".toList ++ c :: rest) = c :: rest := by
  have hrange := toNat_of_isLower h
  have hdigit : c.isDigit = false := isDigit_eq_false (by omega)
  have hstem : GetterStem ("get".toList ++ '_' :: c :: rest) (c :: rest) :=
    .snake (.inl rfl) ⟨c, rest, rfl, by simp [hdigit]⟩
  exact (fromGetter_of_stem hstem).trans (lowercaseFirst_of_begins ⟨c, rest, rfl, h⟩)

theorem fromSetter_capital (h : c.isUpper = true) (rest : List Char) :
    fromSetter ("set".toList ++ c :: rest) = lowercaseFirst (c :: trimEnd rest) := by
  have hstem : SetterStem ("set".toList ++ ([] ++ c :: rest)) ([] ++ c :: rest) :=
    .camel (.inl rfl) (by simp) (.inr ⟨c, rest, rfl, h⟩)
  have hstart : startsLowercase ("set".toList ++ c :: rest) = true :=
    (by decide : isLowercase 's' = true)
  have hsmall : startsLowercase (c :: trimEnd rest) = false := (isUppercase_of_isUpper h).2
  rw [List.nil_append] at hstem
  rw [fromSetter, setterStem_of_stem hstem, trimBoth_cons (ne_underscore_of_isUpper h), hstart,
    hsmall]
  rfl

theorem fromSetter_underscore (h : c.isLower = true) (rest : List Char) :
    fromSetter ("set_".toList ++ c :: rest) = c :: trimEnd rest := by
  have hstem : SetterStem ("set".toList ++ '_' :: c :: rest) (c :: rest) := .snake (.inl rfl)
  have hsmall : startsLowercase (c :: trimEnd rest) = true := (lowercase_of_isLower h).1
  have hname := setterStem_of_stem hstem
  rw [trimBoth_cons (ne_underscore_of_isLower h)] at hname
  change setterStem ("set_".toList ++ c :: rest) = _ at hname
  rw [fromSetter, hname, hsmall]
  simp

/-- The last letter of a stem counts, whatever is done to the first one. -/
theorem trimmed_iff (hc : c ≠ '_') {front : List Char} :
    front ++ rest = front ++ trimEnd rest ↔ (c :: rest).getLast? ≠ some '_' := by
  rw [List.append_cancel_left_eq, ← trimEnd_eq_self_iff, trimEnd_cons hc, List.cons_inj_right, eq_comm]

end Name

/-! ### The same on strings -/

/-- The first character is of the kind. -/
def StartsWith (kind : Char → Bool) (s : String) : Prop :=
  ∃ c rest, s.toList = c :: rest ∧ kind c = true

theorem toList_onName (f : List Char → List Char) (front s : String) :
    (onName f (front ++ s)).toList = f (front.toList ++ s.toList) := by
  rw [onName, String.toList_ofList, String.toList_append]

/-- Names that are spelled alike but for the end of the stem. -/
theorem agree_of_spelling {s a b n : String} {c : Char} {front rest : List Char}
    (hs : s.toList = c :: rest) (hc : c ≠ '_') (hn : n.toList = front ++ rest)
    (ha : a.toList = front ++ rest) (hb : b.toList = front ++ Name.trimEnd rest) :
    (a = b ↔ ¬ EndsInUnderscore s) ∧ (¬ EndsInUnderscore s → a = n ∧ b = n) := by
  have hiff : a = b ↔ ¬ EndsInUnderscore s := by
    rw [endsInUnderscore_iff, hs, ← String.toList_inj, ha, hb]
    exact Name.trimmed_iff hc
  have hname : a = n := String.toList_inj.1 (ha.trans hn.symm)
  exact ⟨hiff, fun h => ⟨hname, (hiff.2 h).symm.trans hname⟩⟩

/-- A getter and a setter of one stem, behind `get` and `set` or behind `get_` and `set_`, offer the
same name just in case the stem does not end with an underscore, and this name is the stem with a small
first letter. -/
theorem accessorNames_meet (s : String) :
    (StartsWith Char.isUpper s →
      (propertyNameFromGetter ("get" ++ s) = propertyNameFromSetter ("set" ++ s) ↔
        ¬ EndsInUnderscore s) ∧
      (¬ EndsInUnderscore s → propertyNameFromGetter ("get" ++ s) = lowercaseFirst s ∧
        propertyNameFromSetter ("set" ++ s) = lowercaseFirst s)) ∧
    (StartsWith Char.isLower s →
      (propertyNameFromGetter ("get_" ++ s) = propertyNameFromSetter ("set_" ++ s) ↔
        ¬ EndsInUnderscore s) ∧
      (¬ EndsInUnderscore s → propertyNameFromGetter ("get_" ++ s) = s ∧
        propertyNameFromSetter ("set_" ++ s) = s)) := by
  constructor
  · rintro ⟨c, rest, hs, hc⟩
    have hname : (lowercaseFirst s).toList = lowercase c ++ rest := by
      rw [lowercaseFirst, onName, String.toList_ofList, hs]
      rfl
    refine agree_of_spelling hs (ne_underscore_of_isUpper hc) hname ?_ ?_
    · rw [propertyNameFromGetter, toList_onName, hs, Name.fromGetter_capital hc]
      rfl
    · rw [propertyNameFromSetter, toList_onName, hs, Name.fromSetter_capital hc]
      rfl
  · rintro ⟨c, rest, hs, hc⟩
    have hname : s.toList = [c] ++ rest := hs
    refine agree_of_spelling hs (ne_underscore_of_isLower hc) hname ?_ ?_
    · rw [propertyNameFromGetter, toList_onName, hs, Name.fromGetter_underscore hc]
      rfl
    · rw [propertyNameFromSetter, toList_onName, hs, Name.fromSetter_underscore hc]
      rfl

/-- Stems with letters beyond ASCII, and with an underscore at the end of the second one. -/
theorem accessorNames_meet_size :
    (StartsWith Char.isUpper "Größe" ∧ propertyNameFromGetter "getGröße" = "größe" ∧
      propertyNameFromSetter "setGröße" = "größe") ∧
    (StartsWith Char.isLower "größe_" ∧
      propertyNameFromGetter "get_größe_" ≠ propertyNameFromSetter "set_größe_") := by
  have hcapital : StartsWith Char.isUpper "Größe" := ⟨'G', _, rfl, by decide⟩
  have hsmall : StartsWith Char.isLower "größe_" := ⟨'g', _, rfl, by decide⟩
  have hplain : ¬ EndsInUnderscore "Größe" := by
    rw [endsInUnderscore_iff]
    decide
  have hends : EndsInUnderscore "größe_" := ⟨"größe", by decide⟩
  obtain ⟨hget, hset⟩ := ((accessorNames_meet "Größe").1 hcapital).2 hplain
  have hiff := ((accessorNames_meet "größe_").2 hsmall).1
  have hname : lowercaseFirst "Größe" = "größe" := by decide
  exact ⟨⟨hcapital, hget.trans hname, hset.trans hname⟩, hsmall, fun heq => hiff.1 heq hends⟩

end ApiProperties

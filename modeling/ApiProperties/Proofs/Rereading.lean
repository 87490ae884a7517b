import ApiProperties.Json.Printer
import ApiProperties.Json.Reader

/-!
What is printed on several lines is read back as it was, if it is plain: its strings have a text and
its numbers are natural.
-/

set_option autoImplicit false

namespace ApiProperties.Json

/-! ### Strings -/

theorem hexValues?_escape : ∀ n < 0x20,
    hexValues? ['0', '0', hexDigit (n / 16), hexDigit n] = some n := by
  decide

/-- What has been read of a string without halves of surrogate pairs, backwards. -/
def TextSoFar.of (done : List Char) : TextSoFar := ⟨some done, none⟩

@[simp] theorem TextSoFar.push_of (done : List Char) (c : Char) :
    (TextSoFar.of done).push c = .of (c :: done) := rfl

@[simp] theorem TextSoFar.text_of (done : List Char) :
    (TextSoFar.of done).text = some (String.ofList done.reverse) := rfl

theorem readText_plain (t : TextSoFar) {c : Char} (s : List Char) (hquote : c ≠ '"')
    (hslash : c ≠ '\\') (hlow : ¬ c.toNat < 0x20) : readText t (c :: s) = readText (t.push c) s := by
  rw [readText.eq_def]
  split
  case h_5 _ _ _ heq =>
    cases heq
    rw [if_neg hlow]
  all_goals cases ‹_ = _› <;> contradiction

theorem readText_escapeChar (done : List Char) (c : Char) (s : List Char) :
    readText (.of done) (escapeChar c ++ s) = readText (.of (c :: done)) s := by
  unfold escapeChar
  split
  case h_8 =>
    split
    · rename_i hlow
      have hunit : (TextSoFar.of done).pushUnit c.toNat = .of (c :: done) := by
        have hlead : isLead c.toNat = false := by simp [isLead]; omega
        have htrail : isTrail c.toNat = false := by simp [isTrail]; omega
        simp [TextSoFar.pushUnit, hlead, htrail]
      simp [readText, hexValues?_escape c.toNat hlow, hunit]
    · rename_i hquote hslash _ _ _ _ _ hlow
      exact readText_plain _ s hquote hslash hlow
  all_goals simp [readText, unescape?]

theorem readText_escapes (done cs rest : List Char) :
    readText (.of done) (cs.flatMap escapeChar ++ '"' :: rest) =
      some (some (String.ofList (done.reverse ++ cs)), rest) := by
  induction cs generalizing done with
  | nil => simp [readText]
  | cons c cs ih =>
    rw [List.flatMap_cons, List.append_assoc, readText_escapeChar, ih]
    simp

theorem printText_some (s : String) :
    printText (some s) = '"' :: s.toList.flatMap escapeChar ++ ['"'] := rfl

theorem readString_printText (s : String) (rest : List Char) :
    readString (printText (some s) ++ rest) = some (some s, rest) := by
  have htext := readText_escapes [] s.toList rest
  simp only [List.reverse_nil, List.nil_append, String.ofList_toList] at htext
  simp only [printText_some, List.cons_append, List.append_assoc, List.nil_append, readString]
  exact htext

/-! ### Numbers -/

/-- What does not go on with a number. -/
def Closed (s : List Char) : Prop :=
  ∀ c ∈ s.head?, c.isDigit = false ∧ c ≠ '.' ∧ c ≠ 'e' ∧ c ≠ 'E'

theorem closed_nil : Closed [] := by simp [Closed]

theorem readFraction_of_closed {s : List Char} (h : Closed s) : readFraction s = some ([], s) := by
  cases s with
  | nil => rfl
  | cons c s =>
    obtain ⟨-, hdot, -⟩ := h c rfl
    unfold readFraction
    split <;> simp_all

theorem readExponent_of_closed {s : List Char} (h : Closed s) : readExponent s = some ([], s) := by
  cases s with
  | nil => rfl
  | cons c s =>
    obtain ⟨-, -, he, hE⟩ := h c rfl
    simp [readExponent, he, hE]

theorem readDigits_append {digits s : List Char} (hne : digits ≠ [])
    (hdigits : ∀ c ∈ digits, c.isDigit = true) (h : Closed s) :
    readDigits (digits ++ s) = some (digits, s) := by
  have hstop : s.takeWhile Char.isDigit = [] ∧ s.dropWhile Char.isDigit = s := by
    cases s with
    | nil => exact ⟨rfl, rfl⟩
    | cons c s => simp [(h c rfl).1]
  simp [readDigits, List.takeWhile_append_of_pos hdigits, List.dropWhile_append_of_pos hdigits,
    hstop, hne]

theorem digitChar_ne_zero : ∀ n < 10, n ≠ 0 → Nat.digitChar n ≠ '0' := by decide

/-- Only zero has a leading zero. -/
theorem head?_toDigits (n : Nat) (h : n ≠ 0) : (Nat.toDigits 10 n).head? ≠ some '0' := by
  induction n using Nat.strongRecOn with
  | _ n ih =>
    rw [Nat.toDigits_eq_if (by omega)]
    split
    · rename_i hlt
      simpa using digitChar_ne_zero n hlt h
    · have hrest := ih (n / 10) (by omega) (by omega)
      cases hd : Nat.toDigits 10 (n / 10) with
      | nil => exact absurd hd Nat.toDigits_ne_nil
      | cons c digits => simpa [hd] using hrest

theorem isDigit_toDigits (n : Nat) : ∀ c ∈ Nat.toDigits 10 n, c.isDigit = true :=
  fun _ => Nat.isDigit_of_mem_toDigits (by decide) (by decide)

theorem readWhole_toDigits (n : Nat) {s : List Char} (h : Closed s) :
    readWhole (Nat.toDigits 10 n ++ s) = some (Nat.toDigits 10 n, s) := by
  by_cases hn : n = 0
  · subst hn
    simp [readWhole]
  · have hread := readDigits_append Nat.toDigits_ne_nil (isDigit_toDigits n) h
    have hhead := head?_toDigits n hn
    cases hd : Nat.toDigits 10 n with
    | nil => exact absurd hd Nat.toDigits_ne_nil
    | cons c digits =>
      rw [hd] at hread hhead
      have hc : c ≠ '0' := by simpa using hhead
      rw [List.cons_append, readWhole.eq_def]
      split
      · simp_all
      · exact hread

theorem readUnsigned_toDigits (n : Nat) {s : List Char} (h : Closed s) :
    readUnsigned (Nat.toDigits 10 n ++ s) = some (.natural n, s) := by
  simp [readUnsigned, readWhole_toDigits n h, readFraction_of_closed h, readExponent_of_closed h,
    Nat.ofDigitChars_ten_toDigits]

theorem readNumber_toDigits (n : Nat) {s : List Char} (h : Closed s) :
    readNumber (Nat.toDigits 10 n ++ s) = some (.natural n, s) := by
  have hread := readUnsigned_toDigits n h
  have hdigits := isDigit_toDigits n
  cases hd : Nat.toDigits 10 n with
  | nil => exact absurd hd Nat.toDigits_ne_nil
  | cons c digits =>
    rw [hd] at hread hdigits
    have hc : c ≠ '-' := by
      rintro rfl
      exact absurd (hdigits '-' List.mem_cons_self) (by decide)
    rw [List.cons_append, readNumber.eq_def]
    split
    · simp_all
    · exact hread

/-! ### Blanks -/

@[simp] theorem skipSpace_newLine (level : Nat) (s : List Char) :
    skipSpace (newLine level ++ s) = skipSpace s := by
  have hblank : ∀ c ∈ newLine level, isSpace c = true := by
    intro c hc
    rcases List.mem_cons.1 hc with rfl | hc
    · rfl
    · rw [List.eq_of_mem_replicate hc]
      rfl
  exact List.dropWhile_append_of_pos hblank

theorem skipSpace_cons {c : Char} (s : List Char) (h : isSpace c = false) :
    skipSpace (c :: s) = c :: s := by
  simp [skipSpace, h]

theorem readMark_newLine (mark : Char) (level : Nat) (s : List Char) :
    readMark mark (newLine level ++ s) = readMark mark s := by
  simp [readMark]

theorem readMark_cons {mark c : Char} (s : List Char) (h : isSpace c = false) :
    readMark mark (c :: s) = if c = mark then some s else none := by
  simp [readMark, skipSpace_cons s h]

theorem readValue_newLine (fuel level : Nat) (s : List Char) :
    readValue fuel (newLine level ++ s) = readValue fuel s := by
  cases fuel with
  | zero => rfl
  | succ fuel => simp only [readValue, skipSpace_newLine]

theorem readValue_space (fuel : Nat) (s : List Char) :
    readValue fuel (' ' :: s) = readValue fuel s := by
  cases fuel with
  | zero => rfl
  | succ fuel => simp only [readValue, skipSpace, isSpace, List.dropWhile_cons]; rfl

theorem closed_newLine (level : Nat) (s : List Char) : Closed (newLine level ++ s) := by
  simp [Closed, newLine]

theorem closed_comma (s : List Char) : Closed (',' :: s) := by simp [Closed]

/-! ### Values -/

/-- Every string has a text, and every number is a natural one of which `P` holds. -/
inductive Plain (P : Nat → Prop) : Json → Prop
  | null : Plain P .null
  | bool (b : Bool) : Plain P (.bool b)
  | natural {n : Nat} (h : P n) : Plain P (.number (.natural n))
  | string (s : String) : Plain P (.string (some s))
  | array {items : List Json} (h : ∀ item ∈ items, Plain P item) : Plain P (.array items)
  | object {fields : List (Text × Json)} (keys : ∀ field ∈ fields, field.1.isSome = true)
      (h : ∀ field ∈ fields, Plain P field.2) : Plain P (.object fields)

/-- The value is read back wherever it is printed, with fuel for each of its characters. -/
def Reread (j : Json) : Prop :=
  ∀ (level fuel : Nat) (s : List Char), (printAt level j).length ≤ fuel → Closed s →
    readValue fuel (printAt level j ++ s) = some (j, s)

theorem isSpace_of_isDigit {c : Char} (h : c.isDigit = true) : isSpace c = false := by
  rw [Bool.eq_false_iff]
  intro hspace
  simp only [isSpace, Bool.or_eq_true, beq_iff_eq] at hspace
  rcases hspace with ((rfl | rfl) | rfl) | rfl <;> exact absurd h (by decide)

theorem readValue_digit (fuel : Nat) {c : Char} (s : List Char) (h : c.isDigit = true) :
    readValue (fuel + 1) (c :: s) =
      (readNumber (c :: s)).map fun (n, rest) => (.number n, rest) := by
  rw [readValue.eq_def]
  simp only [skipSpace_cons s (isSpace_of_isDigit h)]
  split
  case h_7 => rfl
  -- a value of any other kind starts with a character that is no digit
  all_goals
    cases ‹c :: s = _›
    exact absurd h (by decide)

theorem reread_natural (n : Nat) : Reread (.number (.natural n)) := by
  intro level fuel s hfuel hs
  have hread := readNumber_toDigits n hs
  have hdigits := isDigit_toDigits n
  have hprint : printAt level (.number (.natural n)) = Nat.toDigits 10 n := rfl
  rw [hprint] at hfuel ⊢
  cases hd : Nat.toDigits 10 n with
  | nil => exact absurd hd Nat.toDigits_ne_nil
  | cons c digits =>
    rw [hd] at hread hdigits hfuel
    obtain ⟨fuel, rfl⟩ : ∃ k, fuel = k + 1 := ⟨fuel - 1, by simp at hfuel; omega⟩
    rw [List.cons_append, readValue_digit fuel _ (hdigits c List.mem_cons_self), ← List.cons_append,
      hread]
    rfl

theorem reread_string (t : String) : Reread (.string (some t)) := by
  intro level fuel s hfuel _
  have hprint : printAt level (.string (some t)) = printText (some t) := rfl
  have hread := readString_printText t s
  rw [hprint] at hfuel ⊢
  rw [printText_some, List.cons_append] at hread hfuel ⊢
  obtain ⟨fuel, rfl⟩ : ∃ k, fuel = k + 1 := ⟨fuel - 1, by simp at hfuel; omega⟩
  rw [List.cons_append, readString] at hread
  rw [List.cons_append, readValue, skipSpace_cons _ (by decide)]
  simp only [hread, Option.map_some]

theorem reread_null : Reread .null := by
  intro level fuel s hfuel _
  have hprint : printAt level .null = ['n', 'u', 'l', 'l'] := rfl
  rw [hprint] at hfuel ⊢
  obtain ⟨fuel, rfl⟩ : ∃ k, fuel = k + 1 := ⟨fuel - 1, by simp at hfuel; omega⟩
  rfl

theorem reread_bool (b : Bool) : Reread (.bool b) := by
  intro level fuel s hfuel _
  have hprint : printAt level (.bool b) = if b then ['t', 'r', 'u', 'e'] else
      ['f', 'a', 'l', 's', 'e'] := by cases b <;> rfl
  rw [hprint] at hfuel ⊢
  obtain ⟨fuel, rfl⟩ : ∃ k, fuel = k + 1 := ⟨fuel - 1, by cases b <;> simp at hfuel <;> omega⟩
  cases b <;> rfl

variable {P : Nat → Prop}

/-- No value starts like the end of a list. -/
theorem exists_printAt_cons {j : Json} (h : Plain P j) (level : Nat) :
    ∃ c s, printAt level j = c :: s ∧ isSpace c = false ∧ c ≠ ']' := by
  cases h with
  | null => exact ⟨'n', _, rfl, by decide⟩
  | bool b => cases b <;> exact ⟨_, _, rfl, by decide⟩
  | @natural n _ =>
    have hprint : printAt level (.number (.natural n)) = Nat.toDigits 10 n := rfl
    have hdigits := isDigit_toDigits n
    rw [hprint]
    cases hd : Nat.toDigits 10 n with
    | nil => exact absurd hd Nat.toDigits_ne_nil
    | cons c digits =>
      have hc : c.isDigit = true := hdigits c (hd ▸ List.mem_cons_self)
      refine ⟨c, digits, rfl, isSpace_of_isDigit hc, ?_⟩
      rintro rfl
      exact absurd hc (by decide)
  | string s => exact ⟨'"', _, rfl, by decide⟩
  | @array items _ => cases items <;> exact ⟨'[', _, rfl, by decide⟩
  | @object fields _ _ => cases fields <;> exact ⟨'{', _, rfl, by decide⟩

theorem readItems_printed (level outer : Nat) {item : Json} {items : List Json}
    (h : ∀ x ∈ item :: items, Reread x) (fuel : Nat) (s : List Char)
    (hfuel : (printAt level item).length + (printItems level items).length < fuel) :
    readItems fuel (newLine level ++ (printAt level item ++ (printItems level items ++
      (newLine outer ++ ']' :: s)))) = some (item :: items, s) := by
  induction items generalizing item fuel with
  | nil =>
    obtain ⟨fuel, rfl⟩ : ∃ k, fuel = k + 1 := ⟨fuel - 1, by omega⟩
    have hitem := h item List.mem_cons_self level fuel (newLine outer ++ ']' :: s) (by omega)
      (closed_newLine outer _)
    simp [readItems, readValue_newLine, printItems, hitem, readMark_newLine,
      readMark_cons s (c := ']') (by decide)]
  | cons next items ih =>
    obtain ⟨fuel, rfl⟩ : ∃ k, fuel = k + 1 := ⟨fuel - 1, by omega⟩
    have hitem := h item List.mem_cons_self level fuel
    have hrest := ih (fun x hx => h x (List.mem_cons_of_mem item hx)) fuel (by
      simp [printItems, newLine] at hfuel
      omega)
    simp [readItems, readValue_newLine, printItems, hitem _ (by omega) (closed_comma _),
      readMark_cons _ (c := ',') (by decide), hrest]

theorem printFields_cons (level : Nat) (key : Text) (value : Json) (fields : List (Text × Json)) :
    printFields level ((key, value) :: fields) = ',' :: (newLine level ++ (printText key ++
      ':' :: ' ' :: (printAt level value ++ printFields level fields))) := by
  have hcolon : ": ".toList = [':', ' '] := rfl
  simp [printFields, hcolon]

theorem skipSpace_printText (key : String) (s : List Char) :
    skipSpace (printText (some key) ++ s) = printText (some key) ++ s :=
  skipSpace_cons _ (by decide)

theorem readFields_printed (level outer : Nat) (key : String) {value : Json}
    {fields : List (Text × Json)} (hvalue : Reread value)
    (hkeys : ∀ x ∈ fields, x.1.isSome = true) (hvalues : ∀ x ∈ fields, Reread x.2) (fuel : Nat)
    (s : List Char)
    (hfuel : (printAt level value).length + (printFields level fields).length < fuel) :
    readFields fuel (newLine level ++ (printText (some key) ++ ':' :: ' ' :: (printAt level value ++
      (printFields level fields ++ (newLine outer ++ '}' :: s))))) =
        some ((some key, value) :: fields, s) := by
  induction fields generalizing key value fuel with
  | nil =>
    obtain ⟨fuel, rfl⟩ : ∃ k, fuel = k + 1 := ⟨fuel - 1, by omega⟩
    have hread := hvalue level fuel (newLine outer ++ '}' :: s) (by omega) (closed_newLine outer _)
    simp [readFields, skipSpace_printText, readString_printText, readValue_space, printFields, hread,
      readMark_newLine, readMark_cons _ (c := ':') (by decide),
      readMark_cons s (c := '}') (by decide)]
  | cons next fields ih =>
    obtain ⟨fuel, rfl⟩ : ∃ k, fuel = k + 1 := ⟨fuel - 1, by omega⟩
    obtain ⟨key', value'⟩ := next
    obtain ⟨hkey', hkeys'⟩ := List.forall_mem_cons.1 hkeys
    obtain ⟨hvalue', hvalues'⟩ := List.forall_mem_cons.1 hvalues
    obtain ⟨key', rfl⟩ : ∃ k, key' = some k := Option.isSome_iff_exists.1 hkey'
    rw [printFields_cons] at hfuel ⊢
    have hread := hvalue level fuel
    have hrest := ih key' hvalue' hkeys' hvalues' fuel (by
      simp [newLine] at hfuel ⊢
      omega)
    simp [readFields, skipSpace_printText, readString_printText, readValue_space,
      hread _ (by omega) (closed_comma _), readMark_cons _ (c := ':') (by decide),
      readMark_cons _ (c := ',') (by decide), hrest]

theorem reread_array {items : List Json} (hplain : ∀ item ∈ items, Plain P item)
    (h : ∀ item ∈ items, Reread item) : Reread (.array items) := by
  intro level fuel s hfuel _
  cases items with
  | nil =>
    obtain ⟨fuel, rfl⟩ : ∃ k, fuel = k + 1 := ⟨fuel - 1, by simp [printAt] at hfuel; omega⟩
    rfl
  | cons item items =>
    obtain ⟨fuel, rfl⟩ : ∃ k, fuel = k + 1 := ⟨fuel - 1, by simp [printAt] at hfuel; omega⟩
    obtain ⟨c, t, hprint, hspace, hc⟩ :=
      exists_printAt_cons (hplain item List.mem_cons_self) (level + 1)
    have hitems := readItems_printed (level + 1) level h fuel s (by
      simp [printAt, newLine] at hfuel
      omega)
    have hmark : ∀ r, readMark ']' (newLine (level + 1) ++ (printAt (level + 1) item ++ r)) = none := by
      intro r
      rw [readMark_newLine, hprint, List.cons_append, readMark_cons _ hspace, if_neg hc]
    simp [readValue, printAt, skipSpace_cons _ (c := '[') (by decide), hmark, hitems]

theorem reread_object {fields : List (Text × Json)} (hkeys : ∀ x ∈ fields, x.1.isSome = true)
    (h : ∀ x ∈ fields, Reread x.2) : Reread (.object fields) := by
  intro level fuel s hfuel _
  cases fields with
  | nil =>
    obtain ⟨fuel, rfl⟩ : ∃ k, fuel = k + 1 := ⟨fuel - 1, by simp [printAt] at hfuel; omega⟩
    rfl
  | cons field fields =>
    obtain ⟨fuel, rfl⟩ : ∃ k, fuel = k + 1 := ⟨fuel - 1, by simp [printAt] at hfuel; omega⟩
    obtain ⟨key, value⟩ := field
    obtain ⟨hkey, hkeys'⟩ := List.forall_mem_cons.1 hkeys
    obtain ⟨hvalue, hvalues⟩ := List.forall_mem_cons.1 h
    obtain ⟨key, rfl⟩ : ∃ k, key = some k := Option.isSome_iff_exists.1 hkey
    have hcolon : ": ".toList = [':', ' '] := rfl
    have hfields := readFields_printed (level + 1) level key hvalue
      hkeys' hvalues fuel s (by
        simp [printAt, newLine] at hfuel ⊢
        omega)
    have hmark : ∀ r, readMark '}' (newLine (level + 1) ++ (printText (some key) ++ r)) = none := by
      intro r
      rw [readMark_newLine, readMark, skipSpace_printText]
      rfl
    simp [readValue, printAt, hcolon, skipSpace_cons _ (c := '{') (by decide), hmark, hfields]

theorem Plain.reread {j : Json} (h : Plain P j) : Reread j := by
  induction h with
  | null => exact reread_null
  | bool b => exact reread_bool b
  | natural _ => exact reread_natural _
  | string s => exact reread_string s
  | array h ih => exact reread_array h ih
  | object hkeys _ ih => exact reread_object hkeys ih

/-- A printed value is a text that holds this value and nothing else. -/
theorem parse_print {j : Json} (h : Plain P j) : parse (print j) = some j := by
  have hread : readValue ((print j).length + 1) (print j ++ []) = some (j, []) :=
    h.reread 0 _ [] (Nat.le_succ _) closed_nil
  rw [List.append_nil] at hread
  rw [parse, hread]
  rfl

/-! ### How values are put together -/

@[simp] theorem plain_nat {n : Nat} : Plain P (nat n) ↔ P n :=
  ⟨fun h => by cases h; assumption, .natural⟩

@[simp] theorem plain_ofString (s : String) : Plain P (ofString s) := .string s

@[simp] theorem plain_bool (b : Bool) : Plain P (.bool b) := .bool b

@[simp] theorem plain_ofFields {fields : List (String × Json)} :
    Plain P (ofFields fields) ↔ ∀ field ∈ fields, Plain P field.2 := by
  constructor
  · intro h field hfield
    cases h with
    | object _ h => exact h _ (List.mem_map_of_mem hfield)
  · intro h
    refine .object (fun x hx => ?_) fun x hx => ?_
    · obtain ⟨field, -, rfl⟩ := List.mem_map.1 hx
      rfl
    · obtain ⟨field, hfield, rfl⟩ := List.mem_map.1 hx
      exact h field hfield

@[simp] theorem plain_ofList {α : Type} {f : α → Json} {xs : List α} :
    Plain P (ofList f xs) ↔ ∀ x ∈ xs, Plain P (f x) := by
  constructor
  · intro h x hx
    cases h with
    | array h => exact h _ (List.mem_map_of_mem hx)
  · intro h
    refine .array fun item hitem => ?_
    obtain ⟨x, hx, rfl⟩ := List.mem_map.1 hitem
    exact h x hx

@[simp] theorem plain_ofOption {α : Type} {f : α → Json} {o : Option α} :
    Plain P (ofOption f o) ↔ ∀ x ∈ o, Plain P (f x) := by
  cases o with
  | none => simp [ofOption, Plain.null]
  | some x => simp [ofOption]

end ApiProperties.Json

import ApiProperties.Proofs.FirstWords
import ApiProperties.Proofs.Run

/-!
A run over a consistent model cannot fail: every id it follows names something, and the model it
leaves is consistent again. Nor can the reading of names fail where these are stored as UTF-8 and
cut at byte positions: every position that is cut at is the border of a character.
-/

set_option autoImplicit false

namespace ApiProperties

namespace Name

/-- The length of the text in UTF-8. -/
def byteLength (name : List Char) : Nat := (String.ofList name).utf8ByteSize

/-- What is before and what is behind the first `n` bytes, unless a character lies across that
position or the text is too short. -/
def cut? : List Char → Nat → Option (List Char × List Char)
  | name, 0 => some ([], name)
  | [], _ + 1 => none
  | c :: rest, n + 1 =>
    if c.utf8Size ≤ n + 1 then
      (cut? rest (n + 1 - c.utf8Size)).map fun (head, tail) => (c :: head, tail)
    else none

/-- `stripWord` by bytes: as many of them as the word has are compared with it. -/
def stripBytes? (name word : List Char) : Option (List Char) := do
  let (head, rest) ← cut? name (byteLength word)
  if head.map Char.toLower = word.map Char.toLower then some rest else none

/-- `readWrite` by bytes. There is no answer if a leading `is` does not end at the second byte. -/
def readWriteBytes? (getter setter : List Char) : Option (List Char) :=
  let name := fromGetter getter
  if name ≠ setter ∧ 2 < byteLength name ∧ "is".toList <+: name then
    (cut? name 2).map fun (_, rest) => lowercaseFirst rest
  else some name

@[simp] theorem byteLength_nil : byteLength [] = 0 := by simp [byteLength]

@[simp] theorem byteLength_cons (c : Char) (name : List Char) :
    byteLength (c :: name) = c.utf8Size + byteLength name := by
  simp [byteLength, String.ofList_cons]

/-- A cut succeeds at the borders of characters. -/
theorem cut?_eq_some {name head rest : List Char} {n : Nat} :
    cut? name n = some (head, rest) ↔ name = head ++ rest ∧ byteLength head = n := by
  induction name generalizing n head with
  | nil =>
    cases n with
    | zero => cases head <;> simp [cut?, eq_comm]
    | succ n => cases head <;> simp [cut?]
  | cons c name ih =>
    have hpos := c.utf8Size_pos
    cases n with
    | zero =>
      cases head with
      | nil => simp [cut?, eq_comm]
      | cons h head =>
        have hh := h.utf8Size_pos
        simp [cut?]
        omega
    | succ n =>
      cases head with
      | nil => simp [cut?]
      | cons h head =>
        by_cases hle : c.utf8Size ≤ n + 1
        · simp only [cut?, hle, if_true, Option.map_eq_some_iff, Prod.exists, Prod.mk.injEq,
            List.cons_append, List.cons.injEq, byteLength_cons]
          constructor
          · rintro ⟨head', rest', hcut, ⟨rfl, rfl⟩, rfl⟩
            obtain ⟨rfl, hlen⟩ := ih.1 hcut
            exact ⟨⟨rfl, rfl⟩, by omega⟩
          · rintro ⟨⟨rfl, rfl⟩, hlen⟩
            exact ⟨head, rest, ih.2 ⟨rfl, by omega⟩, ⟨rfl, rfl⟩, rfl⟩
        · simp only [cut?, hle, if_false, List.cons_append, List.cons.injEq, byteLength_cons]
          constructor
          · simp
          · rintro ⟨⟨rfl, -⟩, hlen⟩
            omega

theorem utf8Size_of_ascii {c : Char} (h : c.toNat ≤ 127) : c.utf8Size = 1 := by
  have hle : c.val ≤ 127 := UInt32.le_iff_toNat_le.2 h
  simp [Char.utf8Size, hle]

theorem utf8Size_toLower (c : Char) : c.toLower.utf8Size = c.utf8Size := by
  unfold Char.toLower
  split
  · rename_i h
    have hc : 65 ≤ c.toNat ∧ c.toNat ≤ 90 := by simpa [UInt32.le_iff_toNat_le] using h
    rw [utf8Size_of_ascii, utf8Size_of_ascii]
    · omega
    · show (c.val + ('a'.val - 'A'.val)).toNat ≤ 127
      have hsum : (c.val + ('a'.val - 'A'.val)).toNat = (c.toNat + 32) % 2 ^ 32 :=
        UInt32.toNat_add ..
      omega
  · rfl

theorem byteLength_of_toLower {name word : List Char}
    (h : name.map Char.toLower = word.map Char.toLower) : byteLength name = byteLength word := by
  induction name generalizing word with
  | nil =>
    cases word with
    | nil => rfl
    | cons w word => simp at h
  | cons c name ih =>
    cases word with
    | nil => simp at h
    | cons w word =>
      simp only [List.map_cons, List.cons.injEq] at h
      rw [byteLength_cons, byteLength_cons, ih h.2, ← utf8Size_toLower c, h.1, utf8Size_toLower]

theorem stripBytes?_eq (name word : List Char) : stripBytes? name word = stripWord name word := by
  ext rest
  simp only [stripBytes?, Option.bind_eq_bind, Option.bind_eq_some_iff, Prod.exists,
    stripWord_eq_some, cut?_eq_some]
  constructor
  · rintro ⟨head, rest', ⟨hname, -⟩, hrest⟩
    split at hrest
    · obtain rfl := Option.some.inj hrest
      exact ⟨head, hname, ‹_›⟩
    · simp at hrest
  · rintro ⟨head, hname, hhead⟩
    exact ⟨head, rest, ⟨hname, byteLength_of_toLower hhead⟩, by simp [hhead]⟩

theorem readWriteBytes?_eq (getter setter : List Char) :
    readWriteBytes? getter setter = some (readWrite getter setter) := by
  have htwo : byteLength ['i', 's'] = 2 := by decide
  unfold readWriteBytes? readWrite
  split
  · rename_i c rest hname
    have hcut : cut? ('i' :: 's' :: c :: rest) 2 = some (['i', 's'], c :: rest) :=
      cut?_eq_some.2 ⟨rfl, htwo⟩
    have hlong : 2 < byteLength ('i' :: 's' :: c :: rest) := by
      have hpos := c.utf8Size_pos
      simp only [byteLength_cons, byteLength_nil] at htwo ⊢
      omega
    by_cases heq : 'i' :: 's' :: c :: rest = setter
    · simp [hname, heq]
    · rw [hname, if_pos ⟨heq, hlong, _, rfl⟩, if_neg heq, hcut]
      rfl
  · rename_i hshort
    rw [if_neg]
    rintro ⟨-, hlen, rest, hrest⟩
    cases rest with
    | nil =>
      have hname : fromGetter getter = ['i', 's'] := hrest.symm
      rw [hname, htwo] at hlen
      exact Nat.lt_irrefl 2 hlen
    | cons c rest => exact hshort c rest hrest.symm

end Name

/-! ### Taking pending properties out by position -/

namespace Pending

/-- Takes the pending property at a position out if its getter reads as an action. There is no
answer if no property is at the position. -/
def dropAt? (verbs : VerbDictionary) (t : Pending × Model × Nat) (index : Nat) :
    Option (Pending × Model × Nat) := do
  let (s, m, count) := t
  let p ← s.properties[index]?
  match ← actionGetter? m verbs p with
  | some g =>
    let (m, _) ← m.demote? s.owner g
    let (_, s) ← s.remove? index
    pure (s, m, count + 1)
  | none => pure (s, m, count)

/-- `dropActions?` by positions, which are visited from the last one to the first. -/
def dropByPosition? (s : Pending) (m : Model) (verbs : VerbDictionary) :
    Option (Pending × Model × Nat) :=
  (List.range s.properties.length).reverse.foldlM (dropAt? verbs) (s, m, 0)

/-- What is taken out at a position leaves every position before it where it was. -/
theorem foldlM_dropAt? (owner : ClassId) (completed : List Nat) (m : Model) (verbs : VerbDictionary)
    (before ps : List Property) :
    (List.range' before.length ps.length).reverse.foldlM (dropAt? verbs)
        (⟨owner, before ++ ps, completed⟩, m, 0) =
      (withoutActions? owner verbs m ps).map fun (kept, m, count) =>
        (⟨owner, before ++ kept, completed⟩, m, count) := by
  induction ps generalizing before with
  | nil => rfl
  | cons p rest ih =>
    have hrest := ih (before ++ [p])
    simp only [List.length_append, List.length_singleton, List.append_assoc,
      List.singleton_append] at hrest
    rw [List.length_cons, List.range'_succ, List.reverse_cons, List.foldlM_append, hrest,
      withoutActions?]
    cases withoutActions? owner verbs m rest with
    | none => rfl
    | some w =>
      obtain ⟨kept, m', count⟩ := w
      have hremove : remove? ⟨owner, before ++ p :: kept, completed⟩ before.length =
          some (p, ⟨owner, before ++ kept, completed⟩) := by
        simp [remove?, List.eraseIdx_append_of_length_le]
      cases hread : actionGetter? m' verbs p with
      | none => simp [dropAt?, hread]
      | some found =>
        cases found with
        | none => simp [dropAt?, hread]
        | some g => cases hd : m'.demote? owner g <;> simp [dropAt?, hread, hd, hremove]

theorem dropByPosition?_eq (s : Pending) (m : Model) (verbs : VerbDictionary) :
    s.dropByPosition? m verbs = s.dropActions? m verbs := by
  have h := foldlM_dropAt? s.owner s.completed m verbs [] s.properties
  rw [dropByPosition?, List.range_eq_range', dropActions?]
  exact h.trans (Option.map_eq_bind ..)

end Pending

/-! ### Runs -/

namespace Model

/-- No run over a consistent model follows an id that names nothing, and none leaves such an id
behind. Nor does it fail where it takes pending properties out by position or cuts names at byte
positions. -/
theorem run_stays_valid (m : Model) (hm : m.Valid) (y : Synthesis) :
    (∃ t, y.run? m = some t ∧ t.model.Valid) ∧
    (∀ (s : Pending) (m' : Model), s.dropByPosition? m' y.verbs = s.dropActions? m' y.verbs) ∧
    (∀ name word, Name.stripBytes? name word = Name.stripWord name word) ∧
    ∀ getter setter, Name.readWriteBytes? getter setter = some (Name.readWrite getter setter) := by
  obtain ⟨t, ht, hvalid, -⟩ := hm.run?_classes y
  exact ⟨⟨t, ht, hvalid⟩, fun s m' => s.dropByPosition?_eq m' y.verbs, Name.stripBytes?_eq,
    Name.readWriteBytes?_eq⟩

/-- Classes that derive from themselves and each other, views of views, and a property whose
accessor is another class's. -/
def tangle : Model :=
  let int := QualifiedType.plain (.builtin .int)
  let getter := { Method.plain "getÉtat" int with generation := .internal }
  let toggle := { Method.plain "isſet" int with owner := 2 }
  let setter := { Method.plainSetter "setÉtat_" int with owner := 2 }
  let override := { (Method.plain "getÉtat" int).overriding ⟨0, 0⟩ with owner := 2 }
  let borrowed := { Property.plain "État" int 2 .pub with getter := some ⟨0, 0⟩ }
  ⟨"unit", [
    { Class.empty 0 "First" with bases := [⟨2, .pub⟩, ⟨0, .pub⟩], methods := [getter] },
    { Class.empty 1 "View" with bases := [⟨1, .pub⟩], definition := some 2 },
    { Class.empty 2 "Second" with
      bases := [⟨1, .pub⟩, ⟨0, .pub⟩], definition := some 1, methods := [toggle, setter, override],
      properties := [borrowed] }]⟩

theorem run_stays_valid_tangle : tangle.Valid ∧
    ∃ t, Synthesis.withoutVerbs.run? tangle = some t ∧ t.model.Valid :=
  have hvalid : tangle.Valid := by decide
  ⟨hvalid, (run_stays_valid tangle hvalid .withoutVerbs).1⟩

end Model
end ApiProperties

import ApiProperties.ModelFile
import ApiProperties.Proofs.Extent
import ApiProperties.Proofs.Redecoding

/-!
What is said of a model by its being read from a text: its types are nested no deeper than the decoder
goes, and its lists are no longer than the text. That a type names no class out of reach is not
part of the consistency where properties are concerned, so this is needed to write the model again.
-/

set_option autoImplicit false

namespace ApiProperties

open Json

/-! ### Decoders -/

section Decoders
variable {α : Type} {n budget : Nat} {d : Decoder α} {P : Nat → α → Prop} {source : Provenance}

/-- What is decoded out of arrays of at most `n` items has the property, at the levels that were
left. -/
def Ensures (n : Nat) (d : Decoder α) (P : Nat → α → Prop) : Prop :=
  ∀ source budget j x, j.Bounded n → d source budget j = some x → P budget x

theorem mapM_ensures {items : List Json} {xs : List α} (hd : Ensures n d P)
    (hitems : ∀ item ∈ items, item.Bounded n) (h : items.mapM (d source budget) = some xs) :
    xs.length = items.length ∧ ∀ x ∈ xs, P budget x := by
  induction items generalizing xs with
  | nil =>
    cases h
    simp
  | cons item items ih =>
    obtain ⟨hitem, hitems⟩ := List.forall_mem_cons.1 hitems
    simp only [List.mapM_cons, Option.bind_eq_bind, Option.bind_eq_some_iff] at h
    obtain ⟨x, hx, rest, hrest, h⟩ := h
    cases h
    obtain ⟨hlength, hall⟩ := ih hitems hrest
    exact ⟨by simp [hlength], List.forall_mem_cons.2 ⟨hd _ _ _ _ hitem hx, hall⟩⟩

theorem ensures_list (hd : Ensures n d P) : Ensures n (Decoder.list d)
    fun budget xs => xs.length ≤ n ∧ ∀ x ∈ xs, P (budget - 1) x := by
  intro source budget j xs hj h
  unfold Decoder.list at h
  split at h
  · cases hj with
    | array hlength hitems =>
      obtain ⟨heq, hall⟩ := mapM_ensures hd hitems h
      exact ⟨heq ▸ hlength, hall⟩
  · cases h

theorem ensures_word : Ensures n Decoder.word fun _ x => x < wordLimit := by
  intro source budget j x _ h
  unfold Decoder.word at h
  split at h
  · split at h
    · cases h
      assumption
    · cases h
  · cases h

theorem bounded_of_tagged {j value : Json} {key : String} (hj : j.Bounded n)
    (h : j.tagged? = some (key, value)) : value.Bounded n := by
  unfold Json.tagged? at h
  split at h
  · cases h
    cases hj with
    | object hfields => exact hfields _ List.mem_cons_self
  · cases h

namespace Fields
variable {names : List String} {j : Json} {f : Fields} {name : String} {x : α}

theorem mem_of_known? {fields : List (Json.Text × Json)} {values : List (String × Json)}
    (h : known? names fields = some values) :
    ∀ value ∈ values, ∃ field ∈ fields, field.2 = value.2 := by
  induction fields generalizing values with
  | nil =>
    cases h
    simp
  | cons field fields ih =>
    obtain ⟨key, j⟩ := field
    cases key with
    | none => cases h
    | some key =>
      simp only [known?, Option.bind_eq_bind, Option.bind_eq_some_iff] at h
      obtain ⟨others, hothers, h⟩ := h
      have hrest := fun value hvalue => (ih hothers value hvalue).imp fun _ hfield =>
        hfield.imp_left (List.mem_cons_of_mem (some key, j))
      split at h
      · split at h
        · cases h
        · cases h
          exact List.forall_mem_cons.2 ⟨⟨_, List.mem_cons_self, rfl⟩, hrest⟩
      · cases h
        exact hrest

/-- What is known of the fields of a record: they are parts of its value, one level further in. -/
structure Inside (n budget : Nat) (f : Fields) : Prop where
  budget : f.budget = budget - 1
  values : ∀ value ∈ f.values, value.2.Bounded n

theorem inside_of_record (hj : j.Bounded n) (h : record names source budget j = some f) :
    f.Inside n budget := by
  unfold record at h
  split at h
  · obtain ⟨values, hvalues, rfl⟩ := Option.map_eq_some_iff.1 h
    cases hj with
    | object hfields =>
      refine ⟨rfl, fun value hvalue => ?_⟩
      obtain ⟨field, hfield, heq⟩ := mem_of_known? hvalues value hvalue
      exact heq ▸ hfields field hfield
  · split at h
    · cases h
      cases hj with
      | array _ hitems => exact ⟨rfl, fun value hvalue => hitems _ (List.of_mem_zip hvalue).2⟩
    · cases h
  · cases h

theorem inside_of_payload (hj : j.Bounded n) (h : payload names source budget j = some f) :
    f.Inside n budget := by
  unfold payload at h
  split at h
  · cases h
  · exact inside_of_record hj h

namespace Inside
variable (hf : f.Inside n budget)
include hf

theorem bounded_of_find? (h : f.find? name = some j) : j.Bounded n := by
  obtain ⟨before, after, hvalues, -⟩ := List.lookup_eq_some_iff.1 h
  exact hf.values (name, j) (hvalues ▸ List.mem_append_right _ List.mem_cons_self)

theorem required (hd : Ensures n d P) (h : f.required name d = some x) : P (budget - 1) x := by
  obtain ⟨j, hfind, hj⟩ := Option.bind_eq_some_iff.1 h
  exact hf.budget ▸ hd _ _ _ _ (hf.bounded_of_find? hfind) hj

theorem defaulted (hd : Ensures n d P) {default : α} (h : f.defaulted name default d = some x)
    (hdefault : P (budget - 1) default) : P (budget - 1) x := by
  unfold Fields.defaulted at h
  split at h
  · rename_i j hfind
    exact hf.budget ▸ hd _ _ _ _ (hf.bounded_of_find? hfind) h
  · cases h
    exact hdefault

end Inside
end Fields
end Decoders

open Fields

/-! ### Types -/

section Types
variable {n : Nat}

theorem ensures_decodeQualified {inner : Nat} {type : Json → Option TypeExpr}
    (htype : Ensures n (fun _ _ => type) fun _ t => t.encode.Fits inner) (source : Provenance)
    (j : Json) (q : QualifiedType) (hj : j.Bounded n)
    (h : decodeQualified type source (inner + 1) j = some q) : q.encode.Fits (inner + 1) := by
  simp only [decodeQualified, Option.bind_eq_bind, Option.bind_eq_some_iff] at h
  obtain ⟨f, hf, t, ht, const, _, h⟩ := h
  cases h
  have hfits := (inside_of_record hj hf).required htype ht
  exact fits_ofFields.2 (by simpa using hfits)

theorem Fields.Inside.required_qualified {f : Fields} {name : String} {q : QualifiedType} {inner : Nat}
    {type : Json → Option TypeExpr} (hf : f.Inside n (inner + 2))
    (htype : Ensures n (fun _ _ => type) fun _ t => t.encode.Fits inner)
    (h : f.required name (decodeQualified type) = some q) : q.encode.Fits (inner + 1) := by
  obtain ⟨j, hfind, hj⟩ := Option.bind_eq_some_iff.1 h
  rw [hf.budget] at hj
  exact ensures_decodeQualified htype f.source j q (hf.bounded_of_find? hfind) hj

theorem TypeExpr.fits_of_decode (source : Provenance) (budget : Nat) (j : Json) (t : TypeExpr)
    (hj : j.Bounded n) (h : TypeExpr.decode source budget j = some t) : t.encode.Fits budget := by
  induction budget using Nat.strongRecOn generalizing j t with
  | _ budget ih =>
  cases budget with
  | zero => cases h
  | succ budget =>
    rw [TypeExpr.decode] at h
    simp only [Option.bind_eq_bind, Option.bind_eq_some_iff, Prod.exists] at h
    obtain ⟨key, value, htag, h⟩ := h
    have hvalue := bounded_of_tagged hj htag
    split at h
    · obtain ⟨p, -, rfl⟩ := Option.map_eq_some_iff.1 h
      exact fits_ofFields.2 (by simp)
    · obtain ⟨target, htarget, rfl⟩ := Option.map_eq_some_iff.1 h
      have hlt := ensures_word _ _ _ _ hvalue htarget
      exact fits_ofFields.2 (by simpa using hlt)
    · obtain ⟨spelling, -, rfl⟩ := Option.map_eq_some_iff.1 h
      exact fits_ofFields.2 (by simp)
    · split at h
      · rename_i inner
        simp only [Option.bind_eq_some_iff] at h
        obtain ⟨f, hf, pointee, hpointee, kind, -, h⟩ := h
        cases h
        have hfits := (inside_of_payload hvalue hf).required_qualified
          (fun _ _ => ih inner (by omega)) hpointee
        simp only [encode, fits_ofFields, List.forall_mem_singleton, List.forall_mem_cons]
        exact ⟨hfits, fits_ofString _⟩
      · cases h
    · split at h
      · rename_i inner
        simp only [Option.bind_eq_some_iff] at h
        obtain ⟨f, hf, name, -, underlying, hunderlying, h⟩ := h
        cases h
        have hfits := (inside_of_payload hvalue hf).required_qualified
          (fun _ _ => ih inner (by omega)) hunderlying
        simp only [encode, fits_ofFields, List.forall_mem_singleton, List.forall_mem_cons]
        exact ⟨fits_ofString _, hfits⟩
      · cases h
    · cases h

theorem QualifiedType.ensures_decode :
    Ensures n QualifiedType.decode fun budget q => q.encode.Fits budget := by
  intro source budget j q hj h
  cases budget with
  | zero => cases h
  | succ inner =>
    exact ensures_decodeQualified (fun _ _ j t hj h => TypeExpr.fits_of_decode source inner j t hj h)
      source j q hj h

end Types

/-! ### Models -/

/-- The types of a method are nested no deeper than they may be in a method with so many levels. -/
structure Method.Compact (budget : Nat) (f : Method) : Prop where
  returnType : f.returnType.encode.Fits (budget - 1)
  parameters : ∀ p ∈ f.parameters, p.type.encode.Fits (budget - 3)

structure Class.Compact (budget : Nat) (k : Class) : Prop where
  methodCount : k.methods.length ≤ wordLimit
  methods : ∀ f ∈ k.methods, f.Compact (budget - 2)
  properties : ∀ p ∈ k.properties, p.type.encode.Fits (budget - 3)
  events : ∀ e ∈ k.events, e.owner < wordLimit

/-- Every type fits where it stands, and methods and classes can be counted in words. -/
structure Model.Compact (budget : Nat) (m : Model) : Prop where
  classCount : m.classes.length ≤ wordLimit
  classes : ∀ k ∈ m.classes, k.Compact (budget - 2)

section Models
variable {n : Nat}

theorem Parameter.ensures_decode :
    Ensures n Parameter.decode fun budget p => p.type.encode.Fits (budget - 1) := by
  intro source budget j p hj h
  obtain ⟨f, hf, h⟩ := Option.bind_eq_some_iff.1 h
  iterate 2 obtain ⟨_, -, h⟩ := Option.bind_eq_some_iff.1 h
  obtain ⟨type, htype, h⟩ := Option.bind_eq_some_iff.1 h
  cases h
  have hfits := (inside_of_record hj hf).required QualifiedType.ensures_decode htype
  exact hfits

theorem Method.ensures_decode : Ensures n Method.decode Method.Compact := by
  intro source budget j method hj h
  obtain ⟨f, hf, h⟩ := Option.bind_eq_some_iff.1 h
  iterate 10 obtain ⟨_, -, h⟩ := Option.bind_eq_some_iff.1 h
  obtain ⟨parameters, hparameters, h⟩ := Option.bind_eq_some_iff.1 h
  obtain ⟨returnType, hreturn, h⟩ := Option.bind_eq_some_iff.1 h
  iterate 3 obtain ⟨_, -, h⟩ := Option.bind_eq_some_iff.1 h
  cases h
  have hinside := inside_of_record hj hf
  have hfits := hinside.required QualifiedType.ensures_decode hreturn
  exact ⟨hfits, (hinside.defaulted (ensures_list Parameter.ensures_decode) hparameters (by simp)).2⟩

theorem Property.ensures_decode :
    Ensures n Property.decode fun budget p => p.type.encode.Fits (budget - 1) := by
  intro source budget j p hj h
  obtain ⟨f, hf, h⟩ := Option.bind_eq_some_iff.1 h
  iterate 2 obtain ⟨_, -, h⟩ := Option.bind_eq_some_iff.1 h
  obtain ⟨type, htype, h⟩ := Option.bind_eq_some_iff.1 h
  iterate 7 obtain ⟨_, -, h⟩ := Option.bind_eq_some_iff.1 h
  cases h
  have hfits := (inside_of_record hj hf).required QualifiedType.ensures_decode htype
  exact hfits

theorem Event.ensures_decode : Ensures n Event.decode fun _ e => e.owner < wordLimit := by
  intro source budget j e hj h
  obtain ⟨f, hf, h⟩ := Option.bind_eq_some_iff.1 h
  obtain ⟨_, -, h⟩ := Option.bind_eq_some_iff.1 h
  obtain ⟨owner, howner, h⟩ := Option.bind_eq_some_iff.1 h
  cases h
  exact (inside_of_record hj hf).required ensures_word howner

theorem Class.ensures_decode (hn : n ≤ wordLimit) : Ensures n Class.decode Class.Compact := by
  intro source budget j k hj h
  obtain ⟨f, hf, h⟩ := Option.bind_eq_some_iff.1 h
  iterate 4 obtain ⟨_, -, h⟩ := Option.bind_eq_some_iff.1 h
  obtain ⟨methods, hmethods, h⟩ := Option.bind_eq_some_iff.1 h
  obtain ⟨properties, hproperties, h⟩ := Option.bind_eq_some_iff.1 h
  obtain ⟨events, hevents, h⟩ := Option.bind_eq_some_iff.1 h
  obtain ⟨_, -, h⟩ := Option.bind_eq_some_iff.1 h
  cases h
  have hinside := inside_of_record hj hf
  obtain ⟨hcount, hmethods⟩ :=
    hinside.defaulted (ensures_list Method.ensures_decode) hmethods (by simp)
  exact ⟨Nat.le_trans hcount hn, hmethods,
    (hinside.defaulted (ensures_list Property.ensures_decode) hproperties (by simp)).2,
    (hinside.defaulted (ensures_list Event.ensures_decode) hevents (by simp)).2⟩

theorem Model.ensures_decode (hn : n ≤ wordLimit) : Ensures n Model.decode Model.Compact := by
  intro source budget j m hj h
  obtain ⟨f, hf, h⟩ := Option.bind_eq_some_iff.1 h
  obtain ⟨_, -, h⟩ := Option.bind_eq_some_iff.1 h
  obtain ⟨classes, hclasses, h⟩ := Option.bind_eq_some_iff.1 h
  cases h
  obtain ⟨hcount, hclasses⟩ := (inside_of_record hj hf).defaulted
    (ensures_list (Class.ensures_decode hn)) hclasses (by simp)
  exact ⟨Nat.le_trans hcount hn, hclasses⟩

/-- A model out of a text whose characters can be counted in a word. -/
theorem ModelFile.compact_of_parse {text : List Char} {m : Model} (hlength : text.length ≤ wordLimit)
    (h : parse? text = some m) : m.Compact Decoder.maxDepth := by
  obtain ⟨j, hj, hm⟩ := Option.bind_eq_some_iff.1 h
  exact Model.ensures_decode hlength _ _ j m (bounded_of_parse hj) hm

end Models
end ApiProperties

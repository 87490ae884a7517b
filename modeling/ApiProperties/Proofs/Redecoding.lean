import ApiProperties.Model.Decoding
import ApiProperties.Proofs.Rereading

/-!
What a model is encoded as is decoded to this model, if its numbers are words and the decoder has a
level left for each level of the encoding.
-/

set_option autoImplicit false

namespace ApiProperties

namespace Json

/-- Nested at most so deep, and with words for numbers. -/
structure Fits (budget : Nat) (j : Json) : Prop where
  depth : j.depth ≤ budget
  plain : j.Plain (· < wordLimit)

variable {budget : Nat} {α : Type}

theorem depthOfItems_le {items : List Json} :
    depthOfItems items ≤ budget ↔ ∀ item ∈ items, item.depth ≤ budget := by
  induction items with
  | nil => simp [depthOfItems]
  | cons item items ih => rw [depthOfItems, Nat.max_le, ih, List.forall_mem_cons]

theorem depthOfFields_le {fields : List (Text × Json)} :
    depthOfFields fields ≤ budget ↔ ∀ field ∈ fields, field.2.depth ≤ budget := by
  induction fields with
  | nil => simp [depthOfFields]
  | cons field fields ih => rw [depthOfFields, Nat.max_le, ih, List.forall_mem_cons]

theorem depth_ofFields {fields : List (String × Json)} :
    (ofFields fields).depth ≤ budget + 1 ↔ ∀ field ∈ fields, field.2.depth ≤ budget := by
  rw [ofFields, Json.depth, Nat.add_le_add_iff_right, depthOfFields_le, List.forall_mem_map]

theorem depth_ofList {f : α → Json} {xs : List α} :
    (ofList f xs).depth ≤ budget + 1 ↔ ∀ x ∈ xs, (f x).depth ≤ budget := by
  simp [ofList, depth, depthOfItems_le]

@[simp] theorem fits_ofString (s : String) : Fits budget (ofString s) :=
  ⟨Nat.zero_le _, plain_ofString s⟩

@[simp] theorem fits_bool (b : Bool) : Fits budget (.bool b) := ⟨Nat.zero_le _, plain_bool b⟩

@[simp] theorem fits_nat {n : Nat} : Fits budget (nat n) ↔ n < wordLimit :=
  ⟨fun h => plain_nat (P := (· < wordLimit)).1 h.plain, fun h => ⟨Nat.zero_le _, plain_nat.2 h⟩⟩

theorem fits_ofFields {fields : List (String × Json)} :
    Fits (budget + 1) (ofFields fields) ↔ ∀ field ∈ fields, Fits budget field.2 := by
  constructor
  · intro h field hfield
    exact ⟨depth_ofFields.1 h.depth field hfield, plain_ofFields.1 h.plain field hfield⟩
  · intro h
    exact ⟨depth_ofFields.2 fun field hfield => (h field hfield).depth,
      plain_ofFields.2 fun field hfield => (h field hfield).plain⟩

theorem fits_ofList {f : α → Json} {xs : List α} :
    Fits (budget + 1) (ofList f xs) ↔ ∀ x ∈ xs, Fits budget (f x) := by
  constructor
  · intro h x hx
    exact ⟨depth_ofList.1 h.depth x hx, plain_ofList.1 h.plain x hx⟩
  · intro h
    exact ⟨depth_ofList.2 fun x hx => (h x hx).depth, plain_ofList.2 fun x hx => (h x hx).plain⟩

theorem fits_ofOption {f : α → Json} {o : Option α} :
    Fits budget (ofOption f o) ↔ ∀ x ∈ o, Fits budget (f x) := by
  cases o with
  | none => simpa [ofOption] using ⟨Nat.zero_le _, .null⟩
  | some x => simp [ofOption]

/-- Only what is not nested fits without a level left. -/
theorem Fits.exists_succ {fields : List (String × Json)} (h : Fits budget (ofFields fields)) :
    ∃ inner, budget = inner + 1 ∧ ∀ field ∈ fields, Fits inner field.2 := by
  cases budget with
  | zero => exact absurd h.depth (by simp [ofFields, Json.depth])
  | succ inner => exact ⟨inner, rfl, fits_ofFields.1 h⟩

theorem Fits.exists_succ_list {f : α → Json} {xs : List α} (h : Fits budget (ofList f xs)) :
    ∃ inner, budget = inner + 1 ∧ ∀ x ∈ xs, Fits inner (f x) := by
  cases budget with
  | zero => exact absurd h.depth (by simp [ofList, Json.depth])
  | succ inner => exact ⟨inner, rfl, fits_ofList.1 h⟩

end Json

open Json

/-! ### Decoders -/

/-- Whatever the value comes from, it is decoded to `x`, if it fits. -/
def Decodes {α : Type} (d : Decoder α) (j : Json) (x : α) : Prop :=
  ∀ source budget, j.Fits budget → d source budget j = some x

section Decoders
variable {α : Type} {d : Decoder α} {f : α → Json}

theorem decodes_string (s : String) : Decodes Decoder.string (ofString s) s := fun _ _ _ => rfl

theorem decodes_bool (b : Bool) : Decodes Decoder.bool (.bool b) b := fun _ _ _ => rfl

theorem decodes_word (n : Nat) : Decodes Decoder.word (nat n) n := by
  intro source budget h
  exact if_pos (fits_nat.1 h)

theorem decodes_keyword {all : List α} {name : α → String} {x : α}
    (h : all.find? (name · == name x) = some x) :
    Decodes (Decoder.keyword all name) (ofString (name x)) x := by
  intro source budget _
  simp [Decoder.keyword, ofString, h]

theorem mapM_decodes {source : Provenance} {budget : Nat} {xs : List α}
    (h : ∀ x ∈ xs, Decodes d (f x) x) (hfits : ∀ x ∈ xs, (f x).Fits budget) :
    (xs.map f).mapM (d source budget) = some xs := by
  induction xs with
  | nil => rfl
  | cons x xs ih =>
    obtain ⟨hx, hxs⟩ := List.forall_mem_cons.1 h
    obtain ⟨hfit, hfits⟩ := List.forall_mem_cons.1 hfits
    simp [List.map_cons, List.mapM_cons, hx source budget hfit, ih hxs hfits]

theorem decodes_list {xs : List α} (h : ∀ x ∈ xs, Decodes d (f x) x) :
    Decodes (Decoder.list d) (ofList f xs) xs := by
  intro source budget hfits
  obtain ⟨inner, rfl, hitems⟩ := hfits.exists_succ_list
  exact mapM_decodes h hitems

theorem decodes_option {o : Option α} (h : ∀ x ∈ o, Decodes d (f x) x)
    (hnull : ∀ x ∈ o, f x ≠ .null) : Decodes (Decoder.option d) (ofOption f o) o := by
  intro source budget hfits
  cases o with
  | none => rfl
  | some x =>
    have hx := h x rfl source budget hfits
    have hne := hnull x rfl
    rw [ofOption]
    unfold Decoder.option
    split
    · exact absurd ‹_› hne
    · rw [hx]
      rfl

end Decoders

/-! ### Records -/

@[simp] theorem tagged?_ofFields (key : String) (value : Json) :
    (ofFields [(key, value)]).tagged? = some (key, value) := rfl

namespace Fields

theorem known?_of_keys {names : List String} {fields : List (String × Json)}
    (hkeys : ∀ field ∈ fields, field.1 ∈ names) (hnodup : (fields.map (·.1)).Nodup) :
    known? names (fields.map fun (key, value) => (some key, value)) = some fields := by
  induction fields with
  | nil => rfl
  | cons field fields ih =>
    obtain ⟨hkey, hkeys⟩ := List.forall_mem_cons.1 hkeys
    obtain ⟨hfresh, hnodup⟩ := List.nodup_cons.1 hnodup
    have hnone : fields.any (·.1 == field.1) = false := by
      rw [List.any_eq_false]
      intro other hother heq
      exact hfresh (List.mem_map.2 ⟨other, hother, beq_iff_eq.1 heq⟩)
    simp [known?, ih hkeys hnodup, hkey, hnone]

variable {source : Provenance} {budget : Nat} {names : List String} {fields : List (String × Json)}

theorem record_ofFields (hkeys : fields.map (·.1) = names) (hnodup : names.Nodup) :
    record names source (budget + 1) (ofFields fields) = some ⟨source, budget, fields⟩ := by
  have hknown := known?_of_keys (fun field hfield => hkeys ▸ List.mem_map_of_mem hfield)
    (hkeys ▸ hnodup)
  rw [ofFields, record, hknown]
  rfl

theorem payload_ofFields (hkeys : fields.map (·.1) = names) (hnodup : names.Nodup) :
    payload names source (budget + 1) (ofFields fields) = some ⟨source, budget, fields⟩ := by
  rw [← record_ofFields hkeys hnodup, ofFields]
  cases source <;> rfl

section
variable {α : Type} (name : String) {d : Decoder α} {j : Json} {x : α}
  (hfits : ∀ field ∈ fields, Fits budget field.2) (hfind : fields.lookup name = some j)
include hfits hfind

theorem fits_of_lookup : Fits budget j := by
  induction fields with
  | nil => cases hfind
  | cons field fields ih =>
    obtain ⟨hfield, hfields⟩ := List.forall_mem_cons.1 hfits
    rw [List.lookup_cons] at hfind
    split at hfind
    · exact Option.some.inj hfind ▸ hfield
    · exact ih hfields hfind

theorem required_of_fits (h : j.Fits budget → d source budget j = some x) :
    (⟨source, budget, fields⟩ : Fields).required name d = some x := by
  rw [required, find?, hfind]
  exact h (fits_of_lookup name hfits hfind)

theorem required_of_lookup (h : Decodes d j x) :
    (⟨source, budget, fields⟩ : Fields).required name d = some x :=
  required_of_fits name hfits hfind (h source budget)

theorem defaulted_of_lookup {default : α} (h : Decodes d j x) :
    (⟨source, budget, fields⟩ : Fields).defaulted name default d = some x := by
  rw [defaulted, find?, hfind]
  exact h source budget (fits_of_lookup name hfits hfind)

theorem optional_of_lookup {o : Option α} (h : Decodes (.option d) j o) :
    (⟨source, budget, fields⟩ : Fields).optional name d = some o :=
  defaulted_of_lookup name hfits hfind h

end

/-- What comes after a read, with what was read. -/
theorem bind_of_eq {α β : Type} {read : Option α} {x : α} (h : read = some x)
    (next : α → Option β) : (read >>= next) = next x := by
  rw [h, Option.bind_eq_bind, Option.bind_some]

end Fields

open Fields

/-! ### Keywords -/

theorem PointerKind.decodes (k : PointerKind) :
    Decodes PointerKind.decode (ofString k.name) k :=
  decodes_keyword (by cases k <;> rfl)

theorem Primitive.decodes (p : Primitive) : Decodes Primitive.decode (ofString p.name) p :=
  decodes_keyword (by cases p <;> rfl)

theorem Access.decodes (a : Access) : Decodes Access.decode (ofString a.name) a :=
  decodes_keyword (by cases a <;> rfl)

theorem Generation.decodes (g : Generation) : Decodes Generation.decode (ofString g.name) g :=
  decodes_keyword (by cases g <;> rfl)

theorem Origin.decodes (o : Origin) : Decodes Origin.decode (ofString o.name) o :=
  decodes_keyword (by cases o <;> rfl)

theorem MethodKind.decodes (k : MethodKind) : Decodes MethodKind.decode (ofString k.name) k :=
  decodes_keyword (by cases k <;> rfl)

theorem ParameterKind.decodes (k : ParameterKind) :
    Decodes ParameterKind.decode (ofString k.name) k :=
  decodes_keyword (by cases k <;> rfl)

theorem CommentKind.decodes (k : CommentKind) : Decodes CommentKind.decode (ofString k.name) k :=
  decodes_keyword (by cases k <;> rfl)

/-! ### Types -/

theorem decodeQualified_of_fits {source : Provenance} {inner : Nat} {type : Json → Option TypeExpr}
    {j : Json} {t : TypeExpr} {const : Bool} (hfits : (encodeQualified j const).Fits (inner + 1))
    (h : j.Fits inner → type j = some t) :
    decodeQualified type source (inner + 1) (encodeQualified j const) = some ⟨t, const⟩ := by
  have hfields := fits_ofFields.1 hfits
  have hrecord : record ["ty", "is_const"] source (inner + 1) (encodeQualified j const) =
      some ⟨source, inner, _⟩ := record_ofFields rfl (by decide)
  have htype : Fields.required ⟨source, inner, _⟩ "ty" (fun _ _ => type) = some t :=
    required_of_fits "ty" hfields rfl h
  rw [decodeQualified, bind_of_eq hrecord, bind_of_eq htype,
    bind_of_eq (defaulted_of_lookup "is_const" hfields rfl (decodes_bool const))]
  rfl

theorem TypeExpr.decode_encode (t : TypeExpr) (source : Provenance) (budget : Nat)
    (hfits : t.encode.Fits budget) : TypeExpr.decode source budget t.encode = some t := by
  induction t generalizing budget with
  | builtin p =>
    obtain ⟨inner, rfl, -⟩ := hfits.exists_succ
    have hp := Primitive.decodes p source inner (fits_ofString _)
    simp [TypeExpr.decode, encode, hp]
  | tag target =>
    obtain ⟨inner, rfl, hfields⟩ := hfits.exists_succ
    have htarget := decodes_word target source inner (hfields ("tag", _) List.mem_cons_self)
    simp [TypeExpr.decode, encode, htarget]
  | named spelling =>
    obtain ⟨inner, rfl, -⟩ := hfits.exists_succ
    have hspelling := decodes_string spelling source inner (fits_ofString _)
    simp [TypeExpr.decode, encode, hspelling]
  | pointer pointee const kind ih =>
    obtain ⟨budget, rfl, hvariant⟩ := hfits.exists_succ
    obtain ⟨budget, rfl, hfields⟩ := (hvariant ("pointer", _) List.mem_cons_self).exists_succ
    have hpointee := hfields ("pointee", _) List.mem_cons_self
    obtain ⟨inner, rfl, -⟩ := hpointee.exists_succ
    have hpayload : payload ["pointee", "kind"] source (inner + 2)
        (ofFields [("pointee", encodeQualified pointee.encode const), ("kind", ofString kind.name)]) =
          some ⟨source, inner + 1, _⟩ := payload_ofFields rfl (by decide)
    have hdecode : decodeQualified (TypeExpr.decode source inner) source (inner + 1)
        (encodeQualified pointee.encode const) = some ⟨pointee, const⟩ :=
      decodeQualified_of_fits hpointee (ih inner)
    simp [TypeExpr.decode, encode, hpayload, required_of_fits "pointee" hfields rfl fun _ => hdecode,
      required_of_lookup "kind" hfields rfl (PointerKind.decodes kind)]
  | typedef name underlying const ih =>
    obtain ⟨budget, rfl, hvariant⟩ := hfits.exists_succ
    obtain ⟨budget, rfl, hfields⟩ := (hvariant ("typedef", _) List.mem_cons_self).exists_succ
    have hunderlying := hfields ("underlying", _) (List.mem_cons_of_mem _ List.mem_cons_self)
    obtain ⟨inner, rfl, -⟩ := hunderlying.exists_succ
    have hpayload : payload ["name", "underlying"] source (inner + 2)
        (ofFields [("name", ofString name), ("underlying", encodeQualified underlying.encode const)]) =
          some ⟨source, inner + 1, _⟩ := payload_ofFields rfl (by decide)
    have hdecode : decodeQualified (TypeExpr.decode source inner) source (inner + 1)
        (encodeQualified underlying.encode const) = some ⟨underlying, const⟩ :=
      decodeQualified_of_fits hunderlying (ih inner)
    simp [TypeExpr.decode, encode, hpayload, required_of_lookup "name" hfields rfl (decodes_string name),
      required_of_fits "underlying" hfields rfl fun _ => hdecode]

theorem QualifiedType.decodes (q : QualifiedType) : Decodes QualifiedType.decode q.encode q := by
  intro source budget hfits
  obtain ⟨inner, rfl, -⟩ := hfits.exists_succ
  exact decodeQualified_of_fits hfits (q.type.decode_encode source inner)

/-! ### Sets of names -/

theorem insertName_last {name : String} {names : List String} (h : ∀ other ∈ names, other < name) :
    insertName name names = names ++ [name] := by
  induction names with
  | nil => rfl
  | cons other names ih =>
    obtain ⟨hother, hnames⟩ := List.forall_mem_cons.1 h
    have hlt : ¬ name < other := fun hlt => String.lt_irrefl _ (String.lt_trans hlt hother)
    have hne : name ≠ other := fun heq => String.lt_irrefl name (heq ▸ hother)
    simp [insertName, hlt, hne, ih hnames]

theorem NameSet.names_foldl_insert {names : List String} {s : NameSet}
    (h : (s.names ++ names).Pairwise (· < ·)) :
    (names.foldl NameSet.insert s).names = s.names ++ names := by
  induction names generalizing s with
  | nil => simp
  | cons name names ih =>
    have hlast : (s.insert name).names = s.names ++ [name] :=
      insertName_last fun other hother =>
        (List.pairwise_append.1 h).2.2 other hother name List.mem_cons_self
    rw [List.foldl_cons, ih (by rwa [hlast, List.append_assoc]), hlast, List.append_assoc,
      List.singleton_append]

theorem NameSet.ofList_names (s : NameSet) : NameSet.ofList s.names = s := by
  have h : (NameSet.ofList s.names).names = s.names :=
    names_foldl_insert (by simpa [empty] using s.ascending)
  cases s
  cases hs : NameSet.ofList _
  simp_all

/-! ### Members -/

theorem MethodId.decodes (id : MethodId) : Decodes MethodId.decode id.encode id := by
  intro source budget hfits
  obtain ⟨inner, rfl, hfields⟩ := hfits.exists_succ
  have hrecord : record ["class", "index"] source (inner + 1) id.encode =
      some ⟨source, inner, _⟩ := record_ofFields rfl (by decide)
  rw [MethodId.decode, bind_of_eq hrecord,
    bind_of_eq (required_of_lookup "class" hfields rfl (decodes_word id.owner)),
    bind_of_eq (required_of_lookup "index" hfields rfl (decodes_word id.index))]
  rfl

theorem payload_text (source : Provenance) {budget : Nat} {text : String}
    (hfits : (ofFields [("text", ofString text)]).Fits budget) :
    ∃ f, payload ["text"] source budget (ofFields [("text", ofString text)]) = some f ∧
      f.required "text" Decoder.string = some text := by
  obtain ⟨inner, rfl, hfields⟩ := hfits.exists_succ
  exact ⟨_, payload_ofFields rfl (by decide),
    required_of_lookup "text" hfields rfl (decodes_string text)⟩

theorem payload_nameText (source : Provenance) {budget : Nat} {name text : String}
    (hfits : (ofFields [("name", ofString name), ("text", ofString text)]).Fits budget) :
    ∃ f, payload ["name", "text"] source budget
        (ofFields [("name", ofString name), ("text", ofString text)]) = some f ∧
      f.required "name" Decoder.string = some name ∧
        f.required "text" Decoder.string = some text := by
  obtain ⟨inner, rfl, hfields⟩ := hfits.exists_succ
  exact ⟨_, payload_ofFields rfl (by decide),
    required_of_lookup "name" hfields rfl (decodes_string name),
    required_of_lookup "text" hfields rfl (decodes_string text)⟩

theorem CommentBlock.decodes (b : CommentBlock) : Decodes CommentBlock.decode b.encode b := by
  intro source budget hfits
  cases b with
  | paragraph text =>
    obtain ⟨inner, rfl, hvariant⟩ := hfits.exists_succ
    obtain ⟨f, hf, htext⟩ := payload_text source (hvariant _ List.mem_cons_self)
    simp [CommentBlock.decode, encode, hf, htext]
  | param name text =>
    obtain ⟨inner, rfl, hvariant⟩ := hfits.exists_succ
    obtain ⟨f, hf, hname, htext⟩ := payload_nameText source (hvariant _ List.mem_cons_self)
    simp [CommentBlock.decode, encode, hf, hname, htext]
  | returns text =>
    obtain ⟨inner, rfl, hvariant⟩ := hfits.exists_succ
    obtain ⟨f, hf, htext⟩ := payload_text source (hvariant _ List.mem_cons_self)
    simp [CommentBlock.decode, encode, hf, htext]
  | command name text =>
    obtain ⟨inner, rfl, hvariant⟩ := hfits.exists_succ
    obtain ⟨f, hf, hname, htext⟩ := payload_nameText source (hvariant _ List.mem_cons_self)
    simp [CommentBlock.decode, encode, hf, hname, htext]

theorem decodeBlocks_decodes (blocks : List CommentBlock) :
    Decodes decodeBlocks (ofFields [("blocks", ofList CommentBlock.encode blocks)]) blocks := by
  intro source budget hfits
  obtain ⟨inner, rfl, hfields⟩ := hfits.exists_succ
  have hrecord : record ["blocks"] source (inner + 1)
      (ofFields [("blocks", ofList CommentBlock.encode blocks)]) = some ⟨source, inner, _⟩ :=
    record_ofFields rfl (by decide)
  rw [decodeBlocks, bind_of_eq hrecord]
  exact required_of_lookup "blocks" hfields rfl (decodes_list fun b _ => b.decodes)

theorem Comment.decodes (c : Comment) : Decodes Comment.decode c.encode c := by
  intro source budget hfits
  obtain ⟨inner, rfl, hfields⟩ := hfits.exists_succ
  have hrecord : record ["kind", "brief", "text", "full"] source (inner + 1) c.encode =
      some ⟨source, inner, _⟩ := record_ofFields rfl (by decide)
  have hblocks := decodes_option (o := c.blocks) (fun blocks _ => decodeBlocks_decodes blocks)
    fun _ _ => by simp [ofFields]
  rw [Comment.decode, bind_of_eq hrecord,
    bind_of_eq (defaulted_of_lookup "kind" hfields rfl c.kind.decodes),
    bind_of_eq (defaulted_of_lookup "brief" hfields rfl (decodes_string c.brief)),
    bind_of_eq (defaulted_of_lookup "text" hfields rfl (decodes_string c.text)),
    bind_of_eq (optional_of_lookup "full" hfields rfl hblocks)]
  rfl

theorem Parameter.decodes (p : Parameter) : Decodes Parameter.decode p.encode p := by
  intro source budget hfits
  obtain ⟨inner, rfl, hfields⟩ := hfits.exists_succ
  have hrecord : record ["name", "kind", "qualified_type"] source (inner + 1) p.encode =
      some ⟨source, inner, _⟩ := record_ofFields rfl (by decide)
  rw [Parameter.decode, bind_of_eq hrecord,
    bind_of_eq (defaulted_of_lookup "name" hfields rfl (decodes_string p.name)),
    bind_of_eq (defaulted_of_lookup "kind" hfields rfl p.kind.decodes),
    bind_of_eq (required_of_lookup "qualified_type" hfields rfl p.type.decodes)]
  rfl

theorem decodes_methodId? (o : Option MethodId) :
    Decodes (Decoder.option MethodId.decode) (ofOption MethodId.encode o) o :=
  decodes_option (fun id _ => id.decodes) fun _ _ => by simp [MethodId.encode, ofFields]

theorem decodes_comment? (o : Option Comment) :
    Decodes (Decoder.option Comment.decode) (ofOption Comment.encode o) o :=
  decodes_option (fun c _ => c.decodes) fun _ _ => by simp [Comment.encode, ofFields]

theorem Method.decodes (f : Method) : Decodes Method.decode f.encode f := by
  intro source budget hfits
  obtain ⟨inner, rfl, hfields⟩ := hfits.exists_succ
  have hrecord : record Method.fieldNames source (inner + 1) f.encode =
      some ⟨source, inner, _⟩ := record_ofFields rfl (by decide)
  rw [Method.decode, bind_of_eq hrecord,
    bind_of_eq (required_of_lookup "name" hfields rfl (decodes_string f.name)),
    bind_of_eq (required_of_lookup "original_name" hfields rfl (decodes_string f.originalName)),
    bind_of_eq (required_of_lookup "namespace" hfields rfl (decodes_word f.owner)),
    bind_of_eq (defaulted_of_lookup "kind" hfields rfl f.kind.decodes),
    bind_of_eq (defaulted_of_lookup "is_static" hfields rfl (decodes_bool f.isStatic)),
    bind_of_eq (defaulted_of_lookup "is_override" hfields rfl (decodes_bool f.isOverride)),
    bind_of_eq (optional_of_lookup "overridden" hfields rfl (decodes_methodId? f.overridden)),
    bind_of_eq (optional_of_lookup "explicit_interface_impl" hfields rfl
      (decodes_methodId? f.implemented)),
    bind_of_eq (defaulted_of_lookup "generation_kind" hfields rfl f.generation.decodes),
    bind_of_eq (defaulted_of_lookup "synth_kind" hfields rfl f.origin.decodes),
    bind_of_eq (defaulted_of_lookup "parameters" hfields rfl (decodes_list fun p _ => p.decodes)),
    bind_of_eq (required_of_lookup "return_type" hfields rfl f.returnType.decodes),
    bind_of_eq (optional_of_lookup "comment" hfields rfl (decodes_comment? f.comment)),
    bind_of_eq (defaulted_of_lookup "access" hfields rfl f.access.decodes),
    bind_of_eq (defaulted_of_lookup "excluded_passes" hfields rfl
      (decodes_list fun name _ => decodes_string name)),
    NameSet.ofList_names]
  rfl

theorem Property.decodes (p : Property) : Decodes Property.decode p.encode p := by
  intro source budget hfits
  obtain ⟨inner, rfl, hfields⟩ := hfits.exists_succ
  have hrecord : record Property.fieldNames source (inner + 1) p.encode =
      some ⟨source, inner, _⟩ := record_ofFields rfl (by decide)
  have hfield := decodes_option (o := p.field) (fun name _ => decodes_string name)
    fun _ _ => by simp [ofString]
  rw [Property.decode, bind_of_eq hrecord,
    bind_of_eq (required_of_lookup "name" hfields rfl (decodes_string p.name)),
    bind_of_eq (required_of_lookup "original_name" hfields rfl (decodes_string p.originalName)),
    bind_of_eq (required_of_lookup "qualified_type" hfields rfl p.type.decodes),
    bind_of_eq (optional_of_lookup "getter" hfields rfl (decodes_methodId? p.getter)),
    bind_of_eq (optional_of_lookup "setter" hfields rfl (decodes_methodId? p.setter)),
    bind_of_eq (optional_of_lookup "field" hfields rfl hfield),
    bind_of_eq (required_of_lookup "namespace" hfields rfl (decodes_word p.owner)),
    bind_of_eq (defaulted_of_lookup "access" hfields rfl p.access.decodes),
    bind_of_eq (optional_of_lookup "comment" hfields rfl (decodes_comment? p.comment)),
    bind_of_eq (optional_of_lookup "explicit_interface_impl" hfields rfl
      (decodes_methodId? p.implemented))]
  rfl

theorem Event.decodes (e : Event) : Decodes Event.decode e.encode e := by
  intro source budget hfits
  obtain ⟨inner, rfl, hfields⟩ := hfits.exists_succ
  have hrecord : record ["name", "namespace"] source (inner + 1) e.encode =
      some ⟨source, inner, _⟩ := record_ofFields rfl (by decide)
  rw [Event.decode, bind_of_eq hrecord,
    bind_of_eq (required_of_lookup "name" hfields rfl (decodes_string e.name)),
    bind_of_eq (required_of_lookup "namespace" hfields rfl (decodes_word e.owner))]
  rfl

theorem Base.decodes (b : Base) : Decodes Base.decode b.encode b := by
  intro source budget hfits
  obtain ⟨inner, rfl, hfields⟩ := hfits.exists_succ
  have hrecord : record ["class", "access"] source (inner + 1) b.encode =
      some ⟨source, inner, _⟩ := record_ofFields rfl (by decide)
  rw [Base.decode, bind_of_eq hrecord,
    bind_of_eq (required_of_lookup "class" hfields rfl (decodes_word b.target)),
    bind_of_eq (defaulted_of_lookup "access" hfields rfl b.access.decodes)]
  rfl

/-! ### Models -/

theorem Class.decodes (c : Class) : Decodes Class.decode c.encode c := by
  intro source budget hfits
  obtain ⟨inner, rfl, hfields⟩ := hfits.exists_succ
  have hrecord : record Class.fieldNames source (inner + 1) c.encode =
      some ⟨source, inner, _⟩ := record_ofFields rfl (by decide)
  have hdefinition := decodes_option (o := c.definition) (fun d _ => decodes_word d)
    fun _ _ => by simp [nat]
  rw [Class.decode, bind_of_eq hrecord,
    bind_of_eq (required_of_lookup "id" hfields rfl (decodes_word c.id)),
    bind_of_eq (required_of_lookup "name" hfields rfl (decodes_string c.name)),
    bind_of_eq (defaulted_of_lookup "access" hfields rfl c.access.decodes),
    bind_of_eq (defaulted_of_lookup "bases" hfields rfl (decodes_list fun b _ => b.decodes)),
    bind_of_eq (defaulted_of_lookup "methods" hfields rfl (decodes_list fun f _ => f.decodes)),
    bind_of_eq (defaulted_of_lookup "properties" hfields rfl (decodes_list fun p _ => p.decodes)),
    bind_of_eq (defaulted_of_lookup "events" hfields rfl (decodes_list fun e _ => e.decodes)),
    bind_of_eq (optional_of_lookup "definition" hfields rfl hdefinition)]
  rfl

theorem Model.decodes (m : Model) : Decodes Model.decode m.encode m := by
  intro source budget hfits
  obtain ⟨inner, rfl, hfields⟩ := hfits.exists_succ
  have hrecord : record ["name", "classes"] source (inner + 1) m.encode =
      some ⟨source, inner, _⟩ := record_ofFields rfl (by decide)
  rw [Model.decode, bind_of_eq hrecord,
    bind_of_eq (defaulted_of_lookup "name" hfields rfl (decodes_string m.name)),
    bind_of_eq (defaulted_of_lookup "classes" hfields rfl (decodes_list fun c _ => c.decodes))]
  rfl

end ApiProperties

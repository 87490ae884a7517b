import ApiProperties.Proofs.Compactness
import ApiProperties.Proofs.PropertyNames
import ApiProperties.Proofs.Run

/-!
A consistent model out of a text stays one that can be written and read again when it goes through a
run. A run makes no type: that of each property is the type of an earlier property or of a method of
the class, and the methods that properties refer to are listed as before.
-/

set_option autoImplicit false

namespace ApiProperties

open Json

/-! ### What fits -/

theorem Json.Fits.mono {b b' : Nat} {j : Json} (h : j.Fits b) (hb : b ≤ b') : j.Fits b' :=
  ⟨Nat.le_trans h.depth hb, h.plain⟩

theorem MethodId.fits {b : Nat} {id : MethodId} (howner : id.owner < wordLimit)
    (hindex : id.index < wordLimit) : id.encode.Fits (b + 1) :=
  fits_ofFields.2 (by simp [howner, hindex])

theorem CommentBlock.fits (block : CommentBlock) (b : Nat) : block.encode.Fits (b + 2) := by
  cases block <;> simp [encode, fits_ofFields]

theorem Comment.fits (c : Comment) (b : Nat) : c.encode.Fits (b + 5) := by
  have hblocks : ∀ blocks ∈ c.blocks,
      (ofFields [("blocks", ofList CommentBlock.encode blocks)]).Fits (b + 4) := by
    intro blocks _
    have hlist : (ofList CommentBlock.encode blocks).Fits (b + 3) :=
      fits_ofList.2 fun block _ => block.fits b
    exact fits_ofFields.2 (by simpa using hlist)
  exact fits_ofFields.2 (by simpa [fits_ofOption] using hblocks)

namespace Model
variable {m : Model} {b budget : Nat}

namespace Compact
variable (h : m.Compact budget)
include h

theorem lt_of_hasClass {c : ClassId} (hc : m.hasClass c = true) : c < wordLimit :=
  Nat.lt_of_lt_of_le (of_decide_eq_true hc) h.classCount

theorem id_fits {id : MethodId} (hid : m.hasMethod id = true) : id.encode.Fits (b + 1) := by
  obtain ⟨f, hf⟩ := hasMethod_iff.1 hid
  obtain ⟨k, hk, hf⟩ := Option.bind_eq_some_iff.1 hf
  have hindex : id.index < k.methods.length := (List.getElem?_eq_some_iff.1 hf).1
  have hcount := (h.classes k (List.mem_of_getElem? hk)).methodCount
  exact MethodId.fits (h.lt_of_hasClass (hasClass_iff.2 ⟨k, hk⟩)) (Nat.lt_of_lt_of_le hindex hcount)

theorem id?_fits {o : Option MethodId} (ho : ∀ id ∈ o, m.hasMethod id = true) :
    (ofOption MethodId.encode o).Fits (b + 1) :=
  fits_ofOption.2 fun id hid => h.id_fits (ho id hid)

theorem method_fits {c : ClassId} {f : Method} (hc : m.hasClass c = true) (hf : f.Consistent m c)
    (hcompact : f.Compact (b + 6)) : f.encode.Fits (b + 6) := by
  have howner : f.owner < wordLimit := h.lt_of_hasClass (hf.owner ▸ hc)
  have hoverridden : (ofOption MethodId.encode f.overridden).Fits (b + 5) :=
    h.id?_fits fun id hid => hf.links id (List.mem_append_left _ (Option.mem_toList.2 hid))
  have himplemented : (ofOption MethodId.encode f.implemented).Fits (b + 5) :=
    h.id?_fits fun id hid => hf.links id (List.mem_append_right _ (Option.mem_toList.2 hid))
  have hparameters : (ofList Parameter.encode f.parameters).Fits (b + 5) :=
    fits_ofList.2 fun p hp => fits_ofFields.2 (by simpa using hcompact.parameters p hp)
  have hreturn : f.returnType.encode.Fits (b + 5) := hcompact.returnType
  have hcomment : (ofOption Comment.encode f.comment).Fits (b + 5) :=
    fits_ofOption.2 fun c _ => c.fits b
  have hexcluded : (ofList ofString f.excludedPasses.names).Fits (b + 5) :=
    fits_ofList.2 fun name _ => fits_ofString name
  exact fits_ofFields.2 (by
    simp [howner, hoverridden, himplemented, hparameters, hreturn, hcomment, hexcluded])

theorem property_fits {c : ClassId} {p : Property} (hc : m.hasClass c = true)
    (hp : p.Consistent m c) (htype : p.type.encode.Fits (b + 5)) : p.encode.Fits (b + 6) := by
  have howner : p.owner < wordLimit := h.lt_of_hasClass (hp.owner ▸ hc)
  have hgetter : (ofOption MethodId.encode p.getter).Fits (b + 5) :=
    h.id?_fits fun id hid =>
      hp.links id (List.mem_append_left _ (Property.mem_accessors.2 (.inl hid)))
  have hsetter : (ofOption MethodId.encode p.setter).Fits (b + 5) :=
    h.id?_fits fun id hid =>
      hp.links id (List.mem_append_left _ (Property.mem_accessors.2 (.inr hid)))
  have himplemented : (ofOption MethodId.encode p.implemented).Fits (b + 5) :=
    h.id?_fits fun id hid => hp.links id (List.mem_append_right _ (Option.mem_toList.2 hid))
  have hfield : (ofOption ofString p.field).Fits (b + 5) :=
    fits_ofOption.2 fun name _ => fits_ofString name
  have hcomment : (ofOption Comment.encode p.comment).Fits (b + 5) :=
    fits_ofOption.2 fun c _ => c.fits b
  exact fits_ofFields.2 (by
    simp [howner, hgetter, hsetter, himplemented, htype, hfield, hcomment])

theorem class_fits {c : ClassId} {k : Class} (hc : m.hasClass c = true) (hk : k.Consistent m c)
    (hcompact : k.Compact (b + 8)) : k.encode.Fits (b + 8) := by
  have hid : k.id < wordLimit := h.lt_of_hasClass (hk.id ▸ hc)
  have hbases : (ofList Base.encode k.bases).Fits (b + 7) :=
    fits_ofList.2 fun base hbase => fits_ofFields.2 (by
      simpa using h.lt_of_hasClass (hk.bases base hbase))
  have hmethods : (ofList Method.encode k.methods).Fits (b + 7) :=
    fits_ofList.2 fun f hf => h.method_fits hc (hk.methods f hf) (hcompact.methods f hf)
  have hproperties : (ofList Property.encode k.properties).Fits (b + 7) :=
    fits_ofList.2 fun p hp => h.property_fits hc (hk.properties p hp) (hcompact.properties p hp)
  have hevents : (ofList Event.encode k.events).Fits (b + 7) :=
    fits_ofList.2 fun e he => fits_ofFields.2 (by simpa using hcompact.events e he)
  have hdefinition : (ofOption nat k.definition).Fits (b + 7) :=
    fits_ofOption.2 fun d hd => fits_nat.2 (h.lt_of_hasClass (hk.definition d hd))
  exact fits_ofFields.2 (by simp [hid, hbases, hmethods, hproperties, hevents, hdefinition])

end Compact

theorem Compact.fits (h : m.Compact (b + 10)) (hm : m.Valid) : m.encode.Fits (b + 10) := by
  have hclasses : (ofList Class.encode m.classes).Fits (b + 9) := by
    refine fits_ofList.2 fun k hk => ?_
    obtain ⟨c, hc⟩ := List.mem_iff_getElem?.1 hk
    exact h.class_fits (hasClass_iff.2 ⟨k, hc⟩) (hm.consistent hc) (h.classes k hk)
  exact fits_ofFields.2 (by simpa using hclasses)

/-! ### What a run keeps -/

section Types
variable {k : Class} {ids : List MethodId} {s : Pending} {own : List Property}
  {P : QualifiedType → Prop}

theorem Offers.type_attach {c : ClassId} {id : MethodId} {f : Method} {a : Accessor}
    (ho : m.Offers c id f a) (ha : P a.type) {p : Property} (hp : P p.type) :
    P (p.attach id f a).type := by
  have htype := ho.type_of_getter
  obtain ⟨role, name, type⟩ := a
  cases role with
  | getter =>
    have hreturn : type = f.returnType := htype rfl
    exact (hreturn ▸ ha : P f.returnType)
  | setter => exact hp

/-- The types of properties are those of earlier properties and of what methods offer. -/
theorem Assembly.types (h : m.Assembly k ids s own) (hk : ∀ p ∈ k.properties, P p.type)
    (ho : ∀ id f a, m.Offers k.id id f a → P a.type) :
    (∀ p ∈ own, P p.type) ∧ ∀ p ∈ s.properties, P p.type := by
  induction h with
  | start => exact ⟨hk, by simp [Pending.empty]⟩
  | complete _ hoffer _ hp _ _ ih =>
    refine ⟨fun q hq => ?_, ih.2⟩
    rcases mem_modify hp hq with rfl | hq
    · exact hoffer.type_attach (ho _ _ _ hoffer) (ih.1 _ (List.mem_of_getElem? hp))
    · exact ih.1 q hq
  | join _ hoffer _ _ hp _ _ ih =>
    refine ⟨ih.1, fun q hq => ?_⟩
    rcases mem_modify hp hq with rfl | hq
    · exact hoffer.type_attach (ho _ _ _ hoffer) (ih.2 _ (List.mem_of_getElem? hp))
    · exact ih.2 q hq
  | create _ hoffer _ _ _ ih =>
    refine ⟨ih.1, fun q hq => ?_⟩
    rcases List.mem_append.1 hq with hq | hq
    · exact ih.2 q hq
    · rw [List.mem_singleton.1 hq]
      exact hoffer.type_attach (ho _ _ _ hoffer) (ho _ _ _ hoffer)

theorem Offers.type_fits {c : ClassId} {id : MethodId} {f : Method} {a : Accessor}
    (ho : m.Offers c id f a) (hf : f.Compact budget) : a.type.encode.Fits (budget - 1) := by
  cases hr : a.role with
  | getter => exact ho.type_of_getter hr ▸ hf.returnType
  | setter =>
    obtain ⟨x, hx, htype⟩ := ho.type_of_setter hr
    have hmem : x ∈ f.regularParameters := hx ▸ List.mem_singleton.2 rfl
    exact htype ▸ (hf.parameters x (List.mem_of_mem_filter hmem)).mono (by omega)

end Types

theorem owners_settleAll {c : ClassId} {d : Desk} {vs : List (Property × Option Property)}
    {P : ClassId → Prop} (h : ∀ e ∈ d.cls.events, P e.owner) :
    ∀ e ∈ (d.settleAll c vs).cls.events, P e.owner := by
  refine Desk.settleAll_induction (fun d => ∀ e ∈ d.cls.events, P e.owner) ?_ h
  rintro ⟨p, v⟩ - d hd
  cases v with
  | none => exact hd
  | some q =>
    intro e' he'
    obtain ⟨e, he, rfl⟩ := List.mem_map.1 he'
    have howner : (e.makeRoom q.name).owner = e.owner := by
      unfold Event.makeRoom
      split <;> rfl
    exact howner ▸ hd e he

theorem Method.Compact.of_outline {f f' : Method} (ho : f.outline = f'.outline)
    (h : f.Compact budget) : f'.Compact budget := by
  have hreturn : f.returnType = f'.returnType := congrArg (·.returnType) ho
  have hparameters : f.parameters = f'.parameters := congrArg (·.parameters) ho
  exact ⟨hreturn ▸ h.returnType, hparameters ▸ h.parameters⟩

theorem Treated.compact {y : Synthesis} {c : ClassId} {k k' : Class} (h : m.Treated y c k k')
    (hk : k.Compact budget) : k'.Compact budget := by
  obtain ⟨m', ids, s, own, vs, hm', -, -, hlisted, hp, hk'⟩ := h
  have hkc : k.id = c := (hm'.consistent hlisted).id
  have hout : k'.outline = k.outline := hk' ▸ hp.outline_settleAll hm' hlisted
  have hmethods : k'.methods.map (·.outline) = k.methods.map (·.outline) :=
    congrArg (·.methods) hout
  obtain ⟨hown, hpending⟩ := hp.assembly.types (P := fun q => q.encode.Fits (budget - 3))
    hk.properties fun id f a ho => by
      have hf := ho.method
      rw [method?, ho.owner, hkc, hlisted, Option.bind_some] at hf
      exact ho.type_fits (hk.methods f (List.mem_of_getElem? hf))
  refine ⟨?_, fun f' hf' => ?_, fun p hp' => ?_, ?_⟩
  · have hlength : k'.methods.length = k.methods.length := by
      simpa using congrArg List.length hmethods
    exact hlength ▸ hk.methodCount
  · have hmem : f'.outline ∈ k.methods.map (·.outline) := hmethods ▸ List.mem_map_of_mem hf'
    obtain ⟨f, hf, ho⟩ := List.mem_map.1 hmem
    exact Method.Compact.of_outline ho (hk.methods f hf)
  · rw [hk', Desk.properties_settleAll, properties_desk, List.mem_append, List.mem_filterMap] at hp'
    rcases hp' with hp' | ⟨v, hv, hq⟩
    · obtain ⟨q, hq, rfl | rfl⟩ := mem_documentedOwn hp'
      · exact hown p hq
      · exact hown q hq
    · have htype : p.type = v.1.type := congrArg (·.type) (hp.kept v hv p hq).rest
      exact htype ▸ hpending v.1 (hp.mem_pending hv)
  · rw [hk']
    exact owners_settleAll (P := (· < wordLimit)) hk.events

/-- A run keeps a model compact, and consistent, and leaves it its name. -/
theorem Compact.run? (h : m.Compact budget) (hm : m.Valid) {y : Synthesis} {s : Progress}
    (hs : y.run? m = some s) :
    s.model.Compact budget ∧ s.model.Valid ∧ s.model.name = m.name := by
  obtain ⟨t, ht, hvalid, hout, hclasses⟩ := hm.run?_classes y
  obtain rfl := Option.some.inj (hs.symm.trans ht)
  refine ⟨⟨length_congr hout ▸ h.classCount, fun k' hk' => ?_⟩, hvalid, congrArg (·.name) hout⟩
  obtain ⟨c, hc⟩ := List.mem_iff_getElem?.1 hk'
  rcases hclasses c k' hc with ⟨-, hsame⟩ | ⟨k, hk, htreated⟩
  · exact h.classes k' (List.mem_of_getElem? hsame)
  · exact htreated.compact (h.classes k (List.mem_of_getElem? hk))

end Model
end ApiProperties

import ApiProperties.Proofs.Ancestors

/-!
What becomes of one pending property. `Model.reshaped?` is the property after it has been brought in
line with its base and `Model.verdict?` is the property as it will be committed, or `none` if it is
dropped. Both look at the outline of the class alone, so the verdict on a pending property is
settled before the first of them is treated.
-/

set_option autoImplicit false

namespace ApiProperties

namespace Property

/-- The property without its setter, or without its getter if that is all it has. -/
def yielded (p : Property) : Property :=
  if p.setter.isSome then { p with setter := none } else { p with getter := none }

/-- The accessors that the property had and `q` lacks. -/
def lost (p q : Property) : List MethodId :=
  (if q.getter.isNone then p.getter.toList else []) ++
    if q.setter.isNone then p.setter.toList else []

@[simp] theorem lost_self (p : Property) : p.lost p = [] := by
  cases hg : p.getter <;> cases hs : p.setter <;> simp [lost, hg, hs]

end Property

namespace Model

/-- The property with the accessors that its base asks for. -/
def reshaped? (m : Model) (c : ClassId) (p : Property) : Option Property := do
  if ← m.isOverriding? p then
    match ← m.findBaseProperty? c p with
    | none => pure p.yielded
    | some b =>
      if p.getter.isNone && b.setter.isSome then pure { p with getter := b.getter }
      else if p.setter.isNone || b.setter.isNone then pure { p with setter := b.setter }
      else pure p
  else pure p

/-- Whether the property has a getter that stands for itself alone. -/
def stays? (m : Model) (c : ClassId) (p : Property) : Option Bool :=
  match p.getter with
  | none => some false
  | some g => if p.setter.isSome then some true else (m.hasOverloads? c g).map (!·)

/-- The property as it will be committed, or `none` if it is dropped. -/
def verdict? (m : Model) (c : ClassId) (p : Property) : Option (Option Property) := do
  let q ← m.reshaped? c p
  if ← m.stays? c q then
    let comment ← m.mergedComment? q
    pure (some { q with comment, owner := c })
  else pure none

/-! ### The verdict needs only the outline -/

theorem baseCount_outline (m : Model) : m.outline.baseCount = m.baseCount := by
  simp [baseCount, outline, Class.outline, List.flatMap_map]

section Congruence
variable {m m' : Model} (h : m.outline = m'.outline)
include h

theorem isOverriding?_congr (p : Property) : m.isOverriding? p = m'.isOverriding? p := by
  have hf : (fun id => (m.method? id).map (·.isOverride)) =
      fun id => (m'.method? id).map (·.isOverride) :=
    funext (map_method?_congr h _ fun _ => rfl)
  rw [isOverriding?, isOverriding?, hf]

theorem baseQuery?_congr (p : Property) : m.baseQuery? p = m'.baseQuery? p := by
  have hq : ∀ n : Model, n.baseQuery? p =
      (p.accessors.mapM fun id => (n.method? id).map (·.overridden)).map
        fun targets => ⟨targets.filterMap id, p.field⟩ := by
    intro n
    have hmap : ∀ ids : List MethodId, (ids.mapM fun id => (n.method? id).map (·.overridden)) =
        (ids.mapM n.method?).map fun fs => fs.map (·.overridden) := by
      intro ids
      induction ids with
      | nil => rfl
      | cons id rest ih =>
        simp only [List.mapM_cons, ih]
        cases n.method? id <;> cases rest.mapM n.method? <;> rfl
    rw [hmap, baseQuery?]
    cases p.accessors.mapM n.method? <;> simp [List.filterMap_map]
  rw [hq m, hq m']
  congr 3
  exact funext (map_method?_congr h _ fun _ => rfl)

theorem hasOverloads?_congr (c : ClassId) (g : MethodId) :
    m.hasOverloads? c g = m'.hasOverloads? c g := by
  have hq : ∀ n : Model, n.hasOverloads? c g =
      ((n.method? g).map (·.originalName)).bind fun name =>
        ((n.class? c).map (·.methodIds)).bind fun ids => ids.anyM fun id =>
          if id = g then some false
          else (n.method? id).map fun f => !f.isIgnored && f.originalName == name := by
    intro n
    cases hg : n.method? g <;> cases hk : n.class? c <;> simp [hasOverloads?, hg, hk]
  have hf : ∀ name : String,
      (fun id => (m.method? id).map fun f => !f.isIgnored && f.originalName == name) =
        fun id => (m'.method? id).map fun f => !f.isIgnored && f.originalName == name :=
    fun name => funext (map_method?_congr h _ fun f => by rw [Method.isIgnored_outline]; rfl)
  rw [hq m, hq m', map_method?_congr h (·.originalName) fun _ => rfl,
    map_class?_congr h (·.methodIds) fun k => by simp [Class.methodIds, Class.outline]]
  simp only [congrFun (hf _)]

theorem setterComment?_congr (p : Property) : m.setterComment? p = m'.setterComment? p := by
  simp only [setterComment?, map_method?_congr h (·.comment) fun _ => rfl]

theorem mergedComment?_congr (p : Property) : m.mergedComment? p = m'.mergedComment? p := by
  cases hg : p.getter with
  | none => simp [mergedComment?, hg]
  | some g =>
    have hcomment := map_method?_congr h (·.comment) (fun _ => rfl) g
    cases hf' : m'.method? g with
    | none => simp_all [mergedComment?]
    | some f' =>
      obtain ⟨f, hf, ho⟩ := method?_of_outline h hf'
      have hc : f.comment = f'.comment := congrArg (·.comment) ho
      simp only [mergedComment?, hg, hf, hf', Option.bind_eq_bind, Option.bind_some, hc,
        setterComment?_congr h]

theorem baseCount_congr : m.baseCount = m'.baseCount := by
  rw [← baseCount_outline m, h, baseCount_outline]

end Congruence

/-- A complete class does not find its own properties when it looks for inherited ones. -/
theorem findBaseProperty?_putClass {m : Model} {c : ClassId} {k₀ k : Class}
    (hc : m.IsDefinition c) (hk₀ : m.class? c = some k₀) (ho : k.outline = k₀.outline)
    (p : Property) : (m.putClass c k).findBaseProperty? c p = m.findBaseProperty? c p := by
  have hout := outline_putClass hk₀ ho
  have hbases : k.bases = k₀.bases := congrArg (·.bases) ho
  have hcount : (m.putClass c k).baseCount = m.baseCount := baseCount_congr hout
  have hdef : m.definition? c = some c := hc
  simp only [findBaseProperty?, baseQuery?_congr hout, definition?_congr hout, hdef, hcount,
    class?_putClass_self k hk₀, hk₀, hbases, Option.bind_eq_bind, Option.bind_some,
    searchBases?_putClass hk₀ ho _ _ List.mem_cons_self]

/-! ### What becomes of the accessors -/

/-- The class inherits these accessors from a property of a proper ancestor. -/
def Lends (m : Model) (c : ClassId) (b : BaseAccessors) : Prop :=
  m.Ancestor c b.owner ∧ ∃ q k p, m.Hit q b k p

theorem Valid.findBaseProperty?_total {m : Model} (hm : m.Valid) {c : ClassId} {k : Class}
    (hk : m.class? c = some k) (hc : m.IsDefinition c) {p : Property}
    (hp : ∀ id ∈ p.accessors, m.hasMethod id = true) :
    ∃ r, m.findBaseProperty? c p = some r ∧ ∀ b, r = some b → m.Lends c b := by
  have hq := baseQuery?_eq_some hp
  obtain ⟨r, hr, hfound⟩ := hm.searchBases?_total (m.sought p) (2 * m.baseCount + 1) [c]
    (hm.bases_lt hk) (length_add_unseenBases_lt hk)
  have hdef : m.definition? c = some c := hc
  refine ⟨r, by simp [findBaseProperty?, hq, hdef, hk, hr], fun b hb => ?_⟩
  obtain ⟨-, ⟨k', p', hhit⟩, t, ht, d, hd, hpath⟩ := hfound b hb
  obtain ⟨base, hbase, rfl⟩ := List.mem_map.1 ht
  exact ⟨.head' ⟨hc, k, hk, base, hbase, hd⟩ hpath, _, k', p', hhit⟩

theorem isOverriding?_eq_some {m : Model} {p : Property}
    (hp : ∀ id ∈ p.accessors, m.hasMethod id = true) : m.isOverriding? p =
      some (p.accessors.any fun id => ((m.method? id).map (·.isOverride)).getD false) :=
  anyM_eq_some fun id hid => by
    obtain ⟨f, hf⟩ := hasMethod_iff.1 (hp id hid)
    simp [hf]

/-- How a property can come out of the comparison with its base. -/
inductive Reshaped (m : Model) (c : ClassId) (p : Property) : Property → Prop
  | plain : Reshaped m c p p
  | orphan : Reshaped m c p p.yielded
  | borrowsGetter {b : BaseAccessors} (hb : m.Lends c b) (hg : p.getter = none)
      (hs : p.setter.isSome = true) : Reshaped m c p { p with getter := b.getter }
  | borrowsSetter {b : BaseAccessors} {s : MethodId} (hb : m.Lends c b) (hs : b.setter = some s)
      (hg : p.getter.isSome = true) (hp : p.setter = none) :
      Reshaped m c p { p with setter := some s }
  | losesSetter : Reshaped m c p { p with setter := none }

theorem Valid.reshaped?_total {m : Model} (hm : m.Valid) {c : ClassId} {k : Class}
    (hk : m.class? c = some k) (hc : m.IsDefinition c) {p : Property}
    (hp : ∀ id ∈ p.accessors, m.hasMethod id = true) :
    ∃ q, m.reshaped? c p = some q ∧ m.Reshaped c p q := by
  have hover := isOverriding?_eq_some hp
  cases ho : p.accessors.any fun id => ((m.method? id).map (·.isOverride)).getD false with
  | false => exact ⟨p, by simp [reshaped?, hover, ho], .plain⟩
  | true =>
    obtain ⟨r, hr, hlends⟩ := hm.findBaseProperty?_total hk hc hp
    cases r with
    | none => exact ⟨p.yielded, by simp [reshaped?, hover, ho, hr], .orphan⟩
    | some b =>
      have hb := hlends b rfl
      have hsome : p.getter = none → p.setter.isSome = true := by
        intro hg
        obtain ⟨id, hid, -⟩ := List.any_eq_true.1 ho
        rcases Property.mem_accessors.1 hid with h | h
        · simp [hg] at h
        · simp [h]
      cases hg : p.getter with
      | none =>
        cases hs : b.setter with
        | none => exact ⟨_, by simp [reshaped?, hover, ho, hr, hg, hs], .losesSetter⟩
        | some s => exact ⟨_, by simp [reshaped?, hover, ho, hr, hg, hs],
            .borrowsGetter hb hg (hsome hg)⟩
      | some g =>
        cases hps : p.setter with
        | none =>
          cases hs : b.setter with
          | none => exact ⟨_, by simp [reshaped?, hover, ho, hr, hg, hs, hps], .losesSetter⟩
          | some s => exact ⟨_, by simp [reshaped?, hover, ho, hr, hg, hs, hps],
              .borrowsSetter hb hs (by simp [hg]) hps⟩
        | some s' =>
          cases hs : b.setter with
          | none => exact ⟨_, by simp [reshaped?, hover, ho, hr, hg, hs, hps], .losesSetter⟩
          | some s => exact ⟨p, by simp [reshaped?, hover, ho, hr, hg, hs, hps], .plain⟩

theorem Valid.hasOverloads?_eq_some {m : Model} (hm : m.Valid) {c : ClassId} {k : Class}
    (hk : m.class? c = some k) {g : MethodId} {f : Method} (hf : m.method? g = some f) :
    m.hasOverloads? c g = some (k.methodIds.any fun id => if id = g then false else
      ((m.method? id).map fun f' =>
        !f'.isIgnored && f'.originalName == f.originalName).getD false) := by
  simp only [hasOverloads?, hf, hk, Option.bind_eq_bind, Option.bind_some]
  refine anyM_eq_some fun id hid => ?_
  obtain ⟨i, hi, rfl⟩ := List.mem_map.1 hid
  rw [List.mem_range] at hi
  have hf' : m.method? ⟨k.id, i⟩ = some k.methods[i] := by
    simp [method?, (hm.consistent hk).id, hk, hi]
  by_cases h : (⟨k.id, i⟩ : MethodId) = g <;> simp [h, hf']

theorem Valid.stays?_total {m : Model} (hm : m.Valid) {c : ClassId} {k : Class}
    (hk : m.class? c = some k) {p : Property} (hp : ∀ id ∈ p.accessors, m.hasMethod id = true) :
    ∃ b, m.stays? c p = some b ∧ (b = true → p.getter.isSome = true) := by
  cases hg : p.getter with
  | none => exact ⟨false, by simp [stays?, hg], by simp⟩
  | some g =>
    cases hs : p.setter with
    | some s => exact ⟨true, by simp [stays?, hg, hs], by simp⟩
    | none =>
      obtain ⟨f, hf⟩ := hasMethod_iff.1 (hp g (Property.mem_accessors.2 (.inl hg)))
      exact ⟨_, by simp only [stays?, hg, hs, hm.hasOverloads?_eq_some hk hf]; rfl, by simp⟩

theorem mergedComment?_of_accessors {m m' : Model} {p : Property}
    (h : ∀ id ∈ p.accessors, m'.method? id = m.method? id) :
    m'.mergedComment? p = m.mergedComment? p := by
  have hsetter : m'.setterComment? p = m.setterComment? p := by
    cases hs : p.setter with
    | none => simp only [setterComment?, hs]
    | some s => simp only [setterComment?, hs, h s (Property.mem_accessors.2 (.inr hs))]
  cases hg : p.getter with
  | none => simp only [mergedComment?, hg]
  | some g => simp only [mergedComment?, hg, h g (Property.mem_accessors.2 (.inl hg)), hsetter]

theorem mergedComment?_total {m : Model} {p : Property}
    (hp : ∀ id ∈ p.accessors, m.hasMethod id = true) : ∃ o, m.mergedComment? p = some o := by
  have hsetter : ∃ o, m.setterComment? p = some o := by
    cases hs : p.setter with
    | none => exact ⟨none, by simp [setterComment?, hs]⟩
    | some s =>
      obtain ⟨f, hf⟩ := hasMethod_iff.1 (hp s (Property.mem_accessors.2 (.inr hs)))
      by_cases hgs : p.getter = some s <;> simp [setterComment?, hs, hgs, hf]
  obtain ⟨o, ho⟩ := hsetter
  cases hg : p.getter with
  | none => exact ⟨none, by simp [mergedComment?, hg]⟩
  | some g =>
    obtain ⟨f, hf⟩ := hasMethod_iff.1 (hp g (Property.mem_accessors.2 (.inl hg)))
    cases hc : f.comment with
    | none => exact ⟨none, by simp [mergedComment?, hg, hf, hc]⟩
    | some comment =>
      cases hb : comment.blocks with
      | none => exact ⟨some comment, by simp [mergedComment?, hg, hf, hc, hb]⟩
      | some blocks => cases o <;> simp [mergedComment?, hg, hf, hc, hb, ho]

/-- The method is an accessor of a property of a proper ancestor. -/
def Borrowable (m : Model) (c : ClassId) (id : MethodId) : Prop :=
  ∃ d k, m.Ancestor c d ∧ m.class? d = some k ∧ ∃ p ∈ k.properties, id ∈ p.accessors

theorem Lends.borrowable {m : Model} {c : ClassId} {b : BaseAccessors} (hb : m.Lends c b)
    {id : MethodId} (hid : b.getter = some id ∨ b.setter = some id) : m.Borrowable c id := by
  obtain ⟨ha, q, k, p, hhit⟩ := hb
  refine ⟨b.owner, k, ha, hhit.listed, p, hhit.member, ?_⟩
  rwa [Property.mem_accessors, ← hhit.getter, ← hhit.setter]

theorem Valid.hasMethod_of_borrowable {m : Model} (hm : m.Valid) {c : ClassId} {id : MethodId}
    (h : m.Borrowable c id) : m.hasMethod id = true := by
  obtain ⟨d, k, -, hk, p, hp, hid⟩ := h
  exact ((hm.consistent hk).properties p hp).links id (List.mem_append_left _ hid)

/-- What is kept of the pending property `p` as the property `q`. -/
structure Kept (m : Model) (c : ClassId) (p q : Property) : Prop where
  rest : q = { p with getter := q.getter, setter := q.setter, comment := q.comment, owner := c }
  comment : m.mergedComment? q = some q.comment
  readable : q.getter.isSome = true
  getter : q.getter = p.getter ∨ p.getter = none ∧ ∀ id, q.getter = some id → m.Borrowable c id
  setter : q.setter = p.setter ∨ q.setter = none ∨
    p.setter = none ∧ ∀ id, q.setter = some id → m.Borrowable c id

theorem Kept.accessors {m : Model} {c : ClassId} {p q : Property} (h : m.Kept c p q) {id : MethodId}
    (hid : id ∈ q.accessors) : id ∈ p.accessors ∨ m.Borrowable c id := by
  rcases Property.mem_accessors.1 hid with hg | hs
  · rcases h.getter with heq | ⟨-, hb⟩
    · exact .inl (Property.mem_accessors.2 (.inl (heq ▸ hg)))
    · exact .inr (hb id hg)
  · rcases h.setter with heq | heq | ⟨-, hb⟩
    · exact .inl (Property.mem_accessors.2 (.inr (heq ▸ hs)))
    · simp [heq] at hs
    · exact .inr (hb id hs)

/-- What `Kept` says of the accessors, before it is known whether the property is kept. -/
theorem Reshaped.accessors {m : Model} {c : ClassId} {p q : Property} (h : m.Reshaped c p q) :
    (q.getter = p.getter ∨ q.getter = none ∨
      p.getter = none ∧ ∀ id, q.getter = some id → m.Borrowable c id) ∧
    (q.setter = p.setter ∨ q.setter = none ∨
      p.setter = none ∧ ∀ id, q.setter = some id → m.Borrowable c id) := by
  cases h with
  | plain => exact ⟨.inl rfl, .inl rfl⟩
  | orphan =>
    unfold Property.yielded
    split
    · exact ⟨.inl rfl, .inr (.inl rfl)⟩
    · exact ⟨.inr (.inl rfl), .inl rfl⟩
  | borrowsGetter hb hg hs => exact ⟨.inr (.inr ⟨hg, fun id h => hb.borrowable (.inl h)⟩), .inl rfl⟩
  | borrowsSetter hb hs hg hp =>
    exact ⟨.inl rfl, .inr (.inr ⟨hp, fun id h => hb.borrowable (.inr (hs.trans h))⟩)⟩
  | losesSetter => exact ⟨.inl rfl, .inr (.inl rfl)⟩

theorem Reshaped.rest {m : Model} {c : ClassId} {p q : Property} (h : m.Reshaped c p q) :
    q = { p with getter := q.getter, setter := q.setter } := by
  cases h with
  | orphan =>
    unfold Property.yielded
    split <;> rfl
  | _ => rfl

theorem Valid.hasMethod_of_reshaped {m : Model} (hm : m.Valid) {c : ClassId} {p q : Property}
    (h : m.Reshaped c p q) (hp : ∀ id ∈ p.accessors, m.hasMethod id = true) :
    ∀ id ∈ q.accessors, m.hasMethod id = true := by
  intro id hid
  obtain ⟨hg, hs⟩ := h.accessors
  rcases Property.mem_accessors.1 hid with h | h
  · rcases hg with hg | hg | ⟨-, hg⟩
    · exact hp id (Property.mem_accessors.2 (.inl (hg ▸ h)))
    · simp [hg] at h
    · exact hm.hasMethod_of_borrowable (hg id h)
  · rcases hs with hs | hs | ⟨-, hs⟩
    · exact hp id (Property.mem_accessors.2 (.inr (hs ▸ h)))
    · simp [hs] at h
    · exact hm.hasMethod_of_borrowable (hs id h)

theorem mergedComment?_accessors (m : Model) {p q : Property} (hg : p.getter = q.getter)
    (hs : p.setter = q.setter) : m.mergedComment? p = m.mergedComment? q := by
  simp only [mergedComment?, setterComment?, hg, hs]

theorem Valid.verdict?_total {m : Model} (hm : m.Valid) {c : ClassId} {k : Class}
    (hk : m.class? c = some k) (hc : m.IsDefinition c) {p : Property}
    (hp : ∀ id ∈ p.accessors, m.hasMethod id = true) :
    ∃ v, m.verdict? c p = some v ∧ ∀ q, v = some q → m.Kept c p q := by
  obtain ⟨q, hq, hr⟩ := hm.reshaped?_total hk hc hp
  have hlinks := hm.hasMethod_of_reshaped hr hp
  obtain ⟨b, hb, hgetter⟩ := hm.stays?_total hk hlinks
  cases b with
  | false => exact ⟨none, by simp [verdict?, hq, hb], by simp⟩
  | true =>
    obtain ⟨o, ho⟩ := mergedComment?_total hlinks
    refine ⟨some { q with comment := o, owner := c }, by simp [verdict?, hq, hb, ho], ?_⟩
    rintro _ ⟨⟩
    have hsome := hgetter rfl
    refine ⟨?_, ?_, hsome, ?_, hr.accessors.2⟩
    · rw [hr.rest]
    · rw [← ho]
      exact mergedComment?_accessors m rfl rfl
    · rcases hr.accessors.1 with h | h | h
      · exact .inl h
      · simp [h] at hsome
      · exact .inr h

/-- What is committed is the property as its base wants it, with its comment. -/
theorem Valid.reshaped?_of_verdict? {m : Model} (hm : m.Valid) {c : ClassId} {k : Class}
    (hk : m.class? c = some k) (hc : m.IsDefinition c) {p q : Property}
    (hp : ∀ id ∈ p.accessors, m.hasMethod id = true) (hv : m.verdict? c p = some (some q)) :
    ∃ r, m.reshaped? c p = some r ∧ m.Reshaped c p r ∧ m.stays? c r = some true ∧
      q = { r with comment := q.comment, owner := c } := by
  obtain ⟨r, hr, hreshaped⟩ := hm.reshaped?_total hk hc hp
  obtain ⟨b, hb, -⟩ := hm.stays?_total hk (hm.hasMethod_of_reshaped hreshaped hp)
  cases b with
  | false => simp [verdict?, hr, hb] at hv
  | true =>
    simp only [verdict?, hr, hb, Option.bind_eq_bind, Option.bind_some, if_true,
      Option.bind_eq_some_iff, Option.pure_def, Option.some.injEq] at hv
    obtain ⟨comment, -, rfl⟩ := hv
    exact ⟨r, hr, hreshaped, hb, rfl⟩

end Model
end ApiProperties

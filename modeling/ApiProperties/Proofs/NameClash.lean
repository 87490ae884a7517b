import ApiProperties.Proofs.Run

/-!
Names that a run leaves to two members. Room for a property is made when it is committed, so a
method that is given back later, or a member whose new name was taken before, can bear the name of a
property when the run is over. There is no other way.

`Fate` follows one member through the processing of its class: either it has kept its name, or it
was renamed and no property committed since has its new name.
-/

set_option autoImplicit false

namespace ApiProperties

theorem length_onName_capitalize (n : String) : n.length ≤ (capitalize n).length + 1 := by
  rw [capitalize, onName, String.length_ofList, ← String.length_toList]
  cases n.toList with
  | nil => simp
  | cons c rest => simp [Name.capitalize]

theorem length_displacedMethodName (n : String) : n.length < (displacedMethodName n).length := by
  have h := length_onName_capitalize n
  have hget : "get".length = 3 := by decide
  rw [displacedMethodName, String.length_append, hget]
  omega

theorem length_displacedEventName (n : String) : n.length < (displacedEventName n).length := by
  have h := length_onName_capitalize n
  have hon : "on".length = 2 := by decide
  rw [displacedEventName, String.length_append, hon]
  omega

theorem Method.name_makeRoom (n : String) (f : Method) :
    (f.makeRoom n).name =
      if f.isGenerated && f.name == n then displacedMethodName n else f.name := by
  unfold makeRoom clashesWith
  split <;> rfl

@[simp] theorem Method.isGenerated_makeRoom (n : String) (f : Method) :
    (f.makeRoom n).isGenerated = f.isGenerated := by
  unfold makeRoom
  split <;> rfl

theorem Event.name_makeRoom (n : String) (e : Event) :
    (e.makeRoom n).name = if true && e.name == n then displacedEventName n else e.name := by
  unfold makeRoom clashesWith
  cases h : e.name == n <;> simp

/-- What has become of a member called `old` once the properties `ps` have been committed. The
member was `exposed` if it could be displaced from the start, and `returns` if it may be given
back on the way; `seen` says whether it can be displaced now. -/
inductive Fate (displaced : String → String) (old : String) (exposed : Bool) (returns : Prop)
    (ps : List Property) : (name : String) → (seen : Bool) → Prop
  | kept {seen : Bool} (hexposed : exposed = true → seen = true ∧ ∀ p ∈ ps, p.name ≠ old)
      (hseen : seen = true → exposed = true ∨ returns) :
      Fate displaced old exposed returns ps old seen
  | renamed {j : Nat} {q : Property} (hq : ps[j]? = some q)
      (hlonger : old.length < (displaced q.name).length)
      (hlater : ∀ l p, j ≤ l → ps[l]? = some p → p.name ≠ displaced q.name) :
      Fate displaced old exposed returns ps (displaced q.name) true

namespace Fate
variable {displaced : String → String} {old name : String} {exposed seen : Bool} {returns : Prop}
  {ps : List Property}

theorem giveBack (h : Fate displaced old exposed returns ps name seen) (hr : returns) :
    Fate displaced old exposed returns ps name true := by
  cases h with
  | kept hexposed hseen => exact .kept (fun he => ⟨rfl, (hexposed he).2⟩) fun _ => .inr hr
  | renamed hq hlonger hlater => exact .renamed hq hlonger hlater

theorem length_le (h : Fate displaced old exposed returns ps name seen) :
    old.length ≤ name.length := by
  cases h with
  | kept => exact Nat.le_refl _
  | renamed _ hlonger _ => exact Nat.le_of_lt hlonger

/-- The member makes room for a property that is committed. -/
theorem displace (h : Fate displaced old exposed returns ps name seen) {p : Property}
    (hlonger : p.name.length < (displaced p.name).length) (hname : name = p.name) :
    Fate displaced old exposed returns (ps ++ [p]) (displaced p.name) true := by
  have hlast : (ps ++ [p])[ps.length]? = some p := by simp
  refine .renamed hlast (Nat.lt_of_le_of_lt (hname ▸ h.length_le) hlonger) fun l q hl hq => ?_
  -- the only property since then is `p` itself, and the new name is longer than its name
  rcases getElem?_concat_cases hq with hq | ⟨-, rfl⟩
  · exact absurd (List.getElem?_eq_some_iff.1 hq).1 (Nat.not_lt_of_le hl)
  · intro heq
    rw [← heq] at hlonger
    exact Nat.lt_irrefl _ hlonger

/-- The member is not in the way of a property that is committed. -/
theorem stay (h : Fate displaced old exposed returns ps name seen) {p : Property}
    (hp : seen = true → name ≠ p.name) :
    Fate displaced old exposed returns (ps ++ [p]) name seen := by
  cases h with
  | kept hexposed hseen =>
    refine .kept (fun he => ⟨(hexposed he).1, fun q hq => ?_⟩) hseen
    rcases List.mem_append.1 hq with hq | hq
    · exact (hexposed he).2 q hq
    · obtain rfl := List.mem_singleton.1 hq
      exact (hp (hexposed he).1).symm
  | @renamed j q hq hlen hlater =>
    have hj : j < ps.length := (List.getElem?_eq_some_iff.1 hq).1
    have hq' : (ps ++ [p])[j]? = some q := by rw [List.getElem?_append_left hj, hq]
    refine .renamed hq' hlen fun l p' hl hp' => ?_
    rcases getElem?_concat_cases hp' with hp' | ⟨-, rfl⟩
    · exact hlater l p' hl hp'
    · exact (hp rfl).symm

theorem commit (hlonger : ∀ n, n.length < (displaced n).length)
    (h : Fate displaced old exposed returns ps name seen) (p : Property) :
    Fate displaced old exposed returns (ps ++ [p])
      (if seen && name == p.name then displaced p.name else name) seen := by
  by_cases hc : (seen && name == p.name) = true
  · rw [if_pos hc]
    obtain ⟨rfl, hname⟩ : seen = true ∧ name = p.name := by simpa using hc
    exact h.displace (hlonger p.name) hname
  · rw [if_neg hc]
    refine h.stay fun hseen hname => hc ?_
    simp [hseen, hname]

/-- Who clashes with a property was given back under its old name, or got its new name from a
property that was committed after that one. -/
theorem clash (h : Fate displaced old exposed returns ps name true) {p : Property} (hp : p ∈ ps)
    (hname : p.name = name) :
    name = old ∧ returns ∨ name ≠ old ∧ ∃ (i j : Nat) (p q : Property), i < j ∧ ps[i]? = some p ∧
      ps[j]? = some q ∧ p.name = name ∧ name = displaced q.name := by
  cases h with
  | kept hexposed hseen =>
    rcases hseen rfl with he | hr
    · exact absurd hname ((hexposed he).2 p hp)
    · exact .inl ⟨rfl, hr⟩
  | @renamed j q hq hlen hlater =>
    obtain ⟨i, hi⟩ := List.mem_iff_getElem?.1 hp
    have hij : i < j := by
      by_contra hle
      exact hlater i p (Nat.le_of_not_lt hle) hi hname
    exact .inr ⟨fun heq => by rw [heq] at hlen; exact Nat.lt_irrefl _ hlen,
      i, j, p, q, hij, hi, hq, hname, rfl⟩

end Fate

namespace Class

/-- A property and a method that is emitted, or an event, have one name. -/
def Clashes (k : Class) : Prop :=
  ∃ p ∈ k.properties, (∃ f ∈ k.methods, f.clashesWith p.name = true) ∨
    ∃ e ∈ k.events, e.clashesWith p.name = true

/-- An accessor that was given back between `k` and `k'` has kept its name, and a property has
it. -/
def ReturnsToTaken (k k' : Class) : Prop :=
  ∃ (i : Nat) (f f' : Method), k.methods[i]? = some f ∧ k'.methods[i]? = some f' ∧
    f.isCandidate = true ∧ f.accessor?.isSome = true ∧ f'.isGenerated = true ∧ f'.name = f.name ∧
    ∃ p ∈ k'.properties, p.name = f.name

/-- A member was renamed to make room for a property, and its new name is that of a property
committed before. -/
def DisplacedToTaken (k k' : Class) : Prop :=
  ∃ (i j : Nat) (p q : Property), i < j ∧ k'.properties[i]? = some p ∧ k'.properties[j]? = some q ∧
    ((p.name = displacedMethodName q.name ∧ ∃ (x : Nat) (f f' : Method), k.methods[x]? = some f ∧
        k'.methods[x]? = some f' ∧ f'.isGenerated = true ∧ f'.name = p.name ∧ f.name ≠ f'.name) ∨
      (p.name = displacedEventName q.name ∧ ∃ (x : Nat) (e e' : Event), k.events[x]? = some e ∧
        k'.events[x]? = some e' ∧ e'.name = p.name ∧ e.name ≠ e'.name))

instance (k : Class) : Decidable k.Clashes :=
  inferInstanceAs (Decidable (∃ p ∈ k.properties, (∃ f ∈ k.methods, f.clashesWith p.name = true) ∨
    ∃ e ∈ k.events, e.clashesWith p.name = true))

theorem clashes_of_returnsToTaken {k k' : Class} (h : k.ReturnsToTaken k') : k'.Clashes := by
  obtain ⟨i, f, f', -, hf', -, -, hgen, hname, p, hp, hpn⟩ := h
  refine ⟨p, hp, .inl ⟨f', List.mem_of_getElem? hf', ?_⟩⟩
  simp [Method.clashesWith, hgen, hname, hpn]

theorem clashes_of_displacedToTaken {k k' : Class} (h : k.DisplacedToTaken k') : k'.Clashes := by
  obtain ⟨i, j, p, q, -, hp, -, hmember⟩ := h
  rcases hmember with ⟨-, x, f, f', -, hf', hgen, hname, -⟩ | ⟨-, x, e, e', -, he', hname, -⟩
  · refine ⟨p, List.mem_of_getElem? hp, .inl ⟨f', List.mem_of_getElem? hf', ?_⟩⟩
    simp [Method.clashesWith, hgen, hname]
  · refine ⟨p, List.mem_of_getElem? hp, .inr ⟨e', List.mem_of_getElem? he', ?_⟩⟩
    simp [Event.clashesWith, hname]

/-- The fates of all members of `k`, whose accessors `ids` were taken in. -/
structure Fates (k : Class) (ids : List MethodId) (k' : Class) : Prop where
  id : k'.id = k.id
  methodCount : k'.methods.length = k.methods.length
  eventCount : k'.events.length = k.events.length
  methods : ∀ (x : Nat) f, k.methods[x]? = some f → ∃ g, k'.methods[x]? = some g ∧
    Fate displacedMethodName f.name (f.isGenerated && decide ((⟨k.id, x⟩ : MethodId) ∉ ids))
      ((⟨k.id, x⟩ : MethodId) ∈ ids) k'.properties g.name g.isGenerated
  events : ∀ (x : Nat) e, k.events[x]? = some e → ∃ e', k'.events[x]? = some e' ∧
    Fate displacedEventName e.name true False k'.properties e'.name true

namespace Fates
variable {k k' : Class} {ids : List MethodId}

theorem start (k : Class) (ids : List MethodId) : k.Fates ids (k.collected ids []) := by
  refine ⟨rfl, by simp [collected, tag], rfl, fun x f hf => ?_, fun x e he =>
    ⟨e, he, .kept (by simp) (by simp)⟩⟩
  refine ⟨_, by rw [collected, getElem?_tag, hf, Option.map_some], ?_⟩
  by_cases hx : (⟨k.id, x⟩ : MethodId) ∈ ids
  · simp only [hx, if_true]
    exact .kept (by simp) fun _ => .inr trivial
  · simp only [hx, if_false]
    exact .kept (by simp) (by simp)

theorem giveBack (h : k.Fates ids k') {back : List MethodId} (hback : ∀ id ∈ back, id ∈ ids) :
    k.Fates ids (k'.tag back .generate) := by
  refine ⟨h.id, by simpa [tag] using h.methodCount, h.eventCount, fun x f hf => ?_, h.events⟩
  obtain ⟨g, hg, hfate⟩ := h.methods x f hf
  rw [getElem?_tag, hg, h.id, Option.map_some]
  refine ⟨_, rfl, ?_⟩
  by_cases hx : (⟨k.id, x⟩ : MethodId) ∈ back
  · simp only [hx, if_true]
    exact hfate.giveBack (hback _ hx)
  · simp only [hx, if_false]
    exact hfate

theorem commit (h : k.Fates ids k') (q : Property) :
    k.Fates ids ((k'.makeRoom q.name).addProperty q) := by
  refine ⟨h.id, by simpa [addProperty, makeRoom] using h.methodCount,
    by simpa [addProperty, makeRoom] using h.eventCount, fun x f hf => ?_, fun x e he => ?_⟩
  · obtain ⟨g, hg, hfate⟩ := h.methods x f hf
    refine ⟨g.makeRoom q.name, by simp [addProperty, makeRoom, hg], ?_⟩
    rw [Method.name_makeRoom, Method.isGenerated_makeRoom]
    exact hfate.commit length_displacedMethodName q
  · obtain ⟨e', he', hfate⟩ := h.events x e he
    refine ⟨e'.makeRoom q.name, by simp [addProperty, makeRoom, he'], ?_⟩
    rw [Event.name_makeRoom]
    exact hfate.commit length_displacedEventName q

theorem clash (h : k.Fates ids k')
    (hids : ∀ (x : Nat) f, k.methods[x]? = some f → (⟨k.id, x⟩ : MethodId) ∈ ids →
      f.isCandidate = true ∧ f.accessor?.isSome = true) (hc : k'.Clashes) :
    k.ReturnsToTaken k' ∨ k.DisplacedToTaken k' := by
  obtain ⟨p, hp, ⟨g, hg, hclash⟩ | ⟨e', he', hclash⟩⟩ := hc
  · obtain ⟨x, hx⟩ := List.mem_iff_getElem?.1 hg
    obtain ⟨f, hf⟩ : ∃ f, k.methods[x]? = some f :=
      ⟨_, List.getElem?_eq_getElem (h.methodCount ▸ (List.getElem?_eq_some_iff.1 hx).1)⟩
    obtain ⟨g', hg', hfate⟩ := h.methods x f hf
    obtain rfl := Option.some.inj (hx.symm.trans hg')
    simp only [Method.clashesWith, Bool.and_eq_true, beq_iff_eq] at hclash
    rw [hclash.1] at hfate
    rcases hfate.clash hp hclash.2.symm with
      ⟨hname, hmem⟩ | ⟨hne, i, j, p', q, hij, hi, hj, hp', hq⟩
    · obtain ⟨hcand, hacc⟩ := hids x f hf hmem
      exact .inl ⟨x, f, g, hf, hx, hcand, hacc, hclash.1, hname, p, hp, hclash.2.symm.trans hname⟩
    · exact .inr ⟨i, j, p', q, hij, hi, hj,
        .inl ⟨hp'.trans hq, x, f, g, hf, hx, hclash.1, hp'.symm, hne.symm⟩⟩
  · obtain ⟨x, hx⟩ := List.mem_iff_getElem?.1 he'
    obtain ⟨e, he⟩ : ∃ e, k.events[x]? = some e :=
      ⟨_, List.getElem?_eq_getElem (h.eventCount ▸ (List.getElem?_eq_some_iff.1 hx).1)⟩
    obtain ⟨e'', he'', hfate⟩ := h.events x e he
    obtain rfl := Option.some.inj (hx.symm.trans he'')
    have hname : e'.name = p.name := by simpa [Event.clashesWith] using hclash
    rcases hfate.clash hp hname.symm with ⟨-, hfalse⟩ | ⟨hne, i, j, p', q, hij, hi, hj, hp', hq⟩
    · exact hfalse.elim
    · exact .inr ⟨i, j, p', q, hij, hi, hj,
        .inr ⟨hp'.trans hq, x, e, e', he, hx, hp'.symm, hne.symm⟩⟩

end Fates
end Class

namespace Model

theorem Processed.fates {m : Model} {c : ClassId} {k : Class} {y : Synthesis}
    {ids : List MethodId} {s : Pending} {own : List Property}
    {vs : List (Property × Option Property)} (h : m.Processed y c k ids s own vs)
    (hfree : k.properties = []) :
    k.Fates ids ((y.desk m k ids s own).settleAll c vs).cls := by
  refine Desk.settleAll_induction (fun d => k.Fates ids d.cls) (fun v hv d hd => ?_) ?_
  · have hids := h.mem_of_verdict hv
    cases hq : v.2 with
    | none => exact hd.giveBack hids
    | some q => exact (hd.giveBack fun id hid => hids id (lost_subset v.1 q hid)).commit q
  · rw [Synthesis.desk, h.assembly.own_eq_nil hfree]
    exact (Class.Fates.start k ids).giveBack fun id hid => h.assembly.mem_of_flatMap_filter hid

/-- After a run a class has a clash of names just in case an accessor was given back to a name that
a property took, or a member was renamed to a name that a property took before. -/
theorem run_clashes_iff (m : Model) (hm : m.Valid) (hfree : m.PropertyFree) (y : Synthesis) :
    ∃ t, y.run? m = some t ∧ ∀ c k', t.model.class? c = some k' →
      ∃ k, m.class? c = some k ∧ (k'.Clashes ↔ k.ReturnsToTaken k' ∨ k.DisplacedToTaken k') := by
  obtain ⟨t, ht, -, -, hall⟩ := hm.run?_classes y
  refine ⟨t, ht, fun c k' hk' => ?_⟩
  have hback : ∀ k : Class, k.ReturnsToTaken k' ∨ k.DisplacedToTaken k' → k'.Clashes := fun k h =>
    h.elim Class.clashes_of_returnsToTaken Class.clashes_of_displacedToTaken
  rcases hall c k' hk' with ⟨-, hsame⟩ | ⟨k, hk, m', ids, s, own, vs, hvalid, -, -, hk₁, h, rfl⟩
  · -- a class that is not complete is not processed and stays without properties
    refine ⟨k', hsame, fun ⟨p, hp, _⟩ => ?_, hback k'⟩
    simp [hfree.class hsame] at hp
  · refine ⟨k, hk, (h.fates (hfree.class hk)).clash fun x f hf hx => ?_, hback k⟩
    obtain ⟨f', a, ho⟩ := (h.all _).1 hx
    have hf' := ho.method
    rw [method?, (hvalid.consistent hk₁).id, hk₁, Option.bind_some, hf] at hf'
    obtain rfl := Option.some.inj hf'
    exact ⟨ho.candidate, by rw [ho.accessor]; rfl⟩

/-- A getter, and a setter of another type that is called like the getter's property. -/
def width : Model :=
  .ofMembers [.plain "getWidth" (.plain (.builtin .int)),
    .plainSetter "width" (.plain (.builtin .double))] []

/-- The setter comes back to the name `width`, and there is no second property. -/
theorem run_clashes_iff_width : width.Valid ∧ width.PropertyFree ∧
    ∃ t k k', Synthesis.withoutVerbs.run? width = some t ∧ width.class? 0 = some k ∧
      t.model.class? 0 = some k' ∧ k'.properties.map (·.name) = ["width"] ∧ k'.Clashes ∧
      k.ReturnsToTaken k' ∧ ¬ k.DisplacedToTaken k' := by
  have hvalid : width.Valid := by decide
  have hfree : width.PropertyFree := by decide
  obtain ⟨t, ht, hall⟩ := run_clashes_iff width hvalid hfree .withoutVerbs
  have hrun : ((Synthesis.withoutVerbs.run? width).bind fun t => t.model.class? 0).map
      (fun k => (k.properties.map (·.name), decide k.Clashes)) = some (["width"], true) := by decide
  rw [ht, Option.bind_some] at hrun
  obtain ⟨k', hk', hboth⟩ := Option.map_eq_some_iff.1 hrun
  obtain ⟨hnames, hclash⟩ := Prod.mk.inj hboth
  have hclash : k'.Clashes := of_decide_eq_true hclash
  obtain ⟨k, hk, hiff⟩ := hall 0 k' hk'
  have hone : k'.properties.length = 1 := by simpa using congrArg List.length hnames
  have hmoved : ¬ k.DisplacedToTaken k' := fun ⟨i, j, p, q, hij, _, hq, _⟩ => by
    have hj := (List.getElem?_eq_some_iff.1 hq).1
    omega
  exact ⟨hvalid, hfree, t, k, k', ht, hk, hk', hnames, hclash,
    (hiff.1 hclash).resolve_right hmoved, hmoved⟩

/-- The setter is still an accessor when room is made for the property `width`, and is given back
afterwards. -/
theorem run_clashes_width :
    ¬ ∀ (m : Model) (y : Synthesis) (t : Progress), m.Valid → m.PropertyFree → y.run? m = some t →
      ∀ c k', t.model.class? c = some k' → ¬ k'.Clashes := by
  intro h
  let y := Synthesis.withoutVerbs
  have hrun : ((y.run? width).bind fun t => t.model.class? 0).map (fun k => decide k.Clashes) =
      some true := by decide
  obtain ⟨k', hbind, hclash⟩ := Option.map_eq_some_iff.1 hrun
  obtain ⟨t, ht, hk'⟩ := Option.bind_eq_some_iff.1 hbind
  exact h width y t (by decide) (by decide) ht 0 k' hk' (of_decide_eq_true hclash)

end Model
end ApiProperties

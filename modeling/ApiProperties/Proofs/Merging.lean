import ApiProperties.Proofs.Retirement

/-!
Members that come to share a name. Nothing is asked about a new name before it is given, so it may
be the name of another member. There is no other way: the records of two members are followed up to
the first one after which their names are equal.
-/

set_option autoImplicit false

namespace ApiProperties

theorem MemberKind.capitalize_of_displacedName {κ : MemberKind} {n n' : String}
    (h : κ.displacedName n = κ.displacedName n') : capitalize n = capitalize n' := by
  cases κ with
  | method => exact String.append_right_inj "get" |>.1 h
  | event => exact String.append_right_inj "on" |>.1 h

/-- The name at which records arrive that start from `n`. -/
def nameAfter (n : String) (rs : List RenameRecord) : String :=
  (rs.getLast?.map (·.newName)).getD n

@[simp] theorem nameAfter_concat (n : String) (rs : List RenameRecord) (r : RenameRecord) :
    nameAfter n (rs ++ [r]) = r.newName := by
  simp [nameAfter]

theorem nameAfter_cons (n : String) (r : RenameRecord) (rs : List RenameRecord) :
    nameAfter n (r :: rs) = nameAfter r.newName rs := by
  cases rs using List.reverseRecOn with
  | nil => rfl
  | append_singleton rs r' => rw [nameAfter_concat, ← List.cons_append, nameAfter_concat]

theorem Leads.nameAfter_eq {className : String} {κ : MemberKind} {n n' : String}
    {rs : List RenameRecord} (h : Leads className κ n rs n') : nameAfter n rs = n' := by
  induction h with
  | refl => rfl
  | step _ _ _ ih => rw [nameAfter_cons, ih]

/-- Each record starts from the name at which those before it arrive. -/
theorem Leads.nameAfter_before {className : String} {κ : MemberKind} {n n' : String}
    {rs rs' : List RenameRecord} {r : RenameRecord}
    (h : Leads className κ n (rs ++ r :: rs') n') : nameAfter n rs = r.oldName := by
  induction rs generalizing n with
  | nil =>
    cases h
    rfl
  | cons r₁ rs ih =>
    cases h with
    | step _ _ h => rw [nameAfter_cons, ih h]

namespace Ledger
variable {l l₁ l₂ l₃ l₄ : Ledger} {e e' : Entry} {μ ν : Member} {a b n : String} {m m' : Model}

theorem of_concat_self (h : e.member = μ) : of (l ++ [e]) μ = of l μ ++ [e.record] := by
  simp [of, h]

theorem of_concat_ne (h : e.member ≠ μ) : of (l ++ [e]) μ = of l μ := by
  simp [of, h]

theorem of_eq_nil (h : ∀ e ∈ l, e.member ≠ μ) : l.of μ = [] := by
  rw [of, List.filter_eq_nil_iff.2 fun e he => by simpa using h e he, List.map_nil]

theorem exists_last (h : l.of μ ≠ []) :
    ∃ l₁ e l₂, l = l₁ ++ e :: l₂ ∧ e.member = μ ∧ ∀ e' ∈ l₂, e'.member ≠ μ := by
  induction l using List.reverseRecOn with
  | nil => exact absurd rfl h
  | append_singleton l e ih =>
    by_cases hμ : e.member = μ
    · exact ⟨l, e, [], rfl, hμ, by simp⟩
    · rw [of_concat_ne hμ] at h
      obtain ⟨l₁, e', l₂, rfl, he', hlast⟩ := ih h
      refine ⟨l₁, e', l₂ ++ [e], by simp, he', fun x hx => ?_⟩
      rcases List.mem_append.1 hx with hx | hx
      · exact hlast x hx
      · rwa [List.mem_singleton.1 hx]

/-- The members, which were called `a` and `b` at first, have different names all the time. -/
def Apart (l : Ledger) (μ ν : Member) (a b : String) : Prop :=
  ∀ l₀ : Ledger, l₀ <+: l → nameAfter a (l₀.of μ) ≠ nameAfter b (l₀.of ν)

/-- The names were different until `μ` made room for a property and got the name that `ν` bore then.
`ν` was still called `b`, or it had got this name from a property which the class lists before and
whose name is the same once it is capitalised. -/
def Meets (l : Ledger) (μ ν : Member) (a b : String) : Prop :=
  ∃ (l₁ : Ledger) (e : Entry) (l₂ : Ledger), l = l₁ ++ e :: l₂ ∧ e.member = μ ∧ l₁.Apart μ ν a b ∧
    nameAfter b (l₁.of ν) = e.record.newName ∧
    (l₁.of ν = [] ∧ b = e.record.newName ∨ ∃ e' ∈ l₁, e'.member = ν ∧ e'.property < e.property ∧
      e'.record.newName = e.record.newName ∧
      capitalize e'.record.oldName = capitalize e.record.oldName)

theorem Apart.symm (h : l.Apart μ ν a b) : l.Apart ν μ b a := fun l₀ hl₀ => (h l₀ hl₀).symm

theorem Apart.concat (h : l.Apart μ ν a b)
    (he : nameAfter a (of (l ++ [e]) μ) ≠ nameAfter b (of (l ++ [e]) ν)) :
    Apart (l ++ [e]) μ ν a b := by
  intro l₀ hl₀
  rcases List.prefix_concat_iff.1 hl₀ with rfl | hl₀
  · exact he
  · exact h l₀ hl₀

namespace Tells
variable (h : l.Tells m m') (hl : l = l₁ ++ e :: l₂)
include h hl

theorem nameAfter_before (hn : m.nameOf? e.member = some n) :
    nameAfter n (l₁.of e.member) = e.record.oldName := by
  obtain ⟨k, hk, -⟩ := Option.bind_eq_some_iff.1 hn
  obtain ⟨_, n', -, hn'⟩ := h.exists_names (e := e) (by simp [hl])
  have hsplit : l.of e.member = l₁.of e.member ++ e.record :: l₂.of e.member := by
    rw [hl]
    simp [of]
  have hleads := h.names e.member k n n' hk hn hn'
  rw [hsplit] at hleads
  exact hleads.nameAfter_before

theorem property_le (he' : e' ∈ l₁) (howner : e'.member.owner = e.member.owner) :
    e'.property ≤ e.property := by
  have horder := h.order
  rw [hl] at horder
  exact (List.pairwise_append.1 horder).2.2 e' he' e List.mem_cons_self howner

theorem property_lt (he' : e' ∈ l₁) (hmember : e'.member = e.member) :
    e'.property < e.property := by
  have hsteps := List.pairwise_map.1 h.nodup_steps
  rw [hl] at hsteps
  have hne := (List.pairwise_append.1 hsteps).2.2 e' he' e List.mem_cons_self
  refine Nat.lt_of_le_of_ne (h.property_le hl he' (by rw [hmember])) fun heq => hne ?_
  rw [hmember, heq]

/-- A property that gave a name to `ν` while the names were different is another one than the
property that gives it to the member of `e` now. -/
theorem property_lt_of_apart (hl₁ : l₁ = l₃ ++ e' :: l₄) (he' : e'.member = ν)
    (hlast : ∀ x ∈ l₄, x.member ≠ ν) (howner : ν.owner = e.member.owner) (hne : e.member ≠ ν)
    (ha : m.nameOf? e.member = some a) (hb : m.nameOf? ν = some b)
    (hapart : l₁.Apart e.member ν a b) : e'.property < e.property := by
  subst he'
  have hl' : l = l₃ ++ e' :: (l₄ ++ e :: l₂) := by simp [hl, hl₁]
  by_cases hbetween : ∃ x ∈ l₄, x.member = e.member
  · obtain ⟨x, hx, hmember⟩ := hbetween
    have hlt : x.property < e.property := h.property_lt hl (by simp [hl₁, hx]) hmember
    obtain ⟨l₅, l₆, rfl⟩ := List.append_of_mem hx
    have hbefore : l = (l₃ ++ e' :: l₅) ++ x :: (l₆ ++ e :: l₂) := by simp [hl']
    have hle : e'.property ≤ x.property :=
      h.property_le hbefore (List.mem_append_right l₃ List.mem_cons_self) (by rw [howner, hmember])
    exact Nat.lt_of_le_of_lt hle hlt
  · have hle : e'.property ≤ e.property := h.property_le hl (by simp [hl₁]) howner
    refine Nat.lt_of_le_of_ne hle fun heq => ?_
    have hold := (h.made e' (by simp [hl'])).oldName_eq (h.made e (by simp [hl])) howner heq
    have hnone : l₄.of e.member = [] := of_eq_nil fun x hx hmember => hbetween ⟨x, hx, hmember⟩
    have hsame : l₁.of e.member = l₃.of e.member := by
      rw [hl₁, List.append_cons, of_append, of_concat_ne hne.symm, hnone, List.append_nil]
    refine hapart l₃ (hl₁ ▸ List.prefix_append _ _) ?_
    rw [← hsame, h.nameAfter_before hl ha, h.nameAfter_before hl' hb, hold]

/-- The member of `e` gets the name that `ν` bears. -/
theorem meets (howner : ν.owner = e.member.owner) (hkind : ν.kind = e.member.kind)
    (hne : e.member ≠ ν) (ha : m.nameOf? e.member = some a) (hb : m.nameOf? ν = some b)
    (hapart : l₁.Apart e.member ν a b) (hname : nameAfter b (l₁.of ν) = e.record.newName) :
    l.Meets e.member ν a b := by
  refine ⟨l₁, e, l₂, hl, rfl, hapart, hname, ?_⟩
  by_cases hnil : l₁.of ν = []
  · rw [hnil] at hname
    exact .inl ⟨hnil, hname⟩
  · obtain ⟨l₃, e', l₄, hl₁, he', hlast⟩ := exists_last hnil
    have hnew : e'.record.newName = e.record.newName := by
      rw [← hname, hl₁, List.append_cons, of_append, of_eq_nil hlast, List.append_nil,
        of_concat_self he', nameAfter_concat]
    refine .inr ⟨e', by simp [hl₁], he',
      h.property_lt_of_apart hl hl₁ he' hlast howner hne ha hb hapart, hnew,
      MemberKind.capitalize_of_displacedName (κ := ν.kind) ?_⟩
    have hmade' := (h.made e' (by simp [hl, hl₁])).newName
    rw [he'] at hmade'
    rw [← hmade', hnew, (h.made e (by simp [hl])).newName, hkind]

omit hl

/-- A member that keeps its name makes no room. -/
theorem not_meets (hn : m.nameOf? μ = some n) (hn' : m'.nameOf? μ = some n) : ¬ l.Meets μ ν a b := by
  rintro ⟨l₁, e, l₂, rfl, rfl, -⟩
  have hnil := (h.of_eq_nil_iff hn hn').2 rfl
  rw [of_append] at hnil
  simp [of] at hnil

/-- Two members of different names either keep apart or meet. -/
theorem apart_or_meets (howner : ν.owner = μ.owner) (hkind : ν.kind = μ.kind) (hab : a ≠ b)
    (ha : m.nameOf? μ = some a) (hb : m.nameOf? ν = some b) (hl : l = l₁ ++ l₂) :
    l₁.Apart μ ν a b ∨ l.Meets μ ν a b ∨ l.Meets ν μ b a := by
  have hne : μ ≠ ν := by
    rintro rfl
    exact hab (Option.some.inj (ha.symm.trans hb))
  induction l₁ using List.reverseRecOn generalizing l₂ with
  | nil =>
    refine .inl fun l₀ hl₀ => ?_
    obtain rfl := List.prefix_nil.1 hl₀
    exact hab
  | append_singleton l₁ e ih =>
    rw [← List.append_cons] at hl
    rcases ih hl with hapart | hmeets
    · by_cases hname : nameAfter a (of (l₁ ++ [e]) μ) = nameAfter b (of (l₁ ++ [e]) ν)
      · -- the names were different before, so one of the two has been renamed
        right
        by_cases hμ : e.member = μ
        · subst hμ
          rw [of_concat_self rfl, nameAfter_concat, of_concat_ne hne] at hname
          exact .inl (h.meets hl howner hkind hne ha hb hapart hname.symm)
        · by_cases hν : e.member = ν
          · subst hν
            rw [of_concat_self rfl, nameAfter_concat, of_concat_ne hμ] at hname
            exact .inr (h.meets hl howner.symm hkind.symm hne.symm hb ha hapart.symm hname)
          · rw [of_concat_ne hμ, of_concat_ne hν] at hname
            exact absurd hname (hapart l₁ (List.prefix_refl l₁))
      · exact .inl (hapart.concat hname)
    · exact .inr hmeets

end Tells
end Ledger

namespace Model

/-- Two methods or two events of one class that had different names before a run have the same name
after it only if one of them was given the name of the other. -/
theorem run_merges (m : Model) (hm : m.Valid) (hfree : m.PropertyFree) (y : Synthesis) :
    ∃ t l, y.run? m = some t ∧ l.map (·.record) = t.renames ∧ Ledger.Tells l m t.model ∧
      ∀ (μ ν : Member) (a b n : String), μ.owner = ν.owner → μ.kind = ν.kind →
        m.nameOf? μ = some a → m.nameOf? ν = some b → a ≠ b →
        t.model.nameOf? μ = some n → t.model.nameOf? ν = some n →
        l.Meets μ ν a b ∨ l.Meets ν μ b a := by
  obtain ⟨t, ht, -, h⟩ := hm.run?_recording hfree y
  obtain ⟨l, hl, hmap⟩ := h.ledger
  refine ⟨t, l, ht, hmap, hl, fun μ ν a b n howner hkind ha hb hab hμ hν => ?_⟩
  obtain ⟨k, hk, -⟩ := Option.bind_eq_some_iff.1 ha
  have hμ' := (hl.names μ k a n hk ha hμ).nameAfter_eq
  have hν' := (hl.names ν k b n (howner ▸ hk) hb hν).nameAfter_eq
  have hall := hl.apart_or_meets howner.symm hkind.symm hab ha hb (List.append_nil l).symm
  exact hall.resolve_left fun hapart => hapart l (List.prefix_refl l) (hμ'.trans hν'.symm)

/-- A method and an event in the way of a property, and a method and an event that have the names
which these get. -/
def dash : Model :=
  let int := QualifiedType.plain (.builtin .int)
  let offset := [⟨"column", .regular, int⟩, ⟨"row", .regular, int⟩]
  .ofMembers
    [.plain "getX" int, .plainSetter "setX" int,
      { Method.plain "getX" int with parameters := offset },
      { Method.plain "x" int with parameters := offset }]
    [⟨"x", 0⟩, ⟨"onX", 0⟩]

/-- The method `x` becomes `getX` and the event `x` becomes `onX`, where others were called so. -/
theorem run_merges_dash : dash.Valid ∧ dash.PropertyFree ∧
    ∃ t l, Synthesis.withoutVerbs.run? dash = some t ∧ l.map (·.record) = t.renames ∧
      Ledger.Tells l dash t.model ∧ l.Meets ⟨0, .method, 3⟩ ⟨0, .method, 2⟩ "x" "getX" ∧
      l.Meets ⟨0, .event, 0⟩ ⟨0, .event, 1⟩ "x" "onX" := by
  have hvalid : dash.Valid := by decide
  have hfree : dash.PropertyFree := by decide
  obtain ⟨t, l, ht, hl, htells, hall⟩ := run_merges dash hvalid hfree .withoutVerbs
  have hrun : (Synthesis.withoutVerbs.run? dash).map (fun t =>
      ([t.model.nameOf? ⟨0, .method, 2⟩, t.model.nameOf? ⟨0, .method, 3⟩],
        [t.model.nameOf? ⟨0, .event, 0⟩, t.model.nameOf? ⟨0, .event, 1⟩])) =
      some ([some "getX", some "getX"], [some "onX", some "onX"]) := by decide
  rw [ht, Option.map_some, Option.some.injEq] at hrun
  obtain ⟨hmethods, hevents⟩ := Prod.mk.inj hrun
  obtain ⟨hgetter, hmethod⟩ : t.model.nameOf? ⟨0, .method, 2⟩ = some "getX" ∧
      t.model.nameOf? ⟨0, .method, 3⟩ = some "getX" := by simpa using hmethods
  obtain ⟨hevent, hother⟩ : t.model.nameOf? ⟨0, .event, 0⟩ = some "onX" ∧
      t.model.nameOf? ⟨0, .event, 1⟩ = some "onX" := by simpa using hevents
  -- who is renamed meets the other one, which keeps its name
  refine ⟨hvalid, hfree, t, l, ht, hl, htells, ?_, ?_⟩
  · exact (hall ⟨0, .method, 3⟩ ⟨0, .method, 2⟩ "x" "getX" "getX" rfl rfl (by decide) (by decide)
      (by decide) hmethod hgetter).resolve_right (htells.not_meets (by decide) hgetter)
  · exact (hall ⟨0, .event, 0⟩ ⟨0, .event, 1⟩ "x" "onX" "onX" rfl rfl (by decide) (by decide)
      (by decide) hevent hother).resolve_right (htells.not_meets (by decide) hother)

/-- No two methods of a class that are emitted in `m'` and had different names in `m` agree in name
and parameter types. -/
def KeepsMethodsApart (m m' : Model) : Prop :=
  ∀ id id' f g f' g', id.owner = id'.owner → m.method? id = some f → m.method? id' = some g →
    m'.method? id = some f' → m'.method? id' = some g' → f'.generation = .generate →
    g'.generation = .generate → f.name ≠ g.name →
    ¬ (f'.name = g'.name ∧ f'.parameters.map (·.type) = g'.parameters.map (·.type))

def KeepsEventsApart (m m' : Model) : Prop :=
  ∀ c i j a b a' b', m.nameOf? ⟨c, .event, i⟩ = some a → m.nameOf? ⟨c, .event, j⟩ = some b →
    m'.nameOf? ⟨c, .event, i⟩ = some a' → m'.nameOf? ⟨c, .event, j⟩ = some b' → a ≠ b → a' ≠ b'

theorem run_names_merge_dash :
    (¬ ∀ (m : Model) (y : Synthesis) (t : Progress), m.Valid → m.PropertyFree →
      y.run? m = some t → m.KeepsMethodsApart t.model) ∧
    ¬ ∀ (m : Model) (y : Synthesis) (t : Progress), m.Valid → m.PropertyFree →
      y.run? m = some t → m.KeepsEventsApart t.model := by
  have hvalid : dash.Valid := by decide
  have hfree : dash.PropertyFree := by decide
  let y := Synthesis.withoutVerbs
  constructor
  · intro h
    let int := QualifiedType.plain (.builtin .int)
    let other := { Method.plain "getX" int with
      parameters := [⟨"column", .regular, int⟩, ⟨"row", .regular, int⟩] }
    have hrun : (y.run? dash).map (fun t => (t.model.method? ⟨0, 2⟩, t.model.method? ⟨0, 3⟩)) =
        some (some other, some { other with
          originalName := "x", excludedPasses := NameSet.empty.insert passName }) := by decide
    obtain ⟨t, ht, hmethods⟩ := Option.map_eq_some_iff.1 hrun
    obtain ⟨hother, hrenamed⟩ := Prod.mk.inj hmethods
    exact h dash y t hvalid hfree ht ⟨0, 2⟩ ⟨0, 3⟩ _ _ _ _ rfl rfl rfl hother hrenamed rfl rfl
      (by decide) ⟨rfl, rfl⟩
  · intro h
    have hrun : (y.run? dash).map (fun t => (t.model.nameOf? ⟨0, .event, 0⟩,
        t.model.nameOf? ⟨0, .event, 1⟩)) = some (some "onX", some "onX") := by decide
    obtain ⟨t, ht, hnames⟩ := Option.map_eq_some_iff.1 hrun
    obtain ⟨hrenamed, hother⟩ := Prod.mk.inj hnames
    exact h dash y t hvalid hfree ht 0 0 1 "x" "onX" _ _ (by decide) (by decide) hrenamed hother
      (by decide) rfl

end Model
end ApiProperties

import ApiProperties.Proofs.Evolution
import ApiProperties.Proofs.Frame
import ApiProperties.Proofs.Ledger

/-!
Methods that are out of reach of the synthesis. A method that has made room for a property opts out
of the pass from then on, so it is never taken in again: it stays a method that is emitted, and no
property gets it as an accessor, whatever the model evolves to.
-/

set_option autoImplicit false

namespace ApiProperties

/-- The method has its old name, or it is emitted and has opted out. -/
def Method.KeepsNameOrRetires (f f' : Method) : Prop :=
  f'.name = f.name ∨ f'.generation = .generate ∧ f'.excludedPasses.contains passName = true

namespace Method.KeepsNameOrRetires
variable {f f' : Method}

theorem giveBack (h : f.KeepsNameOrRetires f') :
    f.KeepsNameOrRetires { f' with generation := .generate } :=
  Or.imp_right (And.imp_left fun _ => rfl) h

theorem makeRoom (h : f.KeepsNameOrRetires f') (n : String) :
    f.KeepsNameOrRetires (f'.makeRoom n) := by
  rw [Method.makeRoom]
  split
  · rename_i hclash
    refine .inr ⟨?_, by simp [NameSet.contains_insert]⟩
    simpa [isGenerated] using (clashesWith_iff.1 hclash).1
  · exact h

end Method.KeepsNameOrRetires

namespace Model

/-- The method is emitted, has opted out, and is an accessor of no property. -/
structure Retired (m : Model) (id : MethodId) : Prop where
  method : ∃ f, m.method? id = some f ∧ f.generation = .generate ∧
    f.excludedPasses.contains passName = true
  unused : ∀ c k, m.class? c = some k → ∀ p ∈ k.properties, id ∉ p.accessors

variable {m m' n : Model} {c : ClassId} {k k' : Class} {y : Synthesis} {ids : List MethodId}
  {s : Pending} {own : List Property} {vs : List (Property × Option Property)} {id : MethodId}

/-! ### Retired for good -/

namespace Processed

theorem notMem_of_retired (h : m.Processed y c k ids s own vs) (hr : m.Retired id) : id ∉ ids := by
  intro hid
  obtain ⟨f, a, ho⟩ := (h.all id).1 hid
  obtain ⟨f', hf', -, hout⟩ := hr.method
  obtain rfl := Option.some.inj (ho.method.symm.trans hf')
  have hcandidate := ho.candidate
  simp [Method.isCandidate, hout] at hcandidate

/-- An accessor was one before, of the class or of another one, or has just been taken in. -/
theorem accessor_cases (h : m.Processed y c k ids s own vs) {p : Property}
    (hp : p ∈ ((y.desk m k ids s own).settleAll c vs).cls.properties) (hid : id ∈ p.accessors) :
    (∃ p₀ ∈ k.properties, id ∈ p₀.accessors) ∨ id ∈ ids ∨ m.Borrowable c id := by
  rw [Desk.properties_settleAll, properties_desk, List.mem_append, List.mem_filterMap] at hp
  rcases hp with hp | ⟨v, hv, hq⟩
  · have hown : id ∈ own.flatMap (·.accessors) := by
      rw [← flatMap_documentedOwn (m := m) own s.completed]
      exact List.mem_flatMap.2 ⟨p, hp, hid⟩
    have hmem := h.assembly.perm.mem_iff.1 (List.mem_append_left _ hown)
    rcases List.mem_append.1 hmem with hold | hnew
    · exact .inl (List.mem_flatMap.1 hold)
    · exact .inr (.inl hnew)
  · exact .inr (((h.kept v hv p hq).accessors hid).imp_left (h.mem_of_verdict hv id))

theorem retired (h : m.Processed y c k ids s own vs) (hm : m.Valid) (hk : m.class? c = some k)
    (hr : m.Retired id) :
    (m.putClass c ((y.desk m k ids s own).settleAll c vs).cls).Retired id := by
  refine ⟨?_, fun d k' hk' p hp hid => ?_⟩
  · obtain ⟨f, hf, hgen, hout⟩ := hr.method
    by_cases howner : id.owner = c
    · have hlisted : k.methods[id.index]? = some f := by
        rw [← hf, method?, howner, hk, Option.bind_some]
      obtain ⟨g, hg, hframed⟩ := (h.framed hm hk).methods id.index f hlisted
      rw [method?_putClass_self _ hk howner, hg]
      refine ⟨g, rfl, ?_⟩
      cases hframed with
      | kept => exact ⟨hgen, hout⟩
      | absorbed hcandidate => simp [Method.isCandidate, hout] at hcandidate
      | renamed _ hgrow => exact ⟨hgen, hgrow _ hout⟩
    · rw [method?_putClass_ne m _ howner]
      exact ⟨f, hf, hgen, hout⟩
  · by_cases hcd : c = d
    · subst hcd
      obtain rfl := Option.some.inj ((class?_putClass_self _ hk).symm.trans hk')
      rcases h.accessor_cases hp hid with ⟨p₀, hp₀, hid⟩ | hid | ⟨d, k₁, -, hk₁, p₁, hp₁, hid⟩
      · exact hr.unused c k hk p₀ hp₀ hid
      · exact h.notMem_of_retired hr hid
      · exact hr.unused d k₁ hk₁ p₁ hp₁ hid
    · rw [class?_putClass_ne m _ hcd] at hk'
      exact hr.unused d k' hk' p hp hid

end Processed

theorem Retired.run? (h : m.Retired id) (hm : m.Valid) {t : Progress} (ht : y.run? m = some t) :
    t.model.Valid ∧ t.model.Retired id := by
  obtain ⟨t', ht', hvalid, -, hr⟩ := hm.run?_induction y (fun t _ => t.model.Retired id)
    (fun _ _ _ => h)
    (fun _ _ _ _ _ _ _ _ hr hvalid _ hk _ hp => hp.retired hvalid hk hr)
  obtain rfl := Option.some.inj (ht.symm.trans ht')
  exact ⟨hvalid, hr⟩

theorem Retired.addMethod? (h : m.Retired id) {f : Method} {j : MethodId}
    (ha : m.addMethod? c f = some (m', j)) : m'.Retired id := by
  obtain ⟨g, hg, hgen, hout⟩ := h.method
  refine ⟨⟨g, method?_addMethod? ha hg, hgen, hout⟩, fun d k' hk' p hp => ?_⟩
  obtain ⟨k, hk, hprops, -⟩ := class?_addMethod? ha hk'
  exact h.unused d k hk p (hprops ▸ hp)

theorem Retired.evolves (h : m.Retired id) (hm : m.Valid) (he : m.Evolves m') :
    m'.Valid ∧ m'.Retired id := by
  induction he with
  | refl => exact ⟨hm, h⟩
  | tail _ hstep ih =>
    cases hstep with
    | run ht => exact ih.2.run? ih.1 ht
    | add ha hv => exact ⟨hv, ih.2.addMethod? ha⟩

/-! ### Retiring -/

theorem keepsNameOrRetires_settleAll {i : Nat} {f f' : Method}
    (hf : k.methods[i]? = some f)
    (hf' : ((y.desk m k ids s own).settleAll c vs).cls.methods[i]? = some f') :
    f.KeepsNameOrRetires f' := by
  have htag : ∀ {d : Desk} (back : List MethodId),
      (∀ g, d.cls.methods[i]? = some g → f.KeepsNameOrRetires g) →
      ∀ g, (d.cls.tag back .generate).methods[i]? = some g → f.KeepsNameOrRetires g := by
    intro d back hd g hg
    rw [Class.getElem?_tag, Option.map_eq_some_iff] at hg
    obtain ⟨g, hg, rfl⟩ := hg
    split
    · exact (hd g hg).giveBack
    · exact hd g hg
  refine Desk.settleAll_induction (fun d => ∀ g, d.cls.methods[i]? = some g → f.KeepsNameOrRetires g)
    (fun v _ d hd => ?_) ?_ f' hf'
  · cases hq : v.2 with
    | none => exact htag _ hd
    | some q =>
      intro g hg
      simp only [Desk.settle, Desk.commit, Class.addProperty, Class.makeRoom, List.getElem?_map,
        Option.map_eq_some_iff] at hg
      obtain ⟨g, hg, rfl⟩ := hg
      exact (htag _ hd g hg).makeRoom q.name
  · refine fun g hg => .inl ?_
    simp only [Synthesis.desk, Class.collected, Class.getElem?_tag, hf, Option.map_some,
      Option.some.injEq] at hg
    subst hg
    split <;> split <;> rfl

/-- Whoever has a new name when the class has been built is retired. -/
theorem Building.retired_of_renamed {t : Progress} {rest : List ClassId}
    (h : m.Building y t (c :: rest)) (hb : t.model.Built y c k k' ids s vs) (hk : m.class? c = some k) {i : Nat} {f f' : Method}
    (hf : k.methods[i]? = some f) (hf' : k'.methods[i]? = some f') (hne : f'.name ≠ f.name) :
    (t.model.putClass c k').Retired ⟨c, i⟩ := by
  have hlisted : (t.model.putClass c k').method? ⟨c, i⟩ = some f' := by
    rw [method?_putClass_self _ hb.listed rfl, hf']
  obtain ⟨hgen, hout⟩ :=
    (keepsNameOrRetires_settleAll hf (hb.result ▸ hf')).resolve_left hne
  refine ⟨⟨f', hlisted, hgen, hout⟩, fun d k₁ hk₁ p hp hid => ?_⟩
  by_cases hcd : c = d
  · subst hcd
    obtain rfl := Option.some.inj ((class?_putClass_self _ hb.listed).symm.trans hk₁)
    rw [hb.properties_eq] at hp
    obtain ⟨v, hv, hq⟩ := List.mem_filterMap.1 hp
    obtain ⟨g, -, hg⟩ := hb.internal (class?_putClass_self _ hb.listed) hk hv hq hid rfl
    rw [Option.some.inj (hlisted.symm.trans hg)] at hgen
    cases hgen
  · rw [class?_putClass_ne t.model _ hcd] at hk₁
    exact h.unused d k₁ hk₁ p hp _ hid List.mem_cons_self

/-! ### Runs -/

/-- What holds while the classes `rest` are still to be processed: what is on record tells how the
names have come about, and whoever has a new name is retired. -/
structure Recording (m : Model) (y : Synthesis) (t : Progress) (rest : List ClassId) : Prop where
  building : m.Building y t rest
  ledger : ∃ l, Ledger.Tells l m t.model ∧ l.map (·.record) = t.renames
  retired : ∀ id f f', m.method? id = some f → t.model.method? id = some f' → f'.name ≠ f.name →
    t.model.Retired id

theorem Recording.start (hfree : m.PropertyFree) {order : List ClassId} (hnodup : order.Nodup)
    (hmem : ∀ d, d ∈ order ↔ d < m.classes.length ∧ m.IsDefinition d) :
    m.Recording y (.start m) order := by
  refine ⟨.start hfree hnodup hmem, ⟨[], .start m, rfl⟩, fun id f f' hf hf' hne => ?_⟩
  obtain rfl := Option.some.inj (hf.symm.trans hf')
  exact absurd rfl hne

theorem Recording.step (hfree : m.PropertyFree) {t : Progress} {rest : List ClassId}
    (h : m.Recording y t (c :: rest)) (hvalid : t.model.Valid) (hout : t.model.outline = m.outline)
    (hk : t.model.class? c = some k) (hdef : t.model.IsDefinition c)
    (hp : t.model.Processed y c k ids s own vs) :
    m.Recording y
      (t.followedBy (((y.desk t.model k ids s own).settleAll c vs).progress t.model c)) rest := by
  obtain ⟨hfirst, rfl, hbuilt⟩ := h.building.builds hfree hvalid hk hdef hp
  obtain ⟨l, hl, hmap⟩ := h.ledger
  obtain ⟨l', hl', hmap'⟩ := hbuilt.ledger hfirst hl
  refine ⟨h.building.step hfree hvalid hout hk hdef hp, ⟨l', hl', by rw [hmap', hmap]; rfl⟩,
    fun id f f' hf hf' hne => ?_⟩
  obtain ⟨d, i⟩ := id
  by_cases hcd : d = c
  · subst hcd
    have hold : k.methods[i]? = some f := by rw [← hf, method?, hfirst, Option.bind_some]
    have hnew := (method?_putClass_self _ hk rfl).symm.trans hf'
    exact h.building.retired_of_renamed hbuilt hfirst hold hnew hne
  · have hsame := (method?_putClass_ne t.model _ hcd).symm.trans hf'
    exact hp.retired hvalid hk (h.retired _ f f' hf hsame hne)

theorem Valid.run?_recording (hm : m.Valid) (hfree : m.PropertyFree) (y : Synthesis) :
    ∃ t, y.run? m = some t ∧ t.model.Valid ∧ m.Recording y t [] := by
  obtain ⟨t, ht, hvalid, -, h⟩ := hm.run?_induction y (m.Recording y)
    (fun _ hnodup hmem => .start hfree hnodup hmem)
    (fun _ _ _ _ _ _ _ _ h hvalid hout hk hdef hp => h.step hfree hvalid hout hk hdef hp)
  exact ⟨t, ht, hvalid, h⟩

/-- The records of a run can be assigned one to one to members that make room for a property, so that
those of each member lead from its name before the run to its name after it. A member has none just
in case it has kept its name, and a method that has some is retired, whatever the model evolves
to. -/
theorem run_ledger (m : Model) (hm : m.Valid) (hfree : m.PropertyFree) (y : Synthesis) :
    ∃ t l, y.run? m = some t ∧ l.map (·.record) = t.renames ∧
      (l.map fun e => (e.member, e.property)).Nodup ∧ Ledger.Tells l m t.model ∧
      (∀ μ n n', m.nameOf? μ = some n → t.model.nameOf? μ = some n' → (l.of μ = [] ↔ n' = n)) ∧
      ∀ c i, l.of ⟨c, .method, i⟩ ≠ [] → ∀ m', t.model.Evolves m' → m'.Retired ⟨c, i⟩ := by
  obtain ⟨t, ht, hvalid, h⟩ := hm.run?_recording hfree y
  obtain ⟨l, hl, hmap⟩ := h.ledger
  refine ⟨t, l, ht, hmap, hl.nodup_steps, hl, fun μ n n' => hl.of_eq_nil_iff,
    fun c i hne m' hevolves => ?_⟩
  obtain ⟨r, hr⟩ := List.exists_mem_of_ne_nil _ hne
  obtain ⟨e, he, hmember, -⟩ := Ledger.mem_of.1 hr
  obtain ⟨n, n', hn, hn'⟩ := hl.exists_names he
  rw [hmember] at hn hn'
  have hrenamed := mt (hl.of_eq_nil_iff hn hn').2 hne
  rw [nameOf?_method, Option.map_eq_some_iff] at hn hn'
  obtain ⟨f, hf, rfl⟩ := hn
  obtain ⟨f', hf', rfl⟩ := hn'
  exact ((h.retired _ f f' hf hf' hrenamed).evolves hvalid hevolves).2

/-- A property after which a method and an event are renamed, and two more for which they make room
again. -/
def banner : Model :=
  let int := QualifiedType.plain (.builtin .int)
  let twice := { Method.plain "width" int with
    parameters := [⟨"scale", .regular, int⟩, ⟨"offset", .regular, int⟩] }
  .ofMembers [.plain "getWidth" int, .plain "getGetWidth" int, .plain "onWidth" int, twice]
    [⟨"width", 0⟩]

theorem run_ledger_banner : banner.Valid ∧ banner.PropertyFree ∧
    (Synthesis.withoutVerbs.run? banner).map (fun t => t.renames.map (·.newName)) =
      some ["getWidth", "onWidth", "getGetWidth", "onOnWidth"] ∧
    ∃ t l, Synthesis.withoutVerbs.run? banner = some t ∧ l.map (·.record) = t.renames ∧
      (l.map fun e => (e.member, e.property)).Nodup ∧ Ledger.Tells l banner t.model ∧
      (∀ μ n n', banner.nameOf? μ = some n → t.model.nameOf? μ = some n' →
        (l.of μ = [] ↔ n' = n)) ∧
      ∀ c i, l.of ⟨c, .method, i⟩ ≠ [] → ∀ m', t.model.Evolves m' → m'.Retired ⟨c, i⟩ :=
  have hvalid : banner.Valid := by decide
  have hfree : banner.PropertyFree := by decide
  ⟨hvalid, hfree, by decide, run_ledger banner hvalid hfree .withoutVerbs⟩

end Model
end ApiProperties

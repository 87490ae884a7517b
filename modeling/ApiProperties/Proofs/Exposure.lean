import ApiProperties.Proofs.Outcome

/-!
What new properties do to the names of a class's members. A member is exposed to the name of every
property that is committed while the member is emitted: a method that was taken in, from when it is
given back, and an event all the time. Whether it has to make room twice can be read off the records.
-/

set_option autoImplicit false

namespace ApiProperties

/-- Where a member of class `c` stands, a method or an event, and how it makes room. -/
structure Place (c : ClassId) (α : Type) where
  get : Class → Option α
  /-- The method, if it is one. -/
  id? : Option MethodId
  kind : MemberKind
  displacedName : String → String
  clashes : String → α → Bool
  makeRoom : String → α → α
  get_tag : ∀ k : Class, k.id = c → ∀ ids : List MethodId, (∀ id, id? = some id → id ∉ ids) →
    ∀ g, get (k.tag ids g) = get k
  get_makeRoom : ∀ n k, get (k.makeRoom n) = (get k).map (makeRoom n)
  get_addProperty : ∀ p k, get (k.addProperty p) = get k
  recorded : ∀ {n k x}, get k = some x → clashes n x = true →
    ⟨k.name, kind, n, displacedName n⟩ ∈ k.displaced n
  stays : ∀ {n x}, clashes n x = false → makeRoom n x = x
  renamed : ∀ {n x}, clashes n x = true → ∀ n', clashes n' (makeRoom n x) = (displacedName n == n')
  named : ∀ {n x}, clashes n x = true → ∀ n', clashes n' x = (n == n')

namespace Method
variable {f : Method} {n : String}

theorem clashesWith_iff : f.clashesWith n = true ↔ f.isGenerated = true ∧ f.name = n := by
  simp [clashesWith]

theorem clashesWith_makeRoom (h : f.clashesWith n = true) (n' : String) :
    (f.makeRoom n).clashesWith n' = (displacedMethodName n == n') := by
  have hgen := (clashesWith_iff.1 h).1
  rw [makeRoom, if_pos h]
  simp only [clashesWith, isGenerated] at hgen ⊢
  rw [hgen, Bool.true_and]

end Method

def methodPlace (c : ClassId) (i : Nat) : Place c Method where
  get k := k.methods[i]?
  id? := some ⟨c, i⟩
  kind := .method
  displacedName := displacedMethodName
  clashes := Method.clashesWith
  makeRoom := Method.makeRoom
  get_tag := by
    intro k hk ids hids g
    simp [hk, hids ⟨c, i⟩ rfl]
  get_makeRoom := by simp [Class.makeRoom]
  get_addProperty _ _ := rfl
  recorded := by
    intro n k f hf hclash
    have hname := (Method.clashesWith_iff.1 hclash).2
    refine List.mem_append_left _ (List.mem_map.2 ⟨f, ?_, by rw [hname]⟩)
    exact List.mem_filter.2 ⟨List.mem_of_getElem? hf, hclash⟩
  stays h := by simp [Method.makeRoom, h]
  renamed := Method.clashesWith_makeRoom
  named := by
    intro n f h n'
    obtain ⟨hgen, hname⟩ := Method.clashesWith_iff.1 h
    simp [Method.clashesWith, hgen, hname]

def eventPlace (c : ClassId) (i : Nat) : Place c Event where
  get k := k.events[i]?
  id? := none
  kind := .event
  displacedName := displacedEventName
  clashes := Event.clashesWith
  makeRoom := Event.makeRoom
  get_tag _ _ _ _ _ := rfl
  get_makeRoom := by simp [Class.makeRoom]
  get_addProperty _ _ := rfl
  recorded := by
    intro n k e he hclash
    have hname : e.name = n := by simpa [Event.clashesWith] using hclash
    refine List.mem_append_right _ (List.mem_map.2 ⟨e, ?_, by rw [hname]⟩)
    exact List.mem_filter.2 ⟨List.mem_of_getElem? he, hclash⟩
  stays h := by simp [Event.makeRoom, h]
  renamed := by
    intro n e h n'
    rw [Event.makeRoom, if_pos h, Event.clashesWith]
  named := by
    intro n e h n'
    have hname : e.name = n := by simpa [Event.clashesWith] using h
    rw [Event.clashesWith, hname]

namespace Place
variable {c : ClassId} {α : Type} (P : Place c α) {x : α} {n : String} {l l₁ l₂ : List String}

/-- The member after it has made room for one name after the other. -/
def makeRooms (l : List String) (x : α) : α := l.foldl (fun x n => P.makeRoom n x) x

@[simp] theorem makeRooms_nil : P.makeRooms [] x = x := rfl

@[simp] theorem makeRooms_cons : P.makeRooms (n :: l) x = P.makeRooms l (P.makeRoom n x) := rfl

theorem makeRooms_append : P.makeRooms (l₁ ++ l₂) x = P.makeRooms l₂ (P.makeRooms l₁ x) :=
  List.foldl_append

theorem makeRooms_of_stays (h : ∀ n ∈ l, P.clashes n x = false) : P.makeRooms l x = x := by
  induction l with
  | nil => rfl
  | cons n rest ih =>
    obtain ⟨hn, hrest⟩ := List.forall_mem_cons.1 h
    rw [makeRooms_cons, P.stays hn, ih hrest]

/-- A name that the member does not have when it comes up makes no difference. -/
theorem makeRooms_skip (h : P.clashes n (P.makeRooms l₁ x) = false) :
    P.makeRooms (l₁ ++ n :: l₂) x = P.makeRooms (l₁ ++ l₂) x := by
  rw [makeRooms_append, makeRooms_append, makeRooms_cons, P.stays h]

theorem makeRooms_of_renamed (h : P.clashes n x = true) (hl : P.displacedName n ∉ l) :
    P.makeRooms l (P.makeRoom n x) = P.makeRoom n x := by
  refine P.makeRooms_of_stays fun n' hn' => ?_
  rw [P.renamed h, beq_eq_false_iff_ne]
  rintro rfl
  exact hl hn'

/-- If it makes room once only, it may as well do so last. -/
theorem makeRoom_makeRooms (h : P.clashes n x = true) (hl : P.displacedName n ∉ l) :
    P.makeRoom n (P.makeRooms l x) = P.makeRoom n x := by
  induction l with
  | nil => rfl
  | cons n' rest ih =>
    rw [List.mem_cons, not_or] at hl
    rw [makeRooms_cons]
    by_cases hn : n = n'
    · subst hn
      rw [P.makeRooms_of_renamed h hl.2]
      refine P.stays ?_
      rw [P.renamed h, beq_eq_false_iff_ne]
      exact hl.1
    · have hstays : P.clashes n' x = false := by
        rw [P.named h, beq_eq_false_iff_ne]
        exact hn
      rw [P.stays hstays, ih hl.2]

/-- A name can come up later than it did, for a member that is not renamed to it or away from the
name that it gets for it. -/
theorem makeRooms_insert
    (hearly : P.clashes n (P.makeRooms l₁ x) = true → P.displacedName n ∉ l₂)
    (hlate : P.clashes n (P.makeRooms l₁ x) = false →
      P.clashes n (P.makeRooms (l₁ ++ l₂) x) = false) :
    P.makeRooms (l₁ ++ n :: l₂) x = P.makeRoom n (P.makeRooms (l₁ ++ l₂) x) := by
  cases h : P.clashes n (P.makeRooms l₁ x) with
  | false => rw [P.makeRooms_skip h, P.stays (hlate h)]
  | true =>
    rw [makeRooms_append, makeRooms_append, makeRooms_cons, P.makeRooms_of_renamed h (hearly h),
      P.makeRoom_makeRooms h (hearly h)]

/-- A member that has made room got its name when it did. -/
theorem exists_renaming (h : P.clashes n (P.makeRooms l x) = true) :
    P.makeRooms l x = x ∨ ∃ l₁ n' l₂, l = l₁ ++ n' :: l₂ ∧
      P.clashes n' (P.makeRooms l₁ x) = true ∧ P.displacedName n' = n := by
  induction l generalizing x with
  | nil => exact .inl rfl
  | cons n' rest ih =>
    rw [makeRooms_cons] at h ⊢
    rcases ih h with hsame | ⟨l₁, n₁, l₂, rfl, hclash, hname⟩
    · rw [hsame] at h ⊢
      cases hn : P.clashes n' x with
      | false => exact .inl (P.stays hn)
      | true =>
        rw [P.renamed hn, beq_iff_eq] at h
        exact .inr ⟨[], n', rest, rfl, hn, h⟩
    · exact .inr ⟨n' :: l₁, n₁, l₂, rfl, hclash, hname⟩

end Place

/-! ### Exposure while the pending properties are settled -/

/-- The names of the properties that the verdicts keep, in this order. -/
def keptNames (vs : List (Property × Option Property)) : List String :=
  (vs.filterMap (·.2)).map (·.name)

theorem keptNames_append (us vs : List (Property × Option Property)) :
    keptNames (us ++ vs) = keptNames us ++ keptNames vs := by
  simp [keptNames]

namespace Desk
variable {c : ClassId} {d : Desk} {us vs : List (Property × Option Property)}

theorem settleAll_append : d.settleAll c (us ++ vs) = (d.settleAll c us).settleAll c vs :=
  List.foldl_append

@[simp] theorem name_settle (p : Property) (v : Option Property) :
    (d.settle c p v).cls.name = d.cls.name := by
  cases v <;> rfl

@[simp] theorem name_settleAll : (d.settleAll c vs).cls.name = d.cls.name :=
  settleAll_induction (fun e => e.cls.name = d.cls.name)
    (fun v _ e he => (e.name_settle v.1 v.2).trans he) rfl

@[simp] theorem id_settleAll : (d.settleAll c vs).cls.id = d.cls.id :=
  settleAll_induction (fun e => e.cls.id = d.cls.id)
    (fun v _ e he => (e.id_settle v.1 v.2).trans he) rfl

theorem mem_renames_settleAll {r : RenameRecord} (h : r ∈ d.renames) :
    r ∈ (d.settleAll c vs).renames :=
  settleAll_induction (fun e => r ∈ e.renames)
    (fun v _ e he => by
      cases v with
      | mk p v =>
        cases v with
        | none => exact he
        | some q => exact List.mem_append_left _ he) h

variable {α : Type} (P : Place c α)

theorem get_settle (hid : d.cls.id = c) {p : Property} {v : Option Property}
    (hv : ∀ id, P.id? = some id → id ∉ p.accessors) :
    P.get (d.settle c p v).cls = (P.get d.cls).map (P.makeRooms (v.toList.map (·.name))) := by
  cases v with
  | none =>
    have hsame : P.makeRooms [] = id := rfl
    simp [settle, giveBack, P.get_tag d.cls hid p.accessors hv, hsame]
  | some q =>
    have htag := P.get_tag d.cls hid (p.lost q)
      (fun id hid hmem => hv id hid (Model.lost_subset p q hmem)) .generate
    simp only [settle, giveBack, commit, P.get_addProperty, P.get_makeRoom, htag,
      Option.toList_some, List.map_cons, List.map_nil]
    rfl

end Desk

/-- From some pending property on, the member is exposed to the names in `l`, and `x` is the member as
it is then. -/
structure Place.Exposed {c : ClassId} {α : Type} (P : Place c α) (d : Desk)
    (vs : List (Property × Option Property)) (x : α) (l : List String) : Prop where
  owner : d.cls.id = c
  since : ∃ us ws, vs = us ++ ws ∧ P.get (d.settleAll c us).cls = some x ∧
    (∀ id, P.id? = some id → ∀ v ∈ ws, id ∉ v.1.accessors) ∧ l = keptNames ws

namespace Place
variable {c : ClassId} {α : Type} {P : Place c α} {d : Desk}
  {vs : List (Property × Option Property)} {x : α} {l l₁ l₂ : List String} {n : String}

theorem get_settleAll_map (hid : d.cls.id = c)
    (hvs : ∀ id, P.id? = some id → ∀ v ∈ vs, id ∉ v.1.accessors) :
    P.get (d.settleAll c vs).cls = (P.get d.cls).map (P.makeRooms (keptNames vs)) := by
  induction vs generalizing d with
  | nil =>
    have hsame : P.makeRooms [] = id := rfl
    simp [keptNames, hsame]
  | cons v rest ih =>
    have hget := d.get_settle P hid (v := v.2) fun id h => hvs id h v List.mem_cons_self
    have hnames : keptNames (v :: rest) = v.2.toList.map (·.name) ++ keptNames rest := by
      cases hv : v.2 <;> simp [keptNames, hv]
    rw [Desk.settleAll_cons, ih (by simpa using hid) fun id h w hw =>
      hvs id h w (List.mem_cons_of_mem v hw), hget, Option.map_map, hnames]
    congr 1
    funext x
    exact P.makeRooms_append.symm

theorem get_settleAll (hid : d.cls.id = c) (hx : P.get d.cls = some x)
    (hvs : ∀ id, P.id? = some id → ∀ v ∈ vs, id ∉ v.1.accessors) :
    P.get (d.settleAll c vs).cls = some (P.makeRooms (keptNames vs) x) := by
  rw [get_settleAll_map hid hvs, hx, Option.map_some]

namespace Exposed

theorem get_eq (h : P.Exposed d vs x l) : P.get (d.settleAll c vs).cls = some (P.makeRooms l x) := by
  obtain ⟨hid, us, ws, rfl, hx, hfree, rfl⟩ := h
  rw [Desk.settleAll_append]
  exact get_settleAll (by simpa using hid) hx hfree

theorem drop (h : P.Exposed d vs x (l₁ ++ l₂)) : P.Exposed d vs (P.makeRooms l₁ x) l₂ := by
  obtain ⟨hid, us, ws, rfl, hx, hfree, hl⟩ := h
  obtain ⟨qs, qs', hqs, rfl, rfl⟩ := List.append_eq_map_iff.1 hl
  obtain ⟨ws₁, ws₂, rfl, rfl, rfl⟩ := List.filterMap_eq_append_iff.1 hqs
  refine ⟨hid, us ++ ws₁, ws₂, (List.append_assoc ..).symm, ?_, fun id h v hv =>
    hfree id h v (List.mem_append_right _ hv), rfl⟩
  rw [Desk.settleAll_append]
  exact get_settleAll (by simpa using hid) hx fun id h v hv =>
    hfree id h v (List.mem_append_left _ hv)

/-- When the name that comes up is the member's, there is a record of it. -/
theorem recorded (h : P.Exposed d vs x (n :: l)) (hclash : P.clashes n x = true) :
    ⟨d.cls.name, P.kind, n, P.displacedName n⟩ ∈ (d.settleAll c vs).renames := by
  obtain ⟨hid, us, ws, rfl, hx, hfree, hl⟩ := h
  obtain ⟨q, qs, hqs, rfl, rfl⟩ := List.map_eq_cons_iff.1 hl.symm
  obtain ⟨ws₁, v, ws₂, rfl, hnone, hv, rfl⟩ := List.filterMap_eq_cons_iff.1 hqs
  have hnil : keptNames ws₁ = [] := by simp [keptNames, List.filterMap_eq_nil_iff.2 hnone]
  have hbefore : P.get (d.settleAll c (us ++ ws₁)).cls = some x := by
    rw [Desk.settleAll_append]
    have hget : P.get ((d.settleAll c us).settleAll c ws₁).cls =
        some (P.makeRooms (keptNames ws₁) x) :=
      get_settleAll (by simpa using hid) hx fun id h w hw => hfree id h w (List.mem_append_left _ hw)
    rwa [hnil, makeRooms_nil] at hget
  have hlost : ∀ id, P.id? = some id → id ∉ v.1.lost q := fun id h hmem =>
    hfree id h v (by simp) (Model.lost_subset v.1 q hmem)
  have hget := P.get_tag (d.settleAll c (us ++ ws₁)).cls (by simpa using hid) (v.1.lost q) hlost
    .generate
  have hrecord := P.recorded (hget.trans hbefore) hclash
  rw [← List.append_assoc, Desk.settleAll_append, Desk.settleAll_cons, hv]
  refine Desk.mem_renames_settleAll (List.mem_append_right _ ?_)
  simpa [Desk.giveBack, Class.tag] using hrecord

end Exposed
end Place

/-! ### Renaming once -/

/-- No member of a class of this name was renamed, and then once more. -/
def RenamedOnce (className : String) (rs : List RenameRecord) : Prop :=
  ∀ r ∈ rs, ∀ r' ∈ rs, r.className = className → r'.className = className →
    r.member = r'.member → r.newName ≠ r'.oldName

instance (className : String) (rs : List RenameRecord) : Decidable (RenamedOnce className rs) :=
  inferInstanceAs (Decidable (∀ r ∈ rs, ∀ r' ∈ rs, _))

theorem RenamedOnce.mono {className : String} {rs rs' : List RenameRecord}
    (h : RenamedOnce className rs') (hsub : ∀ r ∈ rs, r ∈ rs') : RenamedOnce className rs :=
  fun r hr r' hr' => h r (hsub r hr) r' (hsub r' hr')

namespace Place.Exposed
variable {c : ClassId} {α : Type} {P : Place c α} {d : Desk}
  {vs : List (Property × Option Property)} {x : α} {l l₁ l₂ : List String} {n : String}

/-- A name makes no difference if nothing on record had it. -/
theorem makeRooms_skip (h : P.Exposed d vs x (l₁ ++ n :: l₂))
    (hfree : ∀ r ∈ (d.settleAll c vs).renames, r.className = d.cls.name → r.oldName ≠ n) :
    P.makeRooms (l₁ ++ n :: l₂) x = P.makeRooms (l₁ ++ l₂) x := by
  refine P.makeRooms_skip (Bool.eq_false_iff.2 fun hclash => ?_)
  exact hfree _ (h.drop.recorded hclash) rfl rfl

/-- A member that was renamed to a name was so on record. -/
theorem exists_record (h : P.Exposed d vs x l) (hclash : P.clashes n (P.makeRooms l x) = true) :
    P.makeRooms l x = x ∨
      ∃ n', ⟨d.cls.name, P.kind, n', n⟩ ∈ (d.settleAll c vs).renames := by
  rcases P.exists_renaming hclash with hsame | ⟨l₁, n', l₂, rfl, hearlier, rfl⟩
  · exact .inl hsame
  · exact .inr ⟨n', h.drop.recorded hearlier⟩

/-- A member that makes room does not meet the name it gets for it, unless it is renamed twice. -/
theorem displacedName_notMem (h : P.Exposed d vs x (n :: l))
    (honce : RenamedOnce d.cls.name (d.settleAll c vs).renames) (hclash : P.clashes n x = true) :
    P.displacedName n ∉ l := by
  intro hmem
  obtain ⟨m₁, m₂, rfl, hfirst⟩ := List.eq_append_cons_of_mem hmem
  have hlater : P.Exposed d vs (P.makeRooms (n :: m₁) x) (P.displacedName n :: m₂) := h.drop
  rw [makeRooms_cons, P.makeRooms_of_renamed hclash hfirst] at hlater
  have hrecord := hlater.recorded (by rw [P.renamed hclash, beq_self_eq_true])
  exact honce _ (h.recorded hclash) _ hrecord rfl rfl rfl rfl

end Place.Exposed
end ApiProperties

import ApiProperties.Proofs.Assembly

/-!
Attaching methods one after the other, whatever they are: methods of other classes, methods that do
not fit the role, or the same method again. `Pending.Placed` says where a method goes. Wherever it
goes, it takes a free half of one property, and no accessor that was bound before is lost.
-/

set_option autoImplicit false

namespace ApiProperties

namespace Model
variable {m m' : Model} {c : ClassId} {id : MethodId} {f : Method} {a : Accessor} {p : Property}

/-- The properties that the class has. -/
def committed (m : Model) (c : ClassId) : List Property :=
  ((m.class? c).map (·.properties)).getD []

theorem committed_of_class? {k : Class} (hk : m.class? c = some k) :
    m.committed c = k.properties := by
  simp [committed, hk]

theorem committed_retag (id : MethodId) (g : Generation) (d : ClassId) :
    (m.retag id g).committed d = m.committed d := by
  rw [committed, committed, retag, modifyMethod, class?_modifyClass]
  split
  · rw [Option.map_map]
    rfl
  · rfl

theorem committed_modifyProperty (c d : ClassId) (i : Nat) (g : Property → Property) :
    (m.modifyClass c (·.modifyProperty i g)).committed d =
      if c = d then (m.committed d).modify i g else m.committed d := by
  rw [committed, committed, class?_modifyClass]
  split
  · cases m.class? d <;> simp [Class.modifyProperty]
  · rfl

/-- A property is completed and the method tagged. -/
theorem committed_completed (c : ClassId) (i : Nat) (g : Property → Property) (id : MethodId)
    (t : Generation) : ((m.modifyClass c (·.modifyProperty i g)).retag id t).committed c =
      (m.committed c).modify i g := by
  rw [committed_retag, committed_modifyProperty, if_pos rfl]

theorem method?_modifyProperty (c : ClassId) (i : Nat) (g : Property → Property) (j : MethodId) :
    (m.modifyClass c (·.modifyProperty i g)).method? j = m.method? j := by
  rw [method?, method?, class?_modifyClass]
  split
  · cases m.class? j.owner <;> rfl
  · rfl

theorem method?_retag (id : MethodId) (g : Generation) (j : MethodId) :
    (m.retag id g).method? j =
      (m.method? j).map fun f => if j = id then { f with generation := g } else f := by
  rw [retag, method?_modifyMethod]
  by_cases h : id = j
  · simp [h]
  · simp [h, Ne.symm h]

theorem hasClass_modifyClass (c : ClassId) (g : Class → Class) (d : ClassId) :
    (m.modifyClass c g).hasClass d = m.hasClass d := by
  simp [hasClass, modifyClass]

/-! ### The access of a property -/

/-- The least restrictive access among the methods. -/
def widestAccess (m : Model) (ids : List MethodId) : Access :=
  ((ids.filterMap m.method?).map (·.access)).foldr Access.widest Access.priv

theorem widestAccess_cons (hf : m.method? id = some f) (ids : List MethodId) :
    m.widestAccess (id :: ids) = f.access.widest (m.widestAccess ids) := by
  simp [widestAccess, hf]

theorem widestAccess_perm {ids ids' : List MethodId} (h : ids.Perm ids') :
    m.widestAccess ids = m.widestAccess ids' := by
  refine ((h.filterMap m.method?).map (·.access)).foldr_eq' (fun a _ b _ c => ?_) Access.priv
  rw [← Access.widest_assoc, Access.widest_comm b a, Access.widest_assoc]

theorem widestAccess_congr
    (h : ∀ id, (m'.method? id).map (·.access) = (m.method? id).map (·.access))
    (ids : List MethodId) : m'.widestAccess ids = m.widestAccess ids := by
  have hmap : ∀ n : Model, (ids.filterMap n.method?).map (·.access) =
      ids.filterMap fun id => (n.method? id).map (·.access) := fun n => List.map_filterMap
  rw [widestAccess, widestAccess, hmap, hmap, funext h]

/-- What holds of every pending property: it rests on its accessors alone, and is just as visible
as the most visible of them. -/
structure Supported (m : Model) (c : ClassId) (p : Property) : Prop where
  accessors : p.accessors ≠ []
  links : ∀ id ∈ p.accessors, m.hasMethod id = true
  field : p.field = none
  owner : p.owner = c
  access : p.access = m.widestAccess p.accessors

theorem supported_single (hf : m.method? id = some f) (a : Accessor) :
    m.Supported c (.single c id f a) := by
  have haccess : m.widestAccess [id] = f.access := by
    rw [widestAccess_cons hf]
    cases f.access <;> rfl
  refine ⟨by simp, fun j hj => ?_, by simp [Property.single, Property.plain],
    by simp [Property.single, Property.plain], ?_⟩
  · rw [Property.accessors_single, List.mem_singleton] at hj
    exact hj ▸ hasMethod_iff.2 ⟨f, hf⟩
  · rw [Property.accessors_single, haccess]
    simp [Property.single, Property.plain]

theorem Supported.attach (h : m.Supported c p) (hf : m.method? id = some f)
    (hfree : p.half a.role = none) : m.Supported c (p.attach id f a) := by
  have hperm := accessors_attach_perm id f hfree
  refine ⟨fun hnil => ?_, fun j hj => ?_, by simp [h.field], by simp [h.owner], ?_⟩
  · simp [hnil] at hperm
  · rcases List.mem_cons.1 (hperm.mem_iff.1 hj) with rfl | hj
    · exact hasMethod_iff.2 ⟨f, hf⟩
    · exact h.links j hj
  · rw [Property.access_attach, widestAccess_perm hperm, widestAccess_cons hf, h.access,
      Access.widest_comm]

theorem Supported.congr (h : m.Supported c p)
    (hsame : ∀ id, (m'.method? id).map (·.access) = (m.method? id).map (·.access)) :
    m'.Supported c p := by
  refine ⟨h.accessors, fun j hj => ?_, h.field, h.owner, ?_⟩
  · have hj' := congrArg Option.isSome (hsame j)
    rw [Option.isSome_map, Option.isSome_map] at hj'
    exact hj'.trans (h.links j hj)
  · rw [h.access, widestAccess_congr hsame]

end Model

/-! ### One method -/

namespace Pending

/-- Where the method goes: to a property that the class has, else to a pending one, else to a new
one. -/
inductive Placed (s : Pending) (n : Model) (id : MethodId) (f : Method) (a : Accessor) :
    Pending → Model → Slot → Prop
  | complete {i : Nat} {p : Property} (hp : (n.committed s.owner)[i]? = some p)
      (hc : completable? n id a p = some true)
      (hi : firstIndex? (completable? n id a) (n.committed s.owner) = some (some i)) :
      Placed s n id f a { s with completed := s.completed ++ [i] }
        ((n.modifyClass s.owner (·.modifyProperty i (·.attach id f a))).retag id .internal)
        (.existing i)
  | join {i : Nat} {p : Property}
      (hn : ∀ q ∈ n.committed s.owner, completable? n id a q = some false)
      (hp : s.properties[i]? = some p) (ha : n.accepts? id a p = some true)
      (hi : firstIndex? (n.accepts? id a) s.properties = some (some i)) :
      Placed s n id f a { s with properties := s.properties.modify i (·.attach id f a) }
        (n.retag id .internal) (.pending i)
  | create (hn : ∀ q ∈ n.committed s.owner, completable? n id a q = some false)
      (hn' : ∀ q ∈ s.properties, n.accepts? id a q = some false) :
      Placed s n id f a { s with properties := s.properties ++ [.single s.owner id f a] }
        (n.retag id .internal) (.pending s.properties.length)

/-- What is at a place. -/
def at? (s : Pending) (n : Model) : Slot → Option Property
  | .existing i => (n.committed s.owner)[i]?
  | .pending i => s.properties[i]?

/-- Every property is still at its place, with the accessors that it had. -/
def Keeps (s : Pending) (n : Model) (s' : Pending) (n' : Model) : Prop :=
  ∀ slot q, s.at? n slot = some q → ∃ p, s'.at? n' slot = some p ∧ p.Extends q

/-- The method fills a half at the place `slot` that was free, or is new there. No accessor makes
room for it, and nothing happens at any other place or to any other class. -/
structure Binds (s : Pending) (n : Model) (id : MethodId) (a : Accessor) (s' : Pending) (n' : Model)
    (slot : Slot) : Prop where
  bound : ∃ p, s'.at? n' slot = some p ∧ p.half a.role = some id
  free : ∀ q, s.at? n slot = some q → q.half a.role = none
  keeps : s.Keeps n s' n'
  others : ∀ slot', slot' ≠ slot → s'.at? n' slot' = s.at? n slot'
  elsewhere : ∀ d, d ≠ s.owner → n'.committed d = n.committed d

variable {s s' s'' : Pending} {n n' n'' : Model} {id : MethodId} {f : Method} {a : Accessor}
  {slot : Slot}

theorem Keeps.refl (s : Pending) (n : Model) : s.Keeps n s n := fun _ q hq => ⟨q, hq, .refl q⟩

theorem Keeps.trans (h : s.Keeps n s' n') (h' : s'.Keeps n' s'' n'') : s.Keeps n s'' n'' := by
  intro slot q hq
  obtain ⟨p, hp, hpq⟩ := h slot q hq
  obtain ⟨r, hr, hrp⟩ := h' slot p hp
  exact ⟨r, hr, hrp.trans hpq⟩

/-- On consistent links an attachment answers, in one of the three ways. -/
theorem attach?_total (hc : n.hasClass s.owner = true) (hf : n.method? id = some f) (a : Accessor)
    (hown : ∀ p ∈ n.committed s.owner, ∀ j ∈ p.accessors, n.hasMethod j = true)
    (hpending : ∀ p ∈ s.properties, ∀ j ∈ p.accessors, n.hasMethod j = true) :
    ∃ s' n' slot, s.attach? n id a = some (s', n', slot) ∧ s.Placed n id f a s' n' slot := by
  obtain ⟨k, hk⟩ := Model.hasClass_iff.1 hc
  have hcommitted := Model.committed_of_class? hk
  rcases firstIndex?_total fun p hp => Model.completable?_total hf a (hown p hp) with
    ⟨i, p, hi, hp, hc⟩ | ⟨hnone, hall⟩
  · exact ⟨_, _, _, by simp [attach?, hf, hk, ← hcommitted, hi], .complete hp hc hi⟩
  · rcases firstIndex?_total fun p hp => Model.accepts?_total hf a (hpending p hp) with
      ⟨i, p, hi, hp, ha⟩ | ⟨hnone', hall'⟩
    · exact ⟨_, _, _, by simp [attach?, hf, hk, ← hcommitted, hnone, hi], .join hall hp ha hi⟩
    · exact ⟨_, _, _, by simp [attach?, hf, hk, ← hcommitted, hnone, hnone', Property.single],
        .create hall hall'⟩

theorem Binds.of_slot {p : Property} (hp : s'.at? n' slot = some (p.attach id f a))
    (hold : ∀ q, s.at? n slot = some q → q = p ∧ p.half a.role = none)
    (hothers : ∀ slot', slot' ≠ slot → s'.at? n' slot' = s.at? n slot')
    (helsewhere : ∀ d, d ≠ s.owner → n'.committed d = n.committed d) :
    s.Binds n id a s' n' slot := by
  refine ⟨⟨_, hp, Property.half_attach p id f a⟩, fun q hq => ?_, fun slot' q hq => ?_, hothers,
    helsewhere⟩
  · obtain ⟨rfl, hfree⟩ := hold q hq
    exact hfree
  · by_cases hslot : slot' = slot
    · subst hslot
      obtain ⟨rfl, hfree⟩ := hold q hq
      exact ⟨_, hp, Property.extends_attach hfree⟩
    · exact ⟨q, (hothers slot' hslot).trans hq, .refl q⟩

namespace Placed
variable (h : s.Placed n id f a s' n' slot)
include h

theorem owner : s'.owner = s.owner := by
  cases h <;> rfl

theorem hasClass (d : ClassId) : n'.hasClass d = n.hasClass d := by
  cases h <;> simp [Model.retag, Model.modifyMethod, Model.hasClass_modifyClass]

theorem method? (j : MethodId) : n'.method? j =
    (n.method? j).map fun f => if j = id then { f with generation := .internal } else f := by
  cases h with
  | complete => rw [Model.method?_retag, Model.method?_modifyProperty]
  | join => exact Model.method?_retag id .internal j
  | create => exact Model.method?_retag id .internal j

theorem committed_ne (d : ClassId) (hd : d ≠ s.owner) : n'.committed d = n.committed d := by
  cases h with
  | complete => rw [Model.committed_retag, Model.committed_modifyProperty, if_neg (Ne.symm hd)]
  | join => exact Model.committed_retag id .internal d
  | create => exact Model.committed_retag id .internal d

/-- The class's own properties stay as they are, or one of them is completed. -/
theorem committed_cases :
    n'.committed s.owner = n.committed s.owner ∧ s'.completed = s.completed ∨
      ∃ i p, (n.committed s.owner)[i]? = some p ∧ n.Accepts id a p ∧
        n'.committed s.owner = (n.committed s.owner).modify i (·.attach id f a) ∧
        s'.completed = s.completed ++ [i] := by
  cases h with
  | @complete i p hp hc =>
    exact .inr ⟨i, p, hp, Model.accepts_of_completable? hc,
      Model.committed_completed s.owner i _ id .internal, rfl⟩
  | join => exact .inl ⟨Model.committed_retag id .internal s.owner, rfl⟩
  | create => exact .inl ⟨Model.committed_retag id .internal s.owner, rfl⟩

theorem access (j : MethodId) :
    (n'.method? j).map (·.access) = (n.method? j).map (·.access) := by
  rw [h.method?, Option.map_map]
  congr 1
  funext g
  by_cases hj : j = id <;> simp [hj]

theorem hasMethod (j : MethodId) : n'.hasMethod j = n.hasMethod j := by
  simpa [Model.hasMethod] using congrArg Option.isSome (h.access j)

theorem supported (hf : n.method? id = some f)
    (hs : ∀ p ∈ s.properties, n.Supported s.owner p) :
    ∀ p ∈ s'.properties, n'.Supported s.owner p := by
  have hsame : ∀ p, n.Supported s.owner p → n'.Supported s.owner p := fun p hp =>
    hp.congr h.access
  cases h with
  | complete => exact fun p hp => hsame p (hs p hp)
  | join _ hp ha =>
    intro q hq
    rcases mem_modify hp hq with rfl | hq
    · exact hsame _ ((hs _ (List.mem_of_getElem? hp)).attach hf (Model.accepts?_eq_true.1 ha).free)
    · exact hsame q (hs q hq)
  | create =>
    intro q hq
    rcases List.mem_append.1 hq with hq | hq
    · exact hsame q (hs q hq)
    · exact List.mem_singleton.1 hq ▸ hsame _ (Model.supported_single hf a)

theorem binds : s.Binds n id a s' n' slot := by
  have helsewhere := h.committed_ne
  cases h with
  | @complete i p hp hc =>
    have hown := Model.committed_completed (m := n) s.owner i (·.attach id f a) id .internal
    refine .of_slot (p := p) (f := f) ?_ (fun q hq => ?_) (fun slot' hslot => ?_) helsewhere
    · simp [at?, hown, hp]
    · exact ⟨Option.some.inj (hq.symm.trans hp), (Model.accepts_of_completable? hc).free⟩
    · cases slot' with
      | existing j =>
        have hij : i ≠ j := fun hij => hslot (hij ▸ rfl)
        simp [at?, hown, hij]
      | pending j => rfl
  | @join i p _ hp ha =>
    have hown := Model.committed_retag (m := n) id .internal s.owner
    refine .of_slot (p := p) (f := f) ?_ (fun q hq => ?_) (fun slot' hslot => ?_) helsewhere
    · simp [at?, hp]
    · exact ⟨Option.some.inj (hq.symm.trans hp), (Model.accepts?_eq_true.1 ha).free⟩
    · cases slot' with
      | existing j => simp [at?, hown]
      | pending j =>
        have hij : i ≠ j := fun hij => hslot (hij ▸ rfl)
        simp [at?, hij]
  | create =>
    have hown := Model.committed_retag (m := n) id .internal s.owner
    refine .of_slot (p := .plain a.name a.type s.owner f.access) (f := f) ?_ (fun q hq => ?_)
      (fun slot' hslot => ?_) helsewhere
    · simp [at?, Property.single]
    · simp [at?] at hq
    · cases slot' with
      | existing j => simp [at?, hown]
      | pending j =>
        have hj : j ≠ s.properties.length := fun hj => hslot (hj ▸ rfl)
        simp only [at?, List.getElem?_append]
        split
        · rfl
        · rw [List.getElem?_eq_none (by simp; omega), List.getElem?_eq_none (by omega)]

end Placed

/-! ### Any sequence of calls -/

/-- Attaches the methods one after the other. -/
def attachAll? (s : Pending) (m : Model) (calls : List (MethodId × Accessor)) :
    Option (Pending × Model) :=
  calls.foldlM (fun (s, m) (id, a) => (s.attach? m id a).map fun (s, m, _) => (s, m)) (s, m)

end Pending

/-- Of a class that had the properties `before` and has the properties `after`, those at these
positions are the ones that were changed. Each of them now has both accessors. -/
structure Completes (before after : List Property) (completed : List Nat) : Prop where
  nodup : completed.Nodup
  paired : ∀ i ∈ completed, ∃ p, after[i]? = some p ∧ p.getter.isSome ∧ p.setter.isSome
  changed : ∀ i, i ∈ completed ↔ after[i]? ≠ before[i]?

theorem Completes.attach {before after : List Property} {completed : List Nat}
    (h : Completes before after completed) {i : Nat} {p : Property} {id : MethodId} {f : Method}
    {a : Accessor} (hp : after[i]? = some p) (hfree : p.half a.role = none)
    (hpartner : (p.partner a.role).isSome) :
    Completes before (after.modify i (·.attach id f a)) (completed ++ [i]) := by
  have hnew : (after.modify i (·.attach id f a))[i]? = some (p.attach id f a) := by simp [hp]
  have hold : ∀ j, j ≠ i → (after.modify i (·.attach id f a))[j]? = after[j]? := fun j hj => by
    simp [Ne.symm hj]
  have hi : i ∉ completed := fun hmem => by
    obtain ⟨q, hq, hg, hs⟩ := h.paired i hmem
    obtain rfl := Option.some.inj (hp.symm.trans hq)
    cases hr : a.role <;> simp_all [Property.half]
  refine ⟨?_, fun j hj => ?_, fun j => ?_⟩
  · rw [← List.concat_eq_append]
    exact h.nodup.concat hi
  · by_cases hji : j = i
    · subst hji
      refine ⟨_, hnew, ?_⟩
      have hhalf := Property.half_attach p id f a
      have hother := Property.partner_attach p id f a
      cases hr : a.role <;> simp_all [Property.half, Property.partner]
    · rw [hold j hji]
      exact h.paired j ((List.mem_append.1 hj).resolve_right (by simpa using hji))
  · by_cases hji : j = i
    · subst hji
      -- the property was still the one of the start, and its half was free
      have hbefore : before[j]? = some p := by
        have hsame := not_not.1 (mt (h.changed j).2 hi)
        rw [← hsame, hp]
      have hne : p.attach id f a ≠ p := fun heq => by
        have hhalf := Property.half_attach p id f a
        rw [heq, hfree] at hhalf
        simp at hhalf
      simp [hnew, hbefore, hne]
    · rw [hold j hji, ← h.changed j]
      simp [hji]

namespace Model

/-- What holds once the methods `done` were attached for class `c`, starting from the model `m`. -/
structure Registered (m : Model) (c : ClassId) (done : List MethodId) (s : Pending) (n : Model) :
    Prop where
  owner : s.owner = c
  classes : ∀ d, n.hasClass d = m.hasClass d
  methods : ∀ j, n.method? j =
    (m.method? j).map fun f => if j ∈ done then { f with generation := .internal } else f
  others : ∀ d, d ≠ c → n.committed d = m.committed d
  links : ∀ p ∈ n.committed c, ∀ j ∈ p.accessors, n.hasMethod j = true
  pending : ∀ p ∈ s.properties, n.Supported c p
  completes : Completes (m.committed c) (n.committed c) s.completed

variable {m n n' : Model} {c : ClassId} {done : List MethodId} {s s' : Pending} {id : MethodId}
  {f : Method} {a : Accessor} {slot : Slot}

theorem Registered.start (hm : m.Valid) (c : ClassId) : m.Registered c [] (.empty c) m := by
  refine ⟨rfl, fun _ => rfl, fun j => ?_, fun _ _ => rfl, fun p hp j hj => ?_,
    by simp [Pending.empty], List.nodup_nil, by simp [Pending.empty], by simp [Pending.empty]⟩
  · simp
  · cases hk : m.class? c with
    | none => simp [committed, hk] at hp
    | some k =>
      rw [committed_of_class? hk] at hp
      exact ((hm.consistent hk).properties p hp).links j (List.mem_append_left _ hj)

/-- One more method is attached. -/
theorem Registered.step (h : m.Registered c done s n) (hf : n.method? id = some f)
    (hp : s.Placed n id f a s' n' slot) : m.Registered c (done ++ [id]) s' n' := by
  obtain rfl : s.owner = c := h.owner
  have hmethods : ∀ j, n'.method? j = (m.method? j).map fun f =>
      if j ∈ done ++ [id] then { f with generation := .internal } else f := fun j => by
    rw [hp.method?, h.methods, Option.map_map]
    congr 1
    funext g
    rcases eq_or_ne j id with rfl | hne
    · by_cases hj : j ∈ done <;> simp [hj]
    · simp [hne]
  have hothers : ∀ d, d ≠ s.owner → n'.committed d = m.committed d := fun d hd =>
    (hp.committed_ne d hd).trans (h.others d hd)
  have hclasses : ∀ d, n'.hasClass d = m.hasClass d := fun d => (hp.hasClass d).trans (h.classes d)
  have hpending := hp.supported hf h.pending
  rcases hp.committed_cases with ⟨hown, hcompleted⟩ | ⟨i, p, hi, ha, hown, hcompleted⟩
  · refine ⟨hp.owner, hclasses, hmethods, hothers, fun q hq j hj => ?_, hpending, ?_⟩
    · rw [hp.hasMethod]
      exact h.links q (hown ▸ hq) j hj
    · rw [hown, hcompleted]
      exact h.completes
  · obtain ⟨partnerId, -, -, hpartner, -⟩ := ha.fits
    refine ⟨hp.owner, hclasses, hmethods, hothers, fun q hq j hj => ?_, hpending, ?_⟩
    · rw [hp.hasMethod]
      rw [hown] at hq
      rcases mem_modify hi hq with rfl | hq
      · rcases (Property.mem_accessors_attach ha.free j).1 hj with rfl | hj
        · exact hasMethod_iff.2 ⟨f, hf⟩
        · exact h.links p (List.mem_of_getElem? hi) j hj
      · exact h.links q hq j hj
    · rw [hown, hcompleted]
      exact h.completes.attach hi ha.free (by simp [hpartner])

theorem Registered.attach? (h : m.Registered c done s n) (hc : m.hasClass c = true)
    (hid : m.hasMethod id = true) (a : Accessor) :
    ∃ s' n' slot, s.attach? n id a = some (s', n', slot) ∧ s.Binds n id a s' n' slot ∧
      m.Registered c (done ++ [id]) s' n' := by
  obtain ⟨f₀, hf₀⟩ := hasMethod_iff.1 hid
  obtain ⟨f, hf⟩ : ∃ f, n.method? id = some f := by
    rw [h.methods, hf₀]
    exact ⟨_, rfl⟩
  have howner : s.owner = c := h.owner
  obtain ⟨s', n', slot, hattach, hplaced⟩ := Pending.attach?_total (s := s)
    (by rw [howner, h.classes, hc]) hf a (howner ▸ h.links) fun p hp => (h.pending p hp).links
  exact ⟨s', n', slot, hattach, hplaced.binds, h.step hf hplaced⟩

theorem Registered.attachAll? (h : m.Registered c done s n) (hc : m.hasClass c = true)
    {calls : List (MethodId × Accessor)} (hcalls : ∀ call ∈ calls, m.hasMethod call.1 = true) :
    ∃ s' n', s.attachAll? n calls = some (s', n') ∧ s.Keeps n s' n' ∧
      m.Registered c (done ++ calls.map (·.1)) s' n' := by
  induction calls generalizing done s n with
  | nil => exact ⟨s, n, rfl, .refl s n, by simpa using h⟩
  | cons call rest ih =>
    obtain ⟨hid, hrest⟩ := List.forall_mem_cons.1 hcalls
    obtain ⟨s₁, n₁, slot, hattach, hbinds, h₁⟩ := h.attach? hc hid call.2
    obtain ⟨s', n', hrun, hkeeps, h'⟩ := ih h₁ hrest
    refine ⟨s', n', ?_, hbinds.keeps.trans hkeeps, by simpa using h'⟩
    rw [Pending.attachAll?] at hrun ⊢
    simp [hattach, hrun]

theorem Registered.internal (h : m.Registered c done s n) (hid : m.hasMethod id = true)
    (hmem : id ∈ done) : (n.method? id).map (·.generation) = some .internal := by
  obtain ⟨f, hf⟩ := hasMethod_iff.1 hid
  simp [h.methods, hf, hmem]

/-- Calls for one class lose no accessor: after any sequence of them the next call binds its method
where nothing was, and what is bound stays so through whatever calls follow. -/
theorem attachAll?_registered (m : Model) (hm : m.Valid) (c : ClassId) (hc : m.hasClass c = true)
    (calls : List (MethodId × Accessor)) (hcalls : ∀ call ∈ calls, m.hasMethod call.1 = true) :
    ∃ s n, (Pending.empty c).attachAll? m calls = some (s, n) ∧
      m.Registered c (calls.map (·.1)) s n ∧
      (∀ call ∈ calls, (n.method? call.1).map (·.generation) = some .internal) ∧
      (∀ id a, m.hasMethod id = true →
        ∃ s' n' slot, s.attach? n id a = some (s', n', slot) ∧ s.Binds n id a s' n' slot) ∧
      ∀ more : List (MethodId × Accessor), (∀ call ∈ more, m.hasMethod call.1 = true) →
        ∃ s' n', s.attachAll? n more = some (s', n') ∧ s.Keeps n s' n' := by
  obtain ⟨s, n, hrun, -, h⟩ := (Registered.start hm c).attachAll? hc hcalls
  rw [List.nil_append] at h
  refine ⟨s, n, hrun, h, fun call hcall => ?_, fun id a hid => ?_, fun more hmore => ?_⟩
  · exact h.internal (hcalls call hcall) (List.mem_map_of_mem hcall)
  · obtain ⟨s', n', slot, hattach, hbinds, -⟩ := h.attach? hc hid a
    exact ⟨s', n', slot, hattach, hbinds⟩
  · obtain ⟨s', n', hrun', hkeeps, -⟩ := h.attachAll? hc hmore
    exact ⟨s', n', hrun', hkeeps⟩

/-- A property without its setter, and a getter of another class. -/
def meter : Model :=
  let int := QualifiedType.plain (.builtin .int)
  let setter := { Method.plain "setCount" .void with parameters := [⟨"value", .regular, int⟩] }
  let count := { Property.plain "count" int 0 .prot with getter := some ⟨0, 0⟩ }
  ⟨"unit", [
    { Class.empty 0 "Meter" with
      methods := [.plain "getCount" int, setter], properties := [count] },
    { Class.empty 1 "Task" with
      methods := [{ Method.plain "isReady" (.plain (.builtin .bool)) with owner := 1 }] }]⟩

/-- Each method is attached twice, once in the role that it does not fit. -/
def meterCalls : List (MethodId × Accessor) :=
  let int := QualifiedType.plain (.builtin .int)
  let bool := QualifiedType.plain (.builtin .bool)
  [(⟨0, 1⟩, ⟨.setter, "count", int⟩), (⟨1, 0⟩, ⟨.getter, "isReady", bool⟩),
    (⟨1, 0⟩, ⟨.setter, "ready", bool⟩), (⟨0, 1⟩, ⟨.getter, "count", int⟩)]

/-- The getter of the other class is paired with itself. -/
theorem attachAll?_registered_meter : meter.Valid ∧ meter.hasClass 0 = true ∧
    (∀ call ∈ meterCalls, meter.hasMethod call.1 = true) ∧
    ((Pending.empty 0).attachAll? meter meterCalls).map
      (fun (s, _) => (s.properties.map (·.accessors), s.completed)) =
        some ([[⟨1, 0⟩, ⟨1, 0⟩], [⟨0, 1⟩]], [0]) ∧
    ∃ s n, (Pending.empty 0).attachAll? meter meterCalls = some (s, n) ∧
      meter.Registered 0 (meterCalls.map (·.1)) s n ∧
      (∀ call ∈ meterCalls, (n.method? call.1).map (·.generation) = some .internal) ∧
      (∀ id a, meter.hasMethod id = true →
        ∃ s' n' slot, s.attach? n id a = some (s', n', slot) ∧ s.Binds n id a s' n' slot) ∧
      ∀ more : List (MethodId × Accessor), (∀ call ∈ more, meter.hasMethod call.1 = true) →
        ∃ s' n', s.attachAll? n more = some (s', n') ∧ s.Keeps n s' n' :=
  have hvalid : meter.Valid := by decide
  have hclass : meter.hasClass 0 = true := by decide
  have hcalls : ∀ call ∈ meterCalls, meter.hasMethod call.1 = true := by decide
  ⟨hvalid, hclass, hcalls, by decide,
    attachAll?_registered meter hvalid 0 hclass meterCalls hcalls⟩

end Model
end ApiProperties

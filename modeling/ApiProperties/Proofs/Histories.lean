import ApiProperties.Proofs.Appending

/-!
Two histories of a class and a setter. In one the class is processed, then the setter is appended,
and the class is processed again; in the other the setter is there at once. They are compared by
three more facts: what the second processing would have done without the setter, which is nothing,
what was given back by the first one and still has its name, and who the setter is paired with.
-/

set_option autoImplicit false

namespace ApiProperties

theorem Place.makeRooms_or_excluded (c : ClassId) (x : Nat) (l : List String) (f : Method) :
    (methodPlace c x).makeRooms l f = f ∨
      ((methodPlace c x).makeRooms l f).excludedPasses.contains passName = true := by
  have hkeeps : ∀ (n : String) (g : Method), g.excludedPasses.contains passName = true →
      ((methodPlace c x).makeRoom n g).excludedPasses.contains passName = true := by
    intro n g hg
    change (g.makeRoom n).excludedPasses.contains passName = true
    rw [Method.makeRoom]
    split
    · simp [NameSet.contains_insert, hg]
    · exact hg
  have hfold : ∀ (l : List String) (g : Method), g.excludedPasses.contains passName = true →
      ((methodPlace c x).makeRooms l g).excludedPasses.contains passName = true := by
    intro l
    induction l with
    | nil => exact fun _ hg => hg
    | cons n rest ih => exact fun g hg => ih _ (hkeeps n g hg)
  induction l with
  | nil => exact .inl rfl
  | cons n rest ih =>
    rw [makeRooms_cons]
    cases hn : f.clashesWith n with
    | false => rwa [(methodPlace c x).stays hn]
    | true =>
      refine .inr (hfold rest _ ?_)
      change (f.makeRoom n).excludedPasses.contains passName = true
      simp [Method.makeRoom, hn, NameSet.contains_insert]

namespace Pass
variable {y : Synthesis} {c : ClassId} (P : Pass y c) {p : Property} {id : MethodId}

/-- The pending property was given up for its name, or dropped. -/
structure GivesBack (p : Property) : Prop where
  pending : p ∈ P.pending.properties
  back : y.dismisses P.model p = true ∨ P.verdict p = none

theorem fate (hp : p ∈ P.pending.properties) : P.GivesBack p ∨ ∃ q, (p, some q) ∈ P.verdicts := by
  cases hd : y.dismisses P.model p with
  | true => exact .inl ⟨hp, .inl hd⟩
  | false =>
    cases hv : P.verdict p with
    | none => exact .inl ⟨hp, .inr hv⟩
    | some q => exact .inr ⟨q, P.mem_verdicts.2 ⟨hp, hd, hv.symm⟩⟩

theorem pending_of_offered (hcompleted : P.pending.completed = []) (hid : id ∈ P.offered) :
    ∃ p ∈ P.pending.properties, id ∈ p.accessors := by
  have hperm := P.processed.assembly.perm
  rw [P.processed.assembly.own_eq_properties hcompleted, List.perm_append_left_iff] at hperm
  exact List.mem_flatMap.1 (hperm.mem_iff.2 hid)

variable {P}

theorem GivesBack.notMem (h : P.GivesBack p) (q : Property) : (p, some q) ∉ P.verdicts := by
  intro hv
  obtain ⟨-, hd, hverdict⟩ := P.mem_verdicts.1 hv
  rcases h.back with hback | hback
  · rw [hd] at hback
    cases hback
  · cases hverdict.trans hback

/-- A property that is given back has one accessor, and is what this one started. -/
theorem GivesBack.eq_single (h : P.GivesBack p) :
    ∃ id f a, P.model.Offers c id f a ∧ p = .single c id f a := by
  have hmade := P.wellMade h.pending
  have hone : ∃ id, p.accessors = [id] := by
    cases hg : p.getter with
    | none =>
      obtain ⟨s, hs⟩ := hmade.setter_of_getter_eq_none hg
      exact ⟨s, by simp [Property.accessors, hg, hs]⟩
    | some g =>
      cases hs : p.setter with
      | none => exact ⟨g, by simp [Property.accessors, hg, hs]⟩
      | some s =>
        rcases h.back with hd | hv
        · rw [P.dismisses_of_setter (by simp [hs])] at hd
          cases hd
        · rw [P.verdict_of_pair h.pending (by simp [hg]) (by simp [hs])] at hv
          cases hv
  obtain ⟨id, hid⟩ := hone
  obtain ⟨f, a, ho, hp⟩ := P.processed.assembly.eq_single h.pending hid
  rw [P.id_before] at ho hp
  exact ⟨id, f, a, ho, hp⟩

/-- A method that is given back is exposed to the new properties that come behind, or to all of them
if it was given up for its name. -/
theorem GivesBack.exposed (h : P.GivesBack p) {x : Nat} {f : Method}
    (hf : P.before.methods[x]? = some f) (hx : (⟨c, x⟩ : MethodId) ∈ p.accessors) :
    ∃ us ws, P.verdicts = us ++ ws ∧ (us = [] ∨ ∃ us₀, us = us₀ ++ [(p, none)]) ∧
      (methodPlace c x).Exposed P.desk P.verdicts f (keptNames ws) := by
  cases hd : y.dismisses P.model p with
  | true => exact ⟨[], P.verdicts, rfl, .inl rfl, P.exposed_of_dismissed hf h.pending hd hx⟩
  | false =>
    have hv : P.verdict p = none := h.back.resolve_left (by simp [hd])
    have hmem : (p, none) ∈ P.verdicts := P.mem_verdicts.2 ⟨h.pending, hd, hv.symm⟩
    obtain ⟨us, ws, hsplit⟩ := List.append_of_mem hmem
    exact ⟨us ++ [(p, none)], ws, by simp [hsplit], .inr ⟨us, rfl⟩,
      P.exposed_of_dropped hf hsplit hx⟩

end Pass

/-- Two histories of class `c` and method `f`: the class is processed first without the method, and
late with it, or once with it. Had it been processed again without the method, nothing would have
been done. -/
structure Histories (y : Synthesis) (c : ClassId) (f : Method) where
  first : Pass y c
  again : Pass y c
  late : Pass y c
  once : Pass y c
  free : first.before.properties = []
  resumed : again.before = first.after
  gainsLate : again.Gains late f
  gainsOnce : first.Gains once f
  outline : late.model.outline = once.model.outline
  isSetter : f.isSetter = true
  completes : again.pending.completed = []
  drops : ∀ v ∈ again.verdicts, v.2 = none

namespace Histories
variable {y : Synthesis} {c : ClassId} {f : Method} (H : Histories y c f) {p q : Property} {x : Nat}
  {f₀ : Method}

/-- The id of the method. -/
def id : MethodId := H.first.before.nextId

theorem first_own : H.first.own = [] := H.first.processed.assembly.own_eq_nil H.free

theorem first_completed : H.first.pending.completed = [] := by
  refine List.eq_nil_iff_forall_not_mem.2 fun i hi => ?_
  have hlt := H.first.processed.assembly.completed_lt i hi
  rw [H.first_own] at hlt
  exact Nat.not_lt_zero i hlt

theorem again_own : H.again.own = H.first.after.properties := by
  rw [← H.resumed]
  exact H.again.processed.assembly.own_eq_properties H.completes

theorem first_after_properties : H.first.after.properties = H.first.verdicts.filterMap (·.2) := by
  rw [H.first.after_properties, H.first_own]
  rfl

theorem nextId_again : H.again.before.nextId = H.id := by
  rw [Class.nextId, H.again.id_before, H.resumed, H.first.length_after, id, Class.nextId,
    H.first.id_before]

/-- What is offered again was given back by the first pass and has not been renamed. -/
theorem offered_again (hf : H.first.before.methods[x]? = some f₀)
    (hx : (⟨c, x⟩ : MethodId) ∈ H.again.offered) :
    H.first.after.methods[x]? = some f₀ ∧ ∃ p, H.first.GivesBack p ∧ ⟨c, x⟩ ∈ p.accessors := by
  obtain ⟨F, a, ho⟩ := (H.again.processed.all _).1 hx
  have hF : H.first.after.methods[x]? = some F := by
    rw [← H.resumed, ← H.again.method?_eq, ho.method]
  -- whoever was exposed and is a candidate has made room for nothing
  have hsame : ∀ l, (methodPlace c x).Exposed H.first.desk H.first.verdicts f₀ l → F = f₀ := by
    intro l hexposed
    obtain rfl := Option.some.inj (hF.symm.trans hexposed.get_eq)
    refine (Place.makeRooms_or_excluded c x l f₀).resolve_right fun hexcluded => ?_
    have hcandidate := ho.candidate
    simp [Method.isCandidate, hexcluded] at hcandidate
  by_cases hfirst : (⟨c, x⟩ : MethodId) ∈ H.first.offered
  · obtain ⟨p, hp, hmem⟩ := H.first.pending_of_offered H.first_completed hfirst
    rcases H.first.fate hp with hback | ⟨q, hq⟩
    · obtain ⟨-, ws, -, -, hexposed⟩ := hback.exposed hf hmem
      obtain rfl := hsame _ hexposed
      exact ⟨hF, p, hback, hmem⟩
    · have hkept := H.first.method_of_kept hf hq hmem
      obtain rfl := Option.some.inj (hF.symm.trans hkept)
      exact absurd ho.generation (by simp)
  · obtain rfl := hsame _ (H.first.exposed_of_free hf hfirst)
    refine absurd ((H.first.processed.all _).2 ⟨F, a, rfl, ?_, ho.candidate, ho.accessor⟩) hfirst
    rw [H.first.method?_eq, hf]

/-- What is pending again was given back, and nothing has become of its accessor. -/
theorem pending_again (hp : p ∈ H.again.pending.properties) : H.first.GivesBack p ∧
    ∃ x f₀, p.accessors = [⟨c, x⟩] ∧ H.first.before.methods[x]? = some f₀ ∧
      H.first.after.methods[x]? = some f₀ := by
  have hback : H.again.GivesBack p := (H.again.fate hp).resolve_right fun ⟨q, hq⟩ => by
    have hnone := H.drops _ hq
    cases hnone
  obtain ⟨id, F, a, ho, rfl⟩ := hback.eq_single
  obtain ⟨o, x⟩ := id
  obtain rfl : o = c := ho.owner
  have hoffered : (⟨o, x⟩ : MethodId) ∈ H.again.offered :=
    H.again.offered_of_accessor hp (by simp)
  have hF : H.first.after.methods[x]? = some F := by
    rw [← H.resumed, ← H.again.method?_eq, ho.method]
  obtain ⟨f₀, hf⟩ : ∃ f₀, H.first.before.methods[x]? = some f₀ := by
    have hlt := (List.getElem?_eq_some_iff.1 hF).1
    rw [H.first.length_after] at hlt
    exact ⟨_, List.getElem?_eq_getElem hlt⟩
  obtain ⟨hF', p, hfirst, hmem⟩ := H.offered_again hf hoffered
  obtain rfl := Option.some.inj (hF.symm.trans hF')
  obtain ⟨id', F', a', ho', rfl⟩ := hfirst.eq_single
  obtain rfl : (⟨o, x⟩ : MethodId) = id' := by simpa using hmem
  have hmethod := ho'.method
  rw [H.first.method?_eq, hf] at hmethod
  obtain rfl := Option.some.inj hmethod
  obtain rfl := Option.some.inj (ho.accessor.symm.trans ho'.accessor)
  exact ⟨hfirst, x, F, by simp, hf, hF⟩

/-- What was given back is pending again if its accessor has not been renamed. -/
theorem pending_again_of_back (hback : H.first.GivesBack p) (hx : (⟨c, x⟩ : MethodId) ∈ p.accessors)
    (hf : H.first.before.methods[x]? = some f₀) (hF : H.first.after.methods[x]? = some f₀) :
    p ∈ H.again.pending.properties := by
  obtain ⟨a, ho⟩ := H.first.offers_of_offered hf (H.first.offered_of_accessor hback.pending hx)
  have hoffered : (⟨c, x⟩ : MethodId) ∈ H.again.offered := by
    refine (H.again.processed.all _).2 ⟨f₀, a, rfl, ?_, ho.candidate, ho.accessor⟩
    rw [H.again.method?_eq, H.resumed, hF]
  obtain ⟨p', hp', hmem⟩ := H.again.pending_of_offered H.completes hoffered
  obtain ⟨hback', -⟩ := H.pending_again hp'
  rwa [H.first.eq_of_shared hback.pending hback'.pending hx hmem]

/-! ### The second pass, with the method -/

theorem late_before : H.late.before = H.first.after.withMethod f := by
  rw [H.gainsLate.before, H.resumed]

theorem once_before : H.once.before = H.first.before.withMethod f := H.gainsOnce.before

theorem late_method (hF : H.first.after.methods[x]? = some f₀) :
    H.late.before.methods[x]? = some f₀ := by
  have hlt := (List.getElem?_eq_some_iff.1 hF).1
  rw [H.late_before, Class.withMethod, List.getElem?_append_left hlt, hF]

theorem mem_methodIds_again (hF : H.first.after.methods[x]? = some f₀) :
    (⟨c, x⟩ : MethodId) ∈ H.again.before.methodIds := by
  refine (H.again.valid.mem_methodIds H.again.listed).2 ⟨rfl, f₀, ?_⟩
  rw [H.again.method?_eq, H.resumed, hF]

theorem givesBack_again (hp : p ∈ H.again.pending.properties) : H.again.GivesBack p :=
  (H.again.fate hp).resolve_right fun ⟨_, hq⟩ => by cases H.drops _ hq

/-- What is pending again is given back even with the method, unless this has joined it. -/
theorem givesBack_late (hp : p ∈ H.again.pending.properties)
    (hp' : p ∈ H.late.pending.properties) : H.late.GivesBack p := by
  refine ⟨hp', (H.givesBack_again hp).back.imp (fun hd => ?_) fun hv => ?_⟩
  · rw [H.gainsLate.dismisses_eq hp, hd]
  · exact H.gainsLate.verdict_of_dropped hp hp' hv

/-- How a method that was there before is exposed in the second pass. -/
theorem late_exposed (hF : H.first.after.methods[x]? = some f₀)
    (hstays : ∀ p ∈ H.again.pending.properties, (⟨c, x⟩ : MethodId) ∈ p.accessors →
      p ∈ H.late.pending.properties) :
    ∃ us ws, H.late.verdicts = us ++ ws ∧
      (methodPlace c x).Exposed H.late.desk H.late.verdicts f₀ (keptNames ws) ∧
      (us = [] ∨ ∃ p us₀, p ∈ H.again.pending.properties ∧ ⟨c, x⟩ ∈ p.accessors ∧
        us = us₀ ++ [(p, none)]) := by
  by_cases hoffered : (⟨c, x⟩ : MethodId) ∈ H.late.offered
  · have hagain := (H.gainsLate.offered_iff (H.mem_methodIds_again hF)).1 hoffered
    obtain ⟨p, hp, hx⟩ := H.again.pending_of_offered H.completes hagain
    obtain ⟨us, ws, hsplit, hback, hexposed⟩ :=
      (H.givesBack_late hp (hstays p hp hx)).exposed (H.late_method hF) hx
    exact ⟨us, ws, hsplit, hexposed, hback.imp_right fun ⟨us₀, hus⟩ => ⟨p, us₀, hp, hx, hus⟩⟩
  · exact ⟨[], H.late.verdicts, rfl, H.late.exposed_of_free (H.late_method hF) hoffered, .inl rfl⟩

/-! ### Where the setter goes -/

theorem late_placement {a : Accessor} (ha : f.accessor? = some a) :
    H.late.model.Placement c H.id f a H.again.pending H.again.own H.late.pending H.late.own :=
  H.nextId_again ▸ H.gainsLate.placement ha

theorem method?_late_id : H.late.model.method? H.id = some f :=
  H.nextId_again ▸ H.gainsLate.method?_new

theorem method?_once_id : H.once.model.method? H.id = some f := H.gainsOnce.method?_new

theorem method?_once (hf : H.first.before.methods[x]? = some f₀) :
    H.once.model.method? ⟨c, x⟩ = some f₀ := by
  have hlt := (List.getElem?_eq_some_iff.1 hf).1
  rw [H.once.method?_eq, H.once_before, Class.withMethod, List.getElem?_append_left hlt, hf]

theorem method?_late (hF : H.first.after.methods[x]? = some f₀) :
    H.late.model.method? ⟨c, x⟩ = some f₀ := by
  rw [H.late.method?_eq, H.late_method hF]

theorem first_method (hp : p ∈ H.first.pending.properties) {id : MethodId} (hid : id ∈ p.accessors) :
    ∃ x f₀, id = ⟨c, x⟩ ∧ H.first.before.methods[x]? = some f₀ := by
  obtain ⟨o, x⟩ := id
  obtain rfl : o = c := H.first.owner_of_accessor hp hid
  obtain ⟨f₀, hf⟩ := Model.hasMethod_iff.1 (H.first.hasMethod_of_accessor hp hid)
  exact ⟨x, f₀, rfl, by rw [← H.first.method?_eq, hf]⟩

variable {a : Accessor}

theorem accepts?_of_pending_again (hp : p ∈ H.again.pending.properties) :
    H.late.model.accepts? H.id a p = H.once.model.accepts? H.id a p := by
  obtain ⟨-, x, f₀, hacc, hf, hF⟩ := H.pending_again hp
  refine Model.accepts?_of_accessors (by rw [H.method?_late_id, H.method?_once_id]) a fun j hj => ?_
  obtain rfl := List.mem_singleton.1 (hacc ▸ hj)
  rw [H.method?_late hF, H.method?_once hf]

theorem method?_of_kept (hv : (p, some q) ∈ H.first.verdicts) {id : MethodId}
    (hid : id ∈ p.accessors) : ∃ f₀, H.once.model.method? id = some f₀ ∧
      H.late.model.method? id = some { f₀ with generation := .internal } := by
  obtain ⟨x, f₀, rfl, hf⟩ := H.first_method (H.first.of_kept hv).1 hid
  exact ⟨f₀, H.method?_once hf, H.method?_late (H.first.method_of_kept hf hv hid)⟩

theorem completable?_eq_accepts? (hv : (p, some q) ∈ H.first.verdicts) :
    Pending.completable? H.late.model H.id a q = H.late.model.accepts? H.id a q := by
  obtain ⟨-, rfl⟩ := H.first.of_kept hv
  have hplain : H.late.model.isOverriding? (H.first.model.documented p) = some false := by
    refine H.late.plain.isOverriding? rfl fun id hid => ?_
    obtain ⟨f₀, -, hlate⟩ := H.method?_of_kept hv hid
    exact Model.hasMethod_iff.2 ⟨_, hlate⟩
  simp only [Pending.completable?, hplain, Option.bind_eq_bind, Option.bind_some,
    Bool.false_eq_true, if_false]

/-- Of a property that was committed an offer finds what it would have found when it was pending. -/
theorem completable?_of_kept (hv : (p, some q) ∈ H.first.verdicts) :
    Pending.completable? H.late.model H.id a q = H.once.model.accepts? H.id a p := by
  have halike : H.once.model.LooksAlike H.late.model p := by
    refine ⟨fun id hid => ?_, fun _ _ g hg => ?_⟩
    · obtain ⟨f₀, honce, hlate⟩ := H.method?_of_kept hv hid
      rw [honce, hlate]
      rfl
    · obtain ⟨f₀, honce, hlate⟩ := H.method?_of_kept hv (Property.mem_accessors.2 (.inl hg))
      rw [Model.getterName?, Model.getterName?, honce, hlate]
      rfl
  have hsame : H.late.model.accepts? H.id a q = H.late.model.accepts? H.id a p := by
    rw [(H.first.of_kept hv).2]
    rfl
  rw [H.completable?_eq_accepts? hv, hsame]
  exact halike.accepts? (by rw [H.method?_late_id, H.method?_once_id])

end Histories
end ApiProperties

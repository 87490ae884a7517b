import ApiProperties.Proofs.Pass

/-!
A class that gets one more method. As the method is offered last, it finds everything else in its
place: what the other methods make pending is as it was, and the verdicts on it differ only where the
new method is an overload of a getter that stood alone.
-/

set_option autoImplicit false

namespace ApiProperties

namespace Class
variable (k : Class) (f : Method)

/-- The class with one more method, which comes last. -/
def withMethod : Class := { k with methods := k.methods ++ [f] }

/-- The id that one more method gets. -/
def nextId : MethodId := ⟨k.id, k.methods.length⟩

@[simp] theorem id_withMethod : (k.withMethod f).id = k.id := rfl
@[simp] theorem properties_withMethod : (k.withMethod f).properties = k.properties := rfl
@[simp] theorem events_withMethod : (k.withMethod f).events = k.events := rfl

@[simp] theorem methodIds_withMethod : (k.withMethod f).methodIds = k.methodIds ++ [k.nextId] := by
  simp [methodIds, withMethod, nextId, List.range_succ]

theorem nextId_notMem : k.nextId ∉ k.methodIds := by
  simp [methodIds, nextId]

end Class

namespace Pass
variable {y : Synthesis} {c : ClassId}

/-- In `Q` the class has one more method than in `P`, a setter perhaps, which comes last. -/
structure Gains (P Q : Pass y c) (f : Method) : Prop where
  before : Q.before = P.before.withMethod f
  candidate : f.isCandidate = true
  /-- The properties that the class has, it has from its own methods. -/
  known : ∀ p ∈ P.before.properties, ∀ id ∈ p.accessors, id ∈ P.before.methodIds

namespace Gains
variable {P Q : Pass y c} {f : Method} {p : Property}

theorem method?_old (h : P.Gains Q f) {id : MethodId} (hid : id ∈ P.before.methodIds) :
    Q.model.method? id = P.model.method? id := by
  obtain ⟨i, hi, rfl⟩ := List.mem_map.1 hid
  rw [P.id_before, P.method?_eq, Q.method?_eq, h.before]
  exact List.getElem?_append_left (List.mem_range.1 hi)

theorem method?_new (h : P.Gains Q f) : Q.model.method? P.before.nextId = some f := by
  rw [Class.nextId, P.id_before, Q.method?_eq, h.before]
  simp [Class.withMethod]

theorem method?_accessor (h : P.Gains Q f) (hp : p ∈ P.pending.properties) {id : MethodId}
    (hid : id ∈ p.accessors) : Q.model.method? id = P.model.method? id := by
  obtain ⟨g, hg⟩ := Model.hasMethod_iff.1 (P.hasMethod_of_accessor hp hid)
  exact h.method?_old ((P.valid.mem_methodIds P.listed).2 ⟨P.owner_of_accessor hp hid, g, hg⟩)

theorem offered_iff (h : P.Gains Q f) {id : MethodId} (hid : id ∈ P.before.methodIds) :
    id ∈ Q.offered ↔ id ∈ P.offered := by
  rw [P.processed.all, Q.processed.all]
  refine exists₂_congr fun g a => ⟨fun ho => ?_, fun ho => ?_⟩
  · exact ⟨ho.owner, (h.method?_old hid).symm.trans ho.method, ho.candidate, ho.accessor⟩
  · exact ⟨ho.owner, (h.method?_old hid).trans ho.method, ho.candidate, ho.accessor⟩

theorem looksAlike (h : P.Gains Q f) (hp : p ∈ P.before.properties) :
    P.model.LooksAlike Q.model p := by
  refine ⟨fun j hj => ?_, fun _ _ g hg => ?_⟩
  · rw [h.method?_old (h.known p hp j hj)]
  · have hg := h.known p hp g (Property.mem_accessors.2 (.inl hg))
    rw [Model.getterName?, Model.getterName?, h.method?_old hg]

theorem takesPart_old (h : P.Gains Q f) :
    P.before.methodIds.filter Q.model.takesPart = P.before.methodIds.filter P.model.takesPart :=
  List.filter_congr fun _ hid => Model.takesPart_congr (h.method?_old hid)

theorem assembly_old (h : P.Gains Q f) {s : Pending} {own : List Property}
    (hassembly : Q.model.Assembly Q.before (P.before.methodIds.filter P.model.takesPart) s own) :
    s = P.pending ∧ own = P.own := by
  obtain ⟨hs, hown, -⟩ := P.assembly.unique hassembly (by rw [h.before]; rfl) (by rw [h.before]; rfl)
    (fun id hid => h.method?_old (List.mem_of_mem_filter hid)) fun p hp => h.looksAlike hp
  exact ⟨hs, hown⟩

/-- A method that offers nothing changes nothing. -/
theorem pending_of_mute (h : P.Gains Q f) (hf : f.accessor? = none) :
    Q.pending = P.pending ∧ Q.own = P.own := by
  have hnew : Q.model.takesPart P.before.nextId = false := by
    simp [Model.takesPart, h.method?_new, hf]
  have hassembly := Q.assembly
  have hids : Q.before.methodIds = P.before.methodIds ++ [P.before.nextId] := by
    rw [h.before, Class.methodIds_withMethod]
  rw [hids, List.filter_append, h.takesPart_old, List.filter_singleton, hnew] at hassembly
  exact h.assembly_old (by simpa using hassembly)

/-- The offer of the new method finds all the others placed. -/
theorem placement (h : P.Gains Q f) {a : Accessor} (ha : f.accessor? = some a) :
    Q.model.Placement c P.before.nextId f a P.pending P.own Q.pending Q.own := by
  have hnew : Q.model.takesPart P.before.nextId = true := by
    simp [Model.takesPart, h.method?_new, ha, h.candidate]
  have hassembly := Q.assembly
  have hids : Q.before.methodIds = P.before.methodIds ++ [P.before.nextId] := by
    rw [h.before, Class.methodIds_withMethod]
  rw [hids, List.filter_append, h.takesPart_old, List.filter_singleton, hnew, cond_true] at hassembly
  obtain ⟨s₀, own₀, f', a', h₀, ho, hplace⟩ := hassembly.last
  obtain ⟨rfl, rfl⟩ := h.assembly_old h₀
  obtain rfl : f = f' := Option.some.inj (h.method?_new.symm.trans ho.method)
  obtain rfl : a = a' := Option.some.inj (ha.symm.trans ho.accessor)
  rwa [Q.id_before] at hplace

/-! ### The verdicts on what was pending anyway -/

theorem dismisses_eq (h : P.Gains Q f) (hp : p ∈ P.pending.properties) :
    y.dismisses Q.model p = y.dismisses P.model p :=
  Model.dismisses_of_accessors y fun _ hid => h.method?_accessor hp hid

theorem documented_eq (h : P.Gains Q f) (hp : p ∈ P.pending.properties) :
    Q.model.documented p = P.model.documented p := by
  rw [Model.documented, Model.documented,
    Model.mergedComment?_of_accessors fun _ hid => h.method?_accessor hp hid]

/-- The new method is one more candidate for an overload. -/
theorem hasOverloads?_eq (h : P.Gains Q f) (hp : p ∈ P.pending.properties) {g : MethodId}
    (hg : p.getter = some g) : ∃ f' b, P.model.method? g = some f' ∧
      P.model.hasOverloads? c g = some b ∧
      Q.model.hasOverloads? c g = some (b || f.originalName == f'.originalName) := by
  have hid := Property.mem_accessors.2 (.inl hg)
  obtain ⟨f', hf'⟩ := Model.hasMethod_iff.1 (P.hasMethod_of_accessor hp hid)
  have hmem := (P.valid.mem_methodIds P.listed).2 ⟨P.owner_of_accessor hp hid, f', hf'⟩
  have hne : P.before.nextId ≠ g := fun heq => P.before.nextId_notMem (heq ▸ hmem)
  have hemitted : f.isIgnored = false := by
    have hc := h.candidate
    simp only [Method.isCandidate, Method.isGenerated, Bool.and_eq_true, beq_iff_eq] at hc
    simp [Method.isIgnored, hc.1.2]
  refine ⟨f', _, hf', P.valid.hasOverloads?_eq_some P.listed hf', ?_⟩
  rw [Q.valid.hasOverloads?_eq_some Q.listed ((h.method?_old hmem).trans hf'), h.before,
    Class.methodIds_withMethod, List.any_append, List.any_cons, List.any_nil, if_neg hne,
    h.method?_new]
  congr 1
  congr 1
  · rw [Bool.eq_iff_iff, List.any_eq_true, List.any_eq_true]
    exact exists_congr fun id => and_congr_right fun hid => by rw [h.method?_old hid]
  · simp [hemitted]

/-- What was dropped is dropped. -/
theorem verdict_of_dropped (h : P.Gains Q f) (hp : p ∈ P.pending.properties)
    (hp' : p ∈ Q.pending.properties) (hv : P.verdict p = none) : Q.verdict p = none := by
  cases hg : p.getter with
  | none => exact Q.verdict_of_setter hp' hg
  | some g =>
    cases hs : p.setter with
    | some s =>
      rw [P.verdict_of_pair hp (by simp [hg]) (by simp [hs])] at hv
      cases hv
    | none =>
      obtain ⟨f', b, -, hb, hb'⟩ := h.hasOverloads?_eq hp hg
      rw [P.verdict_of_getter hp hg hs hb] at hv
      have htrue : b = true := by
        cases b
        · cases hv
        · rfl
      rw [Q.verdict_of_getter hp' hg hs hb', htrue, Bool.true_or, if_pos rfl]

end Gains

/-- If the property was kept for its getter alone, then `f` is no overload of this one. -/
def Spares (P : Pass y c) (f : Method) (p : Property) : Prop :=
  ∀ q, (p, some q) ∈ P.verdicts → p.setter = none → ∀ g f', p.getter = some g →
    P.model.method? g = some f' → f'.originalName ≠ f.originalName

namespace Gains
variable {P Q : Pass y c} {f : Method} {p : Property}

/-- What is spared is settled as it was. -/
theorem verdict_eq (h : P.Gains Q f) (hp : p ∈ P.pending.properties)
    (hp' : p ∈ Q.pending.properties) (hd : y.dismisses P.model p = false)
    (hspared : P.Spares f p) : Q.verdict p = P.verdict p := by
  cases hv : P.verdict p with
  | none => exact h.verdict_of_dropped hp hp' hv
  | some q =>
    have hkept : (p, some q) ∈ P.verdicts := P.mem_verdicts.2 ⟨hp, hd, hv.symm⟩
    rw [← hv]
    obtain ⟨g, hg⟩ : ∃ g, p.getter = some g := Option.ne_none_iff_exists'.1 fun hg => by
      rw [P.verdict_of_setter hp hg] at hv
      cases hv
    cases hs : p.setter with
    | some s =>
      rw [Q.verdict_of_pair hp' (by simp [hg]) (by simp [hs]),
        P.verdict_of_pair hp (by simp [hg]) (by simp [hs]), h.documented_eq hp]
    | none =>
      obtain ⟨f', b, hf', hb, hb'⟩ := h.hasOverloads?_eq hp hg
      have hname : (f.originalName == f'.originalName) = false :=
        beq_eq_false_iff_ne.2 (hspared q hkept hs g f' hg hf').symm
      rw [hname, Bool.or_false] at hb'
      rw [Q.verdict_of_getter hp' hg hs hb', P.verdict_of_getter hp hg hs hb, h.documented_eq hp]

theorem judge_eq (h : P.Gains Q f) {l : List Property} (hl : ∀ p ∈ l, p ∈ P.pending.properties)
    (hl' : ∀ p ∈ l, p ∈ Q.pending.properties) (hspared : ∀ p ∈ l, P.Spares f p) :
    Q.judge l = P.judge l := by
  have hfilter : l.filter (! y.dismisses Q.model ·) = l.filter (! y.dismisses P.model ·) :=
    List.filter_congr fun p hp => by rw [h.dismisses_eq (hl p hp)]
  rw [judge, judge, hfilter]
  refine List.map_congr_left fun p hp => ?_
  obtain ⟨hmem, hd⟩ := List.mem_filter.1 hp
  rw [h.verdict_eq (hl p hmem) (hl' p hmem) (by simpa using hd) (hspared p hmem)]

end Gains
end Pass
end ApiProperties

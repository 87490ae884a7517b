import ApiProperties.Proofs.Convergence
import ApiProperties.Proofs.Provenance

/-!
The counters of a run balance. What is counted as absorbed are the methods that have become
internal, and together with what is counted as given back it makes up the accessors of the classes
that were processed, each of them once.
-/

set_option autoImplicit false

namespace ApiProperties

/-- The method is a candidate and can be half of a property. -/
def Method.isAccessor (f : Method) : Bool :=
  f.isCandidate &&
    (f.isGetter || f.isSetter && !(propertyNameFromSetter f.name).isEmpty)

theorem Method.isAccessor_iff {f : Method} :
    f.isAccessor = true ↔ f.isCandidate = true ∧ ∃ a, f.accessor? = some a := by
  rw [isAccessor, Bool.and_eq_true, ← Option.isSome_iff_exists, accessor?]
  cases hg : f.isGetter with
  | true => simp
  | false =>
    cases hs : f.isSetter with
    | false => simp
    | true =>
      have hone : f.regularParameters.length = 1 := by
        simp only [isSetter, Bool.and_eq_true, beq_iff_eq] at hs
        exact hs.2
      obtain ⟨p, hp⟩ := List.length_eq_one_iff.1 hone
      cases hn : (propertyNameFromSetter f.name).isEmpty <;> simp [hn, hp]

section Counting
variable {α : Type} {n : Nat} {P Q : α → Prop}

/-- There are `n` things of which `P` holds. -/
def Counts (n : Nat) (P : α → Prop) : Prop :=
  ∃ l : List α, l.Nodup ∧ l.length = n ∧ ∀ x, x ∈ l ↔ P x

theorem Counts.none (h : ∀ x, ¬ P x) : Counts 0 P := ⟨[], List.nodup_nil, rfl, by simpa using h⟩

theorem Counts.add (h : Counts n P) {l : List α} (hl : l.Nodup) (hnew : ∀ x ∈ l, ¬ P x)
    (hQ : ∀ x, Q x ↔ P x ∨ x ∈ l) : Counts (n + l.length) Q := by
  obtain ⟨old, hold, rfl, hmem⟩ := h
  refine ⟨old ++ l, List.nodup_append.2 ⟨hold, hl, ?_⟩, List.length_append, fun x => ?_⟩
  · rintro a ha b hb rfl
    exact hnew a hb ((hmem a).1 ha)
  · rw [List.mem_append, hmem, hQ]

theorem Counts.countP (h : Counts n P) {l : List α} (hl : l.Nodup) {p : α → Bool}
    (hP : ∀ x, P x ↔ x ∈ l ∧ p x = true) : n = l.countP p := by
  obtain ⟨l', hl', rfl, hmem⟩ := h
  have hperm : l'.Perm (l.filter p) :=
    (List.perm_ext_iff_of_nodup hl' (hl.filter p)).2 fun x => by
      rw [hmem, hP, List.mem_filter]
  rw [hperm.length_eq, List.countP_eq_length_filter]

end Counting

namespace Desk
variable {c : ClassId}

theorem stats_settleAll (d : Desk) (vs : List (Property × Option Property)) :
    (d.settleAll c vs).stats.propertiesCommitted =
        d.stats.propertiesCommitted + (vs.filterMap (·.2)).length ∧
      (d.settleAll c vs).stats.methodsAbsorbed = d.stats.methodsAbsorbed +
        (((vs.filterMap (·.2)).flatMap (·.accessors)).filter (·.owner == c)).length ∧
      (d.settleAll c vs).stats.methodsDemoted =
        d.stats.methodsDemoted + (vs.flatMap fun v => v.1.released v.2).length := by
  induction vs generalizing d with
  | nil => simp
  | cons v rest ih =>
    obtain ⟨hcommitted, habsorbed, hdemoted⟩ := ih (d.settle c v.1 v.2)
    rw [settleAll_cons, hcommitted, habsorbed, hdemoted]
    cases hv : v.2 with
    | none => simp [settle, giveBack, hv, Property.released, Statistics.merge, Statistics.zero,
        Nat.add_assoc]
    | some q =>
      simp [settle, giveBack, commit, hv, Property.released, Statistics.merge, Statistics.zero,
        Nat.add_assoc, Nat.add_comm 1]

/-- Every rename is counted when it is recorded. -/
theorem renamed_settleAll {d : Desk} (hd : d.stats.membersRenamed = d.renames.length)
    (vs : List (Property × Option Property)) :
    (d.settleAll c vs).stats.membersRenamed = (d.settleAll c vs).renames.length := by
  refine settleAll_induction (fun d => d.stats.membersRenamed = d.renames.length)
    (fun v _ d hd => ?_) hd
  cases hv : v.2 <;> simp [settle, giveBack, commit, Statistics.merge, Statistics.zero, hd]

end Desk

namespace Model
variable {m : Model} {c : ClassId} {k : Class} {y : Synthesis} {ids : List MethodId} {s : Pending}
  {vs : List (Property × Option Property)}

def methodIds (m : Model) : List MethodId := m.classes.flatMap (·.methodIds)

def properties (m : Model) : List Property := m.classes.flatMap (·.properties)

def generation? (m : Model) (id : MethodId) : Option Generation :=
  (m.method? id).map (·.generation)

/-- The method was emitted in `m` and is internal in `m'`. -/
def absorbs (m m' : Model) (id : MethodId) : Bool :=
  m.generation? id == some .generate && m'.generation? id == some .internal

def isAccessor (m : Model) (id : MethodId) : Bool := (m.method? id).any (·.isAccessor)

theorem Valid.mem_methodIds_iff (hm : m.Valid) {id : MethodId} :
    id ∈ m.methodIds ↔ ∃ f, m.method? id = some f := by
  rw [methodIds, List.mem_flatMap]
  constructor
  · rintro ⟨k, hk, hid⟩
    obtain ⟨c, hc⟩ := List.mem_iff_getElem?.1 hk
    exact ((hm.mem_methodIds hc).1 hid).2
  · rintro ⟨f, hf⟩
    obtain ⟨k, hk, -⟩ := Option.bind_eq_some_iff.1 hf
    exact ⟨k, List.mem_of_getElem? hk, (hm.mem_methodIds hk).2 ⟨rfl, f, hf⟩⟩

theorem Valid.nodup_methodIds (hm : m.Valid) : m.methodIds.Nodup := by
  refine List.nodup_flatMap.2 ⟨fun k _ => List.nodup_range.map fun i j hij => ?_, ?_⟩
  · exact (MethodId.mk.inj hij).2
  · refine List.pairwise_iff_getElem.2 fun i j hi hj hij id hid hid' => ?_
    have howner := ((hm.mem_methodIds (List.getElem?_eq_getElem hi)).1 hid).1
    have howner' := ((hm.mem_methodIds (List.getElem?_eq_getElem hj)).1 hid').1
    exact Nat.ne_of_lt hij (howner.symm.trans howner')

/-! ### One class -/

/-- An action is given up with its getter, which is all it has. -/
theorem length_dismissed (y : Synthesis) (m : Model) (s : Pending) :
    ((s.properties.filter (y.dismisses m)).flatMap (·.accessors)).length =
    (s.properties.filter (y.dismisses m)).length := by
  rw [List.length_flatMap, List.map_congr_left (g := fun _ => 1) fun p hp => ?_]
  · simp
  · have hdismissed := (List.mem_filter.1 hp).2
    simp only [Synthesis.dismisses, Bool.and_eq_true] at hdismissed
    obtain ⟨g, hg, hs⟩ := Property.getter_of_readsAsAction hdismissed.2
    simp [Property.accessors, hg, hs]

namespace Built
variable {k' : Class} (h : m.Built y c k k' ids s vs)
include h

/-- Every accessor that was taken in is given back, or a property of the class has it. -/
theorem taken_perm : (y.released m s vs ++
    (k'.properties.flatMap (·.accessors)).filter (·.owner == c)).Perm ids := by
  have hkc : k.id = c := (h.valid.consistent h.listed).id
  rw [h.properties_eq]
  simpa [h.free] using h.processed.accounted h.foreign hkc (by simp [h.free])

theorem completed_eq_nil : s.completed = [] :=
  h.processed.assembly.completed_eq_nil.2 fun _ _ _ _ _ q hq => by simp [h.free] at hq

theorem stats :
    ((y.desk m k ids s []).settleAll c vs).stats.propertiesCommitted = k'.properties.length ∧
      ((y.desk m k ids s []).settleAll c vs).stats.methodsAbsorbed =
        ((k'.properties.flatMap (·.accessors)).filter (·.owner == c)).length ∧
      ((y.desk m k ids s []).settleAll c vs).stats.methodsDemoted =
        (y.released m s vs).length := by
  obtain ⟨hcommitted, habsorbed, hdemoted⟩ := (y.desk m k ids s []).stats_settleAll (c := c) vs
  have hdismissed := length_dismissed y m s
  rw [h.properties_eq, hcommitted, habsorbed, hdemoted]
  simp [Synthesis.desk, Synthesis.released, h.completed_eq_nil, hdismissed, Statistics.oneClass,
    Statistics.zero]

/-- The methods of the class that have become internal are those that its properties have. -/
theorem internal_iff {x : Nat} :
    k.generation? x = some .generate ∧ k'.generation? x = some .internal ↔
      (⟨c, x⟩ : MethodId) ∈ (k'.properties.flatMap (·.accessors)).filter (·.owner == c) := by
  have hkc : k.id = c := (h.valid.consistent h.listed).id
  have hmem := h.taken_perm.mem_iff (a := (⟨c, x⟩ : MethodId))
  have hnodup := h.taken_perm.nodup_iff.2 h.processed.assembly.nodup
  obtain ⟨-, -, hdisjoint⟩ := List.nodup_append.1 hnodup
  rw [List.mem_append] at hmem
  have hsettled : k'.generation? x = (k.generation? x).map fun old =>
      if (⟨c, x⟩ : MethodId) ∈ y.released m s vs then .generate
      else if (⟨c, x⟩ : MethodId) ∈ ids then .internal
      else old := by
    rw [h.result, generation?_settled, hkc]
  constructor
  · rintro ⟨hgen, hint⟩
    by_contra hnot
    rw [hsettled, hgen, Option.map_some] at hint
    by_cases hrel : (⟨c, x⟩ : MethodId) ∈ y.released m s vs
    · simp [hrel] at hint
    · have hid : (⟨c, x⟩ : MethodId) ∉ ids := fun hid => (hmem.2 hid).elim hrel hnot
      simp [hrel, hid] at hint
  · intro hkept
    have hid : (⟨c, x⟩ : MethodId) ∈ ids := hmem.1 (.inr hkept)
    have hrel : (⟨c, x⟩ : MethodId) ∉ y.released m s vs := fun hrel =>
      hdisjoint _ hrel _ hkept rfl
    have hgen : k.generation? x = some .generate := h.processed.generation?_of_mem h.listed hid
    exact ⟨hgen, by rw [hsettled, hgen, Option.map_some, if_neg hrel, if_pos hid]⟩

end Built

/-! ### Runs -/

theorem Offers.of_class {n : Model} (h : m.class? c = n.class? c) {id : MethodId} {f : Method}
    {a : Accessor} (ho : m.Offers c id f a) : n.Offers c id f a :=
  ⟨ho.owner, (method?_of_class h ho.owner).symm.trans ho.method, ho.candidate, ho.accessor⟩

/-- A run over `m` takes the method in. -/
def TakesIn (m : Model) (id : MethodId) : Prop :=
  m.IsDefinition id.owner ∧ ∃ f a, m.Offers id.owner id f a

/-- What holds while the classes `rest` are still to be processed. -/
structure Balanced (m : Model) (y : Synthesis) (t : Progress) (rest : List ClassId) : Prop where
  building : m.Building y t rest
  committed : t.stats.propertiesCommitted = t.model.properties.length
  renamed : t.stats.membersRenamed = t.renames.length
  absorbed : Counts t.stats.methodsAbsorbed fun id => m.absorbs t.model id = true
  accounted : Counts (t.stats.methodsAbsorbed + t.stats.methodsDemoted) fun id =>
    id.owner ∉ rest ∧ m.TakesIn id

theorem Balanced.start (hfree : m.PropertyFree) {order : List ClassId}
    (hnodup : order.Nodup) (hmem : ∀ d, d ∈ order ↔ d < m.classes.length ∧ m.IsDefinition d) :
    m.Balanced y (.start m) order := by
  refine ⟨.start hfree hnodup hmem, ?_, rfl, .none fun id => ?_, .none fun id => ?_⟩
  · have hnone : m.properties = [] := List.flatMap_eq_nil_iff.2 hfree
    simp [Progress.start, Statistics.zero, hnone]
  · simp only [absorbs, Progress.start, Bool.and_eq_true, beq_iff_eq]
    rintro ⟨hgen, hint⟩
    rw [hgen] at hint
    cases hint
  · rintro ⟨hnot, hdef, f, a, ho⟩
    obtain ⟨k, hk⟩ := hdef.listed
    exact hnot ((hmem id.owner).2 ⟨of_decide_eq_true (hasClass_iff.2 ⟨k, hk⟩), hdef⟩)

theorem generation?_of_listed (hk : m.class? c = some k) {id : MethodId} (howner : id.owner = c) :
    m.generation? id = k.generation? id.index := by
  simp [generation?, Class.generation?, method?, howner, hk]

section Step
variable {n : Model} {k' : Class}

theorem absorbs_of_listed (hk : m.class? c = some k) (hk' : n.class? c = some k) {id : MethodId}
    (howner : id.owner = c) : m.absorbs n id = false := by
  rw [absorbs, generation?_of_listed hk howner, generation?_of_listed hk' howner]
  cases hg : k.generation? id.index with
  | none => rfl
  | some g => cases g <;> rfl

/-- Processing a class adds to what is absorbed the accessors that the class gets. -/
theorem absorbs_putClass (hfirst : m.class? c = some k) (h : n.Built y c k k' ids s vs)
    (id : MethodId) :
    m.absorbs (n.putClass c k') id = true ↔ m.absorbs n id = true ∨
      id ∈ (k'.properties.flatMap (·.accessors)).filter (·.owner == c) := by
  by_cases howner : id.owner = c
  · have hself : (⟨c, id.index⟩ : MethodId) = id := by rw [← howner]
    have hlisted := class?_putClass_self k' h.listed
    rw [absorbs_of_listed hfirst h.listed howner, ← hself, ← h.internal_iff, hself, absorbs,
      generation?_of_listed hfirst howner, generation?_of_listed hlisted howner]
    simp
  · have hother : (n.putClass c k').generation? id = n.generation? id := by
      rw [generation?, generation?, method?_putClass_ne n k' howner]
    simp [absorbs, hother, howner]

theorem length_properties_putClass (hk : m.class? c = some k) (hnone : k.properties = []) :
    (m.putClass c k').properties.length = m.properties.length + k'.properties.length := by
  have hcount := countP_flatMap_modify (p := fun _ => true) hk k' (·.properties)
  simp only [hnone, List.countP_true, List.length_nil, Nat.add_zero] at hcount
  exact hcount

theorem Balanced.step {t : Progress} {rest : List ClassId} {own : List Property}
    (hfree : m.PropertyFree) (h : m.Balanced y t (c :: rest))
    (hvalid : t.model.Valid) (hout : t.model.outline = m.outline) (hk : t.model.class? c = some k)
    (hdef : t.model.IsDefinition c) (hp : t.model.Processed y c k ids s own vs) :
    m.Balanced y
      (t.followedBy (((y.desk t.model k ids s own).settleAll c vs).progress t.model c)) rest := by
  obtain ⟨hfirst, rfl, hbuilt⟩ := h.building.builds hfree hvalid hk hdef hp
  obtain ⟨hcommitted, habsorbed, hdemoted⟩ := hbuilt.stats
  have hrenamed := Desk.renamed_settleAll (c := c) (d := y.desk t.model k ids s []) rfl vs
  have hperm := hbuilt.taken_perm
  have hnodup := hp.assembly.nodup
  obtain ⟨-, hkept, -⟩ := List.nodup_append.1 (hperm.nodup_iff.2 hnodup)
  refine ⟨h.building.step hfree hvalid hout hk hdef hp, ?_, ?_, ?_, ?_⟩
  · exact (congrArg₂ (· + ·) h.committed hcommitted).trans
      (length_properties_putClass hk hbuilt.free).symm
  · exact (congrArg₂ (· + ·) h.renamed hrenamed).trans List.length_append.symm
  · have hadd := h.absorbed.add hkept (fun id hid => ?_) (absorbs_putClass hfirst hbuilt)
    · rwa [← habsorbed] at hadd
    · have howner : id.owner = c := beq_iff_eq.1 (List.mem_filter.1 hid).2
      simp [absorbs_of_listed hfirst hk howner]
  · have hadd := h.accounted.add hnodup (Q := fun id => id.owner ∉ rest ∧ m.TakesIn id)
      (fun id hid hold => hold.1 (hp.owner_of_mem hid ▸ List.mem_cons_self)) fun id => ?_
    · have hlen := hperm.length_eq
      rw [List.length_append, ← hdemoted, ← habsorbed] at hlen
      rw [← hlen] at hadd
      convert hadd using 1
      simp only [Progress.followedBy, Desk.progress, Statistics.merge]
      omega
    · have hclass : m.class? c = t.model.class? c := hfirst.trans hk.symm
      constructor
      · rintro ⟨hrest, hd, f, a, ho⟩
        by_cases howner : id.owner = c
        · exact .inr ((hp.all id).2 ⟨f, a, (howner ▸ ho).of_class hclass⟩)
        · exact .inl ⟨List.not_mem_cons_of_ne_of_not_mem howner hrest, hd, f, a, ho⟩
      · rintro (⟨hrest, hold⟩ | hid)
        · exact ⟨fun hmem => hrest (List.mem_cons_of_mem c hmem), hold⟩
        · obtain ⟨f, a, ho⟩ := (hp.all id).1 hid
          obtain rfl := ho.owner
          exact ⟨(List.nodup_cons.1 h.building.running.nodup).1, (isDefinition_congr hout).1 hdef,
            f, a, ho.of_class hclass.symm⟩

end Step

/-- A run counts every method that becomes internal, every property and every rename, and what it
absorbs and gives back are the accessors of the classes it processes. -/
theorem run_balances (m : Model) (hm : m.Valid) (hfree : m.PropertyFree) (y : Synthesis) :
    ∃ order t, m.visitOrder? = some order ∧ y.run? m = some t ∧
      t.stats.methodsAbsorbed = m.methodIds.countP (m.absorbs t.model) ∧
      t.stats.propertiesCommitted = t.model.properties.length ∧
      t.stats.membersRenamed = t.renames.length ∧
      t.stats.methodsAbsorbed + t.stats.methodsDemoted =
        m.methodIds.countP fun id => order.contains id.owner && m.isAccessor id := by
  obtain ⟨order, horder, -, hmem⟩ := hm.visitOrder?_total
  obtain ⟨t, ht, -, -, h⟩ := hm.run?_induction y (m.Balanced y)
    (fun _ hnodup hmem => .start hfree hnodup hmem)
    (fun _ _ _ _ _ _ _ _ h hvalid hout hk hdef hp => h.step hfree hvalid hout hk hdef hp)
  refine ⟨order, t, horder, ht, ?_, h.committed, h.renamed, ?_⟩
  · refine h.absorbed.countP hm.nodup_methodIds fun id => (and_iff_right_of_imp fun hid => ?_).symm
    simp only [absorbs, Bool.and_eq_true, beq_iff_eq] at hid
    obtain ⟨f, hf, -⟩ := Option.map_eq_some_iff.1 hid.1
    exact hm.mem_methodIds_iff.2 ⟨f, hf⟩
  · refine h.accounted.countP hm.nodup_methodIds fun id => ?_
    rw [Bool.and_eq_true, List.contains_iff_mem, hmem, hm.mem_methodIds_iff]
    constructor
    · rintro ⟨-, hdef, f, a, ho⟩
      obtain ⟨k, hk⟩ := hdef.listed
      have hlt := of_decide_eq_true (hasClass_iff.2 ⟨k, hk⟩)
      refine ⟨⟨f, ho.method⟩, ⟨hlt, hdef⟩, ?_⟩
      simpa [isAccessor, ho.method] using Method.isAccessor_iff.2 ⟨ho.candidate, a, ho.accessor⟩
    · rintro ⟨⟨f, hf⟩, ⟨-, hdef⟩, haccessor⟩
      have hboth : f.isAccessor = true := by simpa [isAccessor, hf] using haccessor
      obtain ⟨hcandidate, a, ha⟩ := Method.isAccessor_iff.1 hboth
      exact ⟨List.not_mem_nil, hdef, f, a, rfl, hf, hcandidate, ha⟩

/-- Two classes that derive from each other; the second one overrides a getter of the first. -/
def ring : Model :=
  let int := QualifiedType.plain (.builtin .int)
  let getter := Method.plain "getWidth" int
  ⟨"unit", [
    { Class.empty 0 "First" with
      bases := [⟨1, .pub⟩], methods := [getter, .plainSetter "setWidth" int] },
    { Class.empty 1 "Second" with
      bases := [⟨0, .pub⟩], methods := [{ getter.overriding ⟨0, 0⟩ with owner := 1 }] }]⟩

/-- The second class is processed first and finds no property to override. -/
theorem run_balances_ring : ring.Valid ∧ ring.PropertyFree ∧
    (Synthesis.withoutVerbs.run? ring).map
      (fun t => (t.stats.methodsAbsorbed, t.stats.methodsDemoted)) = some (2, 1) ∧
    ∃ order t, ring.visitOrder? = some order ∧ Synthesis.withoutVerbs.run? ring = some t ∧
      t.stats.methodsAbsorbed = ring.methodIds.countP (ring.absorbs t.model) ∧
      t.stats.propertiesCommitted = t.model.properties.length ∧
      t.stats.membersRenamed = t.renames.length ∧
      t.stats.methodsAbsorbed + t.stats.methodsDemoted =
        ring.methodIds.countP fun id => order.contains id.owner && ring.isAccessor id :=
  have hvalid : ring.Valid := by decide
  have hfree : ring.PropertyFree := by decide
  ⟨hvalid, hfree, by decide, run_balances ring hvalid hfree .withoutVerbs⟩

end Model
end ApiProperties

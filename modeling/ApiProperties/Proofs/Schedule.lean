import ApiProperties.Proofs.Ancestors
import ApiProperties.Proofs.Assembly
import ApiProperties.Proofs.Traversal

/-!
Orders in which every class comes after its bases. The order of processing is the postorder of a
depth-first search, which is a coverage: a base that does not come first is one from which the class
itself can be reached. Without cycles of bases there is no such base, and the order is a schedule.
-/

set_option autoImplicit false

namespace ApiProperties.Model

/-- What a class derives from stands before it, or leads back to it. -/
def PostOrdered (m : Model) (order : List ClassId) : Prop :=
  ∀ (i : Nat) c, order[i]? = some c → ∀ d, m.DerivesFrom c d →
    d ∈ order.take i ∨ Relation.ReflTransGen m.DerivesFrom d c

/-- Every complete class once, after the complete classes behind its bases. -/
structure Schedule (m : Model) (order : List ClassId) : Prop where
  nodup : order.Nodup
  complete : ∀ d, d ∈ order ↔ ∃ c, m.hasClass c = true ∧ m.definition? c = some d
  basesFirst : ∀ (i : Nat) c, order[i]? = some c → ∀ d, m.DerivesFrom c d → d ∈ order.take i

theorem schedule_iff {m : Model} {order : List ClassId} : m.Schedule order ↔
    order.Nodup ∧ (∀ d ∈ order, ∃ c ∈ m.classIds, m.definition? c = some d) ∧
      (∀ c ∈ m.classIds, ∀ d ∈ m.definition? c, d ∈ order) ∧
      ∀ p ∈ order.zipIdx, m.IsDefinition p.1 → ∀ d ∈ m.parents p.1, d ∈ order.take p.2 := by
  have hclass : ∀ c, c ∈ m.classIds ↔ m.hasClass c = true := fun c => by
    simp [classIds, hasClass]
  simp only [hclass, Option.mem_def, Prod.forall, List.mk_mem_zipIdx_iff_getElem?]
  constructor
  · rintro ⟨hnodup, hall, hfirst⟩
    exact ⟨hnodup, fun d hd => (hall d).1 hd, fun c hc d hd => (hall d).2 ⟨c, hc, hd⟩,
      fun c i hi hc d hd => hfirst i c hi d (derivesFrom_iff.2 ⟨hc, hd⟩)⟩
  · rintro ⟨hnodup, hsome, hall, hfirst⟩
    refine ⟨hnodup, fun d => ⟨hsome d, ?_⟩, fun i c hi d hd => ?_⟩
    · rintro ⟨c, hc, hd⟩
      exact hall c hc d hd
    · obtain ⟨hc, hd⟩ := derivesFrom_iff.1 hd
      exact hfirst c i hi hc d hd

instance (m : Model) (order : List ClassId) : Decidable (m.Schedule order) :=
  decidable_of_iff _ schedule_iff.symm

variable {m : Model}

theorem PostOrdered.concat {order : List ClassId} {c : ClassId} (h : m.PostOrdered order)
    (hc : ∀ d, m.DerivesFrom c d → d ∈ order ∨ Relation.ReflTransGen m.DerivesFrom d c) :
    m.PostOrdered (order ++ [c]) := by
  intro i e he d hd
  rcases getElem?_concat_cases he with he | ⟨rfl, rfl⟩
  · rw [List.take_append_of_le_length (List.getElem?_eq_some_iff.1 he).1.le]
    exact h i e he d hd
  · simpa using hc d hd

/-- The classes that are seen but not finished all lead to `c`. -/
def VisitOrder.LeadsTo (m : Model) (o : VisitOrder) (c : ClassId) : Prop :=
  ∀ e ∈ o.visited, e ∈ o.order ∨ Relation.ReflTransGen m.DerivesFrom e c

theorem VisitOrder.LeadsTo.grow {o o' : VisitOrder} {c : ClassId} {done : List ClassId}
    (h : o.LeadsTo m c) (hg : o.Grows o' done) : o'.LeadsTo m c := by
  intro e he
  rw [hg.order, List.mem_append]
  rcases (hg.visited e).1 he with hdone | hseen
  · exact .inl (.inr hdone)
  · exact (h e hseen).imp_left .inl

/-- What holds while the bases `todo` of class `c` are still to be visited with this fuel. -/
structure Descending (m : Model) (fuel : Nat) (c : ClassId) (o : VisitOrder) (todo : List Base) :
    Prop where
  sound : o.Sound m
  fuel : m.classes.length < o.visited.length + fuel
  ordered : m.PostOrdered o.order
  leads : o.LeadsTo m c
  ahead : ∀ b ∈ todo, m.hasClass b.target = true ∧
    ∀ d, m.definition? b.target = some d → m.DerivesFrom c d
  behind : ∀ d, m.DerivesFrom c d → d ∈ o.visited ∨ ∃ b ∈ todo, m.definition? b.target = some d

/-- The classes on the way down to the one behind `c` all derive from it. -/
def VisitOrder.Under (m : Model) (o : VisitOrder) (c : ClassId) : Prop :=
  ∀ d, m.definition? c = some d → ∀ e ∈ o.visited, e ∈ o.order ∨ m.Ancestor e d

theorem Valid.visit?_postOrdered (hm : m.Valid) (fuel : Nat) :
    ∀ {o o' : VisitOrder} {c : ClassId}, o.Sound m → m.hasClass c = true →
      m.classes.length < o.visited.length + fuel → m.PostOrdered o.order → o.Under m c →
      m.visit? fuel o c = some o' → m.PostOrdered o'.order := by
  induction fuel with
  | zero =>
    intro o o' c ho _ hfuel
    have := ho.length_le
    omega
  | succ fuel ih =>
    intro o o' c ho hc hfuel hordered hunder hvisit
    obtain ⟨d, hd, hlt⟩ := hm.definition?_isSome (of_decide_eq_true hc)
    have hdef := hm.isDefinition_of_definition? (of_decide_eq_true hc) hd
    by_cases hmem : d ∈ o.visited
    · obtain rfl : o = o' := by simpa [visit?, hd, hmem] using hvisit
      exact hordered
    · obtain ⟨k, hk⟩ := hasClass_iff.1 (decide_eq_true hlt)
      have hstart : m.Descending fuel d (o.seeing d) k.bases := by
        refine ⟨ho.seeing hmem hlt hdef, ?_, hordered, fun e he => ?_, fun b hb => ?_, ?_⟩
        · simp only [VisitOrder.seeing, List.length_cons]
          omega
        · rcases List.mem_cons.1 he with rfl | he
          · exact .inr .refl
          · exact (hunder d hd e he).imp_right Relation.TransGen.to_reflTransGen
        · exact ⟨(hm.consistent hk).bases b hb, fun e he => ⟨hdef, k, hk, b, hb, he⟩⟩
        · rintro e ⟨-, k', hk', hb⟩
          obtain rfl := Option.some.inj (hk.symm.trans hk')
          exact .inr hb
      obtain ⟨o₁, hfold, h₁⟩ := foldlM_total
        (f := fun (o : VisitOrder) (b : Base) => m.visit? fuel o b.target)
        (m.Descending fuel d) (fun o₁ b rest h => by
          obtain ⟨hclass, hderives⟩ := h.ahead b List.mem_cons_self
          obtain ⟨o₂, done, hvisit, hsound, hgrows, hseen⟩ :=
            hm.visit?_total fuel h.sound (of_decide_eq_true hclass) h.fuel
          have hlen := hgrows.length_le h.sound
          have hfuel := h.fuel
          -- whoever leads to `d` leads on to the class behind its base
          have hunder : o₁.Under m b.target := fun e he x hx =>
            (h.leads x hx).imp_right fun hpath => .tail' hpath (hderives e he)
          refine ⟨o₂, hvisit, hsound, by omega, ih h.sound hclass h.fuel h.ordered hunder hvisit,
            h.leads.grow hgrows, fun b' hb' => h.ahead b' (List.mem_cons_of_mem b hb'),
            fun e he => ?_⟩
          rcases h.behind e he with hmem | ⟨b', hb', hdef'⟩
          · exact .inl ((hgrows.visited e).2 (.inr hmem))
          · rcases List.mem_cons.1 hb' with rfl | hb'
            · exact .inl (hseen e hdef')
            · exact .inr ⟨b', hb', hdef'⟩)
        hstart
      obtain rfl : { o₁ with order := o₁.order ++ [d] } = o' := by
        rw [VisitOrder.seeing] at hfold
        simpa [visit?, hd, hmem, hk, hfold] using hvisit
      refine h₁.ordered.concat fun e he => ?_
      have hvisited : e ∈ o₁.visited := by simpa using h₁.behind e he
      exact h₁.leads e hvisited

/-- What holds while the classes `todo` are still to be visited: all that was seen is finished. -/
structure Finishing (m : Model) (o : VisitOrder) (todo : List ClassId) : Prop where
  sound : o.Sound m
  finished : ∀ e ∈ o.visited, e ∈ o.order
  ordered : m.PostOrdered o.order
  ahead : ∀ c ∈ todo, m.hasClass c = true

theorem Valid.visitOrder?_postOrdered (hm : m.Valid) {order : List ClassId}
    (h : m.visitOrder? = some order) : m.PostOrdered order := by
  have hstart : m.Finishing ⟨[], []⟩ m.classIds := by
    refine ⟨⟨List.nodup_nil, by simp, by simp⟩, by simp, by simp [PostOrdered], fun c hc => ?_⟩
    exact decide_eq_true (List.mem_range.1 hc)
  obtain ⟨o, hfold, ho⟩ := foldlM_total m.Finishing (fun o c rest h => by
    have hclass := h.ahead c List.mem_cons_self
    have hfuel : m.classes.length < o.visited.length + (m.classes.length + 1) := by omega
    obtain ⟨o₁, done, hvisit, hsound, hgrows, -⟩ :=
      hm.visit?_total _ h.sound (of_decide_eq_true hclass) hfuel
    have hunder : o.Under m c := fun _ _ e he => .inl (h.finished e he)
    refine ⟨o₁, hvisit, hsound, fun e he => ?_,
      hm.visit?_postOrdered _ h.sound hclass hfuel h.ordered hunder hvisit,
      fun b hb => h.ahead b (List.mem_cons_of_mem c hb)⟩
    rw [hgrows.order, List.mem_append]
    exact ((hgrows.visited e).1 he).elim .inr fun hmem => .inl (h.finished e hmem)) hstart
  obtain rfl : o.order = order := by simpa [visitOrder?, hfold] using h
  exact ho.ordered

/-- Every complete class once, and each after those behind its bases, unless they lead back. -/
structure Coverage (m : Model) (order : List ClassId) : Prop where
  nodup : order.Nodup
  complete : ∀ d, d ∈ order ↔ ∃ c, m.hasClass c = true ∧ m.definition? c = some d
  basesFirst : ∀ (i : Nat) c, order[i]? = some c → ∀ d, m.DerivesFrom c d → d ≠ c →
    d ∈ order.take i ∨ m.Ancestor d c

theorem Valid.coverage_visitOrder? (hm : m.Valid) {order : List ClassId}
    (h : m.visitOrder? = some order) : m.Coverage order := by
  obtain ⟨order', horder', hnodup, hmem⟩ := hm.visitOrder?_total
  obtain rfl := Option.some.inj (h.symm.trans horder')
  refine ⟨hnodup, fun d => (hmem d).trans hm.isDefinition_iff, fun i c hi d hd hne => ?_⟩
  refine (hm.visitOrder?_postOrdered h i c hi d hd).imp_right fun hpath => ?_
  exact (Relation.reflTransGen_iff_eq_or_transGen.1 hpath).resolve_left (Ne.symm hne)

/-- Without cycles no base leads back. -/
theorem Coverage.schedule {order : List ClassId} (h : m.Coverage order) (hac : m.Acyclic) :
    m.Schedule order := by
  refine ⟨h.nodup, h.complete, fun i c hi d hd => ?_⟩
  have hne : d ≠ c := fun heq => hac c (.single (heq ▸ hd))
  exact (h.basesFirst i c hi d hd hne).resolve_right fun hpath => hac c (.head hd hpath)

/-- Without cycles the classes are processed bases first. -/
theorem Valid.schedule_visitOrder? (hm : m.Valid) (hac : m.Acyclic) :
    ∃ order, m.visitOrder? = some order ∧ m.Schedule order := by
  obtain ⟨order, horder, -⟩ := hm.visitOrder?_total
  exact ⟨order, horder, (hm.coverage_visitOrder? horder).schedule hac⟩

namespace Schedule
variable {order : List ClassId} (h : m.Schedule order)
include h

theorem ancestor_mem_take {c d : ClassId} (hcd : m.Ancestor c d) :
    ∀ i : Nat, order[i]? = some c → d ∈ order.take i := by
  induction hcd using Relation.TransGen.head_induction_on with
  | single hcd => exact fun i hi => h.basesFirst i _ hi _ hcd
  | @head c e hce _ ih =>
    intro i hi
    obtain ⟨j, hj, he⟩ := List.mem_take_iff_getElem.1 (h.basesFirst i c hi e hce)
    have hlt : j < i := by omega
    exact List.take_subset_take_left order hlt.le (ih j (List.getElem?_eq_some_iff.2 ⟨_, he⟩))

end Schedule

/-! ### Schedules class by class -/

/-- Classes in an order in which each one comes after all its ancestors. -/
inductive BaseClosed (m : Model) : List ClassId → Prop
  | nil : BaseClosed m []
  | snoc {done : List ClassId} {c : ClassId} (h : BaseClosed m done) (hc : c ∉ done)
      (hclass : m.hasClass c = true) (hdef : m.IsDefinition c)
      (hanc : ∀ a, m.Ancestor c a → a ∈ done) : BaseClosed m (done ++ [c])

theorem BaseClosed.hasClass {done : List ClassId} (h : m.BaseClosed done) :
    ∀ c ∈ done, m.hasClass c = true := by
  induction h with
  | nil => simp
  | snoc _ _ hclass _ _ ih => simpa [or_imp, forall_and] using ⟨ih, hclass⟩

theorem BaseClosed.ancestor_mem {done : List ClassId} (h : m.BaseClosed done) {c a : ClassId}
    (hc : c ∈ done) (ha : m.Ancestor c a) : a ∈ done := by
  induction h with
  | nil => simp at hc
  | snoc _ _ _ _ hanc ih =>
    refine List.mem_append_left _ ?_
    rcases List.mem_append.1 hc with hc | hc
    · exact ih hc
    · exact hanc a (List.mem_singleton.1 hc ▸ ha)

theorem Schedule.baseClosed {order : List ClassId} (h : m.Schedule order) (hm : m.Valid) :
    m.BaseClosed order := by
  have hall : ∀ n : Nat, m.BaseClosed (order.take n) := by
    intro n
    induction n with
    | zero => simpa using .nil
    | succ n ih =>
      rw [List.take_add_one]
      cases hc : order[n]? with
      | none => simpa using ih
      | some c =>
        obtain ⟨hlt, hdef⟩ := hm.isDefinition_iff.2 ((h.complete c).1 (List.mem_of_getElem? hc))
        refine ih.snoc (fun hmem => ?_) (decide_eq_true hlt) hdef
          fun a ha => h.ancestor_mem_take ha n hc
        obtain ⟨i, hi, hic⟩ := List.mem_take_iff_getElem.1 hmem
        have hsame : i = n := (List.getElem?_inj (by omega) h.nodup).1
          ((List.getElem?_eq_getElem _).trans ((congrArg some hic).trans hc.symm))
        omega
  simpa using hall order.length

end ApiProperties.Model

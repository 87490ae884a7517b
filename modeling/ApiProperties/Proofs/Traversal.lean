import Mathlib.Data.List.Nodup
import ApiProperties.Proofs.Definitions

/-!
The order in which classes are processed. On a consistent model it exists, lists no class twice and
lists exactly the classes that are their own definition.
-/

set_option autoImplicit false

namespace ApiProperties.Model

theorem length_le_of_nodup {n : Nat} {ids : List ClassId} (h : ids.Nodup)
    (hlt : ∀ d ∈ ids, d < n) : ids.length ≤ n := by
  have hsub : ids ⊆ List.range n := fun d hd => List.mem_range.2 (hlt d hd)
  simpa using (List.subperm_of_subset h hsub).length_le

/-- What every state of the traversal satisfies. -/
structure VisitOrder.Sound (m : Model) (o : VisitOrder) : Prop where
  nodup : o.visited.Nodup
  bound : ∀ d ∈ o.visited, d < m.classes.length
  complete : ∀ d ∈ o.visited, m.IsDefinition d

/-- The traversal finished exactly the classes `done` on the way from `o` to `o'`. -/
structure VisitOrder.Grows (o o' : VisitOrder) (done : List ClassId) : Prop where
  order : o'.order = o.order ++ done
  visited : ∀ d, d ∈ o'.visited ↔ d ∈ done ∨ d ∈ o.visited
  nodup : done.Nodup
  fresh : ∀ d ∈ done, d ∉ o.visited

namespace VisitOrder

theorem Grows.refl (o : VisitOrder) : o.Grows o [] :=
  ⟨by simp, by simp, List.nodup_nil, by simp⟩

theorem Grows.trans {o o' o'' : VisitOrder} {done done' : List ClassId} (h : o.Grows o' done)
    (h' : o'.Grows o'' done') : o.Grows o'' (done ++ done') := by
  have hfresh : ∀ d ∈ done', d ∉ done ∧ d ∉ o.visited := fun d hd =>
    not_or.1 fun hor => h'.fresh d hd ((h.visited d).2 hor)
  refine ⟨by rw [h'.order, h.order, List.append_assoc], fun d => ?_, ?_, fun d hd => ?_⟩
  · rw [h'.visited, h.visited, List.mem_append, ← or_assoc, or_comm (a := d ∈ done')]
  · rw [List.nodup_append]
    refine ⟨h.nodup, h'.nodup, ?_⟩
    rintro a ha b hb rfl
    exact (hfresh a hb).1 ha
  · rcases List.mem_append.1 hd with hd | hd
    · exact h.fresh d hd
    · exact (hfresh d hd).2

theorem Sound.length_le {m : Model} {o : VisitOrder} (h : o.Sound m) :
    o.visited.length ≤ m.classes.length :=
  length_le_of_nodup h.nodup h.bound

theorem Grows.length_le {m : Model} {o o' : VisitOrder} {done : List ClassId}
    (h : o.Grows o' done) (ho : o.Sound m) : o.visited.length ≤ o'.visited.length :=
  (List.subperm_of_subset ho.nodup fun d hd => (h.visited d).2 (.inr hd)).length_le

/-- The order in which `d` has been seen but is not finished. -/
def seeing (o : VisitOrder) (d : ClassId) : VisitOrder := { o with visited := d :: o.visited }

theorem Sound.seeing {m : Model} {o : VisitOrder} (h : o.Sound m) {d : ClassId}
    (hd : d ∉ o.visited) (hlt : d < m.classes.length) (hdef : m.IsDefinition d) :
    (o.seeing d).Sound m := by
  refine ⟨List.nodup_cons.2 ⟨hd, h.nodup⟩, fun e he => ?_, fun e he => ?_⟩
  · rcases List.mem_cons.1 he with rfl | he
    · exact hlt
    · exact h.bound e he
  · rcases List.mem_cons.1 he with rfl | he
    · exact hdef
    · exact h.complete e he

theorem Grows.finish {o o' : VisitOrder} {d : ClassId} {done : List ClassId}
    (h : (o.seeing d).Grows o' done) (hd : d ∉ o.visited) :
    o.Grows { o' with order := o'.order ++ [d] } (done ++ [d]) := by
  refine ⟨by simp [h.order, seeing], fun e => ?_, ?_, fun e he => ?_⟩
  · simp only [h.visited, seeing, List.mem_cons, List.mem_append]
    grind
  · rw [← List.concat_eq_append]
    exact h.nodup.concat fun hmem => h.fresh d hmem List.mem_cons_self
  · rcases List.mem_append.1 he with he | he
    · exact fun hmem => h.fresh e he (List.mem_cons_of_mem _ hmem)
    · rwa [List.mem_singleton.1 he]

end VisitOrder

/-- What holds while the bases `todo` are still to be visited, since the walk began at `start`. -/
structure Visiting (m : Model) (start o : VisitOrder) (todo : List Base) : Prop where
  sound : o.Sound m
  grows : ∃ done, start.Grows o done
  bases : ∀ b ∈ todo, m.hasClass b.target = true

/-- With fuel for every class not seen yet, the class behind `c` is visited. -/
theorem Valid.visit?_total {m : Model} (hm : m.Valid) (fuel : Nat) :
    ∀ {o : VisitOrder} {c : ClassId}, o.Sound m → c < m.classes.length →
      m.classes.length < o.visited.length + fuel →
      ∃ o' done, m.visit? fuel o c = some o' ∧ o'.Sound m ∧ o.Grows o' done ∧
        ∀ d, m.definition? c = some d → d ∈ o'.visited := by
  induction fuel with
  | zero =>
    intro o c ho _ hfuel
    have := ho.length_le
    omega
  | succ fuel ih =>
    intro o c ho hc hfuel
    obtain ⟨d, hd, hlt⟩ := hm.definition?_isSome hc
    have hdef : ∀ e, m.definition? c = some e → e = d := fun e he =>
      Option.some.inj (he.symm.trans hd)
    by_cases hmem : d ∈ o.visited
    · refine ⟨o, [], by simp [visit?, hd, hmem], ho, .refl o, fun e he => ?_⟩
      rwa [hdef e he]
    · obtain ⟨k, hk⟩ := hasClass_iff.1 (decide_eq_true hlt)
      have hstart := ho.seeing hmem hlt (hm.isDefinition_of_definition? hc hd)
      -- `d` itself pays for the unit of fuel that its bases have less
      have hfuel : m.classes.length < (o.seeing d).visited.length + fuel := by
        simp only [VisitOrder.seeing, List.length_cons]
        omega
      obtain ⟨o', hfold, ho', ⟨done, hdone⟩, -⟩ := foldlM_total
        (f := fun (o : VisitOrder) (b : Base) => m.visit? fuel o b.target)
        (m.Visiting (o.seeing d)) (fun o' b rest ⟨ho', ⟨done, hdone⟩, hrest⟩ => by
          have hb := of_decide_eq_true (hrest b List.mem_cons_self)
          have hlen := hdone.length_le hstart
          obtain ⟨o'', done', h1, h2, h3, -⟩ := ih ho' hb (by omega)
          exact ⟨o'', h1, h2, ⟨_, hdone.trans h3⟩, fun b hb => hrest b (List.mem_cons_of_mem _ hb)⟩)
        ⟨hstart, ⟨[], .refl _⟩, (hm.consistent hk).bases⟩
      rw [VisitOrder.seeing] at hfold
      refine ⟨_, done ++ [d], by simp [visit?, hd, hmem, hk, hfold], ?_, hdone.finish hmem, ?_⟩
      · exact ⟨ho'.nodup, ho'.bound, ho'.complete⟩
      · intro e he
        rw [hdef e he]
        exact (hdone.visited d).2 (.inr List.mem_cons_self)

/-- What holds while the classes `todo` are still to be visited. -/
structure Ordering (m : Model) (o : VisitOrder) (todo : List ClassId) : Prop where
  sound : o.Sound m
  grows : ∃ done, (⟨[], []⟩ : VisitOrder).Grows o done
  behind : ∀ c < m.classes.length, c ∈ todo ∨ ∀ d, m.definition? c = some d → d ∈ o.visited
  ahead : ∀ c ∈ todo, c < m.classes.length

theorem Ordering.step {m : Model} (hm : m.Valid) {o : VisitOrder} {c : ClassId}
    {rest : List ClassId} (h : m.Ordering o (c :: rest)) :
    ∃ o', m.visit? (m.classes.length + 1) o c = some o' ∧ m.Ordering o' rest := by
  obtain ⟨ho, ⟨done, hdone⟩, hbehind, hahead⟩ := h
  obtain ⟨o', done', h1, h2, h3, h4⟩ := hm.visit?_total _ ho (hahead c List.mem_cons_self)
    (Nat.lt_add_left _ (Nat.lt_succ_self _))
  refine ⟨o', h1, h2, ⟨_, hdone.trans h3⟩, fun e he => ?_, fun e he =>
    hahead e (List.mem_cons_of_mem _ he)⟩
  rcases hbehind e he with hmem | hmem
  · rcases List.mem_cons.1 hmem with rfl | hmem
    · exact .inr h4
    · exact .inl hmem
  · exact .inr fun d hd => (h3.visited d).2 (.inr (hmem d hd))

/-- The classes in the order of processing are those that are their own definition, each once. -/
theorem Valid.visitOrder?_total {m : Model} (hm : m.Valid) :
    ∃ order, m.visitOrder? = some order ∧ order.Nodup ∧
      ∀ d, d ∈ order ↔ d < m.classes.length ∧ m.IsDefinition d := by
  have hstart : m.Ordering ⟨[], []⟩ m.classIds := by
    refine ⟨⟨List.nodup_nil, by simp, by simp⟩, ⟨[], .refl _⟩, fun c hc => ?_, fun c hc => ?_⟩
    · exact .inl (List.mem_range.2 hc)
    · exact List.mem_range.1 hc
  obtain ⟨o, hfold, ho, ⟨done, hdone⟩, hall, -⟩ :=
    foldlM_total m.Ordering (fun _ _ _ h => h.step hm) hstart
  have hmem : ∀ d, d ∈ o.order ↔ d ∈ o.visited := fun d => by
    simp [hdone.order, hdone.visited]
  refine ⟨o.order, by simp [visitOrder?, hfold], ?_, fun d => ?_⟩
  · rw [hdone.order]
    exact hdone.nodup
  · rw [hmem]
    refine ⟨fun h => ⟨ho.bound d h, ho.complete d h⟩, fun ⟨hlt, hd⟩ => ?_⟩
    rcases hall d hlt with h | h
    · exact absurd h List.not_mem_nil
    · exact h d hd

end ApiProperties.Model

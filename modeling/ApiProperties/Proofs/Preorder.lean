import ApiProperties.Proofs.Ancestors
import ApiProperties.Proofs.Traversal

/-!
The order in which a depth-first walk over the bases meets classes. Such a walk always goes on from
the class met last that has a parent not met yet, to the first such parent; this fixes the order.
The walk from a complete class meets all the other classes that it derives from, each of them once.
-/

set_option autoImplicit false

namespace ApiProperties.Model

/-- Where a depth-first walk goes on that has met these classes, the latest first. -/
def nextMet? (m : Model) (met : List ClassId) : Option ClassId :=
  (met.flatMap m.parents).find? (· ∉ met)

/-- A depth-first walk that has met the classes `met`, the latest first, still meets those in
`order`, and then ends. -/
inductive Preorder (m : Model) : (met order : List ClassId) → Prop
  | done {met : List ClassId} (h : m.nextMet? met = none) : Preorder m met []
  | next {met order : List ClassId} {d : ClassId} (h : m.nextMet? met = some d)
      (rest : Preorder m (d :: met) order) : Preorder m met (d :: order)

variable {m : Model} {met order order' : List ClassId} {c d : ClassId}

theorem nextMet?_eq_none : m.nextMet? met = none ↔ ∀ e ∈ met, ∀ d ∈ m.parents e, d ∈ met := by
  simp only [nextMet?, List.find?_eq_none, List.mem_flatMap, decide_not, Bool.not_eq_true',
    decide_eq_false_iff_not, not_not]
  exact ⟨fun h e he d hd => h d ⟨e, he, hd⟩, fun h d ⟨e, he, hd⟩ => h e he d hd⟩

theorem fresh_of_nextMet? (h : m.nextMet? met = some d) : d ∉ met := by
  simpa using List.find?_some h

theorem parent_of_nextMet? (h : m.nextMet? met = some d) : ∃ e ∈ met, d ∈ m.parents e :=
  List.mem_flatMap.1 (List.mem_of_find?_eq_some h)

namespace Preorder

theorem unique (h : m.Preorder met order) (h' : m.Preorder met order') : order = order' := by
  induction h generalizing order' with
  | done hnone =>
    cases h' with
    | done => rfl
    | next hsome => simp [hnone] at hsome
  | next hsome _ ih =>
    cases h' with
    | done hnone => simp [hnone] at hsome
    | next hsome' rest' =>
      obtain rfl := Option.some.inj (hsome.symm.trans hsome')
      rw [ih rest']

theorem fresh (h : m.Preorder met order) : ∀ d ∈ order, d ∉ met := by
  induction h with
  | done => simp
  | next hsome _ ih =>
    refine List.forall_mem_cons.2 ⟨fresh_of_nextMet? hsome, fun e he hmem => ?_⟩
    exact ih e he (List.mem_cons_of_mem _ hmem)

theorem nodup (h : m.Preorder met order) : order.Nodup := by
  induction h with
  | done => exact List.nodup_nil
  | next _ rest ih =>
    exact List.nodup_cons.2 ⟨fun hmem => rest.fresh _ hmem List.mem_cons_self, ih⟩

/-- When the walk ends, all parents have been met. -/
theorem closed (h : m.Preorder met order) :
    ∀ e, e ∈ met ∨ e ∈ order → ∀ d ∈ m.parents e, d ∈ met ∨ d ∈ order := by
  induction h with
  | done hnone =>
    rintro e (he | he) d hd
    · exact .inl (nextMet?_eq_none.1 hnone e he d hd)
    · simp at he
  | @next met order x _ _ ih =>
    intro e he d hd
    have hlist : ∀ e, e ∈ x :: met ∨ e ∈ order ↔ e ∈ met ∨ e ∈ x :: order := fun e => by
      simp only [List.mem_cons]
      tauto
    exact (hlist d).1 (ih e ((hlist e).2 he) d hd)

end Preorder

theorem Valid.isDefinition_of_mem_parents (hm : m.Valid) (h : d ∈ m.parents c) :
    d < m.classes.length ∧ m.IsDefinition d := by
  cases hk : m.class? c with
  | none => simp [parents, hk] at h
  | some k =>
    obtain ⟨b, hb, hd⟩ : ∃ b ∈ k.bases, m.definition? b.target = some d := by
      simpa [parents, hk] using h
    have hlt := hm.bases_lt hk b.target (List.mem_map_of_mem hb)
    obtain ⟨e, he, helt⟩ := hm.definition?_isSome hlt
    obtain rfl := Option.some.inj (hd.symm.trans he)
    exact ⟨helt, hm.isDefinition_of_definition? hlt hd⟩

/-- Whatever the walk meets, a class from which it set out derives from. -/
theorem Preorder.ancestor (hm : m.Valid) (h : m.Preorder met order)
    (hmet : ∀ e ∈ met, m.IsDefinition e) : ∀ d ∈ order, ∃ e ∈ met, m.Ancestor e d := by
  induction h with
  | done => simp
  | @next met order x hsome _ ih =>
    obtain ⟨e, he, hparent⟩ := parent_of_nextMet? hsome
    have hderives : m.DerivesFrom e x := derivesFrom_iff.2 ⟨hmet e he, hparent⟩
    have hx := (hm.isDefinition_of_mem_parents hparent).2
    refine List.forall_mem_cons.2 ⟨⟨e, he, .single hderives⟩, fun d hd => ?_⟩
    obtain ⟨e', he', hanc⟩ := ih (List.forall_mem_cons.2 ⟨hx, hmet⟩) d hd
    rcases List.mem_cons.1 he' with rfl | he'
    · exact ⟨e, he, .head hderives hanc⟩
    · exact ⟨e', he', hanc⟩

/-- From a complete class the walk meets just the other classes that it derives from. -/
theorem Preorder.mem_iff (hm : m.Valid) (hc : m.IsDefinition c) (h : m.Preorder [c] order) :
    d ∈ order ↔ m.Ancestor c d ∧ d ≠ c := by
  constructor
  · intro hd
    obtain ⟨e, he, hanc⟩ := h.ancestor hm (by simpa using hc) d hd
    obtain rfl := List.mem_singleton.1 he
    exact ⟨hanc, by simpa using h.fresh d hd⟩
  · rintro ⟨hanc, hne⟩
    have hmet : d = c ∨ d ∈ order := by
      induction hanc with
      | single hcd => simpa using h.closed c (by simp) _ (derivesFrom_iff.1 hcd).2
      | @tail e d _ hed ih =>
        have he : e = c ∨ e ∈ order := or_iff_not_imp_left.2 fun hne => (ih hne).resolve_left hne
        simpa using h.closed e (by simpa using he) d (derivesFrom_iff.1 hed).2
    exact hmet.resolve_left hne

/-- Some class is met anew in every step, so the walk ends. -/
theorem Valid.exists_preorder (hm : m.Valid) (hnodup : met.Nodup)
    (hlt : ∀ d ∈ met, d < m.classes.length) : ∃ order, m.Preorder met order := by
  induction hn : m.classes.length - met.length using Nat.strong_induction_on generalizing met with
  | _ n ih =>
    cases hnext : m.nextMet? met with
    | none => exact ⟨[], .done hnext⟩
    | some d =>
      obtain ⟨e, -, hparent⟩ := parent_of_nextMet? hnext
      have hnodup' : (d :: met).Nodup := List.nodup_cons.2 ⟨fresh_of_nextMet? hnext, hnodup⟩
      have hlt' : ∀ e ∈ d :: met, e < m.classes.length :=
        List.forall_mem_cons.2 ⟨(hm.isDefinition_of_mem_parents hparent).1, hlt⟩
      have hlen := length_le_of_nodup hnodup' hlt'
      rw [List.length_cons] at hlen
      obtain ⟨order, h⟩ := ih _ (by rw [List.length_cons]; omega) hnodup' hlt' rfl
      exact ⟨d :: order, .next hnext h⟩

end ApiProperties.Model

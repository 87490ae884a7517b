import ApiProperties.Proofs.Run
import ApiProperties.Proofs.Schedule

/-!
Which classes a run processes, and when. `Synthesis.Walk` is the recursion over the bases as it
stands without fuel, with each class processed as soon as its bases are done. On a consistent model
it ends, whatever cycles bases and definitions form, and what it does is what the run does.
-/

set_option autoImplicit false

namespace ApiProperties

/-- The walk, at `o` and with the work `t` done, visits the classes `todo` and ends at `o'` with the
work `t'` done. -/
inductive Synthesis.Walk (y : Synthesis) :
    (o : Model.VisitOrder) → (t : Progress) → (todo : List ClassId) →
      (o' : Model.VisitOrder) → (t' : Progress) → Prop
  | done {o : Model.VisitOrder} {t : Progress} : Walk y o t [] o t
  | seen {o o' : Model.VisitOrder} {t t' : Progress} {c d : ClassId} {todo : List ClassId}
      (hd : t.model.definition? c = some d) (hseen : d ∈ o.visited) (rest : Walk y o t todo o' t') :
      Walk y o t (c :: todo) o' t'
  | enter {o o₁ o' : Model.VisitOrder} {t t₁ u t' : Progress} {c d : ClassId} {k : Class}
      {todo : List ClassId} (hd : t.model.definition? c = some d) (hfresh : d ∉ o.visited)
      (hk : t.model.class? d = some k)
      (bases : Walk y (o.seeing d) t (k.bases.map (·.target)) o₁ t₁)
      (hu : y.processClass? t₁.model d = some u)
      (rest : Walk y { o₁ with order := o₁.order ++ [d] } (t₁.followedBy u) todo o' t') :
      Walk y o t (c :: todo) o' t'

/-- A walk has one way to go. -/
theorem Synthesis.Walk.unique {y : Synthesis} {o o' o'' : Model.VisitOrder} {t t' t'' : Progress}
    {todo : List ClassId} (h : y.Walk o t todo o' t') (h' : y.Walk o t todo o'' t'') :
    o' = o'' ∧ t' = t'' := by
  induction h generalizing o'' t'' with
  | done =>
    cases h'
    exact ⟨rfl, rfl⟩
  | seen hd hseen _ ih =>
    cases h' with
    | seen _ _ rest' => exact ih rest'
    | enter hd' hfresh' =>
      obtain rfl := Option.some.inj (hd.symm.trans hd')
      exact absurd hseen hfresh'
  | enter hd hfresh hk _ hu _ ihbases ihrest =>
    cases h' with
    | seen hd' hseen' =>
      obtain rfl := Option.some.inj (hd.symm.trans hd')
      exact absurd hseen' hfresh
    | enter hd' _ hk' bases' hu' rest' =>
      obtain rfl := Option.some.inj (hd.symm.trans hd')
      obtain rfl := Option.some.inj (hk.symm.trans hk')
      obtain ⟨rfl, rfl⟩ := ihbases bases'
      obtain rfl := Option.some.inj (hu.symm.trans hu')
      exact ihrest rest'

namespace Model
variable {m : Model} {y : Synthesis} {o : VisitOrder} {t : Progress} {c d : ClassId}

/-- What holds on the way: the work done so far is that on the finished classes, in their order. -/
structure Walked (m : Model) (y : Synthesis) (o : VisitOrder) (t : Progress) : Prop where
  sound : o.Sound m
  seen : ∀ d ∈ o.order, d ∈ o.visited
  work : y.processAll? m o.order = some t

namespace Walked

theorem seeing (h : m.Walked y o t) (hd : d ∉ o.visited) (hlt : d < m.classes.length)
    (hdef : m.IsDefinition d) : m.Walked y (o.seeing d) t :=
  ⟨h.sound.seeing hd hlt hdef, fun e he => List.mem_cons_of_mem d (h.seen e he), h.work⟩

theorem finish (h : m.Walked y o t) (hd : d ∈ o.visited) {u : Progress}
    (hu : y.processClass? t.model d = some u) :
    m.Walked y { o with order := o.order ++ [d] } (t.followedBy u) := by
  refine ⟨⟨h.sound.nodup, h.sound.bound, h.sound.complete⟩, fun e he => ?_, ?_⟩
  · rcases List.mem_append.1 he with he | he
    · exact h.seen e he
    · rwa [List.mem_singleton.1 he]
  · have hwork := h.work
    rw [Synthesis.processAll?] at hwork ⊢
    simp [List.foldlM_append, hwork, hu]

/-- Processing leaves definitions and bases alone. -/
theorem same (h : m.Walked y o t) (hm : m.Valid) :
    t.model.Valid ∧ t.model.outline = m.outline := by
  have hdef : ∀ c ∈ o.order, m.IsDefinition c := fun c hc => h.sound.complete c (h.seen c hc)
  obtain ⟨t', ht', hvalid, hout, -⟩ := hm.processAll?_induction y (fun _ _ => True) hdef trivial
    fun _ _ _ _ _ _ _ _ _ _ _ _ _ _ => trivial
  obtain rfl := Option.some.inj (h.work.symm.trans ht')
  exact ⟨hvalid, hout⟩

end Walked

/-- With fuel for every class not seen yet, the walk ends, and the search for the order ends with
the same classes seen and finished. -/
theorem Valid.exists_walk (hm : m.Valid) (y : Synthesis) (fuel : Nat) :
    ∀ (todo : List ClassId) {o : VisitOrder} {t : Progress}, m.Walked y o t →
      (∀ c ∈ todo, m.hasClass c = true) → m.classes.length < o.visited.length + fuel →
      ∃ o' t', todo.foldlM (m.visit? fuel) o = some o' ∧ m.Walked y o' t' ∧
        o.visited ⊆ o'.visited ∧ y.Walk o t todo o' t' := by
  induction fuel with
  | zero =>
    intro _ o t h _ hfuel
    have := h.sound.length_le
    omega
  | succ fuel ihfuel =>
    intro todo
    induction todo with
    | nil => exact fun {o t} h _ _ => ⟨o, t, rfl, h, fun _ hd => hd, .done⟩
    | cons c todo ih =>
      intro o t h htodo hfuel
      obtain ⟨hc, htodo⟩ := List.forall_mem_cons.1 htodo
      obtain ⟨hvalid, hout⟩ := h.same hm
      obtain ⟨d, hd, hlt⟩ := hm.definition?_isSome (of_decide_eq_true hc)
      have hdef := hm.isDefinition_of_definition? (of_decide_eq_true hc) hd
      have hd' : t.model.definition? c = some d := (definition?_congr hout c).trans hd
      by_cases hmem : d ∈ o.visited
      · obtain ⟨o', t', hfold, h', hsub, hwalk⟩ := ih h htodo hfuel
        have hvisit : m.visit? (fuel + 1) o c = some o := by simp [visit?, hd, hmem]
        exact ⟨o', t', by simp [hvisit, hfold], h', hsub, .seen hd' hmem hwalk⟩
      · obtain ⟨k, hk⟩ := hasClass_iff.1 (decide_eq_true hlt)
        obtain ⟨k', hk', hbases, -⟩ := class?_of_skeleton (skeleton_congr hout.symm) hk
        -- `d` itself pays for the unit of fuel that its bases have less
        obtain ⟨o₁, t₁, hfold₁, h₁, hsub₁, hwalk₁⟩ := ihfuel (k.bases.map (·.target))
          (h.seeing hmem hlt hdef) (fun b hb => decide_eq_true (hm.bases_lt hk b hb)) (by
            simp only [VisitOrder.seeing, List.length_cons]
            omega)
        obtain ⟨hvalid₁, hout₁⟩ := h₁.same hm
        have hdef₁ := (isDefinition_congr hout₁).2 hdef
        obtain ⟨k₁, hk₁⟩ := hdef₁.listed
        obtain ⟨ids, s, own, vs, -, hu⟩ := hvalid₁.processClass?_total hk₁ hdef₁ y
        have hlen : o.visited.length ≤ o₁.visited.length :=
          (List.subperm_of_subset h.sound.nodup
            fun e he => hsub₁ (List.mem_cons_of_mem d he)).length_le
        obtain ⟨o', t', hfold, h', hsub, hwalk⟩ :=
          ih (h₁.finish (hsub₁ List.mem_cons_self) hu) htodo (by simp only; omega)
        have hvisit : m.visit? (fuel + 1) o c = some { o₁ with order := o₁.order ++ [d] } := by
          rw [List.foldlM_map, VisitOrder.seeing] at hfold₁
          simp [visit?, hd, hmem, hk, hfold₁]
        refine ⟨o', t', by simp [hvisit, hfold], h', fun e he => ?_, ?_⟩
        · exact hsub (hsub₁ (List.mem_cons_of_mem d he))
        · exact .enter hd' hmem hk' (hbases ▸ hwalk₁) hu hwalk

theorem Valid.exists_walk_visitOrder? (hm : m.Valid) (y : Synthesis) :
    ∃ o t, y.Walk ⟨[], []⟩ (.start m) m.classIds o t ∧ m.visitOrder? = some o.order ∧
      y.processAll? m o.order = some t := by
  have hstart : m.Walked y ⟨[], []⟩ (.start m) :=
    ⟨⟨List.nodup_nil, by simp, by simp⟩, by simp, rfl⟩
  obtain ⟨o, t, hfold, h, -, hwalk⟩ := hm.exists_walk y (m.classes.length + 1) m.classIds hstart
    (fun c hc => decide_eq_true (List.mem_range.1 hc)) (by omega)
  exact ⟨o, t, hwalk, by simp [visitOrder?, hfold], h.work⟩

/-! ### Counting classes -/

theorem classesVisited_settleAll (d : Desk) (vs : List (Property × Option Property)) :
    (d.settleAll c vs).stats.classesVisited = d.stats.classesVisited :=
  Desk.settleAll_induction (fun d' => d'.stats.classesVisited = d.stats.classesVisited)
    (fun v _ d' h => by
      cases hv : v.2 <;>
        simpa [Desk.settle, Desk.commit, Desk.giveBack, Statistics.merge, Statistics.zero] using h)
    rfl

theorem Valid.classesVisited_processAll? (hm : m.Valid) {order : List ClassId}
    (horder : ∀ c ∈ order, m.IsDefinition c) (h : y.processAll? m order = some t) :
    t.stats.classesVisited = order.length := by
  obtain ⟨t', ht', -, -, hcount⟩ := hm.processAll?_induction y
    (fun t rest => t.stats.classesVisited + rest.length = order.length) horder
    (by simp [Progress.start, Statistics.zero]) fun t c rest k ids s own vs hcount _ _ _ _ _ => by
      have hone : (((y.desk t.model k ids s own).settleAll c vs).stats).classesVisited = 1 :=
        classesVisited_settleAll _ vs
      simp only [Progress.followedBy, Desk.progress, Statistics.merge, hone]
      rw [List.length_cons] at hcount
      omega
  obtain rfl := Option.some.inj (h.symm.trans ht')
  simpa using hcount

theorem Coverage.length_eq {order : List ClassId} (h : m.Coverage order) :
    order.length = (m.classIds.filterMap m.definition?).toFinset.card := by
  rw [← List.toFinset_card_of_nodup h.nodup]
  congr 1
  ext d
  simp [h.complete, classIds, hasClass]

/-- A run walks over the bases to its end. It processes the complete classes and no others, each of
them once, and only a cycle of bases can bring a class before one that it derives from. -/
theorem run?_coverage (m : Model) (hm : m.Valid) (y : Synthesis) :
    ∃ o t, y.Walk ⟨[], []⟩ (.start m) m.classIds o t ∧ y.run? m = some t ∧
      y.processAll? m o.order = some t ∧ m.Coverage o.order ∧
      t.stats.classesVisited = (m.classIds.filterMap m.definition?).toFinset.card := by
  obtain ⟨o, t, hwalk, horder, hwork⟩ := hm.exists_walk_visitOrder? y
  have hcoverage := hm.coverage_visitOrder? horder
  have hdef : ∀ c ∈ o.order, m.IsDefinition c := fun c hc =>
    (hm.isDefinition_iff.2 ((hcoverage.complete c).1 hc)).2
  refine ⟨o, t, hwalk, by simp [Synthesis.run?, horder, hwork], hwork, hcoverage, ?_⟩
  rw [hm.classesVisited_processAll? hdef hwork, hcoverage.length_eq]

/-- Two classes that are views of each other, one of them with itself as a base, above a ring of
bases that a view closes. -/
def thicket : Model :=
  ⟨"unit", [
    { Class.empty 0 "Left" with bases := [⟨2, .pub⟩], definition := some 1 },
    { Class.empty 1 "Right" with bases := [⟨1, .pub⟩, ⟨3, .pub⟩], definition := some 0 },
    { Class.empty 2 "Near" with bases := [⟨3, .pub⟩] },
    { Class.empty 3 "Far" with bases := [⟨4, .pub⟩] },
    { Class.empty 4 "Again" with definition := some 2 }]⟩

theorem run?_coverage_thicket : thicket.Valid ∧
    thicket.visitOrder? = some [3, 2, 0, 1] ∧
    ∃ o t, Synthesis.withoutVerbs.Walk ⟨[], []⟩ (.start thicket) thicket.classIds o t ∧
      Synthesis.withoutVerbs.run? thicket = some t ∧
      Synthesis.withoutVerbs.processAll? thicket o.order = some t ∧ thicket.Coverage o.order ∧
      t.stats.classesVisited = (thicket.classIds.filterMap thicket.definition?).toFinset.card :=
  have hvalid : thicket.Valid := by decide
  ⟨hvalid, by decide, run?_coverage thicket hvalid .withoutVerbs⟩

end Model
end ApiProperties

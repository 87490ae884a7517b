import ApiProperties.Proofs.Appending
import ApiProperties.Proofs.Evolution
import ApiProperties.Proofs.Rerun

/-!
Runs in passes. Where nothing is overridden, a run processes each complete class in one pass, whose
result no other class touches. A method that was added to the classes before the run can be added to
them later as well, and gets the same place.
-/

set_option autoImplicit false

namespace ApiProperties

namespace Model
variable {m m' : Model} {c : ClassId} {k : Class} {f : Method} {id : MethodId} {y : Synthesis}

theorem OverrideFree.congr (h : m'.outline = m.outline) (hno : m.OverrideFree) :
    m'.OverrideFree := by
  intro k' hk' f' hf'
  obtain ⟨d, hd⟩ := List.mem_iff_getElem?.1 hk'
  obtain ⟨i, hi⟩ := List.mem_iff_getElem?.1 hf'
  have hmethod : m'.method? ⟨d, i⟩ = some f' := by
    rw [method?, show m'.class? d = some k' from hd, Option.bind_some, hi]
  obtain ⟨g, hg, ho⟩ := method?_of_outline h.symm hmethod
  obtain ⟨k, hk, hmem⟩ := Option.bind_eq_some_iff.1 hg
  rw [← show g.isOverride = f'.isOverride from congrArg (·.isOverride) ho]
  exact hno k (List.mem_of_getElem? hk) g (List.mem_of_getElem? hmem)

/-- What holds while the classes `rest` are still to be processed: these are as they were, and every
other complete class has been processed in one pass. -/
structure Passing (m : Model) (y : Synthesis) (t : Progress) (rest : List ClassId) : Prop where
  nodup : rest.Nodup
  ahead : ∀ c ∈ rest, t.model.class? c = m.class? c
  passed : ∀ c k, m.class? c = some k → m.IsDefinition c → c ∈ rest ∨
    ∃ P : Pass y c, P.before = k ∧ P.model.outline = m.outline ∧
      t.model.class? c = some P.after ∧ ∀ r ∈ P.done.renames, r ∈ t.renames

theorem Passing.step {ids : List MethodId} {s : Pending} {own : List Property}
    {vs : List (Property × Option Property)} {t : Progress} {rest : List ClassId}
    (h : m.Passing y t (c :: rest)) (hno : m.OverrideFree) (hvalid : t.model.Valid)
    (hout : t.model.outline = m.outline) (hk : t.model.class? c = some k)
    (hdef : t.model.IsDefinition c) (hp : t.model.Processed y c k ids s own vs) :
    m.Passing y
      (t.followedBy (((y.desk t.model k ids s own).settleAll c vs).progress t.model c)) rest := by
  obtain ⟨hnodup, hahead, hpassed⟩ := h
  obtain ⟨hc, hnodup⟩ := List.nodup_cons.1 hnodup
  refine ⟨hnodup, fun d hd => ?_, fun d k' hk' hdef' => ?_⟩
  · have hcd : c ≠ d := fun h => hc (h ▸ hd)
    exact (class?_putClass_ne t.model _ hcd).trans (hahead d (List.mem_cons_of_mem c hd))
  · by_cases hcd : c = d
    · subst hcd
      obtain rfl : k = k' := by
        rw [hahead c List.mem_cons_self, hk'] at hk
        exact (Option.some.inj hk).symm
      let P : Pass y c := ⟨t.model, k, ids, s, own, vs, hvalid, hno.congr hout, hdef, hk, hp⟩
      refine .inr ⟨P, rfl, hout, class?_putClass_self _ hk, fun r hr => ?_⟩
      exact List.mem_append_right t.renames hr
    · refine (hpassed d k' hk' hdef').imp (fun hd => ?_) ?_
      · exact (List.mem_cons.1 hd).resolve_left (Ne.symm hcd)
      · rintro ⟨P, hbefore, hPout, hafter, hrenames⟩
        refine ⟨P, hbefore, hPout, (class?_putClass_ne t.model _ hcd).trans hafter, fun r hr => ?_⟩
        exact List.mem_append_left _ (hrenames r hr)

/-- A run where nothing is overridden processes each complete class in one pass. -/
theorem Valid.run?_passes (hm : m.Valid) (hno : m.OverrideFree) (y : Synthesis) :
    ∃ t, y.run? m = some t ∧ t.model.Valid ∧ t.model.outline = m.outline ∧
      ∀ c k, m.class? c = some k → m.IsDefinition c → ∃ P : Pass y c, P.before = k ∧
        P.model.outline = m.outline ∧ t.model.class? c = some P.after ∧
        ∀ r ∈ P.done.renames, r ∈ t.renames := by
  obtain ⟨t, ht, hvalid, hout, hpassing⟩ := hm.run?_induction y (m.Passing y)
    (fun order hnodup hmem => ⟨hnodup, fun _ _ => rfl, fun c k hk hdef =>
      .inl ((hmem c).2 ⟨of_decide_eq_true (hasClass_iff.2 ⟨k, hk⟩), hdef⟩)⟩)
    (fun _ _ _ _ _ _ _ _ h hvalid hout hk hdef hp => h.step hno hvalid hout hk hdef hp)
  exact ⟨t, ht, hvalid, hout, fun c k hk hdef =>
    (hpassing.passed c k hk hdef).resolve_left List.not_mem_nil⟩

/-- Where nothing is left to do, one more pass completes and keeps nothing. -/
theorem AtRest.exists_pass (hrest : m.AtRest y c) (hm : m.Valid) (hno : m.OverrideFree)
    (hc : m.IsDefinition c) (hk : m.class? c = some k) : ∃ P : Pass y c, P.model = m ∧
      P.before = k ∧ P.pending.completed = [] ∧ ∀ v ∈ P.verdicts, v.2 = none := by
  obtain ⟨ids, s, own, vs, hp, -⟩ := hm.processClass?_total hk hc y
  obtain ⟨hcompleted, hdropped⟩ := (hp.atRest_iff hm hk hc).1 hrest
  exact ⟨⟨m, k, ids, s, own, vs, hm, hno, hc, hk, hp⟩, rfl, rfl, hcompleted, hdropped⟩

/-! ### One more method -/

theorem addMethod?_eq (hk : m.class? c = some k) : m.addMethod? c f =
    some (m.modifyClass c (·.withMethod { f with owner := c }), ⟨c, k.methods.length⟩) := by
  simp [addMethod?, hk, Class.withMethod]

theorem outline_withMethod (m : Model) (c : ClassId) (f : Method) :
    (m.modifyClass c (·.withMethod f)).outline =
      m.outline.modifyClass c (·.withMethod f.outline) := by
  refine ext_class? rfl fun d => ?_
  rw [class?_outline, class?_modifyClass, class?_modifyClass, class?_outline]
  split
  · rw [Option.map_map, Option.map_map]
    congr 1
    funext k
    simp [Class.outline, Class.withMethod]
  · rfl

theorem OverrideFree.withMethod (hno : m.OverrideFree) (hf : f.isOverride = false) :
    (m.modifyClass c (·.withMethod f)).OverrideFree := by
  intro k' hk' f' hf'
  obtain ⟨d, hd⟩ := List.mem_iff_getElem?.1 hk'
  have hclass : (m.modifyClass c (·.withMethod f)).class? d = some k' := hd
  rw [class?_modifyClass] at hclass
  split at hclass
  · obtain ⟨k, hk, rfl⟩ := Option.map_eq_some_iff.1 hclass
    rcases List.mem_append.1 hf' with hold | hnew
    · exact hno k (List.mem_of_getElem? hk) f' hold
    · rw [List.mem_singleton.1 hnew, hf]
  · exact hno k' (List.mem_of_getElem? hclass) f' hf'

section Later
variable {n n' : Model} {id' : MethodId} (h : m.addMethod? c f = some (m', id))
  (hout : n.outline = m.outline) (h' : n.addMethod? c f = some (n', id'))
include h hout h'

theorem outline_addMethod? : n'.outline = m'.outline := by
  simp only [addMethod?, Option.bind_eq_bind, Option.bind_eq_some_iff] at h h'
  obtain ⟨k, -, hm'⟩ := h
  obtain ⟨k', -, hn'⟩ := h'
  obtain ⟨rfl, -⟩ := Prod.mk.inj (Option.some.inj hm')
  obtain ⟨rfl, -⟩ := Prod.mk.inj (Option.some.inj hn')
  exact (outline_withMethod n c _).trans (hout ▸ (outline_withMethod m c _).symm)

/-- A method that could be added before can be added later. -/
theorem Valid.addMethod?_later (hm' : m'.Valid) (hn : n.Valid) : n'.Valid := by
  refine Valid.congr (outline_addMethod? h hout h').symm hm' fun d k hk p hp => ?_
  obtain ⟨k₀, hk₀, hproperties, -⟩ := class?_addMethod? h' hk
  have hp₀ := (hn.consistent hk₀).properties p (hproperties ▸ hp)
  refine ⟨hp₀.owner, fun link hl => ?_⟩
  obtain ⟨g, hg⟩ := hasMethod_iff.1 (hp₀.links link hl)
  exact hasMethod_iff.2 ⟨g, method?_addMethod? h' hg⟩

end Later
end Model

/-- The properties that a class without properties gets, it gets from its own methods. -/
theorem Pass.known_after {y : Synthesis} {c : ClassId} (P : Pass y c)
    (hfree : P.before.properties = []) :
    ∀ p ∈ P.after.properties, ∀ id ∈ p.accessors, id ∈ P.after.methodIds := by
  intro p hp id hid
  rw [P.after_properties, P.processed.assembly.own_eq_nil hfree] at hp
  obtain ⟨⟨q, v⟩, hv, hq⟩ := List.mem_filterMap.1 ((List.mem_append.1 hp).resolve_left nofun)
  obtain rfl : v = some p := hq
  obtain ⟨hpending, rfl⟩ := P.of_kept hv
  obtain ⟨f, hf⟩ := Model.hasMethod_iff.1 (P.hasMethod_of_accessor hpending hid)
  have hmem := (P.valid.mem_methodIds P.listed).2 ⟨P.owner_of_accessor hpending hid, f, hf⟩
  rw [Class.methodIds, P.length_after]
  rw [Class.methodIds, P.id_before] at hmem
  have hsame : P.after.id = c := Desk.id_settleAll.trans P.id_desk
  rwa [hsame]

end ApiProperties

import ApiProperties.Proofs.PairedSetter

/-!
When the tags tell that the setter came late. A getter that became a property is internal in the one
history, and given back in the other one if the setter is an overload of it; and a getter that was
given back stays so unless the setter that comes late is paired with it.
-/

set_option autoImplicit false

namespace ApiProperties.Histories
variable {y : Synthesis} {c : ClassId} {f : Method} (H : Histories y c f) {p q : Property}
  {a : Accessor} {L R : List Property}

/-! ### The property that the setter belongs to -/

theorem id_notMem (hp : p ∈ H.first.pending.properties) : H.id ∉ p.accessors := by
  intro hmem
  obtain ⟨x, f₀, hid, hf⟩ := H.first_method hp hmem
  have hlt := (List.getElem?_eq_some_iff.1 hf).1
  obtain rfl : H.first.before.methods.length = x := congrArg (·.index) hid
  exact Nat.lt_irrefl _ hlt

theorem mem_first_after : q ∈ H.first.after.properties ↔
    ∃ p, (p, some q) ∈ H.first.verdicts := by
  rw [H.first_after_properties, List.mem_filterMap]
  constructor
  · rintro ⟨v, hv, hq⟩
    exact ⟨v.1, hq ▸ hv⟩
  · rintro ⟨p, hp⟩
    exact ⟨_, hp, rfl⟩

theorem of_mem_once_after (hp : p ∈ H.once.after.properties) : ∃ q ∈ H.once.pending.properties,
    H.once.verdict q = some p ∧ p.getter = q.getter ∧ p.setter = q.setter := by
  rw [H.once_after_properties, List.mem_filterMap] at hp
  obtain ⟨⟨q, v⟩, hv, hq⟩ := hp
  obtain rfl : v = some p := hq
  obtain ⟨hmem, -, hverdict⟩ := H.once.mem_verdicts.1 hv
  obtain ⟨-, rfl⟩ := H.once.of_kept hv
  exact ⟨q, hmem, hverdict.symm, rfl, rfl⟩

theorem Single.setter_ne {H : Histories y c f} (hs : H.Single) (hp : p ∈ H.once.after.properties) :
    p.setter ≠ some H.id := by
  intro hsetter
  obtain ⟨q, hq, hverdict, -, hsame⟩ := H.of_mem_once_after hp
  rcases List.mem_append.1 (hs.pending_once ▸ hq) with hfirst | hstarted
  · exact H.id_notMem hfirst (Property.mem_accessors.2 (.inr (hsame ▸ hsetter)))
  · rw [H.once.verdict_of_setter hq (H.getter_of_started hstarted)] at hverdict
    cases hverdict

namespace Joins
variable {H} (J : H.Joins a L p R)
include J

/-- What the pair is committed as. -/
theorem mem_once_after :
    H.once.model.documented (p.attach H.id f a) ∈ H.once.after.properties := by
  obtain ⟨hg, hs⟩ := J.attached_halves
  have hpending := J.mem_once
  rw [H.once_after_properties, List.mem_filterMap]
  refine ⟨(p.attach H.id f a, some (H.once.model.documented (p.attach H.id f a))), ?_, rfl⟩
  exact H.once.mem_verdicts.2
    ⟨hpending, H.once.dismisses_of_setter hs, (H.once.verdict_of_pair hpending hg hs).symm⟩

theorem getter_once_after :
    (H.once.model.documented (p.attach H.id f a)).getter = p.getter := by
  simp [Model.documented, Property.attach, J.role]

theorem setter_once_after :
    (H.once.model.documented (p.attach H.id f a)).setter = some H.id := by
  simp [Model.documented, Property.attach, J.role]

theorem getter_of_setter (hq : q ∈ H.once.after.properties) (hs : q.setter = some H.id) :
    q.getter = p.getter := by
  obtain ⟨r, hr, -, hgetter, hsame⟩ := H.of_mem_once_after hq
  have hid : H.id ∈ r.accessors := Property.mem_accessors.2 (.inr (hsame ▸ hs))
  have hother : r ∉ L ++ R := fun hmem => H.id_notMem (J.mem_pending hmem).1 hid
  rw [J.pending_once] at hr
  have hpair : r = p.attach H.id f a := by
    simp only [List.mem_append, List.mem_cons] at hr hother
    tauto
  rw [hgetter, hpair]
  exact J.getter_once_after

end Joins

/-- A getter that is not paired with the setter is pending with it as well. -/
theorem mem_once_of_unpaired {g : MethodId} (hp : p ∈ H.first.pending.properties)
    (hg : p.getter = some g)
    (hunpaired : ¬ ∃ r ∈ H.once.after.properties, r.getter = some g ∧ r.setter = some H.id) :
    p ∈ H.once.pending.properties := by
  rcases H.single_or_joins with hs | ⟨a, L, p₀, R, J⟩
  · simp [hs.pending_once, hp]
  · have hne : p ≠ p₀ := by
      rintro rfl
      exact hunpaired ⟨_, J.mem_once_after, J.getter_once_after.trans hg, J.setter_once_after⟩
    rw [J.split] at hp
    simp only [List.mem_append, List.mem_cons] at hp
    exact (J.mem_pending (List.mem_append.2 (hp.imp_right (·.resolve_left hne)))).2

/-- An overloaded getter does not become a property. -/
theorem givesBack_of_overload {g : MethodId} {g' : Method} (hp : p ∈ H.first.pending.properties)
    (hp' : p ∈ H.once.pending.properties) (hs : p.setter = none) (hg : p.getter = some g)
    (hg' : H.first.model.method? g = some g') (horiginal : g'.originalName = f.originalName) :
    H.once.GivesBack p := by
  obtain ⟨f', b, hf', -, hb⟩ := H.gainsOnce.hasOverloads?_eq hp hg
  obtain rfl := Option.some.inj (hg'.symm.trans hf')
  refine ⟨hp', .inr ?_⟩
  rw [H.once.verdict_of_getter hp' hg hs hb, horiginal, beq_self_eq_true, Bool.or_true, if_pos rfl]

/-! ### What equal tags tell -/

namespace Tagged
variable {H} (T : H.Tagged)
include T

theorem generation (x : Nat) : H.late.after.generation? x = H.once.after.generation? x := by
  have htags := congrArg (·[x]?) T.tags
  simpa [Class.generation?] using htags

/-- If the setter is an overload of a getter that became a property, they are a pair. -/
theorem paired_of_overload {g : MethodId} {g' : Method} (hv : (p, some q) ∈ H.first.verdicts)
    (hs : p.setter = none) (hg : p.getter = some g) (hg' : H.first.model.method? g = some g')
    (horiginal : g'.originalName = f.originalName) :
    ∃ r ∈ H.once.after.properties, r.getter = some g ∧ r.setter = some H.id := by
  by_contra hunpaired
  have hp := (H.first.of_kept hv).1
  have hmem : g ∈ p.accessors := Property.mem_accessors.2 (.inl hg)
  obtain ⟨x, f₀, rfl, hf⟩ := H.first_method hp hmem
  -- it is internal when the setter comes late
  have hkept := H.first.method_of_kept hf hv hmem
  have hlate : H.late.after.generation? x = some .internal := by
    rw [H.late_generation hkept fun p' hp' hmem' => ?_, Class.generation?, hkept]
    · rfl
    · obtain ⟨hback, -⟩ := H.pending_again hp'
      obtain rfl := H.first.eq_of_shared hback.pending hp hmem' hmem
      exact absurd hv (hback.notMem q)
  -- and given back when the setter is there at once
  have honce := H.mem_once_of_unpaired hp hg hunpaired
  have hback := H.givesBack_of_overload hp honce hs hg hg' horiginal
  have htags := T.generation x
  rw [hlate, hback.generation (H.once_method hf) hmem] at htags
  cases htags

/-- A getter that was given back finds its setter only if it has not been renamed and nothing else
accepts this. -/
theorem rejoins_of_back (J : H.Joins a L p R) (hback : H.first.GivesBack p) :
    p ∈ H.again.pending.properties ∧
      ∀ q ∈ H.again.own, Pending.completable? H.late.model H.id a q = some false := by
  obtain ⟨⟨g, hg⟩, -⟩ := J.halves
  have hmem : g ∈ p.accessors := Property.mem_accessors.2 (.inl hg)
  obtain ⟨x, f₀, rfl, hf⟩ := H.first_method J.pending hmem
  obtain ⟨-, F, -, hF⟩ := H.exists_first (List.getElem?_eq_some_iff.1 hf).1
  have honce : H.once.after.generation? x = some .internal := by
    rw [Class.generation?, J.taken H.once J.mem_once (J.mem_accessors_attach.2 (.inr hmem))
      (H.once_method hf)]
    rfl
  -- so the setter has taken the getter in
  have hgone : ¬ ∀ p' ∈ H.again.pending.properties, (⟨c, x⟩ : MethodId) ∈ p'.accessors →
      p' ∈ H.late.pending.properties := by
    intro hstays
    have htags := T.generation x
    rw [H.late_generation hF hstays, hback.generation hf hmem, honce] at htags
    cases htags
  simp only [not_forall] at hgone
  obtain ⟨p', hagain, hmem', hgone⟩ := hgone
  obtain rfl := H.first.eq_of_shared (H.pending_again hagain).1.pending J.pending hmem' hmem
  have htotal : ∀ q ∈ H.again.own, ∃ b, Pending.completable? H.late.model H.id a q = some b := by
    intro q hq
    obtain ⟨p', hv⟩ := H.mem_first_after.1 (H.again_own ▸ hq)
    refine Model.completable?_total H.method?_late_id a fun j hj => ?_
    obtain ⟨f₀, -, hf₀⟩ := H.method?_of_kept hv ((H.first.of_kept hv).2 ▸ hj)
    exact Model.hasMethod_iff.2 ⟨_, hf₀⟩
  rcases firstIndex?_total htotal with ⟨i, -, hi, -⟩ | ⟨-, hnone⟩
  · rw [((H.late_placement J.accessor).eq_of_completes hi).1] at hgone
    exact absurd hagain hgone
  · exact ⟨hagain, hnone⟩

end Tagged

/-! ### What the tags come down to -/

/-- The setter is no overload of a getter that became a property, unless they are a pair, and it finds
its getter if this was given back. -/
structure Meets : Prop where
  overload : ∀ p q, (p, some q) ∈ H.first.verdicts → p.setter = none → ∀ g g',
    p.getter = some g → H.first.model.method? g = some g' → g'.originalName = f.originalName →
    ∃ r ∈ H.once.after.properties, r.getter = some g ∧ r.setter = some H.id
  partner : ∀ a L p R, H.Joins a L p R → H.first.GivesBack p →
    p ∈ H.again.pending.properties ∧
      ∀ q ∈ H.again.own, Pending.completable? H.late.model H.id a q = some false

/-- No name is in the way. -/
structure NamesStay : Prop where
  unnamed : f.accessor? = none → f.name ∉ keptNames H.first.verdicts
  renamed : ∀ a L p R, H.Joins a L p R → ∀ q, (p, some q) ∈ H.first.verdicts →
    p.name = a.name ∨ H.Unused p.name a.name
  once : ∀ a L p R, H.Joins a L p R → H.first.GivesBack p → H.Unchained

namespace Meets
variable {H} (M : H.Meets)
include M

theorem spares (hother : ∀ r ∈ H.once.after.properties, r.setter = some H.id →
    r.getter ≠ p.getter) : H.first.Spares f p := by
  intro q hv hs g g' hg hg' horiginal
  obtain ⟨r, hr, hgetter, hsetter⟩ := M.overload p q hv hs g g' hg hg' horiginal
  exact hother r hr hsetter (hgetter.trans hg.symm)

theorem spares_of_single (hs : H.Single) : H.first.Spares f p :=
  M.spares fun _ hr hsetter => absurd hsetter (hs.setter_ne hr)

theorem spares_others (J : H.Joins a L p R) (hq : q ∈ L ++ R) : H.first.Spares f q := by
  obtain ⟨hpending, -⟩ := J.mem_pending hq
  refine M.spares fun r hr hsetter hgetter => ?_
  obtain ⟨⟨g, hg⟩, -⟩ := J.halves
  have hsame : q.getter = some g := by rw [← hgetter, J.getter_of_setter hr hsetter, hg]
  obtain rfl := H.first.eq_of_shared hpending J.pending (Property.mem_accessors.2 (.inl hsame))
    (Property.mem_accessors.2 (.inl hg))
  obtain ⟨hL, hR⟩ := H.first.notMem_of_split J.split
  exact (List.mem_append.1 hq).elim hL hR

theorem tagged : H.Tagged := by
  rcases H.single_or_joins with hs | ⟨a, L, p, R, J⟩
  · exact hs.tagged fun _ _ => M.spares_of_single hs
  · have hspared : ∀ q ∈ L ++ R, H.first.Spares f q := fun q hq => M.spares_others J hq
    rcases H.first.fate J.pending with hback | ⟨q, hv⟩
    · obtain ⟨hagain, hrefuse⟩ := M.partner a L p R J hback
      obtain ⟨L₂, R₂, K⟩ := J.placed_late_of_back hagain hrefuse
      exact J.tagged_of_back hspared K
    · obtain ⟨-, hd, hq⟩ := H.first.mem_verdicts.1 hv
      exact J.tagged_of_kept hspared hq.symm hd

theorem named (hnames : H.NamesStay) : H.Named := by
  rcases H.single_or_joins with hs | ⟨a, L, p, R, J⟩
  · exact hs.named (fun _ _ => M.spares_of_single hs) hnames.unnamed
  · have hspared : ∀ q ∈ L ++ R, H.first.Spares f q := fun q hq => M.spares_others J hq
    rcases H.first.fate J.pending with hback | ⟨q, hv⟩
    · obtain ⟨hagain, hrefuse⟩ := M.partner a L p R J hback
      obtain ⟨L₂, R₂, K⟩ := J.placed_late_of_back hagain hrefuse
      exact J.named_of_back hspared K (hnames.once a L p R J hback)
    · obtain ⟨-, hd, hq⟩ := H.first.mem_verdicts.1 hv
      exact J.named_of_kept hspared hq.symm hd (hnames.renamed a L p R J q hv)

end Meets

theorem tagged_iff : H.Tagged ↔ H.Meets :=
  ⟨fun T => ⟨fun _ _ hv hs _ _ hg hg' horiginal => T.paired_of_overload hv hs hg hg' horiginal,
    fun _ _ _ _ J hback => T.rejoins_of_back J hback⟩, fun M => M.tagged⟩

end ApiProperties.Histories

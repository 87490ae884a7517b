import ApiProperties.Proofs.Histories

/-!
Which getter the setter is paired with. If it is there at once it joins the first pending property
that accepts it, or starts one of its own. If it comes late it completes the property that the class
got instead; or, when the getter was given back and nothing else accepts the setter, it joins the same
pending property as it would have joined at once.
-/

set_option autoImplicit false

namespace ApiProperties

theorem Method.role_of_isSetter {f : Method} (hf : f.isSetter = true) {a : Accessor}
    (ha : f.accessor? = some a) : a.role = .setter := by
  have hgetter : f.isGetter = false := by
    by_contra h
    rw [not_isSetter_of_isGetter (by simpa using h)] at hf
    cases hf
  simp only [accessor?, hgetter, hf, Bool.false_eq_true, if_false, if_true] at ha
  split at ha
  · cases ha
  · obtain ⟨_, -, rfl⟩ := Option.map_eq_some_iff.1 ha
    rfl

theorem Property.getter_single {c : ClassId} {id : MethodId} {f : Method} {a : Accessor}
    (ha : a.role = .setter) : (single c id f a).getter = none := by
  simp [single, attach, ha, plain]

namespace Histories
variable {y : Synthesis} {c : ClassId} {f : Method} (H : Histories y c f) {p q : Property} {x : Nat}
  {f₀ : Method} {a : Accessor} {L R : List Property}

/-- The setter is paired with `p` if it is there at once. -/
structure Joins (a : Accessor) (L : List Property) (p : Property) (R : List Property) : Prop where
  accessor : f.accessor? = some a
  split : H.first.pending.properties = L ++ p :: R
  refuse : ∀ q ∈ L, H.once.model.accepts? H.id a q = some false
  accept : H.once.model.accepts? H.id a p = some true

/-- The setter finds nothing to be paired with. -/
def Single : Prop := ∀ a, f.accessor? = some a → ∀ p ∈ H.first.pending.properties,
  H.once.model.accepts? H.id a p = some false

theorem single_or_joins : H.Single ∨ ∃ a L p R, H.Joins a L p R := by
  cases ha : f.accessor? with
  | none => exact .inl fun a ha' => by simp [ha] at ha'
  | some a =>
    have htotal : ∀ p ∈ H.first.pending.properties,
        ∃ b, H.once.model.accepts? H.id a p = some b := by
      intro p hp
      refine Model.accepts?_total H.method?_once_id a fun id hid => ?_
      obtain ⟨x, f₀, rfl, hf⟩ := H.first_method hp hid
      exact Model.hasMethod_iff.2 ⟨f₀, H.method?_once hf⟩
    rcases firstIndex?_total htotal with ⟨i, -, hi, -⟩ | ⟨-, hall⟩
    · obtain ⟨L, p, R, hsplit, -, haccept, hrefuse⟩ := firstIndex?_found hi
      exact .inr ⟨a, L, p, R, ha, hsplit, hrefuse, haccept⟩
    · refine .inl fun a' ha' => ?_
      obtain rfl := Option.some.inj (ha.symm.trans ha')
      exact hall

/-- The setter that comes late is paired with `p`, which is pending again. -/
structure Rejoins (a : Accessor) (L : List Property) (p : Property) (R : List Property) : Prop where
  again : H.again.pending.properties = L ++ p :: R
  late : H.late.pending.properties = L ++ p.attach H.id f a :: R
  completed : H.late.pending.completed = []
  own : H.late.own = H.again.own

/-- What the first pass keeps of the properties. -/
def kept (l : List Property) : List Property := (H.first.judge l).filterMap (·.2)

theorem mem_kept {l : List Property} (hl : ∀ p ∈ l, p ∈ H.first.pending.properties) :
    q ∈ H.kept l ↔ ∃ p ∈ l, (p, some q) ∈ H.first.verdicts := by
  simp only [kept, List.mem_filterMap, Pass.mem_judge, Pass.mem_verdicts]
  constructor
  · rintro ⟨v, ⟨hmem, hd, hv⟩, hq⟩
    exact ⟨v.1, hmem, hl _ hmem, hd, hq ▸ hv⟩
  · rintro ⟨p, hmem, -, hd, hv⟩
    exact ⟨(p, some q), ⟨hmem, hd, hv⟩, rfl⟩

theorem again_own_eq : H.again.own = H.kept H.first.pending.properties := by
  rw [H.again_own, H.first_after_properties, H.first.verdicts_eq]
  rfl

/-- The pending property that the setter starts, if it offers anything. -/
def started : List Property := (f.accessor?.map (Property.single c H.id f)).toList

theorem getter_of_started (hp : p ∈ H.started) : p.getter = none := by
  obtain ⟨a, ha, rfl⟩ := Option.map_eq_some_iff.1 (Option.mem_toList.1 hp)
  exact Property.getter_single (Method.role_of_isSetter H.isSetter ha)

theorem once_own : H.once.own = [] :=
  H.once.processed.assembly.own_eq_nil (by rw [H.once_before]; exact H.free)

/-! ### A setter by itself -/

namespace Single
variable {H} (hs : H.Single)
include hs

theorem pending_once : H.once.pending.properties = H.first.pending.properties ++ H.started := by
  cases ha : f.accessor? with
  | none => simp [started, ha, (H.gainsOnce.pending_of_mute ha).1]
  | some a =>
    have hown : firstIndex? (Pending.completable? H.once.model H.id a) H.first.own = some none := by
      rw [H.first_own]
      rfl
    rw [((H.gainsOnce.placement ha).eq_of_starts hown (firstIndex?_eq_none.2 (hs a ha))).1]
    simp [started, ha, id]

theorem placed_late : H.late.pending.properties = H.again.pending.properties ++ H.started ∧
    H.late.pending.completed = [] ∧ H.late.own = H.again.own := by
  cases ha : f.accessor? with
  | none =>
    obtain ⟨hpending, hown⟩ := H.gainsLate.pending_of_mute ha
    simp [started, ha, hpending, hown, H.completes]
  | some a =>
    have hown : ∀ q ∈ H.again.own, Pending.completable? H.late.model H.id a q = some false := by
      intro q hq
      obtain ⟨p, hp, hv⟩ := (H.mem_kept fun _ hp => hp).1 (H.again_own_eq ▸ hq)
      rw [H.completable?_of_kept hv, hs a ha p hp]
    have hpending : ∀ p ∈ H.again.pending.properties,
        H.late.model.accepts? H.id a p = some false := by
      intro p hp
      rw [H.accepts?_of_pending_again hp, hs a ha p (H.pending_again hp).1.pending]
    obtain ⟨hlate, hsame⟩ := (H.late_placement ha).eq_of_starts (firstIndex?_eq_none.2 hown)
      (firstIndex?_eq_none.2 hpending)
    simp [started, ha, hlate, hsame, H.completes]

end Single

/-! ### A setter that is paired -/

namespace Joins
variable {H} (J : H.Joins a L p R)
include J

theorem role : a.role = .setter := Method.role_of_isSetter H.isSetter J.accessor

theorem pending : p ∈ H.first.pending.properties := by simp [J.split]

theorem halves : (∃ g, p.getter = some g) ∧ p.setter = none := by
  obtain ⟨-, hfree, g, -, -, hg, -⟩ := Model.accepts?_eq_true.1 J.accept
  rw [J.role] at hfree hg
  exact ⟨⟨g, hg⟩, hfree⟩

theorem mem_accessors_attach {id : MethodId} :
    id ∈ (p.attach H.id f a).accessors ↔ id = H.id ∨ id ∈ p.accessors :=
  Property.mem_accessors_attach (Model.accepts?_eq_true.1 J.accept).free id

theorem pending_once : H.once.pending.properties = L ++ p.attach H.id f a :: R := by
  have hown : firstIndex? (Pending.completable? H.once.model H.id a) H.first.own = some none := by
    rw [H.first_own]
    rfl
  have hfound : firstIndex? (H.once.model.accepts? H.id a) H.first.pending.properties =
      some (some L.length) := by
    rw [J.split]
    exact firstIndex?_of_split J.refuse J.accept
  rw [((H.gainsOnce.placement J.accessor).eq_of_joins hown hfound).1]
  simp only [J.split, modify_append_length]
  rfl

/-- The property that the class got from `p` gets the setter that comes late. -/
theorem placed_late_of_kept (hq : H.first.verdict p = some q)
    (hd : y.dismisses H.first.model p = false) :
    H.late.pending.properties = H.again.pending.properties ∧
      H.late.pending.completed = [(H.kept L).length] ∧
      H.late.own = H.kept L ++ q.attach H.id f a :: H.kept R := by
  have hown : H.again.own = H.kept L ++ q :: H.kept R := by
    rw [H.again_own_eq, J.split, kept, kept, kept, Pass.judge_append, Pass.judge_cons _ _ hd, hq]
    simp
  have hv : (p, some q) ∈ H.first.verdicts := H.first.mem_verdicts.2 ⟨J.pending, hd, hq.symm⟩
  have hrefuse : ∀ q' ∈ H.kept L, Pending.completable? H.late.model H.id a q' = some false := by
    intro q' hq'
    have hmem : ∀ p ∈ L, p ∈ H.first.pending.properties := fun p' hp' => by simp [J.split, hp']
    obtain ⟨p', hp', hv'⟩ := (H.mem_kept hmem).1 hq'
    rw [H.completable?_of_kept hv', J.refuse p' hp']
  have hfound : firstIndex? (Pending.completable? H.late.model H.id a) H.again.own =
      some (some (H.kept L).length) := by
    rw [hown]
    exact firstIndex?_of_split hrefuse ((H.completable?_of_kept hv).trans J.accept)
  obtain ⟨hpending, hlate⟩ := (H.late_placement J.accessor).eq_of_completes hfound
  refine ⟨by rw [hpending], by rw [hpending, H.completes]; rfl, ?_⟩
  rw [hlate, hown, modify_append_length]

theorem left_right (hL : q ∈ L) (hR : q ∈ R) : False := by
  obtain ⟨i, hi, hlt⟩ := H.first.before_of_split J.split hL
  obtain ⟨j, hj, hlt'⟩ := H.first.behind_of_split J.split hR
  exact Nat.lt_asymm (hlt j hj) (hlt' i hi)

/-- What is pending again before `p` was pending before it. -/
theorem mem_left_of_pending_again {L₂ R₂ : List Property}
    (hsplit : H.again.pending.properties = L₂ ++ p :: R₂) (hq : q ∈ L₂) : q ∈ L := by
  have hmem : q ∈ H.again.pending.properties := by simp [hsplit, hq]
  have hfirst : q ∈ L ++ p :: R := J.split ▸ (H.pending_again hmem).1.pending
  have hne : q ≠ p := fun h => (H.again.notMem_of_split hsplit).1 (h ▸ hq)
  refine (List.mem_append.1 hfirst).resolve_right fun hR => ?_
  have hR : q ∈ R := (List.mem_cons.1 hR).resolve_left hne
  obtain ⟨i, hi, hlt⟩ := H.again.before_of_split hsplit hq
  obtain ⟨j, hj, hlt'⟩ := H.first.behind_of_split J.split hR
  exact Nat.lt_asymm (hlt j hj) (hlt' i hi)

/-- What is pending again behind `p` was pending behind it. -/
theorem mem_right_of_pending_again {L₂ R₂ : List Property}
    (hsplit : H.again.pending.properties = L₂ ++ p :: R₂) (hq : q ∈ R₂) : q ∈ R := by
  have hmem : q ∈ H.again.pending.properties := by simp [hsplit, hq]
  have hfirst : q ∈ L ++ p :: R := J.split ▸ (H.pending_again hmem).1.pending
  have hne : q ≠ p := fun h => (H.again.notMem_of_split hsplit).2 (h ▸ hq)
  rcases List.mem_append.1 hfirst with hL | hR
  · obtain ⟨i, hi, hlt⟩ := H.again.behind_of_split hsplit hq
    obtain ⟨j, hj, hlt'⟩ := H.first.before_of_split J.split hL
    exact (Nat.lt_asymm (hlt j hj) (hlt' i hi)).elim
  · exact (List.mem_cons.1 hR).resolve_left hne

/-- The setter that comes late joins `p` if it finds this pending again and nothing to complete. -/
theorem placed_late_of_back (hagain : p ∈ H.again.pending.properties)
    (hrefuse : ∀ q ∈ H.again.own, Pending.completable? H.late.model H.id a q = some false) :
    ∃ L₂ R₂, H.Rejoins a L₂ p R₂ := by
  obtain ⟨L₂, R₂, hsplit⟩ := List.append_of_mem hagain
  have hrefuse' : ∀ q ∈ L₂, H.late.model.accepts? H.id a q = some false := by
    intro q hq
    rw [H.accepts?_of_pending_again (by simp [hsplit, hq])]
    exact J.refuse q (J.mem_left_of_pending_again hsplit hq)
  have haccept : H.late.model.accepts? H.id a p = some true :=
    (H.accepts?_of_pending_again hagain).trans J.accept
  have hfound : firstIndex? (H.late.model.accepts? H.id a) H.again.pending.properties =
      some (some L₂.length) := by
    rw [hsplit]
    exact firstIndex?_of_split hrefuse' haccept
  obtain ⟨hpending, hown⟩ := (H.late_placement J.accessor).eq_of_joins
    (firstIndex?_eq_none.2 hrefuse) hfound
  refine ⟨L₂, R₂, hsplit, ?_, by rw [hpending, H.completes], hown⟩
  simp only [hpending, hsplit, modify_append_length]

end Joins
end Histories
end ApiProperties

import ApiProperties.Proofs.Agreement

/-!
A setter that is paired with a getter. If the class got a property for the getter, the setter that
comes late completes it, and the name that this has by then matters. If the getter was given back, the
pair is committed last instead of in its turn, and it matters who is renamed when.
-/

set_option autoImplicit false

namespace ApiProperties.Histories
variable {y : Synthesis} {c : ClassId} {f : Method} (H : Histories y c f) {p q : Property} {x : Nat}
  {f₀ : Method} {a : Accessor} {L R : List Property}

/-- Nothing was renamed to make room for the one name in the first pass, or for the other in the pass
with the setter. -/
structure Unused (n n' : String) : Prop where
  first : ∀ r ∈ H.first.done.renames, r.className = H.first.before.name → r.oldName ≠ n
  once : ∀ r ∈ H.once.done.renames, r.className = H.first.before.name → r.oldName ≠ n'

theorem documented_late : H.late.model.documented = H.once.model.documented := by
  funext p
  rw [Model.documented, Model.documented, Model.mergedComment?_congr H.outline]

/-- The names of the pair and of the property that its getter became make the same difference. -/
theorem makeRooms_eq {α : Type} {P : Place c α} {z : α} {l r : List String}
    (hfirst : P.Exposed H.first.desk H.first.verdicts z (l ++ [p.name] ++ r))
    (honce : P.Exposed H.once.desk H.once.verdicts z (l ++ [a.name] ++ r))
    (hname : p.name = a.name ∨ H.Unused p.name a.name) :
    P.makeRooms (l ++ [p.name] ++ r) z = P.makeRooms (l ++ [a.name] ++ r) z := by
  rcases hname with hsame | hunused
  · rw [hsame]
  · have hskip : P.makeRooms (l ++ p.name :: r) z = P.makeRooms (l ++ r) z :=
      Place.Exposed.makeRooms_skip (by simpa using hfirst) hunused.first
    have hskip' : P.makeRooms (l ++ a.name :: r) z = P.makeRooms (l ++ r) z :=
      Place.Exposed.makeRooms_skip (by simpa using honce) fun rec hrec hcls =>
        hunused.once rec hrec (hcls.trans (congrArg (·.name) H.once_before))
    simp [hskip, hskip']

theorem keptNames_attached (m : Model) :
    keptNames [(p.attach H.id f a, some (m.documented (p.attach H.id f a)))] = [a.name] := by
  simp [keptNames, Model.documented]

namespace Joins
variable {H} (J : H.Joins a L p R) (hspared : ∀ q ∈ L ++ R, H.first.Spares f q)
include J

theorem mem_pending (hq : q ∈ L ++ R) :
    q ∈ H.first.pending.properties ∧ q ∈ H.once.pending.properties := by
  rw [J.split, J.pending_once]
  simp only [List.mem_append, List.mem_cons] at hq ⊢
  tauto

theorem attached_halves : (p.attach H.id f a).getter.isSome = true ∧
    (p.attach H.id f a).setter.isSome = true := by
  obtain ⟨⟨g, hg⟩, -⟩ := J.halves
  simp [Property.attach, J.role, hg]

theorem mem_once : p.attach H.id f a ∈ H.once.pending.properties := by
  simp [J.pending_once]

/-- Whoever processes the pair keeps it. -/
theorem judge_attached (P : Pass y c) (hp : p.attach H.id f a ∈ P.pending.properties)
    (l : List Property) : P.judge (p.attach H.id f a :: l) =
      (p.attach H.id f a, some (P.model.documented (p.attach H.id f a))) :: P.judge l := by
  obtain ⟨hg, hs⟩ := J.attached_halves
  rw [Pass.judge_cons _ _ (P.dismisses_of_setter hs), P.verdict_of_pair hp hg hs]

include hspared in
theorem aligned : H.Aligned L (H.first.judge [p])
    [(p.attach H.id f a, some (H.once.model.documented (p.attach H.id f a)))] R := by
  refine ⟨?_, ?_, fun q hq => J.mem_pending hq⟩
  · rw [H.first.verdicts_eq, J.split, ← Pass.judge_append, ← Pass.judge_append]
    simp
  · have hL : H.once.judge L = H.first.judge L := H.gainsOnce.judge_eq
      (fun q hq => (J.mem_pending (List.mem_append_left R hq)).1)
      (fun q hq => (J.mem_pending (List.mem_append_left R hq)).2)
      fun q hq => hspared q (List.mem_append_left R hq)
    have hR : H.once.judge R = H.first.judge R := H.gainsOnce.judge_eq
      (fun q hq => (J.mem_pending (List.mem_append_right L hq)).1)
      (fun q hq => (J.mem_pending (List.mem_append_right L hq)).2)
      fun q hq => hspared q (List.mem_append_right L hq)
    rw [H.once.verdicts_eq, J.pending_once, Pass.judge_append,
      J.judge_attached H.once J.mem_once, hL, hR]
    simp

/-- The pair's methods are internal. -/
theorem taken (P : Pass y c) (hp : p.attach H.id f a ∈ P.pending.properties)
    (hx : (⟨c, x⟩ : MethodId) ∈ (p.attach H.id f a).accessors) {g : Method}
    (hg : P.before.methods[x]? = some g) :
    P.after.methods[x]? = some { g with generation := .internal } := by
  obtain ⟨hgetter, hsetter⟩ := J.attached_halves
  have hv : (p.attach H.id f a, some (P.model.documented (p.attach H.id f a))) ∈ P.verdicts :=
    P.mem_verdicts.2
      ⟨hp, P.dismisses_of_setter hsetter, (P.verdict_of_pair hp hgetter hsetter).symm⟩
  exact P.method_of_kept hg hv hx

theorem id_mem : (⟨c, H.id.index⟩ : MethodId) ∈ (p.attach H.id f a).accessors :=
  J.mem_accessors_attach.2 (.inl H.id_eq.symm)

/-- The methods that are no accessors of `p` have their fates. -/
theorem mem_others (hx : (⟨c, x⟩ : MethodId) ∉ p.accessors) :
    ∀ q ∈ H.first.pending.properties, (⟨c, x⟩ : MethodId) ∈ q.accessors → q ∈ L ++ R := by
  intro q hq hmem
  have hne : q ≠ p := fun h => hx (h ▸ hmem)
  rw [J.split] at hq
  simp only [List.mem_append, List.mem_cons] at hq ⊢
  tauto

/-! ### When the getter has become a property -/

section Kept
variable (hq : H.first.verdict p = some q) (hd : y.dismisses H.first.model p = false)
include hq hd

theorem quiet : H.Quiet := by
  obtain ⟨hpending, -, -⟩ := J.placed_late_of_kept hq hd
  refine ⟨fun p hp => hpending ▸ hp, fun v hv => ?_⟩
  obtain ⟨hmem, hd, hverdict⟩ := H.late.mem_verdicts.1 hv
  rw [hverdict]
  exact (H.givesBack_late (hpending ▸ hmem) hmem).back.resolve_left (by simp [hd])

/-- The pair's methods are internal once the first pass is over. -/
theorem pair_kept (hf : H.first.before.methods[x]? = some f₀)
    (hx : (⟨c, x⟩ : MethodId) ∈ p.accessors) :
    H.first.after.methods[x]? = H.once.after.methods[x]? := by
  have hv : (p, some q) ∈ H.first.verdicts := H.first.mem_verdicts.2 ⟨J.pending, hd, hq.symm⟩
  rw [H.first.method_of_kept hf hv hx,
    J.taken H.once J.mem_once (J.mem_accessors_attach.2 (.inr hx)) (H.once_method hf)]

/-- The setter completes a property, so it is not pending. -/
theorem setter_kept :
    H.late.after.methods[H.id.index]? = H.once.after.methods[H.id.index]? := by
  rw [J.taken H.once J.mem_once J.id_mem H.once_new]
  have hoffered : (⟨c, H.id.index⟩ : MethodId) ∈ H.late.offered := by
    rw [← H.id_eq]
    exact (H.late.processed.all _).2
      ⟨f, a, congrArg (·.owner) H.id_eq, H.method?_late_id, H.gainsLate.candidate, J.accessor⟩
  refine H.late.method_of_completing H.late_new hoffered fun p' hp' hmem => ?_
  rw [(J.placed_late_of_kept hq hd).1] at hp'
  obtain ⟨-, x, f₀, haccessors, hf, -⟩ := H.pending_again hp'
  rw [haccessors, List.mem_singleton, MethodId.mk.injEq] at hmem
  have hlt := (List.getElem?_eq_some_iff.1 hf).1
  rw [← hmem.2] at hlt
  exact Nat.lt_irrefl _ hlt

theorem properties_eq (A : H.Aligned L (H.first.judge [p])
    [(p.attach H.id f a, some (H.once.model.documented (p.attach H.id f a)))] R) :
    H.late.after.properties = H.once.after.properties := by
  obtain ⟨-, hcompleted, hown⟩ := J.placed_late_of_kept hq hd
  have hnone : H.late.verdicts.filterMap (·.2) = [] :=
    List.filterMap_eq_nil_iff.2 (J.quiet hq hd).drops
  have hsame : H.late.model.documented (q.attach H.id f a) =
      H.once.model.documented (p.attach H.id f a) := by
    rw [H.first.eq_documented J.pending hq, Model.documented_attach_documented, H.documented_late]
  rw [H.late.after_properties, hown, hcompleted, Model.documentedOwn_append_length, hnone, hsame,
    H.once_after_properties, A.once]
  simp [kept]

include hspared

theorem tagged_of_kept : H.Tagged := by
  have A := J.aligned hspared
  refine ⟨H.map_methods_eq _ (fun x f₀ F hf hF => ?_) (by rw [J.setter_kept hq hd]),
    by rw [J.properties_eq hq hd A]⟩
  refine (H.late_generation hF fun p hp _ => (J.quiet hq hd).stays p hp).trans ?_
  by_cases hx : (⟨c, x⟩ : MethodId) ∈ p.accessors
  · rw [Class.generation?, J.pair_kept hq hd hf hx]
  · exact (A.generation hf (J.mem_others hx)).symm

/-- The setter may come late if its getter has become a property, and no name was in the way. -/
theorem named_of_kept (hname : p.name = a.name ∨ H.Unused p.name a.name) : H.Named := by
  have A := J.aligned hspared
  have Q := J.quiet hq hd
  have hnames : keptNames (H.first.judge [p]) = [p.name] := by
    rw [Pass.judge_cons _ _ hd, hq, H.first.eq_documented J.pending hq]
    rfl
  refine ⟨H.methods_eq (fun x f₀ F hf hF => ?_) (J.setter_kept hq hd),
    H.events_eq fun x e he => ?_⟩
  · rw [Q.method hF]
    by_cases hx : (⟨c, x⟩ : MethodId) ∈ p.accessors
    · rw [← hF, J.pair_kept hq hd hf hx]
    · have hfate := A.fate hf (J.mem_others hx)
      rw [hnames, keptNames_attached] at hfate
      cases hfate with
      | free hfirst honce =>
        rw [← hF]
        exact hfirst.get_eq.trans (H.makeRooms_eq hfirst honce hname ▸ honce.get_eq.symm)
      | behind _ _ _ _ hfirst honce => exact hF.symm.trans (hfirst.get_eq.trans honce.get_eq.symm)
      | taken hfirst honce => exact hF.symm.trans (hfirst.trans honce.symm)
  · obtain ⟨hfirst, honce⟩ := A.names
    rw [hnames] at hfirst
    rw [keptNames_attached] at honce
    have hexposed := H.first.exposed_event he
    have hexposed' := H.once.exposed_event (x := x) (e := e) (by rw [H.once_before]; exact he)
    rw [hfirst] at hexposed
    rw [honce] at hexposed'
    rw [Q.names, hfirst, honce]
    exact H.makeRooms_eq hexposed hexposed' hname

end Kept
end Joins

/-! ### When the getter was given back -/

theorem name_late : H.late.desk.cls.name = H.first.before.name := by
  rw [H.late.name_desk, H.late_before]
  exact H.first.name_after

theorem name_once : H.once.desk.cls.name = H.first.before.name := by
  rw [H.once.name_desk, H.once_before]
  rfl

theorem dismisses_late (hq : q ∈ H.again.pending.properties) :
    y.dismisses H.late.model q = y.dismisses H.first.model q := by
  obtain ⟨-, x, f₀, haccessors, hf, hF⟩ := H.pending_again hq
  rw [H.gainsLate.dismisses_eq hq]
  refine Model.dismisses_of_accessors y fun id hid => ?_
  obtain rfl := List.mem_singleton.1 (haccessors ▸ hid)
  rw [H.again.method?_eq, H.first.method?_eq, H.resumed, hF, hf]

/-- No member of the class is renamed twice, in either history. -/
structure Unchained : Prop where
  late : RenamedOnce H.first.before.name (H.first.done.renames ++ H.late.done.renames)
  once : RenamedOnce H.first.before.name H.once.done.renames

namespace Unchained
variable {H} (U : H.Unchained) {α : Type} {P : Place c α} {z : α} {l r : List String} {n : String}
include U

/-- What was renamed in the first pass does not have to make room in the second one. -/
theorem same_of_clash (hfirst : P.Exposed H.first.desk H.first.verdicts z l)
    (hlate : P.Exposed H.late.desk H.late.verdicts (P.makeRooms l z) [n])
    (hclash : P.clashes n (P.makeRooms l z) = true) : P.makeRooms l z = z := by
  refine (hfirst.exists_record hclash).resolve_right fun ⟨n', hrecord⟩ => ?_
  have hrecord' := hlate.recorded hclash
  rw [H.name_late] at hrecord'
  exact U.late _ (List.mem_append_left _ hrecord) _ (List.mem_append_right _ hrecord') rfl rfl rfl rfl

/-- A member may make room for the pair's name last instead of in its turn. -/
theorem makeRooms_eq (hfirst : P.Exposed H.first.desk H.first.verdicts z (l ++ r))
    (honce : P.Exposed H.once.desk H.once.verdicts z (l ++ n :: r))
    (hlate : P.Exposed H.late.desk H.late.verdicts (P.makeRooms (l ++ r) z) [n]) :
    P.makeRooms [n] (P.makeRooms (l ++ r) z) = P.makeRooms (l ++ n :: r) z := by
  refine (P.makeRooms_insert (fun hclash => ?_) fun hstays => ?_).symm
  · exact honce.drop.displacedName_notMem (H.name_once ▸ U.once) hclash
  · refine Bool.eq_false_iff.2 fun hclash => ?_
    rw [Place.makeRooms_append] at hclash hlate
    rw [U.same_of_clash hfirst.drop hlate hclash, hstays] at hclash
    cases hclash

end Unchained

namespace Rejoins
variable {H} {L₂ R₂ : List Property} (K : H.Rejoins a L₂ p R₂) (J : H.Joins a L p R)
include K

theorem mem_late (hq : q ∈ L₂ ++ R₂) :
    q ∈ H.again.pending.properties ∧ q ∈ H.late.pending.properties := by
  rw [K.again, K.late]
  simp only [List.mem_append, List.mem_cons] at hq ⊢
  tauto

theorem dropped (hq : q ∈ L₂ ++ R₂) (hd : y.dismisses H.late.model q = false) :
    H.late.verdict q = none := by
  obtain ⟨hagain, hlate⟩ := K.mem_late hq
  exact (H.givesBack_late hagain hlate).back.resolve_left (by simp [hd])

theorem committed_first : (H.first.judge [p]).filterMap (·.2) = [] := by
  obtain ⟨hback, -⟩ := H.pending_again (p := p) (by simp [K.again])
  refine List.filterMap_eq_nil_iff.2 fun v hv => ?_
  obtain ⟨hmem, hd, hverdict⟩ := H.first.mem_judge.1 hv
  rw [List.mem_singleton.1 hmem] at hd hverdict
  exact hverdict.trans (hback.back.resolve_left (by simp [hd]))

theorem names_first : keptNames (H.first.judge [p]) = [] := by
  rw [keptNames, K.committed_first, List.map_nil]

theorem filterMap_judge {l : List Property} (hl : ∀ q ∈ l, q ∈ L₂ ++ R₂) :
    (H.late.judge l).filterMap (·.2) = [] := by
  refine List.filterMap_eq_nil_iff.2 fun v hv => ?_
  obtain ⟨hmem, hd, hverdict⟩ := H.late.mem_judge.1 hv
  rw [hverdict, K.dropped (hl _ hmem) hd]

include J

theorem verdicts : H.late.verdicts = H.late.judge L₂ ++
    (p.attach H.id f a, some (H.late.model.documented (p.attach H.id f a))) ::
      H.late.judge R₂ := by
  rw [H.late.verdicts_eq, K.late, Pass.judge_append, J.judge_attached H.late (by simp [K.late])]

theorem committed : H.late.verdicts.filterMap (·.2) =
    [H.late.model.documented (p.attach H.id f a)] := by
  rw [K.verdicts J, List.filterMap_append, List.filterMap_cons,
    K.filterMap_judge fun q hq => List.mem_append_left _ hq,
    K.filterMap_judge fun q hq => List.mem_append_right _ hq]
  rfl

theorem names : keptNames H.late.verdicts = [a.name] := by
  rw [keptNames, K.committed J]
  simp [Model.documented]

variable {F : Method} (hF : H.first.after.methods[x]? = some F)
include hF

theorem exposed_of_dismissed (hq : q ∈ L₂ ++ R₂) (hd : y.dismisses H.late.model q = true)
    (hx : (⟨c, x⟩ : MethodId) ∈ q.accessors) :
    (methodPlace c x).Exposed H.late.desk H.late.verdicts F [a.name] :=
  K.names J ▸ H.late.exposed_of_dismissed (H.late_method hF) (K.mem_late hq).2 hd hx

theorem exposed_left (hq : q ∈ L₂) (hx : (⟨c, x⟩ : MethodId) ∈ q.accessors) :
    (methodPlace c x).Exposed H.late.desk H.late.verdicts F [a.name] := by
  have hmem : q ∈ L₂ ++ R₂ := List.mem_append_left _ hq
  cases hd : y.dismisses H.late.model q with
  | true => exact K.exposed_of_dismissed J hF hmem hd hx
  | false =>
    have hdropped : (q, none) ∈ H.late.judge L₂ :=
      H.late.mem_judge.2 ⟨hq, hd, (K.dropped hmem hd).symm⟩
    obtain ⟨us, ws, hsplit⟩ := List.append_of_mem hdropped
    -- the other dropped ones have no name to give
    have hws : ws.filterMap (·.2) = [] := by
      have hleft := K.filterMap_judge fun q hq => List.mem_append_left R₂ hq
      rw [hsplit, List.filterMap_append, List.append_eq_nil_iff] at hleft
      exact hleft.2
    have hright := K.filterMap_judge fun q hq => List.mem_append_right L₂ hq
    have hverdicts : H.late.verdicts = us ++ (q, none) :: (ws ++
        (p.attach H.id f a, some (H.late.model.documented (p.attach H.id f a))) ::
          H.late.judge R₂) := by
      simp [K.verdicts J, hsplit]
    have hexposed := H.late.exposed_of_dropped (H.late_method hF) hverdicts hx
    simpa [keptNames, hws, hright, Model.documented] using hexposed

theorem exposed_right (hq : q ∈ R₂) (hd : y.dismisses H.late.model q = false)
    (hx : (⟨c, x⟩ : MethodId) ∈ q.accessors) :
    (methodPlace c x).Exposed H.late.desk H.late.verdicts F [] := by
  have hmem : q ∈ L₂ ++ R₂ := List.mem_append_right _ hq
  have hdropped : (q, none) ∈ H.late.judge R₂ :=
    H.late.mem_judge.2 ⟨hq, hd, (K.dropped hmem hd).symm⟩
  obtain ⟨us, ws, hsplit⟩ := List.append_of_mem hdropped
  have hws : ws.filterMap (·.2) = [] := by
    have hright := K.filterMap_judge fun q hq => List.mem_append_right L₂ hq
    rw [hsplit, List.filterMap_append, List.append_eq_nil_iff] at hright
    exact hright.2
  have hverdicts : H.late.verdicts = (H.late.judge L₂ ++
      (p.attach H.id f a, some (H.late.model.documented (p.attach H.id f a))) :: us) ++
        (q, none) :: ws := by
    simp [K.verdicts J, hsplit]
  have hexposed := H.late.exposed_of_dropped (H.late_method hF) hverdicts hx
  simpa [keptNames, hws] using hexposed

variable (hx : (⟨c, x⟩ : MethodId) ∉ p.accessors)
include hx

omit J in
/-- Another method is not offered, or it is the accessor of a property that is pending again. -/
theorem offered_cases : (⟨c, x⟩ : MethodId) ∉ H.late.offered ∨
    ∃ q ∈ L₂ ++ R₂, (⟨c, x⟩ : MethodId) ∈ q.accessors := by
  by_cases hoffered : (⟨c, x⟩ : MethodId) ∈ H.late.offered
  · have hagain := (H.gainsLate.offered_iff (H.mem_methodIds_again hF)).1 hoffered
    obtain ⟨q, hq, hmem⟩ := H.again.pending_of_offered H.completes hagain
    have hne : q ≠ p := fun h => hx (h ▸ hmem)
    refine .inr ⟨q, ?_, hmem⟩
    rw [K.again] at hq
    simp only [List.mem_append, List.mem_cons] at hq ⊢
    tauto
  · exact .inl hoffered

theorem exposed_cases :
    (methodPlace c x).Exposed H.late.desk H.late.verdicts F [a.name] ∨
      (methodPlace c x).Exposed H.late.desk H.late.verdicts F [] := by
  rcases K.offered_cases hF hx with hoffered | ⟨q, hq, hmem⟩
  · exact .inl (K.names J ▸ H.late.exposed_of_free (H.late_method hF) hoffered)
  · rcases List.mem_append.1 hq with hL | hR
    · exact .inl (K.exposed_left J hF hL hmem)
    · cases hd : y.dismisses H.late.model q with
      | true => exact .inl (K.exposed_of_dismissed J hF hq hd hmem)
      | false => exact .inr (K.exposed_right J hF hR hd hmem)

/-- Who is exposed to the pair's name when it comes in its turn is exposed to it when it comes late. -/
theorem exposed_of_free (hmine : ∀ q ∈ H.first.pending.properties,
    (⟨c, x⟩ : MethodId) ∈ q.accessors → y.dismisses H.first.model q = true ∨ q ∈ L) :
    (methodPlace c x).Exposed H.late.desk H.late.verdicts F [a.name] := by
  rcases K.offered_cases hF hx with hoffered | ⟨q, hq, hmem⟩
  · exact K.names J ▸ H.late.exposed_of_free (H.late_method hF) hoffered
  · have hagain := (K.mem_late hq).1
    rcases hmine q (H.pending_again hagain).1.pending hmem with hd | hL
    · exact K.exposed_of_dismissed J hF hq ((H.dismisses_late hagain).trans hd) hmem
    · rcases List.mem_append.1 hq with hL₂ | hR₂
      · exact K.exposed_left J hF hL₂ hmem
      · exact (J.left_right hL (J.mem_right_of_pending_again K.again hR₂)).elim

theorem after_behind (U : H.Unchained) (hf : H.first.before.methods[x]? = some f₀) {l : List String}
    (hq : q ∈ R) (hmem : (⟨c, x⟩ : MethodId) ∈ q.accessors)
    (hd : y.dismisses H.first.model q = false) (hv : H.first.verdict q = none)
    (hfirst : (methodPlace c x).Exposed H.first.desk H.first.verdicts f₀ l) :
    H.late.after.methods[x]? = some F := by
  obtain rfl : (methodPlace c x).makeRooms l f₀ = F :=
    Option.some.inj (hfirst.get_eq.symm.trans hF)
  rcases K.exposed_cases J hF hx with hlate | hlate
  · cases hclash : (methodPlace c x).clashes a.name ((methodPlace c x).makeRooms l f₀) with
    | false =>
      have hget := hlate.get_eq
      rwa [Place.makeRooms_cons, Place.makeRooms_nil, (methodPlace c x).stays hclash] at hget
    | true =>
      -- it has its old name, so its property is pending again, and still behind
      have hsame := U.same_of_clash hfirst hlate hclash
      have hback : H.first.GivesBack q := ⟨by simp [J.split, hq], .inr hv⟩
      have hagain := H.pending_again_of_back hback hmem hf (hsame ▸ hF)
      have hright : q ∈ R₂ := by
        rw [K.again] at hagain
        rcases List.mem_append.1 hagain with hL₂ | hR₂
        · exact (J.left_right (J.mem_left_of_pending_again K.again hL₂) hq).elim
        · exact (List.mem_cons.1 hR₂).resolve_left fun h => hx (h ▸ hmem)
      exact (K.exposed_right J hF hright ((H.dismisses_late hagain).trans hd) hmem).get_eq
  · exact hlate.get_eq

end Rejoins

namespace Joins
variable {H} {L₂ R₂ : List Property} (J : H.Joins a L p R)
  (hspared : ∀ q ∈ L ++ R, H.first.Spares f q) (K : H.Rejoins a L₂ p R₂)
include J K

/-- The pair's methods are internal in the end, and were left alone before. -/
theorem pair_agrees (hf : H.first.before.methods[x]? = some f₀)
    (hx : (⟨c, x⟩ : MethodId) ∈ p.accessors) :
    H.late.after.methods[x]? = H.once.after.methods[x]? := by
  obtain ⟨-, x', g, haccessors, hg, hG⟩ := H.pending_again (p := p) (by simp [K.again])
  obtain rfl : x = x' := by simpa [haccessors] using hx
  obtain rfl := Option.some.inj (hg.symm.trans hf)
  have hpair := J.mem_accessors_attach.2 (.inr hx)
  rw [J.taken H.late (by simp [K.late]) hpair (H.late_method hG),
    J.taken H.once J.mem_once hpair (H.once_method hf)]

theorem setter_agrees :
    H.late.after.methods[H.id.index]? = H.once.after.methods[H.id.index]? := by
  rw [J.taken H.late (by simp [K.late]) J.id_mem H.late_new,
    J.taken H.once J.mem_once J.id_mem H.once_new]

include hspared

theorem tagged_of_back : H.Tagged := by
  have A := J.aligned hspared
  refine ⟨H.map_methods_eq _ (fun x f₀ F hf hF => ?_) (by rw [J.setter_agrees K]), ?_⟩
  · by_cases hx : (⟨c, x⟩ : MethodId) ∈ p.accessors
    · rw [J.pair_agrees K hf hx]
    · refine (H.late_generation hF fun q hq hmem => ?_).trans (A.generation hf (J.mem_others hx)).symm
      have hne : q ≠ p := fun h => hx (h ▸ hmem)
      rw [K.again] at hq
      rw [K.late]
      simp only [List.mem_append, List.mem_cons] at hq ⊢
      tauto
  · rw [H.late.after_properties, K.completed, Model.documentedOwn_nil, K.own, K.committed J,
      H.again_own, H.first_after_properties, A.first, H.once_after_properties, A.once,
      H.documented_late]
    simp only [List.filterMap_append, K.committed_first, List.nil_append, List.append_assoc]
    exact List.perm_append_comm.append_left _

section Renamed
variable (U : H.Unchained)
include U

theorem method_of_back {F : Method} (hf : H.first.before.methods[x]? = some f₀)
    (hF : H.first.after.methods[x]? = some F) :
    H.late.after.methods[x]? = H.once.after.methods[x]? := by
  by_cases hx : (⟨c, x⟩ : MethodId) ∈ p.accessors
  · exact J.pair_agrees K hf hx
  have hfate := (J.aligned hspared).fate hf (J.mem_others hx)
  rw [K.names_first, keptNames_attached] at hfate
  cases hfate with
  | @free l r hfirst honce hmine =>
    simp only [List.append_nil, List.append_assoc, List.singleton_append] at hfirst honce
    obtain rfl : (methodPlace c x).makeRooms (l ++ r) f₀ = F :=
      Option.some.inj (hfirst.get_eq.symm.trans hF)
    have hexposed := K.exposed_of_free J hF hx hmine
    exact hexposed.get_eq.trans (U.makeRooms_eq hfirst honce hexposed ▸ honce.get_eq.symm)
  | behind hq hmem hd hv hfirst honce =>
    rw [K.after_behind J hF hx U hf hq hmem hd hv hfirst, ← hF]
    exact hfirst.get_eq.trans honce.get_eq.symm
  | taken hfirst honce =>
    obtain rfl := Option.some.inj (hF.symm.trans hfirst)
    have hstays : ∀ l : List String, (methodPlace c x).makeRooms l
        { f₀ with generation := .internal } = { f₀ with generation := .internal } :=
      fun l => Place.makeRooms_of_stays _ fun _ _ => rfl
    rw [honce]
    rcases K.exposed_cases J hF hx with hexposed | hexposed
    · exact hexposed.get_eq.trans (congrArg some (hstays _))
    · exact hexposed.get_eq

theorem event_of_back {e : Event} (he : H.first.before.events[x]? = some e) :
    (eventPlace c x).makeRooms (keptNames H.late.verdicts)
        ((eventPlace c x).makeRooms (keptNames H.first.verdicts) e) =
      (eventPlace c x).makeRooms (keptNames H.once.verdicts) e := by
  obtain ⟨hfirst, honce⟩ := (J.aligned hspared).names
  rw [K.names_first, List.append_nil] at hfirst
  rw [keptNames_attached, List.append_assoc, List.singleton_append] at honce
  have hexposed := H.first.exposed_event he
  have hexposed' := H.once.exposed_event (x := x) (e := e) (by rw [H.once_before]; exact he)
  have hafter : H.late.before.events[x]? = some
      ((eventPlace c x).makeRooms (keptNames H.first.verdicts) e) := by
    rw [H.late_before]
    exact hexposed.get_eq
  have hexposed'' := H.late.exposed_event hafter
  rw [hfirst] at hexposed hexposed'' ⊢
  rw [honce] at hexposed' ⊢
  rw [K.names J] at hexposed'' ⊢
  exact U.makeRooms_eq hexposed hexposed' hexposed''

/-- The setter may come late if its getter was given back and is still there, and no member is renamed
twice. -/
theorem named_of_back : H.Named :=
  ⟨H.methods_eq (fun _ _ _ hf hF => J.method_of_back hspared K U hf hF) (J.setter_agrees K),
    H.events_eq fun _ _ he => J.event_of_back hspared K U he⟩

end Renamed
end Joins
end ApiProperties.Histories

import ApiProperties.Proofs.Pairing

/-!
What the class looks like at the end of both histories. The pass with the setter settles what the
first pass settles, but for the property that the setter is paired with, so a member is exposed to
the same names in both, but for that one's.
-/

set_option autoImplicit false

namespace ApiProperties

namespace Pass
variable {y : Synthesis} {c : ClassId} (P : Pass y c) {p : Property} {x : Nat} {f : Method}

theorem name_desk : P.desk.cls.name = P.before.name := rfl

theorem name_after : P.after.name = P.before.name := Desk.name_settleAll

/-- Making room leaves the tag alone. -/
theorem generation_of_exposed {l : List String}
    (h : (methodPlace c x).Exposed P.desk P.verdicts f l) :
    P.after.generation? x = some f.generation := by
  have hkeeps : ∀ (l : List String) (f : Method),
      ((methodPlace c x).makeRooms l f).generation = f.generation := by
    intro l
    induction l with
    | nil => exact fun _ => rfl
    | cons n rest ih =>
      intro f
      rw [Place.makeRooms_cons, ih]
      change (f.makeRoom n).generation = f.generation
      rw [Method.makeRoom]
      split <;> rfl
  have hget : P.after.methods[x]? = some ((methodPlace c x).makeRooms l f) := h.get_eq
  rw [Class.generation?, hget, Option.map_some, hkeeps]

variable {P} in
theorem GivesBack.generation (h : P.GivesBack p) (hf : P.before.methods[x]? = some f)
    (hx : (⟨c, x⟩ : MethodId) ∈ p.accessors) : P.after.generation? x = some .generate := by
  obtain ⟨us, ws, -, -, hexposed⟩ := h.exposed hf hx
  obtain ⟨a, ho⟩ := P.offers_of_offered hf (P.offered_of_accessor h.pending hx)
  rw [P.generation_of_exposed hexposed, ho.generation]

theorem not_offered_of_mute (hf : P.before.methods[x]? = some f) (hmute : f.accessor? = none) :
    (⟨c, x⟩ : MethodId) ∉ P.offered := by
  intro hx
  obtain ⟨a, ho⟩ := P.offers_of_offered hf hx
  have ha := ho.accessor
  rw [hmute] at ha
  cases ha

end Pass

namespace Histories
variable {y : Synthesis} {c : ClassId} {f : Method} (H : Histories y c f) {p q : Property} {x : Nat}
  {f₀ : Method} {a : Accessor} {L R : List Property} {M N : List (Property × Option Property)}

/-- The methods are tagged alike at the end of both histories, and the class has the same properties,
but for their order. -/
structure Tagged : Prop where
  tags : H.late.after.methods.map (·.generation) = H.once.after.methods.map (·.generation)
  properties : H.late.after.properties.Perm H.once.after.properties

/-- Methods and events have the same names as well. -/
structure Named : Prop where
  methods : H.late.after.methods = H.once.after.methods
  events : H.late.after.events = H.once.after.events

/-- The first pass and the one with the setter settle the properties in `L` and `R` alike, and in
between `M` and `N`. -/
structure Aligned (L : List Property) (M N : List (Property × Option Property))
    (R : List Property) : Prop where
  first : H.first.verdicts = H.first.judge L ++ M ++ H.first.judge R
  once : H.once.verdicts = H.first.judge L ++ N ++ H.first.judge R
  pending : ∀ p ∈ L ++ R, p ∈ H.first.pending.properties ∧ p ∈ H.once.pending.properties

/-- How a method fares in both passes. -/
inductive Fate (L : List Property) (ns ns' : List String) (R : List Property) (x : Nat)
    (f₀ : Method) : Prop
  /-- It is exposed to the names in between as well. -/
  | free {l r : List String}
      (hfirst : (methodPlace c x).Exposed H.first.desk H.first.verdicts f₀ (l ++ ns ++ r))
      (honce : (methodPlace c x).Exposed H.once.desk H.once.verdicts f₀ (l ++ ns' ++ r))
      (hmine : ∀ p ∈ H.first.pending.properties, (⟨c, x⟩ : MethodId) ∈ p.accessors →
        y.dismisses H.first.model p = true ∨ p ∈ L)
  /-- It is given back behind them. -/
  | behind {l : List String} {p : Property} (hp : p ∈ R) (hx : (⟨c, x⟩ : MethodId) ∈ p.accessors)
      (hd : y.dismisses H.first.model p = false) (hv : H.first.verdict p = none)
      (hfirst : (methodPlace c x).Exposed H.first.desk H.first.verdicts f₀ l)
      (honce : (methodPlace c x).Exposed H.once.desk H.once.verdicts f₀ l)
  /-- It is taken in. -/
  | taken (hfirst : H.first.after.methods[x]? = some { f₀ with generation := .internal })
      (honce : H.once.after.methods[x]? = some { f₀ with generation := .internal })

theorem once_method (hf : H.first.before.methods[x]? = some f₀) :
    H.once.before.methods[x]? = some f₀ := by
  rw [← H.once.method?_eq, H.method?_once hf]

namespace Aligned
variable {H} (A : H.Aligned L M N R)
include A

theorem names : keptNames H.first.verdicts =
      keptNames (H.first.judge L) ++ keptNames M ++ keptNames (H.first.judge R) ∧
    keptNames H.once.verdicts =
      keptNames (H.first.judge L) ++ keptNames N ++ keptNames (H.first.judge R) := by
  rw [A.first, A.once]
  simp only [keptNames_append, and_self]

theorem mem_once (hp : p ∈ L ++ R) (hd : y.dismisses H.first.model p = false) :
    (p, H.first.verdict p) ∈ H.once.verdicts := by
  have hmem : (p, H.first.verdict p) ∈ H.first.judge (L ++ R) :=
    H.first.mem_judge.2 ⟨hp, hd, rfl⟩
  rw [Pass.judge_append] at hmem
  rw [A.once]
  simp only [List.mem_append] at hmem ⊢
  tauto

section Dropped
variable (hd : y.dismisses H.first.model p = false) (hv : H.first.verdict p = none)
  (hf : H.first.before.methods[x]? = some f₀) (hx : (⟨c, x⟩ : MethodId) ∈ p.accessors)
include hd hv hf hx

theorem exposed_left (hp : p ∈ L) : ∃ l r,
    (methodPlace c x).Exposed H.first.desk H.first.verdicts f₀ (l ++ keptNames M ++ r) ∧
    (methodPlace c x).Exposed H.once.desk H.once.verdicts f₀ (l ++ keptNames N ++ r) := by
  have hmem : (p, none) ∈ H.first.judge L := H.first.mem_judge.2 ⟨hp, hd, hv.symm⟩
  obtain ⟨us, ws, hsplit⟩ := List.append_of_mem hmem
  have hfirst : H.first.verdicts = us ++ (p, none) :: (ws ++ M ++ H.first.judge R) := by
    simp [A.first, hsplit]
  have honce : H.once.verdicts = us ++ (p, none) :: (ws ++ N ++ H.first.judge R) := by
    simp [A.once, hsplit]
  refine ⟨keptNames ws, keptNames (H.first.judge R), ?_, ?_⟩
  · rw [← keptNames_append, ← keptNames_append]
    exact H.first.exposed_of_dropped hf hfirst hx
  · rw [← keptNames_append, ← keptNames_append]
    exact H.once.exposed_of_dropped (H.once_method hf) honce hx

theorem exposed_right (hp : p ∈ R) : ∃ l,
    (methodPlace c x).Exposed H.first.desk H.first.verdicts f₀ l ∧
    (methodPlace c x).Exposed H.once.desk H.once.verdicts f₀ l := by
  have hmem : (p, none) ∈ H.first.judge R := H.first.mem_judge.2 ⟨hp, hd, hv.symm⟩
  obtain ⟨us, ws, hsplit⟩ := List.append_of_mem hmem
  have hfirst : H.first.verdicts = (H.first.judge L ++ M ++ us) ++ (p, none) :: ws := by
    simp [A.first, hsplit]
  have honce : H.once.verdicts = (H.first.judge L ++ N ++ us) ++ (p, none) :: ws := by
    simp [A.once, hsplit]
  exact ⟨keptNames ws, H.first.exposed_of_dropped hf hfirst hx,
    H.once.exposed_of_dropped (H.once_method hf) honce hx⟩

end Dropped

theorem fate (hf : H.first.before.methods[x]? = some f₀)
    (hx : ∀ p ∈ H.first.pending.properties, (⟨c, x⟩ : MethodId) ∈ p.accessors → p ∈ L ++ R) :
    H.Fate L (keptNames M) (keptNames N) R x f₀ := by
  obtain ⟨hnames, hnames'⟩ := A.names
  have hf' := H.once_method hf
  by_cases hoffered : (⟨c, x⟩ : MethodId) ∈ H.first.offered
  · obtain ⟨p, hp, hmem⟩ := H.first.pending_of_offered H.first_completed hoffered
    have hunique : ∀ p' ∈ H.first.pending.properties, (⟨c, x⟩ : MethodId) ∈ p'.accessors → p' = p :=
      fun p' hp' hmem' => H.first.eq_of_shared hp' hp hmem' hmem
    have hLR := hx p hp hmem
    cases hd : y.dismisses H.first.model p with
    | true =>
      have hd' : y.dismisses H.once.model p = true := (H.gainsOnce.dismisses_eq hp).trans hd
      refine .free (hnames ▸ H.first.exposed_of_dismissed hf hp hd hmem)
        (hnames' ▸ H.once.exposed_of_dismissed hf' (A.pending p hLR).2 hd' hmem) ?_
      exact fun p' hp' hmem' => .inl (hunique p' hp' hmem' ▸ hd)
    | false =>
      cases hv : H.first.verdict p with
      | some q =>
        have hfirst : (p, some q) ∈ H.first.verdicts := H.first.mem_verdicts.2 ⟨hp, hd, hv.symm⟩
        have honce : (p, some q) ∈ H.once.verdicts := hv ▸ A.mem_once hLR hd
        exact .taken (H.first.method_of_kept hf hfirst hmem) (H.once.method_of_kept hf' honce hmem)
      | none =>
        rcases List.mem_append.1 hLR with hL | hR
        · obtain ⟨l, r, hfirst, honce⟩ := A.exposed_left hd hv hf hmem hL
          exact .free hfirst honce fun p' hp' hmem' => .inr (hunique p' hp' hmem' ▸ hL)
        · obtain ⟨l, hfirst, honce⟩ := A.exposed_right hd hv hf hmem hR
          exact .behind hR hmem hd hv hfirst honce
  · have hmem : (⟨c, x⟩ : MethodId) ∈ H.first.before.methodIds :=
      (H.first.valid.mem_methodIds H.first.listed).2 ⟨rfl, f₀, by rw [H.first.method?_eq, hf]⟩
    have hoffered' : (⟨c, x⟩ : MethodId) ∉ H.once.offered :=
      fun h => hoffered ((H.gainsOnce.offered_iff hmem).1 h)
    refine .free (hnames ▸ H.first.exposed_of_free hf hoffered)
      (hnames' ▸ H.once.exposed_of_free hf' hoffered') fun p hp hmem' => ?_
    exact absurd (H.first.offered_of_accessor hp hmem') hoffered

theorem generation (hf : H.first.before.methods[x]? = some f₀)
    (hx : ∀ p ∈ H.first.pending.properties, (⟨c, x⟩ : MethodId) ∈ p.accessors → p ∈ L ++ R) :
    H.once.after.generation? x = H.first.after.generation? x := by
  cases A.fate hf hx with
  | free hfirst honce =>
    rw [H.once.generation_of_exposed honce, H.first.generation_of_exposed hfirst]
  | behind _ _ _ _ hfirst honce =>
    rw [H.once.generation_of_exposed honce, H.first.generation_of_exposed hfirst]
  | taken hfirst honce => rw [Class.generation?, Class.generation?, hfirst, honce]

end Aligned

/-- A method keeps the tag that it got in the first pass, unless it is the getter of the setter. -/
theorem late_generation {F : Method} (hF : H.first.after.methods[x]? = some F)
    (hstays : ∀ p ∈ H.again.pending.properties, (⟨c, x⟩ : MethodId) ∈ p.accessors →
      p ∈ H.late.pending.properties) :
    H.late.after.generation? x = H.first.after.generation? x := by
  obtain ⟨us, ws, -, hexposed, -⟩ := H.late_exposed hF hstays
  rw [H.late.generation_of_exposed hexposed, Class.generation?, hF, Option.map_some]

theorem exists_first (hx : x < H.first.before.methods.length) :
    ∃ f₀ F, H.first.before.methods[x]? = some f₀ ∧ H.first.after.methods[x]? = some F := by
  refine ⟨_, _, List.getElem?_eq_getElem hx, List.getElem?_eq_getElem ?_⟩
  rwa [H.first.length_after]

theorem length_late : H.late.after.methods.length = H.first.before.methods.length + 1 := by
  rw [H.late.length_after, H.late_before, Class.withMethod, List.length_append,
    H.first.length_after]
  rfl

theorem length_once : H.once.after.methods.length = H.first.before.methods.length + 1 := by
  rw [H.once.length_after, H.once_before, Class.withMethod, List.length_append]
  rfl

/-- The methods are compared one by one, and the setter, which comes last, by itself. -/
theorem map_methods_eq {β : Type} (g : Method → β)
    (hold : ∀ (x : Nat) (f₀ F : Method), H.first.before.methods[x]? = some f₀ →
      H.first.after.methods[x]? = some F →
      (H.late.after.methods[x]?).map g = (H.once.after.methods[x]?).map g)
    (hnew : (H.late.after.methods[H.id.index]?).map g =
      (H.once.after.methods[H.id.index]?).map g) :
    H.late.after.methods.map g = H.once.after.methods.map g := by
  apply List.ext_getElem?
  intro x
  rw [List.getElem?_map, List.getElem?_map]
  rcases Nat.lt_trichotomy x H.first.before.methods.length with hlt | rfl | hgt
  · obtain ⟨f₀, F, hf, hF⟩ := H.exists_first hlt
    exact hold x f₀ F hf hF
  · exact hnew
  · rw [List.getElem?_eq_none (by rw [H.length_late]; exact hgt),
      List.getElem?_eq_none (by rw [H.length_once]; exact hgt)]

theorem methods_eq
    (hold : ∀ (x : Nat) (f₀ F : Method), H.first.before.methods[x]? = some f₀ →
      H.first.after.methods[x]? = some F → H.late.after.methods[x]? = H.once.after.methods[x]?)
    (hnew : H.late.after.methods[H.id.index]? = H.once.after.methods[H.id.index]?) :
    H.late.after.methods = H.once.after.methods := by
  have hmap := H.map_methods_eq (fun f => f)
    (fun x f₀ F hf hF => congrArg (·.map fun f => f) (hold x f₀ F hf hF)) (congrArg _ hnew)
  rwa [List.map_id', List.map_id'] at hmap

theorem id_eq : H.id = ⟨c, H.id.index⟩ := by
  rw [id, Class.nextId, H.first.id_before]

theorem late_new : H.late.before.methods[H.id.index]? = some f := by
  have hnew := H.method?_late_id
  rwa [id, Class.nextId, H.first.id_before, H.late.method?_eq] at hnew

theorem once_new : H.once.before.methods[H.id.index]? = some f := by
  have hnew := H.method?_once_id
  rwa [id, Class.nextId, H.first.id_before, H.once.method?_eq] at hnew

/-! ### When the second pass with the setter commits nothing -/

structure Quiet : Prop where
  stays : ∀ p ∈ H.again.pending.properties, p ∈ H.late.pending.properties
  drops : ∀ v ∈ H.late.verdicts, v.2 = none

theorem keptNames_of_dropped {vs : List (Property × Option Property)} (h : ∀ v ∈ vs, v.2 = none) :
    keptNames vs = [] := by
  rw [keptNames, List.filterMap_eq_nil_iff.2 h, List.map_nil]

namespace Quiet
variable {H} (Q : H.Quiet)
include Q

theorem method {F : Method} (hF : H.first.after.methods[x]? = some F) :
    H.late.after.methods[x]? = some F := by
  obtain ⟨us, ws, hsplit, hexposed, -⟩ := H.late_exposed hF fun p hp _ => Q.stays p hp
  have hnil : keptNames ws = [] := keptNames_of_dropped fun v hv => Q.drops v (by simp [hsplit, hv])
  rw [hnil] at hexposed
  exact hexposed.get_eq

theorem names : keptNames H.late.verdicts = [] := keptNames_of_dropped Q.drops

end Quiet

/-! ### A setter by itself -/

/-- The property that the setter starts is dropped. -/
theorem judge_started (P : Pass y c) (hp : ∀ p ∈ H.started, p ∈ P.pending.properties) :
    P.judge H.started = H.started.map fun p => (p, none) := by
  have hkept : ∀ p ∈ H.started, y.dismisses P.model p = false := by
    intro p hp
    obtain ⟨a, ha, rfl⟩ := Option.map_eq_some_iff.1 (Option.mem_toList.1 hp)
    refine P.dismisses_of_setter ?_
    simp [Property.single, Property.attach, Method.role_of_isSetter H.isSetter ha]
  rw [Pass.judge, List.filter_eq_self.2 fun p hp => by simp [hkept p hp]]
  refine List.map_congr_left fun p hmem => ?_
  rw [P.verdict_of_setter (hp p hmem) (H.getter_of_started hmem)]

theorem once_after_properties : H.once.after.properties = H.once.verdicts.filterMap (·.2) := by
  rw [H.once.after_properties, H.once_own]
  rfl

/-- An event makes room for the same names in both histories. -/
theorem events_eq (hsame : ∀ (x : Nat) (e : Event), H.first.before.events[x]? = some e →
    (eventPlace c x).makeRooms (keptNames H.late.verdicts)
        ((eventPlace c x).makeRooms (keptNames H.first.verdicts) e) =
      (eventPlace c x).makeRooms (keptNames H.once.verdicts) e) :
    H.late.after.events = H.once.after.events := by
  apply List.ext_getElem?
  intro x
  have hlate : H.late.before.events[x]? = H.first.after.events[x]? := by rw [H.late_before]; rfl
  have honce : H.once.before.events[x]? = H.first.before.events[x]? := by rw [H.once_before]; rfl
  rw [H.late.events_after, H.once.events_after, hlate, honce, H.first.events_after]
  cases he : H.first.before.events[x]? with
  | none => rfl
  | some e => exact congrArg some (hsame x e he)

namespace Single
variable {H} (hs : H.Single) (hspared : ∀ p ∈ H.first.pending.properties, H.first.Spares f p)
include hs

theorem quiet : H.Quiet := by
  obtain ⟨hpending, -, -⟩ := hs.placed_late
  refine ⟨fun p hp => by simp [hpending, hp], fun v hv => ?_⟩
  obtain ⟨hmem, hd, hverdict⟩ := H.late.mem_verdicts.1 hv
  rw [hverdict]
  rcases List.mem_append.1 (hpending ▸ hmem) with hagain | hnew
  · exact (H.givesBack_late hagain hmem).back.resolve_left (by simp [hd])
  · exact H.late.verdict_of_setter hmem (H.getter_of_started hnew)

include hspared

theorem aligned : H.Aligned H.first.pending.properties [] (H.once.judge H.started) [] := by
  have honce := hs.pending_once
  have hmem : ∀ p ∈ H.first.pending.properties, p ∈ H.once.pending.properties := fun p hp => by
    simp [honce, hp]
  refine ⟨by simp [H.first.verdicts_eq], ?_, fun p hp => ?_⟩
  · rw [H.once.verdicts_eq, honce, Pass.judge_append,
      H.gainsOnce.judge_eq (fun _ hp => hp) hmem hspared, Pass.judge_nil, List.append_nil]
  · rw [List.append_nil] at hp
    exact ⟨hp, hmem p hp⟩

theorem names : keptNames H.once.verdicts = keptNames H.first.verdicts := by
  have A := hs.aligned hspared
  obtain ⟨hfirst, honce⟩ := A.names
  have hnil : keptNames (H.once.judge H.started) = [] := by
    rw [H.judge_started H.once fun p hp => by simp [hs.pending_once, hp]]
    simp [keptNames]
  rw [hfirst, honce, hnil]
  rfl

omit hs hspared in
/-- A setter by itself is exposed to no name, or to all of them if it offers nothing. -/
theorem exposed_setter (P : Pass y c) {l : List Property}
    (hpending : P.pending.properties = l ++ H.started)
    (hf : P.before.methods[H.id.index]? = some f) :
    (methodPlace c H.id.index).Exposed P.desk P.verdicts f
      (if f.accessor? = none then keptNames P.verdicts else []) := by
  cases ha : f.accessor? with
  | none => exact P.exposed_of_free hf (P.not_offered_of_mute hf ha)
  | some a =>
    have hstarted : H.started = [Property.single c H.id f a] := by simp [started, ha]
    have hmem : (⟨c, H.id.index⟩ : MethodId) ∈ (Property.single c H.id f a).accessors := by
      simp [← H.id_eq]
    have hverdicts : P.verdicts = P.judge l ++ (Property.single c H.id f a, none) :: [] := by
      rw [P.verdicts_eq, hpending, Pass.judge_append,
        H.judge_started P fun p hp => by simp [hpending, hp], hstarted]
      rfl
    exact P.exposed_of_dropped hf hverdicts hmem

theorem tagged : H.Tagged := by
  have A := hs.aligned hspared
  obtain ⟨hpending, hcompleted, hown⟩ := hs.placed_late
  refine ⟨H.map_methods_eq _ (fun x f₀ F hf hF => ?_) ?_, ?_⟩
  · have hlate := H.late_generation hF fun p hp _ => hs.quiet.stays p hp
    exact hlate.trans (A.generation hf fun p hp _ => by simpa using hp).symm
  · have hlate := H.late.generation_of_exposed (exposed_setter H.late hpending H.late_new)
    have honce := H.once.generation_of_exposed (exposed_setter H.once hs.pending_once H.once_new)
    exact hlate.trans honce.symm
  · have hkept : H.late.verdicts.filterMap (·.2) = [] :=
      List.filterMap_eq_nil_iff.2 hs.quiet.drops
    rw [H.late.after_properties, hkept, hcompleted, Model.documentedOwn_nil, hown, H.again_own_eq,
      List.append_nil, H.once_after_properties, A.once,
      H.judge_started H.once fun p hp => by simp [hs.pending_once, hp]]
    simp [kept]

/-- A setter without a getter may come late. -/
theorem named (hunnamed : f.accessor? = none → f.name ∉ keptNames H.first.verdicts) : H.Named := by
  have A := hs.aligned hspared
  have Q := hs.quiet
  refine ⟨H.methods_eq (fun x f₀ F hf hF => ?_) ?_, H.events_eq fun x e _ => ?_⟩
  · have hnil : keptNames (H.once.judge H.started) = [] := by
      rw [H.judge_started H.once fun p hp => by simp [hs.pending_once, hp]]
      simp [keptNames]
    have hfate := A.fate hf fun p hp _ => by simpa using hp
    rw [hnil] at hfate
    rw [Q.method hF]
    cases hfate with
    | free hfirst honce => exact hF.symm.trans (hfirst.get_eq.trans honce.get_eq.symm)
    | behind hp => cases hp
    | taken hfirst honce => exact hF.symm.trans (hfirst.trans honce.symm)
  · have hlate := (exposed_setter H.late hs.placed_late.1 H.late_new).get_eq
    have honce := (exposed_setter H.once hs.pending_once H.once_new).get_eq
    have hstays : ∀ n ∈ (if f.accessor? = none then keptNames H.first.verdicts else []),
        (methodPlace c H.id.index).clashes n f = false := by
      intro n hn
      split at hn
      · next ha =>
        have hne : f.name ≠ n := fun h => hunnamed ha (h ▸ hn)
        simp [methodPlace, Method.clashesWith, hne]
      · cases hn
    rw [Q.names, ite_self] at hlate
    rw [hs.names hspared, Place.makeRooms_of_stays _ hstays] at honce
    exact hlate.trans honce.symm
  · rw [Q.names, hs.names hspared, Place.makeRooms_nil]

end Single

end Histories
end ApiProperties

import ApiProperties.Proofs.Tags
import ApiProperties.Proofs.Verdict

/-!
How the accessors of one class are put together. `Model.Assembly` says which steps lead to a list of
pending properties: each offer completes a property of the class, joins a pending one, or starts a
new one when nothing accepts it. Every decision is made on the model as it was before the first
step, since the tags set on the way decide nothing.
-/

set_option autoImplicit false

namespace ApiProperties

namespace Property

/-- The property that starts with one accessor. -/
def single (c : ClassId) (id : MethodId) (f : Method) (a : Accessor) : Property :=
  (plain a.name a.type c f.access).attach id f a

theorem mem_accessors_attach {p : Property} {id : MethodId} {f : Method} {a : Accessor}
    (h : p.half a.role = none) (j : MethodId) :
    j ∈ (p.attach id f a).accessors ↔ j = id ∨ j ∈ p.accessors := by
  obtain ⟨role, name, type⟩ := a
  cases role
  · have hg : p.getter = none := h
    simp [mem_accessors, attach, hg, eq_comm]
  · have hs : p.setter = none := h
    simp [mem_accessors, attach, hs, eq_comm, or_comm]

theorem mem_accessors_of_partner {p : Property} {r : Role} {j : MethodId}
    (h : p.partner r = some j) : j ∈ p.accessors := by
  cases r with
  | getter => exact mem_accessors.2 (.inr h)
  | setter => exact mem_accessors.2 (.inl h)

@[simp] theorem accessors_single (c : ClassId) (id : MethodId) (f : Method) (a : Accessor) :
    (single c id f a).accessors = [id] := by
  obtain ⟨role, name, type⟩ := a
  cases role <;> rfl

/-- The property has the accessors of `q`, and the same owner. -/
structure Extends (p q : Property) : Prop where
  getter : ∀ id, q.getter = some id → p.getter = some id
  setter : ∀ id, q.setter = some id → p.setter = some id
  owner : p.owner = q.owner

theorem Extends.refl (p : Property) : p.Extends p := ⟨fun _ => id, fun _ => id, rfl⟩

theorem Extends.trans {p q r : Property} (h : p.Extends q) (h' : q.Extends r) : p.Extends r :=
  ⟨fun id hid => h.getter id (h'.getter id hid), fun id hid => h.setter id (h'.setter id hid),
    h.owner.trans h'.owner⟩

theorem Extends.accessors {p q : Property} (h : p.Extends q) :
    ∀ id ∈ q.accessors, id ∈ p.accessors :=
  fun id hid => mem_accessors.2 ((mem_accessors.1 hid).imp (h.getter id) (h.setter id))

theorem extends_attach {p : Property} {id : MethodId} {f : Method} {a : Accessor}
    (h : p.half a.role = none) : (p.attach id f a).Extends p := by
  obtain ⟨role, name, type⟩ := a
  cases role
  · have hg : p.getter = none := h
    exact ⟨fun j hj => by simp [hg] at hj, fun j hj => hj, rfl⟩
  · have hs : p.setter = none := h
    exact ⟨fun j hj => hj, fun j hj => by simp [hs] at hj, rfl⟩

end Property

section Entries
variable {α : Type} {l : List α} {i j : Nat} {f : α → α} {x y : α}

theorem getElem?_modify_cases (hx : l[i]? = some x) (hy : (l.modify i f)[j]? = some y) :
    i = j ∧ y = f x ∨ l[j]? = some y := by
  rw [List.getElem?_modify] at hy
  by_cases h : i = j
  · subst h
    simp only [hx, if_true, Option.map_eq_map, Option.map_some, Option.some.injEq] at hy
    exact .inl ⟨rfl, hy.symm⟩
  · exact .inr (by simpa [h] using hy)

theorem mem_modify (hx : l[i]? = some x) (hy : y ∈ l.modify i f) : y = f x ∨ y ∈ l := by
  obtain ⟨j, hj⟩ := List.mem_iff_getElem?.1 hy
  exact (getElem?_modify_cases hx hj).imp And.right List.mem_of_getElem?

theorem modify_append_length (l₁ l₂ : List α) :
    (l₁ ++ x :: l₂).modify l₁.length f = l₁ ++ f x :: l₂ := by
  rw [List.modify_eq_take_cons_drop (by simp)]
  simp

theorem getElem?_concat_cases (hy : (l ++ [x])[i]? = some y) :
    l[i]? = some y ∨ i = l.length ∧ y = x := by
  by_cases h : i < l.length
  · rw [List.getElem?_append_left h] at hy
    exact .inl hy
  · have hlt := (List.getElem?_eq_some_iff.1 hy).1
    rw [List.length_append, List.length_singleton] at hlt
    obtain rfl : i = l.length := by omega
    exact .inr ⟨rfl, by simpa using hy.symm⟩

end Entries

namespace Model

/-- The method takes part in the synthesis of its class, and `a` is what it offers. -/
structure Offers (m : Model) (c : ClassId) (id : MethodId) (f : Method) (a : Accessor) : Prop where
  owner : id.owner = c
  method : m.method? id = some f
  candidate : f.isCandidate = true
  accessor : f.accessor? = some a

/-- The offers that came first made `s` pending and turned the class's own properties into `own`. -/
inductive Assembly (m : Model) (k : Class) :
    (ids : List MethodId) → (s : Pending) → (own : List Property) → Prop
  | start : Assembly m k [] (.empty k.id) k.properties
  | complete {ids : List MethodId} {s : Pending} {own : List Property} {id : MethodId} {f : Method}
      {a : Accessor} {i : Nat} {p : Property} (h : Assembly m k ids s own)
      (ho : m.Offers k.id id f a) (hid : id ∉ ids) (hp : own[i]? = some p)
      (hc : Pending.completable? m id a p = some true)
      (hi : firstIndex? (Pending.completable? m id a) own = some (some i)) :
      Assembly m k (ids ++ [id]) { s with completed := s.completed ++ [i] }
        (own.modify i (·.attach id f a))
  | join {ids : List MethodId} {s : Pending} {own : List Property} {id : MethodId} {f : Method}
      {a : Accessor} {i : Nat} {p : Property} (h : Assembly m k ids s own)
      (ho : m.Offers k.id id f a) (hid : id ∉ ids)
      (hn : ∀ q ∈ own, Pending.completable? m id a q = some false)
      (hp : s.properties[i]? = some p) (ha : m.accepts? id a p = some true)
      (hi : firstIndex? (m.accepts? id a) s.properties = some (some i)) :
      Assembly m k (ids ++ [id]) { s with properties := s.properties.modify i (·.attach id f a) }
        own
  | create {ids : List MethodId} {s : Pending} {own : List Property} {id : MethodId} {f : Method}
      {a : Accessor} (h : Assembly m k ids s own) (ho : m.Offers k.id id f a) (hid : id ∉ ids)
      (hn : ∀ q ∈ own, Pending.completable? m id a q = some false)
      (hn' : ∀ q ∈ s.properties, m.accepts? id a q = some false) :
      Assembly m k (ids ++ [id])
        { s with properties := s.properties ++ [Property.single k.id id f a] } own

/-! ### Decisions -/

/-- What it takes for a property to accept an offer. -/
structure Accepts (m : Model) (id : MethodId) (a : Accessor) (p : Property) : Prop where
  field : p.field = none
  free : p.half a.role = none
  fits : ∃ partnerId partner f, p.partner a.role = some partnerId ∧
    m.method? partnerId = some partner ∧ m.method? id = some f ∧ partner.isStatic = f.isStatic ∧
    p.type.underlying = a.type.underlying ∧
    (p.name = a.name ∨ a.role = .setter ∧ readWritePropertyName partner.name a.name = a.name)

theorem accepts?_eq_true {m : Model} {id : MethodId} {a : Accessor} {p : Property} :
    m.accepts? id a p = some true ↔ m.Accepts id a p := by
  constructor
  · intro h
    by_cases hfree : (p.field.isSome || (p.half a.role).isSome) = true
    · simp [accepts?, hfree] at h
    · cases hp : p.partner a.role with
      | none => simp [accepts?, hfree, hp] at h
      | some partnerId =>
        cases hpm : m.method? partnerId with
        | none => simp [accepts?, hfree, hp, hpm] at h
        | some partner =>
          cases hf : m.method? id with
          | none => simp [accepts?, hfree, hp, hpm, hf] at h
          | some f =>
            simp only [Bool.or_eq_true, not_or, Option.not_isSome_iff_eq_none] at hfree
            refine ⟨hfree.1, hfree.2, partnerId, partner, f, hp, hpm, hf, ?_⟩
            simpa [accepts?, hfree.1, hfree.2, hp, hpm, hf, and_assoc] using h
  · rintro ⟨hfield, hfree, partnerId, partner, f, hp, hpm, hf, hst, hty, hname⟩
    simp only [accepts?, hfield, hfree, hp, hpm, hf, hty]
    simpa [hst] using hname

theorem accepts?_total {m : Model} {id : MethodId} {f : Method} (hf : m.method? id = some f)
    (a : Accessor) {p : Property} (hp : ∀ j ∈ p.accessors, m.hasMethod j = true) :
    ∃ b, m.accepts? id a p = some b := by
  cases hpr : p.partner a.role with
  | none => exact ⟨false, by simp [accepts?, hpr]⟩
  | some j =>
    obtain ⟨g, hg⟩ := hasMethod_iff.1 (hp j (Property.mem_accessors_of_partner hpr))
    by_cases hfree : (p.field.isSome || (p.half a.role).isSome) = true
    · exact ⟨false, by simp [accepts?, hfree]⟩
    · exact ⟨_, by simp only [accepts?, hfree, hpr, hg, hf]; rfl⟩

theorem completable?_total {m : Model} {id : MethodId} {f : Method} (hf : m.method? id = some f)
    (a : Accessor) {p : Property} (hp : ∀ j ∈ p.accessors, m.hasMethod j = true) :
    ∃ b, Pending.completable? m id a p = some b := by
  obtain ⟨b, hb⟩ := accepts?_total hf a hp
  cases ho : p.accessors.any fun j => ((m.method? j).map (·.isOverride)).getD false <;>
    simp [Pending.completable?, isOverriding?_eq_some hp, ho, hb]

theorem accepts_of_completable? {m : Model} {id : MethodId} {a : Accessor} {p : Property}
    (h : Pending.completable? m id a p = some true) : m.Accepts id a p := by
  simp only [Pending.completable?, Option.bind_eq_bind, Option.bind_eq_some_iff] at h
  obtain ⟨b, -, hb⟩ := h
  cases b
  · exact accepts?_eq_true.1 (by simpa using hb)
  · simp at hb

section Tags
variable {m m' : Model}
  (h : ∀ id, (m.method? id).map (fun f => (f.name, f.isStatic, f.isOverride)) =
    (m'.method? id).map fun f => (f.name, f.isStatic, f.isOverride))
include h

theorem accepts?_of_methods (id : MethodId) (a : Accessor) (p : Property) :
    m.accepts? id a p = m'.accepts? id a p := by
  have hq : ∀ (n : Model) (j : MethodId), (do
        let partner ← n.method? j
        let f ← n.method? id
        pure (partner.isStatic == f.isStatic && p.type.underlying == a.type.underlying
          && (p.name == a.name
            || a.role == .setter && readWritePropertyName partner.name a.name == a.name))) =
      ((n.method? j).map fun f => (f.name, f.isStatic, f.isOverride)).bind fun x =>
        ((n.method? id).map fun f => (f.name, f.isStatic, f.isOverride)).map fun y =>
          x.2.1 == y.2.1 && p.type.underlying == a.type.underlying
            && (p.name == a.name
              || a.role == .setter && readWritePropertyName x.1 a.name == a.name) := by
    intro n j
    cases n.method? j <;> cases n.method? id <;> rfl
  simp only [accepts?, hq, h]

theorem completable?_of_methods (id : MethodId) (a : Accessor) (p : Property) :
    Pending.completable? m id a p = Pending.completable? m' id a p := by
  have ho : m.isOverriding? p = m'.isOverriding? p := by
    have hq : ∀ n : Model, (fun j => (n.method? j).map (·.isOverride)) = fun j =>
        ((n.method? j).map fun f => (f.name, f.isStatic, f.isOverride)).map (·.2.2) := fun n => by
      simp [Function.comp_def]
    simp only [isOverriding?, hq, h]
  simp only [Pending.completable?, ho, accepts?_of_methods h]

end Tags

/-! ### Invariants of the assembly -/

theorem Offers.inj {m : Model} {c c' : ClassId} {id : MethodId} {f f' : Method} {a a' : Accessor}
    (h : m.Offers c id f a) (h' : m.Offers c' id f' a') : f = f' ∧ a = a' := by
  obtain rfl : f = f' := Option.some.inj (h.method.symm.trans h'.method)
  exact ⟨rfl, Option.some.inj (h.accessor.symm.trans h'.accessor)⟩

/-- What the method offers, if anything, completes no property of the class. -/
def Unplaced (m : Model) (k : Class) (id : MethodId) : Prop :=
  ∀ f a, m.Offers k.id id f a → ∀ q ∈ k.properties,
    Pending.completable? m id a q = some false

theorem Offers.unplaced_iff {m : Model} {k : Class} {id : MethodId} {f : Method} {a : Accessor}
    (h : m.Offers k.id id f a) :
    m.Unplaced k id ↔ ∀ q ∈ k.properties, Pending.completable? m id a q = some false := by
  refine ⟨fun hu => hu f a h, fun hall f' a' h' => ?_⟩
  obtain ⟨rfl, rfl⟩ := h.inj h'
  exact hall

namespace Assembly
variable {m : Model} {k : Class} {ids : List MethodId} {s : Pending} {own : List Property}

theorem owner (h : m.Assembly k ids s own) : s.owner = k.id := by
  induction h with
  | start => rfl
  | complete _ _ _ _ _ _ ih => exact ih
  | join _ _ _ _ _ _ _ ih => exact ih
  | create _ _ _ _ _ ih => exact ih

/-- What every further offer preserves holds of the offers that were made, wherever they went. -/
theorem offers_induction (h : m.Assembly k ids s own) (P : List MethodId → Prop) (nil : P [])
    (snoc : ∀ ids id f a, P ids → m.Offers k.id id f a → id ∉ ids → P (ids ++ [id])) : P ids := by
  induction h with
  | start => exact nil
  | complete _ ho hid _ _ _ ih => exact snoc _ _ _ _ ih ho hid
  | join _ ho hid _ _ _ _ ih => exact snoc _ _ _ _ ih ho hid
  | create _ ho hid _ _ ih => exact snoc _ _ _ _ ih ho hid

theorem offers (h : m.Assembly k ids s own) : ∀ id ∈ ids, ∃ f a, m.Offers k.id id f a := by
  refine h.offers_induction (fun ids => ∀ id ∈ ids, ∃ f a, m.Offers k.id id f a) (by simp) ?_
  intro ids id f a ih ho _ j hj
  rcases List.mem_append.1 hj with hj | hj
  · exact ih j hj
  · obtain rfl := List.mem_singleton.1 hj
    exact ⟨f, a, ho⟩

theorem owner_of_mem (h : m.Assembly k ids s own) {id : MethodId} (hid : id ∈ ids) :
    id.owner = k.id := by
  obtain ⟨f, a, ho⟩ := h.offers id hid
  exact ho.owner

theorem nodup (h : m.Assembly k ids s own) : ids.Nodup := by
  refine h.offers_induction List.Nodup List.nodup_nil fun ids id _ _ ih _ hid => ?_
  rw [← List.concat_eq_append]
  exact ih.concat hid

theorem accessors_subset (h : m.Assembly k ids s own) :
    ∀ p ∈ s.properties, ∀ j ∈ p.accessors, j ∈ ids := by
  induction h with
  | start => simp [Pending.empty]
  | complete _ _ _ _ _ _ ih => exact fun p hp j hj => List.mem_append_left _ (ih p hp j hj)
  | join _ _ _ _ hp ha _ ih =>
    intro q hq j hj
    rcases mem_modify hp hq with rfl | hq
    · rcases (Property.mem_accessors_attach (accepts?_eq_true.1 ha).free j).1 hj with rfl | hj
      · exact List.mem_append_right _ (List.mem_singleton.2 rfl)
      · exact List.mem_append_left _ (ih _ (List.mem_of_getElem? hp) j hj)
    · exact List.mem_append_left _ (ih q hq j hj)
  | create _ _ _ _ _ ih =>
    intro q hq j hj
    rcases List.mem_append.1 hq with hq | hq
    · exact List.mem_append_left _ (ih q hq j hj)
    · rw [List.mem_singleton.1 hq, Property.accessors_single] at hj
      exact List.mem_append_right _ hj

theorem mem_of_flatMap_filter (h : m.Assembly k ids s own) {P : Property → Bool} {id : MethodId}
    (hid : id ∈ (s.properties.filter P).flatMap (·.accessors)) : id ∈ ids := by
  obtain ⟨p, hp, hid⟩ := List.mem_flatMap.1 hid
  exact h.accessors_subset p (List.mem_of_mem_filter hp) id hid

end Assembly

theorem accessors_attach_perm {p : Property} (id : MethodId) (f : Method) {a : Accessor}
    (h : p.half a.role = none) : (p.attach id f a).accessors.Perm (id :: p.accessors) := by
  obtain ⟨role, name, type⟩ := a
  cases role
  · have hg : p.getter = none := h
    simp [Property.accessors, Property.attach, hg]
  · have hs : p.setter = none := h
    simp [Property.accessors, Property.attach, hs]

theorem flatMap_modify_perm {α β : Type} {l : List α} {i : Nat} {x : α} {f : α → α} {g : α → List β}
    {b : β} (hx : l[i]? = some x) (hf : (g (f x)).Perm (b :: g x)) :
    ((l.modify i f).flatMap g).Perm (b :: l.flatMap g) := by
  induction l generalizing i with
  | nil => simp at hx
  | cons y rest ih =>
    cases i with
    | zero =>
      obtain rfl : y = x := by simpa using hx
      simpa using hf.append_right (rest.flatMap g)
    | succ i =>
      have hrest := ih (i := i) (by simpa using hx)
      simpa using (hrest.append_left (g y)).trans List.perm_middle

namespace Assembly
variable {m : Model} {k : Class} {ids : List MethodId} {s : Pending} {own : List Property}

/-- No accessor is lost and none is used twice. -/
theorem perm (h : m.Assembly k ids s own) :
    (own.flatMap (·.accessors) ++ s.properties.flatMap (·.accessors)).Perm
      (k.properties.flatMap (·.accessors) ++ ids) := by
  -- whichever list of properties gains the method, it comes last among the offers
  have snoc : ∀ {l : List MethodId} {ids : List MethodId} {id : MethodId},
      l.Perm (k.properties.flatMap (·.accessors) ++ ids) →
      (id :: l).Perm (k.properties.flatMap (·.accessors) ++ (ids ++ [id])) := by
    intro l ids id hl
    rw [← List.append_assoc]
    exact (hl.cons id).trans (List.perm_append_singleton id _).symm
  induction h with
  | start => simp [Pending.empty]
  | @complete ids s own id f a i p _ _ _ hp hc _ ih =>
    have hown := flatMap_modify_perm (f := (·.attach id f a)) hp
      (accessors_attach_perm id f (accepts_of_completable? hc).free)
    exact (hown.append_right _).trans (snoc ih)
  | @join ids s own id f a i p _ _ _ _ hp ha _ ih =>
    have hpending := flatMap_modify_perm (f := (·.attach id f a)) hp
      (accessors_attach_perm id f (accepts?_eq_true.1 ha).free)
    exact ((hpending.append_left _).trans List.perm_middle).trans (snoc ih)
  | @create ids s own id f a _ _ _ _ _ ih =>
    have hlast : (own.flatMap (·.accessors) ++ (s.properties ++
        [Property.single k.id id f a]).flatMap (·.accessors)).Perm
        (id :: (own.flatMap (·.accessors) ++ s.properties.flatMap (·.accessors))) := by
      rw [List.flatMap_append, ← List.append_assoc, List.flatMap_singleton,
        Property.accessors_single]
      exact List.perm_append_singleton id _
    exact hlast.trans (snoc ih)

/-- What was taken in is pending or has completed a property. -/
theorem length_pending (h : m.Assembly k ids s own) :
    (s.properties.flatMap (·.accessors)).length + s.completed.length = ids.length := by
  induction h with
  | start => rfl
  | complete _ _ _ _ _ _ ih =>
    simp only [List.length_append, List.length_singleton]
    omega
  | @join ids s own id f a i p _ _ _ _ hp ha _ ih =>
    have hgain : ((s.properties.modify i (·.attach id f a)).flatMap (·.accessors)).length =
        (s.properties.flatMap (·.accessors)).length + 1 :=
      (flatMap_modify_perm hp (accessors_attach_perm id f (accepts?_eq_true.1 ha).free)).length_eq
    simp only [hgain, List.length_append, List.length_singleton]
    omega
  | create _ _ _ _ _ ih =>
    simp only [List.flatMap_append, List.flatMap_singleton, Property.accessors_single,
      List.length_append, List.length_singleton]
    omega

theorem nodup_pending (h : m.Assembly k ids s own) : (s.properties.flatMap (·.accessors)).Nodup := by
  have fresh : ∀ {ids : List MethodId} {s : Pending} {own : List Property} {id : MethodId},
      m.Assembly k ids s own → id ∉ ids → id ∉ s.properties.flatMap (·.accessors) := by
    intro ids s own id h hid hmem
    obtain ⟨p, hp, hj⟩ := List.mem_flatMap.1 hmem
    exact hid (h.accessors_subset p hp id hj)
  induction h with
  | start => simp [Pending.empty]
  | complete _ _ _ _ _ _ ih => exact ih
  | @join ids s own id f a i p h _ hid _ hp ha _ ih =>
    have hgain := flatMap_modify_perm (f := (·.attach id f a)) hp
      (accessors_attach_perm id f (accepts?_eq_true.1 ha).free)
    exact hgain.nodup_iff.2 (List.nodup_cons.2 ⟨fresh h hid, ih⟩)
  | @create ids s own id f a h _ hid _ _ ih =>
    rw [List.flatMap_append, List.flatMap_singleton, Property.accessors_single]
    exact (List.perm_append_singleton id _).nodup_iff.2 (List.nodup_cons.2 ⟨fresh h hid, ih⟩)

/-- The same among the accessors of which `P` holds, if it holds of everything offered. -/
theorem perm_filter (h : m.Assembly k ids s own) {P : MethodId → Bool}
    (hP : ∀ id ∈ ids, P id = true) :
    ((own.flatMap (·.accessors)).filter P ++ s.properties.flatMap (·.accessors)).Perm
      ((k.properties.flatMap (·.accessors)).filter P ++ ids) := by
  have hpending : (s.properties.flatMap (·.accessors)).filter P =
      s.properties.flatMap (·.accessors) := by
    refine List.filter_eq_self.2 fun id hid => ?_
    obtain ⟨p, hp, hid⟩ := List.mem_flatMap.1 hid
    exact hP id (h.accessors_subset p hp id hid)
  have hperm := h.perm.filter P
  rwa [List.filter_append, List.filter_append, hpending, List.filter_eq_self.2 hP] at hperm

/-! ### The class's own properties -/

theorem own_eq (h : m.Assembly k ids s own) {i : Nat} (hi : i ∉ s.completed) :
    own[i]? = k.properties[i]? := by
  induction h with
  | start => rfl
  | complete _ _ _ _ _ _ ih =>
    simp only [List.mem_append, List.mem_singleton, not_or] at hi
    rw [List.getElem?_modify, ← ih hi.1]
    simp [Ne.symm hi.2]
  | join _ _ _ _ _ _ _ ih => exact ih hi
  | create _ _ _ _ _ ih => exact ih hi

theorem own_eq_properties (h : m.Assembly k ids s own) (hnil : s.completed = []) :
    own = k.properties :=
  List.ext_getElem? fun i => h.own_eq (i := i) (by simp [hnil])

theorem own_length (h : m.Assembly k ids s own) : own.length = k.properties.length := by
  induction h with
  | start => rfl
  | complete _ _ _ _ _ _ ih => rw [List.length_modify, ih]
  | join _ _ _ _ _ _ _ ih => exact ih
  | create _ _ _ _ _ ih => exact ih

theorem own_eq_nil (h : m.Assembly k ids s own) (hfree : k.properties = []) : own = [] :=
  List.eq_nil_of_length_eq_zero (by rw [h.own_length, hfree, List.length_nil])

theorem own_extends (h : m.Assembly k ids s own) {i : Nat} {p : Property} (hp : own[i]? = some p) :
    ∃ q, k.properties[i]? = some q ∧ p.Extends q := by
  induction h generalizing p with
  | start => exact ⟨p, hp, .refl p⟩
  | @complete ids s own id f a j q _ _ _ hq hc _ ih =>
    rcases getElem?_modify_cases hq hp with ⟨rfl, rfl⟩ | hp
    · obtain ⟨r, hr, hext⟩ := ih hq
      exact ⟨r, hr, (Property.extends_attach (accepts_of_completable? hc).free).trans hext⟩
    · exact ih hp
  | join _ _ _ _ _ _ _ ih => exact ih hp
  | create _ _ _ _ _ ih => exact ih hp

theorem completed_lt (h : m.Assembly k ids s own) : ∀ i ∈ s.completed, i < own.length := by
  induction h with
  | start => simp [Pending.empty]
  | complete _ _ _ hp _ _ ih =>
    intro j hj
    rw [List.length_modify]
    rcases List.mem_append.1 hj with hj | hj
    · exact ih j hj
    · obtain rfl := List.mem_singleton.1 hj
      exact (List.getElem?_eq_some_iff.1 hp).1
  | join _ _ _ _ _ _ _ ih => exact ih
  | create _ _ _ _ _ ih => exact ih

/-- Nothing is completed just in case no offer finds an own property to complete. -/
theorem completed_eq_nil (h : m.Assembly k ids s own) :
    s.completed = [] ↔ ∀ id ∈ ids, m.Unplaced k id := by
  induction h with
  | start => simp [Pending.empty]
  | complete h ho _ hp hc _ ih =>
    simp only [List.forall_mem_append, List.forall_mem_singleton, ← ih, ho.unplaced_iff]
    constructor
    · intro hnil
      simp at hnil
    · -- with nothing completed before, the property is still one of the class
      rintro ⟨hnil, hall⟩
      rw [h.own_eq (by simp [hnil])] at hp
      rw [hall _ (List.mem_of_getElem? hp)] at hc
      simp at hc
  | join h ho _ hn _ _ _ ih =>
    simp only [List.forall_mem_append, List.forall_mem_singleton, ← ih, ho.unplaced_iff]
    exact ⟨fun hnil => ⟨hnil, h.own_eq_properties hnil ▸ hn⟩, (·.1)⟩
  | create h ho _ hn _ ih =>
    simp only [List.forall_mem_append, List.forall_mem_singleton, ← ih, ho.unplaced_iff]
    exact ⟨fun hnil => ⟨hnil, h.own_eq_properties hnil ▸ hn⟩, (·.1)⟩

end Assembly

/-! ### What is consistent stays so -/

theorem Offers.hasMethod {m : Model} {c : ClassId} {id : MethodId} {f : Method} {a : Accessor}
    (h : m.Offers c id f a) : m.hasMethod id = true :=
  hasMethod_iff.2 ⟨f, h.method⟩

theorem Valid.consistent_attach {m : Model} (hm : m.Valid) {c : ClassId} {p : Property}
    {id : MethodId} {f : Method} {a : Accessor} (ho : m.Offers c id f a)
    (hp : p.Consistent m c) (hfree : p.half a.role = none) :
    (p.attach id f a).Consistent m c := by
  refine ⟨(Property.owner_attach p id f a).trans hp.owner, fun link hl => ?_⟩
  rcases List.mem_append.1 hl with hl | hl
  · rcases (Property.mem_accessors_attach hfree link).1 hl with rfl | hl
    · exact ho.hasMethod
    · exact hp.links link (List.mem_append_left _ hl)
  · rw [Property.implemented_attach, Option.mem_toList] at hl
    cases hf : f.implemented with
    | none =>
      rw [hf] at hl
      exact hp.links link (List.mem_append_right _ (Option.mem_toList.2 hl))
    | some j =>
      rw [hf] at hl
      obtain rfl : j = link := by simpa using hl
      exact (hm.method_consistent ho.method).links j (by simp [hf])

theorem Valid.consistent_single {m : Model} (hm : m.Valid) {c : ClassId} {id : MethodId}
    {f : Method} {a : Accessor} (ho : m.Offers c id f a) :
    (Property.single c id f a).Consistent m c :=
  hm.consistent_attach ho ⟨rfl, by simp [Property.accessors, Property.plain]⟩
    (by cases a.role <;> rfl)

theorem Assembly.consistent {m : Model} (hm : m.Valid) {k : Class} (hk : m.class? k.id = some k)
    {ids : List MethodId} {s : Pending} {own : List Property} (h : m.Assembly k ids s own) :
    (∀ p ∈ own, p.Consistent m k.id) ∧ ∀ p ∈ s.properties, p.Consistent m k.id := by
  induction h with
  | start => exact ⟨(hm.consistent hk).properties, by simp [Pending.empty]⟩
  | complete _ ho _ hp hc _ ih =>
    refine ⟨fun q hq => ?_, ih.2⟩
    rcases mem_modify hp hq with rfl | hq
    · exact hm.consistent_attach ho (ih.1 _ (List.mem_of_getElem? hp))
        (accepts_of_completable? hc).free
    · exact ih.1 q hq
  | join _ ho _ _ hp ha _ ih =>
    refine ⟨ih.1, fun q hq => ?_⟩
    rcases mem_modify hp hq with rfl | hq
    · exact hm.consistent_attach ho (ih.2 _ (List.mem_of_getElem? hp))
        (accepts?_eq_true.1 ha).free
    · exact ih.2 q hq
  | create _ ho _ _ _ ih =>
    refine ⟨ih.1, fun q hq => ?_⟩
    rcases List.mem_append.1 hq with hq | hq
    · exact ih.2 q hq
    · exact List.mem_singleton.1 hq ▸ hm.consistent_single ho

end Model
end ApiProperties

import ApiProperties.Proofs.Ancestors
import ApiProperties.Proofs.Outcome

/-!
Who owns an accessor. Starting without properties and without cycles of bases, runs and added
methods never lose an accessor and never share one: `Model.Owned` says so of one class, processing a
class preserves it for all classes, and with it every run and every evolution of the model does.
-/

set_option autoImplicit false

namespace ApiProperties

namespace Model

/-- The method is kept for the use of a property. -/
def Internal (m : Model) (id : MethodId) : Prop :=
  ∃ f, m.method? id = some f ∧ f.generation = .internal

def Uses (m : Model) (id : MethodId) : Prop :=
  ∃ k, m.class? id.owner = some k ∧ ∃ p ∈ k.properties, id ∈ p.accessors

/-- What holds of every property of class `c`. -/
structure OwnedProperty (m : Model) (c : ClassId) (p : Property) : Prop where
  readable : p.getter.isSome = true
  owner : p.owner = c
  internal : ∀ id ∈ p.accessors, m.Internal id
  inherited : ∀ id ∈ p.accessors, id.owner = c ∨ m.Ancestor c id.owner
  comment : m.mergedComment? p = some p.comment

structure Owned (m : Model) (c : ClassId) (k : Class) : Prop where
  properties : ∀ p ∈ k.properties, m.OwnedProperty c p
  distinct : ((k.properties.flatMap (·.accessors)).filter (·.owner == c)).Nodup

def WellOwned (m : Model) : Prop := ∀ c k, m.class? c = some k → m.Owned c k

theorem PropertyFree.wellOwned {m : Model} (h : m.PropertyFree) : m.WellOwned := by
  intro c k hk
  have hfree := h.class hk
  constructor <;> simp [hfree]

section
variable {m : Model} {c : ClassId} {k : Class} {id : MethodId}

theorem WellOwned.borrowable (h : m.WellOwned) (hb : m.Borrowable c id) :
    m.Internal id ∧ m.Ancestor c id.owner := by
  obtain ⟨d, k, hcd, hk, p, hp, hid⟩ := hb
  have howned := (h d k hk).properties p hp
  refine ⟨howned.internal id hid, ?_⟩
  rcases howned.inherited id hid with rfl | hd
  · exact hcd
  · exact hcd.trans hd

theorem WellOwned.borrowable_ne (h : m.WellOwned) (hac : m.Acyclic) (hb : m.Borrowable c id) :
    id.owner ≠ c := by
  rintro rfl
  exact hac _ (h.borrowable hb).2

theorem countP_le_count_flatMap {α : Type} (f : α → List MethodId) (l : List α) (id : MethodId) :
    l.countP (fun a => decide (id ∈ f a)) ≤ (l.flatMap f).count id := by
  induction l with
  | nil => simp
  | cons a rest ih =>
    rw [List.countP_cons, List.flatMap_cons, List.count_append]
    have hone : (if decide (id ∈ f a) = true then 1 else 0) ≤ (f a).count id := by
      by_cases h : id ∈ f a
      · simp only [h, decide_true, if_true]
        exact List.count_pos_iff.2 h
      · simp [h]
    omega

/-- An accessor of a property of its own class is one of no other. -/
theorem WellOwned.uses_once (h : m.WellOwned) (hu : m.Uses id) :
    ∃ k, m.class? id.owner = some k ∧
      k.properties.countP (fun p => decide (id ∈ p.accessors)) = 1 := by
  obtain ⟨k, hk, p, hp, hid⟩ := hu
  refine ⟨k, hk, Nat.le_antisymm ?_ ?_⟩
  · refine (countP_le_count_flatMap (·.accessors) k.properties id).trans ?_
    have hcount := List.nodup_iff_count_le_one.1 (h id.owner k hk).distinct id
    rwa [List.count_filter (by simp)] at hcount
  · exact List.countP_pos_iff.2 ⟨p, hp, by simpa using hid⟩

end

namespace Processed
variable {m : Model} {c : ClassId} {k : Class} {y : Synthesis} {ids : List MethodId} {s : Pending}
  {own : List Property} {vs : List (Property × Option Property)}

section
variable (h : m.Processed y c k ids s own vs)
include h

theorem not_internal_of_mem {id : MethodId} (hid : id ∈ ids) : ¬ m.Internal id := by
  obtain ⟨f, a, ho⟩ := (h.all id).1 hid
  rintro ⟨f', hf', hgen⟩
  obtain rfl : f = f' := Option.some.inj (ho.method.symm.trans hf')
  rw [ho.generation] at hgen
  simp at hgen

theorem not_mem_of_owned (ho : m.Owned c k) : ∀ p ∈ k.properties, ∀ id ∈ p.accessors, id ∉ ids :=
  fun p hp id hid hmem => h.not_internal_of_mem hmem ((ho.properties p hp).internal id hid)

end

section
variable (h : m.Processed y c k ids s own vs) (hm : m.Valid) (hk : m.class? c = some k)
include h hm hk

theorem internal_iff (id : MethodId) :
    (m.putClass c ((y.desk m k ids s own).settleAll c vs).cls).Internal id ↔
      m.Internal id ∨ id ∈ ids ∧ id ∉ y.released m s vs := by
  have hkc : k.id = c := (hm.consistent hk).id
  by_cases ho : id.owner = c
  · subst ho
    have hold : m.Internal id ↔ k.generation? id.index = some .internal := generation?_of_class hk
    have hself : (⟨k.id, id.index⟩ : MethodId) = id := by rw [hkc]
    have hnew : id ∈ ids → ¬ m.Internal id := h.not_internal_of_mem
    rw [Internal, generation?_of_class (class?_putClass_self _ hk), generation?_settled, hself,
      hold]
    rw [hold] at hnew
    by_cases hmem : id ∈ ids
    · obtain ⟨f, a, hf⟩ := (h.all id).1 hmem
      obtain ⟨x, hx⟩ : ∃ x, k.generation? id.index = some x :=
        ⟨_, (generation?_of_class hk).1 ⟨f, hf.method, rfl⟩⟩
      have hx' : x ≠ .internal := fun heq => hnew hmem (heq ▸ hx)
      by_cases hrel : id ∈ y.released m s vs <;> simp [hx, hmem, hrel, hx']
    · have hrel : id ∉ y.released m s vs := fun hid => hmem (h.released_subset hid)
      simp [hmem, hrel]
  · have hmem : id ∉ ids := fun hid => ho (h.owner_of_mem hid)
    simp [Internal, method?_putClass_ne m _ ho, hmem]

end

section
variable (h : m.Processed y c k ids s own vs) (hm : m.Valid) (hk : m.class? c = some k)
  (hac : m.Acyclic) (ho : m.WellOwned)
include h hm hk hac ho

theorem accounted_perm : ((own.flatMap (·.accessors)).filter (· ∈ ids) ++ (y.released m s vs ++
    ((vs.filterMap (·.2)).flatMap (·.accessors)).filter (·.owner == c))).Perm ids :=
  h.accounted (fun _ hb => ho.borrowable_ne hac hb) (hm.consistent hk).id
    (h.not_mem_of_owned (ho c k hk))

theorem not_released_of_owned {id : MethodId} (hid : (∃ p ∈ own, id ∈ p.accessors ∧ id ∈ ids) ∨
    ∃ v ∈ vs, ∃ q, v.2 = some q ∧ id ∈ q.accessors ∧ id.owner = c) : id ∉ y.released m s vs :=
  h.not_released (fun _ hb => ho.borrowable_ne hac hb) (hm.consistent hk).id
    (h.not_mem_of_owned (ho c k hk)) hid

theorem used_of_not_released {id : MethodId} (hid : id ∈ ids) (hrel : id ∉ y.released m s vs) :
    (m.putClass c ((y.desk m k ids s own).settleAll c vs).cls).Uses id := by
  have howner := h.owner_of_mem hid
  refine ⟨((y.desk m k ids s own).settleAll c vs).cls, ?_, ?_⟩
  · rw [howner, class?_putClass_self _ hk]
  have hprops : ∀ p, p ∈ ((y.desk m k ids s own).settleAll c vs).cls.properties ↔
      p ∈ m.documentedOwn own s.completed ∨ p ∈ vs.filterMap (·.2) := fun p => by
    rw [Desk.properties_settleAll, properties_desk, List.mem_append]
  have hmem := (h.accounted_perm hm hk hac ho).mem_iff.2 hid
  simp only [List.mem_append, List.mem_filter, hrel, false_or] at hmem
  rcases hmem with ⟨hmem, -⟩ | ⟨hmem, -⟩
  · rw [← flatMap_documentedOwn (m := m) own s.completed] at hmem
    obtain ⟨p, hp, hid⟩ := List.mem_flatMap.1 hmem
    exact ⟨p, (hprops p).2 (.inl hp), hid⟩
  · obtain ⟨p, hp, hid⟩ := List.mem_flatMap.1 hmem
    exact ⟨p, (hprops p).2 (.inr hp), hid⟩

theorem internal_or_used {id : MethodId}
    (hid : (m.putClass c ((y.desk m k ids s own).settleAll c vs).cls).Internal id) :
    m.Internal id ∨ (m.putClass c ((y.desk m k ids s own).settleAll c vs).cls).Uses id :=
  ((h.internal_iff hm hk id).1 hid).imp_right fun ⟨hmem, hrel⟩ =>
    h.used_of_not_released hm hk hac ho hmem hrel

end

theorem uses (h : m.Processed y c k ids s own vs) (hk : m.class? c = some k) {id : MethodId}
    (hu : m.Uses id) : (m.putClass c ((y.desk m k ids s own).settleAll c vs).cls).Uses id := by
  obtain ⟨k', hk', p, hp, hid⟩ := hu
  by_cases howner : c = id.owner
  · subst howner
    obtain rfl := Option.some.inj (hk.symm.trans hk')
    obtain ⟨i, hi⟩ := List.mem_iff_getElem?.1 hp
    have hlt : i < own.length := by
      rw [h.assembly.own_length]
      exact (List.getElem?_eq_some_iff.1 hi).1
    obtain ⟨p', hp', hext⟩ := h.assembly.own_extends (List.getElem?_eq_getElem hlt)
    obtain rfl := Option.some.inj (hi.symm.trans hp')
    have hin : id ∈ (m.documentedOwn own s.completed).flatMap (·.accessors) := by
      rw [flatMap_documentedOwn]
      exact List.mem_flatMap.2 ⟨_, List.getElem_mem hlt, hext.accessors id hid⟩
    obtain ⟨q, hq, hid⟩ := List.mem_flatMap.1 hin
    refine ⟨_, class?_putClass_self _ hk, q, ?_, hid⟩
    rw [Desk.properties_settleAll, properties_desk]
    exact List.mem_append_left _ hq
  · exact ⟨k', by rw [class?_putClass_ne m _ howner, hk'], p, hp, hid⟩

section
variable (h : m.Processed y c k ids s own vs) (hm : m.Valid) (hk : m.class? c = some k)
include h hm hk

/-- A property needs nothing but accessors that were internal before or are not given back. -/
theorem ownedProperty {d : ClassId} {p : Property} (hreadable : p.getter.isSome = true)
    (howner : p.owner = d) (hcomment : m.mergedComment? p = some p.comment)
    (haccessors : ∀ id ∈ p.accessors, (m.Internal id ∨ id ∈ ids ∧ id ∉ y.released m s vs) ∧
      (id.owner = d ∨ m.Ancestor d id.owner)) :
    (m.putClass c ((y.desk m k ids s own).settleAll c vs).cls).OwnedProperty d p := by
  have hout := h.outline_model hm hk
  refine ⟨hreadable, howner, fun id hid => ?_, fun id hid => ?_, ?_⟩
  · exact (h.internal_iff hm hk id).2 (haccessors id hid).1
  · exact (haccessors id hid).2.imp_right (ancestor_of_skeleton (skeleton_congr hout.symm))
  · rw [mergedComment?_congr hout]
    exact hcomment

end

/-- A property of the class that was completed has been documented, the others are as they were. -/
theorem documentedOwn_cases (h : m.Processed y c k ids s own vs) {p : Property}
    (hp : p ∈ m.documentedOwn own s.completed) :
    ∃ p₁ ∈ own, ∃ p₀ ∈ k.properties, p₁.Extends p₀ ∧ (p = m.documented p₁ ∨ p = p₁ ∧ p₁ = p₀) := by
  obtain ⟨i, hi⟩ := List.mem_iff_getElem?.1 hp
  rw [getElem?_documentedOwn, Option.map_eq_some_iff] at hi
  obtain ⟨p₁, hp₁, hdoc⟩ := hi
  obtain ⟨p₀, hp₀, hext⟩ := h.assembly.own_extends hp₁
  refine ⟨p₁, List.mem_of_getElem? hp₁, p₀, List.mem_of_getElem? hp₀, hext, ?_⟩
  by_cases hmem : i ∈ s.completed
  · rw [if_pos hmem] at hdoc
    exact .inl hdoc.symm
  · rw [if_neg hmem] at hdoc
    have hsame := h.assembly.own_eq hmem
    exact .inr ⟨hdoc.symm, Option.some.inj (hp₁.symm.trans (hsame.trans hp₀))⟩

section
variable (h : m.Processed y c k ids s own vs) (hm : m.Valid) (hk : m.class? c = some k)
  (hac : m.Acyclic) (ho : m.WellOwned)
include h hm hk hac ho

theorem accessors_own {p : Property} (hp : p ∈ own) {id : MethodId} (hid : id ∈ p.accessors) :
    (m.Internal id ∨ id ∈ ids ∧ id ∉ y.released m s vs) ∧
      (id.owner = c ∨ m.Ancestor c id.owner) := by
  have hmem : id ∈ own.flatMap (·.accessors) := List.mem_flatMap.2 ⟨p, hp, hid⟩
  have hmem := h.assembly.perm.mem_iff.1 (List.mem_append_left _ hmem)
  -- the method was an accessor of the class before, or has been taken in
  rcases List.mem_append.1 hmem with hmem | hmem
  · obtain ⟨p₀, hp₀, hid⟩ := List.mem_flatMap.1 hmem
    have hold := (ho c k hk).properties p₀ hp₀
    exact ⟨.inl (hold.internal id hid), hold.inherited id hid⟩
  · have hrel := h.not_released_of_owned hm hk hac ho (.inl ⟨p, hp, hid, hmem⟩)
    exact ⟨.inr ⟨hmem, hrel⟩, .inl (h.owner_of_mem hmem)⟩

theorem owned_own {p : Property} (hp : p ∈ m.documentedOwn own s.completed) :
    (m.putClass c ((y.desk m k ids s own).settleAll c vs).cls).OwnedProperty c p := by
  obtain ⟨p₁, hp₁, p₀, hp₀, hext, hcase⟩ := h.documentedOwn_cases hp
  have hold := (ho c k hk).properties p₀ hp₀
  obtain ⟨g, hg⟩ := Option.isSome_iff_exists.1 hold.readable
  have hreadable : p₁.getter.isSome = true := by rw [hext.getter g hg, Option.isSome_some]
  have howner : p₁.owner = c := hext.owner.trans hold.owner
  have haccessors := fun id (hid : id ∈ p₁.accessors) => h.accessors_own hm hk hac ho hp₁ hid
  rcases hcase with rfl | ⟨rfl, rfl⟩
  · have hlinks : ∀ id ∈ p₁.accessors, m.hasMethod id = true := fun id hid =>
      ((h.assembly.consistent hm ((hm.consistent hk).id ▸ hk)).1 p₁ hp₁).links id
        (List.mem_append_left _ hid)
    obtain ⟨o, hcomment⟩ := mergedComment?_total hlinks
    have hsame : m.mergedComment? (m.documented p₁) = m.mergedComment? p₁ :=
      mergedComment?_accessors m rfl rfl
    refine h.ownedProperty hm hk hreadable howner ?_ haccessors
    rw [hsame, documented, hcomment]
    rfl
  · exact h.ownedProperty hm hk hreadable howner hold.comment haccessors

theorem accessors_kept {v : Property × Option Property} (hv : v ∈ vs) {q : Property}
    (hq : v.2 = some q) {id : MethodId} (hid : id ∈ q.accessors) :
    (m.Internal id ∨ id ∈ ids ∧ id ∉ y.released m s vs) ∧
      (id.owner = c ∨ m.Ancestor c id.owner) := by
  rcases (h.kept v hv q hq).accessors hid with hacc | hb
  · have hmem := h.mem_of_verdict hv id hacc
    have howner := h.owner_of_mem hmem
    have hrel := h.not_released_of_owned hm hk hac ho (.inr ⟨v, hv, q, hq, hid, howner⟩)
    exact ⟨.inr ⟨hmem, hrel⟩, .inl howner⟩
  · obtain ⟨hinternal, hancestor⟩ := ho.borrowable hb
    exact ⟨.inl hinternal, .inr hancestor⟩

theorem owned_kept {v : Property × Option Property} (hv : v ∈ vs) {q : Property}
    (hq : v.2 = some q) :
    (m.putClass c ((y.desk m k ids s own).settleAll c vs).cls).OwnedProperty c q := by
  have hkept := h.kept v hv q hq
  exact h.ownedProperty hm hk hkept.readable (congrArg (·.owner) hkept.rest) hkept.comment
    fun id hid => h.accessors_kept hm hk hac ho hv hq hid

theorem wellOwned : (m.putClass c ((y.desk m k ids s own).settleAll c vs).cls).WellOwned := by
  intro d k' hk'
  by_cases hcd : c = d
  · subst hcd
    obtain rfl := Option.some.inj ((class?_putClass_self _ hk).symm.trans hk')
    refine ⟨fun p hp => ?_, ?_⟩
    · rw [Desk.properties_settleAll, properties_desk, List.mem_append, List.mem_filterMap] at hp
      rcases hp with hp | ⟨v, hv, hq⟩
      · exact h.owned_own hm hk hac ho hp
      · exact h.owned_kept hm hk hac ho hv hq
    · exact h.distinct (fun _ hb => ho.borrowable_ne hac hb) (hm.consistent hk).id
        (h.not_mem_of_owned (ho c k hk)) (ho c k hk).distinct
  · rw [class?_putClass_ne m _ hcd] at hk'
    have hd := ho d k' hk'
    refine ⟨fun p hp => ?_, hd.distinct⟩
    have hold := hd.properties p hp
    exact h.ownedProperty hm hk hold.readable hold.owner hold.comment fun id hid =>
      ⟨.inl (hold.internal id hid), hold.inherited id hid⟩

end

end Processed

end Model
end ApiProperties

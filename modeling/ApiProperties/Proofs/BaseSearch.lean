import ApiProperties.Proofs.Preorder

/-!
The search for an overridden property looks into the classes in the order of a depth-first walk, and
so it answers the first of them that has a property that fits.
-/

set_option autoImplicit false

namespace ApiProperties.Model

/-- The accessors of the first property of the class that fits. -/
def hit? (m : Model) (q : BaseQuery) (d : ClassId) : Option BaseAccessors :=
  (m.class? d).bind fun k => (k.properties.find? q.matches).map fun p => ⟨d, p.getter, p.setter⟩

/-- Of the parents of the classes seen, those that have not been met are still to be looked into,
and the first of them is where the walk goes on. -/
def Frontier (m : Model) (seen todo : List ClassId) : Prop :=
  ∀ met, seen ⊆ met → (seen.flatMap m.parents).find? (· ∉ met) =
    (todo.filterMap m.definition?).find? (· ∉ met)

namespace Frontier
variable {m : Model} {seen todo : List ClassId} {t d : ClassId} {k : Class}

theorem parents_eq (hk : m.class? d = some k) :
    m.parents d = (k.bases.map (·.target)).filterMap m.definition? := by
  simp [parents, hk, List.filterMap_map]

theorem start (hk : m.class? d = some k) : m.Frontier [d] (k.bases.map (·.target)) := by
  intro met _
  rw [List.flatMap_singleton, parents_eq hk]

/-- The class behind `t` has been seen before. -/
theorem skip (h : m.Frontier seen (t :: todo)) (hd : m.definition? t = some d) (hmem : d ∈ seen) :
    m.Frontier seen todo := by
  intro met hmet
  rw [h met hmet, List.filterMap_cons_some hd, List.find?_cons_of_neg (by simpa using hmet hmem)]

/-- The class behind `t` is looked into, and then its bases are. -/
theorem enter (h : m.Frontier seen (t :: todo)) (hd : m.definition? t = some d)
    (hk : m.class? d = some k) : m.Frontier (d :: seen) (k.bases.map (·.target) ++ todo) := by
  intro met hmet
  obtain ⟨hmem, hseen⟩ := List.cons_subset.1 hmet
  rw [List.flatMap_cons, List.filterMap_append, List.find?_append, List.find?_append,
    parents_eq hk, h met hseen, List.filterMap_cons_some hd,
    List.find?_cons_of_neg (by simpa using hmem)]

end Frontier

/-- With fuel for all that is left to look into, the search goes on as the walk does. -/
theorem Valid.searchBases?_eq {m : Model} (hm : m.Valid) (q : BaseQuery) (fuel : Nat) :
    ∀ {seen todo order : List ClassId}, (∀ t ∈ todo, t < m.classes.length) →
      todo.length + m.unseenBases seen < fuel → m.Frontier seen todo → m.Preorder seen order →
      m.searchBases? q fuel seen todo = some (order.findSome? (m.hit? q)) := by
  induction fuel with
  | zero => exact fun _ hfuel => absurd hfuel (Nat.not_lt_zero _)
  | succ fuel ih =>
    intro seen todo order htodo hfuel hfrontier horder
    have hnext : m.nextMet? seen = (todo.filterMap m.definition?).find? (· ∉ seen) :=
      hfrontier seen (List.Subset.refl seen)
    cases todo with
    | nil =>
      cases horder with
      | done => simp [searchBases?]
      | next hsome => simp [hsome] at hnext
    | cons t todo =>
      have hrest : ∀ u ∈ todo, u < m.classes.length := fun u hu =>
        htodo u (List.mem_cons_of_mem t hu)
      obtain ⟨d, hd, hlt⟩ := hm.definition?_isSome (htodo t List.mem_cons_self)
      rw [List.length_cons] at hfuel
      by_cases hmem : d ∈ seen
      · rw [← ih hrest (by omega) (hfrontier.skip hd hmem) horder]
        simp [searchBases?, hd, hmem]
      · obtain ⟨k, hk⟩ := hasClass_iff.1 (decide_eq_true hlt)
        cases horder with
        | done hnone => simp [hnone, hd, hmem] at hnext
        | @next _ order e hsome horder =>
          obtain rfl : e = d := by simpa [hsome, hd, hmem] using hnext
          cases hfind : k.properties.find? q.matches with
          | some p => simp [searchBases?, hd, hmem, hk, hfind, hit?]
          | none =>
            have hbases : ∀ u ∈ k.bases.map (·.target) ++ todo, u < m.classes.length := fun u hu =>
              (List.mem_append.1 hu).elim (hm.bases_lt hk u) (hrest u)
            -- the class spends on its entry what its bases add to the list
            have hspent := unseenBases_cons hk hmem
            have hlength : (k.bases.map (·.target) ++ todo).length =
                k.bases.length + todo.length := by simp
            have hgoes := ih hbases (by omega) (hfrontier.enter hd hk) horder
            simp [searchBases?, hd, hmem, hk, hfind, hit?, hgoes]

/-! ### What is found -/

/-- An accessor of `p` overrides one of the accessors of `x`, or both stand for the same field. -/
def Refines (m : Model) (p x : Property) : Prop :=
  (∃ id ∈ p.accessors, ∃ f, m.method? id = some f ∧ ∃ b ∈ x.accessors, f.overridden = some b) ∨
    ∃ field, p.field = some field ∧ x.field = some field

/-- The class has a property that `p` refines. -/
def HasRefined (m : Model) (p : Property) (d : ClassId) : Prop :=
  ∃ k, m.class? d = some k ∧ ∃ x ∈ k.properties, m.Refines p x

/-- `x` is the first in the list of which `P` holds. -/
def FirstIn {α : Type} (P : α → Prop) (l : List α) (x : α) : Prop :=
  ∃ before after, l = before ++ x :: after ∧ P x ∧ ∀ y ∈ before, ¬ P y

theorem find?_eq_some_iff_firstIn {α : Type} {P : α → Bool} {l : List α} {x : α} :
    l.find? P = some x ↔ FirstIn (P · = true) l x := by
  rw [List.find?_eq_some_iff_append]
  constructor
  · rintro ⟨hx, before, after, hl, hbefore⟩
    exact ⟨before, after, hl, hx, by simpa using hbefore⟩
  · rintro ⟨before, after, hl, hx, hbefore⟩
    exact ⟨hx, before, after, hl, by simpa using hbefore⟩

variable {m : Model} {c d : ClassId} {p x : Property} {b : BaseAccessors} {order : List ClassId}

theorem matches_sought : (m.sought p).matches x = true ↔ m.Refines p x := by
  rw [BaseQuery.matches, Bool.or_eq_true, Refines]
  refine or_congr ?_ ?_
  · simp only [sought, List.any_eq_true, List.contains_iff_mem, List.mem_filterMap]
    constructor
    · rintro ⟨b, hb, f, ⟨id, hid, hf⟩, hover⟩
      exact ⟨id, hid, f, hf, b, hb, hover⟩
    · rintro ⟨id, hid, f, hf, b, hb, hover⟩
      exact ⟨b, hb, f, ⟨id, hid, hf⟩, hover⟩
  · cases hf : p.field <;> simp [sought, hf]

theorem hit?_eq_none : m.hit? (m.sought p) d = none ↔ ¬ m.HasRefined p d := by
  simp only [hit?, HasRefined, Option.bind_eq_none_iff, Option.map_eq_none_iff,
    List.find?_eq_none, matches_sought, not_exists, not_and]

theorem hit?_eq_some : m.hit? (m.sought p) d = some b ↔ b.owner = d ∧ ∃ k x,
    m.class? d = some k ∧ FirstIn (m.Refines p) k.properties x ∧
      b.getter = x.getter ∧ b.setter = x.setter := by
  have hfits : ((m.sought p).matches · = true) = m.Refines p :=
    funext fun _ => propext matches_sought
  simp only [hit?, Option.bind_eq_some_iff, Option.map_eq_some_iff, find?_eq_some_iff_firstIn,
    hfits]
  constructor
  · rintro ⟨k, hk, x, hx, rfl⟩
    exact ⟨rfl, k, x, hk, hx, rfl, rfl⟩
  · rintro ⟨rfl, k, x, hk, hx, hg, hs⟩
    exact ⟨k, hk, x, hx, by rw [← hg, ← hs]⟩

section Search
variable (hm : m.Valid) (hc : m.IsDefinition c) (hp : ∀ id ∈ p.accessors, m.hasMethod id = true)
include hm hc

theorem Valid.exists_preorder_self : ∃ order, m.Preorder [c] order := by
  obtain ⟨k, hk⟩ := hc.listed
  have hlt : c < m.classes.length := of_decide_eq_true (hasClass_iff.2 ⟨k, hk⟩)
  exact hm.exists_preorder (List.nodup_singleton c) (by simpa using hlt)

include hp

theorem Valid.findBaseProperty?_eq (horder : m.Preorder [c] order) :
    m.findBaseProperty? c p = some (order.findSome? (m.hit? (m.sought p))) := by
  obtain ⟨k, hk⟩ := hc.listed
  have hdef : m.definition? c = some c := hc
  rw [← hm.searchBases?_eq _ _ (hm.bases_lt hk) (length_add_unseenBases_lt hk) (.start hk) horder]
  simp [findBaseProperty?, baseQuery?_eq_some hp, hdef, hk]

/-- If no overridden property is found, no other class that `c` derives from has one. -/
theorem Valid.not_hasRefined (hnone : m.findBaseProperty? c p = some none) (hcd : m.Ancestor c d)
    (hne : d ≠ c) : ¬ m.HasRefined p d := by
  obtain ⟨order, horder⟩ := hm.exists_preorder_self hc
  rw [hm.findBaseProperty?_eq hc hp horder, Option.some.injEq, List.findSome?_eq_none_iff] at hnone
  exact hit?_eq_none.1 (hnone d ((horder.mem_iff hm hc).2 ⟨hcd, hne⟩))

end Search

/-- The search finds a property of the first class, in the order of the walk, that has one to be
refined, and in this class the first such property. -/
theorem findBaseProperty?_first (m : Model) (hm : m.Valid) (c : ClassId) (hc : m.IsDefinition c)
    (p : Property) (hp : ∀ id ∈ p.accessors, m.hasMethod id = true) :
    ∃ order r, m.Preorder [c] order ∧ (∀ d, d ∈ order ↔ m.Ancestor c d ∧ d ≠ c) ∧
      m.findBaseProperty? c p = some r ∧
      (r.isSome = true ↔ ∃ d, m.Ancestor c d ∧ d ≠ c ∧ m.HasRefined p d) ∧
      ∀ b, r = some b → FirstIn (m.HasRefined p) order b.owner ∧ ∃ k x,
        m.class? b.owner = some k ∧ FirstIn (m.Refines p) k.properties x ∧
          b.getter = x.getter ∧ b.setter = x.setter := by
  obtain ⟨order, horder⟩ := hm.exists_preorder_self hc
  have hmem : ∀ d, d ∈ order ↔ m.Ancestor c d ∧ d ≠ c := fun d => horder.mem_iff hm hc
  refine ⟨order, _, horder, hmem, hm.findBaseProperty?_eq hc hp horder, ?_, fun b hb => ?_⟩
  · rw [← not_iff_not, Bool.not_eq_true, Option.isSome_eq_false_iff, Option.isNone_iff_eq_none,
      List.findSome?_eq_none_iff]
    simp only [hit?_eq_none, hmem, not_exists, not_and, and_imp]
  · obtain ⟨before, d, after, rfl, hhit, hmiss⟩ := List.findSome?_eq_some_iff.1 hb
    obtain ⟨rfl, hfound⟩ := hit?_eq_some.1 hhit
    have hhas : m.HasRefined p b.owner := by
      by_contra hnot
      rw [hit?_eq_none.2 hnot] at hhit
      simp at hhit
    exact ⟨⟨before, after, rfl, hhas, fun e he => hit?_eq_none.1 (hmiss e he)⟩, hfound⟩

/-- A leaf that derives from two classes, from the second through a view of it. Both derive from the
root, and the first also from the leaf and the root from the first. The root has a property, and the
second class has one that borrows its getter. -/
def maze : Model :=
  let int := QualifiedType.plain (.builtin .int)
  let size := Method.plain "getSize" int
  let shown (c : ClassId) (setter : Option MethodId) : Property :=
    { Property.plain "size" int c .pub with getter := some ⟨3, 0⟩, setter }
  ⟨"unit", [
    { Class.empty 0 "Leaf" with
      bases := [⟨1, .pub⟩, ⟨4, .pub⟩], methods := [size.overriding ⟨3, 0⟩] },
    { Class.empty 1 "Left" with bases := [⟨0, .pub⟩, ⟨3, .pub⟩] },
    { Class.empty 2 "Right" with bases := [⟨3, .pub⟩], properties := [shown 2 none] },
    { Class.empty 3 "Root" with
      bases := [⟨1, .pub⟩]
      methods := [{ size with owner := 3 }, { size with owner := 3, name := "setSize" }]
      properties := [shown 3 (some ⟨3, 1⟩)] },
    { Class.empty 4 "View" with definition := some 2 }]⟩

def maze.size : Property :=
  { Property.plain "size" (.plain (.builtin .int)) 0 .pub with getter := some ⟨0, 0⟩ }

/-- The walk goes down to the root before it comes to the second class. -/
theorem findBaseProperty?_first_maze : maze.Valid ∧ maze.IsDefinition 0 ∧
    (∀ id ∈ maze.size.accessors, maze.hasMethod id = true) ∧ maze.Preorder [0] [1, 3, 2] ∧
    maze.findBaseProperty? 0 maze.size = some (some ⟨3, some ⟨3, 0⟩, some ⟨3, 1⟩⟩) ∧
    ∃ order r, maze.Preorder [0] order ∧ (∀ d, d ∈ order ↔ maze.Ancestor 0 d ∧ d ≠ 0) ∧
      maze.findBaseProperty? 0 maze.size = some r ∧
      (r.isSome = true ↔ ∃ d, maze.Ancestor 0 d ∧ d ≠ 0 ∧ maze.HasRefined maze.size d) ∧
      ∀ b, r = some b → FirstIn (maze.HasRefined maze.size) order b.owner ∧ ∃ k x,
        maze.class? b.owner = some k ∧ FirstIn (maze.Refines maze.size) k.properties x ∧
          b.getter = x.getter ∧ b.setter = x.setter :=
  have hvalid : maze.Valid := by decide
  have hdef : maze.IsDefinition 0 := by decide
  have hlinks : ∀ id ∈ maze.size.accessors, maze.hasMethod id = true := by decide
  ⟨hvalid, hdef, hlinks,
    .next (by decide) (.next (by decide) (.next (by decide) (.done (by decide)))), by decide,
    findBaseProperty?_first maze hvalid 0 hdef maze.size hlinks⟩

end ApiProperties.Model

import Mathlib.Algebra.BigOperators.Fin
import Mathlib.Logic.Relation
import ApiProperties.Proofs.Definitions

/-!
Ancestors of a class, and what the search for an overridden property finds: on a consistent model it
answers, a hit is a property of a proper ancestor, and the class that asks is never looked into. Every
class adds its bases once, so the fuel lasts until nothing is left to look into.
-/

set_option autoImplicit false

namespace ApiProperties.Model

/-- `d` is the complete class behind a base of the complete class `c`. -/
def DerivesFrom (m : Model) (c d : ClassId) : Prop :=
  m.IsDefinition c ∧ ∃ k, m.class? c = some k ∧ ∃ b ∈ k.bases, m.definition? b.target = some d

def Ancestor (m : Model) : ClassId → ClassId → Prop := Relation.TransGen m.DerivesFrom

def Acyclic (m : Model) : Prop := ∀ c, ¬ m.Ancestor c c

/-- The complete classes behind the bases of a class. -/
def parents (m : Model) (c : ClassId) : List ClassId :=
  ((m.class? c).map fun k => k.bases.filterMap fun b => m.definition? b.target).getD []

theorem derivesFrom_iff {m : Model} {c d : ClassId} :
    m.DerivesFrom c d ↔ m.IsDefinition c ∧ d ∈ m.parents c := by
  cases hk : m.class? c <;> simp [DerivesFrom, parents, hk]

/-- Bases that stand before the classes that derive from them form no cycle. -/
theorem acyclic_of_parents {m : Model} (h : ∀ c ∈ m.classIds, ∀ d ∈ m.parents c, d < c) :
    m.Acyclic := by
  have hstep : ∀ {c d}, m.DerivesFrom c d → d < c := by
    intro c d hcd
    obtain ⟨k, hk, -⟩ := hcd.2
    have hc : c < m.classes.length := of_decide_eq_true (hasClass_iff.2 ⟨k, hk⟩)
    exact h c (List.mem_range.2 hc) d (derivesFrom_iff.1 hcd).2
  have hlt : ∀ {c d}, m.Ancestor c d → d < c := by
    intro c d hcd
    induction hcd with
    | single hcd => exact hstep hcd
    | tail _ hlast ih => exact (hstep hlast).trans ih
  exact fun c hc => Nat.lt_irrefl c (hlt hc)

theorem derivesFrom_of_skeleton {m m' : Model} (h : m.skeleton = m'.skeleton) {c d : ClassId}
    (hc : m.DerivesFrom c d) : m'.DerivesFrom c d := by
  obtain ⟨hdef, k, hk, b, hb, hd⟩ := hc
  obtain ⟨k', hk', hbases, -⟩ := class?_of_skeleton h hk
  refine ⟨?_, k', hk', b, hbases ▸ hb, ?_⟩
  · rw [IsDefinition, ← definition?_of_skeleton h]
    exact hdef
  · rw [← definition?_of_skeleton h]
    exact hd

theorem ancestor_of_skeleton {m m' : Model} (h : m.skeleton = m'.skeleton) {c d : ClassId}
    (hc : m.Ancestor c d) : m'.Ancestor c d :=
  Relation.TransGen.mono (fun _ _ => derivesFrom_of_skeleton h) _ _ hc

theorem acyclic_of_skeleton {m m' : Model} (h : m.skeleton = m'.skeleton) (hm : m.Acyclic) :
    m'.Acyclic :=
  fun c hc => hm c (ancestor_of_skeleton h.symm hc)

/-- A base is looked for under all that the accessors override. -/
def sought (m : Model) (p : Property) : BaseQuery :=
  ⟨(p.accessors.filterMap m.method?).filterMap (·.overridden), p.field⟩

theorem baseQuery?_eq_some {m : Model} {p : Property}
    (hp : ∀ id ∈ p.accessors, m.hasMethod id = true) : m.baseQuery? p = some (m.sought p) := by
  simp [baseQuery?, sought, mapM_eq_some fun id hid => hasMethod_iff.1 (hp id hid)]

/-- What a hit of the search is: the accessors of a property that the class `b.owner` lists. -/
structure Hit (m : Model) (q : BaseQuery) (b : BaseAccessors) (k : Class) (p : Property) :
    Prop where
  listed : m.class? b.owner = some k
  member : p ∈ k.properties
  fits : q.matches p = true
  getter : b.getter = p.getter
  setter : b.setter = p.setter

/-- The bases of the classes that have not been seen. -/
def unseenBases (m : Model) (seen : List ClassId) : Nat :=
  ∑ c ∈ (Finset.range m.classes.length).filter (· ∉ seen), ((m.class? c).elim 0 (·.bases.length))

theorem unseenBases_cons {m : Model} {seen : List ClassId} {d : ClassId} {k : Class}
    (hk : m.class? d = some k) (hd : d ∉ seen) :
    k.bases.length + m.unseenBases (d :: seen) = m.unseenBases seen := by
  have hlt : d < m.classes.length := of_decide_eq_true (hasClass_iff.2 ⟨k, hk⟩)
  have herase : (Finset.range m.classes.length).filter (· ∉ d :: seen) =
      ((Finset.range m.classes.length).filter (· ∉ seen)).erase d := by
    ext e
    simp only [Finset.mem_filter, Finset.mem_erase, List.mem_cons, not_or]
    tauto
  have hmem : d ∈ (Finset.range m.classes.length).filter (· ∉ seen) := by simp [hlt, hd]
  rw [unseenBases, unseenBases, herase, ← Finset.add_sum_erase _ _ hmem, hk]
  rfl

theorem unseenBases_nil (m : Model) : m.unseenBases [] = m.baseCount := by
  have hlength : ∀ i : Fin m.classes.length, (m.class? i).elim 0 (·.bases.length) =
      m.classes[i].bases.length := fun i => by simp [class?]
  simp only [unseenBases, List.not_mem_nil, not_false_eq_true, Finset.filter_true,
    Finset.sum_range, hlength]
  rw [baseCount, List.length_flatMap]
  exact Fin.sum_univ_fun_getElem m.classes (·.bases.length)

/-- Where the search of a class begins there is fuel for all that can come. -/
theorem length_add_unseenBases_lt {m : Model} {c : ClassId} {k : Class} (hk : m.class? c = some k) :
    (k.bases.map (·.target)).length + m.unseenBases [c] < 2 * m.baseCount + 1 := by
  have hspent := unseenBases_cons hk (List.not_mem_nil (a := c))
  rw [unseenBases_nil] at hspent
  rw [List.length_map]
  omega

/-- With fuel for all that is left to look into, the search answers. -/
theorem Valid.searchBases?_total {m : Model} (hm : m.Valid) (q : BaseQuery) (fuel : Nat) :
    ∀ (seen : List ClassId) {todo : List ClassId}, (∀ b ∈ todo, b < m.classes.length) →
      todo.length + m.unseenBases seen < fuel →
      ∃ r, m.searchBases? q fuel seen todo = some r ∧ ∀ b, r = some b →
        b.owner ∉ seen ∧ (∃ k p, m.Hit q b k p) ∧
          ∃ t ∈ todo, ∃ d, m.definition? t = some d ∧
            Relation.ReflTransGen m.DerivesFrom d b.owner := by
  induction fuel with
  | zero => exact fun _ _ _ hfuel => absurd hfuel (Nat.not_lt_zero _)
  | succ fuel ih =>
    intro seen todo htodo hfuel
    cases todo with
    | nil => exact ⟨none, by simp [searchBases?], by simp⟩
    | cons t todo =>
      have ht := htodo t List.mem_cons_self
      have hrest : ∀ b ∈ todo, b < m.classes.length := fun b hb =>
        htodo b (List.mem_cons_of_mem t hb)
      obtain ⟨d, hd, hlt⟩ := hm.definition?_isSome ht
      rw [List.length_cons] at hfuel
      by_cases hmem : d ∈ seen
      · obtain ⟨r, hr, hfound⟩ := ih seen hrest (by omega)
        refine ⟨r, by simp [searchBases?, hd, hmem, hr], fun b hb => ?_⟩
        obtain ⟨h1, h2, t', ht', h3⟩ := hfound b hb
        exact ⟨h1, h2, t', List.mem_cons_of_mem t ht', h3⟩
      · obtain ⟨k, hk⟩ := hasClass_iff.1 (decide_eq_true hlt)
        cases hfind : k.properties.find? q.matches with
        | some p =>
          refine ⟨some ⟨d, p.getter, p.setter⟩, by simp [searchBases?, hd, hmem, hk, hfind], ?_⟩
          rintro b ⟨⟩
          exact ⟨hmem, ⟨k, p, hk, List.mem_of_find?_eq_some hfind, List.find?_some hfind, rfl, rfl⟩,
            t, List.mem_cons_self, d, hd, .refl⟩
        | none =>
          -- the bases of `d` come first, and a path from one of them starts at `d`
          have hbases : ∀ b ∈ k.bases.map (·.target) ++ todo, b < m.classes.length := by
            intro b hb
            exact (List.mem_append.1 hb).elim (hm.bases_lt hk b) (hrest b)
          -- the class spends on its entry what its bases add to the list
          have hspent := unseenBases_cons hk hmem
          have hlength : (k.bases.map (·.target) ++ todo).length =
              k.bases.length + todo.length := by simp
          obtain ⟨r, hr, hfound⟩ := ih (d :: seen) hbases (by omega)
          refine ⟨r, by simp [searchBases?, hd, hmem, hk, hfind, hr], fun b hb => ?_⟩
          obtain ⟨h1, h2, t', ht', e, he, hpath⟩ := hfound b hb
          refine ⟨fun h => h1 (List.mem_cons_of_mem d h), h2, ?_⟩
          rcases List.mem_append.1 ht' with ht' | ht'
          · obtain ⟨base, hbase, rfl⟩ := List.mem_map.1 ht'
            have hedge : m.DerivesFrom d e :=
              ⟨hm.isDefinition_of_definition? ht hd, k, hk, base, hbase, he⟩
            exact ⟨t, List.mem_cons_self, d, hd, .head hedge hpath⟩
          · exact ⟨t', List.mem_cons_of_mem t ht', e, he, hpath⟩

/-- The search looks only into classes it has not seen. -/
theorem searchBases?_putClass {m : Model} {c : ClassId} {k₀ k : Class} (hk₀ : m.class? c = some k₀)
    (ho : k.outline = k₀.outline) (q : BaseQuery) (fuel : Nat) :
    ∀ {seen todo : List ClassId}, c ∈ seen →
      (m.putClass c k).searchBases? q fuel seen todo = m.searchBases? q fuel seen todo := by
  have hdef : ∀ t, (m.putClass c k).definition? t = m.definition? t :=
    definition?_congr (outline_putClass hk₀ ho)
  induction fuel with
  | zero => exact fun _ => by simp [searchBases?]
  | succ fuel ih =>
    intro seen todo hc
    cases todo with
    | nil => simp [searchBases?]
    | cons t todo =>
      simp only [searchBases?, hdef]
      congr 1
      funext d
      by_cases hmem : d ∈ seen
      · rw [if_pos hmem, if_pos hmem]
        exact ih hc
      · have hne : c ≠ d := fun h => hmem (h ▸ hc)
        rw [if_neg hmem, if_neg hmem, class?_putClass_ne m k hne]
        congr 1
        funext k'
        rw [ih (List.mem_cons_of_mem d hc)]

end ApiProperties.Model

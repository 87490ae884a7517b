import Mathlib.Data.List.TakeWhile
import ApiProperties.Proofs.Joining

/-!
What joining paths and taking one from behind another does to their components. Texts that spell the
same components differ in repeated slashes and in dots that are no components, and neither operation
looks at these.
-/

set_option autoImplicit false

namespace ApiProperties

theorem notMem_of_mem_pieces {separator : Char} {s piece : List Char}
    (h : piece ∈ pieces separator s) : separator ∉ piece := by
  induction s generalizing piece with
  | nil =>
    rw [pieces, List.mem_singleton] at h
    simp [h]
  | cons c s ih =>
    rw [pieces] at h
    split at h
    · rcases List.mem_cons.1 h with rfl | h
      · simp
      · exact ih h
    · rename_i hc
      split at h
      · rename_i first others hs
        rcases List.mem_cons.1 h with rfl | h
        · have hfirst := ih (hs ▸ List.mem_cons_self)
          simp [hfirst, Ne.symm hc]
        · exact ih (hs ▸ List.mem_cons_of_mem first h)
      · rw [List.mem_singleton.1 h]
        simpa using Ne.symm hc

namespace Path
variable {base path root piece : List Char} {others ps : List (List Char)}

/-! ### Components of a path -/

theorem filterMap_stepOf (ps : List (List Char)) :
    (ps.map stepOf).filterMap (·.component) = ps.filterMap component? := by
  simp [List.filterMap_map, Function.comp_def, stepOf]

theorem filterMap_cons_component (s : Step) (ss : List Step) :
    (s :: ss).filterMap (·.component) = s.component.toList ++ ss.filterMap (·.component) := by
  cases hs : s.component <;> simp [hs]

theorem components_of_pieces (h : pieces '/' path = piece :: others) :
    components path =
      (firstStep others.isEmpty piece).component.toList ++ others.filterMap component? := by
  rw [components, steps_of_pieces h, filterMap_cons_component, filterMap_stepOf]

theorem component?_ne {piece : List Char} :
    component? piece ≠ some .root ∧ component? piece ≠ some .here := by
  unfold component?
  split
  · simp
  · split <;> simp

/-- The root and a dot are components only at the start. -/
theorem notMem_filterMap_component? (ps : List (List Char)) :
    .root ∉ ps.filterMap component? ∧ .here ∉ ps.filterMap component? := by
  constructor
  · intro h
    obtain ⟨piece, -, hpiece⟩ := List.mem_filterMap.1 h
    exact component?_ne.1 hpiece
  · intro h
    obtain ⟨piece, -, hpiece⟩ := List.mem_filterMap.1 h
    exact component?_ne.2 hpiece

theorem pieces_of_isAbsolute (h : isAbsolute path = true) :
    ∃ others, others ≠ [] ∧ pieces '/' path = [] :: others := by
  cases path with
  | nil => cases h
  | cons c path =>
    obtain rfl : c = '/' := by simpa [isAbsolute] using h
    exact ⟨pieces '/' path, pieces_ne_nil '/' path, by rw [pieces, if_pos rfl]⟩

theorem pieces_of_relative (h : isAbsolute path = false) (hne : path ≠ []) :
    ∃ piece others, piece ≠ [] ∧ pieces '/' path = piece :: others := by
  cases path with
  | nil => exact absurd rfl hne
  | cons c path =>
    have hc : c ≠ '/' := by simpa [isAbsolute] using h
    rw [pieces, if_neg hc]
    cases hs : pieces '/' path with
    | nil => exact absurd hs (pieces_ne_nil '/' path)
    | cons piece others => exact ⟨c :: piece, others, by simp, rfl⟩

@[simp] theorem components_nil : components [] = [] := rfl

theorem components_of_isAbsolute (h : isAbsolute path = true) :
    ∃ cs, components path = .root :: cs ∧ .root ∉ cs ∧ .here ∉ cs := by
  obtain ⟨others, hne, hpieces⟩ := pieces_of_isAbsolute h
  have hmore : others.isEmpty = false := by simpa using hne
  refine ⟨others.filterMap component?, ?_, notMem_filterMap_component? others⟩
  rw [components_of_pieces hpieces, hmore]
  rfl

/-- A path that is not absolute may start with a dot. Otherwise each of its components comes from its
own piece. -/
theorem components_of_relative (h : isAbsolute path = false) :
    components path = (pieces '/' path).filterMap component? ∨
      components path = .here :: (pieces '/' path).filterMap component? := by
  by_cases hne : path = []
  · subst hne
    exact .inl rfl
  · obtain ⟨piece, others, hpiece, hpieces⟩ := pieces_of_relative h hne
    rw [components_of_pieces hpieces, hpieces, firstStep, if_neg hpiece]
    split
    · rename_i hhere
      exact .inr (by simp [hhere, component?])
    · refine .inl ?_
      cases hc : component? piece <;> simp [stepOf, hc]

/-! ### Joining -/

/-- The components of a joined path from those of its parts: what starts at the root replaces the base,
and a dot at the start vanishes behind one. -/
def joined (base path : List Component) : List Component :=
  match path with
  | .root :: _ => path
  | .here :: rest => if base = [] then path else base ++ rest
  | _ => base ++ path

theorem joined_of_notMem {base path : List Component} (hroot : .root ∉ path) (hhere : .here ∉ path) :
    joined base path = base ++ path := by
  unfold joined
  split
  · simp at hroot
  · simp at hhere
  · rfl

@[simp] theorem joined_nil (path : List Component) : joined [] path = path := by
  unfold joined
  split <;> simp

theorem components_join_of_relative (hbase : base ≠ []) (hrel : isAbsolute path = false) :
    components base ≠ [] ∧
      components (join base path) = components base ++ (pieces '/' path).filterMap component? := by
  obtain ⟨first, others, rest, hfirst, hsteps, hrest, hjoin⟩ :=
    exists_steps_join_of_relative hbase hrel
  have hvoid : rest.filterMap (·.component) = [] := by
    rw [List.filterMap_eq_nil_iff]
    intro s hs
    simpa [Step.isVoid] using hrest s hs
  obtain ⟨c, hc⟩ : ∃ c, first.component = some c := by
    simpa [Step.isVoid, Option.isSome_iff_exists] using hfirst
  have hcomponents : components base = (first :: others).filterMap (·.component) := by
    rw [components, hsteps, List.filterMap_append, hvoid, List.append_nil]
  refine ⟨by simp [hcomponents, hc], ?_⟩
  rw [components, hjoin, List.filterMap_append, ← hcomponents, filterMap_stepOf]

theorem components_join (base path : List Char) :
    components (join base path) = joined (components base) (components path) := by
  by_cases hrel : isAbsolute path = true
  · obtain ⟨cs, hcs, -⟩ := components_of_isAbsolute hrel
    simp [join, hrel, hcs, joined]
  · rw [Bool.not_eq_true] at hrel
    by_cases hbase : base = []
    · simp [hbase, join, hrel]
    · obtain ⟨hne, hjoin⟩ := components_join_of_relative hbase hrel
      obtain ⟨hroot, hhere⟩ := notMem_filterMap_component? (pieces '/' path)
      rw [hjoin]
      rcases components_of_relative hrel with hcs | hcs
      · rw [hcs, joined_of_notMem hroot hhere]
      · simp [hcs, joined, hne]

/-! ### What is behind a root -/

theorem filterMap_dropWhile_isVoid (ss : List Step) :
    (ss.dropWhile Step.isVoid).filterMap (·.component) = ss.filterMap (·.component) := by
  induction ss with
  | nil => rfl
  | cons s ss ih =>
    rw [List.dropWhile_cons]
    split
    · rename_i hs
      have hnone : s.component = none := by simpa [Step.isVoid] using hs
      rw [ih, List.filterMap_cons_none hnone]
    · rfl

theorem filterMap_trimEnd (ss : List Step) :
    (trimEnd ss).filterMap (·.component) = ss.filterMap (·.component) := by
  rw [trimEnd, List.filterMap_reverse, filterMap_dropWhile_isVoid, List.filterMap_reverse,
    List.reverse_reverse]

theorem trimEnd_begins (ss : List Step) : trimEnd ss <+: ss := by
  rw [← List.reverse_reverse ss, trimEnd, List.reverse_prefix, List.reverse_reverse]
  exact List.dropWhile_suffix _

/-- Steps that are left behind some components. -/
theorem dropComponents_eq_some {cs : List Component} {ss rest : List Step}
    (h : dropComponents cs ss = some rest) :
    ∃ above, ss = above ++ rest ∧ above.filterMap (·.component) = cs := by
  induction cs generalizing ss with
  | nil => exact ⟨[], by simpa [dropComponents] using h, rfl⟩
  | cons c cs ih =>
    rw [dropComponents] at h
    split at h
    · rename_i s after hs
      split at h
      · rename_i hc
        obtain ⟨above, rfl, habove⟩ := ih h
        refine ⟨ss.takeWhile Step.isVoid ++ s :: above, ?_, ?_⟩
        · rw [List.append_assoc, List.cons_append, ← hs, List.takeWhile_append_dropWhile]
        · have hvoid : (ss.takeWhile Step.isVoid).filterMap (·.component) = [] := by
            rw [List.filterMap_eq_nil_iff]
            intro s hs
            simpa [Step.isVoid] using List.mem_takeWhile_imp hs
          rw [List.filterMap_append, hvoid, List.filterMap_cons_some hc, habove, List.nil_append]
      · cases h
    · cases h

theorem dropComponents_isSome {cs rest : List Component} {ss : List Step}
    (h : ss.filterMap (·.component) = cs ++ rest) : (dropComponents cs ss).isSome = true := by
  induction cs generalizing ss with
  | nil => rfl
  | cons c cs ih =>
    rw [← filterMap_dropWhile_isVoid] at h
    rw [dropComponents]
    split
    · rename_i s after hs
      have hsolid : ¬ s.isVoid = true := by
        have hhead := List.head?_dropWhile_not Step.isVoid ss
        rw [hs] at hhead
        simpa using hhead
      obtain ⟨d, hd⟩ : ∃ d, s.component = some d := by
        simpa [Step.isVoid, Option.ne_none_iff_exists'] using hsolid
      rw [hs, List.filterMap_cons_some hd, List.cons_append] at h
      obtain ⟨rfl, hrest⟩ := List.cons.inj h
      rw [if_pos hd]
      exact ih hrest
    · rename_i hnil
      rw [hnil] at h
      cases h

theorem infix_map_stepOf {ss : List Step} (h : ss <:+: ps.map stepOf) :
    ∃ qs, qs <:+: ps ∧ ss = qs.map stepOf := by
  obtain ⟨before, after, hss⟩ := h
  obtain ⟨front, _, rfl, hfront, -⟩ := List.map_eq_append_iff.1 hss.symm
  obtain ⟨above, qs, rfl, -, hqs⟩ := List.map_eq_append_iff.1 hfront
  exact ⟨qs, ⟨above, _, rfl⟩, hqs.symm⟩

theorem spell_eq_joinPieces {s : Step} {ss : List Step} (h : ss ≠ [] ∨ s.component ≠ some .root) :
    spell (s :: ss) = joinPieces '/' ((s :: ss).map (·.spelling)) := by
  unfold spell
  split
  · rename_i hroot
    cases hroot
    simp at h
  · rfl

@[simp] theorem map_spelling_stepOf (ps : List (List Char)) :
    (ps.map stepOf).map (·.spelling) = ps := by
  rw [List.map_map]
  exact List.map_id ps

theorem spelling_firstStep (alone : Bool) (piece : List Char) :
    (firstStep alone piece).spelling = piece := by
  unfold firstStep
  split
  · rename_i h
    exact h.symm
  · split
    · rename_i h
      exact h.symm
    · rfl

/-- Pieces that are spelled behind each other name what they named, if the first one is a component. -/
theorem components_spell (hslash : ∀ piece ∈ ps, '/' ∉ piece)
    (hfirst : ∀ piece ∈ ps.head?, component? piece ≠ none) :
    components (spell (ps.map stepOf)) = ps.filterMap component? := by
  cases ps with
  | nil => rfl
  | cons piece others =>
    have hsolid : component? piece ≠ none := hfirst piece rfl
    have hvoid : ¬ (piece = [] ∨ piece = ['.']) := fun h => hsolid (by rw [component?, if_pos h])
    obtain ⟨hne, hhere⟩ := not_or.1 hvoid
    have hspell : spell ((piece :: others).map stepOf) = joinPieces '/' (piece :: others) := by
      rw [List.map_cons, spell_eq_joinPieces (.inr component?_ne.1), ← List.map_cons,
        map_spelling_stepOf]
    have hpieces := pieces_joinPieces (List.cons_ne_nil piece others) hslash
    rw [hspell, components_of_pieces hpieces, firstStep, if_neg hne, if_neg hhere]
    cases hc : component? piece <;> simp [stepOf, hc]

theorem component_firstStep_ne_root (h : piece ≠ []) (alone : Bool) :
    (firstStep alone piece).component ≠ some .root := by
  rw [firstStep, if_neg h]
  split
  · simp
  · exact component?_ne.1

/-- The first steps of a path, when they are spelled, name what they name there. -/
theorem components_spell_begin {ss : List Step} (h : ss <+: steps path) :
    components (spell ss) = ss.filterMap (·.component) := by
  cases hpieces : pieces '/' path with
  | nil => exact absurd hpieces (pieces_ne_nil '/' path)
  | cons piece others =>
    rw [steps_of_pieces hpieces] at h
    cases ss with
    | nil => rfl
    | cons s ss =>
      obtain ⟨rfl, hss⟩ := List.cons_prefix_cons.1 h
      obtain ⟨qs, hqs, rfl⟩ := infix_map_stepOf hss.isInfix
      by_cases halone : qs = [] ∧ piece = []
      · obtain ⟨rfl, rfl⟩ := halone
        cases others <;> rfl
      · have hslash : ∀ q ∈ piece :: qs, '/' ∉ q := fun q hq => notMem_of_mem_pieces
          (hpieces ▸ List.mem_cons.2 ((List.mem_cons.1 hq).imp_right hqs.mem))
        have hsolid : qs.map stepOf ≠ [] ∨
            (firstStep others.isEmpty piece).component ≠ some .root := by
          by_cases hpiece : piece = []
          · exact .inl fun hnil => halone ⟨List.map_eq_nil_iff.1 hnil, hpiece⟩
          · exact .inr (component_firstStep_ne_root hpiece _)
        have hmore : firstStep qs.isEmpty piece = firstStep others.isEmpty piece := by
          by_cases hpiece : piece = []
          · have hqs' : qs ≠ [] := fun hnil => halone ⟨hnil, hpiece⟩
            have hothers : others ≠ [] := by
              rintro rfl
              exact hqs' (List.infix_nil.1 hqs)
            rw [List.isEmpty_eq_false_iff.2 hqs', List.isEmpty_eq_false_iff.2 hothers]
          · exact (firstStep_of_ne_nil hpiece _).trans (firstStep_of_ne_nil hpiece _).symm
        rw [spell_eq_joinPieces hsolid, List.map_cons, map_spelling_stepOf, spelling_firstStep,
          components_of_pieces (pieces_joinPieces (List.cons_ne_nil piece qs) hslash), hmore,
          filterMap_cons_component, filterMap_stepOf]

/-- A path without what vanishes at its end has the same components. -/
theorem components_spell_steps (path : List Char) :
    components (spell (trimEnd (steps path))) = components path :=
  (components_spell_begin (trimEnd_begins _)).trans (filterMap_trimEnd _)

theorem components_spell_left {cs : List Component} {rest : List Step} (hcs : cs ≠ [])
    (h : dropComponents cs (steps path) = some rest) :
    components (spell (trimEnd (rest.dropWhile Step.isVoid))) = rest.filterMap (·.component) := by
  obtain ⟨above, hsteps, habove⟩ := dropComponents_eq_some h
  have hkept : (trimEnd (rest.dropWhile Step.isVoid)).filterMap (·.component) =
      rest.filterMap (·.component) := by
    rw [filterMap_trimEnd, filterMap_dropWhile_isVoid]
  have hbegins := trimEnd_begins (rest.dropWhile Step.isVoid)
  cases hpieces : pieces '/' path with
  | nil => exact absurd hpieces (pieces_ne_nil '/' path)
  | cons piece others =>
    -- the first step is not left, for something has been taken off
    have hrest : rest <:+ others.map stepOf := by
      rw [steps_of_pieces hpieces] at hsteps
      cases above with
      | nil => exact absurd habove.symm hcs
      | cons s above => exact ⟨above, (List.cons.inj hsteps).2.symm⟩
    obtain ⟨qs, hqs, hleft⟩ := infix_map_stepOf
      ((hbegins.isInfix.trans (List.dropWhile_suffix _).isInfix).trans hrest.isInfix)
    rw [← hkept, hleft, filterMap_stepOf]
    refine components_spell (fun q hq => ?_) fun q hq hnone => ?_
    · exact notMem_of_mem_pieces (hpieces ▸ List.mem_cons_of_mem piece (hqs.mem hq))
    · have hhead := List.head?_dropWhile_not Step.isVoid rest
      obtain ⟨after, hafter⟩ := hbegins
      rw [← hafter, hleft] at hhead
      cases qs with
      | nil => cases hq
      | cons first qs =>
        obtain rfl : first = q := Option.some.inj hq
        simp [stepOf, Step.isVoid, hnone] at hhead

theorem relativeTo?_eq_some {rest : List Component} (h : components path = components root ++ rest) :
    ∃ left, relativeTo? path root = some left ∧ components left = rest := by
  unfold relativeTo?
  split
  · rename_i hroot
    refine ⟨_, rfl, ?_⟩
    rw [components_spell_steps, h, hroot, List.nil_append]
  · rename_i hroot
    obtain ⟨steps', hleft⟩ := Option.isSome_iff_exists.1 (dropComponents_isSome h)
    obtain ⟨above, hsteps, habove⟩ := dropComponents_eq_some hleft
    refine ⟨_, by rw [hleft]; rfl, ?_⟩
    rw [components_spell_left hroot hleft]
    rw [components, hsteps, List.filterMap_append, habove] at h
    exact List.append_cancel_left h

theorem relativeTo?_eq_none (h : ∀ rest, components path ≠ components root ++ rest) :
    relativeTo? path root = none := by
  unfold relativeTo?
  split
  · rename_i hroot
    exact absurd (by rw [hroot, List.nil_append]) (h (components path))
  · cases hleft : dropComponents (components root) (steps path) with
    | none => rfl
    | some rest =>
      obtain ⟨above, hsteps, habove⟩ := dropComponents_eq_some hleft
      refine absurd ?_ (h (rest.filterMap (·.component)))
      rw [components, hsteps, List.filterMap_append, habove]

/-! ### What is above a path -/

theorem components_of_parent? {above : List Char} (h : parent? path = some above) :
    components above <+: components path := by
  unfold parent? at h
  split at h
  · cases h
  · rename_i s before _ hsteps
    cases h
    have hbegins : before.reverse <+: steps path := by
      have hsuffix : before <:+ (steps path).reverse :=
        (List.suffix_cons s before).trans (hsteps ▸ List.dropWhile_suffix _)
      simpa using List.reverse_prefix.2 hsuffix
    rw [components_spell_begin ((trimEnd_begins _).trans hbegins), filterMap_trimEnd]
    exact hbegins.filterMap _
  · cases h

theorem components_of_mem_ancestors {above : List Char} (h : above ∈ ancestors path) :
    components above <+: components path := by
  unfold ancestors at h
  generalize (components path).length = fuel at h
  induction fuel generalizing path with
  | zero => cases h
  | succ fuel ih =>
    rw [ancestorsUpTo] at h
    cases hparent : parent? path with
    | none =>
      rw [hparent] at h
      cases h
    | some next =>
      rw [hparent] at h
      have hnext := components_of_parent? hparent
      rcases List.mem_cons.1 h with rfl | h
      · exact hnext
      · exact (ih h).trans hnext

end Path
end ApiProperties

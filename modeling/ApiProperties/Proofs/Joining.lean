import ApiProperties.Proofs.Paths
import ApiProperties.Proofs.Writing

/-!
Paths of what lies below a directory: its path joined with the names on the way. Such a path leads to
the names below the place of the directory, and the names are what is left of it behind the path of
the directory.
-/

set_option autoImplicit false

namespace ApiProperties

namespace Path

/-- A name that leads from a directory to one of its entries. -/
def Ordinary (name : List Char) : Prop := component? name = some (.normal name) ∧ '/' ∉ name

instance (name : List Char) : Decidable (Ordinary name) := inferInstanceAs (Decidable (_ ∧ _))

variable {base name : List Char} {names : List (List Char)}

theorem Ordinary.ne_nil (h : Ordinary name) : name ≠ [] := (component?_of_normal h.1).2.1

theorem pieces_joined (hne : names ≠ []) (h : ∀ name ∈ names, Ordinary name) :
    pieces '/' (joinPieces '/' names) = names :=
  pieces_joinPieces hne fun name hname => (h name hname).2

theorem not_isAbsolute_joined (hne : names ≠ []) (h : ∀ name ∈ names, Ordinary name) :
    isAbsolute (joinPieces '/' names) = false := by
  cases names with
  | nil => exact absurd rfl hne
  | cons name names =>
    obtain ⟨hname, -⟩ := List.forall_mem_cons.1 h
    cases hn : name with
    | nil => exact absurd hn hname.ne_nil
    | cons c cs =>
      have hc : c ≠ '/' := by
        rintro rfl
        exact hname.2 (hn ▸ List.mem_cons_self)
      cases names with
      | nil => simp [isAbsolute, joinPieces, hc]
      | cons next names => simp [isAbsolute, joinPieces, hc]

/-- A base path contributes its pieces, but for an empty one behind a slash at its end. -/
theorem exists_pieces_join_of_relative (base : List Char) {path : List Char}
    (hrel : isAbsolute path = false) :
    ∃ above rest, pieces '/' base = above ++ rest ∧ (rest = [] ∨ rest = [[]]) ∧
      (base ≠ [] → above ≠ []) ∧ pieces '/' (join base path) = above ++ pieces '/' path := by
  by_cases hnil : base = []
  · exact ⟨[], [[]], by simp [hnil, pieces], .inr rfl, fun hbase => absurd hnil hbase,
      by simp [join, hrel, hnil]⟩
  · by_cases hslash : base.getLast? = some '/'
    · obtain ⟨front, rfl⟩ := List.getLast?_eq_some_iff.1 hslash
      refine ⟨pieces '/' front, [[]], by rw [pieces_append]; rfl, .inr rfl,
        fun _ => pieces_ne_nil '/' front, ?_⟩
      rw [← pieces_append]
      simp [join, hrel]
    · refine ⟨pieces '/' base, [], by simp, .inl rfl, fun _ => pieces_ne_nil '/' base, ?_⟩
      simp [join, hrel, hnil, hslash, pieces_append]

theorem exists_pieces_join (base : List Char) (hne : names ≠ [])
    (h : ∀ name ∈ names, Ordinary name) :
    ∃ above rest, pieces '/' base = above ++ rest ∧ (rest = [] ∨ rest = [[]]) ∧
      (base ≠ [] → above ≠ []) ∧
      pieces '/' (join base (joinPieces '/' names)) = above ++ names := by
  have hjoin := exists_pieces_join_of_relative base (not_isAbsolute_joined hne h)
  rwa [pieces_joined hne h] at hjoin

theorem isAbsolute_join (base : List Char) (hne : names ≠ [])
    (h : ∀ name ∈ names, Ordinary name) :
    isAbsolute (join base (joinPieces '/' names)) = isAbsolute base := by
  have hrel := not_isAbsolute_joined hne h
  cases base with
  | nil => simpa [join, isAbsolute] using hrel
  | cons c base =>
    unfold join
    rw [hrel]
    split <;> rfl

theorem fileName?_join (base : List Char) (hne : names ≠ []) (h : ∀ name ∈ names, Ordinary name) :
    fileName? (join base (joinPieces '/' names)) = some (names.getLast hne) := by
  obtain ⟨above, rest, -, -, -, hpieces⟩ := exists_pieces_join base hne h
  have hlast : pieces '/' (join base (joinPieces '/' names)) =
      (above ++ names.dropLast) ++ [names.getLast hne] := by
    rw [hpieces, List.append_assoc, List.dropLast_concat_getLast]
  exact fileName?_of_pieces hlast (h _ (List.getLast_mem hne)).1

/-! ### What is left behind a base path -/

theorem dropComponents_append (above below : List Step) :
    (dropComponents (above.filterMap (·.component)) (above ++ below)).map
      (List.dropWhile Step.isVoid) = some (below.dropWhile Step.isVoid) := by
  induction above with
  | nil => simp [dropComponents]
  | cons s above ih =>
    cases hs : s.component with
    | none =>
      have hvoid : s.isVoid = true := by simp [Step.isVoid, hs]
      rw [List.filterMap_cons_none hs, List.cons_append]
      cases hcs : above.filterMap (·.component) with
      | nil =>
        rw [hcs] at ih
        simpa [dropComponents, hvoid] using ih
      | cons c cs =>
        rw [hcs] at ih
        rw [dropComponents, List.dropWhile_cons_of_pos hvoid, ← dropComponents]
        exact ih
    | some c =>
      have hvoid : ¬ s.isVoid = true := by simp [Step.isVoid, hs]
      rw [List.filterMap_cons_some hs, List.cons_append, dropComponents,
        List.dropWhile_cons_of_neg hvoid]
      simpa [hs] using ih

theorem firstStep_of_ne_nil {piece : List Char} (h : piece ≠ []) (alone : Bool) :
    firstStep alone piece = firstStep false piece := by
  simp [firstStep, h]

theorem isVoid_firstStep (piece : List Char) : (firstStep false piece).isVoid = false := by
  unfold firstStep
  split
  · rfl
  · rename_i hne
    split
    · rfl
    · rename_i hhere
      simp only [Step.isVoid, stepOf, component?, hne, hhere, or_self, if_false]
      split <;> rfl

/-- The steps of a base path and of what is joined to it start alike. -/
theorem exists_steps_join_of_relative (hbase : base ≠ []) {path : List Char}
    (hrel : isAbsolute path = false) :
    ∃ first others rest, first.isVoid = false ∧
      steps base = (first :: others) ++ rest ∧ (∀ s ∈ rest, s.isVoid = true) ∧
      steps (join base path) = (first :: others) ++ (pieces '/' path).map stepOf := by
  obtain ⟨above, rest, hpieces, hrest, habove, hjoin⟩ := exists_pieces_join_of_relative base hrel
  cases above with
  | nil => exact absurd rfl (habove hbase)
  | cons piece above =>
    rw [List.cons_append] at hpieces hjoin
    refine ⟨firstStep false piece, above.map stepOf, rest.map stepOf, isVoid_firstStep piece, ?_, ?_,
      ?_⟩
    · rw [steps_of_pieces hpieces, List.map_append]
      by_cases hpiece : piece = []
      · -- then something follows, for the path is not empty
        have hmore : (above ++ rest).isEmpty = false := by
          rw [Bool.eq_false_iff, Ne, List.isEmpty_iff]
          intro hnil
          rw [hpiece, hnil] at hpieces
          exact hbase ((joinPieces_pieces '/' base).symm.trans (by rw [hpieces]; rfl))
        rw [hmore]
        rfl
      · rw [firstStep_of_ne_nil hpiece]
        rfl
    · rcases hrest with rfl | rfl
      · simp
      · simp [stepOf, component?, Step.isVoid]
    · have hmore : (above ++ pieces '/' path).isEmpty = false := by simp [pieces_ne_nil]
      rw [steps_of_pieces hjoin, hmore, List.map_append]
      rfl

theorem exists_steps_join (hbase : base ≠ []) (hne : names ≠ [])
    (h : ∀ name ∈ names, Ordinary name) :
    ∃ first others rest, first.isVoid = false ∧
      steps base = (first :: others) ++ rest ∧ (∀ s ∈ rest, s.isVoid = true) ∧
      steps (join base (joinPieces '/' names)) = (first :: others) ++ names.map stepOf := by
  have hjoin := exists_steps_join_of_relative hbase (not_isAbsolute_joined hne h)
  rwa [pieces_joined hne h] at hjoin

theorem isVoid_stepOf (h : Ordinary name) : (stepOf name).isVoid = false := by
  simp [stepOf, h.1, Step.isVoid]

theorem spell_trimEnd_stepOf (hne : names ≠ []) (h : ∀ name ∈ names, Ordinary name) :
    spell (trimEnd ((names.map stepOf).dropWhile Step.isVoid)) = joinPieces '/' names := by
  have hsolid : ∀ s ∈ names.map stepOf, ¬ s.isVoid = true := by
    intro s hs
    obtain ⟨name, hname, rfl⟩ := List.mem_map.1 hs
    simp [isVoid_stepOf (h name hname)]
  have hkept : ∀ ss : List Step, (∀ s ∈ ss, ¬ s.isVoid = true) → ss.dropWhile Step.isVoid = ss := by
    intro ss hss
    cases ss with
    | nil => rfl
    | cons s ss => exact List.dropWhile_cons_of_neg (hss s List.mem_cons_self)
  rw [hkept _ hsolid, trimEnd, hkept _ fun s hs => hsolid s (List.mem_reverse.1 hs),
    List.reverse_reverse]
  unfold spell
  split
  · rename_i spelling hroot
    obtain ⟨name, rfl, hstep⟩ := List.map_eq_singleton_iff.1 hroot
    have hroot := congrArg Step.component hstep
    simp [stepOf, (h name List.mem_cons_self).1] at hroot
  · have hspelling : (fun s : Step => s.spelling) ∘ stepOf = id := rfl
    rw [List.map_map, hspelling, List.map_id]

theorem relativeTo?_join (hbase : base ≠ []) (hne : names ≠ [])
    (h : ∀ name ∈ names, Ordinary name) :
    relativeTo? (join base (joinPieces '/' names)) base = some (joinPieces '/' names) := by
  obtain ⟨first, others, rest, hfirst, hsteps, hrest, hjoin⟩ := exists_steps_join hbase hne h
  have hvoid : rest.filterMap (·.component) = [] := by
    rw [List.filterMap_eq_nil_iff]
    intro s hs
    simpa [Step.isVoid] using hrest s hs
  have hcomponents : components base = (first :: others).filterMap (·.component) := by
    rw [components, hsteps, List.filterMap_append, hvoid, List.append_nil]
  have hdrop := dropComponents_append (first :: others) (names.map stepOf)
  rw [relativeTo?, hcomponents, hjoin]
  split
  · rename_i hnone
    obtain ⟨c, hc⟩ : ∃ c, first.component = some c := by
      simpa [Step.isVoid, Option.isSome_iff_exists] using hfirst
    rw [List.filterMap_cons_some hc] at hnone
    cases hnone
  · obtain ⟨left, hleft, hdropped⟩ := Option.map_eq_some_iff.1 hdrop
    rw [hleft, Option.map_some, hdropped, spell_trimEnd_stepOf hne h]

theorem outputPath_join (output : List Char) (hbase : base ≠ []) (hne : names ≠ [])
    (h : ∀ name ∈ names, Ordinary name) :
    outputPath (join base (joinPieces '/' names)) base output =
      join output (joinPieces '/' names) := by
  have hname : fileName? (joinPieces '/' names) = some (names.getLast hne) :=
    fileName?_of_pieces ((pieces_joined hne h).trans (List.dropLast_concat_getLast hne).symm)
      (h _ (List.getLast_mem hne)).1
  simp [outputPath, relativeTo?_join hbase hne h, hname]

end Path

/-! ### Places -/

namespace FileTree
variable {t t' : FileTree} {path base : List Char} {l : Location} {names : List (List Char)}

/-- Where a path leads if all the directories on its way exist. -/
def place (t : FileTree) (path : List Char) : Location :=
  (pieces '/' path).foldl follow (t.start path)

theorem walkTo_eq_foldl {k : Location} {ps : List (List Char)} (h : t.walkTo k ps = .ok l) :
    l = ps.foldl follow k := by
  induction ps generalizing k with
  | nil => exact (Except.ok.inj h).symm
  | cons piece ps ih =>
    obtain ⟨k', hstep, hwalk⟩ := walkTo_cons.1 h
    obtain ⟨-, -, -, rfl⟩ := step_eq_ok.1 hstep
    exact ih hwalk

theorem eq_place_of_resolve? (h : t.resolve? path = some l) : l = t.place path :=
  walkTo_eq_foldl (resolve?_eq_some.1 h).2.2

theorem place_congr (h : t'.current = t.current) (path : List Char) : t'.place path = t.place path := by
  simp [place, start, h]

theorem foldl_follow_ordinary (l : Location) (h : ∀ name ∈ names, Path.Ordinary name) :
    names.foldl follow l = l ++ names := by
  induction names generalizing l with
  | nil => simp
  | cons name names ih =>
    obtain ⟨hname, hnames⟩ := List.forall_mem_cons.1 h
    rw [List.foldl_cons, follow_of_normal hname.1, ih _ hnames, List.append_assoc,
      List.singleton_append]

theorem place_join (t : FileTree) (base : List Char) (hne : names ≠ [])
    (h : ∀ name ∈ names, Path.Ordinary name) :
    t.place (Path.join base (joinPieces '/' names)) = t.place base ++ names := by
  obtain ⟨above, rest, hpieces, hrest, -, hjoin⟩ := Path.exists_pieces_join base hne h
  have hstart : t.start (Path.join base (joinPieces '/' names)) = t.start base := by
    rw [start, start, Path.isAbsolute_join base hne h]
  have hvoid : ∀ l, rest.foldl follow l = l := by
    rcases hrest with rfl | rfl
    · exact fun l => rfl
    · intro l
      simp [follow]
  rw [place, place, hpieces, hjoin, hstart, List.foldl_append, List.foldl_append, hvoid,
    foldl_follow_ordinary _ h]

end FileTree
end ApiProperties

import Mathlib.Data.List.Basic
import ApiProperties.Proofs.Components

/-!
Where outputs are placed. What a file's path has behind the root is joined to the output directory, or
else the name of the file alone. The outcome lies in the output directory unless the path goes up behind
the root: that `..` is joined like a name. Different files behind a root that is not empty have
different outputs.
-/

set_option autoImplicit false

namespace ApiProperties.Path

/-! ### Places below a directory -/

/-- The components are the given ones and, behind them, one name or more. -/
def Under (cs above : List Component) : Prop :=
  ∃ names, names ≠ [] ∧ cs = above ++ names.map .normal

def Component.isName : Component → Bool
  | .normal _ => true
  | _ => false

theorem exists_names_iff {cs : List Component} :
    (∃ names : List (List Char), cs = names.map .normal) ↔ ∀ c ∈ cs, c.isName = true := by
  constructor
  · rintro ⟨names, rfl⟩ c hc
    obtain ⟨name, -, rfl⟩ := List.mem_map.1 hc
    rfl
  · intro h
    induction cs with
    | nil => exact ⟨[], rfl⟩
    | cons c cs ih =>
      obtain ⟨hc, hcs⟩ := List.forall_mem_cons.1 h
      obtain ⟨names, rfl⟩ := ih hcs
      cases c with
      | normal name => exact ⟨name :: names, rfl⟩
      | _ => cases hc

theorem under_append {above rest : List Component} :
    Under (above ++ rest) above ↔ rest ≠ [] ∧ ∀ c ∈ rest, c.isName = true := by
  rw [← exists_names_iff, Under]
  constructor
  · rintro ⟨names, hne, h⟩
    obtain rfl := List.append_cancel_left h
    exact ⟨by simpa using hne, names, rfl⟩
  · rintro ⟨hne, names, rfl⟩
    exact ⟨names, by simpa using hne, rfl⟩

theorem under_iff {cs above : List Component} : Under cs above ↔
    above <+: cs ∧ cs.drop above.length ≠ [] ∧ ∀ c ∈ cs.drop above.length, c.isName = true := by
  constructor
  · rintro ⟨names, hne, rfl⟩
    refine ⟨List.prefix_append _ _, ?_⟩
    rw [List.drop_left]
    have hunder : Under (above ++ names.map .normal) above := ⟨names, hne, rfl⟩
    exact under_append.1 hunder
  · rintro ⟨⟨rest, rfl⟩, h⟩
    rw [List.drop_left] at h
    exact under_append.2 h

instance (cs above : List Component) : Decidable (Under cs above) :=
  decidable_of_iff _ under_iff.symm

/-- The path lies in the directory, as the two are spelled. -/
def Inside (path directory : List Char) : Prop := Under (components path) (components directory)

instance (path directory : List Char) : Decidable (Inside path directory) :=
  inferInstanceAs (Decidable (Under _ _))

/-- One component more, where `..` takes back the name before it. -/
def climb (above : List Component) : Component → List Component
  | .here => above
  | .up =>
    match above.getLast? with
    | some (.normal _) => above.dropLast
    | some .root => above
    | _ => above ++ [.up]
  | c => above ++ [c]

/-- What the components amount to if every `..` takes back the name before it. -/
def resolved (cs : List Component) : List Component := cs.foldl climb []

/-- The file lies in the directory once the `..` in both paths are resolved. -/
def LiesBelow (file directory : List Char) : Prop :=
  Under (resolved (components file)) (resolved (components directory))

instance (file directory : List Char) : Decidable (LiesBelow file directory) :=
  inferInstanceAs (Decidable (Under _ _))

/-- The file's path starts with the root and goes up behind it. -/
def ClimbsBehind (file root : List Char) : Prop :=
  ∃ rest, components file = components root ++ rest ∧ .up ∈ rest

theorem climbsBehind_iff {file root : List Char} : ClimbsBehind file root ↔
    components root <+: components file ∧
      .up ∈ (components file).drop (components root).length := by
  constructor
  · rintro ⟨rest, h, hup⟩
    rw [h]
    exact ⟨List.prefix_append _ _, by rwa [List.drop_left]⟩
  · rintro ⟨⟨rest, h⟩, hup⟩
    rw [← h, List.drop_left] at hup
    exact ⟨rest, h.symm, hup⟩

instance (file root : List Char) : Decidable (ClimbsBehind file root) :=
  decidable_of_iff _ climbsBehind_iff.symm

theorem resolved_append_names (above : List Component) (names : List (List Char)) :
    resolved (above ++ names.map .normal) = resolved above ++ names.map .normal := by
  rw [resolved, List.foldl_append, ← resolved]
  generalize resolved above = cs
  induction names generalizing cs with
  | nil => simp
  | cons name names ih =>
    rw [List.map_cons, List.foldl_cons, climb, ih, List.append_assoc, List.singleton_append]
    all_goals simp

variable {file root output name : List Char} {rest : List Component}

/-! ### What outputs are made of -/

theorem ordinary_of_mem_components {path : List Char} (h : .normal name ∈ components path) :
    Ordinary name := by
  have hpiece : ∀ piece ∈ pieces '/' path, component? piece = some (.normal name) →
      Ordinary name := by
    intro piece hmem hpiece
    obtain ⟨rfl, -⟩ := component?_of_normal hpiece
    exact ⟨hpiece, notMem_of_mem_pieces hmem⟩
  cases hpieces : pieces '/' path with
  | nil => exact absurd hpieces (pieces_ne_nil '/' path)
  | cons piece others =>
    rw [hpieces] at hpiece
    rw [components_of_pieces hpieces, List.mem_append, Option.mem_toList] at h
    rcases h with h | h
    · refine hpiece piece List.mem_cons_self ?_
      unfold firstStep at h
      split at h
      · split at h <;> simp at h
      · split at h
        · simp at h
        · exact h
    · obtain ⟨q, hq, hname⟩ := List.mem_filterMap.1 h
      exact hpiece q (List.mem_cons_of_mem piece hq) hname

theorem fileName?_eq_some {path : List Char} :
    fileName? path = some name ↔ (components path).getLast? = some (.normal name) := by
  unfold fileName?
  split
  · rename_i other hlast
    simp [hlast]
  · rename_i hlast
    simpa using hlast name

theorem Ordinary.components_eq (h : Ordinary name) : components name = [.normal name] := by
  rw [components_of_pieces (pieces_of_notMem h.2), List.isEmpty_nil, firstStep_of_normal h.1]
  simp [stepOf, h.1]

theorem components_join_name (hname : fileName? file = some name) (base : List Char) :
    components (join base name) = components base ++ [.normal name] := by
  have hmem := List.mem_of_getLast? (fileName?_eq_some.1 hname)
  rw [components_join, (ordinary_of_mem_components hmem).components_eq]
  rfl

section Outputs
variable (hname : fileName? file = some name)
include hname

/-- A file that is below the root keeps what it has behind it. -/
theorem components_outputPath_of_behind (output : List Char)
    (h : components file = components root ++ rest) (hne : rest ≠ []) :
    components (outputPath file root output) = joined (components output) rest := by
  obtain ⟨left, hleft, hcomponents⟩ := relativeTo?_eq_some h
  have hlast : fileName? left = some name := by
    rw [fileName?_eq_some] at hname ⊢
    rw [h, List.getLast?_append_of_ne_nil _ hne] at hname
    rw [hcomponents, hname]
  have hjoin : outputPath file root output = join output left := by simp [outputPath, hleft, hlast]
  rw [hjoin, components_join, hcomponents]

/-- Any other file keeps its name. -/
theorem components_outputPath_of_not_behind (output : List Char)
    (h : ∀ rest, components file = components root ++ rest → rest = []) :
    components (outputPath file root output) = components output ++ [.normal name] := by
  have hflat := components_join_name hname output
  cases hleft : relativeTo? file root with
  | none => rw [outputPath, hleft, hname, Option.getD_some, hflat]
  | some left =>
    have hbehind : ∃ rest, components file = components root ++ rest := by
      by_contra hnone
      rw [relativeTo?_eq_none fun rest hrest => hnone ⟨rest, hrest⟩] at hleft
      cases hleft
    obtain ⟨rest, hrest⟩ := hbehind
    obtain rfl := h rest hrest
    obtain ⟨left', hleft', hcomponents⟩ := relativeTo?_eq_some hrest
    obtain rfl : left' = left := Option.some.inj (hleft'.symm.trans hleft)
    have hnone : fileName? left' = none := by rw [fileName?, hcomponents]; rfl
    have hjoin : outputPath file root output = join output name := by
      simp [outputPath, hleft, hnone, hname]
    rw [hjoin, hflat]

end Outputs

theorem notMem_tail_components {path : List Char} {c : Component} {cs : List Component}
    (h : components path = c :: cs) : .root ∉ cs ∧ .here ∉ cs := by
  have htail := notMem_filterMap_component? (pieces '/' path)
  by_cases habs : isAbsolute path = true
  · obtain ⟨cs', hcs', hnot⟩ := components_of_isAbsolute habs
    obtain ⟨-, rfl⟩ := List.cons.inj (hcs'.symm.trans h)
    exact hnot
  · rcases components_of_relative (Bool.not_eq_true _ ▸ habs) with hcs | hcs
    · rw [← hcs, h] at htail
      exact ⟨fun hmem => htail.1 (List.mem_cons_of_mem c hmem),
        fun hmem => htail.2 (List.mem_cons_of_mem c hmem)⟩
    · obtain ⟨-, rfl⟩ := List.cons.inj (hcs.symm.trans h)
      exact htail

theorem components_eq_nil_iff {path : List Char} : components path = [] ↔ path = [] := by
  refine ⟨fun h => ?_, fun h => by rw [h]; rfl⟩
  by_contra hne
  have hrel : isAbsolute [] = false := rfl
  exact (components_join_of_relative hne hrel).1 h

/-- Behind a root that is not empty is nothing that only a start of a path can have. -/
theorem notMem_behind (hroot : root ≠ []) (h : components file = components root ++ rest) :
    .root ∉ rest ∧ .here ∉ rest := by
  obtain ⟨c, cs, hcs⟩ := List.exists_cons_of_ne_nil (mt components_eq_nil_iff.1 hroot)
  obtain ⟨hr, hh⟩ := notMem_tail_components (h.trans (by rw [hcs, List.cons_append]))
  exact ⟨fun hmem => hr (List.mem_append_right cs hmem), fun hmem => hh (List.mem_append_right cs hmem)⟩

/-- A dot at the start is kept only if neither the root nor the output directory is there to hide it. -/
def KeepsDot (file root output : List Char) : Prop :=
  root = [] ∧ output = [] ∧ .here ∈ components file

instance (file root output : List Char) : Decidable (KeepsDot file root output) :=
  inferInstanceAs (Decidable (_ ∧ _ ∧ _))

/-- An absolute file behind the empty root: it is joined as it is, in the place of the output
directory. -/
def ReplacesOutput (file root : List Char) : Prop := root = [] ∧ isAbsolute file = true

instance (file root : List Char) : Decidable (ReplacesOutput file root) :=
  inferInstanceAs (Decidable (_ ∧ _))

/-- What an output path keeps of a file that is behind the root. -/
structure Kept (file root output : List Char) (dots cs : List Component) : Prop where
  eq : components (outputPath file root output) = components output ++ (dots ++ cs)
  dots : dots = [] ∧ ¬ KeepsDot file root output ∨ dots = [.here] ∧ KeepsDot file root output
  ne_nil : cs ≠ []
  plain : ∀ c ∈ cs, c = .up ∨ c.isName = true
  climbs : ClimbsBehind file root ↔ .up ∈ cs
  below : .up ∉ cs → LiesBelow file root

theorem plain_of_notMem {cs : List Component} (hroot : .root ∉ cs) (hhere : .here ∉ cs) :
    ∀ c ∈ cs, c = .up ∨ c.isName = true := by
  intro c hc
  cases c with
  | root => exact absurd hc hroot
  | here => exact absurd hc hhere
  | up => exact .inl rfl
  | normal name => exact .inr rfl

theorem isName_of_plain {cs : List Component} (h : ∀ c ∈ cs, c = .up ∨ c.isName = true)
    (hup : .up ∉ cs) : ∀ c ∈ cs, c.isName = true := by
  intro c hc
  refine (h c hc).resolve_left ?_
  rintro rfl
  exact hup hc

theorem climbsBehind_iff_mem (h : components file = components root ++ rest) :
    ClimbsBehind file root ↔ .up ∈ rest := by
  constructor
  · rintro ⟨rest', h', hup⟩
    obtain rfl := List.append_cancel_left (h.symm.trans h')
    exact hup
  · exact fun hup => ⟨rest, h, hup⟩

theorem liesBelow_of_behind (h : components file = components root ++ rest) (hne : rest ≠ [])
    (hplain : ∀ c ∈ rest, c = .up ∨ c.isName = true) (hup : .up ∉ rest) : LiesBelow file root := by
  obtain ⟨names, rfl⟩ := exists_names_iff.2 (isName_of_plain hplain hup)
  refine ⟨names, by simpa using hne, ?_⟩
  rw [h, resolved_append_names]

section
variable (hname : fileName? file = some name) (h : components file = components root ++ rest)
include hname h

/-- Behind the root is nothing that only a start of a path can have. -/
theorem Kept.of_notMem (output : List Char) (hne : rest ≠ []) (hroot : .root ∉ rest)
    (hhere : .here ∉ rest) (hdot : ¬ KeepsDot file root output) : Kept file root output [] rest := by
  have hplain := plain_of_notMem hroot hhere
  refine ⟨?_, .inl ⟨rfl, hdot⟩, hne, hplain, climbsBehind_iff_mem h,
    liesBelow_of_behind h hne hplain⟩
  rw [components_outputPath_of_behind hname output h hne, joined_of_notMem hroot hhere]
  rfl

/-- The whole file is behind the empty root, and it starts with a dot. -/
theorem exists_kept_of_dot (output : List Char) {cs : List Component} (hroot : root = [])
    (hrest : rest = .here :: cs) (hcs : .root ∉ cs ∧ .here ∉ cs) :
    ∃ dots, Kept file root output dots cs := by
  subst hroot hrest
  have hne : cs ≠ [] := by
    rintro rfl
    rw [fileName?_eq_some, h] at hname
    cases hname
  have hout := components_outputPath_of_behind hname output h (List.cons_ne_nil _ cs)
  have hplain := plain_of_notMem hcs.1 hcs.2
  have hclimbs : ClimbsBehind file [] ↔ .up ∈ cs := by
    rw [climbsBehind_iff_mem h, List.mem_cons]
    simp
  have hbelow : .up ∉ cs → LiesBelow file [] := by
    intro hup
    obtain ⟨names, rfl⟩ := exists_names_iff.2 (isName_of_plain hplain hup)
    refine ⟨names, by simpa using hne, ?_⟩
    rw [h]
    exact resolved_append_names [] names
  by_cases houtput : output = []
  · subst houtput
    have hdot : KeepsDot file [] [] := ⟨rfl, rfl, by rw [h]; simp⟩
    exact ⟨[.here], by rw [hout]; simp, .inr ⟨rfl, hdot⟩, hne, hplain, hclimbs, hbelow⟩
  · refine ⟨[], ?_, .inl ⟨rfl, fun hdot => houtput hdot.2.1⟩, hne, hplain, hclimbs, hbelow⟩
    rw [hout, joined, if_neg (mt components_eq_nil_iff.1 houtput)]
    rfl

theorem exists_kept (output : List Char) (hrel : ¬ ReplacesOutput file root) (hne : rest ≠ []) :
    ∃ dots cs, Kept file root output dots cs := by
  by_cases hroot : root = []
  · have habs : isAbsolute file = false := by
      rw [← Bool.not_eq_true]
      exact fun habs => hrel ⟨hroot, habs⟩
    have htail := notMem_filterMap_component? (pieces '/' file)
    have hrest : components file = rest := by rw [h, hroot, components_nil, List.nil_append]
    rcases components_of_relative habs with hcs | hcs
    · rw [← hcs, hrest] at htail
      exact ⟨[], rest, .of_notMem hname h output hne htail.1 htail.2 fun hdot =>
        htail.2 (hrest ▸ hdot.2.2)⟩
    · obtain ⟨dots, hkept⟩ := exists_kept_of_dot hname h output hroot (hrest.symm.trans hcs) htail
      exact ⟨dots, _, hkept⟩
  · obtain ⟨hr, hh⟩ := notMem_behind hroot h
    exact ⟨[], rest, .of_notMem hname h output hne hr hh fun hdot => hroot hdot.1⟩

end

/-! ### Outputs and the output directory -/

theorem Kept.inside_iff {dots cs : List Component} (hkept : Kept file root output dots cs) :
    Inside (outputPath file root output) output ↔
      ¬ ClimbsBehind file root ∧ ¬ KeepsDot file root output := by
  rw [Inside, hkept.eq, under_append, hkept.climbs]
  rcases hkept.dots with ⟨rfl, hdot⟩ | ⟨rfl, hdot⟩
  · constructor
    · rintro ⟨-, hnames⟩
      exact ⟨fun hup => absurd (hnames .up hup) (by decide), hdot⟩
    · rintro ⟨hup, -⟩
      exact ⟨hkept.ne_nil, isName_of_plain hkept.plain hup⟩
  · refine ⟨fun ⟨_, hnames⟩ => ?_, fun h => absurd hdot h.2⟩
    exact absurd (hnames .here List.mem_cons_self) (by decide)

/-- What is not below the root is not its name alone either, if it is kept. -/
theorem Kept.flat_iff {dots cs : List Component} (hkept : Kept file root output dots cs)
    (hbelow : ¬ LiesBelow file root) :
    components (outputPath file root output) = components output ++ [.normal name] ↔
      ¬ ClimbsBehind file root := by
  have hup : .up ∈ cs := by
    by_contra hup
    exact hbelow (hkept.below hup)
  rw [hkept.eq, hkept.climbs]
  refine ⟨fun heq => ?_, fun h => absurd hup h⟩
  have hmem : .up ∈ dots ++ cs := List.mem_append_right dots hup
  rw [List.append_cancel_left heq] at hmem
  simp at hmem

/-- Unless an absolute file is behind the empty root, its output lies in the output directory just in
case its path does not go up behind the root, and under this condition a file that is not below the root
is placed there under its name. -/
theorem outputPath_inside_iff (file root output name : List Char)
    (hname : fileName? file = some name) :
    (¬ ReplacesOutput file root →
      (Inside (outputPath file root output) output ↔
        ¬ ClimbsBehind file root ∧ ¬ KeepsDot file root output) ∧
      (¬ LiesBelow file root →
        (components (outputPath file root output) = components output ++ [.normal name] ↔
          ¬ ClimbsBehind file root))) ∧
    (ReplacesOutput file root → components (outputPath file root output) = components file) := by
  have hsome : components file ≠ [] := by
    intro hnil
    rw [fileName?_eq_some, hnil] at hname
    cases hname
  refine ⟨fun hrel => ?_, fun ⟨hroot, habs⟩ => ?_⟩
  · by_cases hbehind : ∃ rest, components file = components root ++ rest ∧ rest ≠ []
    · obtain ⟨rest, h, hne⟩ := hbehind
      obtain ⟨dots, cs, hkept⟩ := exists_kept hname h output hrel hne
      exact ⟨hkept.inside_iff, hkept.flat_iff⟩
    · simp only [not_exists, not_and, not_not] at hbehind
      have hflat := components_outputPath_of_not_behind hname output hbehind
      have hclimbs : ¬ ClimbsBehind file root := by
        rintro ⟨rest, h, hup⟩
        rw [hbehind rest h] at hup
        cases hup
      have hdot : ¬ KeepsDot file root output := by
        rintro ⟨rfl, -, -⟩
        exact hsome (hbehind _ rfl)
      refine ⟨?_, fun _ => ⟨fun _ => hclimbs, fun _ => hflat⟩⟩
      refine ⟨fun _ => ⟨hclimbs, hdot⟩, fun _ => ⟨[name], by simp, hflat⟩⟩
  · subst hroot
    obtain ⟨cs, hcs, -⟩ := components_of_isAbsolute habs
    have hbehind : components file = components [] ++ components file := rfl
    rw [components_outputPath_of_behind hname output hbehind hsome, hcs]
    rfl

/-- A file below the root that is spelled with more than its names, and one outside of it that is spelled
with `..`. -/
theorem outputPath_inside_iff_deep :
    (fileName? "in/./deep//a.json".toList = some "a.json".toList ∧
      Inside (outputPath "in/./deep//a.json".toList "in/".toList "out".toList) "out".toList) ∧
    (fileName? "in/../b.json".toList = some "b.json".toList ∧
      ¬ LiesBelow "in/../b.json".toList "in/deep".toList ∧
      components (outputPath "in/../b.json".toList "in/deep".toList "out".toList) =
        [.normal "out".toList, .normal "b.json".toList]) := by
  have hdeep : fileName? "in/./deep//a.json".toList = some "a.json".toList := by decide
  have hup : fileName? "in/../b.json".toList = some "b.json".toList := by decide
  have houtside : ¬ LiesBelow "in/../b.json".toList "in/deep".toList := by decide
  obtain ⟨hinside, -⟩ := (outputPath_inside_iff _ "in/".toList "out".toList _ hdeep).1 (by decide)
  obtain ⟨-, hflat⟩ := (outputPath_inside_iff _ "in/deep".toList "out".toList _ hup).1 (by decide)
  exact ⟨⟨hdeep, hinside.2 (by decide)⟩, hup, houtside, (hflat houtside).2 (by decide)⟩

/-- What goes up behind the root leaves the output directory, and is not placed under its name. -/
theorem outputPath_leaves_output :
    (¬ ∀ file root output name : List Char, fileName? file = some name →
      Inside (outputPath file root output) output) ∧
    ¬ ∀ file root output name : List Char, fileName? file = some name → ¬ LiesBelow file root →
      components (outputPath file root output) = components output ++ [.normal name] := by
  have hname : fileName? "in/../x/a.json".toList = some "a.json".toList := by decide
  have houtside : ¬ LiesBelow "in/../x/a.json".toList "in".toList := by decide
  constructor
  · intro h
    exact absurd (h _ "in".toList "out".toList _ hname) (by decide)
  · intro h
    exact absurd (h _ "in".toList "out".toList _ hname houtside) (by decide)

/-! ### Outputs of different files -/

/-- The file is strictly below the root, as the two are spelled. -/
def Behind (file root : List Char) : Prop :=
  components root <+: components file ∧ components root ≠ components file

instance (file root : List Char) : Decidable (Behind file root) :=
  inferInstanceAs (Decidable (_ ∧ _))

theorem Behind.exists_rest (h : Behind file root) :
    ∃ rest, rest ≠ [] ∧ components file = components root ++ rest := by
  obtain ⟨⟨rest, hrest⟩, hne⟩ := h
  refine ⟨rest, ?_, hrest.symm⟩
  rintro rfl
  exact hne (by rw [← hrest, List.append_nil])

/-- The output of a file behind a root that is not empty shows all that the file has behind it. -/
theorem components_outputPath_of_ne_nil (hname : fileName? file = some name) (output : List Char)
    (hroot : root ≠ []) (h : components file = components root ++ rest) (hne : rest ≠ []) :
    components (outputPath file root output) = components output ++ rest := by
  obtain ⟨hr, hh⟩ := notMem_behind hroot h
  rw [components_outputPath_of_behind hname output h hne, joined_of_notMem hr hh]

/-- Two files behind a root that is not empty have outputs with the same components only if they have
the same components themselves. -/
theorem components_outputPath_inj (root output file other : List Char) (hroot : root ≠ [])
    (hfile : Behind file root) (hother : Behind other root)
    (hfileName : (fileName? file).isSome = true) (hotherName : (fileName? other).isSome = true) :
    components (outputPath file root output) = components (outputPath other root output) ↔
      components file = components other := by
  obtain ⟨name, hname⟩ := Option.isSome_iff_exists.1 hfileName
  obtain ⟨name', hname'⟩ := Option.isSome_iff_exists.1 hotherName
  obtain ⟨rest, hne, hrest⟩ := hfile.exists_rest
  obtain ⟨rest', hne', hrest'⟩ := hother.exists_rest
  rw [components_outputPath_of_ne_nil hname output hroot hrest hne,
    components_outputPath_of_ne_nil hname' output hroot hrest' hne', hrest, hrest',
    List.append_cancel_left_eq, List.append_cancel_left_eq]

/-- Two files of one name, of which the first goes up behind the root. -/
theorem components_outputPath_inj_deep :
    Behind "./in//./../deep/a.json".toList "./in/".toList ∧
    Behind "./in/deep//a.json/.".toList "./in/".toList ∧
    components (outputPath "./in//./../deep/a.json".toList "./in/".toList "out/".toList) ≠
      components (outputPath "./in/deep//a.json/.".toList "./in/".toList "out/".toList) := by
  have hup : Behind "./in//./../deep/a.json".toList "./in/".toList := by decide
  have hdeep : Behind "./in/deep//a.json/.".toList "./in/".toList := by decide
  have hinj := components_outputPath_inj "./in/".toList "out/".toList _ _ (by decide) hup hdeep
    (by decide) (by decide)
  exact ⟨hup, hdeep, mt hinj.1 (by decide)⟩

end ApiProperties.Path

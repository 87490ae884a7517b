import ApiProperties.Proofs.OutputPaths
import ApiProperties.Proofs.Trees

/-!
How far a write reaches. It makes directories only on the way of its path, where nothing was, so that
what is written inside a directory that is there changes nothing outside of it. And what is read depends
only on what is on the way of its path.
-/

set_option autoImplicit false

namespace ApiProperties.FileTree

open ApiProperties.Path (Component component? components Inside)

variable {S S' : Location → Prop} {t t' t'' : FileTree} {path output : List Char} {k l : Location}
  {ps : List (List Char)} {n : Node}

/-! ### The way of a path -/

/-- Where a component leads from a location. -/
def enter (l : Location) : Component → Location
  | .root => []
  | .here => l
  | .up => l.dropLast
  | .normal name => l ++ [name]

theorem follow_eq (l : Location) (piece : List Char) :
    follow l piece = (component? piece).elim l (enter l) := by
  unfold follow component?
  split
  · rfl
  · split <;> rfl

theorem foldl_enter (l : Location) (ps : List (List Char)) :
    (ps.filterMap component?).foldl enter l = ps.foldl follow l := by
  induction ps generalizing l with
  | nil => rfl
  | cons piece ps ih =>
    rw [List.foldl_cons, follow_eq]
    cases hc : component? piece with
    | none =>
      rw [List.filterMap_cons_none hc]
      exact ih l
    | some c =>
      rw [List.filterMap_cons_some hc, List.foldl_cons]
      exact ih _

/-- A place depends only on the components of the path. -/
theorem place_eq_foldl (t : FileTree) (path : List Char) :
    t.place path = (components path).foldl enter t.current := by
  by_cases habs : Path.isAbsolute path = true
  · obtain ⟨others, hne, hpieces⟩ := Path.pieces_of_isAbsolute habs
    have hmore : others.isEmpty = false := by simpa using hne
    rw [place, start, if_pos habs, Path.components_of_pieces hpieces, hpieces, hmore]
    exact (foldl_enter [] others).symm
  · have hrel := Bool.not_eq_true _ ▸ habs
    rw [place, start, if_neg habs, ← foldl_enter]
    rcases Path.components_of_relative hrel with hcs | hcs
    · rw [hcs]
    · rw [hcs]
      rfl

theorem foldl_enter_names (l : Location) (names : List (List Char)) :
    (names.map Component.normal).foldl enter l = l ++ names := by
  induction names generalizing l with
  | nil => simp
  | cons name names ih => rw [List.map_cons, List.foldl_cons, ih, enter, List.append_assoc]; rfl

/-- The locations that a path passes, from where it starts to where it leads. -/
def way (t : FileTree) (path : List Char) : List Location :=
  (pieces '/' path).scanl follow (t.start path)

theorem foldl_enter_mem_scanl {cs : List Component} (h : cs <+: ps.filterMap component?) :
    cs.foldl enter l ∈ ps.scanl follow l := by
  induction ps generalizing cs l with
  | nil =>
    obtain rfl := List.prefix_nil.1 h
    simp
  | cons piece ps ih =>
    rw [List.scanl_cons, follow_eq]
    cases hc : component? piece with
    | none =>
      rw [List.filterMap_cons_none hc] at h
      exact List.mem_cons_of_mem l (ih h)
    | some c =>
      rw [List.filterMap_cons_some hc] at h
      cases cs with
      | nil => exact List.mem_cons_self
      | cons d cs =>
        obtain ⟨rfl, hcs⟩ := List.cons_prefix_cons.1 h
        exact List.mem_cons_of_mem l (ih hcs)

theorem foldl_mem_scanl (l : Location) (ps : List (List Char)) :
    ps.foldl follow l ∈ ps.scanl follow l :=
  foldl_enter l ps ▸ foldl_enter_mem_scanl (List.prefix_refl _)

/-- A path passes the places of all that its components begin with. -/
theorem place_mem_way {above : List Char} (t : FileTree) (hne : above ≠ [])
    (h : components above <+: components path) : t.place above ∈ t.way path := by
  obtain ⟨c, cs, habove⟩ := List.exists_cons_of_ne_nil (mt Path.components_eq_nil_iff.1 hne)
  rw [habove] at h
  rw [place_eq_foldl, habove, way, start, List.foldl_cons]
  by_cases habs : Path.isAbsolute path = true
  · obtain ⟨others, hothers, hpieces⟩ := Path.pieces_of_isAbsolute habs
    have hmore : others.isEmpty = false := by simpa using hothers
    rw [Path.components_of_pieces hpieces, hmore] at h
    obtain ⟨rfl, hcs⟩ := List.cons_prefix_cons.1 h
    rw [if_pos habs, hpieces, List.scanl_cons]
    exact List.mem_cons_of_mem _ (foldl_enter_mem_scanl hcs)
  · have hrel := Bool.not_eq_true _ ▸ habs
    rw [if_neg habs]
    rcases Path.components_of_relative hrel with hpath | hpath
    · rw [← List.foldl_cons]
      exact foldl_enter_mem_scanl (hpath ▸ h)
    · rw [hpath] at h
      obtain ⟨rfl, hcs⟩ := List.cons_prefix_cons.1 h
      exact foldl_enter_mem_scanl hcs

theorem directory_of_walkTo (h : t.walkTo k ps = .ok l) :
    ∀ j ∈ ps.scanl follow k, t.node? j = some .directory ∨ j = l := by
  induction ps generalizing k with
  | nil =>
    obtain rfl : k = l := Except.ok.inj h
    simp
  | cons piece ps ih =>
    obtain ⟨k', hstep, hwalk⟩ := walkTo_cons.1 h
    obtain ⟨hdir, -, -, rfl⟩ := step_eq_ok.1 hstep
    rw [List.scanl_cons]
    exact List.forall_mem_cons.2 ⟨.inl hdir, ih hwalk⟩

/-- A path that leads somewhere passes only directories before. -/
theorem directory_of_mem_way (h : t.resolve? path = some l) (hk : k ∈ t.way path) :
    t.node? k = some .directory ∨ k = l :=
  directory_of_walkTo (resolve?_eq_some.1 h).2.2 k hk

theorem directory_of_isDirectory (h : t.isDirectory path = true) (hk : k ∈ t.way path) :
    t.node? k = some .directory := by
  obtain ⟨l, hl, hnode⟩ := isDirectory_eq_true.1 h
  rcases directory_of_mem_way hl hk with hdir | rfl
  · exact hdir
  · exact hnode

/-! ### What is read -/

theorem walkTo_congr (h : ∀ j ∈ ps.scanl follow k, t'.node? j = t.node? j) :
    t'.walkTo k ps = t.walkTo k ps := by
  induction ps generalizing k with
  | nil => rfl
  | cons piece ps ih =>
    rw [List.scanl_cons] at h
    obtain ⟨hk, hrest⟩ := List.forall_mem_cons.1 h
    have hnext : t'.node? (follow k piece) = t.node? (follow k piece) :=
      hrest _ (by cases ps <;> simp)
    have hstep : t'.step k piece = t.step k piece := by rw [step, step, hk, hnext]
    rw [walkTo, walkTo, List.foldlM_cons, List.foldlM_cons, hstep]
    cases hgo : t.step k piece with
    | error o => rfl
    | ok k' =>
      obtain ⟨-, -, -, rfl⟩ := step_eq_ok.1 hgo
      exact ih hrest

/-- What is found depends only on what is on the way. -/
theorem read?_congr (hcurrent : t'.current = t.current)
    (h : ∀ l ∈ t.way path, t'.node? l = t.node? l) : t'.read? path = t.read? path := by
  have hstart : t'.start path = t.start path := by rw [start, start, hcurrent]
  have hresolve : t'.resolve? path = t.resolve? path := by
    rw [resolve?, resolve?, hstart, walkTo_congr h]
  have hfind : t'.find? path = t.find? path := by
    rw [find?, find?, hresolve]
    cases hl : t.resolve? path with
    | none => rfl
    | some l =>
      obtain rfl := eq_place_of_resolve? hl
      rw [Option.bind_some, Option.bind_some]
      exact h _ (foldl_mem_scanl _ _)
  rw [read?, read?, hfind]

/-! ### What is made -/

/-- The trees differ only within `S`, and directories are directories in both. -/
structure Confined (S : Location → Prop) (t t' : FileTree) : Prop where
  current : t'.current = t.current
  outside : ∀ l, ¬ S l → t'.node? l = t.node? l
  directory : ∀ l, t.node? l = some .directory → t'.node? l = some .directory

namespace Confined

theorem refl (t : FileTree) : Confined S t t := ⟨rfl, fun _ _ => rfl, fun _ h => h⟩

theorem mono (h : Confined S t t') (hS : ∀ l, S l → S' l) : Confined S' t t' :=
  { h with outside := fun l hl => h.outside l fun hl' => hl (hS l hl') }

theorem trans (h : Confined S t t') (h' : Confined S t' t'') : Confined S t t'' where
  current := h'.current.trans h.current
  outside l hl := (h'.outside l hl).trans (h.outside l hl)
  directory l hl := h'.directory l (h.directory l hl)

theorem put (hdir : t.node? l ≠ some .directory) (hl : S l) (n : Node) : Confined S t (t.put l n) := by
  have hroot : l ≠ [] := by
    rintro rfl
    exact hdir rfl
  have hnode : ∀ k, k ≠ l → (t.put l n).node? k = t.node? k := fun k hk => by
    rw [node?_put _ _ _ _ hroot, if_neg hk]
  refine ⟨rfl, fun k hk => hnode k ?_, fun k hk => (hnode k ?_).trans hk⟩
  · rintro rfl
    exact hk hl
  · rintro rfl
    exact hdir hk

/-- What is read on a way of directories that are there and of locations outside of `S`. -/
theorem read? (h : Confined S t t') (hway : ∀ l ∈ t.way path, t.node? l = some .directory ∨ ¬ S l) :
    t'.read? path = t.read? path := by
  refine read?_congr h.current fun l hl => ?_
  rcases hway l hl with hdir | hout
  · rw [hdir, h.directory l hdir]
  · exact h.outside l hout

end Confined

theorem eq_foldl_of_entryAt (h : t.entryAt path ps = .ok l) : l = ps.foldl follow (t.start path) := by
  obtain ⟨above, name, k, rfl, -, hwalk, -, hnormal, -, rfl⟩ := entryAt_eq_ok h
  rw [List.foldl_append, ← walkTo_eq_foldl hwalk]
  exact (follow_of_normal hnormal k).symm

theorem exists_void_of_dropEmptyEnd (ps : List (List Char)) :
    ∃ rest, ps = dropEmptyEnd ps ++ rest ∧ ∀ piece ∈ rest, piece = [] := by
  refine ⟨(ps.reverse.takeWhile List.isEmpty).reverse, ?_, fun piece hpiece => ?_⟩
  · rw [dropEmptyEnd, ← List.reverse_append, List.takeWhile_append_dropWhile, List.reverse_reverse]
  · simpa using List.mem_takeWhile_imp (List.mem_reverse.1 hpiece)

theorem foldl_follow_void (l : Location) (h : ∀ piece ∈ ps, piece = []) : ps.foldl follow l = l := by
  induction ps with
  | nil => rfl
  | cons piece ps ih =>
    obtain ⟨rfl, hps⟩ := List.forall_mem_cons.1 h
    exact ih hps

theorem walkTo_void (hl : t.node? l = some .directory) (h : ∀ piece ∈ ps, piece = []) :
    t.walkTo l ps = .ok l := by
  induction ps with
  | nil => rfl
  | cons piece ps ih =>
    obtain ⟨rfl, hps⟩ := List.forall_mem_cons.1 h
    have hsome : (t.node? l).isSome = true := by rw [hl]; rfl
    exact walkTo_cons.2 ⟨l, step_eq_ok.2 ⟨hl, rfl, hsome, rfl⟩, ih hps⟩

/-- A directory is made at the place of its path, where nothing was, and it is there afterwards. -/
theorem made_of_makeDirectory (h : t.makeDirectory path = .ok t') :
    t.node? (t.place path) = none ∧ t' = t.put (t.place path) .directory ∧
      t'.isDirectory path = true := by
  obtain ⟨l, hentry, hnone, rfl⟩ := makeDirectory_eq_ok h
  obtain ⟨rest, hrest, hvoid⟩ := exists_void_of_dropEmptyEnd (pieces '/' path)
  obtain rfl : l = t.place path := by
    rw [place, hrest, List.foldl_append, foldl_follow_void _ hvoid]
    exact eq_foldl_of_entryAt hentry
  have hroot : t.place path ≠ [] := by
    intro hroot
    rw [hroot] at hnone
    cases hnone
  have hnode : (t.put (t.place path) .directory).node? (t.place path) = some .directory := by
    rw [node?_put _ _ _ _ hroot, if_pos rfl]
  have hwalk := walkTo_put hentry (by simp [hnone]) .directory
  refine ⟨hnone, rfl, isDirectory_eq_true.2 ⟨_, resolve?_eq_some.2 ⟨?_, ?_, ?_⟩, hnode⟩⟩
  · rintro rfl
    cases hentry
  · obtain ⟨-, -, -, -, hpath, -⟩ := entryAt_eq_ok hentry
    exact hpath
  · rw [hrest]
    exact walkTo_append.2 ⟨_, hwalk, walkTo_void hnode hvoid⟩

/-- Nothing is there yet, and it is the place of a path whose components begin the given path. -/
def Open (t : FileTree) (path : List Char) (l : Location) : Prop :=
  t.node? l = none ∧ ∃ above, above ≠ [] ∧ components above <+: components path ∧ l = t.place above

theorem Open.mem_way (h : t.Open path l) : l ∈ t.way path := by
  obtain ⟨-, above, hne, habove, rfl⟩ := h
  exact place_mem_way t hne habove

theorem Confined.makeDirectory {above : List Char} (hne : above ≠ [])
    (habove : components above <+: components path) (h : t.makeDirectory above = .ok t') :
    Confined (t.Open path) t t' := by
  obtain ⟨hnone, rfl, -⟩ := made_of_makeDirectory h
  exact .put (by simp [hnone]) ⟨hnone, above, hne, habove, rfl⟩ .directory

theorem Open.of_keeps (hkeeps : Keeps S t t') (h : t'.Open path l) : t.Open path l := by
  obtain ⟨hnone, above, hne, habove, hl⟩ := h
  refine ⟨?_, above, hne, habove, hl.trans (place_congr hkeeps.current above)⟩
  rw [← Option.not_isSome_iff_eq_none]
  intro hsome
  simpa [hnone] using hkeeps.isSome l hsome

theorem Confined.makeFirst (t : FileTree) {paths : List (List Char)}
    (h : ∀ above ∈ paths, components above <+: components path) :
    Confined (t.Open path) t (t.makeFirst paths).1 := by
  induction paths with
  | nil => exact .refl t
  | cons first above ih =>
    obtain ⟨hfirst, habove⟩ := List.forall_mem_cons.1 h
    unfold FileTree.makeFirst
    split
    · exact .refl t
    · rename_i hne
      split
      · exact .makeDirectory hne hfirst ‹_›
      · exact .refl t
      · have hmade := ih habove
        have hkeeps := Keeps.makeFirst (S := fun _ => False) t above
        split
        · rename_i hdone
          rw [hdone] at hmade
          exact hmade
        · rename_i t₁ hdone
          rw [hdone] at hmade hkeeps
          split
          · refine hmade.trans ?_
            exact (Confined.makeDirectory hne hfirst ‹_›).mono fun l hl => hl.of_keeps hkeeps
          · exact hmade

/-- Directories come to stand only where nothing was on the way. -/
theorem Confined.makeDirectories (t : FileTree) (path : List Char) :
    Confined (t.Open path) t (t.makeDirectories path).1 := by
  refine Confined.makeFirst t (List.forall_mem_cons.2 ⟨List.prefix_refl _, fun above h => ?_⟩)
  exact Path.components_of_mem_ancestors h

theorem isDirectory_of_makeFirst {above : List (List Char)} (hne : path ≠ [])
    (h : t.makeFirst (path :: above) = (t', true)) : t'.isDirectory path = true := by
  unfold makeFirst at h
  rw [if_neg hne] at h
  split at h
  · rename_i hmade
    cases h
    exact (made_of_makeDirectory hmade).2.2
  · obtain ⟨rfl, hdir⟩ := Prod.mk.inj h
    exact hdir
  · split at h
    · cases h
    · split at h
      · rename_i hmade
        cases h
        exact (made_of_makeDirectory hmade).2.2
      · obtain ⟨rfl, hdir⟩ := Prod.mk.inj h
        exact hdir

/-! ### What is written -/

theorem Confined.putFile (t : FileTree) (path : List Char) (n : Node) :
    Confined (· = t.place path) t (t.putFile path n).1 := by
  unfold FileTree.putFile
  split
  · rename_i l hentry
    split
    · exact .refl t
    · rename_i hdir
      exact .put hdir (eq_foldl_of_entryAt hentry) n
  · exact .refl t

/-- A write reaches the place of its path and what was open on the way. -/
theorem Confined.write (t : FileTree) (path : List Char) (n : Node) :
    Confined (fun l => l = t.place path ∨ t.Open path l) t (t.write path n).1 := by
  unfold FileTree.write
  split
  · exact (Confined.putFile t path n).mono fun _ => .inl
  · rename_i above hparent
    have habove := Path.components_of_parent? hparent
    have hmade : Confined (t.Open path) t (t.makeDirectories above).1 :=
      (Confined.makeDirectories t above).mono fun l ⟨hnone, a, hne, ha, hl⟩ =>
        ⟨hnone, a, hne, ha.trans habove, hl⟩
    split
    · rename_i t₁ hdone
      rw [hdone] at hmade
      refine (hmade.mono fun _ => .inr).trans ?_
      refine (Confined.putFile t₁ path n).mono fun l hl => .inl ?_
      exact hl.trans (place_congr hmade.current path)
    · rename_i t₁ hdone
      rw [hdone] at hmade
      exact hmade.mono fun _ => .inr

/-- The directory is there, unless it is where paths start anyway. -/
def Stands (t : FileTree) (output : List Char) : Prop := output ≠ [] → t.isDirectory output = true

theorem stands_of_makeDirectories (h : t.makeDirectories output = (t', true)) : t'.Stands output :=
  fun hne => isDirectory_of_makeFirst hne h

theorem Stands.of_keeps (hkeeps : Keeps S t t') (h : t.Stands output) : t'.Stands output := by
  intro hne
  obtain ⟨l, hl, hnode⟩ := isDirectory_eq_true.1 (h hne)
  exact isDirectory_eq_true.2 ⟨l, hkeeps.resolve? hl, hkeeps.directory l hnode⟩

theorem Keeps.write (t : FileTree) (path : List Char) (n : Node) :
    Keeps (fun _ => True) t (t.write path n).1 := by
  cases hwrite : t.write path n with
  | mk t' done =>
    cases done with
    | false => exact .write_of_false hwrite
    | true =>
      obtain ⟨l, hl⟩ := written_of_write hwrite
      exact hl.keeps.mono fun _ _ => trivial

theorem Stands.write (h : t.Stands output) (path : List Char) (n : Node) :
    (t.write path n).1.Stands output :=
  h.of_keeps (.write t path n)

theorem place_of_inside (t : FileTree) (h : Inside path output) : t.place output <+: t.place path := by
  obtain ⟨names, -, hpath⟩ := h
  rw [place_eq_foldl, place_eq_foldl, hpath, List.foldl_append, foldl_enter_names]
  exact List.prefix_append _ names

/-- What is open on the way of a path inside the directory is inside of it. -/
theorem Open.inside (h : t.Open path l) (houtput : t.Stands output) (hinside : Inside path output) :
    t.place output <+: l := by
  obtain ⟨hnone, above, hne, habove, rfl⟩ := h
  obtain ⟨names, -, hpath⟩ := hinside
  rw [hpath] at habove
  rcases List.prefix_or_prefix_of_prefix habove (List.prefix_append _ _) with hp | hp
  · -- what is on the way of the directory is there
    have houtput' : output ≠ [] := by
      rintro rfl
      exact hne (Path.components_eq_nil_iff.1 (List.prefix_nil.1 hp))
    have hdir := directory_of_isDirectory (houtput houtput') (place_mem_way t hne hp)
    cases hnone.symm.trans hdir
  · obtain ⟨rest, hrest⟩ := hp
    rw [← hrest] at habove
    obtain ⟨names', -, rfl⟩ := List.prefix_map_iff.1 ((List.prefix_append_right_inj _).1 habove)
    rw [place_eq_foldl, place_eq_foldl, ← hrest, List.foldl_append, foldl_enter_names]
    exact List.prefix_append _ names'

/-- What is written inside a directory that is there changes nothing outside of it. -/
theorem Confined.write_inside (houtput : t.Stands output) (hinside : Inside path output) (n : Node) :
    Confined (t.place output <+: ·) t (t.write path n).1 := by
  refine (Confined.write t path n).mono fun l hl => ?_
  rcases hl with rfl | hopen
  · exact place_of_inside t hinside
  · exact hopen.inside houtput hinside

end ApiProperties.FileTree

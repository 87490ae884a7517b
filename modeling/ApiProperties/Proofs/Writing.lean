import ApiProperties.FileTree

/-!
Writing into a tree of files. A write keeps all that was there but for one place, where no directory
was, and what has been written is found behind its path.
-/

set_option autoImplicit false

namespace ApiProperties.FileTree

variable {S : Location → Prop} {t t' t'' : FileTree} {l l' : Location} {path : List Char} {n : Node}

/-! ### Where paths lead -/

theorem step_eq_ok {piece : List Char} :
    t.step l piece = .ok l' ↔ t.node? l = some .directory ∧ isName piece = true ∧
      (t.node? (follow l piece)).isSome = true ∧ follow l piece = l' := by
  unfold step
  by_cases hdir : t.node? l = some .directory
  · by_cases hname : isName piece = true
    · by_cases hsome : (t.node? (follow l piece)).isSome = true
      · simp [hdir, hname, hsome]
      · simp [hdir, hname, hsome]
    · simp [hdir, hname]
  · simp [hdir]

@[simp] theorem walkTo_nil : t.walkTo l [] = .ok l := rfl

theorem walkTo_append {ps qs : List (List Char)} :
    t.walkTo l (ps ++ qs) = .ok l' ↔ ∃ k, t.walkTo l ps = .ok k ∧ t.walkTo k qs = .ok l' := by
  simp only [walkTo, List.foldlM_append]
  cases ps.foldlM t.step l <;> simp [bind, Except.bind]

theorem walkTo_cons {piece : List Char} {ps : List (List Char)} :
    t.walkTo l (piece :: ps) = .ok l' ↔
      ∃ k, t.step l piece = .ok k ∧ t.walkTo k ps = .ok l' := by
  simp only [walkTo, List.foldlM_cons]
  cases t.step l piece <;> simp [bind, Except.bind]

theorem walkTo_singleton {piece : List Char} : t.walkTo l [piece] = .ok l' ↔
    t.step l piece = .ok l' := by
  simp [walkTo_cons]

theorem resolve?_eq_some : t.resolve? path = some l ↔
    path ≠ [] ∧ isPath path = true ∧ t.walkTo (t.start path) (pieces '/' path) = .ok l := by
  unfold resolve?
  by_cases hnil : path = []
  · simp [hnil]
  · by_cases hpath : isPath path = true
    · cases t.walkTo (t.start path) (pieces '/' path) <;> simp [hnil, hpath]
    · simp [hnil, hpath]

theorem read?_eq_some {text : String} : t.read? path = some text ↔
    ∃ l, t.resolve? path = some l ∧ t.node? l = some (.file text) := by
  unfold read? find?
  cases t.resolve? path with
  | none => simp
  | some l =>
    cases h : t.node? l with
    | none => simp [h]
    | some n => cases n <;> simp [h]

theorem isDirectory_eq_true : t.isDirectory path = true ↔
    ∃ l, t.resolve? path = some l ∧ t.node? l = some .directory := by
  rw [isDirectory, beq_iff_eq]
  exact Option.bind_eq_some_iff

/-- The place of an entry is below the directory that the other pieces lead to. -/
theorem entryAt_eq_ok {ps : List (List Char)} (h : t.entryAt path ps = .ok l) :
    ∃ above name k, ps = above ++ [name] ∧ isPath path = true ∧
      t.walkTo (t.start path) above = .ok k ∧ t.node? k = some .directory ∧
      Path.component? name = some (.normal name) ∧ isName name = true ∧ l = k ++ [name] := by
  unfold entryAt at h
  split at h
  · cases h
  · rename_i name above hrev
    split at h
    · cases h
    · rename_i hpath
      cases hwalk : t.walkTo (t.start path) above.reverse with
      | error o => simp [hwalk, bind, Except.bind] at h
      | ok k =>
        simp only [hwalk, bind, Except.bind] at h
        split at h
        · rename_i hentry
          simp only [Bool.and_eq_true, decide_eq_true_eq, beq_iff_eq] at hentry
          refine ⟨above.reverse, name, k, ?_, by simpa using hpath, hwalk, hentry.1.1, hentry.1.2,
            hentry.2, by simpa using h.symm⟩
          rw [← List.reverse_reverse ps, hrev, List.reverse_cons]
        · cases h

theorem follow_of_normal {name : List Char} (h : Path.component? name = some (.normal name))
    (l : Location) : follow l name = l ++ [name] := by
  unfold Path.component? at h
  unfold follow
  split at h
  · cases h
  · rename_i hvoid
    split at h
    · cases h
    · rename_i hup
      rw [if_neg hvoid, if_neg hup]

/-! ### What writes keep -/

/-- All that was there is there still, directories as directories and everything outside of `S` as it
was. -/
structure Keeps (S : Location → Prop) (t t' : FileTree) : Prop where
  current : t'.current = t.current
  isSome : ∀ l, (t.node? l).isSome = true → (t'.node? l).isSome = true
  directory : ∀ l, t.node? l = some .directory → t'.node? l = some .directory
  outside : ∀ l n, ¬ S l → t.node? l = some n → t'.node? l = some n

namespace Keeps

theorem refl (t : FileTree) : Keeps S t t := ⟨rfl, fun _ h => h, fun _ h => h, fun _ _ _ h => h⟩

theorem trans (h : Keeps S t t') (h' : Keeps S t' t'') : Keeps S t t'' where
  current := h'.current.trans h.current
  isSome l hl := h'.isSome l (h.isSome l hl)
  directory l hl := h'.directory l (h.directory l hl)
  outside l n hS hl := h'.outside l n hS (h.outside l n hS hl)

theorem mono {S' : Location → Prop} (h : Keeps S t t') (hS : ∀ l, S l → S' l) : Keeps S' t t' :=
  { h with outside := fun l n hl => h.outside l n fun hl' => hl (hS l hl') }

/-- What is put where there was no directory hides at most what was there. -/
theorem put (hl : t.node? l ≠ some .directory) (hS : (t.node? l).isSome = true → S l) (n : Node) :
    Keeps S t (t.put l n) := by
  have hroot : l ≠ [] := by
    rintro rfl
    exact hl rfl
  refine ⟨rfl, fun k hk => ?_, fun k hk => ?_, fun k n' hk hn => ?_⟩
  · rw [node?_put t l k n hroot]
    split
    · rfl
    · exact hk
  · rw [node?_put t l k n hroot, if_neg (by rintro rfl; exact hl hk)]
    exact hk
  · rw [node?_put t l k n hroot, if_neg (by rintro rfl; exact hk (hS (by simp [hn])))]
    exact hn

variable (h : Keeps S t t')
include h

theorem step {piece : List Char} (hstep : t.step l piece = .ok l') :
    t'.step l piece = .ok l' := by
  rw [step_eq_ok] at hstep ⊢
  obtain ⟨hdir, hname, hsome, hfollow⟩ := hstep
  exact ⟨h.directory l hdir, hname, h.isSome _ hsome, hfollow⟩

theorem walkTo {ps : List (List Char)} (hwalk : t.walkTo l ps = .ok l') :
    t'.walkTo l ps = .ok l' := by
  induction ps generalizing l with
  | nil => exact hwalk
  | cons piece ps ih =>
    rw [walkTo_cons] at hwalk ⊢
    obtain ⟨k, hstep, hwalk⟩ := hwalk
    exact ⟨k, h.step hstep, ih hwalk⟩

theorem start (path : List Char) : t'.start path = t.start path := by
  simp [FileTree.start, h.current]

theorem resolve? (hpath : t.resolve? path = some l) : t'.resolve? path = some l := by
  rw [resolve?_eq_some] at hpath ⊢
  exact ⟨hpath.1, hpath.2.1, h.start path ▸ h.walkTo hpath.2.2⟩

/-- What is found outside of `S` is found as it was. -/
theorem find? (hpath : t.resolve? path = some l) (hn : t.node? l = some n) (hl : ¬ S l) :
    t'.find? path = t.find? path := by
  rw [FileTree.find?, FileTree.find?, h.resolve? hpath, hpath, Option.bind_some, Option.bind_some,
    hn, h.outside l n hl hn]

end Keeps

/-! ### Writes -/

theorem makeDirectory_eq_ok (h : t.makeDirectory path = .ok t') :
    ∃ l, t.entryAt path (dropEmptyEnd (pieces '/' path)) = .ok l ∧ t.node? l = none ∧
      t' = t.put l .directory := by
  unfold makeDirectory at h
  cases hentry : t.entryAt path (dropEmptyEnd (pieces '/' path)) with
  | error o => simp [hentry, bind, Except.bind] at h
  | ok l =>
    simp only [hentry, bind, Except.bind] at h
    split at h
    · cases h
    · rename_i hnone
      exact ⟨l, rfl, by simpa using hnone, (Except.ok.inj h).symm⟩

theorem Keeps.makeDirectory (h : t.makeDirectory path = .ok t') : Keeps S t t' := by
  obtain ⟨l, -, hnone, rfl⟩ := makeDirectory_eq_ok h
  exact .put (by simp [hnone]) (by simp [hnone]) .directory

theorem Keeps.makeFirst (t : FileTree) (paths : List (List Char)) :
    Keeps S t (t.makeFirst paths).1 := by
  induction paths generalizing t with
  | nil => exact .refl t
  | cons path above ih =>
    unfold FileTree.makeFirst
    split
    · exact .refl t
    · split
      · exact .makeDirectory ‹_›
      · exact .refl t
      · have hmade := ih t
        split
        · rename_i hfirst
          rw [hfirst] at hmade
          exact hmade
        · rename_i t₁ hfirst
          rw [hfirst] at hmade
          split
          · exact hmade.trans (.makeDirectory ‹_›)
          · exact hmade

theorem Keeps.makeDirectories (t : FileTree) (path : List Char) :
    Keeps S t (t.makeDirectories path).1 := Keeps.makeFirst t _

theorem putFile_eq_true (h : t.putFile path n = (t', true)) :
    ∃ l, t.entryAt path (pieces '/' path) = .ok l ∧ t.node? l ≠ some .directory ∧
      t' = t.put l n := by
  unfold putFile at h
  split at h
  · rename_i l hentry
    split at h
    · cases h
    · rename_i hdir
      exact ⟨l, hentry, hdir, (Prod.mk.inj h).1.symm⟩
  · cases h

/-- The pieces of an entry lead to what is put in its place. -/
theorem walkTo_put {ps : List (List Char)} (hentry : t.entryAt path ps = .ok l)
    (hdir : t.node? l ≠ some .directory) (n : Node) :
    (t.put l n).walkTo (t.start path) ps = .ok l := by
  obtain ⟨above, name, k, rfl, -, hwalk, hk, hnormal, hname, rfl⟩ := entryAt_eq_ok hentry
  have hkeeps : Keeps (· = k ++ [name]) t (t.put (k ++ [name]) n) :=
    .put (S := (· = k ++ [name])) hdir (fun _ => rfl) n
  have hfollow := follow_of_normal hnormal k
  refine walkTo_append.2 ⟨k, hkeeps.walkTo hwalk, ?_⟩
  rw [walkTo_singleton, step_eq_ok, hfollow]
  refine ⟨hkeeps.directory k hk, hname, ?_, rfl⟩
  rw [node?_put _ _ _ _ (by simp), if_pos rfl]
  rfl

theorem resolve?_put (hentry : t.entryAt path (pieces '/' path) = .ok l)
    (hdir : t.node? l ≠ some .directory) (n : Node) : (t.put l n).resolve? path = some l := by
  refine resolve?_eq_some.2 ⟨?_, ?_, walkTo_put hentry hdir n⟩
  · obtain ⟨above, name, k, hpieces, -, -, -, hnormal, -⟩ := entryAt_eq_ok hentry
    rintro rfl
    have hlast : [] ++ [[]] = above ++ [name] := hpieces
    obtain ⟨-, hname⟩ := List.append_inj' hlast rfl
    cases hname
    cases hnormal
  · obtain ⟨-, -, -, -, hpath, -⟩ := entryAt_eq_ok hentry
    exact hpath

/-- What a write has changed: one place, which its path leads to. -/
structure Written (t : FileTree) (path : List Char) (n : Node) (t' : FileTree) (l : Location) :
    Prop where
  keeps : Keeps (· = l) t t'
  resolve : t'.resolve? path = some l
  node : t'.node? l = some n

theorem written_of_putFile (h : t.putFile path n = (t', true)) : ∃ l, t.Written path n t' l := by
  obtain ⟨l, hentry, hdir, rfl⟩ := putFile_eq_true h
  refine ⟨l, .put (S := (· = l)) hdir (fun _ => rfl) n, resolve?_put hentry hdir n, ?_⟩
  have hroot : l ≠ [] := by
    rintro rfl
    exact hdir rfl
  rw [node?_put _ _ _ _ hroot, if_pos rfl]

theorem written_of_write (h : t.write path n = (t', true)) : ∃ l, t.Written path n t' l := by
  unfold write at h
  split at h
  · exact written_of_putFile h
  · rename_i above _
    have hmade := Keeps.makeDirectories (S := fun _ => False) t above
    split at h
    · rename_i t₁ hfirst
      rw [hfirst] at hmade
      obtain ⟨l, hl⟩ := written_of_putFile h
      exact ⟨l, (hmade.mono fun _ => False.elim).trans hl.keeps, hl.resolve, hl.node⟩
    · cases h

theorem Written.read? {text : String} (h : t.Written path (.file text) t' l) :
    t'.read? path = some text :=
  read?_eq_some.2 ⟨l, h.resolve, h.node⟩

end ApiProperties.FileTree

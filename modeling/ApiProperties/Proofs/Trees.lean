import Mathlib.Data.List.Induction
import ApiProperties.Batch
import ApiProperties.Proofs.Joining

/-!
Trees of files as a disk holds them, and what a walk finds in them: every file below a directory has
the path of the directory joined with the names on the way. Writing elsewhere does not change what is
read there.
-/

set_option autoImplicit false

namespace ApiProperties

open ApiProperties.Path (Ordinary join)

namespace FileTree

/-- Every entry is known by names and lies in a directory, and a text is no longer than a word can
say. -/
structure WellFormed (t : FileTree) : Prop where
  names : ∀ e ∈ t.entries, ∀ name ∈ e.1, Ordinary name
  above : ∀ e ∈ t.entries, t.node? e.1.dropLast = some .directory
  texts : ∀ e ∈ t.entries, ∀ text, e.2 = .file text → text.length < wordLimit

/-- Neither place lies in the other one. -/
def Apart (t : FileTree) (a b : List Char) : Prop :=
  ¬ t.place a <+: t.place b ∧ ¬ t.place b <+: t.place a

instance (t : FileTree) (a b : List Char) : Decidable (t.Apart a b) :=
  inferInstanceAs (Decidable (_ ∧ _))

variable {S : Location → Prop} {t t' : FileTree} {path input file : List Char} {k l : Location}
  {names : List (List Char)} {n : Node}

theorem mem_entries_of_node? (hl : l ≠ []) (h : t.node? l = some n) : (l, n) ∈ t.entries := by
  rw [node?, if_neg hl] at h
  obtain ⟨before, after, hentries, -⟩ := List.lookup_eq_some_iff.1 h
  exact hentries ▸ List.mem_append_right _ List.mem_cons_self

theorem isSome_node?_of_mem (h : (l, n) ∈ t.entries) : (t.node? l).isSome = true := by
  unfold node?
  split
  · rfl
  · rw [Option.isSome_iff_ne_none]
    intro hnone
    have hdiffer := List.lookup_eq_none_iff.1 hnone (l, n) h
    simp at hdiffer

namespace WellFormed
variable (ht : t.WellFormed)
include ht

theorem ordinary (h : (t.node? l).isSome = true) : ∀ name ∈ l, Ordinary name := by
  intro name hname
  obtain ⟨n, hn⟩ := Option.isSome_iff_exists.1 h
  exact ht.names (l, n) (mem_entries_of_node? (List.ne_nil_of_mem hname) hn) name hname

theorem directory {name : List Char} (h : (t.node? (l ++ [name])).isSome = true) :
    t.node? l = some .directory := by
  obtain ⟨n, hn⟩ := Option.isSome_iff_exists.1 h
  have habove := ht.above _ (mem_entries_of_node? (by simp) hn)
  rwa [List.dropLast_concat] at habove

theorem length_lt {text : String} (h : t.node? l = some (.file text)) : text.length < wordLimit := by
  have hroot : l ≠ [] := by
    rintro rfl
    cases h
  exact ht.texts _ (mem_entries_of_node? hroot h) text rfl

/-- From a directory one gets to every entry below it, unless a name on the way is too long. -/
theorem walkTo_below (hnode : (t.node? (k ++ names)).isSome = true)
    (hnames : ∀ name ∈ names, isName name = true) : t.walkTo k names = .ok (k ++ names) := by
  induction names using List.reverseRecOn with
  | nil => simp
  | append_singleton names name ih =>
    rw [← List.append_assoc] at hnode ⊢
    have hdir := ht.directory hnode
    have hfollow : follow (k ++ names) name = k ++ names ++ [name] :=
      follow_of_normal (ht.ordinary hnode name (by simp)).1 _
    refine walkTo_append.2 ⟨k ++ names, ih (by simp [hdir]) fun other hother => ?_, ?_⟩
    · exact hnames other (List.mem_append_left _ hother)
    · exact walkTo_singleton.2 (step_eq_ok.2 ⟨hdir, hnames name (by simp), hfollow ▸ hnode, hfollow⟩)

end WellFormed

theorem isName_of_walkTo {ps : List (List Char)} (h : t.walkTo k ps = .ok l) :
    ∀ piece ∈ ps, isName piece = true := by
  induction ps generalizing k with
  | nil => simp
  | cons piece ps ih =>
    obtain ⟨k', hstep, hwalk⟩ := walkTo_cons.1 h
    exact List.forall_mem_cons.2 ⟨(step_eq_ok.1 hstep).2.1, ih hwalk⟩

/-- What comes behind a slash at the end leads no further. -/
theorem walkTo_of_append_void {above rest : List (List Char)} (hrest : rest = [] ∨ rest = [[]])
    (h : t.walkTo k (above ++ rest) = .ok l) : t.walkTo k above = .ok l := by
  obtain ⟨k', habove, hwalk⟩ := walkTo_append.1 h
  rcases hrest with rfl | rfl
  · exact habove.trans hwalk
  · obtain ⟨-, -, -, hfollow⟩ := step_eq_ok.1 (walkTo_singleton.1 hwalk)
    rw [follow, if_pos (.inl rfl)] at hfollow
    exact hfollow ▸ habove

theorem exists_of_isDirectory (h : t.isDirectory path = true) :
    t.resolve? path = some (t.place path) ∧ path ≠ [] ∧ t.isFile path = false := by
  obtain ⟨l, hl, hnode⟩ := isDirectory_eq_true.1 h
  obtain rfl := eq_place_of_resolve? hl
  exact ⟨hl, (resolve?_eq_some.1 hl).1, by simp [isFile, find?, hl, hnode]⟩

/-! ### What lies below a directory -/

/-- The names lead from the directory to the file. -/
structure Below (t : FileTree) (input : List Char) (names : List (List Char)) (file : List Char) :
    Prop where
  nonempty : names ≠ []
  ordinary : ∀ name ∈ names, Ordinary name
  listed : (t.node? (t.place input ++ names)).isSome = true
  eq : file = join input (joinPieces '/' names)

theorem exists_below_of_mem (ht : t.WellFormed) (hdir : t.isDirectory input = true)
    {extensions : List String} (h : file ∈ collectFiles t extensions input) :
    ∃ names, t.Below input names file ∧
      ∃ extension ∈ extensions, hasExtension (String.ofList file) extension = true := by
  obtain ⟨hresolve, -, hfile⟩ := exists_of_isDirectory hdir
  rw [collectFiles, hfile, if_neg (by simp), List.mem_filter, walk, hresolve] at h
  obtain ⟨hwalk, hextension⟩ := h
  obtain ⟨⟨file, n⟩, hmem, rfl⟩ := List.mem_map.1 hwalk
  obtain ⟨⟨names, n'⟩, hbelow, hsome⟩ := List.mem_filterMap.1 hmem
  rw [below, List.mem_mergeSort, List.mem_filterMap] at hbelow
  obtain ⟨⟨l, n''⟩, hentry, hinside⟩ := hbelow
  rw [Option.ite_none_right_eq_some] at hinside
  obtain ⟨hstarts, hnames⟩ := hinside
  cases hnames
  simp only [Bool.and_eq_true, List.isPrefixOf_iff_prefix, bne_iff_ne] at hstarts
  obtain ⟨⟨rest, rfl⟩, hne⟩ := hstarts
  have hrest : rest ≠ [] := by
    rintro rfl
    exact hne (List.append_nil _)
  have hlisted := isSome_node?_of_mem hentry
  rw [List.drop_left, Option.ite_none_left_eq_some] at hsome
  obtain ⟨-, hfile⟩ := hsome
  cases hfile
  refine ⟨rest, ⟨hrest, fun name hname => ?_, hlisted, ?_⟩, List.any_eq_true.1 hextension⟩
  · exact ht.ordinary hlisted name (List.mem_append_right _ hname)
  · cases rest with
    | nil => exact absurd rfl hrest
    | cons name rest => rfl

namespace Below
variable (h : t.Below input names file)
include h

theorem place_eq (t' : FileTree) : t'.place file = t'.place input ++ names :=
  h.eq ▸ place_join t' input h.nonempty h.ordinary

theorem outputPath_eq (hinput : input ≠ []) (output : List Char) :
    Path.outputPath file input output = join output (joinPieces '/' names) :=
  h.eq ▸ Path.outputPath_join output hinput h.nonempty h.ordinary

/-- A path that leads somewhere in a later tree does so in the earlier one, where the file is
listed. -/
theorem resolve?_of_resolve? (ht : t.WellFormed) (hdir : t.isDirectory input = true)
    (hfile : t'.resolve? file = some l) : t.resolve? file = some (t.place file) := by
  obtain ⟨hresolve, -, -⟩ := exists_of_isDirectory hdir
  obtain ⟨above, rest, hpieces, hrest, -, hjoin⟩ :=
    Path.exists_pieces_join input h.nonempty h.ordinary
  have hstart : t.start file = t.start input := by
    rw [start, start, h.eq, Path.isAbsolute_join input h.nonempty h.ordinary]
  obtain ⟨hne, hpath, hwalk⟩ := resolve?_eq_some.1 hfile
  have habove := (resolve?_eq_some.1 hresolve).2.2
  rw [hpieces] at habove
  rw [h.eq, hjoin, ← h.eq] at hwalk
  have hnames : ∀ name ∈ names, isName name = true :=
    fun name hname => isName_of_walkTo hwalk name (List.mem_append_right _ hname)
  refine resolve?_eq_some.2 ⟨hne, hpath, ?_⟩
  rw [h.eq, hjoin, ← h.eq, hstart, h.place_eq]
  exact walkTo_append.2 ⟨_, walkTo_of_append_void hrest habove, ht.walkTo_below h.listed hnames⟩

/-- What is read of the file after something was written elsewhere was there before. -/
theorem read?_of_keeps (ht : t.WellFormed) (hdir : t.isDirectory input = true)
    (hkeeps : Keeps S t t') (hS : ¬ S (t.place file)) {text : String}
    (hread : t'.read? file = some text) : t.read? file = some text := by
  obtain ⟨l, hl, hn⟩ := read?_eq_some.1 hread
  obtain rfl := eq_place_of_resolve? hl
  have hresolve := h.resolve?_of_resolve? ht hdir hl
  obtain ⟨n, hnode⟩ : ∃ n, t.node? (t.place file) = some n :=
    Option.isSome_iff_exists.1 (h.place_eq t ▸ h.listed)
  have hsame := hkeeps.outside _ n hS hnode
  rw [place_congr hkeeps.current, hsame] at hn
  exact read?_eq_some.2 ⟨_, hresolve, hnode.trans hn⟩

end Below

theorem Keeps.read? (h : Keeps S t t') {text : String} (hread : t.read? path = some text)
    (hS : ¬ S (t.place path)) : t'.read? path = some text := by
  obtain ⟨l, hl, hn⟩ := read?_eq_some.1 hread
  obtain rfl := eq_place_of_resolve? hl
  exact read?_eq_some.2 ⟨_, h.resolve? hl, h.outside _ _ hS hn⟩

theorem Written.eq_place (h : t.Written path n t' l) : l = t.place path :=
  (eq_place_of_resolve? h.resolve).trans (place_congr h.keeps.current path)

/-- Nothing is lost when a file cannot be written. -/
theorem Keeps.write_of_false (h : t.write path n = (t', false)) : Keeps S t t' := by
  have hput : ∀ t : FileTree, t.putFile path n = (t', false) → t' = t := by
    intro t hput
    unfold putFile at hput
    split at hput
    · split at hput
      · exact (Prod.mk.inj hput).1.symm
      · cases hput
    · exact (Prod.mk.inj hput).1.symm
  unfold FileTree.write at h
  split at h
  · obtain rfl := hput t h
    exact .refl t'
  · rename_i above _
    have hmade := Keeps.makeDirectories (S := S) t above
    split at h
    · rename_i t₁ hfirst
      rw [hfirst] at hmade
      obtain rfl := hput t₁ h
      exact hmade
    · rename_i t₁ hfirst
      rw [hfirst] at hmade
      cases h
      exact hmade

end FileTree
end ApiProperties

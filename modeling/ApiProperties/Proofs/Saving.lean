import ApiProperties.ModelFile
import ApiProperties.Proofs.Paths
import ApiProperties.Proofs.Redecoding
import ApiProperties.Proofs.Writing

/-!
Saving a model and loading it again. What is written is the text of the model's encoding, so the
model comes back as it was, under the name that it has or else that of its file.
-/

set_option autoImplicit false

namespace ApiProperties

namespace FileTree
variable {t t' : FileTree} {path : List Char}

/-- Whether a path can be written does not depend on what is written. -/
theorem write_snd (t : FileTree) (path : List Char) (n n' : Node) :
    (t.write path n).2 = (t.write path n').2 := by
  have hput : ∀ t : FileTree, (t.putFile path n).2 = (t.putFile path n').2 := by
    intro t
    unfold putFile
    split
    · split <;> rfl
    · rfl
  unfold write
  split
  · exact hput t
  · split
    · exact hput _
    · rfl

/-- A path that can be written ends in a name. -/
theorem exists_fileName {n : Node} (h : t.write path n = (t', true)) :
    ∃ name, Path.fileName? path = some name := by
  have hput : ∀ t : FileTree, t.putFile path n = (t', true) →
      ∃ name, Path.fileName? path = some name := by
    intro t h
    obtain ⟨l, hentry, -, -⟩ := putFile_eq_true h
    obtain ⟨above, name, k, hpieces, -, -, -, hnormal, -, -⟩ := entryAt_eq_ok hentry
    exact ⟨name, Path.fileName?_of_pieces hpieces hnormal⟩
  unfold write at h
  split at h
  · exact hput t h
  · split at h
    · exact hput _ h
    · cases h

end FileTree

namespace Model

/-- Every id is a word. -/
def Addressable (m : Model) : Prop := m.encode.Plain (· < wordLimit)

end Model

namespace ModelFile
variable {t t' : FileTree} {path : List Char} {m : Model}

theorem parse?_print (h : m.encode.Fits Decoder.maxDepth) : parse? (print m) = some m := by
  rw [parse?, print, Json.parse_print h.plain, Option.bind_some]
  exact m.decodes .text Decoder.maxDepth h

@[simp] theorem fault?_nameAfter (path : List Char) (m : Model) :
    (nameAfter path m).fault? = m.fault? := by
  unfold nameAfter
  split <;> rfl

theorem load_of_read (hread : t.read? path = some (String.ofList (print m))) (hm : m.Valid)
    (hfits : m.encode.Fits Decoder.maxDepth) : load t path = .ok (nameAfter path m) := by
  have hfault : m.fault? = none := hm
  simp [load, hread, String.toList_ofList, parse?_print hfits, hfault]

/-- A consistent model that was saved is loaded as it was. If it had no name, it gets that of its
file. -/
theorem load_save (t : FileTree) (path : List Char) (m : Model) (hm : m.Valid)
    (hwords : m.Addressable) (hdepth : m.encode.depth ≤ Decoder.maxDepth)
    (hpath : ∃ n, (t.write path n).2 = true) :
    ∃ t', save t path m = (t', true) ∧ (m.name ≠ "" → load t' path = .ok m) ∧
      (m.name = "" → ∃ stem, Path.stem? path = some stem ∧
        load t' path = .ok { m with name := String.ofList stem }) := by
  obtain ⟨n, hpath⟩ := hpath
  obtain ⟨t', hsave⟩ : ∃ t', save t path m = (t', true) :=
    ⟨_, Prod.ext rfl ((t.write_snd path _ n).trans hpath)⟩
  obtain ⟨l, hwritten⟩ := FileTree.written_of_write hsave
  obtain ⟨name, hname⟩ := FileTree.exists_fileName hsave
  have hload := load_of_read hwritten.read? hm ⟨hdepth, hwords⟩
  refine ⟨t', hsave, fun hne => ?_, fun hnil => ?_⟩
  · rw [hload, nameAfter, if_neg (by simpa using hne)]
  · have hstem : Path.stem? path = some (Path.splitName name).1 := by rw [Path.stem?, hname]; rfl
    refine ⟨_, hstem, ?_⟩
    rw [hload, nameAfter, if_pos (by simpa using hnil), hstem]
    rfl

/-- A commented getter of a pointer to an alias, with a quote in the alias's name. -/
def caption (name : String) : Model :=
  let text := QualifiedType.aliasOf "text \"utf-8\"" (.plain (.builtin .char))
  let comment : Comment := ⟨.qt, "Caption", "", some [.paragraph "Caption", .returns "\t"]⟩
  let getter := { Method.plain "getCaption" (text.toConst.pointerTo .lValueReference) with
    comment := some comment, overridden := some ⟨0, 0⟩, excludedPasses := .ofList ["a", "b"] }
  ⟨name, [{ Class.empty 0 "Caption" with methods := [getter], events := [⟨"changed", 0⟩] }]⟩

theorem load_save_caption : ∃ t', save (.empty []) "new/caption.json".toList (caption "") = (t', true) ∧
    load t' "new/caption.json".toList = .ok (caption "caption") := by
  have hm : (caption "").Valid := by decide
  have hdepth : (caption "").encode.depth ≤ Decoder.maxDepth := by decide
  have hpath : ((FileTree.empty []).write "new/caption.json".toList .directory).2 = true := by decide
  have hwords : (caption "").Addressable := by
    simp [Model.Addressable, caption, Model.encode, Class.encode, Class.empty, Method.encode,
      Method.plain, Event.encode, MethodId.encode, Comment.encode,
      CommentBlock.encode, QualifiedType.encode, encodeQualified, TypeExpr.encode,
      QualifiedType.pointerTo, QualifiedType.aliasOf, QualifiedType.plain, QualifiedType.toConst,
      wordLimit]
  obtain ⟨t', hsave, -, hload⟩ := load_save _ _ _ hm hwords hdepth ⟨_, hpath⟩
  obtain ⟨stem, hstem, hload⟩ := hload rfl
  obtain rfl : "caption".toList = stem := by
    have heq : Path.stem? "new/caption.json".toList = some "caption".toList := by decide
    exact Option.some.inj (heq.symm.trans hstem)
  exact ⟨t', hsave, hload⟩

end ModelFile
end ApiProperties

import ApiProperties.Proofs.Independence
import ApiProperties.Proofs.Schedule

/-!
The order of processing does not matter as long as bases come first. What becomes of a class is
determined by the class and by what became of its ancestors, so one function says it for every
schedule, and a schedule leaves what this function says.
-/

set_option autoImplicit false

namespace ApiProperties

/-! ### What each class contributes -/

/-- What was counted and recorded while one class was processed. -/
structure Entry where
  stats : Statistics
  renames : List RenameRecord
  deriving DecidableEq, Repr

def Synthesis.enter? (y : Synthesis) (j : Model × List Entry) (c : ClassId) :
    Option (Model × List Entry) :=
  (y.processClass? j.1 c).map fun t => (t.model, j.2 ++ [⟨t.stats, t.renames⟩])

/-- Processes the classes in this order, and lists what each of them contributes. -/
def Synthesis.journal? (y : Synthesis) (m : Model) (classes : List ClassId) :
    Option (Model × List Entry) :=
  classes.foldlM y.enter? (m, [])

/-- What the entries come to, with the model they lead to. -/
def Progress.ofJournal (j : Model × List Entry) : Progress :=
  ⟨j.1, .sum (j.2.map (·.stats)), j.2.flatMap (·.renames)⟩

theorem Statistics.sum_concat (items : List Statistics) (a : Statistics) :
    Statistics.sum (items ++ [a]) = (Statistics.sum items).merge a := by
  simp [Statistics.sum]

theorem Statistics.sum_perm {items items' : List Statistics} (h : items.Perm items') :
    Statistics.sum items = Statistics.sum items' := by
  refine h.foldl_eq' (fun a _ b _ s => ?_) _
  rw [merge_assoc, merge_comm a, ← merge_assoc]

/-- Processing all classes is their journal, added up. -/
theorem Synthesis.processAll?_eq_journal? (y : Synthesis) (m : Model) (classes : List ClassId) :
    y.processAll? m classes = (y.journal? m classes).map Progress.ofJournal := by
  have hfold : ∀ j : Model × List Entry,
      classes.foldlM (fun s c => (y.processClass? s.model c).map s.followedBy)
          (Progress.ofJournal j) =
        (classes.foldlM y.enter? j).map Progress.ofJournal := by
    induction classes with
    | nil => exact fun j => rfl
    | cons c rest ih =>
      intro j
      have hmodel : (Progress.ofJournal j).model = j.1 := rfl
      rw [List.foldlM_cons, List.foldlM_cons, Synthesis.enter?, hmodel]
      cases y.processClass? j.1 c with
      | none => rfl
      | some t =>
        have hnext : (Progress.ofJournal j).followedBy t =
            .ofJournal (t.model, j.2 ++ [⟨t.stats, t.renames⟩]) := by
          simp [Progress.ofJournal, Progress.followedBy, Statistics.sum_concat]
        simp [hnext, ih]
  exact hfold (m, [])

namespace Model
variable {m : Model} {c : ClassId}

/-! ### Several classes at once -/

/-- The model once the classes `done` have become what `d` says. -/
def advance (m : Model) (d : ClassId → Desk) (done : List ClassId) : Model :=
  { m with classes := m.classes.mapIdx fun c k => if c ∈ done then (d c).cls else k }

theorem class?_advance (d : ClassId → Desk) (done : List ClassId) (c : ClassId) :
    (m.advance d done).class? c =
      (m.class? c).map fun k => if c ∈ done then (d c).cls else k := by
  simp [class?, advance, List.getElem?_mapIdx]

theorem class?_advance_of_not_mem (d : ClassId → Desk) {done : List ClassId} (hc : c ∉ done) :
    (m.advance d done).class? c = m.class? c := by
  simp [class?_advance, hc]

theorem BaseClosed.class?_advance {done : List ClassId} (h : m.BaseClosed done)
    (d : ClassId → Desk) (hc : c ∈ done) :
    (m.advance d done).class? c = some (d c).cls := by
  obtain ⟨k, hk⟩ := hasClass_iff.1 (h.hasClass c hc)
  simp [Model.class?_advance, hk, hc]

@[simp] theorem advance_nil (d : ClassId → Desk) : m.advance d [] = m :=
  ext_class? rfl fun c => by simp [class?_advance]

theorem putClass_advance (d : ClassId → Desk) (done : List ClassId) (c : ClassId) :
    (m.advance d done).putClass c (d c).cls = m.advance d (done ++ [c]) := by
  refine ext_class? rfl fun e => ?_
  rw [class?_putClass, class?_advance, class?_advance]
  cases m.class? e with
  | none => simp
  | some k =>
    by_cases hce : c = e
    · simp [hce]
    · simp [hce, Ne.symm hce]

theorem advance_congr (d : ClassId → Desk) {done done' : List ClassId}
    (h : ∀ c, c ∈ done ↔ c ∈ done') : m.advance d done = m.advance d done' := by
  simp only [advance, h]

/-! ### What becomes of a class -/

theorem Valid.processClass?_valid (hm : m.Valid) (hclass : m.hasClass c = true)
    (hc : m.IsDefinition c) {y : Synthesis} {t : Progress} (ht : y.processClass? m c = some t) :
    t.model.Valid ∧ t.model.outline = m.outline := by
  obtain ⟨k, hk⟩ := hasClass_iff.1 hclass
  obtain ⟨ids, s, own, vs, h, hprocess⟩ := hm.processClass?_total hk hc y
  obtain rfl := Option.some.inj (hprocess.symm.trans ht)
  exact ⟨h.valid hm hk, h.outline_model hm hk⟩

/-- Wherever class `c` is still as in `m` and its ancestors are as `d` says, so it will be with
`c`. -/
def Determines (m : Model) (y : Synthesis) (d : ClassId → Desk) (c : ClassId) : Prop :=
  ∀ m' : Model, m'.Valid → m'.outline = m.outline → m'.class? c = m.class? c →
    (∀ a, m.Ancestor c a → m'.class? a = some (d a).cls) →
    y.processClass? m' c = some ((d c).progress m' c)

structure Reaches (m : Model) (y : Synthesis) (d : ClassId → Desk) (done : List ClassId) :
    Prop where
  journal : y.journal? m done =
    some (m.advance d done, done.map fun c => ⟨(d c).stats, (d c).renames⟩)
  valid : (m.advance d done).Valid
  outline : (m.advance d done).outline = m.outline

theorem BaseClosed.reaches {done : List ClassId} (h : m.BaseClosed done) (hm : m.Valid)
    {y : Synthesis} {d : ClassId → Desk} (hd : ∀ c ∈ done, m.Determines y d c) :
    m.Reaches y d done := by
  induction h with
  | nil => exact ⟨by simp [Synthesis.journal?], by simpa using hm, by simp⟩
  | @snoc done c h hc hclass hdef hanc ih =>
    obtain ⟨hjournal, hvalid, hout⟩ := ih fun e he => hd e (List.mem_append_left _ he)
    have hprocess : y.processClass? (m.advance d done) c =
        some ⟨m.advance d (done ++ [c]), (d c).stats, (d c).renames⟩ := by
      rw [← putClass_advance]
      exact hd c (by simp) _ hvalid hout (class?_advance_of_not_mem d hc)
        fun a ha => h.class?_advance d (hanc a ha)
    obtain ⟨hvalid', hout'⟩ := hvalid.processClass?_valid (hasClass_congr hout c ▸ hclass)
      ((isDefinition_congr hout).2 hdef) hprocess
    refine ⟨?_, hvalid', hout'.trans hout⟩
    rw [Synthesis.journal?] at hjournal ⊢
    rw [List.foldlM_append, hjournal]
    simp [Synthesis.enter?, hprocess]

theorem BaseClosed.exists_determines {done : List ClassId} (h : m.BaseClosed done) (hm : m.Valid)
    (hfree : m.PropertyFree) (y : Synthesis) :
    ∃ d : ClassId → Desk, ∀ c ∈ done, m.Determines y d c := by
  induction h with
  | nil => exact ⟨fun c => ⟨.empty c "", .zero, []⟩, by simp⟩
  | @snoc done c h hc hclass hdef hanc ih =>
    obtain ⟨d, hd⟩ := ih
    obtain ⟨-, hvalid, hout⟩ := h.reaches hm hd
    obtain ⟨k, hk⟩ := hasClass_iff.1 hclass
    have hself := class?_advance_of_not_mem (m := m) d hc
    obtain ⟨desk, hdesk⟩ := hvalid.processClass?_agree (hself.trans hk)
      ((isDefinition_congr hout).2 hdef) (hfree.class hk) y
    have hsame : ∀ a ∈ done, Function.update d c desk a = d a := fun a ha =>
      Function.update_of_ne (ne_of_mem_of_not_mem ha hc) desk d
    refine ⟨Function.update d c desk, fun e he m' hm' hout' hself' hanc' => ?_⟩
    rcases List.mem_append.1 he with he | he
    · rw [hsame e he]
      refine hd e he m' hm' hout' hself' fun a ha => ?_
      rw [hanc' a ha, hsame a (h.ancestor_mem he ha)]
    · obtain rfl := List.mem_singleton.1 he
      rw [Function.update_self]
      refine hdesk m' hm' ⟨hout'.trans hout.symm, hself'.trans hself.symm, fun a ha => ?_⟩
      have ha := ancestor_of_skeleton (skeleton_congr hout) ha
      rw [hanc' a ha, hsame a (hanc a ha), h.class?_advance d (hanc a ha)]

/-- Every schedule leads to the same model and the same counters, and has the same done to each
class. -/
theorem schedules_agree (m : Model) (hm : m.Valid) (hfree : m.PropertyFree) (hac : m.Acyclic)
    (y : Synthesis) (order : List ClassId) (h : m.Schedule order) :
    ∃ t t' usual entry, y.run? m = some t ∧ y.processAll? m order = some t' ∧
      t'.model = t.model ∧ t'.stats = t.stats ∧ m.visitOrder? = some usual ∧
      y.journal? m usual = some (t.model, usual.map entry) ∧
      y.journal? m order = some (t'.model, order.map entry) ∧
      t.renames = usual.flatMap (fun c => (entry c).renames) ∧
      t'.renames = order.flatMap (fun c => (entry c).renames) := by
  obtain ⟨usual, hvisit, husual⟩ := hm.schedule_visitOrder? hac
  have hclosed := husual.baseClosed hm
  obtain ⟨d, hd⟩ := hclosed.exists_determines hm hfree y
  have hmem : ∀ c, c ∈ order ↔ c ∈ usual := fun c => by rw [h.complete, husual.complete]
  have hperm : order.Perm usual := (List.perm_ext_iff_of_nodup h.nodup husual.nodup).2 hmem
  obtain ⟨hjournal, -, -⟩ := hclosed.reaches hm hd
  obtain ⟨hjournal', -, -⟩ :=
    (h.baseClosed hm).reaches hm fun c hc => hd c ((hmem c).1 hc)
  let entry : ClassId → Entry := fun c => ⟨(d c).stats, (d c).renames⟩
  refine ⟨.ofJournal (m.advance d usual, usual.map entry),
    .ofJournal (m.advance d order, order.map entry), usual, entry, ?_, ?_, ?_, ?_, hvisit,
    hjournal, hjournal', ?_, ?_⟩
  · simp [Synthesis.run?, hvisit, y.processAll?_eq_journal?, hjournal, entry]
  · simp [y.processAll?_eq_journal?, hjournal', entry]
  · exact advance_congr d hmem
  · exact Statistics.sum_perm ((hperm.map entry).map _)
  · simp [Progress.ofJournal, List.flatMap_map]
  · simp [Progress.ofJournal, List.flatMap_map]

/-- Two classes that derive from one, the second of them from a view of it, and a class that derives
from both. Each of the two has to make room for a property of its own. -/
def diamond : Model :=
  let int := QualifiedType.plain (.builtin .int)
  let size := (Method.plain "getSize" int).overriding ⟨0, 0⟩
  let named (c : ClassId) (property : String) : List Method :=
    let getter := Method.plain (displacedMethodName property) int
    let taken := { Method.plain property .void with
      parameters := [⟨"x", .regular, int⟩, ⟨"y", .regular, int⟩] }
    [size, getter, taken].map fun f => { f with owner := c }
  ⟨"unit", [
    { Class.empty 0 "Base" with methods := [.plain "getSize" int, .plainSetter "setSize" int] },
    { Class.empty 1 "Left" with bases := [⟨0, .pub⟩], methods := named 1 "width" },
    { Class.empty 2 "Right" with bases := [⟨4, .pub⟩], methods := named 2 "height" },
    { Class.empty 3 "Bottom" with bases := [⟨1, .pub⟩, ⟨2, .pub⟩] },
    { Class.empty 4 "View" with definition := some 0 }]⟩

theorem schedules_agree_diamond : diamond.Valid ∧ diamond.PropertyFree ∧ diamond.Acyclic ∧
    diamond.Schedule [0, 2, 1, 3] ∧ diamond.visitOrder? = some [0, 1, 2, 3] ∧
    ∃ t t', Synthesis.withoutVerbs.run? diamond = some t ∧
      Synthesis.withoutVerbs.processAll? diamond [0, 2, 1, 3] = some t' ∧
      t'.model = t.model ∧ t'.stats = t.stats := by
  have hvalid : diamond.Valid := by decide
  have hfree : diamond.PropertyFree := by decide
  have hac : diamond.Acyclic := acyclic_of_parents (by decide)
  have hschedule : diamond.Schedule [0, 2, 1, 3] := by decide
  obtain ⟨t, t', -, -, ht, ht', hmodel, hstats, -⟩ :=
    schedules_agree diamond hvalid hfree hac .withoutVerbs [0, 2, 1, 3] hschedule
  exact ⟨hvalid, hfree, hac, hschedule, by decide, t, t', ht, ht', hmodel, hstats⟩

end Model
end ApiProperties

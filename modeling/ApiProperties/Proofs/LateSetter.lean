import Mathlib.Data.Fintype.Basic
import ApiProperties.Proofs.Disagreement
import ApiProperties.Proofs.Passing

/-!
When a setter may come late. A model is run, gets a setter and is run again; or it gets the setter
and is run once. If the first run left nothing to do in the class, then the class gets the same tags
and properties just in case the setter is no overload of a getter that became a property, and finds
its getter where the other history has it. The members have the same names as well, if the names that
were given up on the way do not tell when the setter came. None of the conditions can be left out.
-/

set_option autoImplicit false

namespace ApiProperties

/-- What comes of a class and a setter. After the run `first` the model gets the setter, which makes
it `later`, and is run again; or it gets the setter before it is run `once`. -/
structure Course where
  setter : MethodId
  first : Progress
  later : Model
  late : Progress
  once : Progress
  /-- The class as the first run leaves it. -/
  firstClass : Class
  lateClass : Class
  onceClass : Class

def Synthesis.course? (y : Synthesis) (m : Model) (c : ClassId) (f : Method) : Option Course := do
  let (m', setter) ← m.addMethod? c f
  let once ← y.run? m'
  let first ← y.run? m
  let (later, _) ← first.model.addMethod? c f
  let late ← y.run? later
  let firstClass ← first.model.class? c
  let lateClass ← late.model.class? c
  let onceClass ← once.model.class? c
  pure { setter, first, later, late, once, firstClass, lateClass, onceClass }

namespace Course

/-- What is asked for if a setter is to come late. -/
inductive Condition where
  /-- The first run leaves nothing to do in the class. -/
  | rest
  /-- The setter is no overload of a getter that became a property, unless they are a pair. -/
  | overload
  /-- The getter that the setter is paired with has become a property, or it has not been renamed. -/
  | untouched
  /-- That getter has become a property, or no property accepts the setter. -/
  | refused
  /-- If the setter's name leaves none for a property, then no property has its name. -/
  | unnamed
  /-- If the pair gets another name than the property of its getter, nothing makes room for either. -/
  | renamed
  /-- If the pair is committed late, no member is renamed twice in either history. -/
  | once
  deriving DecidableEq

instance : Fintype Condition where
  elems := {.rest, .overload, .untouched, .refused, .unnamed, .renamed, .once}
  complete condition := by cases condition <;> decide

variable (x : Course)

/-- The condition holds for the setter `f` of class `c`. -/
def Meets (y : Synthesis) (m : Model) (c : ClassId) (f : Method) : Condition → Prop
  | .rest => x.first.model.AtRest y c
  | .overload => ∀ q ∈ x.firstClass.properties, q.setter = none → ∀ g ∈ q.getter,
      ∀ g' ∈ m.method? g, g'.originalName = f.originalName →
        ∃ p ∈ x.onceClass.properties, p.getter = some g ∧ p.setter = some x.setter
  | .untouched => ∀ p ∈ x.onceClass.properties, p.setter = some x.setter →
      (∃ q ∈ x.firstClass.properties, q.getter = p.getter) ∨
        ∀ g ∈ p.getter, x.first.model.method? g = m.method? g
  | .refused => ∀ p ∈ x.onceClass.properties, p.setter = some x.setter →
      (∃ q ∈ x.firstClass.properties, q.getter = p.getter) ∨
        ∀ a ∈ f.accessor?, ∀ q ∈ x.firstClass.properties,
          x.later.accepts? x.setter a q = some false
  | .unnamed => f.accessor? = none → ∀ q ∈ x.firstClass.properties, q.name ≠ f.name
  | .renamed => ∀ p ∈ x.onceClass.properties, p.setter = some x.setter →
      ∀ q ∈ x.firstClass.properties, q.getter = p.getter → q.name = p.name ∨
        (∀ r ∈ x.first.renames, r.className = x.firstClass.name → r.oldName ≠ q.name) ∧
        ∀ r ∈ x.once.renames, r.className = x.firstClass.name → r.oldName ≠ p.name
  | .once => ∀ p ∈ x.onceClass.properties, p.setter = some x.setter →
      (∀ q ∈ x.firstClass.properties, q.getter ≠ p.getter) →
        RenamedOnce x.firstClass.name (x.first.renames ++ x.late.renames) ∧
          RenamedOnce x.firstClass.name x.once.renames

instance (y : Synthesis) (m : Model) (c : ClassId) (f : Method) : DecidablePred (x.Meets y m c f)
  | .rest => inferInstanceAs (Decidable (x.first.model.AtRest y c))
  | .overload => inferInstanceAs (Decidable (∀ q ∈ x.firstClass.properties, _))
  | .untouched => inferInstanceAs (Decidable (∀ p ∈ x.onceClass.properties, _))
  | .refused => inferInstanceAs (Decidable (∀ p ∈ x.onceClass.properties, _))
  | .unnamed => inferInstanceAs (Decidable (f.accessor? = none → _))
  | .renamed => inferInstanceAs (Decidable (∀ p ∈ x.onceClass.properties, _))
  | .once => inferInstanceAs (Decidable (∀ p ∈ x.onceClass.properties, _))

/-- The same tags, and but for their order the same properties. -/
structure SameTags : Prop where
  tags : x.lateClass.methods.map (·.generation) = x.onceClass.methods.map (·.generation)
  properties : x.lateClass.properties.Perm x.onceClass.properties

/-- The same methods and events, and but for their order the same properties. -/
structure Agrees : Prop where
  methods : x.lateClass.methods = x.onceClass.methods
  events : x.lateClass.events = x.onceClass.events
  properties : x.lateClass.properties.Perm x.onceClass.properties

instance : Decidable x.Agrees :=
  decidable_of_iff (x.lateClass.methods = x.onceClass.methods ∧
      x.lateClass.events = x.onceClass.events ∧
      x.lateClass.properties.Perm x.onceClass.properties)
    ⟨fun h => ⟨h.1, h.2.1, h.2.2⟩, fun h => ⟨h.methods, h.events, h.properties⟩⟩

end Course

namespace Histories
variable {y : Synthesis} {c : ClassId} {f : Method} (H : Histories y c f) {p q : Property}
  {a : Accessor} {L R : List Property} {m m₁ : Model} {t₁ t₂ t' : Progress}

/-- What comes of the class when these runs make the two histories. -/
def course (t₁ : Progress) (m₁ : Model) (t₂ t' : Progress) : Course :=
  { setter := H.id, first := t₁, later := m₁, late := t₂, once := t'
    firstClass := H.first.after, lateClass := H.late.after, onceClass := H.once.after }

/-- The two histories of the class are those that the runs make of it. -/
structure Traces (m : Model) (t₁ : Progress) (m₁ : Model) (t₂ t' : Progress) : Prop where
  start : m.class? c = some H.first.before
  between : t₁.model.class? c = some H.first.after
  late : m₁.class? c = some H.late.before
  first_renames : ∀ r ∈ H.first.done.renames, r ∈ t₁.renames
  late_renames : ∀ r ∈ H.late.done.renames, r ∈ t₂.renames
  once_renames : ∀ r ∈ H.once.done.renames, r ∈ t'.renames

/-- A getter that was given back is not the getter of a property. -/
theorem getter_ne_of_back (hback : H.first.GivesBack p) {g : MethodId} (hg : p.getter = some g)
    (hq : q ∈ H.first.after.properties) : q.getter ≠ some g := by
  intro hgetter
  obtain ⟨p', hv⟩ := H.mem_first_after.1 hq
  obtain ⟨hp', rfl⟩ := H.first.of_kept hv
  obtain rfl := H.first.eq_of_shared hp' hback.pending (Property.mem_accessors.2 (.inl hgetter))
    (Property.mem_accessors.2 (.inl hg))
  exact hback.notMem _ hv

namespace Traces
variable {H} (T : H.Traces m t₁ m₁ t₂ t')
include T

theorem method?_start {g : MethodId} (hg : g.owner = c) :
    m.method? g = H.first.model.method? g := by
  rw [Model.method?, Model.method?, hg, T.start, H.first.listed]

/-- The getter has not been renamed just in case it is pending again. -/
theorem pending_again_iff (hback : H.first.GivesBack p) {g : MethodId} (hg : p.getter = some g) :
    p ∈ H.again.pending.properties ↔ t₁.model.method? g = m.method? g := by
  have hmem : g ∈ p.accessors := Property.mem_accessors.2 (.inl hg)
  obtain ⟨x, f₀, rfl, hf⟩ := H.first_method hback.pending hmem
  simp only [Model.method?, T.start, T.between, Option.bind_some, hf]
  constructor
  · intro hagain
    obtain ⟨-, x', g', haccessors, hg', hG⟩ := H.pending_again hagain
    obtain rfl : x = x' := by simpa [haccessors] using hmem
    rw [hG, ← hg', hf]
  · exact H.pending_again_of_back hback hmem hf

theorem refuses_iff : (∀ q ∈ H.again.own,
      Pending.completable? H.late.model H.id a q = some false) ↔
    ∀ q ∈ H.first.after.properties, m₁.accepts? H.id a q = some false := by
  have hmethods : ∀ id : MethodId, id.owner = c → H.late.model.method? id = m₁.method? id := by
    intro id hid
    rw [Model.method?, Model.method?, hid, T.late, H.late.listed]
  rw [H.again_own]
  refine forall₂_congr fun q hq => ?_
  obtain ⟨p, hv⟩ := H.mem_first_after.1 hq
  obtain ⟨hp, hdocumented⟩ := H.first.of_kept hv
  rw [H.completable?_eq_accepts? hv, Model.accepts?_of_accessors
    (hmethods _ (congrArg (·.owner) H.id_eq)) a fun j hj => hmethods j ?_]
  rw [hdocumented] at hj
  exact H.first.owner_of_accessor hp hj

theorem meets_overload (M : H.Meets) : (H.course t₁ m₁ t₂ t').Meets y m c f .overload := by
  intro q hq hs g hg g' hg' horiginal
  obtain ⟨p, hv⟩ := H.mem_first_after.1 hq
  obtain ⟨hp, rfl⟩ := H.first.of_kept hv
  have howner : g.owner = c := H.first.owner_of_accessor hp (Property.mem_accessors.2 (.inl hg))
  exact M.overload p _ hv hs g g' hg (T.method?_start howner ▸ hg') horiginal

/-- Where the setter finds its getter: the property that this became, or the getter itself. -/
theorem meets_partner (M : H.Meets) : (H.course t₁ m₁ t₂ t').Meets y m c f .untouched ∧
    (H.course t₁ m₁ t₂ t').Meets y m c f .refused := by
  have hpartner : ∀ r ∈ H.once.after.properties, r.setter = some H.id →
      (∃ q ∈ H.first.after.properties, q.getter = r.getter) ∨
        (∀ g ∈ r.getter, t₁.model.method? g = m.method? g) ∧
        ∀ a ∈ f.accessor?, ∀ q ∈ H.first.after.properties, m₁.accepts? H.id a q = some false := by
    intro r hr hs
    rcases H.single_or_joins with hsingle | ⟨a, L, p, R, J⟩
    · exact absurd hs (hsingle.setter_ne hr)
    have hgetter := J.getter_of_setter hr hs
    rcases H.first.fate J.pending with hback | ⟨q, hv⟩
    · obtain ⟨hagain, hrefuse⟩ := M.partner a L p R J hback
      refine .inr ⟨fun g hg => ?_, fun a' ha' => ?_⟩
      · exact (T.pending_again_iff hback (hgetter ▸ hg)).1 hagain
      · obtain rfl := Option.some.inj (J.accessor.symm.trans ha')
        exact T.refuses_iff.1 hrefuse
    · refine .inl ⟨q, H.mem_first_after.2 ⟨p, hv⟩, ?_⟩
      rw [hgetter, (H.first.of_kept hv).2]
      rfl
  exact ⟨fun r hr hs => (hpartner r hr hs).imp_right And.left,
    fun r hr hs => (hpartner r hr hs).imp_right And.right⟩

/-- The setter finds its place. -/
theorem meets (hoverload : (H.course t₁ m₁ t₂ t').Meets y m c f .overload)
    (huntouched : (H.course t₁ m₁ t₂ t').Meets y m c f .untouched)
    (hrefused : (H.course t₁ m₁ t₂ t').Meets y m c f .refused) : H.Meets := by
  refine ⟨?_, ?_⟩
  · intro p q hv hs g g' hg hg' horiginal
    obtain ⟨hp, rfl⟩ := H.first.of_kept hv
    have howner : g.owner = c := H.first.owner_of_accessor hp (Property.mem_accessors.2 (.inl hg))
    exact hoverload _ (H.mem_first_after.2 ⟨p, hv⟩) hs g hg g'
      ((T.method?_start howner).trans hg') horiginal
  · intro a L p R J hback
    obtain ⟨⟨g, hg⟩, -⟩ := J.halves
    have hpair := J.getter_once_after.trans hg
    have hnone : ¬ ∃ q ∈ H.first.after.properties,
        q.getter = (H.once.model.documented (p.attach H.id f a)).getter := fun ⟨q, hq, hgetter⟩ =>
      H.getter_ne_of_back hback hg hq (hgetter.trans hpair)
    have hsame := (huntouched _ J.mem_once_after J.setter_once_after).resolve_left hnone
    have hrefuse := (hrefused _ J.mem_once_after J.setter_once_after).resolve_left hnone
    exact ⟨(T.pending_again_iff hback hg).2 (hsame g hpair),
      T.refuses_iff.2 (hrefuse a J.accessor)⟩

/-- The names stay. -/
theorem namesStay (hunnamed : (H.course t₁ m₁ t₂ t').Meets y m c f .unnamed)
    (hrenamed : (H.course t₁ m₁ t₂ t').Meets y m c f .renamed)
    (honce : (H.course t₁ m₁ t₂ t').Meets y m c f .once) : H.NamesStay := by
  have hname := H.first.name_after
  refine ⟨fun hmute hmem => ?_, fun a L p R J q hv => ?_, fun a L p R J hback => ?_⟩
  · obtain ⟨q, hq, hsame⟩ := List.mem_map.1 hmem
    rw [← H.first_after_properties] at hq
    exact hunnamed hmute q hq hsame
  · obtain ⟨-, hq⟩ := H.first.of_kept hv
    have hgetter : q.getter = (H.once.model.documented (p.attach H.id f a)).getter := by
      rw [hq]
      exact J.getter_once_after.symm
    have hrooms := hrenamed _ J.mem_once_after J.setter_once_after q
      (H.mem_first_after.2 ⟨p, hv⟩) hgetter
    have hpair : (H.once.model.documented (p.attach H.id f a)).name = a.name := p.name_attach ..
    rw [course, hname, hpair, show q.name = p.name by rw [hq]; rfl] at hrooms
    exact hrooms.imp_right fun ⟨hfirst, hafter⟩ =>
      ⟨fun r hr => hfirst r (T.first_renames r hr), fun r hr => hafter r (T.once_renames r hr)⟩
  · obtain ⟨⟨g, hg⟩, -⟩ := J.halves
    have hnot : ∀ q ∈ H.first.after.properties,
        q.getter ≠ (H.once.model.documented (p.attach H.id f a)).getter := fun q hq hgetter =>
      H.getter_ne_of_back hback hg hq (hgetter.trans (J.getter_once_after.trans hg))
    obtain ⟨htwo, hone⟩ := honce _ J.mem_once_after J.setter_once_after hnot
    rw [course, hname] at htwo hone
    refine ⟨htwo.mono fun r hr => ?_, hone.mono T.once_renames⟩
    exact List.mem_append.2 ((List.mem_append.1 hr).imp (T.first_renames r) (T.late_renames r))

end Traces
end Histories

namespace Model
variable {m : Model} {c : ClassId} {f : Method}

/-- A model whose complete class `c` can get the setter `f`. -/
structure Admits (m : Model) (c : ClassId) (f : Method) : Prop where
  valid : m.Valid
  propertyFree : m.PropertyFree
  overrideFree : m.OverrideFree
  complete : m.IsDefinition c
  isCandidate : f.isCandidate = true
  isSetter : f.isSetter = true
  plain : f.isOverride = false
  /-- The setter refers to nothing that the model lacks. -/
  fits : ∀ r ∈ m.addMethod? c f, r.1.Valid

instance (m : Model) (c : ClassId) (f : Method) : Decidable (m.Admits c f) :=
  decidable_of_iff (m.Valid ∧ m.PropertyFree ∧ m.OverrideFree ∧ m.definition? c = some c ∧
      f.isCandidate = true ∧ f.isSetter = true ∧ f.isOverride = false ∧
      ∀ r ∈ m.addMethod? c f, r.1.Valid)
    ⟨fun ⟨h₁, h₂, h₃, h₄, h₅, h₆, h₇, h₈⟩ => ⟨h₁, h₂, h₃, h₄, h₅, h₆, h₇, h₈⟩,
      fun ⟨h₁, h₂, h₃, h₄, h₅, h₆, h₇, h₈⟩ => ⟨h₁, h₂, h₃, h₄, h₅, h₆, h₇, h₈⟩⟩

namespace Admits
variable (h : m.Admits c f)
include h

/-- The class gets the setter, be it before the first run or after it, and the next run processes it in
one pass. -/
theorem run?_withSetter {n : Model} {k : Class} (hout : n.outline = m.outline) (hn : n.Valid)
    (hk : n.class? c = some k) (y : Synthesis) :
    ∃ n' t, n.addMethod? c f = some (n', ⟨c, k.methods.length⟩) ∧ y.run? n' = some t ∧
      n'.class? c = some (k.withMethod { f with owner := c }) ∧
      ∃ P : Pass y c, P.before = k.withMethod { f with owner := c } ∧
        P.model.outline = m.outline.modifyClass c (·.withMethod { f with owner := c }.outline) ∧
        t.model.class? c = some P.after ∧ ∀ r ∈ P.done.renames, r ∈ t.renames := by
  obtain ⟨k₀, hk₀⟩ := h.complete.listed
  have hadd := addMethod?_eq (f := f) hk
  have hvalid := (h.fits _ (addMethod?_eq hk₀)).addMethod?_later (addMethod?_eq hk₀) hout hadd hn
  have hno := (h.overrideFree.congr hout).withMethod (c := c) (f := { f with owner := c }) h.plain
  have hdef : (n.modifyClass c (·.withMethod { f with owner := c })).IsDefinition c := by
    rw [IsDefinition, definition?_of_skeleton (skeleton_addMethod? hadd)]
    exact (isDefinition_congr hout).2 h.complete
  have hclass : (n.modifyClass c (·.withMethod { f with owner := c })).class? c =
      some (k.withMethod { f with owner := c }) := by simp [class?_modifyClass, hk]
  obtain ⟨t, ht, -, -, hpasses⟩ := hvalid.run?_passes hno y
  obtain ⟨P, hbefore, hPout, hafter, hrenames⟩ := hpasses c _ hclass hdef
  refine ⟨_, t, hadd, ht, hclass, P, hbefore, ?_, hafter, hrenames⟩
  rw [hPout, outline_withMethod, hout]

/-- Both histories take place, and where the first run left nothing to do, they are two histories of
the class. -/
theorem exists_course (y : Synthesis) :
    ∃ x, y.course? m c f = some x ∧ (x.first.model.AtRest y c →
      ∃ (H : Histories y c { f with owner := c }) (t₁ : Progress) (m₁ : Model) (t₂ t' : Progress),
        H.Traces m t₁ m₁ t₂ t' ∧ x = H.course t₁ m₁ t₂ t') := by
  obtain ⟨k, hk⟩ := h.complete.listed
  obtain ⟨t₁, ht₁, hvalid₁, hout₁, hpasses₁⟩ := h.valid.run?_passes h.overrideFree y
  obtain ⟨first, rfl, -, hk₁, hrenames₁⟩ := hpasses₁ c k hk h.complete
  obtain ⟨m', t', hadd, ht', -, once, honce, honceOut, hk', hrenames'⟩ :=
    h.run?_withSetter rfl h.valid hk y
  obtain ⟨m₁, t₂, hlater, ht₂, hclass₁, late, hlate, hlateOut, hk₂, hrenames₂⟩ :=
    h.run?_withSetter hout₁ hvalid₁ hk₁ y
  refine ⟨_, by simp [Synthesis.course?, hadd, ht', ht₁, hlater, ht₂, hk₁, hk₂, hk']; rfl,
    fun hrest => ?_⟩
  obtain ⟨again, -, hagain, hcompleted, hdropped⟩ := hrest.exists_pass hvalid₁
    (h.overrideFree.congr hout₁) ((isDefinition_congr hout₁).2 h.complete) hk₁
  have hprops : first.before.properties = [] := h.propertyFree.class hk
  let H : Histories y c { f with owner := c } :=
    { first, again, late, once
      free := hprops
      resumed := hagain
      gainsLate := ⟨by rw [hlate, hagain], h.isCandidate, hagain ▸ first.known_after hprops⟩
      gainsOnce := ⟨honce, h.isCandidate, by simp [hprops]⟩
      outline := hlateOut.trans honceOut.symm
      isSetter := h.isSetter
      completes := hcompleted
      drops := hdropped }
  have hid : H.id = ⟨c, first.before.methods.length⟩ := H.id_eq
  refine ⟨H, t₁, m₁, t₂, t', ⟨hk, hk₁, by rw [hclass₁, hlate], hrenames₁, hrenames₂, hrenames'⟩, ?_⟩
  rw [Histories.course, hid]

end Admits

/-- A dial with the getter of a value, and with an event of the value's name. -/
def dial : Model := .ofMembers [.plain "getValue" (.plain (.builtin .int))] [⟨"value", 0⟩]

/-- The methods and events of a class, and a setter for which this condition fails and no other. -/
def exception : Course.Condition → Model × Method
  -- a setter that was given back completes the property of its getter in the next run
  | .rest => (.ofMembers [.plainSetter "setReady" bool, .plain "isReady" bool] [],
      .plainSetter "setLevel" int)
  -- an overloaded getter makes no property, and it is one already
  | .overload => (.ofMembers [.plain "width" int] [], .plainSetter "width" double)
  -- `width` has become `getWidth` for the property of the other getter, and offers nothing any more
  | .untouched => (.ofMembers [.plain "width" int, pair "width", .plain "getWidth" double] [],
      .plainSetter "setWidth" int)
  -- the setter joins the property of the other getter
  | .refused => (.ofMembers [.plain "getWidth" int, pair "getWidth", .plain "width" int] [],
      .plainSetter "setWidth" int)
  -- who comes late makes no room for a property that is there
  | .unnamed => (.ofMembers [.plain "getSet" int] [], .plainSetter "set" int)
  -- the event makes room for `isReady`, which is renamed to `ready` in place
  | .renamed => (.ofMembers [.plain "isReady" bool] [⟨"isReady", 0⟩], .plainSetter "setReady" bool)
  -- `x` makes room as `getX`, and once more if the property `getX` comes late
  | .once => (.ofMembers [.plain "getGetX" int, pair "getGetX", .plain "getX" int, pair "x"] [],
      .plainSetter "setGetX" int)
where
  int : QualifiedType := .plain (.builtin .int)
  double : QualifiedType := .plain (.builtin .double)
  bool : QualifiedType := .plain (.builtin .bool)
  /-- A method that is no accessor, with two parameters. -/
  pair (name : String) : Method :=
    let setter := Method.plainSetter name int
    { setter with parameters := setter.parameters ++ setter.parameters }

/-- None of the conditions can be left out: the histories may end differently when the others hold. -/
theorem late_setter_needs (condition : Course.Condition) :
    (exception condition).1.Admits 0 (exception condition).2 ∧
    ∃ x ∈ Synthesis.withoutVerbs.course? (exception condition).1 0 (exception condition).2,
      (∀ other, x.Meets .withoutVerbs (exception condition).1 0 (exception condition).2 other ↔
        other ≠ condition) ∧ ¬ x.Agrees := by
  cases condition with
  | rest => decide
  | overload => decide
  | untouched => decide
  | refused => decide
  | unnamed => decide
  | renamed => decide
  | once => decide

end Model
end ApiProperties

import Mathlib.Data.List.Flatten
import ApiProperties.Proofs.Exposure
import ApiProperties.Proofs.Filtering
import ApiProperties.Proofs.PropertyNames

/-!
Processing a class where nothing is overridden. Then a pending property is kept as it is or dropped
as a whole, and it is kept if it has both halves, or a getter that stands for itself alone. So every
method that was taken in has its tag back or is internal, and the names that it is exposed to are
known.
-/

set_option autoImplicit false

namespace ApiProperties

namespace Model.Assembly
variable {m : Model} {k : Class} {ids : List MethodId} {s : Pending} {own : List Property}

/-- A pending property with one accessor is the one that started with it. -/
theorem eq_single (h : m.Assembly k ids s own) {p : Property} (hp : p ∈ s.properties)
    {id : MethodId} (hid : p.accessors = [id]) :
    ∃ f a, m.Offers k.id id f a ∧ p = .single k.id id f a := by
  induction h with
  | start => simp [Pending.empty] at hp
  | complete _ _ _ _ _ _ ih => exact ih hp
  | @join _ _ _ _ f _ _ _ _ _ _ _ hq ha _ ih =>
    rcases mem_modify hq hp with rfl | hp
    · obtain ⟨hg, hs⟩ := (accepts?_eq_true.1 ha).whole_attach (f := f)
      obtain ⟨g, hg⟩ := Option.ne_none_iff_exists'.1 hg
      obtain ⟨s, hs⟩ := Option.ne_none_iff_exists'.1 hs
      simp [Property.accessors, hg, hs] at hid
    · exact ih hp
  | create _ ho _ _ _ ih =>
    rcases List.mem_append.1 hp with hp | hp
    · exact ih hp
    · obtain rfl := List.mem_singleton.1 hp
      obtain rfl := List.singleton_inj.1 ((Property.accessors_single ..).symm.trans hid)
      exact ⟨_, _, ho, rfl⟩

/-- The pending properties stand in the order in which they were started. -/
theorem started_in_order (h : m.Assembly k ids s own) (hsorted : ids.Pairwise (·.index < ·.index))
    {i j : Nat} {p q : Property} (hij : i < j) (hp : s.properties[i]? = some p)
    (hq : s.properties[j]? = some q) :
    ∃ id ∈ p.accessors, ∀ id' ∈ q.accessors, id.index < id'.index := by
  induction h generalizing i j p q with
  | start => simp [Pending.empty] at hp
  | complete _ _ _ _ _ _ ih => exact ih (List.pairwise_append.1 hsorted).1 hij hp hq
  | @join ids s own id f a l r h ho hid _ hr ha _ ih =>
    obtain ⟨hbefore, -, hlast⟩ := List.pairwise_append.1 hsorted
    have hgain : ∀ j, j ∈ (r.attach id f a).accessors ↔ j = id ∨ j ∈ r.accessors :=
      Property.mem_accessors_attach (accepts?_eq_true.1 ha).free
    rcases getElem?_modify_cases hr hp with ⟨rfl, rfl⟩ | hp
    · rw [List.getElem?_modify_ne _ _ (Nat.ne_of_lt hij)] at hq
      obtain ⟨id', hid', hlt⟩ := ih hbefore hij hr hq
      exact ⟨id', (hgain id').2 (.inr hid'), hlt⟩
    · rcases getElem?_modify_cases hr hq with ⟨rfl, rfl⟩ | hq
      · obtain ⟨id', hid', hlt⟩ := ih hbefore hij hp hr
        have hmem := h.accessors_subset p (List.mem_of_getElem? hp) id' hid'
        refine ⟨id', hid', fun i hi => ?_⟩
        rcases (hgain i).1 hi with rfl | hi
        · exact hlast id' hmem i (List.mem_singleton.2 rfl)
        · exact hlt i hi
      · exact ih hbefore hij hp hq
  | @create ids s own id f a h ho hid _ _ ih =>
    obtain ⟨hbefore, -, hlast⟩ := List.pairwise_append.1 hsorted
    rcases getElem?_concat_cases hq with hq | ⟨rfl, rfl⟩
    · have hlt := (List.getElem?_eq_some_iff.1 hq).1
      rw [List.getElem?_append_left (hij.trans hlt)] at hp
      exact ih hbefore hij hp hq
    · rw [List.getElem?_append_left hij] at hp
      have hmem := List.mem_of_getElem? hp
      obtain ⟨id', hid'⟩ := List.exists_mem_of_ne_nil _ (h.wellMade p hmem).accessors
      refine ⟨id', hid', fun i hi => ?_⟩
      rw [Property.accessors_single] at hi
      exact hlast id' (h.accessors_subset p hmem id' hid') i hi

end Model.Assembly
/-- The processing of class `c` in a consistent model in which nothing is overridden. -/
structure Pass (y : Synthesis) (c : ClassId) where
  model : Model
  before : Class
  offered : List MethodId
  pending : Pending
  own : List Property
  verdicts : List (Property × Option Property)
  valid : model.Valid
  plain : model.OverrideFree
  definition : model.IsDefinition c
  listed : model.class? c = some before
  processed : model.Processed y c before offered pending own verdicts

namespace Pass
variable {y : Synthesis} {c : ClassId} (P : Pass y c)

def desk : Desk := y.desk P.model P.before P.offered P.pending P.own

def done : Desk := P.desk.settleAll c P.verdicts

def after : Class := P.done.cls

theorem id_before : P.before.id = c := (P.valid.consistent P.listed).id

theorem id_desk : P.desk.cls.id = c := P.id_before

theorem method?_eq (x : Nat) : P.model.method? ⟨c, x⟩ = P.before.methods[x]? := by
  simp [Model.method?, P.listed]

variable {p q : Property} {id : MethodId}

theorem offered_of_accessor (hp : p ∈ P.pending.properties) (hid : id ∈ p.accessors) :
    id ∈ P.offered :=
  P.processed.assembly.accessors_subset p hp id hid

theorem owner_of_accessor (hp : p ∈ P.pending.properties) (hid : id ∈ p.accessors) :
    id.owner = c :=
  P.processed.owner_of_mem (P.offered_of_accessor hp hid)

theorem hasMethod_of_accessor (hp : p ∈ P.pending.properties) (hid : id ∈ p.accessors) :
    P.model.hasMethod id = true := by
  obtain ⟨f, a, ho⟩ := (P.processed.all id).1 (P.offered_of_accessor hp hid)
  exact ho.hasMethod

theorem wellMade (hp : p ∈ P.pending.properties) : P.model.WellMade c p := by
  have hmade := P.processed.assembly.wellMade p hp
  rwa [P.id_before] at hmade

theorem isOverriding?_eq (hp : p ∈ P.pending.properties) : P.model.isOverriding? p = some false :=
  P.plain.isOverriding? rfl fun _ hid => P.hasMethod_of_accessor hp hid

theorem assembly :
    P.model.Assembly P.before (P.before.methodIds.filter P.model.takesPart) P.pending P.own := by
  obtain ⟨own, hassembly, heq⟩ := P.valid.assembly_of_collect? P.listed P.processed.collect
  have hclass := congrArg (fun n : Model => n.class? c) heq
  simp only [Model.class?_putClass_self _ P.listed, Option.some.injEq] at hclass
  obtain rfl : P.own = own := congrArg (·.properties) hclass
  exact hassembly

theorem started_in_order : P.pending.properties.Pairwise fun p q =>
    ∃ id ∈ p.accessors, ∀ id' ∈ q.accessors, id.index < id'.index := by
  rw [List.pairwise_iff_getElem]
  intro i j hi hj hij
  exact P.assembly.started_in_order ((Model.pairwise_methodIds P.before).filter _) hij
    (List.getElem?_eq_getElem hi) (List.getElem?_eq_getElem hj)

variable {L R : List Property}

theorem before_of_split (h : P.pending.properties = L ++ p :: R) (hq : q ∈ L) :
    ∃ id ∈ q.accessors, ∀ id' ∈ p.accessors, id.index < id'.index := by
  have horder := P.started_in_order
  rw [h] at horder
  exact (List.pairwise_append.1 horder).2.2 q hq p List.mem_cons_self

theorem behind_of_split (h : P.pending.properties = L ++ p :: R) (hq : q ∈ R) :
    ∃ id ∈ p.accessors, ∀ id' ∈ q.accessors, id.index < id'.index := by
  have horder := P.started_in_order
  rw [h] at horder
  exact (List.pairwise_cons.1 (List.pairwise_append.1 horder).2.1).1 q hq

theorem notMem_of_split (h : P.pending.properties = L ++ p :: R) : p ∉ L ∧ p ∉ R := by
  refine ⟨fun hp => ?_, fun hp => ?_⟩
  · obtain ⟨id, hid, hlt⟩ := P.before_of_split h hp
    exact Nat.lt_irrefl _ (hlt id hid)
  · obtain ⟨id, hid, hlt⟩ := P.behind_of_split h hp
    exact Nat.lt_irrefl _ (hlt id hid)

theorem eq_of_shared (hp : p ∈ P.pending.properties) (hq : q ∈ P.pending.properties)
    (hid : id ∈ p.accessors) (hid' : id ∈ q.accessors) : p = q := by
  obtain ⟨i, hi, rfl⟩ := List.getElem_of_mem hp
  obtain ⟨j, hj, rfl⟩ := List.getElem_of_mem hq
  have hdisjoint := List.pairwise_iff_getElem.1
    (List.nodup_flatMap.1 P.processed.assembly.nodup_pending).2
  rcases Nat.lt_trichotomy i j with hij | rfl | hij
  · exact (hdisjoint i j hi hj hij hid hid').elim
  · rfl
  · exact (hdisjoint j i hj hi hij hid' hid).elim

/-! ### Verdicts -/

def verdict (p : Property) : Option Property := (P.model.verdict? c p).getD none

/-- The verdicts on those of the properties that are not given up for their names. -/
def judge (l : List Property) : List (Property × Option Property) :=
  (l.filter (! y.dismisses P.model ·)).map fun p => (p, P.verdict p)

@[simp] theorem judge_nil : P.judge [] = [] := rfl

@[simp] theorem judge_append (l l' : List Property) : P.judge (l ++ l') = P.judge l ++ P.judge l' := by
  simp [judge]

theorem judge_cons (l : List Property) (hd : y.dismisses P.model p = false) :
    P.judge (p :: l) = (p, P.verdict p) :: P.judge l := by
  simp [judge, hd]

theorem mem_judge {l : List Property} {v : Property × Option Property} :
    v ∈ P.judge l ↔ v.1 ∈ l ∧ y.dismisses P.model v.1 = false ∧ v.2 = P.verdict v.1 := by
  rw [judge, List.mem_map]
  constructor
  · rintro ⟨p, hp, rfl⟩
    obtain ⟨hp, hd⟩ := List.mem_filter.1 hp
    exact ⟨hp, by simpa using hd, rfl⟩
  · rintro ⟨hp, hd, hv⟩
    exact ⟨v.1, List.mem_filter.2 ⟨hp, by simp [hd]⟩, by rw [← hv]⟩

theorem verdicts_eq : P.verdicts = P.judge P.pending.properties := by
  rw [judge, ← P.processed.pending, List.map_map]
  refine (List.map_id' _).symm.trans (List.map_congr_left fun v hv => ?_)
  simp [verdict, P.processed.verdict v hv]

theorem mem_verdicts {v : Property × Option Property} : v ∈ P.verdicts ↔
    v.1 ∈ P.pending.properties ∧ y.dismisses P.model v.1 = false ∧ v.2 = P.verdict v.1 := by
  rw [verdicts_eq, mem_judge]

theorem verdict?_eq (hp : p ∈ P.pending.properties) : P.model.verdict? c p =
    (P.model.stays? c p).map fun stays => if stays then some (P.model.documented p) else none := by
  have howner : p.owner = c := by
    have hlisted : P.model.class? P.before.id = some P.before := by rw [P.id_before, P.listed]
    obtain ⟨-, hpending⟩ := P.processed.assembly.consistent P.valid hlisted
    exact (hpending p hp).owner.trans P.id_before
  obtain ⟨o, ho⟩ := Model.mergedComment?_total fun id hid => P.hasMethod_of_accessor hp hid
  simp only [Model.verdict?, Model.reshaped?, P.isOverriding?_eq hp, Model.documented, ho,
    Option.bind_eq_bind, Option.bind_some, Bool.false_eq_true, if_false, Option.pure_def,
    Option.getD_some]
  cases P.model.stays? c p with
  | none => rfl
  | some b => cases b <;> simp [← howner]

theorem eq_documented (hp : p ∈ P.pending.properties) (hq : P.verdict p = some q) :
    q = P.model.documented p := by
  rw [verdict, P.verdict?_eq hp] at hq
  cases hb : P.model.stays? c p with
  | none => simp [hb] at hq
  | some b => cases b <;> simp_all

theorem of_kept (hv : (p, some q) ∈ P.verdicts) :
    p ∈ P.pending.properties ∧ q = P.model.documented p := by
  obtain ⟨hp, -, hverdict⟩ := P.mem_verdicts.1 hv
  exact ⟨hp, P.eq_documented hp hverdict.symm⟩

theorem verdict_of_setter (hp : p ∈ P.pending.properties) (hg : p.getter = none) :
    P.verdict p = none := by
  simp [verdict, P.verdict?_eq hp, Model.stays?, hg]

theorem verdict_of_pair (hp : p ∈ P.pending.properties) (hg : p.getter.isSome = true)
    (hs : p.setter.isSome = true) : P.verdict p = some (P.model.documented p) := by
  obtain ⟨g, hg⟩ := Option.isSome_iff_exists.1 hg
  simp [verdict, P.verdict?_eq hp, Model.stays?, hg, hs]

theorem verdict_of_getter (hp : p ∈ P.pending.properties) {g : MethodId} (hg : p.getter = some g)
    (hs : p.setter = none) {b : Bool} (hb : P.model.hasOverloads? c g = some b) :
    P.verdict p = if b then none else some (P.model.documented p) := by
  cases b <;> simp [verdict, P.verdict?_eq hp, Model.stays?, hg, hs, hb]

theorem dismisses_of_setter (hs : p.setter.isSome = true) : y.dismisses P.model p = false := by
  obtain ⟨s, hs⟩ := Option.isSome_iff_exists.1 hs
  cases hg : p.getter <;> simp [Synthesis.dismisses, Property.readsAsAction, hg, hs]

/-! ### Where the members end up -/

theorem after_properties : P.after.properties =
    P.model.documentedOwn P.own P.pending.completed ++ P.verdicts.filterMap (·.2) :=
  Desk.properties_settleAll P.desk P.verdicts

theorem length_after : P.after.methods.length = P.before.methods.length := by
  have hout : P.after.outline = P.before.outline :=
    P.processed.outline_settleAll P.valid P.listed
  simpa [Class.outline] using congrArg (·.methods.length) hout

variable {x : Nat} {f : Method}

theorem offers_of_offered (hf : P.before.methods[x]? = some f)
    (hx : (⟨c, x⟩ : MethodId) ∈ P.offered) : ∃ a, P.model.Offers c ⟨c, x⟩ f a := by
  obtain ⟨f', a, ho⟩ := (P.processed.all _).1 hx
  have hf' := ho.method
  rw [P.method?_eq, hf] at hf'
  obtain rfl := Option.some.inj hf'
  exact ⟨a, ho⟩

theorem desk_method_of_free (hf : P.before.methods[x]? = some f)
    (hx : (⟨c, x⟩ : MethodId) ∉ P.offered) : P.desk.cls.methods[x]? = some f := by
  have hgiven : (⟨c, x⟩ : MethodId) ∉
      (P.pending.properties.filter (y.dismisses P.model)).flatMap (·.accessors) :=
    fun hmem => hx (P.processed.assembly.mem_of_flatMap_filter hmem)
  simp [desk, Synthesis.desk, Class.collected, hf, P.id_before, hx, hgiven]

theorem desk_method_of_dismissed (hf : P.before.methods[x]? = some f)
    (hp : p ∈ P.pending.properties) (hd : y.dismisses P.model p = true)
    (hx : (⟨c, x⟩ : MethodId) ∈ p.accessors) : P.desk.cls.methods[x]? = some f := by
  have hoffered := P.offered_of_accessor hp hx
  have hgiven : (⟨c, x⟩ : MethodId) ∈
      (P.pending.properties.filter (y.dismisses P.model)).flatMap (·.accessors) :=
    List.mem_flatMap.2 ⟨p, List.mem_filter.2 ⟨hp, hd⟩, hx⟩
  obtain ⟨a, ho⟩ := P.offers_of_offered hf hoffered
  have hsame : { f with generation := Generation.generate } = f := by
    rw [← ho.generation]
  simp [desk, Synthesis.desk, Class.collected, hf, P.id_before, hoffered, hgiven, hsame]

theorem desk_method_of_verdict {v : Property × Option Property} (hf : P.before.methods[x]? = some f)
    (hv : v ∈ P.verdicts) (hx : (⟨c, x⟩ : MethodId) ∈ v.1.accessors) :
    P.desk.cls.methods[x]? = some { f with generation := .internal } := by
  obtain ⟨hp, hd, -⟩ := P.mem_verdicts.1 hv
  have hoffered := P.offered_of_accessor hp hx
  have hgiven : (⟨c, x⟩ : MethodId) ∉
      (P.pending.properties.filter (y.dismisses P.model)).flatMap (·.accessors) := by
    intro hmem
    obtain ⟨q, hq, hx'⟩ := List.mem_flatMap.1 hmem
    obtain ⟨hq, hd'⟩ := List.mem_filter.1 hq
    rw [P.eq_of_shared hp hq hx hx', hd'] at hd
    cases hd
  simp [desk, Synthesis.desk, Class.collected, hf, P.id_before, hoffered, hgiven]

theorem exposed_of_free (hf : P.before.methods[x]? = some f)
    (hx : (⟨c, x⟩ : MethodId) ∉ P.offered) :
    (methodPlace c x).Exposed P.desk P.verdicts f (keptNames P.verdicts) := by
  refine ⟨P.id_desk, [], P.verdicts, rfl, P.desk_method_of_free hf hx, ?_, rfl⟩
  rintro _ ⟨⟩ v hv hmem
  exact hx (P.processed.mem_of_verdict hv _ hmem)

theorem exposed_of_dismissed (hf : P.before.methods[x]? = some f)
    (hp : p ∈ P.pending.properties) (hd : y.dismisses P.model p = true)
    (hx : (⟨c, x⟩ : MethodId) ∈ p.accessors) :
    (methodPlace c x).Exposed P.desk P.verdicts f (keptNames P.verdicts) := by
  refine ⟨P.id_desk, [], P.verdicts, rfl, P.desk_method_of_dismissed hf hp hd hx, ?_, rfl⟩
  rintro _ ⟨⟩ v hv hmem
  obtain ⟨hq, hd', -⟩ := P.mem_verdicts.1 hv
  rw [P.eq_of_shared hq hp hmem hx, hd] at hd'
  cases hd'

theorem events_after (x : Nat) : P.after.events[x]? =
    (P.before.events[x]?).map ((eventPlace c x).makeRooms (keptNames P.verdicts)) :=
  Place.get_settleAll_map (P := eventPlace c x) P.id_desk nofun

theorem exposed_event {e : Event} (he : P.before.events[x]? = some e) :
    (eventPlace c x).Exposed P.desk P.verdicts e (keptNames P.verdicts) :=
  ⟨P.id_desk, [], P.verdicts, rfl, he, nofun, rfl⟩

theorem nodup_verdicts : (P.verdicts.flatMap (·.1.accessors)).Nodup := by
  have hsub : (P.verdicts.map (·.1)).Sublist P.pending.properties := by
    rw [P.processed.pending]
    exact List.filter_sublist
  rw [← List.flatMap_map]
  exact P.processed.assembly.nodup_pending.sublist (hsub.flatMap _)

/-- A method that was given back is exposed from then on. -/
theorem exposed_of_dropped {us ws : List (Property × Option Property)}
    (hf : P.before.methods[x]? = some f) (hv : P.verdicts = us ++ (p, none) :: ws)
    (hx : (⟨c, x⟩ : MethodId) ∈ p.accessors) :
    (methodPlace c x).Exposed P.desk P.verdicts f (keptNames ws) := by
  have hnodup := P.nodup_verdicts
  rw [hv, List.flatMap_append, List.flatMap_cons] at hnodup
  obtain ⟨-, hrest, hus⟩ := List.nodup_append.1 hnodup
  obtain ⟨-, -, hws⟩ := List.nodup_append.1 hrest
  have hmem : (p, none) ∈ P.verdicts := by simp [hv]
  have hin : (⟨c, x⟩ : MethodId) ∈ P.offered := P.processed.mem_of_verdict hmem _ hx
  obtain ⟨a, ho⟩ := P.offers_of_offered hf hin
  refine ⟨P.id_desk, us ++ [(p, none)], ws, by simp [hv], ?_, ?_, rfl⟩
  · -- until then it is internal, and has no name to give up
    have hinternal : (methodPlace c x).get (P.desk.settleAll c us).cls =
        some ((methodPlace c x).makeRooms (keptNames us) { f with generation := .internal }) := by
      refine Place.get_settleAll P.id_desk (P.desk_method_of_verdict hf hmem hx) ?_
      rintro _ ⟨⟩ w hw hmem
      exact hus _ (List.mem_flatMap.2 ⟨w, hw, hmem⟩) _ (List.mem_append_left _ hx) rfl
    rw [Place.makeRooms_of_stays _ fun n _ => rfl] at hinternal
    have hsame : { f with generation := Generation.generate } = f := by rw [← ho.generation]
    have hmethod : (P.desk.settleAll c us).cls.methods[x]? =
        some { f with generation := .internal } := hinternal
    change (((P.desk.settleAll c (us ++ [(p, none)])).cls).methods[x]?) = some f
    rw [Desk.settleAll_append]
    simp [Desk.settle, Desk.giveBack, hmethod, P.id_desk, hx, hsame]
  · rintro _ ⟨⟩ w hw hmem
    exact hws _ hx _ (List.mem_flatMap.2 ⟨w, hw, hmem⟩) rfl

theorem method_of_kept (hf : P.before.methods[x]? = some f) (hv : (p, some q) ∈ P.verdicts)
    (hx : (⟨c, x⟩ : MethodId) ∈ p.accessors) :
    P.after.methods[x]? = some { f with generation := .internal } := by
  refine Desk.methods_settleAll (P.desk_method_of_verdict hf hv hx) rfl fun hmem => ?_
  rw [P.id_desk] at hmem
  obtain ⟨w, hw, hreleased⟩ := List.mem_flatMap.1 hmem
  obtain ⟨hp, -, hverdict⟩ := P.mem_verdicts.1 hv
  obtain ⟨hp', -, hverdict'⟩ := P.mem_verdicts.1 hw
  have hsame : w.1 = p := P.eq_of_shared hp' hp (w.1.released_subset w.2 hreleased) hx
  have hkept : w.2 = some (P.model.documented p) := by
    rw [hverdict', hsame, ← (P.of_kept hv).2]
    exact hverdict.symm
  have hnone : p.lost (P.model.documented p) = [] := p.lost_self
  rw [hsame, hkept, Property.released, hnone] at hreleased
  cases hreleased

/-- A method that completed a property of the class is not among the pending ones. -/
theorem method_of_completing (hf : P.before.methods[x]? = some f)
    (hx : (⟨c, x⟩ : MethodId) ∈ P.offered)
    (hnot : ∀ p ∈ P.pending.properties, (⟨c, x⟩ : MethodId) ∉ p.accessors) :
    P.after.methods[x]? = some { f with generation := .internal } := by
  have hgiven : (⟨c, x⟩ : MethodId) ∉
      (P.pending.properties.filter (y.dismisses P.model)).flatMap (·.accessors) := by
    intro hmem
    obtain ⟨p, hp, hid⟩ := List.mem_flatMap.1 hmem
    exact hnot p (List.mem_of_mem_filter hp) hid
  have hdesk : P.desk.cls.methods[x]? = some { f with generation := .internal } := by
    simp [desk, Synthesis.desk, Class.collected, hf, P.id_before, hx, hgiven]
  refine Desk.methods_settleAll hdesk rfl fun hmem => ?_
  rw [P.id_desk] at hmem
  obtain ⟨w, hw, hreleased⟩ := List.mem_flatMap.1 hmem
  exact hnot w.1 (P.mem_verdicts.1 hw).1 (w.1.released_subset w.2 hreleased)

end Pass
end ApiProperties

import ApiProperties.Proofs.Processing
import ApiProperties.Proofs.Traversal

/-!
Whole runs. A run processes every complete class once and keeps the model consistent, so what one
class's processing preserves holds after the run, and every class that has changed is the outcome of
processing it once.
-/

set_option autoImplicit false

namespace ApiProperties

/-- A public, emitted, ordinary method with one parameter. -/
def Method.plainSetter (name : String) (type : QualifiedType) : Method :=
  { plain name .void with parameters := [⟨"value", .regular, type⟩] }

/-- Heuristics, with a dictionary of no words. -/
def Synthesis.withoutVerbs : Synthesis := ⟨true, ⟨[]⟩⟩

namespace Desk
variable {c : ClassId}

theorem settleAll_induction (P : Desk → Prop) {vs : List (Property × Option Property)}
    (step : ∀ v ∈ vs, ∀ d, P d → P (d.settle c v.1 v.2)) {d : Desk} (hd : P d) :
    P (d.settleAll c vs) := by
  induction vs generalizing d with
  | nil => exact hd
  | cons v rest ih =>
    exact ih (fun w hw => step w (List.mem_cons_of_mem v hw)) (step v List.mem_cons_self d hd)

@[simp] theorem settleAll_nil (d : Desk) : d.settleAll c [] = d := rfl

@[simp] theorem settleAll_cons (d : Desk) (v : Property × Option Property)
    (vs : List (Property × Option Property)) :
    d.settleAll c (v :: vs) = (d.settle c v.1 v.2).settleAll c vs := rfl

theorem properties_settle (d : Desk) (p : Property) (v : Option Property) :
    (d.settle c p v).cls.properties = d.cls.properties ++ v.toList := by
  cases v <;> simp [settle, giveBack, commit, Class.addProperty, Class.makeRoom]

/-- The properties that a class gets are those that the verdicts keep, in this order. -/
theorem properties_settleAll (d : Desk) (vs : List (Property × Option Property)) :
    (d.settleAll c vs).cls.properties = d.cls.properties ++ vs.filterMap (·.2) := by
  induction vs generalizing d with
  | nil => simp
  | cons v rest ih =>
    rw [settleAll_cons, ih, properties_settle]
    cases hv : v.2 <;> simp [hv]

end Desk

namespace Model
variable {m : Model} {c : ClassId} {k : Class} {y : Synthesis} {ids : List MethodId} {s : Pending}
  {own : List Property} {vs : List (Property × Option Property)}

theorem Kept.consistent (hm : m.Valid) {p q : Property} (h : m.Kept c p q)
    (hp : p.Consistent m c) : q.Consistent m c := by
  have hrest := h.rest
  have himpl : q.implemented = p.implemented := congrArg (·.implemented) hrest
  refine ⟨congrArg (·.owner) hrest, fun link hl => ?_⟩
  rcases List.mem_append.1 hl with hl | hl
  · rcases h.accessors hl with hl | hb
    · exact hp.links link (List.mem_append_left _ hl)
    · exact hm.hasMethod_of_borrowable hb
  · exact hp.links link (List.mem_append_right _ (himpl ▸ hl))

namespace Processed
variable (h : m.Processed y c k ids s own vs)
include h

theorem owner_of_mem {id : MethodId} (hid : id ∈ ids) : id.owner = c := by
  obtain ⟨f, a, ho⟩ := (h.all id).1 hid
  exact ho.owner

theorem mem_pending {v : Property × Option Property} (hv : v ∈ vs) : v.1 ∈ s.properties := by
  have hmem : v.1 ∈ vs.map (·.1) := List.mem_map_of_mem hv
  rw [h.pending] at hmem
  exact List.mem_of_mem_filter hmem

theorem mem_of_verdict {v : Property × Option Property} (hv : v ∈ vs) :
    ∀ id ∈ v.1.accessors, id ∈ ids :=
  h.assembly.accessors_subset v.1 (h.mem_pending hv)

theorem dismissed_or_settled {p : Property} (hp : p ∈ s.properties) :
    y.dismisses m p = true ∨ ∃ v ∈ vs, v.1 = p := by
  cases hd : y.dismisses m p with
  | true => exact .inl rfl
  | false =>
    have hmem : p ∈ vs.map (·.1) := h.pending ▸ List.mem_filter.2 ⟨hp, by simp [hd]⟩
    exact .inr (List.mem_map.1 hmem)

variable (hm : m.Valid) (hk : m.class? c = some k)
include hm hk

theorem emits {v : Property × Option Property} (hv : v ∈ vs) :
    ∀ id ∈ v.1.accessors, k.Emits id := fun id hid =>
  h.assembly.emits hm hk id (h.mem_of_verdict hv id hid)

theorem outline_settleAll : ((y.desk m k ids s own).settleAll c vs).cls.outline = k.outline :=
  Desk.settleAll_induction (fun d => d.cls.outline = k.outline)
    (fun v hv _ hd => outline_settle hd (h.emits hm hk hv) v.2) (h.assembly.outline_desk hm hk y)

theorem outline_model :
    (m.putClass c ((y.desk m k ids s own).settleAll c vs).cls).outline = m.outline :=
  outline_putClass hk (h.outline_settleAll hm hk)

theorem valid : (m.putClass c ((y.desk m k ids s own).settleAll c vs).cls).Valid := by
  have hkc : k.id = c := (hm.consistent hk).id
  obtain ⟨hown, hpending⟩ := h.assembly.consistent hm (hkc ▸ hk)
  rw [hkc] at hown hpending
  have hout := (h.outline_model hm hk).symm
  refine Valid.congr hout hm fun d kd hd p hp => ?_
  by_cases hcd : c = d
  · subst hcd
    rw [class?_putClass_self _ hk] at hd
    obtain rfl := Option.some.inj hd
    rw [Desk.properties_settleAll, List.mem_append, List.mem_filterMap] at hp
    rcases hp with hp | ⟨v, hv, hq⟩
    · obtain ⟨q, hq, rfl | rfl⟩ := mem_documentedOwn hp
      · exact (hown p hq).congr hout
      · have hq' := hown q hq
        exact (⟨hq'.owner, hq'.links⟩ : (m.documented q).Consistent m c).congr hout
    · exact ((h.kept v hv p hq).consistent hm (hpending v.1 (h.mem_pending hv))).congr hout
  · rw [class?_putClass_ne m _ hcd] at hd
    exact ((hm.consistent hd).properties p hp).congr hout

end Processed

def PropertyFree (m : Model) : Prop := ∀ k ∈ m.classes, k.properties = []

instance (m : Model) : Decidable m.PropertyFree :=
  inferInstanceAs (Decidable (∀ k ∈ m.classes, k.properties = []))

theorem PropertyFree.class (h : m.PropertyFree) (hk : m.class? c = some k) : k.properties = [] :=
  h k (List.mem_of_getElem? hk)

def ofMembers (methods : List Method) (events : List Event) : Model :=
  ⟨"unit", [{ Class.empty 0 "Widget" with methods, events }]⟩

/-- What every processing of a class preserves holds once the classes in `order` are processed. -/
theorem Valid.processAll?_induction (hm : m.Valid) (y : Synthesis)
    (P : Progress → List ClassId → Prop) {order : List ClassId}
    (horder : ∀ c ∈ order, m.IsDefinition c) (start : P (.start m) order)
    (step : ∀ (t : Progress) (c : ClassId) (rest : List ClassId) (k : Class) (ids : List MethodId)
      (s : Pending) (own : List Property) (vs : List (Property × Option Property)),
      P t (c :: rest) → t.model.Valid → t.model.outline = m.outline → t.model.class? c = some k →
      t.model.IsDefinition c → t.model.Processed y c k ids s own vs →
      P (t.followedBy (((y.desk t.model k ids s own).settleAll c vs).progress t.model c)) rest) :
    ∃ t, y.processAll? m order = some t ∧ t.model.Valid ∧ t.model.outline = m.outline ∧ P t [] := by
  obtain ⟨t, hfold, hvalid, hout, -, hP⟩ := foldlM_total
    (f := fun (t : Progress) c => (y.processClass? t.model c).map t.followedBy)
    (fun t rest => t.model.Valid ∧ t.model.outline = m.outline ∧
      (∀ c ∈ rest, m.IsDefinition c) ∧ P t rest)
    (fun t c rest ⟨hvalid, hout, hrest, hP⟩ => by
      have hdef := (isDefinition_congr hout).2 (hrest c List.mem_cons_self)
      obtain ⟨k, hk⟩ := hdef.listed
      obtain ⟨ids, s, own, vs, h, hprocess⟩ := hvalid.processClass?_total hk hdef y
      refine ⟨_, (congrArg (Option.map t.followedBy) hprocess).trans rfl, ?_, ?_,
        fun d hd => hrest d (List.mem_cons_of_mem c hd),
        step t c rest k ids s own vs hP hvalid hout hk hdef h⟩
      · exact h.valid hvalid hk
      · exact (h.outline_model hvalid hk).trans hout)
    (l := order) (s := .start m) ⟨hm, rfl, horder, start⟩
  exact ⟨t, hfold, hvalid, hout, hP⟩

/-- What every processing of a class preserves holds after the run. -/
theorem Valid.run?_induction (hm : m.Valid) (y : Synthesis) (P : Progress → List ClassId → Prop)
    (start : ∀ order : List ClassId, order.Nodup →
      (∀ d, d ∈ order ↔ d < m.classes.length ∧ m.IsDefinition d) → P (.start m) order)
    (step : ∀ (t : Progress) (c : ClassId) (rest : List ClassId) (k : Class) (ids : List MethodId)
      (s : Pending) (own : List Property) (vs : List (Property × Option Property)),
      P t (c :: rest) → t.model.Valid → t.model.outline = m.outline → t.model.class? c = some k →
      t.model.IsDefinition c → t.model.Processed y c k ids s own vs →
      P (t.followedBy (((y.desk t.model k ids s own).settleAll c vs).progress t.model c)) rest) :
    ∃ t, y.run? m = some t ∧ t.model.Valid ∧ t.model.outline = m.outline ∧ P t [] := by
  obtain ⟨order, horder, hnodup, hmem⟩ := hm.visitOrder?_total
  obtain ⟨t, ht, hrest⟩ := hm.processAll?_induction y P (fun c hc => ((hmem c).1 hc).2)
    (start order hnodup hmem) step
  exact ⟨t, by simp [Synthesis.run?, horder, ht], hrest⟩

/-- The class `k` became `k'` when it was processed, in a model that agrees with `m` on everything
but names, tags and other classes' properties. -/
def Treated (m : Model) (y : Synthesis) (c : ClassId) (k k' : Class) : Prop :=
  ∃ m' ids s own vs, m'.Valid ∧ m'.outline = m.outline ∧ m'.IsDefinition c ∧ m'.class? c = some k ∧
    m'.Processed y c k ids s own vs ∧ k' = ((y.desk m' k ids s own).settleAll c vs).cls

/-- What holds while the classes `rest` are still to be processed: these are as they were, and every
other complete class has been treated. -/
structure Running (m : Model) (y : Synthesis) (t : Progress) (rest : List ClassId) : Prop where
  nodup : rest.Nodup
  ahead : ∀ c ∈ rest, t.model.class? c = m.class? c
  classes : ∀ c k', t.model.class? c = some k' →
    (c ∈ rest ∨ ¬ m.IsDefinition c) ∧ m.class? c = some k' ∨
      ∃ k, m.class? c = some k ∧ m.Treated y c k k'

theorem Running.start {y : Synthesis} {order : List ClassId} (hnodup : order.Nodup)
    (hmem : ∀ d, d ∈ order ↔ d < m.classes.length ∧ m.IsDefinition d) :
    m.Running y (.start m) order := by
  refine ⟨hnodup, fun _ _ => rfl, fun c k' hk' => .inl ⟨?_, hk'⟩⟩
  by_cases hc : m.IsDefinition c
  · exact .inl ((hmem c).2 ⟨of_decide_eq_true (hasClass_iff.2 ⟨k', hk'⟩), hc⟩)
  · exact .inr hc

theorem Running.step {t : Progress} {rest : List ClassId} (h : m.Running y t (c :: rest))
    (hvalid : t.model.Valid) (hout : t.model.outline = m.outline) (hk : t.model.class? c = some k)
    (hdef : t.model.IsDefinition c) (hp : t.model.Processed y c k ids s own vs) :
    m.Running y
      (t.followedBy (((y.desk t.model k ids s own).settleAll c vs).progress t.model c)) rest := by
  obtain ⟨hnodup, hahead, hclasses⟩ := h
  obtain ⟨hc, hnodup⟩ := List.nodup_cons.1 hnodup
  refine ⟨hnodup, fun d hd => ?_, fun d k' hk' => ?_⟩
  · have hcd : c ≠ d := fun h => hc (h ▸ hd)
    exact (class?_putClass_ne t.model _ hcd).trans (hahead d (List.mem_cons_of_mem c hd))
  · by_cases hcd : c = d
    · subst hcd
      refine .inr ⟨k, ?_, t.model, ids, s, own, vs, hvalid, hout, hdef, hk, hp, ?_⟩
      · rw [← hahead c List.mem_cons_self, hk]
      · exact Option.some.inj (hk'.symm.trans (class?_putClass_self _ hk))
    · have hd := hclasses d k' ((class?_putClass_ne t.model _ hcd).symm.trans hk')
      refine hd.imp_left fun ⟨hd, hsame⟩ => ⟨hd.imp_left fun hd => ?_, hsame⟩
      exact (List.mem_cons.1 hd).resolve_left (Ne.symm hcd)

/-- A run answers, and treats each complete class just once. -/
theorem Valid.run?_classes (hm : m.Valid) (y : Synthesis) :
    ∃ t, y.run? m = some t ∧ t.model.Valid ∧ t.model.outline = m.outline ∧
      ∀ c k', t.model.class? c = some k' →
        ¬ m.IsDefinition c ∧ m.class? c = some k' ∨
          ∃ k, m.class? c = some k ∧ m.Treated y c k k' := by
  obtain ⟨t, ht, hvalid, hout, hrunning⟩ := hm.run?_induction y (m.Running y)
    (fun _ hnodup hmem => .start hnodup hmem)
    (fun _ _ _ _ _ _ _ _ h hvalid hout hk hdef hp => h.step hvalid hout hk hdef hp)
  refine ⟨t, ht, hvalid, hout, fun c k' hk' => ?_⟩
  refine (hrunning.classes c k' hk').imp_left fun ⟨hc, hsame⟩ => ?_
  exact ⟨hc.resolve_left List.not_mem_nil, hsame⟩

end Model
end ApiProperties

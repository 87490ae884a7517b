import ApiProperties.Proofs.Attachment

/-!
`Pending.collect?` goes through an assembly: it offers every candidate of the class in turn, and
changes nothing of the class but the tags of those that were taken and the properties that were
completed.
-/

set_option autoImplicit false

namespace ApiProperties

/-- The class once these methods were taken in and its properties turned into `own`. -/
def Class.collected (k : Class) (ids : List MethodId) (own : List Property) : Class :=
  { k.tag ids .internal with properties := own }

@[simp] theorem Class.properties_collected (k : Class) (ids : List MethodId)
    (own : List Property) : (k.collected ids own).properties = own := rfl

namespace Model
variable {m : Model} {c : ClassId} {k : Class} {ids : List MethodId} {own : List Property}

theorem method?_collected (hk : m.class? c = some k) (hkc : k.id = c)
    (hids : ∀ id ∈ ids, id.owner = c) (id : MethodId) :
    (m.putClass c (k.collected ids own)).method? id =
      (m.method? id).map fun f => if id ∈ ids then { f with generation := .internal } else f :=
  method?_putClass_tag (k.collected ids own) hk hkc hids rfl id

theorem decisions_collected (hk : m.class? c = some k) (hkc : k.id = c)
    (hids : ∀ id ∈ ids, id.owner = c) (own : List Property) (id : MethodId) :
    ((m.putClass c (k.collected ids own)).method? id).map
        (fun f => (f.name, f.isStatic, f.isOverride)) =
      (m.method? id).map fun f => (f.name, f.isStatic, f.isOverride) :=
  map_method?_putClass_tag (k.collected ids own) hk hkc hids rfl _ (fun _ => rfl) id

/-- An offer is one step of the assembly. -/
theorem Valid.attach?_step (hm : m.Valid) (hk : m.class? c = some k) {s : Pending}
    (h : m.Assembly k ids s own) {id : MethodId} {f : Method} {a : Accessor}
    (ho : m.Offers c id f a) (hid : id ∉ ids) :
    ∃ s' own' slot, s.attach? (m.putClass c (k.collected ids own)) id a =
        some (s', m.putClass c (k.collected (ids ++ [id]) own'), slot) ∧
      m.Assembly k (ids ++ [id]) s' own' := by
  obtain rfl : k.id = c := (hm.consistent hk).id
  have hids : ∀ j ∈ ids, j.owner = k.id := fun j hj => h.owner_of_mem hj
  have hmethod : ∀ j, (m.putClass k.id (k.collected ids own)).method? j =
      (m.method? j).map fun f => if j ∈ ids then { f with generation := .internal } else f :=
    method?_collected hk rfl hids
  have hfm : (m.putClass k.id (k.collected ids own)).method? id = some f := by
    rw [hmethod, ho.method]
    simp [hid]
  have hdec := decisions_collected hk rfl hids own
  have hacc := funext (accepts?_of_methods hdec id a)
  have hcomp := funext (completable?_of_methods hdec id a)
  obtain ⟨hown, hpending⟩ := h.consistent hm hk
  have hlinks : ∀ {p : Property}, p.Consistent m k.id → ∀ j ∈ p.accessors,
      (m.putClass k.id (k.collected ids own)).hasMethod j = true := fun hp j hj => by
    obtain ⟨g, hg⟩ := hasMethod_iff.1 (hp.links j (List.mem_append_left _ hj))
    exact hasMethod_iff.2 ⟨_, by rw [hmethod, hg, Option.map_some]⟩
  have hclass := class?_putClass_self (k.collected ids own) hk
  have hcommitted : (m.putClass k.id (k.collected ids own)).committed s.owner = own := by
    rw [h.owner, committed_of_class? hclass, Class.properties_collected]
  have hretag : ∀ own' : List Property, (m.putClass k.id (k.collected ids own')).retag id .internal =
      m.putClass k.id (k.collected (ids ++ [id]) own') := fun own' => by
    rw [retag_putClass hk (show (k.collected ids own').id = k.id from rfl) ho.owner,
      Class.collected, Class.collected, ← Class.tag_tag_same]
    rfl
  obtain ⟨s', n', slot, hattach, hplaced⟩ := Pending.attach?_total (s := s)
    (by rw [h.owner]; exact hasClass_iff.2 ⟨_, hclass⟩) hfm a
    (fun p hp => hlinks (hown p (hcommitted ▸ hp))) (fun p hp => hlinks (hpending p hp))
  -- what was decided on the way was decided on `m`
  cases hplaced with
  | @complete i p hp hc hi =>
    rw [hcomp] at hc hi
    rw [hcommitted] at hp hi
    refine ⟨_, own.modify i (·.attach id f a), .existing i, ?_, .complete h ho hid hp hc hi⟩
    have hmod : (k.collected ids own).modifyProperty i (·.attach id f a) =
        k.collected ids (own.modify i (·.attach id f a)) := rfl
    rw [hattach, h.owner, modifyClass_putClass, hmod, hretag]
  | join hn hp ha hi =>
    rw [hcommitted, hcomp] at hn
    rw [hacc] at ha hi
    exact ⟨_, own, _, by rw [hattach, hretag], .join h ho hid hn hp ha hi⟩
  | create hn hn' =>
    rw [hcommitted, hcomp] at hn
    rw [hacc] at hn'
    exact ⟨_, own, _, by rw [hattach, hretag, h.owner], .create h ho hid hn hn'⟩

theorem Valid.offer?_step (hm : m.Valid) (hk : m.class? c = some k) {s : Pending}
    (h : m.Assembly k ids s own) {id : MethodId} {f : Method} {a : Accessor}
    (ho : m.Offers c id f a) (hid : id ∉ ids) :
    ∃ s' own', s.offer? (m.putClass c (k.collected ids own)) id =
        some (s', m.putClass c (k.collected (ids ++ [id]) own')) ∧
      m.Assembly k (ids ++ [id]) s' own' := by
  obtain ⟨s', own', slot, hattach, h'⟩ := hm.attach?_step hk h ho hid
  have hkc : k.id = c := (hm.consistent hk).id
  have hfm : (m.putClass c (k.collected ids own)).method? id = some f := by
    rw [method?_collected hk hkc fun j hj => (h.owner_of_mem hj).trans hkc, ho.method]
    simp [hid]
  exact ⟨s', own', by simp [Pending.offer?, hfm, ho.accessor, hattach], h'⟩

theorem Valid.mem_methodIds (hm : m.Valid) (hk : m.class? c = some k) {id : MethodId} :
    id ∈ k.methodIds ↔ id.owner = c ∧ ∃ f, m.method? id = some f := by
  obtain rfl : k.id = c := (hm.consistent hk).id
  obtain ⟨o, i⟩ := id
  simp only [Class.methodIds, List.mem_map, List.mem_range, MethodId.mk.injEq]
  constructor
  · rintro ⟨j, hj, rfl, rfl⟩
    exact ⟨rfl, k.methods[j], by simp [method?, hk, hj]⟩
  · rintro ⟨rfl, f, hf⟩
    rw [method?, hk, Option.bind_some] at hf
    exact ⟨i, (List.getElem?_eq_some_iff.1 hf).1, rfl, rfl⟩

/-- What holds while the candidates `rest` are still to be offered. -/
structure Collecting (m : Model) (c : ClassId) (k : Class) (ids : List MethodId)
    (own : List Property) (st : Pending × Model) (rest : List MethodId) : Prop where
  model : st.2 = m.putClass c (k.collected ids own)
  assembly : m.Assembly k ids st.1 own
  nodup : rest.Nodup
  fresh : ∀ id ∈ rest, id ∉ ids
  candidate : ∀ id ∈ rest, id.owner = c ∧ ∃ f, m.method? id = some f ∧ f.isCandidate = true
  all : ∀ id f a, m.Offers c id f a → id ∈ ids ∨ id ∈ rest

theorem Collecting.step (hm : m.Valid) (hk : m.class? c = some k) {st : Pending × Model}
    {id : MethodId} {rest : List MethodId} (h : m.Collecting c k ids own st (id :: rest)) :
    ∃ st', st.1.offer? st.2 id = some st' ∧
      ∃ ids' own', m.Collecting c k ids' own' st' rest ∧ ids'.Sublist (ids ++ [id]) := by
  obtain ⟨s, m'⟩ := st
  obtain ⟨hm', hassembly, hnodup, hfresh, hcandidate, hall⟩ := h
  obtain rfl : m' = m.putClass c (k.collected ids own) := hm'
  obtain ⟨hid, hnodup⟩ := List.nodup_cons.1 hnodup
  obtain ⟨howner, f, hf, hcand⟩ := hcandidate id List.mem_cons_self
  have hkc : k.id = c := (hm.consistent hk).id
  cases ha : f.accessor? with
  | some a =>
    obtain ⟨s', own', hoffer, h'⟩ :=
      hm.offer?_step hk hassembly ⟨howner, hf, hcand, ha⟩ (hfresh id List.mem_cons_self)
    refine ⟨_, hoffer, ids ++ [id], own', ⟨rfl, h', hnodup, fun j hj hmem => ?_, fun j hj =>
      hcandidate j (List.mem_cons_of_mem id hj), fun j g b hj => ?_⟩, .refl _⟩
    · rcases List.mem_append.1 hmem with hmem | hmem
      · exact hfresh j (List.mem_cons_of_mem id hj) hmem
      · exact hid (List.mem_singleton.1 hmem ▸ hj)
    · rcases hall j g b hj with hmem | hmem
      · exact .inl (List.mem_append_left _ hmem)
      · rcases List.mem_cons.1 hmem with rfl | hmem
        · exact .inl (List.mem_append_right _ (List.mem_singleton.2 rfl))
        · exact .inr hmem
  | none =>
    have hfm : (m.putClass c (k.collected ids own)).method? id = some f := by
      rw [method?_collected hk hkc fun j hj => (hassembly.owner_of_mem hj).trans hkc, hf]
      simp [hfresh id List.mem_cons_self]
    refine ⟨_, by simp [Pending.offer?, hfm, ha], ids, own, ⟨rfl, hassembly, hnodup, fun j hj =>
      hfresh j (List.mem_cons_of_mem id hj), fun j hj => hcandidate j (List.mem_cons_of_mem id hj),
      fun j g b hj => ?_⟩, List.sublist_append_left _ _⟩
    rcases hall j g b hj with hmem | hmem
    · exact .inl hmem
    · rcases List.mem_cons.1 hmem with rfl | hmem
      · obtain rfl : f = g := Option.some.inj (hf.symm.trans hj.method)
        have := hj.accessor
        simp [ha] at this
      · exact .inr hmem

/-- On a consistent model the candidates are a plain filter of the class's methods. -/
theorem Valid.candidates?_eq_some (hm : m.Valid) (hk : m.class? c = some k) :
    Pending.candidates? m c =
      some (k.methodIds.filter fun id => ((m.method? id).map (·.isCandidate)).getD false) := by
  simp only [Pending.candidates?, hk, Option.bind_eq_bind, Option.bind_some]
  refine filterM_eq_some fun id hid => ?_
  obtain ⟨-, f, hf⟩ := (hm.mem_methodIds hk).1 hid
  simp [hf]

/-- What `collect?` makes pending has been assembled from every candidate that offers something, in
the order of declaration. -/
theorem Valid.collect?_total (hm : m.Valid) (hk : m.class? c = some k) :
    ∃ ids s own, Pending.collect? m c = some (s, m.putClass c (k.collected ids own)) ∧
      m.Assembly k ids s own ∧ ids.Sublist k.methodIds ∧
      ∀ id, id ∈ ids ↔ ∃ f a, m.Offers c id f a := by
  have hkc : k.id = c := (hm.consistent hk).id
  let candidate (id : MethodId) : Bool := ((m.method? id).map (·.isCandidate)).getD false
  have hmem : ∀ id, id ∈ k.methodIds ↔ id.owner = c ∧ ∃ f, m.method? id = some f :=
    fun id => hm.mem_methodIds hk
  have hcandidates : Pending.candidates? m c = some (k.methodIds.filter candidate) :=
    hm.candidates?_eq_some hk
  have hstart : m.Collecting c k [] k.properties (.empty c, m) (k.methodIds.filter candidate) := by
    refine ⟨?_, hkc ▸ .start, ?_, by simp, fun id hid => ?_, fun id f a ho => .inr ?_⟩
    · rw [Class.collected, Class.tag_nil, putClass_self hk]
    · refine ((List.nodup_range).map fun i j hij => ?_).filter _
      exact (MethodId.mk.inj hij).2
    · obtain ⟨hid, hc⟩ := List.mem_filter.1 hid
      obtain ⟨howner, f, hf⟩ := (hmem id).1 hid
      exact ⟨howner, f, hf, by simpa [candidate, hf] using hc⟩
    · exact List.mem_filter.2 ⟨(hmem id).2 ⟨ho.owner, f, ho.method⟩, by
        simp [candidate, ho.method, ho.candidate]⟩
  obtain ⟨⟨s, m'⟩, hfold, ids, own, h, hsub⟩ := foldlM_total
    (f := fun (st : Pending × Model) id => st.1.offer? st.2 id)
    (fun st rest => ∃ ids own, m.Collecting c k ids own st rest ∧
      (ids ++ rest).Sublist k.methodIds)
    (fun st id rest ⟨ids, own, h, hsub⟩ => by
      obtain ⟨st', hoffer, ids', own', h', hstep⟩ := h.step hm hk
      refine ⟨st', hoffer, ids', own', h', (hstep.append_right rest).trans ?_⟩
      rwa [List.append_assoc])
    ⟨[], k.properties, hstart, by simp⟩
  refine ⟨ids, s, own, ?_, h.assembly, by simpa using hsub,
    fun id => ⟨fun hid => hkc ▸ h.assembly.offers id hid, ?_⟩⟩
  · simp only [Pending.collect?, hcandidates, Option.bind_eq_bind, Option.bind_some]
    exact hfold.trans (by rw [← h.model])
  · rintro ⟨f, a, ho⟩
    simpa using h.all id f a ho

/-- The method is offered when its class is processed. -/
def takesPart (m : Model) (id : MethodId) : Bool :=
  ((m.method? id).map fun f => f.isCandidate && f.accessor?.isSome).getD false

theorem takesPart_iff {id : MethodId} : m.takesPart id = true ↔ ∃ f a, m.Offers id.owner id f a := by
  constructor
  · intro h
    cases hf : m.method? id with
    | none => simp [takesPart, hf] at h
    | some f =>
      simp only [takesPart, hf, Option.map_some, Option.getD_some, Bool.and_eq_true,
        Option.isSome_iff_exists] at h
      obtain ⟨hc, a, ha⟩ := h
      exact ⟨f, a, rfl, hf, hc, ha⟩
  · rintro ⟨f, a, ho⟩
    simp [takesPart, ho.method, ho.candidate, ho.accessor]

theorem takesPart_congr {m' : Model} {id : MethodId} (h : m'.method? id = m.method? id) :
    m'.takesPart id = m.takesPart id := by
  rw [takesPart, takesPart, h]

theorem pairwise_methodIds (k : Class) : k.methodIds.Pairwise (·.index < ·.index) :=
  List.pairwise_map.2 List.pairwise_lt_range

theorem nodup_methodIds (k : Class) : k.methodIds.Nodup := by
  apply (pairwise_methodIds k).imp
  intro i j hlt heq
  subst heq
  exact Nat.lt_irrefl i.index hlt

/-- What is pending is assembled in the order of declaration. -/
theorem Valid.assembly_of_collect? (hm : m.Valid) (hk : m.class? c = some k) {s : Pending}
    {n : Model} (h : Pending.collect? m c = some (s, n)) :
    ∃ own, m.Assembly k (k.methodIds.filter m.takesPart) s own ∧
      n = m.putClass c (k.collected (k.methodIds.filter m.takesPart) own) := by
  obtain ⟨ids, s', own, hcollect, hassembly, hsub, hall⟩ := hm.collect?_total hk
  obtain ⟨rfl, rfl⟩ := Prod.mk.inj (Option.some.inj (hcollect.symm.trans h))
  -- of the class's methods, in their order, just those that offer something
  have hmem : ∀ id ∈ k.methodIds, id ∈ ids ↔ m.takesPart id = true := fun id hid => by
    rw [hall, takesPart_iff, ((hm.mem_methodIds hk).1 hid).1]
  have hperm : ids.Perm (k.methodIds.filter m.takesPart) := by
    refine (List.perm_ext_iff_of_nodup hassembly.nodup ((nodup_methodIds k).filter _)).2
      fun id => ?_
    rw [List.mem_filter]
    exact ⟨fun hid => ⟨hsub.subset hid, (hmem id (hsub.subset hid)).1 hid⟩,
      fun ⟨hid, htakes⟩ => (hmem id hid).2 htakes⟩
  have hfilter := hsub.filter m.takesPart
  rw [List.filter_eq_self.2 fun id hid => (hmem id (hsub.subset hid)).1 hid] at hfilter
  obtain rfl := hfilter.eq_of_length hperm.length_eq
  exact ⟨own, hassembly, rfl⟩

end Model
end ApiProperties

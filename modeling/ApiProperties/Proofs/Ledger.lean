import Mathlib.Data.List.Nodup
import ApiProperties.Proofs.Exposure
import ApiProperties.Proofs.NameClash
import ApiProperties.Proofs.Provenance

/-!
Which member each record of a run is about. The records themselves do not say so, since members can
share a name and classes can, too. A `Ledger` is the list of the records, each with its member and the
property for which the member made room. It tells what became of a model if the records of every
member lead from the name that the member had to the name that it has.
-/

set_option autoImplicit false

namespace ApiProperties

/-- A method or an event, by its position in its class. -/
structure Member where
  owner : ClassId
  kind : MemberKind
  index : Nat
  deriving DecidableEq, Repr

def MemberKind.displacedName : MemberKind → String → String
  | .method => displacedMethodName
  | .event => displacedEventName

theorem MemberKind.length_displacedName (κ : MemberKind) (n : String) :
    n.length < (κ.displacedName n).length := by
  cases κ with
  | method => exact length_displacedMethodName n
  | event => exact length_displacedEventName n

/-! ### Names of members -/

namespace Class

def nameOf? (k : Class) : MemberKind → Nat → Option String
  | .method, i => (k.methods[i]?).map (·.name)
  | .event, i => (k.events[i]?).map (·.name)

def isInTheWay (n : String) (k : Class) : MemberKind → Nat → Bool
  | .method, i => (k.methods[i]?).any (·.clashesWith n)
  | .event, i => (k.events[i]?).any (·.clashesWith n)

/-- The members that a property of this name displaces, in the order of their records. -/
def inTheWay (n : String) (k : Class) : List (MemberKind × Nat) :=
  (k.methods.findIdxs (·.clashesWith n)).map (.method, ·) ++
    (k.events.findIdxs (·.clashesWith n)).map (.event, ·)

variable {k : Class} {n : String} {κ : MemberKind} {i : Nat}

theorem mem_inTheWay : (κ, i) ∈ k.inTheWay n ↔ k.isInTheWay n κ i = true := by
  have hmem : ∀ {α : Type} (l : List α) (p : α → Bool),
      i ∈ l.findIdxs p ↔ (l[i]?).any p = true := fun l p => by
    rw [List.mem_findIdxs_iff_exists_getElem_pos]
    by_cases hi : i < l.length <;> simp [hi]
  cases κ with
  | method => simpa [inTheWay, isInTheWay] using hmem k.methods (·.clashesWith n)
  | event => simpa [inTheWay, isInTheWay] using hmem k.events (·.clashesWith n)

theorem nodup_inTheWay : (k.inTheWay n).Nodup := by
  refine List.nodup_append.2 ⟨?_, ?_, ?_⟩
  · exact List.nodup_findIdxs.map fun _ _ h => (Prod.mk.inj h).2
  · exact List.nodup_findIdxs.map fun _ _ h => (Prod.mk.inj h).2
  · rintro a ha b hb rfl
    obtain ⟨_, -, rfl⟩ := List.mem_map.1 ha
    obtain ⟨_, -, hb⟩ := List.mem_map.1 hb
    cases (Prod.mk.inj hb).1

theorem nameOf?_of_isInTheWay (h : k.isInTheWay n κ i = true) : k.nameOf? κ i = some n := by
  cases κ with
  | method =>
    obtain ⟨f, hf, hclash⟩ := (Option.any_eq_true _ _).1 h
    simp [nameOf?, hf, (Method.clashesWith_iff.1 hclash).2]
  | event =>
    obtain ⟨e, he, hclash⟩ := (Option.any_eq_true _ _).1 h
    have hname : e.name = n := by simpa [Event.clashesWith] using hclash
    simp [nameOf?, he, hname]

/-- As `displaced` lists the same record for each of them, only their number and order matter. -/
theorem displaced_eq : k.displaced n =
    (k.inTheWay n).map fun x => ⟨k.name, x.1, n, x.1.displacedName n⟩ := by
  have hmap : ∀ {α : Type} (l : List α) (p : α → Bool) (f : α → RenameRecord) (r : RenameRecord),
      (∀ x, p x = true → f x = r) → (l.filter p).map f = (l.findIdxs p).map fun _ => r := by
    intro α l p f r hf
    rw [List.map_congr_left (g := fun _ => r) fun x hx => hf x (List.mem_filter.1 hx).2,
      List.map_const', List.map_const', List.length_findIdxs, List.countP_eq_length_filter]
  have hmethods := hmap k.methods (·.clashesWith n)
    (fun f => ⟨k.name, .method, f.name, displacedMethodName n⟩)
    ⟨k.name, .method, n, displacedMethodName n⟩ fun f hf => by rw [(Method.clashesWith_iff.1 hf).2]
  have hevents := hmap k.events (·.clashesWith n)
    (fun e => ⟨k.name, .event, e.name, displacedEventName n⟩)
    ⟨k.name, .event, n, displacedEventName n⟩ fun e he => by
      rw [show e.name = n by simpa [Event.clashesWith] using he]
  rw [displaced, inTheWay, hmethods, hevents, List.map_append, List.map_map, List.map_map]
  rfl

@[simp] theorem nameOf?_tag (ids : List MethodId) (g : Generation) :
    (k.tag ids g).nameOf? κ i = k.nameOf? κ i := by
  cases κ with
  | event => rfl
  | method =>
    simp only [nameOf?, getElem?_tag, Option.map_map]
    congr 1
    funext f
    by_cases h : (⟨k.id, i⟩ : MethodId) ∈ ids <;> simp [h]

@[simp] theorem nameOf?_collected (ids : List MethodId) (own : List Property) :
    (k.collected ids own).nameOf? κ i = k.nameOf? κ i := by
  refine Eq.trans ?_ (nameOf?_tag ids .internal)
  cases κ <;> rfl

@[simp] theorem nameOf?_addProperty (p : Property) :
    (k.addProperty p).nameOf? κ i = k.nameOf? κ i := by
  cases κ <;> rfl

theorem nameOf?_makeRoom : (k.makeRoom n).nameOf? κ i =
    (k.nameOf? κ i).map fun old => if k.isInTheWay n κ i then κ.displacedName n else old := by
  cases κ with
  | method =>
    cases hf : k.methods[i]? with
    | none => simp [nameOf?, makeRoom, hf]
    | some f =>
      simp [nameOf?, makeRoom, isInTheWay, hf, Method.name_makeRoom, Method.clashesWith,
        MemberKind.displacedName]
  | event =>
    cases he : k.events[i]? with
    | none => simp [nameOf?, makeRoom, he]
    | some e =>
      simp [nameOf?, makeRoom, isInTheWay, he, Event.name_makeRoom, Event.clashesWith,
        MemberKind.displacedName]

end Class

namespace Model

def nameOf? (m : Model) (μ : Member) : Option String :=
  (m.class? μ.owner).bind (·.nameOf? μ.kind μ.index)

variable {m : Model} {c : ClassId} {k k₀ : Class} {μ : Member}

theorem nameOf?_method (i : Nat) :
    m.nameOf? ⟨c, .method, i⟩ = (m.method? ⟨c, i⟩).map (·.name) := by
  cases hk : m.class? c <;> simp [nameOf?, Class.nameOf?, method?, hk]

theorem nameOf?_putClass_self (hk₀ : m.class? c = some k₀) (h : μ.owner = c) :
    (m.putClass c k).nameOf? μ = k.nameOf? μ.kind μ.index := by
  rw [nameOf?, h, class?_putClass_self k hk₀, Option.bind_some]

theorem nameOf?_putClass_ne (h : μ.owner ≠ c) : (m.putClass c k).nameOf? μ = m.nameOf? μ := by
  rw [nameOf?, nameOf?, class?_putClass_ne m k h.symm]

theorem isSome_nameOf?_putClass {k' : Class} (hk₀ : m.class? c = some k₀)
    (h : ∀ κ i, (k'.nameOf? κ i).isSome = (k.nameOf? κ i).isSome) (μ : Member) :
    ((m.putClass c k').nameOf? μ).isSome = ((m.putClass c k).nameOf? μ).isSome := by
  by_cases hμ : μ.owner = c
  · rw [nameOf?_putClass_self hk₀ hμ, nameOf?_putClass_self hk₀ hμ, h]
  · rw [nameOf?_putClass_ne hμ, nameOf?_putClass_ne hμ]

end Model

/-- A record, the member that it is about, and the position of the property in its class. -/
structure Ledger.Entry where
  member : Member
  property : Nat
  record : RenameRecord
  deriving DecidableEq, Repr

namespace Ledger.Entry

/-- As the record says, the member is one of `m` that has made room for the property. -/
structure MadeRoom (m : Model) (e : Entry) : Prop where
  listed : (m.nameOf? e.member).isSome = true
  named : ∃ k p, m.class? e.member.owner = some k ∧ k.properties[e.property]? = some p ∧
    e.record.oldName = p.name
  newName : e.record.newName = e.member.kind.displacedName e.record.oldName

namespace MadeRoom
variable {m : Model} {c : ClassId} {k k' k₀ : Class} {e e' : Entry}

theorem length_lt (h : e.MadeRoom m) : e.record.oldName.length < e.record.newName.length := by
  rw [h.newName]
  exact e.member.kind.length_displacedName e.record.oldName

theorem oldName_eq (h : e.MadeRoom m) (h' : e'.MadeRoom m)
    (howner : e.member.owner = e'.member.owner) (hproperty : e.property = e'.property) :
    e.record.oldName = e'.record.oldName := by
  obtain ⟨k, p, hk, hp, hold⟩ := h.named
  obtain ⟨k', p', hk', hp', hold'⟩ := h'.named
  rw [howner] at hk
  obtain rfl := Option.some.inj (hk.symm.trans hk')
  rw [hproperty] at hp
  obtain rfl := Option.some.inj (hp.symm.trans hp')
  rw [hold, hold']

/-- It matters only which members and properties the class has. -/
theorem putClass (h : e.MadeRoom (m.putClass c k)) (hk₀ : m.class? c = some k₀)
    (hnames : ∀ κ i, (k'.nameOf? κ i).isSome = (k.nameOf? κ i).isSome)
    (hprops : k.properties <+: k'.properties) : e.MadeRoom (m.putClass c k') := by
  obtain ⟨hlisted, ⟨k₁, p, hk₁, hp, hold⟩, hnew⟩ := h
  refine ⟨(Model.isSome_nameOf?_putClass hk₀ hnames e.member).trans hlisted, ?_, hnew⟩
  by_cases howner : e.member.owner = c
  · rw [howner, Model.class?_putClass_self k hk₀] at hk₁
    obtain rfl := Option.some.inj hk₁
    obtain ⟨rest, hrest⟩ := hprops
    have hlt := (List.getElem?_eq_some_iff.1 hp).1
    exact ⟨k', p, by rw [howner, Model.class?_putClass_self k' hk₀],
      by rw [← hrest, List.getElem?_append_left hlt, hp], hold⟩
  · rw [Model.class?_putClass_ne m k (Ne.symm howner)] at hk₁
    exact ⟨k₁, p, by rw [Model.class?_putClass_ne m k' (Ne.symm howner), hk₁], hp, hold⟩

end MadeRoom
end Ledger.Entry

/-! ### Records that lead from name to name -/

/-- The records are about a member of this kind in a class of this name. The first one starts from
the one name, each other one from where the one before arrives, and the last one arrives at the
other name. -/
inductive Leads (className : String) (κ : MemberKind) : String → List RenameRecord → String → Prop
  | refl (n : String) : Leads className κ n [] n
  | step {r : RenameRecord} {rs : List RenameRecord} {n : String} (hclass : r.className = className)
      (hmember : r.member = κ) (h : Leads className κ r.newName rs n) :
      Leads className κ r.oldName (r :: rs) n

theorem Leads.trans {className : String} {κ : MemberKind} {n₁ n₂ n₃ : String}
    {rs rs' : List RenameRecord} (h : Leads className κ n₁ rs n₂)
    (h' : Leads className κ n₂ rs' n₃) : Leads className κ n₁ (rs ++ rs') n₃ := by
  induction h with
  | refl => exact h'
  | step hclass hmember _ ih => exact .step hclass hmember (ih h')

section Growth
variable {className : String} {κ : MemberKind} {n n' : String} {rs : List RenameRecord}

/-- If every record is one of a longer name, the name grows with each of them. -/
theorem Leads.length_le (h : Leads className κ n rs n')
    (hgrow : ∀ r ∈ rs, r.oldName.length < r.newName.length) :
    n.length + rs.length ≤ n'.length := by
  induction h with
  | refl => exact Nat.le_refl _
  | @step r rs n _ _ _ ih =>
    have hr := hgrow r List.mem_cons_self
    have hrest := ih fun r' hr' => hgrow r' (List.mem_cons_of_mem r hr')
    rw [List.length_cons]
    omega

theorem Leads.le_oldName (h : Leads className κ n rs n')
    (hgrow : ∀ r ∈ rs, r.oldName.length < r.newName.length) :
    ∀ r ∈ rs, n.length ≤ r.oldName.length := by
  induction h with
  | refl => simp
  | @step r rs n _ _ _ ih =>
    have hr := hgrow r List.mem_cons_self
    have hrest := ih fun r' hr' => hgrow r' (List.mem_cons_of_mem r hr')
    refine List.forall_mem_cons.2 ⟨Nat.le_refl _, fun r' hr' => ?_⟩
    exact (Nat.le_of_lt hr).trans (hrest r' hr')

theorem Leads.pairwise (h : Leads className κ n rs n')
    (hgrow : ∀ r ∈ rs, r.oldName.length < r.newName.length) :
    rs.Pairwise fun r r' => r.oldName.length < r'.oldName.length := by
  induction h with
  | refl => exact .nil
  | @step r rs n _ _ h ih =>
    have hr := hgrow r List.mem_cons_self
    have hrest : ∀ r' ∈ rs, r'.oldName.length < r'.newName.length := fun r' hr' =>
      hgrow r' (List.mem_cons_of_mem r hr')
    exact .cons (fun r' hr' => Nat.lt_of_lt_of_le hr (h.le_oldName hrest r' hr')) (ih hrest)

end Growth

abbrev Ledger := List Ledger.Entry

namespace Ledger
variable {l l' : Ledger} {μ : Member}

/-- The records about one member, in the order in which they were made. -/
def of (l : Ledger) (μ : Member) : List RenameRecord := (l.filter (·.member == μ)).map (·.record)

@[simp] theorem of_append : of (l ++ l') μ = of l μ ++ of l' μ := by
  simp [of]

theorem mem_of {r : RenameRecord} : r ∈ l.of μ ↔ ∃ e ∈ l, e.member = μ ∧ e.record = r := by
  simp [of, and_assoc]

/-- Entries of different members need not be compared. -/
theorem pairwise_of_members {R : Entry → Entry → Prop}
    (hne : ∀ e e' : Entry, e.member ≠ e'.member → R e e')
    (h : ∀ μ, (l.filter (·.member == μ)).Pairwise R) : l.Pairwise R := by
  induction l with
  | nil => exact .nil
  | cons e l ih =>
    refine .cons (fun e' he' => ?_) (ih fun μ => ?_)
    · by_cases hmember : e.member = e'.member
      · have hall := h e.member
        rw [List.filter_cons_of_pos (by simp)] at hall
        exact List.rel_of_pairwise_cons hall (List.mem_filter.2 ⟨he', by simp [hmember]⟩)
      · exact hne e e' hmember
    · exact (h μ).sublist ((List.sublist_cons_self e l).filter _)

/-- The way from `m` to `m'` is on record: the members are the same, the records of each lead from
its name in `m` to its name in `m'`, and the properties of a class come in the order in which it
lists them. -/
structure Tells (l : Ledger) (m m' : Model) : Prop where
  members : ∀ μ, (m'.nameOf? μ).isSome = (m.nameOf? μ).isSome
  names : ∀ μ k n n', m.class? μ.owner = some k → m.nameOf? μ = some n → m'.nameOf? μ = some n' →
    Leads k.name μ.kind n (l.of μ) n'
  made : ∀ e ∈ l, e.MadeRoom m'
  order : l.Pairwise fun e e' => e.member.owner = e'.member.owner → e.property ≤ e'.property

theorem Tells.start (m : Model) : Tells [] m m := by
  refine ⟨fun _ => rfl, fun μ k n n' _ hn hn' => ?_, by simp, .nil⟩
  obtain rfl := Option.some.inj (hn.symm.trans hn')
  exact .refl n

namespace Tells
variable {m m' : Model} (h : l.Tells m m')
include h

theorem grows (μ : Member) : ∀ r ∈ l.of μ, r.oldName.length < r.newName.length := fun r hr => by
  obtain ⟨e, he, -, rfl⟩ := mem_of.1 hr
  exact (h.made e he).length_lt

/-- A member without records is one that has kept its name. -/
theorem of_eq_nil_iff {n n' : String} (hn : m.nameOf? μ = some n) (hn' : m'.nameOf? μ = some n') :
    l.of μ = [] ↔ n' = n := by
  obtain ⟨k, hk, -⟩ := Option.bind_eq_some_iff.1 hn
  have hleads := h.names μ k n n' hk hn hn'
  refine ⟨fun hnil => ?_, ?_⟩
  · rw [hnil] at hleads
    cases hleads
    rfl
  · rintro rfl
    have hlen := hleads.length_le (h.grows μ)
    exact List.length_eq_zero_iff.1 (by omega)

theorem exists_names {e : Entry} (he : e ∈ l) :
    ∃ n n', m.nameOf? e.member = some n ∧ m'.nameOf? e.member = some n' := by
  have hlisted := (h.made e he).listed
  obtain ⟨n', hn'⟩ := Option.isSome_iff_exists.1 hlisted
  obtain ⟨n, hn⟩ := Option.isSome_iff_exists.1 ((h.members e.member).symm.trans hlisted)
  exact ⟨n, n', hn, hn'⟩

theorem pairwise_oldName (μ : Member) : (l.filter (·.member == μ)).Pairwise fun e e' =>
    e.record.oldName.length < e'.record.oldName.length := by
  cases hlist : l.filter (·.member == μ) with
  | nil => exact .nil
  | cons e es =>
    obtain ⟨he, hμ⟩ := List.mem_filter.1 (hlist ▸ List.mem_cons_self : e ∈ l.filter _)
    obtain rfl : e.member = μ := by simpa using hμ
    obtain ⟨n, n', hn, hn'⟩ := h.exists_names he
    obtain ⟨k, hk, -⟩ := Option.bind_eq_some_iff.1 hn
    rw [← hlist]
    have hpairwise := (h.names _ k n n' hk hn hn').pairwise (h.grows _)
    exact (List.pairwise_map (f := Entry.record)).1 hpairwise

/-- No member makes room for a property twice. -/
theorem nodup_steps : (l.map fun e => (e.member, e.property)).Nodup := by
  refine List.pairwise_map.2 (pairwise_of_members (fun e e' hne heq => ?_) fun μ => ?_)
  · exact hne (Prod.mk.inj heq).1
  · refine (h.pairwise_oldName μ).imp_of_mem fun {e e'} he he' hlt heq => ?_
    obtain ⟨hmember, hproperty⟩ := Prod.mk.inj heq
    have hold := (h.made e (List.mem_of_mem_filter he)).oldName_eq
      (h.made e' (List.mem_of_mem_filter he')) (by rw [hmember]) hproperty
    rw [hold] at hlt
    exact Nat.lt_irrefl _ hlt

end Tells
end Ledger

/-! ### The records that one property causes -/

namespace Class
variable {k : Class} {c : ClassId} {n : String} {κ : MemberKind} {i : Nat} {μ : Member}

/-- `displaced` as entries, when the property is the next one. -/
def displacedLedger (c : ClassId) (n : String) (k : Class) : Ledger :=
  (k.inTheWay n).map fun x =>
    ⟨⟨c, x.1, x.2⟩, k.properties.length, ⟨k.name, x.1, n, x.1.displacedName n⟩⟩

theorem map_displacedLedger : (k.displacedLedger c n).map (·.record) = k.displaced n := by
  rw [displacedLedger, List.map_map, displaced_eq]
  rfl

theorem of_displacedLedger_ne (h : μ.owner ≠ c) : (k.displacedLedger c n).of μ = [] := by
  have hnone : (k.displacedLedger c n).filter (·.1 == μ) = [] := by
    refine List.filter_eq_nil_iff.2 fun e he => ?_
    obtain ⟨x, -, rfl⟩ := List.mem_map.1 he
    rw [beq_iff_eq]
    rintro rfl
    exact h rfl
  rw [Ledger.of, hnone, List.map_nil]

theorem of_displacedLedger : (k.displacedLedger c n).of ⟨c, κ, i⟩ =
    if k.isInTheWay n κ i then [⟨k.name, κ, n, κ.displacedName n⟩] else [] := by
  have hsame : (fun e : Ledger.Entry => e.member == ⟨c, κ, i⟩) ∘ (fun x : MemberKind × Nat =>
      ⟨⟨c, x.1, x.2⟩, k.properties.length, ⟨k.name, x.1, n, x.1.displacedName n⟩⟩) =
        fun x => x == (κ, i) := by
    funext x
    rw [Bool.eq_iff_iff]
    simp [Prod.ext_iff]
  rw [Ledger.of, displacedLedger, List.filter_map, hsame, List.filter_beq,
    nodup_inTheWay.count]
  by_cases h : k.isInTheWay n κ i = true
  · rw [if_pos (mem_inTheWay.2 h), if_pos h]
    rfl
  · rw [if_neg (mt mem_inTheWay.1 h), if_neg h]
    rfl

/-- The records that one property causes lead from each name to the one that comes of it. -/
theorem leads_displacedLedger {old : String} (h : k.nameOf? κ i = some old) :
    Leads k.name κ old ((k.displacedLedger c n).of ⟨c, κ, i⟩)
      (if k.isInTheWay n κ i then κ.displacedName n else old) := by
  rw [of_displacedLedger]
  by_cases hway : k.isInTheWay n κ i = true
  · obtain rfl := Option.some.inj ((nameOf?_of_isInTheWay hway).symm.trans h)
    rw [if_pos hway, if_pos hway]
    exact Leads.step (r := ⟨k.name, κ, n, κ.displacedName n⟩) rfl rfl (.refl _)
  · rw [if_neg hway, if_neg hway]
    exact .refl old

end Class

namespace Ledger.Tells
variable {l : Ledger} {m n : Model} {c : ClassId} {k k' k₀ : Class}

/-- Only names and properties are on record. -/
theorem put (h : Tells l m (n.putClass c k)) (hk₀ : n.class? c = some k₀)
    (hnames : ∀ κ i, k'.nameOf? κ i = k.nameOf? κ i) (hprops : k'.properties = k.properties) :
    Tells l m (n.putClass c k') := by
  have hsome : ∀ κ i, (k'.nameOf? κ i).isSome = (k.nameOf? κ i).isSome := fun κ i => by rw [hnames]
  refine ⟨fun μ => (Model.isSome_nameOf?_putClass hk₀ hsome μ).trans (h.members μ),
    fun μ k₁ a b hk₁ ha hb => h.names μ k₁ a b hk₁ ha ?_,
    fun e he => (h.made e he).putClass hk₀ hsome (by rw [hprops]), h.order⟩
  by_cases hμ : μ.owner = c
  · rw [Model.nameOf?_putClass_self hk₀ hμ] at hb ⊢
    rw [← hnames, hb]
  · rw [Model.nameOf?_putClass_ne hμ] at hb ⊢
    exact hb

/-- A property that is committed adds a record for each member that is in its way. -/
theorem commit (h : Tells l m (n.putClass c k)) (hk₀ : n.class? c = some k₀)
    (hname : ∀ k₁, m.class? c = some k₁ → k₁.name = k.name) (q : Property) :
    Tells (l ++ k.displacedLedger c q.name) m
      (n.putClass c ((k.makeRoom q.name).addProperty q)) := by
  have hsome : ∀ κ i, (((k.makeRoom q.name).addProperty q).nameOf? κ i).isSome =
      (k.nameOf? κ i).isSome := fun κ i => by
    rw [Class.nameOf?_addProperty, Class.nameOf?_makeRoom, Option.isSome_map]
  refine ⟨fun μ => (Model.isSome_nameOf?_putClass hk₀ hsome μ).trans (h.members μ),
    fun μ k₁ a b hk₁ ha hb => ?_, fun e he => ?_, ?_⟩
  · obtain ⟨d, κ, i⟩ := μ
    rw [of_append]
    by_cases hcd : d = c
    · subst hcd
      rw [Model.nameOf?_putClass_self hk₀ rfl, Class.nameOf?_addProperty, Class.nameOf?_makeRoom,
        Option.map_eq_some_iff] at hb
      obtain ⟨old, hold, rfl⟩ := hb
      have hbefore := h.names _ k₁ a old hk₁ ha (by rw [Model.nameOf?_putClass_self hk₀ rfl, hold])
      have hleads := Class.leads_displacedLedger (c := d) (n := q.name) hold
      rw [← hname k₁ hk₁] at hleads
      exact hbefore.trans hleads
    · rw [Class.of_displacedLedger_ne hcd, List.append_nil]
      rw [Model.nameOf?_putClass_ne hcd] at hb
      exact h.names _ k₁ a b hk₁ ha (by rw [Model.nameOf?_putClass_ne hcd, hb])
  · rcases List.mem_append.1 he with he | he
    · exact (h.made e he).putClass hk₀ hsome (List.prefix_append _ _)
    · obtain ⟨x, hx, rfl⟩ := List.mem_map.1 he
      refine ⟨?_, ⟨_, q, Model.class?_putClass_self _ hk₀, ?_, rfl⟩, rfl⟩
      · rw [Model.nameOf?_putClass_self hk₀ rfl, hsome,
          Class.nameOf?_of_isInTheWay (Class.mem_inTheWay.1 hx), Option.isSome_some]
      · simp [Class.addProperty, Class.makeRoom]
  · refine List.pairwise_append.2 ⟨h.order, ?_, fun e he e' he' howner => ?_⟩
    · exact List.pairwise_map.2 (List.pairwise_of_forall fun _ _ _ => Nat.le_refl _)
    · -- what was committed before has its place before
      obtain ⟨x, -, rfl⟩ := List.mem_map.1 he'
      obtain ⟨k₁, p, hk₁, hp, -⟩ := (h.made e he).named
      rw [howner, Model.class?_putClass_self k hk₀] at hk₁
      obtain rfl := Option.some.inj hk₁
      exact Nat.le_of_lt (List.getElem?_eq_some_iff.1 hp).1

end Ledger.Tells

/-! ### The records that a class causes -/

namespace Model
variable {m n : Model} {c : ClassId} {k k' : Class} {y : Synthesis} {ids : List MethodId}
  {s : Pending} {vs : List (Property × Option Property)} {l : Ledger}

/-- The records that were there before come first. -/
theorem Built.ledger (h : n.Built y c k k' ids s vs) (hk : m.class? c = some k)
    (hl : l.Tells m n) :
    ∃ l', Ledger.Tells l' m (n.putClass c k') ∧
      l'.map (·.record) = l.map (·.record) ++ ((y.desk n k ids s []).settleAll c vs).renames := by
  have hstart : l.Tells m (n.putClass c (y.desk n k ids s []).cls) := by
    rw [← putClass_self h.listed] at hl
    exact hl.put h.listed (fun κ i => by simp [Synthesis.desk])
      (by simp [h.free, documentedOwn])
  have hall : ((y.desk n k ids s []).settleAll c vs).cls.name = k.name ∧
      ∃ l', Ledger.Tells l' m (n.putClass c ((y.desk n k ids s []).settleAll c vs).cls) ∧
        l'.map (·.record) = l.map (·.record) ++ ((y.desk n k ids s []).settleAll c vs).renames := by
    refine Desk.settleAll_induction
      (fun d => d.cls.name = k.name ∧ ∃ l', Ledger.Tells l' m (n.putClass c d.cls) ∧
        l'.map (·.record) = l.map (·.record) ++ d.renames)
      (fun v _ d hd => ?_) ⟨rfl, l, hstart, (List.append_nil _).symm⟩
    obtain ⟨hname, l', hl', hmap⟩ := hd
    have hback : ∀ ids : List MethodId,
        Ledger.Tells l' m (n.putClass c (d.cls.tag ids .generate)) := fun ids =>
      hl'.put h.listed (by simp) rfl
    cases hq : v.2 with
    | none => exact ⟨hname, l', hback v.1.accessors, hmap⟩
    | some q =>
      have hname' : ∀ k₁, m.class? c = some k₁ → k₁.name = d.cls.name := fun k₁ hk₁ => by
        rw [← Option.some.inj (hk.symm.trans hk₁), hname]
      refine ⟨hname, _, (hback (v.1.lost q)).commit h.listed hname' q, ?_⟩
      rw [List.map_append, Class.map_displacedLedger, hmap, List.append_assoc]
      rfl
  rw [h.result]
  exact hall.2

end Model
end ApiProperties

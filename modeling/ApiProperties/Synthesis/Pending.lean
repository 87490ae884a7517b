import ApiProperties.Accessor

/-!
The properties that one class is about to get. An accessor goes to a property that lacks it: one
that the class already has, else a pending one, else a new pending one. Properties that override an
inherited one were settled against their base and are not completed.
-/

set_option autoImplicit false

namespace ApiProperties

inductive Slot where
  | existing (index : Nat)
  | pending (index : Nat)
  deriving DecidableEq, Repr

structure Pending where
  owner : ClassId
  properties : List Property
  /-- The positions of the class's own properties that were completed, in this order. -/
  completed : List Nat
  deriving DecidableEq, Repr

/-- The position of the first element that satisfies `p`. Later elements are not asked. -/
def firstIndex? {α : Type} (p : α → Option Bool) : List α → Option (Option Nat)
  | [] => some none
  | x :: rest => do
    if ← p x then pure (some 0)
    else
      let i ← firstIndex? p rest
      pure (i.map (· + 1))

namespace Pending

def empty (owner : ClassId) : Pending := ⟨owner, [], []⟩

/-- Whether a property that the class already has can be completed by method `id`. -/
def completable? (m : Model) (id : MethodId) (a : Accessor) (p : Property) : Option Bool := do
  if ← m.isOverriding? p then pure false else m.accepts? id a p

/-- Finds or makes the property of which method `id` is the half that `a` offers, and tags the
method as internal. -/
def attach? (s : Pending) (m : Model) (id : MethodId) (a : Accessor) :
    Option (Pending × Model × Slot) := do
  let f ← m.method? id
  let c ← m.class? s.owner
  match ← firstIndex? (completable? m id a) c.properties with
  | some i =>
    let m := m.modifyClass s.owner (·.modifyProperty i (·.attach id f a))
    pure ({ s with completed := s.completed ++ [i] }, m.retag id .internal, .existing i)
  | none =>
    let m' := m.retag id .internal
    match ← firstIndex? (m.accepts? id a) s.properties with
    | some i =>
      pure ({ s with properties := s.properties.modify i (·.attach id f a) }, m', .pending i)
    | none =>
      let p := (Property.plain a.name a.type s.owner f.access).attach id f a
      pure ({ s with properties := s.properties ++ [p] }, m', .pending s.properties.length)

def offer? (s : Pending) (m : Model) (id : MethodId) : Option (Pending × Model) := do
  let f ← m.method? id
  match f.accessor? with
  | some a =>
    let (s, m, _) ← s.attach? m id a
    pure (s, m)
  | none => pure (s, m)

def candidates? (m : Model) (c : ClassId) : Option (List MethodId) := do
  let c ← m.class? c
  c.methodIds.filterM fun id => (m.method? id).map (·.isCandidate)

/-- What becomes pending when every candidate of the class has been attached. -/
def collect? (m : Model) (c : ClassId) : Option (Pending × Model) := do
  let ids ← candidates? m c
  ids.foldlM (fun (s, m) id => s.offer? m id) (empty c, m)

/-- The pending property at a position, and what is pending without it. -/
def remove? (s : Pending) (index : Nat) : Option (Property × Pending) := do
  let p ← s.properties[index]?
  pure (p, { s with properties := s.properties.eraseIdx index })

end Pending
end ApiProperties

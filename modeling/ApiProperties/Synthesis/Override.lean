import ApiProperties.Accessor

/-!
Properties whose accessors override inherited methods. A class often overrides one half of an
inherited property: the other half is then borrowed from the ancestor's property. If no ancestor has
such a property, the override stays a plain method.
-/

set_option autoImplicit false

namespace ApiProperties

structure BaseAccessors where
  owner : ClassId
  getter : Option MethodId
  setter : Option MethodId
  deriving DecidableEq, Repr

/-- What makes a property of an ancestor the overridden one: an accessor among the targets, or the
same field. -/
structure BaseQuery where
  targets : List MethodId
  field : Option String
  deriving DecidableEq, Repr

def BaseQuery.matches (q : BaseQuery) (p : Property) : Bool :=
  p.accessors.any (q.targets.contains ·) || (q.field.isSome && p.field == q.field)

namespace Model

def baseQuery? (m : Model) (p : Property) : Option BaseQuery := do
  let accessors ← p.accessors.mapM m.method?
  pure ⟨accessors.filterMap (·.overridden), p.field⟩

def baseCount (m : Model) : Nat := (m.classes.flatMap (·.bases)).length

/-- Depth-first search through the classes behind `todo`, leaving out those seen before. Every class
adds its bases once, so `fuel` need not exceed the entries there are; without it there is no answer. -/
def searchBases? (m : Model) (q : BaseQuery) :
    (fuel : Nat) → (seen todo : List ClassId) → Option (Option BaseAccessors)
  | 0, _, _ => none
  | _ + 1, _, [] => some none
  | fuel + 1, seen, base :: todo => do
    let d ← m.definition? base
    if d ∈ seen then m.searchBases? q fuel seen todo
    else
      let c ← m.class? d
      match c.properties.find? q.matches with
      | some p => pure (some ⟨d, p.getter, p.setter⟩)
      | none => m.searchBases? q fuel (d :: seen) (c.bases.map (·.target) ++ todo)

/-- The inherited property that `p` overrides as a property of the class. -/
def findBaseProperty? (m : Model) (id : ClassId) (p : Property) :
    Option (Option BaseAccessors) := do
  let q ← m.baseQuery? p
  let d ← m.definition? id
  let c ← m.class? id
  m.searchBases? q (2 * m.baseCount + 1) [d] (c.bases.map (·.target))

/-- Gives one accessor back: the setter if there is one, else the getter. -/
def releaseOne? (m : Model) (c : ClassId) (p : Property) : Option (Model × Property × Nat) := do
  match p.setter, p.getter with
  | some s, _ =>
    let (m, demoted) ← m.demote? c s
    pure (m, { p with setter := none }, demoted.toNat)
  | none, some g =>
    let (m, demoted) ← m.demote? c g
    pure (m, { p with getter := none }, demoted.toNat)
  | none, none => pure (m, p, 0)

/-- Puts the ancestor's setter, or none, in place of the property's own. -/
def replaceSetter? (m : Model) (c : ClassId) (p : Property) (setter : Option MethodId) :
    Option (Model × Property × Nat) := do
  match p.setter with
  | some s =>
    let (m, demoted) ← m.demote? c s
    pure (m, { p with setter }, demoted.toNat)
  | none => pure (m, { p with setter }, 0)

/-- Gives an overriding property the shape of the one it overrides. The number counts the methods
of the class that become plain again. -/
def resolveOverride? (m : Model) (c : ClassId) (p : Property) :
    Option (Model × Property × Nat) := do
  if ← m.isOverriding? p then
    match ← m.findBaseProperty? c p with
    | none => m.releaseOne? c p
    | some base =>
      if p.getter.isNone && base.setter.isSome then pure (m, { p with getter := base.getter }, 0)
      else if p.setter.isNone || base.setter.isNone then m.replaceSetter? c p base.setter
      else pure (m, p, 0)
  else pure (m, p, 0)

end Model
end ApiProperties

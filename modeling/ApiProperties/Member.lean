import ApiProperties.TypeExpr
import ApiProperties.NameSet

/-!
What a class has: methods, the properties that unify them, events, and the comments on each.
-/

set_option autoImplicit false

namespace ApiProperties

/-- A method by its class and its position there. Methods are never removed, so it stays valid. -/
structure MethodId where
  owner : ClassId
  index : Nat
  deriving DecidableEq, Repr

inductive Access where
  | priv | prot | pub
  deriving DecidableEq, Repr

namespace Access

def rank : Access → Nat
  | .priv => 0
  | .prot => 1
  | .pub => 2

/-- The less restrictive of two. -/
def widest (a b : Access) : Access := if a.rank < b.rank then b else a

@[simp] theorem widest_self (a : Access) : a.widest a = a := by cases a <;> rfl

theorem widest_comm (a b : Access) : a.widest b = b.widest a := by cases a <;> cases b <;> rfl

theorem widest_assoc (a b c : Access) : (a.widest b).widest c = a.widest (b.widest c) := by
  cases a <;> cases b <;> cases c <;> rfl

theorem rank_widest (a b : Access) : (a.widest b).rank = max a.rank b.rank := by
  cases a <;> cases b <;> rfl

theorem widest_cases (a b : Access) : a.widest b = a ∨ a.widest b = b := by
  cases a <;> cases b <;> decide

theorem widest_eq_left_iff {a b : Access} : a.widest b = a ↔ b.rank ≤ a.rank := by
  cases a <;> cases b <;> decide

end Access

/-- Whether a method is emitted by itself, kept for a property's use, or left out. -/
inductive Generation where
  | generate | internal | excluded
  deriving DecidableEq, Repr

/-- Where a method comes from; only an ordinary one is declared by the native interface. -/
inductive Origin where
  | ordinary | defaultValueOverload | complementOperator | fieldAccessor
  deriving DecidableEq, Repr

inductive MethodKind where
  | normal | constructor | destructor | operator
  deriving DecidableEq, Repr

/-- An indirect return is a hidden parameter that carries the result. -/
inductive ParameterKind where
  | regular | indirectReturn
  deriving DecidableEq, Repr

inductive CommentKind where
  | invalid | bcplSlash | bcplExcl | javaDoc | qt | merged
  deriving DecidableEq, Repr

inductive CommentBlock where
  | paragraph (text : String)
  | param (name text : String)
  | returns (text : String)
  | command (name text : String)
  deriving DecidableEq, Repr

/-- A comment, with its blocks if its text was taken apart. -/
structure Comment where
  kind : CommentKind
  brief : String
  text : String
  blocks : Option (List CommentBlock)
  deriving DecidableEq, Repr

structure Parameter where
  name : String
  kind : ParameterKind
  type : QualifiedType
  deriving DecidableEq, Repr

structure Method where
  name : String
  originalName : String
  owner : ClassId
  kind : MethodKind
  isStatic : Bool
  isOverride : Bool
  overridden : Option MethodId
  implemented : Option MethodId
  generation : Generation
  origin : Origin
  parameters : List Parameter
  returnType : QualifiedType
  comment : Option Comment
  access : Access
  excludedPasses : NameSet
  deriving DecidableEq, Repr

namespace Method

/-- A public, emitted, ordinary method without parameters. -/
def plain (name : String) (returnType : QualifiedType) : Method :=
  { name, originalName := name, owner := 0, kind := .normal, isStatic := false,
    isOverride := false, overridden := none, implemented := none, generation := .generate,
    origin := .ordinary, parameters := [], returnType, comment := none, access := .pub,
    excludedPasses := .empty }

def overriding (m : Method) (base : MethodId) : Method :=
  { m with isOverride := true, overridden := some base }

def isGenerated (m : Method) : Bool := m.generation == .generate

def isIgnored (m : Method) : Bool := m.generation == .excluded

/-- The parameters that are arguments of a call. -/
def regularParameters (m : Method) : List Parameter := m.parameters.filter (·.kind == .regular)

end Method

structure Property where
  name : String
  originalName : String
  type : QualifiedType
  getter : Option MethodId
  setter : Option MethodId
  field : Option String
  owner : ClassId
  access : Access
  comment : Option Comment
  implemented : Option MethodId
  deriving DecidableEq, Repr

namespace Property

def plain (name : String) (type : QualifiedType) (owner : ClassId) (access : Access) : Property :=
  { name, originalName := name, type, getter := none, setter := none, field := none, owner,
    access, comment := none, implemented := none }

/-- The getter, if there is one, and then the setter. -/
def accessors (p : Property) : List MethodId := p.getter.toList ++ p.setter.toList

theorem mem_accessors {p : Property} {id : MethodId} :
    id ∈ p.accessors ↔ p.getter = some id ∨ p.setter = some id := by
  simp [accessors]

end Property

structure Event where
  name : String
  owner : ClassId
  deriving DecidableEq, Repr

structure Base where
  target : ClassId
  access : Access
  deriving DecidableEq, Repr

end ApiProperties

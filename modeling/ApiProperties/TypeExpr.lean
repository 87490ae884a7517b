/-!
Types as the native interface spells them. A pointer or an alias says whether what it refers to is
constant; `QualifiedType` says the same of the whole type.
-/

set_option autoImplicit false

namespace ApiProperties

/-- The position of a class in its model. -/
abbrev ClassId := Nat

inductive Primitive where
  | void | bool | char | wideChar | short | uShort | int | uInt | long | uLong | longLong | uLongLong
  | float | double | longDouble | intPtr | uIntPtr | null
  deriving DecidableEq, Repr

inductive PointerKind where
  | pointer | lValueReference | rValueReference
  deriving DecidableEq, Repr

inductive TypeExpr where
  | builtin (primitive : Primitive)
  | pointer (pointee : TypeExpr) (constPointee : Bool) (kind : PointerKind)
  | tag (target : ClassId)
  | typedef (name : String) (underlying : TypeExpr) (constUnderlying : Bool)
  | named (spelling : String)
  deriving DecidableEq, Repr

namespace TypeExpr

def desugar : TypeExpr → TypeExpr
  | .typedef _ underlying _ => underlying.desugar
  | t => t

def isPrimitive (t : TypeExpr) (p : Primitive) : Bool := t.desugar == .builtin p

def isVoid (t : TypeExpr) : Bool := t.isPrimitive .void

/-- All classes the type refers to are among the first `n`. -/
def tagsBelow (n : Nat) : TypeExpr → Bool
  | .builtin _ | .named _ => true
  | .tag target => decide (target < n)
  | .pointer pointee _ _ => pointee.tagsBelow n
  | .typedef _ underlying _ => underlying.tagsBelow n

@[simp] theorem desugar_typedef (name : String) (t : TypeExpr) (const : Bool) :
    (typedef name t const).desugar = t.desugar := rfl

@[simp] theorem desugar_desugar (t : TypeExpr) : t.desugar.desugar = t.desugar := by
  induction t with
  | typedef _ _ _ ih => simpa using ih
  | _ => rfl

end TypeExpr

structure QualifiedType where
  type : TypeExpr
  isConst : Bool
  deriving DecidableEq, Repr

namespace QualifiedType

def plain (t : TypeExpr) : QualifiedType := ⟨t, false⟩

def void : QualifiedType := plain (.builtin .void)

def pointerTo (pointee : QualifiedType) (kind : PointerKind) : QualifiedType :=
  plain (.pointer pointee.type pointee.isConst kind)

def aliasOf (name : String) (underlying : QualifiedType) : QualifiedType :=
  plain (.typedef name underlying.type underlying.isConst)

def toConst (q : QualifiedType) : QualifiedType := { q with isConst := true }

/-- The type on which accessors are matched: what a pointer or a reference points to, else the type
itself. Whether it is constant plays no part. -/
def underlying (q : QualifiedType) : TypeExpr :=
  match q.type with
  | .pointer pointee _ _ => pointee
  | t => t

@[simp] theorem underlying_pointerTo (q : QualifiedType) (kind : PointerKind) :
    (q.pointerTo kind).underlying = q.type := rfl

@[simp] theorem underlying_toConst (q : QualifiedType) : q.toConst.underlying = q.underlying := rfl

end QualifiedType
end ApiProperties

import ApiProperties.Model
import ApiProperties.Name

/-!
Accessor methods: which methods take part, whether one reads or writes, which property it offers to
be half of, and the tag that says so.
-/

set_option autoImplicit false

namespace ApiProperties

/-- The name under which a method can opt out of the synthesis. -/
def passName : String := "accessor_synthesis"

inductive Role where
  | getter | setter
  deriving DecidableEq, Repr

/-- What a method offers: to be this half of a property with this name and type. -/
structure Accessor where
  role : Role
  name : String
  type : QualifiedType
  deriving DecidableEq, Repr

namespace Method

def isCandidate (f : Method) : Bool :=
  f.kind == .normal && f.origin == .ordinary && f.isGenerated
    && !f.excludedPasses.contains passName

/-- A getter yields a value and takes no argument. -/
def isGetter (f : Method) : Bool :=
  f.kind != .destructor && !f.returnType.type.isVoid && f.regularParameters.isEmpty

/-- A setter takes one argument and yields nothing or a flag of success. -/
def isSetter (f : Method) : Bool :=
  (f.returnType.type.isVoid || f.returnType.type.isPrimitive .bool)
    && f.regularParameters.length == 1

def accessor? (f : Method) : Option Accessor :=
  if f.isGetter then some ⟨.getter, propertyNameFromGetter f.name, f.returnType⟩
  else if f.isSetter then
    let name := propertyNameFromSetter f.name
    if name.isEmpty then none
    else f.regularParameters.head?.map fun p => ⟨.setter, name, p.type⟩
  else none

theorem not_isSetter_of_isGetter {f : Method} (h : f.isGetter = true) : f.isSetter = false := by
  simp only [isGetter, Bool.and_eq_true, List.isEmpty_iff] at h
  simp [isSetter, h.2]

end Method

namespace Property

def half (p : Property) : Role → Option MethodId
  | .getter => p.getter
  | .setter => p.setter

def partner (p : Property) : Role → Option MethodId
  | .getter => p.setter
  | .setter => p.getter

/-- Binds `f`, known as `id`, as the half that `a` offers. The property takes the accessor's name,
the getter's type and the wider access. -/
def attach (p : Property) (id : MethodId) (f : Method) (a : Accessor) : Property :=
  let p := { p with
    name := a.name
    originalName := a.name
    access := p.access.widest f.access
    implemented := f.implemented <|> p.implemented }
  match a.role with
  | .getter => { p with getter := some id, type := f.returnType }
  | .setter => { p with setter := some id }

@[simp] theorem half_attach (p : Property) (id : MethodId) (f : Method) (a : Accessor) :
    (p.attach id f a).half a.role = some id := by
  cases h : a.role <;> simp [attach, half, h]

@[simp] theorem partner_attach (p : Property) (id : MethodId) (f : Method) (a : Accessor) :
    (p.attach id f a).partner a.role = p.partner a.role := by
  cases h : a.role <;> simp [attach, partner, h]

@[simp] theorem name_attach (p : Property) (id : MethodId) (f : Method) (a : Accessor) :
    (p.attach id f a).name = a.name := by
  cases h : a.role <;> simp [attach, h]

@[simp] theorem owner_attach (p : Property) (id : MethodId) (f : Method) (a : Accessor) :
    (p.attach id f a).owner = p.owner := by
  cases h : a.role <;> simp [attach, h]

@[simp] theorem field_attach (p : Property) (id : MethodId) (f : Method) (a : Accessor) :
    (p.attach id f a).field = p.field := by
  cases h : a.role <;> simp [attach, h]

@[simp] theorem access_attach (p : Property) (id : MethodId) (f : Method) (a : Accessor) :
    (p.attach id f a).access = p.access.widest f.access := by
  cases h : a.role <;> simp [attach, h]

@[simp] theorem implemented_attach (p : Property) (id : MethodId) (f : Method) (a : Accessor) :
    (p.attach id f a).implemented = (f.implemented <|> p.implemented) := by
  cases h : a.role <;> simp [attach, h]

end Property

namespace Model

def retag (m : Model) (id : MethodId) (g : Generation) : Model :=
  m.modifyMethod id fun f => { f with generation := g }

/-- Makes an accessor a plain method again, if it is one of the class. Borrowed accessors belong to
another class and keep their tag. -/
def demote? (m : Model) (c : ClassId) (id : MethodId) : Option (Model × Bool) :=
  if id.owner = c then do
    let _ ← m.method? id
    pure (m.retag id .generate, true)
  else some (m, false)

def isOverriding? (m : Model) (p : Property) : Option Bool :=
  p.accessors.anyM fun id => (m.method? id).map (·.isOverride)

/-- Whether the property lacks the half that `a` offers and method `id` fits the one it has. Only a
setter may pair with a getter through the getter's name without its `is`. -/
def accepts? (m : Model) (id : MethodId) (a : Accessor) (p : Property) : Option Bool :=
  if p.field.isSome || (p.half a.role).isSome then some false
  else
    match p.partner a.role with
    | none => some false
    | some partnerId => do
      let partner ← m.method? partnerId
      let f ← m.method? id
      pure (partner.isStatic == f.isStatic && p.type.underlying == a.type.underlying
        && (p.name == a.name
          || a.role == .setter && readWritePropertyName partner.name a.name == a.name))

end Model
end ApiProperties

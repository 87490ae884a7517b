import ApiProperties.Model

/-!
Consistency of a model: every id agrees with its position and every reference names something. A
fault is what breaks this; `Model.fault?` finds the first one, class by class, and in a class in the
order id, bases, definition, methods, properties. Checking follows an id only after it has been found
to be in range.
-/

set_option autoImplicit false

namespace ApiProperties

inductive Fault where
  | wrongId (className : String) (index : Nat) (id : ClassId)
  | danglingBase (className : String) (target : ClassId)
  | danglingDefinition (className : String) (target : ClassId)
  | foreignMethod (method className : String) (owner : ClassId)
  | methodLink (className method : String)
  | returnType (className method : String)
  | parameterType (className method : String)
  | foreignProperty (property className : String) (owner : ClassId)
  | propertyLink (className property : String)
  deriving DecidableEq, Repr

namespace Fault

def quoted (name : String) : String := "`" ++ name ++ "`"

def member (className name : String) : String := quoted (className ++ "::" ++ name)

def reason : Fault → String
  | .wrongId c index id =>
    "class " ++ quoted c ++ " at index " ++ toString index ++ " has id " ++ toString id
  | .danglingBase c target => "class " ++ quoted c ++ " has dangling base " ++ toString target
  | .danglingDefinition c target =>
    "class " ++ quoted c ++ " has dangling definition " ++ toString target
  | .foreignMethod m c owner =>
    "method " ++ quoted m ++ " is listed in " ++ quoted c ++ " but declared in " ++ toString owner
  | .methodLink c m => "method " ++ member c m ++ " links to a missing method"
  | .returnType c m => "method " ++ member c m ++ " returns an unknown class"
  | .parameterType c m => "parameter of " ++ member c m ++ " refers to an unknown class"
  | .foreignProperty p c owner =>
    "property " ++ quoted p ++ " is listed in " ++ quoted c ++ " but owned by " ++ toString owner
  | .propertyLink c p => "property " ++ member c p ++ " links to a missing method"

end Fault

namespace Model

def hasClass (m : Model) (id : ClassId) : Bool := decide (id < m.classes.length)

def hasMethod (m : Model) (id : MethodId) : Bool := (m.method? id).isSome

theorem hasClass_iff {m : Model} {id : ClassId} :
    m.hasClass id = true ↔ ∃ c, m.class? id = some c := by
  rw [← Option.isSome_iff_exists]
  simp [hasClass, class?]

theorem hasMethod_iff {m : Model} {id : MethodId} :
    m.hasMethod id = true ↔ ∃ f, m.method? id = some f := by
  simp [hasMethod, Option.isSome_iff_exists]

/-- Whether the link names a method, by its place in the class that it names. This class is looked up
only if the id is in range; there is no answer if an id is followed that is not. -/
def checkMethod? (m : Model) (link : MethodId) : Option Bool :=
  if m.hasClass link.owner then
    (m.class? link.owner).map fun k => decide (link.index < k.methods.length)
  else some false

theorem checkMethod?_eq (m : Model) (link : MethodId) :
    m.checkMethod? link = some (m.hasMethod link) := by
  rw [checkMethod?, hasMethod, method?]
  split
  · rename_i h
    obtain ⟨k, hk⟩ := hasClass_iff.1 h
    rw [hk, Option.map_some, Option.bind_some, Option.some.injEq, Bool.eq_iff_iff]
    simp
  · rename_i h
    have hk : m.class? link.owner = none := by
      rw [← Option.not_isSome_iff_eq_none, Option.isSome_iff_exists, ← hasClass_iff]
      exact h
    simp [hk]

end Model

/-- One of the things that are checked, of a class or of a member in it. -/
inductive Requirement where
  | id (k : Class) (index : Nat)
  | base (k : Class) (b : Base)
  | definition (k : Class) (d : ClassId)
  | methodOwner (k : Class) (f : Method)
  | methodLink (k : Class) (f : Method) (link : MethodId)
  | returnType (k : Class) (f : Method)
  | parameterType (k : Class) (f : Method) (p : Parameter)
  | propertyOwner (k : Class) (p : Property)
  | propertyLink (k : Class) (p : Property) (link : MethodId)

namespace Requirement

def ofMethod (k : Class) (f : Method) : List Requirement :=
  [methodOwner k f] ++ (f.overridden.toList ++ f.implemented.toList).map (methodLink k f) ++
    [returnType k f] ++ f.parameters.map (parameterType k f)

def ofProperty (k : Class) (p : Property) : List Requirement :=
  [propertyOwner k p] ++ (p.accessors ++ p.implemented.toList).map (propertyLink k p)

/-- The requirements of the class that stands at `index`. -/
def ofClass (k : Class) (index : Nat) : List Requirement :=
  [id k index] ++ k.bases.map (base k) ++ k.definition.toList.map (definition k) ++
    k.methods.flatMap (ofMethod k) ++ k.properties.flatMap (ofProperty k)

/-- Whether the model meets the requirement. -/
def check? (m : Model) : Requirement → Option Bool
  | id k index => some (k.id == index)
  | base _ b => some (m.hasClass b.target)
  | definition _ d => some (m.hasClass d)
  | methodOwner k f => some (f.owner == k.id)
  | methodLink _ _ link | propertyLink _ _ link => m.checkMethod? link
  | returnType _ f => some (f.returnType.type.tagsBelow m.classes.length)
  | parameterType _ _ p => some (p.type.type.tagsBelow m.classes.length)
  | propertyOwner k p => some (p.owner == k.id)

/-- What is reported of a requirement that is not met. -/
def fault : Requirement → Fault
  | id k index => .wrongId k.name index k.id
  | base k b => .danglingBase k.name b.target
  | definition k d => .danglingDefinition k.name d
  | methodOwner k f => .foreignMethod f.name k.name f.owner
  | methodLink k f _ => .methodLink k.name f.name
  | returnType k f => .returnType k.name f.name
  | parameterType k f _ => .parameterType k.name f.name
  | propertyOwner k p => .foreignProperty p.name k.name p.owner
  | propertyLink k p _ => .propertyLink k.name p.name

end Requirement

namespace Model

/-- What is asked of the model, class by class. -/
def requirements (m : Model) : List Requirement :=
  m.classes.zipIdx.flatMap fun (k, index) => Requirement.ofClass k index

/-- Checking one requirement after the other up to the first one that is not met, whose fault is
reported. -/
def checkAll? (m : Model) : Option (Option Fault) :=
  m.requirements.findSomeM? fun r => (r.check? m).map fun met => if met then none else some r.fault

/-- The fault that is found. There is always an answer, as no id is followed that is out of range. -/
def fault? (m : Model) : Option Fault := m.checkAll?.join

/-- A model as it may be given to the synthesis. -/
def Valid (m : Model) : Prop := m.fault? = none

instance (m : Model) : Decidable m.Valid := inferInstanceAs (Decidable (m.fault? = none))

/-- What is said of a model with a fault. -/
def faultMessage (m : Model) (f : Fault) : String :=
  "malformed API model " ++ Fault.quoted m.name ++ ": " ++ f.reason

end Model
end ApiProperties

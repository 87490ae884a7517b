import ApiProperties.Accessor

/-!
Making room for a property's name. A method with that name becomes `get…` and can no longer take
part in the synthesis; an event becomes `on…`. Every such step is recorded.
-/

set_option autoImplicit false

namespace ApiProperties

inductive MemberKind where
  | method | event
  deriving DecidableEq, Repr

structure RenameRecord where
  className : String
  member : MemberKind
  oldName : String
  newName : String
  deriving DecidableEq, Repr

/-- The name of a method that has to leave its name to a property. -/
def displacedMethodName (property : String) : String := "get" ++ capitalize property

def displacedEventName (property : String) : String := "on" ++ capitalize property

namespace Method

def clashesWith (property : String) (f : Method) : Bool := f.isGenerated && f.name == property

def makeRoom (property : String) (f : Method) : Method :=
  if f.clashesWith property then
    { f with
      name := displacedMethodName property
      excludedPasses := f.excludedPasses.insert passName }
  else f

end Method

namespace Event

def clashesWith (property : String) (e : Event) : Bool := e.name == property

def makeRoom (property : String) (e : Event) : Event :=
  if e.clashesWith property then { e with name := displacedEventName property } else e

end Event

namespace Class

def makeRoom (property : String) (c : Class) : Class :=
  { c with
    methods := c.methods.map (·.makeRoom property)
    events := c.events.map (·.makeRoom property) }

/-- What `makeRoom` renames, methods first. -/
def displaced (property : String) (c : Class) : List RenameRecord :=
  (c.methods.filter (·.clashesWith property)).map
      (fun f => ⟨c.name, .method, f.name, displacedMethodName property⟩)
    ++ (c.events.filter (·.clashesWith property)).map
      (fun e => ⟨c.name, .event, e.name, displacedEventName property⟩)

end Class

def Model.makeRoom? (m : Model) (id : ClassId) (property : String) :
    Option (Model × List RenameRecord) := do
  let c ← m.class? id
  pure (m.modifyClass id (·.makeRoom property), c.displaced property)

end ApiProperties

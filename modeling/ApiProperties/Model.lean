import ApiProperties.Member

/-!
Models: the classes of one unit, each known by its position. Whatever follows an id answers `none`
when the id names nothing; `Model.validate` rules that out beforehand.
-/

set_option autoImplicit false

namespace ApiProperties

structure Class where
  id : ClassId
  name : String
  access : Access
  bases : List Base
  methods : List Method
  properties : List Property
  events : List Event
  /-- The complete class of which this one is a view. -/
  definition : Option ClassId
  deriving DecidableEq, Repr

namespace Class

def empty (id : ClassId) (name : String) : Class :=
  { id, name, access := .pub, bases := [], methods := [], properties := [], events := [],
    definition := none }

def methodIds (c : Class) : List MethodId := (List.range c.methods.length).map (⟨c.id, ·⟩)

def isView (c : Class) : Bool :=
  match c.definition with
  | some d => d != c.id
  | none => false

def findMethod? (c : Class) (name : String) : Option Method := c.methods.find? (·.name == name)

def findProperty? (c : Class) (name : String) : Option Property :=
  c.properties.find? (·.name == name)

def addProperty (c : Class) (p : Property) : Class := { c with properties := c.properties ++ [p] }

def modifyMethod (c : Class) (index : Nat) (f : Method → Method) : Class :=
  { c with methods := c.methods.modify index f }

def modifyProperty (c : Class) (index : Nat) (f : Property → Property) : Class :=
  { c with properties := c.properties.modify index f }

end Class

structure Model where
  name : String
  classes : List Class
  deriving DecidableEq, Repr

namespace Model

def empty (name : String) : Model := ⟨name, []⟩

def class? (m : Model) (id : ClassId) : Option Class := m.classes[id]?

def method? (m : Model) (id : MethodId) : Option Method :=
  (m.class? id.owner).bind (·.methods[id.index]?)

def findClass? (m : Model) (name : String) : Option Class := m.classes.find? (·.name == name)

def classIds (m : Model) : List ClassId := List.range m.classes.length

def modifyClass (m : Model) (id : ClassId) (f : Class → Class) : Model :=
  { m with classes := m.classes.modify id f }

def modifyMethod (m : Model) (id : MethodId) (f : Method → Method) : Model :=
  m.modifyClass id.owner (·.modifyMethod id.index f)

theorem class?_modifyClass (m : Model) (id j : ClassId) (f : Class → Class) :
    (m.modifyClass id f).class? j = if id = j then (m.class? j).map f else m.class? j := by
  simp only [class?, modifyClass, List.getElem?_modify]
  split <;> simp

theorem method?_modifyMethod (m : Model) (id j : MethodId) (f : Method → Method) :
    (m.modifyMethod id f).method? j = if id = j then (m.method? j).map f else m.method? j := by
  obtain ⟨o, i⟩ := id
  obtain ⟨o', i'⟩ := j
  by_cases ho : o = o'
  · subst ho
    cases hc : m.class? o with
    | none => simp [method?, modifyMethod, class?_modifyClass, hc]
    | some c =>
      by_cases hi : i = i' <;>
        simp [method?, modifyMethod, class?_modifyClass, hc, Class.modifyMethod, hi]
  · simp [method?, modifyMethod, class?_modifyClass, ho]

/-! ### Building a model -/

/-- The model with one more, empty class, and its id. -/
def addClass (m : Model) (name : String) : Model × ClassId :=
  let id := m.classes.length
  ({ m with classes := m.classes ++ [.empty id name] }, id)

/-- The model with one more method of the class, and its id. -/
def addMethod? (m : Model) (id : ClassId) (method : Method) : Option (Model × MethodId) := do
  let c ← m.class? id
  let add (c : Class) : Class := { c with methods := c.methods ++ [{ method with owner := id }] }
  pure (m.modifyClass id add, ⟨id, c.methods.length⟩)

def addBase? (m : Model) (id base : ClassId) : Option Model := do
  let _ ← m.class? id
  pure (m.modifyClass id fun c => { c with bases := c.bases ++ [⟨base, .pub⟩] })

def addEvent? (m : Model) (id : ClassId) (name : String) : Option Model := do
  let _ ← m.class? id
  pure (m.modifyClass id fun c => { c with events := c.events ++ [⟨name, id⟩] })

def setDefinition? (m : Model) (id : ClassId) (definition : Option ClassId) : Option Model := do
  let _ ← m.class? id
  pure (m.modifyClass id fun c => { c with definition })

def addProperty? (m : Model) (id : ClassId) (p : Property) : Option Model := do
  let _ ← m.class? id
  pure (m.modifyClass id (·.addProperty p))

def modifyMethod? (m : Model) (id : MethodId) (f : Method → Method) : Option Model := do
  let _ ← m.method? id
  pure (m.modifyMethod id f)

/-! ### Definitions -/

/-- Follows links to the complete class. The walk ends at the first class seen before, so a cycle
answers with the class at which the walk entered it. `fuel` bounds the classes walked through, and
there is no answer without it. -/
def definitionFrom? (m : Model) : (fuel : Nat) → (seen : List ClassId) → ClassId → Option ClassId
  | 0, _, _ => none
  | fuel + 1, seen, id =>
    if id ∈ seen then some id
    else do
      let c ← m.class? id
      match c.definition with
      | some next => if next = id then some id else m.definitionFrom? fuel (id :: seen) next
      | none => some id

/-- The complete class behind a class, which is the class itself if it is no view. -/
def definition? (m : Model) (id : ClassId) : Option ClassId :=
  m.definitionFrom? (m.classes.length + 1) [] id

end Model
end ApiProperties

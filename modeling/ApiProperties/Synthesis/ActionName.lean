import ApiProperties.Verbs
import ApiProperties.Synthesis.Pending

/-!
Names that read as an action: `toString`, `newInstance` and whatever starts with a verb, but not
`getSize`, `isEmpty` or `hasFocus`. A pending property that consists of a getter with such a name
is given up.
-/

set_option autoImplicit false

namespace ApiProperties

/-- First words after which the rest of the name is a property, whatever the dictionary says. -/
def propertyWords : List String := ["get", "is", "has"]

/-- First words of conversions and factories. -/
def actionWords : List String := ["to", "new"]

def isActionLike (name : String) (verbs : VerbDictionary) : Bool :=
  let word := Name.firstWord name.toList
  if decide (word.length < name.toList.length)
      && Name.matchesWord word (propertyWords.map String.toList) then false
  else
    Name.matchesWord word (actionWords.map String.toList)
      || verbs.contains (String.ofList (dropEndWhile (· == '_') word))

namespace Pending

/-- The getter of a property that has no setter, if its name reads as an action. -/
def actionGetter? (m : Model) (verbs : VerbDictionary) (p : Property) :
    Option (Option MethodId) :=
  match p.getter, p.setter with
  | some g, none => do
    let f ← m.method? g
    pure (if isActionLike f.name verbs then some g else none)
  | _, _ => some none

/-- Gives up such properties, the last one first, and counts them. -/
def withoutActions? (c : ClassId) (verbs : VerbDictionary) (m : Model) :
    List Property → Option (List Property × Model × Nat)
  | [] => some ([], m, 0)
  | p :: rest => do
    let (kept, m, count) ← withoutActions? c verbs m rest
    match ← actionGetter? m verbs p with
    | some g =>
      let (m, _) ← m.demote? c g
      pure (kept, m, count + 1)
    | none => pure (p :: kept, m, count)

def dropActions? (s : Pending) (m : Model) (verbs : VerbDictionary) :
    Option (Pending × Model × Nat) := do
  let (kept, m, count) ← withoutActions? s.owner verbs m s.properties
  pure ({ s with properties := kept }, m, count)

end Pending
end ApiProperties

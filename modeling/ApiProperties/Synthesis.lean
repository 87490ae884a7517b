import ApiProperties.Synthesis.ActionName
import ApiProperties.Synthesis.Override
import ApiProperties.Synthesis.Renaming
import ApiProperties.Synthesis.Documentation
import ApiProperties.Statistics

/-!
Turning accessor methods into properties. `Synthesis.processClass?` does it for one class, in three
steps: the class's accessors become pending properties, those that read as actions are given up,
and each of the others is settled against its base and committed or dropped. `Synthesis.run?` does
it for every class of a model, bases first.
-/

set_option autoImplicit false

namespace ApiProperties

/-- How the synthesis decides: whether names that read as actions stay methods, and by which
dictionary. -/
structure Synthesis where
  useHeuristics : Bool
  verbs : VerbDictionary
  deriving DecidableEq, Repr

/-- A model on the way through the synthesis, and what has been done to it. -/
structure Progress where
  model : Model
  stats : Statistics
  renames : List RenameRecord
  deriving DecidableEq, Repr

namespace Model

/-- Whether the class has another method of the same original name that is not left out. -/
def hasOverloads? (m : Model) (c : ClassId) (getter : MethodId) : Option Bool := do
  let g ← m.method? getter
  let c ← m.class? c
  c.methodIds.anyM fun id =>
    if id = getter then some false
    else (m.method? id).map fun f => !f.isIgnored && f.originalName == g.originalName

/-- Decides whether a property can stay: it needs a getter, and a getter alone cannot stand for
several methods. Otherwise its accessors become plain methods again. -/
def finalize? (m : Model) (c : ClassId) (p : Property) : Option (Model × Bool × Nat) := do
  match p.getter, p.setter with
  | none, none => pure (m, false, 0)
  | none, some s =>
    let (m, demoted) ← m.demote? c s
    pure (m, false, demoted.toNat)
  | some _, some _ => pure (m, true, 0)
  | some g, none =>
    if ← m.hasOverloads? c g then
      let (m, demoted) ← m.demote? c g
      pure (m, false, demoted.toNat)
    else pure (m, true, 0)

/-- The class's own properties that were completed get the comments of both accessors. -/
def documentCompleted? (m : Model) (c : ClassId) (completed : List Nat) : Option Model :=
  completed.foldlM (fun m index => do
    let cls ← m.class? c
    let p ← cls.properties[index]?
    let comment ← m.mergedComment? p
    pure (m.modifyClass c (·.modifyProperty index fun p => { p with comment }))) m

/-- Classes seen so far, and those of them whose bases are done, in this order. -/
structure VisitOrder where
  visited : List ClassId
  order : List ClassId
  deriving DecidableEq, Repr

/-- Appends the class behind `id`, after its bases, unless it was visited before. `fuel` bounds the
classes on the way down, and there is no answer without it. -/
def visit? (m : Model) : (fuel : Nat) → VisitOrder → ClassId → Option VisitOrder
  | 0, _, _ => none
  | fuel + 1, o, id => do
    let d ← m.definition? id
    if d ∈ o.visited then pure o
    else
      let c ← m.class? d
      let o ← c.bases.foldlM (fun o b => m.visit? fuel o b.target)
        { o with visited := d :: o.visited }
      pure { o with order := o.order ++ [d] }

/-- Every class that is no mere view, once. -/
def visitOrder? (m : Model) : Option (List ClassId) := do
  let o ← m.classIds.foldlM (m.visit? (m.classes.length + 1)) ⟨[], []⟩
  pure o.order

end Model

namespace Progress

def start (m : Model) : Progress := ⟨m, .zero, []⟩

def commit? (c : ClassId) (s : Progress) (p : Property) : Option Progress := do
  let (m, renames) ← s.model.makeRoom? c p.name
  let comment ← m.mergedComment? p
  let own := p.accessors.filter (·.owner == c)
  pure {
    model := m.modifyClass c (·.addProperty { p with comment, owner := c })
    stats := s.stats.merge { Statistics.zero with
      propertiesCommitted := 1
      methodsAbsorbed := own.length
      membersRenamed := renames.length }
    renames := s.renames ++ renames }

/-- Settles one pending property: it is brought in line with its base and then committed or
dropped. -/
def settle? (c : ClassId) (s : Progress) (p : Property) : Option Progress := do
  let (m, p, released) ← s.model.resolveOverride? c p
  let (m, keep, dropped) ← m.finalize? c p
  let stats := s.stats.merge { Statistics.zero with methodsDemoted := released + dropped }
  let s := { s with model := m, stats }
  if keep then s.commit? c p else pure s

/-- What was done first, followed by what was done to its result. -/
def followedBy (s t : Progress) : Progress :=
  { model := t.model, stats := s.stats.merge t.stats, renames := s.renames ++ t.renames }

end Progress

namespace Synthesis

def dropActions? (y : Synthesis) (s : Pending) (m : Model) : Option (Pending × Model × Nat) :=
  if y.useHeuristics then s.dropActions? m y.verbs else some (s, m, 0)

def processClass? (y : Synthesis) (m : Model) (c : ClassId) : Option Progress := do
  let (pending, m) ← Pending.collect? m c
  let m ← m.documentCompleted? c pending.completed
  let (pending, m, dropped) ← y.dropActions? pending m
  let stats := { Statistics.oneClass with
    methodsAbsorbed := pending.completed.length
    methodsDemoted := dropped }
  pending.properties.foldlM (Progress.settle? c) ⟨m, stats, []⟩

def processAll? (y : Synthesis) (m : Model) (classes : List ClassId) : Option Progress :=
  classes.foldlM (fun s c => (y.processClass? s.model c).map s.followedBy) (Progress.start m)

def run? (y : Synthesis) (m : Model) : Option Progress := do
  let order ← m.visitOrder?
  y.processAll? m order

end Synthesis

/-- What a synthesis over several models did. -/
structure Report where
  useHeuristics : Bool
  stats : Statistics
  renames : List RenameRecord
  deriving DecidableEq, Repr

namespace Report

def empty (y : Synthesis) : Report := ⟨y.useHeuristics, .zero, []⟩

def add (r : Report) (s : Progress) : Report :=
  { r with stats := r.stats.merge s.stats, renames := r.renames ++ s.renames }

end Report

/-- Runs over models that know nothing of each other, in order. -/
def Synthesis.runAll? (y : Synthesis) (models : List Model) : Option (Report × List Model) := do
  let runs ← models.mapM y.run?
  pure (runs.foldl Report.add (.empty y), runs.map (·.model))

end ApiProperties

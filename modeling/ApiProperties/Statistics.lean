import ApiProperties.Limits

/-!
Counters of what a synthesis did.
-/

set_option autoImplicit false

namespace ApiProperties

structure Statistics where
  classesVisited : Nat
  propertiesCommitted : Nat
  methodsAbsorbed : Nat
  methodsDemoted : Nat
  membersRenamed : Nat
  deriving DecidableEq, Repr

namespace Statistics

def zero : Statistics := ⟨0, 0, 0, 0, 0⟩

def oneClass : Statistics := { zero with classesVisited := 1 }

def merge (a b : Statistics) : Statistics :=
  { classesVisited := a.classesVisited + b.classesVisited
    propertiesCommitted := a.propertiesCommitted + b.propertiesCommitted
    methodsAbsorbed := a.methodsAbsorbed + b.methodsAbsorbed
    methodsDemoted := a.methodsDemoted + b.methodsDemoted
    membersRenamed := a.membersRenamed + b.membersRenamed }

@[simp] theorem zero_merge (a : Statistics) : zero.merge a = a := by simp [merge, zero]

@[simp] theorem merge_zero (a : Statistics) : a.merge zero = a := by simp [merge, zero]

theorem merge_assoc (a b c : Statistics) : (a.merge b).merge c = a.merge (b.merge c) := by
  simp [merge, Nat.add_assoc]

theorem merge_comm (a b : Statistics) : a.merge b = b.merge a := by
  simp [merge, Nat.add_comm]

def sum (items : List Statistics) : Statistics := items.foldl merge zero

/-- The counters as 64-bit words hold them. -/
def toWords (a : Statistics) : Statistics :=
  { classesVisited := a.classesVisited % wordLimit
    propertiesCommitted := a.propertiesCommitted % wordLimit
    methodsAbsorbed := a.methodsAbsorbed % wordLimit
    methodsDemoted := a.methodsDemoted % wordLimit
    membersRenamed := a.membersRenamed % wordLimit }

/-- Whether nothing changed: a method that was tried and given back is no change. -/
def isNoop (a : Statistics) : Bool :=
  a.propertiesCommitted == 0 && a.methodsAbsorbed == 0 && a.membersRenamed == 0

/-- Properties per class, as a quotient of two doubles. -/
def averageProperties (a : Statistics) : Float :=
  if a.classesVisited = 0 then 0
  else (UInt64.ofNat a.propertiesCommitted).toFloat / (UInt64.ofNat a.classesVisited).toFloat

end Statistics
end ApiProperties

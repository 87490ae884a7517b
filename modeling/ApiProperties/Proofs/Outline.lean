import ApiProperties.Model.Validity
import ApiProperties.Proofs.Total

/-!
What the synthesis never touches. The outline of a method is the method without its name and its
tag, the outline of a class is the class without properties and events, and models of one outline
answer alike wherever names, tags and properties play no part.

While one class is processed only that class changes, so every model on the way is `m.putClass c k`
for the model `m` before and the class `k` as it stands.
-/

set_option autoImplicit false

namespace ApiProperties

/-- The method without what the synthesis may change. Whether it is left out stays. -/
def Method.outline (f : Method) : Method :=
  { f with
    name := ""
    generation := if f.isIgnored then .excluded else .generate
    excludedPasses := .empty }

def Class.outline (c : Class) : Class :=
  { c with methods := c.methods.map (·.outline), properties := [], events := [] }

def Model.outline (m : Model) : Model := { m with classes := m.classes.map (·.outline) }

@[simp] theorem Method.isIgnored_outline (f : Method) : f.outline.isIgnored = f.isIgnored := by
  cases h : f.isIgnored
  · simp [outline, h]; rfl
  · simp [outline, h]; rfl

@[simp] theorem Method.outline_outline (f : Method) : f.outline.outline = f.outline := by
  have h := f.isIgnored_outline
  rw [outline, h]
  rfl

@[simp] theorem Class.outline_outline (c : Class) : c.outline.outline = c.outline := by
  simp [outline, Function.comp_def]

namespace Model

theorem class?_outline (m : Model) (c : ClassId) :
    m.outline.class? c = (m.class? c).map (·.outline) := by
  simp [class?, outline]

theorem method?_outline (m : Model) (id : MethodId) :
    m.outline.method? id = (m.method? id).map (·.outline) := by
  cases h : m.class? id.owner <;> simp [method?, class?_outline, h, Class.outline]

/-- What is read off a method's outline agrees between models of one outline. -/
theorem map_method?_congr {m m' : Model} {β : Type} (h : m.outline = m'.outline) (g : Method → β)
    (hg : ∀ f : Method, g f.outline = g f) (id : MethodId) :
    (m.method? id).map g = (m'.method? id).map g := by
  have hm : ∀ n : Model, (n.method? id).map g = (n.outline.method? id).map g := by
    intro n
    rw [method?_outline, Option.map_map]
    congr 1
    funext f
    exact (hg f).symm
  rw [hm m, hm m', h]

theorem map_class?_congr {m m' : Model} {β : Type} (h : m.outline = m'.outline) (g : Class → β)
    (hg : ∀ c : Class, g c.outline = g c) (c : ClassId) :
    (m.class? c).map g = (m'.class? c).map g := by
  have hm : ∀ n : Model, (n.class? c).map g = (n.outline.class? c).map g := by
    intro n
    rw [class?_outline, Option.map_map]
    congr 1
    funext k
    exact (hg k).symm
  rw [hm m, hm m', h]

theorem length_congr {m m' : Model} (h : m.outline = m'.outline) :
    m.classes.length = m'.classes.length := by
  simpa [outline] using congrArg (·.classes.length) h

theorem hasClass_congr {m m' : Model} (h : m.outline = m'.outline) (c : ClassId) :
    m.hasClass c = m'.hasClass c := by
  simp [hasClass, length_congr h]

theorem hasMethod_congr {m m' : Model} (h : m.outline = m'.outline) (id : MethodId) :
    m.hasMethod id = m'.hasMethod id := by
  have hmap := map_method?_congr h (fun _ => ()) (fun _ => rfl) id
  simpa [hasMethod] using congrArg Option.isSome hmap

theorem class?_of_outline {m m' : Model} (h : m.outline = m'.outline) {c : ClassId} {k' : Class}
    (hk : m'.class? c = some k') : ∃ k, m.class? c = some k ∧ k.outline = k'.outline := by
  have ho := map_class?_congr h (·.outline) Class.outline_outline c
  rw [hk] at ho
  exact Option.map_eq_some_iff.1 ho

theorem method?_of_outline {m m' : Model} (h : m.outline = m'.outline) {id : MethodId} {f' : Method}
    (hf : m'.method? id = some f') : ∃ f, m.method? id = some f ∧ f.outline = f'.outline := by
  have ho := map_method?_congr h (·.outline) Method.outline_outline id
  rw [hf] at ho
  exact Option.map_eq_some_iff.1 ho

/-! ### The model while one class is processed -/

/-- The model with `k` in the place of class `c`. -/
def putClass (m : Model) (c : ClassId) (k : Class) : Model := m.modifyClass c fun _ => k

theorem class?_putClass (m : Model) (c d : ClassId) (k : Class) :
    (m.putClass c k).class? d = if c = d then (m.class? d).map fun _ => k else m.class? d :=
  class?_modifyClass m c d _

theorem class?_putClass_ne (m : Model) {c d : ClassId} (k : Class) (h : c ≠ d) :
    (m.putClass c k).class? d = m.class? d := by
  simp [class?_putClass, h]

theorem class?_putClass_self {m : Model} {c : ClassId} {k₀ : Class} (k : Class)
    (h : m.class? c = some k₀) : (m.putClass c k).class? c = some k := by
  simp [class?_putClass, h]

theorem method?_putClass_self {m : Model} {c : ClassId} {k₀ : Class} (k : Class) {id : MethodId}
    (h : m.class? c = some k₀) (hid : id.owner = c) :
    (m.putClass c k).method? id = k.methods[id.index]? := by
  simp [method?, hid, class?_putClass_self k h]

theorem method?_putClass_ne (m : Model) {c : ClassId} (k : Class) {id : MethodId}
    (hid : id.owner ≠ c) : (m.putClass c k).method? id = m.method? id := by
  simp [method?, class?_putClass_ne m k hid.symm]

theorem ext_class? {m m' : Model} (hname : m.name = m'.name)
    (h : ∀ c, m.class? c = m'.class? c) : m = m' := by
  have hclasses : m.classes = m'.classes := List.ext_getElem? h
  cases m
  cases m'
  simp_all

theorem putClass_self {m : Model} {c : ClassId} {k : Class} (h : m.class? c = some k) :
    m.putClass c k = m := by
  refine ext_class? rfl fun d => ?_
  by_cases hcd : c = d
  · subst hcd
    simp [class?_putClass, h]
  · simp [class?_putClass, hcd]

@[simp] theorem modifyClass_putClass (m : Model) (c : ClassId) (k : Class) (f : Class → Class) :
    (m.putClass c k).modifyClass c f = m.putClass c (f k) := by
  simp [putClass, modifyClass, List.modify_modify_eq, Function.comp_def]

@[simp] theorem putClass_putClass (m : Model) (c : ClassId) (k k' : Class) :
    (m.putClass c k).putClass c k' = m.putClass c k' :=
  modifyClass_putClass m c k fun _ => k'

theorem outline_putClass {m : Model} {c : ClassId} {k k₀ : Class} (h : m.class? c = some k₀)
    (hk : k.outline = k₀.outline) : (m.putClass c k).outline = m.outline := by
  refine ext_class? rfl fun d => ?_
  rw [class?_outline, class?_outline, class?_putClass]
  by_cases hcd : c = d
  · subst hcd
    simp [h, hk]
  · simp [hcd]

end Model
end ApiProperties

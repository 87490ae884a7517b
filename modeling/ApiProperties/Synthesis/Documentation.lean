import ApiProperties.Model

/-!
The comment of a property: the getter's, and if that one was taken apart into blocks, followed by
what the setter's comment adds.
-/

set_option autoImplicit false

namespace ApiProperties

/-- The getter's comment followed by the setter's. -/
def Comment.followedBy (c : Comment) (blocks : List CommentBlock) (s : Comment) : Comment :=
  { c with
    brief := c.brief ++ "\n" ++ s.brief
    text := c.text ++ "\n" ++ s.text
    blocks := some (blocks ++ s.blocks.getD []) }

namespace Model

/-- The comment of the setter, if it is another method than the getter. -/
def setterComment? (m : Model) (p : Property) : Option (Option Comment) :=
  match p.setter with
  | some s => if p.getter = some s then some none else (m.method? s).map (·.comment)
  | none => some none

def mergedComment? (m : Model) (p : Property) : Option (Option Comment) :=
  match p.getter with
  | none => some none
  | some g => do
    let f ← m.method? g
    match f.comment with
    | none => pure none
    | some comment =>
      match comment.blocks with
      | none => pure (some comment)
      | some blocks =>
        match ← m.setterComment? p with
        | some s => pure (some (comment.followedBy blocks s))
        | none => pure (some comment)

end Model
end ApiProperties

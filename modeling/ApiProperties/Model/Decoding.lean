import ApiProperties.Model.Encoding
import ApiProperties.Json.Decoding

/-!
Models out of JSON. What `Model.encode` writes is read back; besides, fields with a usual value may
be absent.
-/

set_option autoImplicit false

namespace ApiProperties

open Decoder (keyword string bool word list)
open Fields (record payload)

def Access.decode : Decoder Access := keyword Access.all Access.name

def Generation.decode : Decoder Generation := keyword Generation.all Generation.name

def Origin.decode : Decoder Origin := keyword Origin.all Origin.name

def MethodKind.decode : Decoder MethodKind := keyword MethodKind.all MethodKind.name

def ParameterKind.decode : Decoder ParameterKind := keyword ParameterKind.all ParameterKind.name

def CommentKind.decode : Decoder CommentKind := keyword CommentKind.all CommentKind.name

def PointerKind.decode : Decoder PointerKind := keyword PointerKind.all PointerKind.name

def Primitive.decode : Decoder Primitive := keyword Primitive.all Primitive.name

/-- A qualified type, given how to decode the type one level further in. -/
def decodeQualified (type : Json → Option TypeExpr) : Decoder QualifiedType :=
  fun source budget j => do
  let f ← record ["ty", "is_const"] source budget j
  pure {
    type := ← f.required "ty" fun _ _ => type
    isConst := ← f.defaulted "is_const" false bool }

def TypeExpr.decode (source : Provenance) : (budget : Nat) → Json → Option TypeExpr
  | 0, _ => none
  | budget + 1, j => do
    let (key, value) ← j.tagged?
    match key with
    | "builtin" => (Primitive.decode source budget value).map .builtin
    | "tag" => (word source budget value).map .tag
    | "named" => (string source budget value).map .named
    | "pointer" =>
      match budget with
      | inner + 2 => do
        let f ← payload ["pointee", "kind"] source (inner + 2) value
        let pointee ← f.required "pointee" (decodeQualified (TypeExpr.decode source inner))
        let kind ← f.required "kind" PointerKind.decode
        pure (.pointer pointee.type pointee.isConst kind)
      | _ => none
    | "typedef" =>
      match budget with
      | inner + 2 => do
        let f ← payload ["name", "underlying"] source (inner + 2) value
        let name ← f.required "name" string
        let underlying ← f.required "underlying" (decodeQualified (TypeExpr.decode source inner))
        pure (.typedef name underlying.type underlying.isConst)
      | _ => none
    | _ => none

def QualifiedType.decode : Decoder QualifiedType
  | _, 0, _ => none
  | source, budget + 1, j => decodeQualified (TypeExpr.decode source budget) source (budget + 1) j

def MethodId.decode : Decoder MethodId := fun source budget j => do
  let f ← record ["class", "index"] source budget j
  pure {
    owner := ← f.required "class" word
    index := ← f.required "index" word }

def CommentBlock.decode : Decoder CommentBlock
  | _, 0, _ => none
  | source, budget + 1, j => do
    let (key, value) ← j.tagged?
    match key with
    | "paragraph" => do
      let f ← payload ["text"] source budget value
      pure (.paragraph (← f.required "text" string))
    | "param" => do
      let f ← payload ["name", "text"] source budget value
      pure (.param (← f.required "name" string) (← f.required "text" string))
    | "returns" => do
      let f ← payload ["text"] source budget value
      pure (.returns (← f.required "text" string))
    | "command" => do
      let f ← payload ["name", "text"] source budget value
      pure (.command (← f.required "name" string) (← f.required "text" string))
    | _ => none

def decodeBlocks : Decoder (List CommentBlock) := fun source budget j => do
  let f ← record ["blocks"] source budget j
  f.required "blocks" (list CommentBlock.decode)

def Comment.decode : Decoder Comment := fun source budget j => do
  let f ← record ["kind", "brief", "text", "full"] source budget j
  pure {
    kind := ← f.defaulted "kind" .invalid CommentKind.decode
    brief := ← f.defaulted "brief" "" string
    text := ← f.defaulted "text" "" string
    blocks := ← f.optional "full" decodeBlocks }

def Parameter.decode : Decoder Parameter := fun source budget j => do
  let f ← record ["name", "kind", "qualified_type"] source budget j
  pure {
    name := ← f.defaulted "name" "" string
    kind := ← f.defaulted "kind" .regular ParameterKind.decode
    type := ← f.required "qualified_type" QualifiedType.decode }

def Method.fieldNames : List String :=
  ["name", "original_name", "namespace", "kind", "is_static", "is_override", "overridden",
   "explicit_interface_impl", "generation_kind", "synth_kind", "parameters", "return_type",
   "comment", "access", "excluded_passes"]

def Method.decode : Decoder Method := fun source budget j => do
  let f ← record fieldNames source budget j
  pure {
    name := ← f.required "name" string
    originalName := ← f.required "original_name" string
    owner := ← f.required "namespace" word
    kind := ← f.defaulted "kind" .normal MethodKind.decode
    isStatic := ← f.defaulted "is_static" false bool
    isOverride := ← f.defaulted "is_override" false bool
    overridden := ← f.optional "overridden" MethodId.decode
    implemented := ← f.optional "explicit_interface_impl" MethodId.decode
    generation := ← f.defaulted "generation_kind" .generate Generation.decode
    origin := ← f.defaulted "synth_kind" .ordinary Origin.decode
    parameters := ← f.defaulted "parameters" [] (list Parameter.decode)
    returnType := ← f.required "return_type" QualifiedType.decode
    comment := ← f.optional "comment" Comment.decode
    access := ← f.defaulted "access" .pub Access.decode
    excludedPasses := NameSet.ofList (← f.defaulted "excluded_passes" [] (list string)) }

def Property.fieldNames : List String :=
  ["name", "original_name", "qualified_type", "getter", "setter", "field", "namespace", "access",
   "comment", "explicit_interface_impl"]

def Property.decode : Decoder Property := fun source budget j => do
  let f ← record fieldNames source budget j
  pure {
    name := ← f.required "name" string
    originalName := ← f.required "original_name" string
    type := ← f.required "qualified_type" QualifiedType.decode
    getter := ← f.optional "getter" MethodId.decode
    setter := ← f.optional "setter" MethodId.decode
    field := ← f.optional "field" string
    owner := ← f.required "namespace" word
    access := ← f.defaulted "access" .pub Access.decode
    comment := ← f.optional "comment" Comment.decode
    implemented := ← f.optional "explicit_interface_impl" MethodId.decode }

def Event.decode : Decoder Event := fun source budget j => do
  let f ← record ["name", "namespace"] source budget j
  pure {
    name := ← f.required "name" string
    owner := ← f.required "namespace" word }

def Base.decode : Decoder Base := fun source budget j => do
  let f ← record ["class", "access"] source budget j
  pure {
    target := ← f.required "class" word
    access := ← f.defaulted "access" .pub Access.decode }

def Class.fieldNames : List String :=
  ["id", "name", "access", "bases", "methods", "properties", "events", "definition"]

def Class.decode : Decoder Class := fun source budget j => do
  let f ← record fieldNames source budget j
  pure {
    id := ← f.required "id" word
    name := ← f.required "name" string
    access := ← f.defaulted "access" .pub Access.decode
    bases := ← f.defaulted "bases" [] (list Base.decode)
    methods := ← f.defaulted "methods" [] (list Method.decode)
    properties := ← f.defaulted "properties" [] (list Property.decode)
    events := ← f.defaulted "events" [] (list Event.decode)
    definition := ← f.optional "definition" word }

def Model.decode : Decoder Model := fun source budget j => do
  let f ← record ["name", "classes"] source budget j
  pure {
    name := ← f.defaulted "name" "" string
    classes := ← f.defaulted "classes" [] (list Class.decode) }

/-- The model that the value of a whole text is. -/
def Model.ofJson? (j : Json) : Option Model := Model.decode .text Decoder.maxDepth j

end ApiProperties

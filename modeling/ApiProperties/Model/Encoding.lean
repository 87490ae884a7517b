import ApiProperties.Model
import ApiProperties.Json

/-!
Models as JSON. Every field is written, an absent value as `null` and a keyword by its name.
-/

set_option autoImplicit false

namespace ApiProperties

namespace Access

def all : List Access := [.priv, .prot, .pub]

def name : Access → String
  | .priv => "private"
  | .prot => "protected"
  | .pub => "public"

end Access

namespace Generation

def all : List Generation := [.generate, .internal, .excluded]

def name : Generation → String
  | .generate => "generate"
  | .internal => "internal"
  | .excluded => "excluded"

end Generation

namespace Origin

def all : List Origin := [.ordinary, .defaultValueOverload, .complementOperator, .fieldAccessor]

def name : Origin → String
  | .ordinary => "ordinary"
  | .defaultValueOverload => "default_value_overload"
  | .complementOperator => "complement_operator"
  | .fieldAccessor => "field_accessor"

end Origin

namespace MethodKind

def all : List MethodKind := [.normal, .constructor, .destructor, .operator]

def name : MethodKind → String
  | .normal => "normal"
  | .constructor => "constructor"
  | .destructor => "destructor"
  | .operator => "operator"

end MethodKind

namespace ParameterKind

def all : List ParameterKind := [.regular, .indirectReturn]

def name : ParameterKind → String
  | .regular => "regular"
  | .indirectReturn => "indirect_return"

end ParameterKind

namespace CommentKind

def all : List CommentKind := [.invalid, .bcplSlash, .bcplExcl, .javaDoc, .qt, .merged]

def name : CommentKind → String
  | .invalid => "invalid"
  | .bcplSlash => "bcpl_slash"
  | .bcplExcl => "bcpl_excl"
  | .javaDoc => "java_doc"
  | .qt => "qt"
  | .merged => "merged"

end CommentKind

namespace PointerKind

def all : List PointerKind := [.pointer, .lValueReference, .rValueReference]

def name : PointerKind → String
  | .pointer => "pointer"
  | .lValueReference => "l_value_reference"
  | .rValueReference => "r_value_reference"

end PointerKind

namespace Primitive

def all : List Primitive :=
  [.void, .bool, .char, .wideChar, .short, .uShort, .int, .uInt, .long, .uLong, .longLong,
   .uLongLong, .float, .double, .longDouble, .intPtr, .uIntPtr, .null]

def name : Primitive → String
  | .void => "void"
  | .bool => "bool"
  | .char => "char"
  | .wideChar => "wide_char"
  | .short => "short"
  | .uShort => "u_short"
  | .int => "int"
  | .uInt => "u_int"
  | .long => "long"
  | .uLong => "u_long"
  | .longLong => "long_long"
  | .uLongLong => "u_long_long"
  | .float => "float"
  | .double => "double"
  | .longDouble => "long_double"
  | .intPtr => "int_ptr"
  | .uIntPtr => "u_int_ptr"
  | .null => "null"

end Primitive

open Json

def encodeQualified (type : Json) (isConst : Bool) : Json :=
  ofFields [("ty", type), ("is_const", .bool isConst)]

def TypeExpr.encode : TypeExpr → Json
  | .builtin p => ofFields [("builtin", ofString p.name)]
  | .pointer pointee const kind =>
    ofFields [("pointer", ofFields
      [("pointee", encodeQualified pointee.encode const), ("kind", ofString kind.name)])]
  | .tag target => ofFields [("tag", nat target)]
  | .typedef name underlying const =>
    ofFields [("typedef", ofFields
      [("name", ofString name), ("underlying", encodeQualified underlying.encode const)])]
  | .named spelling => ofFields [("named", ofString spelling)]

def QualifiedType.encode (q : QualifiedType) : Json := encodeQualified q.type.encode q.isConst

def MethodId.encode (id : MethodId) : Json :=
  ofFields [("class", nat id.owner), ("index", nat id.index)]

def CommentBlock.encode : CommentBlock → Json
  | .paragraph text => ofFields [("paragraph", ofFields [("text", ofString text)])]
  | .param name text =>
    ofFields [("param", ofFields [("name", ofString name), ("text", ofString text)])]
  | .returns text => ofFields [("returns", ofFields [("text", ofString text)])]
  | .command name text =>
    ofFields [("command", ofFields [("name", ofString name), ("text", ofString text)])]

def Comment.encode (c : Comment) : Json :=
  ofFields [
    ("kind", ofString c.kind.name),
    ("brief", ofString c.brief),
    ("text", ofString c.text),
    ("full", ofOption (fun blocks => ofFields [("blocks", ofList CommentBlock.encode blocks)])
      c.blocks)]

def Parameter.encode (p : Parameter) : Json :=
  ofFields [
    ("name", ofString p.name),
    ("kind", ofString p.kind.name),
    ("qualified_type", p.type.encode)]

def Method.encode (f : Method) : Json :=
  ofFields [
    ("name", ofString f.name),
    ("original_name", ofString f.originalName),
    ("namespace", nat f.owner),
    ("kind", ofString f.kind.name),
    ("is_static", .bool f.isStatic),
    ("is_override", .bool f.isOverride),
    ("overridden", ofOption MethodId.encode f.overridden),
    ("explicit_interface_impl", ofOption MethodId.encode f.implemented),
    ("generation_kind", ofString f.generation.name),
    ("synth_kind", ofString f.origin.name),
    ("parameters", ofList Parameter.encode f.parameters),
    ("return_type", f.returnType.encode),
    ("comment", ofOption Comment.encode f.comment),
    ("access", ofString f.access.name),
    ("excluded_passes", ofList ofString f.excludedPasses.names)]

def Property.encode (p : Property) : Json :=
  ofFields [
    ("name", ofString p.name),
    ("original_name", ofString p.originalName),
    ("qualified_type", p.type.encode),
    ("getter", ofOption MethodId.encode p.getter),
    ("setter", ofOption MethodId.encode p.setter),
    ("field", ofOption ofString p.field),
    ("namespace", nat p.owner),
    ("access", ofString p.access.name),
    ("comment", ofOption Comment.encode p.comment),
    ("explicit_interface_impl", ofOption MethodId.encode p.implemented)]

def Event.encode (e : Event) : Json :=
  ofFields [("name", ofString e.name), ("namespace", nat e.owner)]

def Base.encode (b : Base) : Json :=
  ofFields [("class", nat b.target), ("access", ofString b.access.name)]

def Class.encode (c : Class) : Json :=
  ofFields [
    ("id", nat c.id),
    ("name", ofString c.name),
    ("access", ofString c.access.name),
    ("bases", ofList Base.encode c.bases),
    ("methods", ofList Method.encode c.methods),
    ("properties", ofList Property.encode c.properties),
    ("events", ofList Event.encode c.events),
    ("definition", ofOption nat c.definition)]

def Model.encode (m : Model) : Json :=
  ofFields [("name", ofString m.name), ("classes", ofList Class.encode m.classes)]

end ApiProperties

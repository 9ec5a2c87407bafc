import AmbientDecl.Symbol.Basic
import AmbientDecl.Validation.Decoder

/-!
# Types and symbols in JSON

A type is an object whose member `type` says which form it has; the other members are its parts. The
parts of a type are less deep than the type, so reading one follows the depth of the value.

A symbol and its parts are read from the members of objects. All but a few members have a value for
their absence, and members that no field takes are passed over.
-/

namespace AmbientDecl

open Json Validation

def FunctionParam.decode (decoder : Decoder TypeNode) : Decoder (FunctionParam TypeNode) :=
  object "FunctionParam" fun ms => FunctionParam.mk
    <$> field ms "name" (orNull string) none
    <*> required ms "type" decoder
    <*> field ms "optional" truth false
    <*> field ms "variadic" truth false

def RecordField.decode (decoder : Decoder TypeNode) : Decoder (RecordField TypeNode) :=
  object "RecordField" fun ms => RecordField.mk
    <$> required ms "name" string
    <*> required ms "type" decoder
    <*> field ms "optional" truth false
    <*> field ms "description" (orNull string) none

/-- The forms of types, each with a reader of its members; the types inside are read by
`decoder`. -/
def typeForms (decoder : Decoder TypeNode) : List (String × (Members → Checked TypeNode)) :=
  [("named", fun ms => TypeNode.named <$> required ms "name" string),
   ("union", fun ms => TypeNode.union <$> required ms "members" (tuple decoder)),
   ("array", fun ms => TypeNode.array <$> required ms "element" decoder),
   ("generic", fun ms => TypeNode.generic
      <$> required ms "base" string
      <*> required ms "args" (tuple decoder)),
   ("function", fun ms => TypeNode.function
      <$> field ms "params" (tuple (FunctionParam.decode decoder)) []
      <*> field ms "returns" (orNull decoder) none
      <*> field ms "this_type" (orNull decoder) none
      <*> field ms "constructs" (orNull decoder) none),
   ("record", fun ms => TypeNode.record
      <$> field ms "fields" (tuple (RecordField.decode decoder)) []),
   ("literal", fun ms => TypeNode.literal <$> required ms "value" string),
   ("unknown", fun ms => TypeNode.unreadable <$> field ms "raw" string "")]

namespace TypeNode

/-- A type whose value is at most `depth` deep. -/
def decodeWithin : (depth : Nat) → Decoder TypeNode
  | 0, _ => .fault .notTagged
  | depth + 1, v => tagged "type" (typeForms (decodeWithin depth)) v

/-- Reads a type; the faults in it are at paths that start with its form. -/
def decode (v : Value) : Checked TypeNode :=
  decodeWithin v.depth v

end TypeNode

def TypeParameter.decode : Decoder TypeParameter :=
  object "TypeParameter" fun ms => TypeParameter.mk
    <$> required ms "name" string
    <*> field ms "constraint" (orNull string) none

def Parameter.decode : Decoder Parameter :=
  object "Parameter" fun ms => Parameter.mk
    <$> required ms "name" string
    <*> field ms "type" TypeNode.decode .any
    <*> field ms "optional" truth false
    <*> field ms "nullable" truth false
    <*> field ms "variadic" truth false
    <*> field ms "default_value" (orNull string) none
    <*> field ms "description" (orNull string) none

def Signature.decode : Decoder Signature :=
  object "CallSignature" fun ms =>
    (fun longname kind params returns returnsDescription typeParameters description deprecated
        since =>
      { longname, kind, params, returns, returnsDescription, typeParameters, description,
        deprecated, since, documented := [] })
    <$> required ms "longname" string
    <*> required ms "kind" (choice SymbolKind.table)
    <*> field ms "params" (list Parameter.decode) []
    <*> field ms "returns" (orNull TypeNode.decode) none
    <*> field ms "returns_description" (orNull string) none
    <*> field ms "type_parameters" (list TypeParameter.decode) []
    <*> field ms "description" (orNull string) none
    <*> field ms "deprecated" (orNull string) none
    <*> field ms "since" (orNull string) none

def EnumValue.decode : Decoder EnumValue :=
  object "EnumValue" fun ms => EnumValue.mk
    <$> required ms "name" string
    <*> field ms "value" (orNull string) none
    <*> field ms "description" (orNull string) none

/-- Reads everything that is said about a symbol besides its kind. -/
def Symbol.decode (kind : SymbolKind) (ms : Members) : Checked Symbol :=
  (fun name longname signatures type enumValues typeParameters augments implements mixes scope
      access readonly constant isAbstract hideConstructor description deprecated since synthesized
      unresolvedParent =>
    { kind, name, longname, signatures, type, enumValues, typeParameters, augments, implements,
      mixes, scope, access, readonly, constant, isAbstract, hideConstructor, description,
      deprecated, since, synthesized, unresolvedParent, doclets := [] })
    <$> required ms "name" string
    <*> required ms "longname" string
    <*> field ms "signatures" (list Signature.decode) []
    <*> field ms "type" (orNull TypeNode.decode) none
    <*> field ms "enum_values" (list EnumValue.decode) []
    <*> field ms "type_parameters" (list TypeParameter.decode) []
    <*> field ms "augments" (list string) []
    <*> field ms "implements" (list string) []
    <*> field ms "mixes" (list string) []
    <*> field ms "scope" (orNull (choice Scope.table)) none
    <*> field ms "access" (orNull (choice Access.table)) none
    <*> field ms "readonly" truth false
    <*> field ms "constant" truth false
    <*> field ms "abstract" truth false
    <*> field ms "hide_constructor" truth false
    <*> field ms "description" (orNull string) none
    <*> field ms "deprecated" (orNull string) none
    <*> field ms "since" (orNull string) none
    <*> field ms "synthesized" truth false
    <*> field ms "unresolved_parent" (orNull string) none

end AmbientDecl

import AmbientDecl.Doclet.Basic
import AmbientDecl.Run
import AmbientDecl.Validation.Decoder

/-!
# Doclets and JSON

A doclet is read from a JSON object whose member `kind` selects the fields, and written back with
every field. Fields are checked in a fixed order, first those that all doclets have, so the first
fault of a record is determined.

The records of a documentation run become doclets. A record of a kind that has no declarations is
passed over with a diagnostic; a record that is no doclet at all ends the run.
-/

namespace AmbientDecl.Doclet

open Json Validation

def TypeNames.decode : Decoder TypeNames
  | .string s => .valid ⟨[s]⟩
  | v => object "DocletType" (fun ms => TypeNames.mk <$> field ms "names" (list string) []) v

/-- The place of a comment. -/
def decodeLocation : Decoder SourceLocation :=
  object "DocletMeta" fun ms => SourceLocation.mk
    <$> field ms "filename" (orNull string) none
    <*> field ms "path" (orNull string) none
    <*> field ms "lineno" (orNull integer) none

def Tag.decode : Decoder Tag :=
  object "DocletTag" fun ms => Tag.mk
    <$> required ms "title" string
    <*> field ms "value" anything .null
    <*> field ms "text" (orNull string) none

def Param.decode : Decoder Param :=
  object "DocletParam" fun ms => Param.mk
    <$> field ms "name" (orNull string) none
    <*> field ms "type" (orNull TypeNames.decode) none
    <*> field ms "description" (orNull string) none
    <*> field ms "optional" truth false
    <*> field ms "nullable" (orNull truth) none
    <*> field ms "variable" truth false
    <*> field ms "defaultvalue" anything .null

def Return.decode : Decoder Return :=
  object "DocletReturn" fun ms => Return.mk
    <$> field ms "type" (orNull TypeNames.decode) none
    <*> field ms "description" (orNull string) none

/-- A flag or a text about deprecation. What is neither is at fault as both. -/
def Deprecation.decode : Decoder Deprecation
  | .string s => .valid (.text s)
  | v => match truth v with
    | .valid b => .valid (.flag b)
    | .invalid faults =>
      (Checked.invalid faults).under "bool" <* (Checked.fault .notString : Checked Unit).under "str"

/-- The supported kinds in their order. -/
def kindNames : List String :=
  ["class", "interface", "mixin", "function", "member", "constant", "namespace", "module",
   "typedef", "package", "file"]

/-- The member that marks an enumeration has two spellings, of which the first wins. -/
def decodeIsEnum (ms : Members) : Checked Bool :=
  match lookup "isEnum" ms with
  | some _ => field ms "isEnum" truth false
  | none => field ms "is_enum" truth false

/-- The fields of a class, an interface or a mixin. -/
def decodeClass (form : ClassForm) (ms : Members) : Checked Detail :=
  (fun params augments implements mixes description hide virtual =>
    .classLike ⟨form, params, augments, implements, mixes, description, hide, virtual⟩)
    <$> field ms "params" (list Param.decode) []
    <*> field ms "augments" (list string) []
    <*> field ms "implements" (list string) []
    <*> field ms "mixes" (list string) []
    <*> field ms "classdesc" (orNull string) none
    <*> field ms "hideconstructor" truth false
    <*> field ms "virtual" truth false

/-- The fields that depend on the kind. -/
def decodeDetail (kind : String) (ms : Members) : Checked Detail :=
  match kind with
  | "class" => decodeClass .classForm ms
  | "interface" => decodeClass .interfaceForm ms
  | "mixin" => decodeClass .mixinForm ms
  | "function" => Detail.callable
      <$> field ms "params" (list Param.decode) []
      <*> field ms "returns" (list Return.decode) []
  | "member" => Detail.value false
      <$> field ms "type" (orNull TypeNames.decode) none
      <*> decodeIsEnum ms
  | "constant" => Detail.value true
      <$> field ms "type" (orNull TypeNames.decode) none
      <*> decodeIsEnum ms
  | "namespace" => .valid (.container false)
  | "module" => .valid (.container true)
  | "typedef" => Detail.typedef
      <$> field ms "type" (orNull TypeNames.decode) none
      <*> field ms "params" (list Param.decode) []
      <*> field ms "returns" (list Return.decode) []
  | "package" => Detail.package <$> field ms "files" (list string) []
  | _ => .valid .file

/-- Reads the object of a doclet of a supported kind. -/
def decode (kind : String) (ms : Members) : Checked Doclet :=
  Doclet.mk
    <$> field ms "name" string ""
    <*> required ms "longname" string
    <*> field ms "scope" (orNull (choice Scope.table)) none
    <*> field ms "memberof" (orNull string) none
    <*> field ms "access" (orNull (choice Access.table)) none
    <*> field ms "since" (orNull string) none
    <*> field ms "deprecated" (orNull Deprecation.decode) none
    <*> field ms "description" (orNull string) none
    <*> field ms "comment" (orNull string) none
    <*> field ms "ignore" truth false
    <*> field ms "undocumented" truth false
    <*> field ms "readonly" truth false
    <*> field ms "defaultvalue" anything .null
    <*> field ms "properties" (list Param.decode) []
    <*> field ms "tags" (list Tag.decode) []
    <*> field ms "meta" (orNull decodeLocation) none
    <*> decodeDetail kind ms

/-- Finds the kind first; its faults are at paths that start with the kind. -/
def ofValue : Decoder Doclet :=
  tagged "kind" (kindNames.map fun kind => (kind, decode kind))

def TypeNames.toValue (t : TypeNames) : Value :=
  .object [("names", .ofStrings t.names)]

/-- An optional part as a value. -/
def optionalValue {α : Type} (write : α → Value) : Option α → Value
  | some a => write a
  | none => .null

def locationValue (location : SourceLocation) : Value :=
  .object [("filename", .ofString? location.filename), ("path", .ofString? location.path),
    ("lineno", .ofInt? location.lineno)]

def Tag.toValue (t : Tag) : Value :=
  .object [("title", .string t.title), ("value", t.value), ("text", .ofString? t.text)]

def Param.toValue (p : Param) : Value :=
  .object [("name", .ofString? p.name), ("type", optionalValue TypeNames.toValue p.type),
    ("description", .ofString? p.description), ("optional", .bool p.optional),
    ("nullable", optionalValue Value.bool p.nullable), ("variable", .bool p.variable_),
    ("defaultvalue", p.defaultValue)]

def Return.toValue (r : Return) : Value :=
  .object [("type", optionalValue TypeNames.toValue r.type),
    ("description", .ofString? r.description)]

def Deprecation.toValue : Deprecation → Value
  | .flag b => .bool b
  | .text s => .string s

def paramsValue (params : List Param) : Value :=
  .array (params.map Param.toValue)

def returnsValue (returns : List Return) : Value :=
  .array (returns.map Return.toValue)

/-- The members that depend on the kind. -/
def Detail.members : Detail → Members
  | .classLike d =>
    [("params", paramsValue d.params), ("augments", .ofStrings d.augments),
     ("implements", .ofStrings d.implements), ("mixes", .ofStrings d.mixes),
     ("classdesc", .ofString? d.classDescription), ("hideconstructor", .bool d.hideConstructor),
     ("virtual", .bool d.isVirtual)]
  | .callable params returns => [("params", paramsValue params), ("returns", returnsValue returns)]
  | .value _ type isEnum =>
    [("type", optionalValue TypeNames.toValue type), ("is_enum", .bool isEnum)]
  | .container _ => []
  | .typedef type params returns =>
    [("type", optionalValue TypeNames.toValue type), ("params", paramsValue params),
     ("returns", returnsValue returns)]
  | .package files => [("files", .ofStrings files)]
  | .file => []

/-- The members for all fields of a doclet. -/
def members (d : Doclet) : Members :=
  [("name", .string d.name), ("longname", .string d.longname),
   ("scope", optionalValue (fun s => .string s.name) d.scope),
   ("memberof", .ofString? d.memberof),
   ("access", optionalValue (fun a => .string a.name) d.access),
   ("since", .ofString? d.since),
   ("deprecated", optionalValue Deprecation.toValue d.deprecated),
   ("description", .ofString? d.description), ("comment", .ofString? d.comment),
   ("ignore", .bool d.ignore), ("undocumented", .bool d.undocumented),
   ("readonly", .bool d.readonly), ("defaultvalue", d.defaultValue),
   ("properties", paramsValue d.properties), ("tags", .array (d.tags.map Tag.toValue)),
   ("meta", optionalValue locationValue d.location), ("kind", .string d.kindName)] ++
    d.detail.members

/-- The object of a doclet. -/
def toRecord (d : Doclet) : Value :=
  .object d.members

/-- The object of a doclet as JSON can write it. -/
def toValue (d : Doclet) : Value :=
  d.toRecord.writable

end AmbientDecl.Doclet

namespace AmbientDecl

open Json Validation

/-- What a value is, in a word. -/
def valueClass : Value → String
  | .null => "NoneType"
  | .bool _ => "bool"
  | .int _ => "int"
  | .float _ => "float"
  | .string _ => "str"
  | .array _ => "list"
  | .object _ => "dict"

def textOf? : Value → Option String
  | .string s => some s
  | _ => none

/-- The supported kind that a record gives, if it is one. -/
def supportedKind? (kind : Value) : Option String :=
  (textOf? kind).filter Doclet.kindNames.contains

/-- The doclet of a record, or none if its kind is unknown. -/
def loadRecord (index : Nat) : Value → Run (Option Doclet)
  | .object ms => do
    let kind := (lookup "kind" ms).getD .null
    let longname := (lookup "longname" ms).bind textOf?
    match kind with
    | .array _ => Run.fail (.compositeKind true)
    | .object _ => Run.fail (.compositeKind false)
    | _ =>
      match supportedKind? kind with
      | none => do
        Run.attempt (.writing kind)
        Run.report ⟨.unsupportedKind, longname, s!"Unsupported doclet kind: {kind.text}", none⟩
        return none
      | some kind =>
        match (Doclet.decode kind ms).under kind with
        | .valid d => return some d
        | .invalid faults => do
          let first := (faults.head?.map Fault.message).getD ""
          Run.report ⟨.invalidDoclet, longname, s!"Doclet #{index} is malformed: {first}", none⟩
          return none
  | other => do
    Run.report
      ⟨.invalidDoclet, none, s!"Doclet #{index} is not an object: {valueClass other}", none⟩
    return none

/-- The doclets of the records, of which the first has the number `index`. -/
def loadFrom (index : Nat) : List Value → Run (List Doclet)
  | [] => return []
  | record :: rest => do
    let d ← loadRecord index record
    let more ← loadFrom (index + 1) rest
    return d.toList ++ more

/-- The doclets of records, in order. -/
def loadDoclets (records : List Value) : Run (List Doclet) :=
  loadFrom 0 records

end AmbientDecl

import AmbientDecl.Longname
import AmbientDecl.Run
import AmbientDecl.Symbol.Basic

/-!
# Symbols and signatures of doclets

The value of an enumeration's member is written as a number or as a string literal. A text that
writes a number is taken as that number, one between quotes loses them.

A comment lists type parameters in `template` tags: names with commas between them, each perhaps
with the type that it extends. A type between braces before the names is what all those extend that
do not say it themselves.

The first doclet of a longname makes the symbol. Type expressions that cannot be read are reported
about the doclet and stand for a type that is printed as any type.

A doclet of a function, a class or a callback documents one way to call it.
-/

namespace AmbientDecl

open Json Text TypeExpr

def isNumberText (cs : List Char) : Bool :=
  match TypeExpr.number? cs with
  | some (_, rest) => rest.isEmpty
  | none => false

/-- The written form of a text as a value. -/
def textInitializer (text : String) : String :=
  let trimmed := stripped text
  if isNumberText trimmed.toList then trimmed else stringLiteral (unquote trimmed)

/-- The written form of a value; null and truth values have none. -/
def initializer? : Value → Option String
  | .null | .bool _ => none
  | .int n => some (toString n)
  | .float x => some x.text
  | value => some (textInitializer value.text)

/-- Writes a value, which a machine with limits may not do. -/
def writeInitializer (value : Value) : Run (Option String) := do
  Run.attempt (.writing value)
  return initializer? value

open Text

/-- A text that is not empty. -/
def present? (cs : List Char) : Option String :=
  if cs.isEmpty then none else some (String.ofList cs)

/-- The type between braces at the front of a text, up to the last brace, and the text after it. -/
def splitConstraint (cs : List Char) : Option String × List Char :=
  match cs with
  | '\x7b' :: rest =>
    match cutLast '\x7d' rest with
    | some (constraint, names) => (present? (trim constraint), trimLeft names)
    | none => (none, cs)
  | _ => (none, cs)

/-- The type parameter that a piece between commas writes. -/
def typeParameter? (constraint : Option String) (piece : List Char) : Option TypeParameter :=
  let (name, extends_) := match cutWord " extends ".toList (trim piece) with
    | some (name, extended) => (name, present? (trim extended))
    | none => (trim piece, none)
  (present? (trim name)).map fun name => ⟨name, extends_.or constraint⟩

/-- The type parameters that the text of a tag lists. -/
def typeParametersOfText (text : String) : List TypeParameter :=
  let (constraint, names) := splitConstraint (trim text.toList)
  (splitAt ',' names).filterMap (typeParameter? constraint)

/-- What a tag says: its value, or its text if it has no value. -/
def Doclet.Tag.content (tag : Doclet.Tag) : String :=
  match tag.value with
  | .null => tag.text.getD ""
  | value => value.text

/-- The type parameters of a doclet. -/
def typeParametersOf (d : Doclet) : List TypeParameter :=
  (d.tags.filter fun tag => tag.title == "template").flatMap fun tag =>
    typeParametersOfText tag.content

/-- The values that are written to find the type parameters of a doclet. -/
def templateTasks (d : Doclet) : List Task :=
  (d.tags.filter fun tag => tag.title == "template").map fun tag => .writing tag.value

/-- Reads a type expression of a doclet. -/
def readTypeOf (d : Doclet) (expression : Option String) : Run TypeExpression := do
  Run.attempt (.read (Text.stripped (expression.getD "")))
  let reading := readType expression
  match reading.complaint with
  | some message => do
    Run.report (.about d .malformedType message)
    return reading.expression
  | none => return reading.expression

/-- The kind of symbol that a doclet documents. -/
def Doclet.symbolKind (d : Doclet) : SymbolKind :=
  match d.detail with
  | .classLike detail => if detail.form = .classForm then .classDecl else .interfaceDecl
  | .callable .. => .functionDecl
  | .value _ _ isEnum => if isEnum then .enumDecl else .memberDecl
  | .container isModule => if isModule then .moduleDecl else .namespaceDecl
  | .typedef .. => .typedefDecl
  | .package _ | .file => .root

/-- What the symbol says about deprecation; a bare flag says nothing more. -/
def Doclet.deprecatedText (d : Doclet) : Option String :=
  match d.deprecated with
  | none | some (.flag false) => none
  | some (.flag true) => some ""
  | some (.text s) => some s

namespace Symbol

/-- The name of a symbol: the path of a module, else the name that the doclet gives or the last
segment of its longname. -/
def nameOf (d : Doclet) : Run String :=
  if d.symbolKind = .moduleDecl then
    match Longname.modulePath? d.longname with
    | some path => return path
    | none => Run.fail .unnamedModule
  else return if d.name = "" then Longname.lastSegment d.longname else unquote d.name

/-- The symbol with what every doclet says. -/
def baseOf (d : Doclet) : Run Symbol := do
  let name ← nameOf d
  Run.attemptAll (templateTasks d)
  return { Symbol.bare d.symbolKind name d.longname with
    scope := d.scope
    access := d.access
    readonly := d.readonly
    description := d.description
    deprecated := d.deprecatedText
    since := d.since
    typeParameters := typeParametersOf d }

/-- The values of an enumeration that properties document. -/
def enumValuesOf : List Doclet.Param → Run (List EnumValue)
  | [] => return []
  | p :: rest =>
    match nonempty? p.name with
    | some name => do
      let value ← writeInitializer p.defaultValue
      let more ← enumValuesOf rest
      return ⟨name, value, p.description⟩ :: more
    | none => enumValuesOf rest

/-- The symbol with what only doclets of its kind say. -/
def withDetail (d : Doclet) (s : Symbol) : Run Symbol :=
  match d.detail with
  | .classLike detail =>
    return { s with
      augments := detail.augments
      implements := detail.implements
      mixes := detail.mixes
      isAbstract := detail.isVirtual
      hideConstructor := detail.hideConstructor
      description :=
        if detail.form = .classForm then detail.classDescription
        else (nonempty? detail.classDescription).or d.description }
  | .value constant type isEnum => do
    if isEnum then
      let values ← enumValuesOf d.properties
      return { s with constant := constant, enumValues := values }
    else
      let e ← readTypeOf d (type.map Doclet.TypeNames.expression)
      return { s with
        constant := constant
        type := some (if e.nullable = some true then e.type.orNull else e.type) }
  | .typedef (some type) _ _ => do
    let e ← readTypeOf d (some type.expression)
    return { s with type := some e.type }
  | _ => return s

/-- Makes the symbol of a doclet. -/
def ofDoclet (d : Doclet) : Run Symbol := do
  let s ← baseOf d
  withDetail d s

end Symbol

/-- The name of a parameter that the comment does not name. -/
def positionalName (position : Nat) : String :=
  s!"arg{position}"

def Doclet.Param.nameAt (p : Doclet.Param) (position : Nat) : String :=
  (nonempty? p.name).getD (positionalName position)

/-- A value that is not null, as text. -/
def valueText? : Json.Value → Option String
  | .null => none
  | v => some v.text

/-- Makes a parameter out of a documented one. -/
def parameterOf (d : Doclet) (position : Nat) (p : Doclet.Param) : Run Parameter := do
  let e ← readTypeOf d (p.type.map Doclet.TypeNames.expression)
  Run.attempt (.writing p.defaultValue)
  return {
    name := p.nameAt position
    type := e.type
    optional := p.optional || e.optional
    nullable := p.nullable.getD false || e.nullable.getD false
    variadic := p.variable_ || e.variadic
    defaultValue := valueText? p.defaultValue
    description := p.description }

/-- The parameters that a doclet documents from a position on. -/
def parametersFrom (d : Doclet) (position : Nat) : List Doclet.Param → Run (List Parameter)
  | [] => return []
  | p :: rest => do
    let first ← parameterOf d position p
    let more ← parametersFrom d (position + 1) rest
    return first :: more

/-- The type of a documented return value; one without a type can be anything. -/
def returnType (d : Doclet) (r : Doclet.Return) : Run TypeNode :=
  match r.type with
  | none => return .any
  | some t =>
    if t.names.isEmpty then return .any
    else do
      let e ← readTypeOf d (some t.expression)
      return e.type

def returnTypes (d : Doclet) : List Doclet.Return → Run (List TypeNode)
  | [] => return []
  | r :: rest => do
    let first ← returnType d r
    let more ← returnTypes d rest
    return first :: more

/-- The return type of a doclet; without documented return values nothing is returned. -/
def returnTypeOf (d : Doclet) : Run TypeNode :=
  if d.returns.isEmpty then return .void
  else do
    let types ← returnTypes d d.returns
    Run.attempt (.unite types)
    return .unionOf types

/-- What a signature says about deprecation; a bare flag is written as a word. -/
def Doclet.signatureDeprecation (d : Doclet) : Option String :=
  match d.deprecated with
  | none | some (.flag false) => none
  | some (.flag true) => some "True"
  | some (.text s) => some s

/-- The signature of a doclet; a constructor has no return type and takes its type parameters from
the class. -/
def Signature.ofDoclet (d : Doclet) (kind : SymbolKind) : Run Signature := do
  let params ← parametersFrom d 0 d.params
  let returns ← if kind = .classDecl then pure none else some <$> returnTypeOf d
  Run.attemptAll (if kind = .classDecl then [] else templateTasks d)
  return {
    longname := d.longname
    kind := kind
    params := params
    returns := returns
    returnsDescription := d.returns.findSome? fun r => nonempty? r.description
    typeParameters := if kind = .classDecl then [] else typeParametersOf d
    description := d.description
    deprecated := d.signatureDeprecation
    since := d.since
    documented := d.params }

/-- The signatures that doclets document for a symbol of a kind. -/
def Signature.ofDoclets (kind : SymbolKind) : List Doclet → Run (List Signature)
  | [] => return []
  | d :: rest => do
    let first ← Signature.ofDoclet d kind
    let more ← Signature.ofDoclets kind rest
    return first :: more

end AmbientDecl

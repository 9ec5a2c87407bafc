import AmbientDecl.Declaration.Document
import AmbientDecl.Declaration.Reference

/-!
# Printing declarations

A symbol becomes a declaration: a class with its members, an interface, functions, a variable, a
type or an enumeration, and a namespace for the children that cannot stand inside. Modules at the
top level become module declarations.

A finished forest becomes the text of a declaration file. The names of all declarations are chosen
first, so that references agree with them wherever they stand.
-/

namespace AmbientDecl

open Text

/-- What a declaration is printed with. -/
structure Printer where
  directory : Directory
  emitComments : Bool

namespace Printer

/-- Prints a type at a place, where `typeParams` are in scope. -/
def showType (p : Printer) (owner : Place) (typeParams : List String) (t : TypeNode) :
    Noted String :=
  let scope := p.directory.scope owner typeParams
  { value := typeText scope t
    findings :=
      if p.directory.policy = .any then
        (unresolvedNames scope t).map fun name => .unresolvedType name owner.symbol
      else []
    tasks := [.printing t] }

/-- Notes the names without an answer in the type of a parameter and gives the printed type. -/
def showParam (p : Printer) (owner : Place) (typeParams : List String)
    (param : FunctionParam TypeNode) : Noted (FunctionParam ShownType) := do
  let _ ← p.showType owner typeParams param.type
  Noted.attempt (.printing (if param.variadic then .array param.type else param.type))
  return param.map (shownType (p.directory.scope owner typeParams))

def showParams (p : Printer) (owner : Place) (typeParams : List String) (params : List Parameter) :
    Noted String := do
  let shown ← (params.map Parameter.spec).mapM (p.showParam owner typeParams)
  return paramsText shown

/-- The list of type parameters after a name. -/
def typeParametersText (params : List TypeParameter) : String :=
  if params.isEmpty then ""
  else argumentsText <| params.map fun tp =>
    match nonempty? tp.constraint with
    | some constraint => tp.name ++ " extends " ++ constraint
    | none => tp.name

/-- Prints the parameters and the result of a signature. -/
def showSignature (p : Printer) (owner : Place) (typeParams : List String) (s : Signature) :
    Noted String := do
  let typeParams := typeParams ++ s.typeParameters.map TypeParameter.name
  let params ← p.showParams owner typeParams s.params
  let returns ← p.showType owner typeParams (s.returns.getD .void)
  return "(" ++ params ++ "): " ++ returns

def noteUnreadable (s : Symbol) (complaint : Option String) : Noted Unit :=
  match complaint with
  | some message => .note ⟨.malformedType, s.doclet?.map Doclet.longname, message, s.location⟩
  | none => return ()

/-- Prints the name of a supertype; one that refers to nothing is printed as it is written. -/
def showSupertypeName (p : Printer) (owner : Place) (written name : String) : Noted String :=
  match p.directory.resolve owner owner.typeParameterNames name with
  | some text => return text
  | none => do
    Noted.note (owner.symbol.diagnostic .unresolvedSupertype
      s!"Supertype {written} of {owner.symbol.longname} not found, emitted verbatim")
    return Directory.verbatim name

def showAppliedSupertype (p : Printer) (owner : Place) (written name : String)
    (args : List TypeNode) : Noted String := do
  let text ← p.showSupertypeName owner written name
  let args ← args.mapM (p.showType owner owner.typeParameterNames)
  return if args.isEmpty then text else text ++ argumentsText args

def showSupertype (p : Printer) (owner : Place) (written : String) : Noted String := do
  Noted.attempt (.read (stripped written))
  let reading := readType (some written)
  noteUnreadable owner.symbol reading.complaint
  match reading.expression.type with
  | .named name => p.showAppliedSupertype owner written name []
  | .generic base args =>
    if base = "Object" then p.showType owner owner.typeParameterNames (.generic base args)
    else p.showAppliedSupertype owner written base args
  | t => p.showType owner owner.typeParameterNames t

/-- Prints a clause with supertypes, which is left out if there are none. -/
def showClause (p : Printer) (owner : Place) (keyword : String) (written : List String) :
    Noted String := do
  let texts ← written.mapM (p.showSupertype owner)
  return if texts.isEmpty then "" else " " ++ keyword ++ " " ++ joined ", " texts

def remarks (p : Printer) (r : Remarks) : List Doc :=
  r.docs p.emitComments

/-- The words before a member of a class. -/
def memberModifiers (s : Symbol) : String :=
  (match s.access with
    | some .privateAccess => "private "
    | some .protectedAccess => "protected "
    | _ => "") ++ (if s.isStatic then "static " else "")

/-- Prints a signature after the words that lead it in, with its comment. -/
def signatureDocs (p : Printer) (here : Place) (lead : String) (s : Signature) :
    Noted (List Doc) := do
  let text ← p.showSignature here here.typeParameterNames s
  return p.remarks s.remarks ++ [.line (lead ++ typeParametersText s.typeParameters ++ text ++ ";")]

/-- Prints a member in the body of a class or an interface. -/
def memberDocs (p : Printer) (inClass : Bool) (here : Place) : Noted (List Doc) := do
  let s := here.symbol
  let modifiers := if inClass then memberModifiers s else ""
  if s.kind = .functionDecl then
    let docs ← s.signatures.mapM (p.signatureDocs here (modifiers ++ label s.name))
    return docs.flatten
  else
    let text ← p.showType here here.typeParameterNames (s.type.getD .any)
    let readonly := if s.readonly || s.constant then "readonly " else ""
    return p.remarks s.remarks ++
      [.line (modifiers ++ readonly ++ label s.name ++ ": " ++ text ++ ";")]

/-- Prints the members that stand in the body of a class or an interface. -/
def inlineDocs (p : Printer) (inClass : Bool) (here : Place) : Noted (List Doc) := do
  let members := here.tree.children.filter here.tree.isInlineIn
  let docs ← members.mapM fun t => p.memberDocs inClass (here.child t)
  return docs.flatten

/-- The name of the symbol at a place as it is declared. -/
def nameAt (p : Printer) (here : Place) : String :=
  p.directory.nameOf here.tree

/-- The name with the type parameters of the symbol. -/
def genericName (p : Printer) (here : Place) : String :=
  p.nameAt here ++ typeParametersText here.symbol.typeParameters

def noteInheritance (s : Symbol) : Noted Unit :=
  match s.augments with
  | first :: _ :: _ =>
    .note (s.diagnostic .multipleInheritance
      (s.longname ++ " augments " ++ joined ", " s.augments ++
        ", extending " ++ first ++ " and implementing the rest"))
  | _ => return ()

def constructorDocs (p : Printer) (here : Place) (s : Signature) : Noted (List Doc) := do
  let params ← p.showParams here here.typeParameterNames s.params
  return p.remarks s.constructorRemarks ++ [.line ("constructor(" ++ params ++ ");")]

/-- Prints a class: it extends the first class that it augments and implements everything else. -/
def classDocs (p : Printer) (here : Place) (lead : String) : Noted (List Doc) := do
  let s := here.symbol
  noteInheritance s
  let base ← p.showClause here "extends" (s.augments.take 1)
  let others ← p.showClause here "implements"
    (s.augments.drop 1 ++ s.implements ++ s.mixes).eraseDups
  let constructors ← s.signatures.mapM (p.constructorDocs here)
  let members ← p.inlineDocs true here
  let header := lead ++ (if s.isAbstract then "abstract " else "") ++ "class " ++ p.genericName here
  return p.remarks s.remarks ++
    [.block (header ++ base ++ others) (constructors.flatten ++ members)]

def interfaceDocs (p : Printer) (here : Place) (lead : String) : Noted (List Doc) := do
  let s := here.symbol
  let bases ← p.showClause here "extends" ((s.augments ++ s.implements ++ s.mixes).eraseDups)
  let members ← p.inlineDocs false here
  return p.remarks s.remarks ++
    [.block (lead ++ "interface " ++ p.genericName here ++ bases) members]

/-- Prints a function, once for each signature. -/
def functionDocs (p : Printer) (here : Place) (lead : String) : Noted (List Doc) := do
  let docs ← here.symbol.signatures.mapM
    (p.signatureDocs here (lead ++ "function " ++ p.nameAt here))
  return docs.flatten

def variableDocs (p : Printer) (here : Place) (lead : String) : Noted (List Doc) := do
  let s := here.symbol
  let text ← p.showType here here.typeParameterNames (s.type.getD .any)
  let keyword := if s.constant || s.readonly then "const " else "var "
  return p.remarks s.remarks ++ [.line (lead ++ keyword ++ p.nameAt here ++ ": " ++ text ++ ";")]

def enumValueDocs (p : Printer) (v : EnumValue) : List Doc :=
  let value := match v.value with
    | some text => " = " ++ text
    | none => ""
  p.remarks (.describing v.description) ++ [.line (label v.name ++ value ++ ",")]

def enumDocs (p : Printer) (here : Place) (lead : String) : List Doc :=
  let s := here.symbol
  p.remarks s.remarks ++
    [.block (lead ++ (if s.constant then "const " else "") ++ "enum " ++ p.nameAt here)
      (s.enumValues.flatMap p.enumValueDocs)]

/-- Prints a callback with one signature as a function type. -/
def callbackDocs (p : Printer) (here : Place) (lead : String) (s : Signature) :
    Noted (List Doc) := do
  let params ← p.showParams here here.typeParameterNames s.params
  let returns ← p.showType here here.typeParameterNames (s.returns.getD .void)
  return p.remarks s.remarks ++
    [.line (lead ++ "type " ++ p.genericName here ++ " = (" ++ params ++ ") => " ++ returns ++ ";")]

/-- Prints a call signature of a callback with several. -/
def callDocs (p : Printer) (here : Place) (s : Signature) : Noted (List Doc) := do
  let text ← p.showSignature here here.typeParameterNames s
  return p.remarks s.remarks ++ [.line (text ++ ";")]

def propertyDocs (p : Printer) (here : Place) (f : RecordField TypeNode) : Noted (List Doc) := do
  let text ← p.showType here here.typeParameterNames f.type
  return p.remarks (.describing f.description) ++
    [.line (fieldText ⟨f.name, text, f.optional, none⟩ ++ ";")]

/-- Prints a typedef: a function type, an interface of call signatures or properties, or a type. -/
def typedefDocs (p : Printer) (here : Place) (lead : String) : Noted (List Doc) :=
  let s := here.symbol
  match s.signatures with
  | [signature] => p.callbackDocs here lead signature
  | [] =>
    match s.type with
    | some (.record fields) => do
      let docs ← fields.mapM (p.propertyDocs here)
      return p.remarks s.remarks ++
        [.block (lead ++ "interface " ++ p.genericName here) docs.flatten]
    | type => do
      let text ← p.showType here here.typeParameterNames (type.getD .any)
      return p.remarks s.remarks ++
        [.line (lead ++ "type " ++ p.genericName here ++ " = " ++ text ++ ";")]
  | signatures => do
    let docs ← signatures.mapM (p.callDocs here)
    return p.remarks s.remarks ++ [.block (lead ++ "interface " ++ p.genericName here) docs.flatten]

/-- Prints a symbol without the namespace, by its kind. -/
def ownDocs (p : Printer) (here : Place) (lead : String) : Noted (List Doc) :=
  match here.tree.kind with
  | .classDecl => p.classDocs here lead
  | .interfaceDecl => p.interfaceDocs here lead
  | .functionDecl => p.functionDocs here lead
  | .memberDecl => p.variableDocs here lead
  | .typedefDecl => p.typedefDocs here lead
  | .enumDecl => return p.enumDocs here lead
  | .root | .moduleDecl | .namespaceDecl => return []

/-- The header of a module at the top level. -/
def moduleHeader (path : String) : String :=
  let quoted := replaceEach (fun c => if c = '\'' then ['\\', '\''] else [c]) path.toList
  "declare module '" ++ String.ofList quoted ++ "'"

mutual

/-- Prints a symbol with everything below it. -/
def declaration (p : Printer) (parent : Place) (lead : String) : SymbolTree → Noted (List Doc)
  | .node id s children => do
    let here := parent.child (.node id s children)
    let header := lead ++ "namespace " ++ p.nameAt here
    if parent.tree.isTopModuleIn here.tree then
      let body ← p.declarations here "export " children
      return p.remarks s.remarks ++ [.block (moduleHeader s.name) body]
    else if parent.tree.isInlineIn here.tree then
      let body ← p.declarations here "" children
      return if children.isEmpty then [] else [.block header body]
    else if parent.tree.isNamespaceIn here.tree then
      let body ← p.declarations here "" children
      return p.remarks s.remarks ++ [.block header body]
    else
      let own ← p.ownDocs here lead
      let body ← p.declarations here "" children
      return own ++ if here.tree.companions.isEmpty then [] else [.block header body]

/-- Prints children of a symbol with everything below them. -/
def declarations (p : Printer) (parent : Place) (lead : String) : List SymbolTree → Noted (List Doc)
  | [] => return []
  | t :: rest => do
    let first ← p.declaration parent lead t
    let others ← p.declarations parent lead rest
    return first ++ others

end

end Printer

/-- A forest with the names chosen and the type names reported so far. -/
structure Emitter where
  forest : Forest
  settings : Settings
  /-- The names under which symbols are declared, by number. -/
  names : List (Nat × String)
  /-- The type names without an answer that have been reported. -/
  reported : List String

namespace Emitter

/-- An emitter that has done nothing. -/
def start (settings : Settings) (f : Forest) : Emitter := ⟨f, settings, [], []⟩

/-- The printer for the names chosen so far. -/
def printer (e : Emitter) : Printer where
  directory :=
    { index := e.forest.index
      places := e.forest.places
      names := e.names
      knownTypes := e.settings.knownTypes
      policy := e.settings.unresolvedTypes }
  emitComments := e.settings.output.emitComments

/-- Reports findings and gives the value that came with them. -/
def report {α : Type} (e : Emitter) (noted : Noted α) : Run (α × Emitter) := do
  Run.noteAll (noted.tasks.map Entry.task ++
    (reportFindings e.reported noted.findings).map Entry.diagnostic)
  return (noted.value, { e with reported := e.reported ++ unresolvedIn noted.findings })

def showType (e : Emitter) (owner : Place) (typeParams : List String) (t : TypeNode) :
    Run (String × Emitter) :=
  e.report (e.printer.showType owner typeParams t)

/-- Whether a symbol is a function without a signature. -/
def isUncallable (t : SymbolTree) : Bool :=
  t.kind = .functionDecl && t.symbol.signatures.isEmpty

/-- Every function has a signature, and there is no second top level. -/
def check (f : Forest) : Run Unit :=
  match f.nodes.find? isUncallable with
  | some t =>
    Run.report (t.symbol.diagnostic .emptySignatures
      s!"Function {t.longname} has no call signature")
  | none =>
    if f.nodes.any fun t => t.kind = .root then Run.fail .nestedRoot else return ()

def chooseNames (e : Emitter) : Run Emitter := do
  let choices := allNameChoices e.forest.root
  Run.noteAll (choices.filterMap NameChoice.entry?)
  return { e with names := choices.map fun c => (c.id, c.name) }

/-- The declarations at the top level, one after another. -/
def topLevel (e : Emitter) : Noted (List (List Doc)) :=
  e.forest.root.children.mapM (e.printer.declaration e.forest.top "declare ")

/-- The text of all declarations. -/
def emit (e : Emitter) : Run (String × Emitter) := do
  check e.forest
  let e ← e.chooseNames
  let (declarations, e) ← e.report do
    Noted.attempt (.descend (3 * e.forest.root.height))
    e.topLevel
  Run.reach (.declarationsEmitted e.forest.root.children.length)
  return (layout e.settings.output.indent declarations, e)

end Emitter

/-- The emission of a forest from the start. -/
def emitDeclarations (settings : Settings) (f : Forest) : Run String := do
  let (text, _) ← (Emitter.start settings f).emit
  return text

end AmbientDecl

import AmbientDecl.Symbol.OfDoclet
import AmbientDecl.Symbol.Tree

/-!
# Overloads

Several doclets of one longname document one symbol. A function, the constructor of a class and a
callback keep one signature for each doclet; anything else is what its first doclet says. Doclets of
one longname that document different kinds of things contradict each other and end the run.
-/

namespace AmbientDecl

/-- The kind of symbol that a doclet counts as among those of one longname: a class and a value
count as what they are, anything else by the name of its kind. -/
def Doclet.countedKind (d : Doclet) : SymbolKind :=
  match d.detail with
  | .classLike detail => if detail.form = .classForm then .classDecl else .interfaceDecl
  | .value _ _ isEnum => if isEnum then .enumDecl else .memberDecl
  | _ => (SymbolKind.table.lookup d.kindName).getD .root

/-- The diagnostic about a doclet that documents another kind of thing than its symbol is. -/
def conflictDiagnostic (s : Symbol) (d : Doclet) : Diagnostic :=
  .about d .conflictingKinds
    s!"{s.longname} is documented both as {s.kind.name} and as {d.countedKind.name}"

/-- Reports the first doclet that documents another kind of thing than its symbol is. -/
def checkKinds (s : Symbol) : Run Unit :=
  match s.doclets.tail.find? fun d => d.countedKind != s.kind with
  | some d => Run.report (conflictDiagnostic s d)
  | none => return ()

/-- Reports that later doclets of a symbol are not used. -/
def reportDuplicate (s : Symbol) : Run Unit :=
  match s.doclets with
  | _ :: second :: _ =>
    Run.report (.about second .duplicateSymbol
      s!"{s.longname} is documented {s.doclets.length} times, the first doclet is used")
  | _ => return ()

/-- References and those of a further list that are new. -/
def addReferences (known : List String) : List String → List String
  | [] => known
  | r :: rest =>
    if known.contains r then addReferences known rest else addReferences (known ++ [r]) rest

/-- A class with what a further doclet of it says. -/
def joinClass (s : Symbol) (d : Doclet) : Symbol :=
  match d.detail with
  | .classLike detail =>
    { s with
      augments := addReferences s.augments detail.augments
      implements := addReferences s.implements detail.implements
      mixes := addReferences s.mixes detail.mixes
      description :=
        (nonempty? s.description).or ((nonempty? detail.classDescription).or s.description) }
  | _ => s

/-- A class with the signatures of its constructor and what its further doclets say. -/
def mergeClass (s : Symbol) : Run Symbol := do
  let signatures ← if s.hideConstructor then pure [] else Signature.ofDoclets s.kind s.doclets
  return s.doclets.tail.foldl joinClass { s with signatures := signatures }

/-- Whether the first doclet of a symbol describes a callback. -/
def Symbol.isCallback (s : Symbol) : Bool :=
  s.doclet?.any Doclet.isCallback

def mergeCallback (s : Symbol) : Run Symbol := do
  let callbacks := s.doclets.filter Doclet.isCallback
  let signatures ← Signature.ofDoclets s.kind callbacks
  if callbacks.length < s.doclets.length then reportDuplicate s
  return { s with signatures := signatures }

/-- A function has a signature. -/
def checkSignatures (s : Symbol) : Run Unit :=
  if s.kind = .functionDecl ∧ s.signatures.isEmpty then
    Run.report (s.diagnostic .emptySignatures s!"Function {s.longname} has no call signature")
  else return ()

/-- The symbol with what its kind takes from all doclets. -/
def mergeDoclets (s : Symbol) : Run Symbol :=
  if s.kind = .functionDecl then do
    let signatures ← Signature.ofDoclets s.kind s.doclets
    return { s with signatures := signatures }
  else if s.kind = .classDecl then mergeClass s
  else if s.kind = .typedefDecl ∧ s.isCallback then mergeCallback s
  else do
    reportDuplicate s
    return s

/-- All doclets of a symbol have their say. -/
def mergeSymbol (s : Symbol) : Run Symbol :=
  if s.doclets.isEmpty then return s
  else do
    checkKinds s
    let merged ← mergeDoclets s
    checkSignatures merged
    return merged

/-- Whether a documented symbol has several signatures. -/
def Symbol.isOverloaded (s : Symbol) : Bool :=
  !s.doclets.isEmpty && 1 < s.signatures.length

/-- The second stage. -/
def mergeOverloads (f : Forest) : Run Forest := do
  let children ← SymbolTree.traverseAll mergeSymbol f.root.children
  let root := SymbolTree.node f.root.id f.root.symbol children
  Run.reach (.overloadsMerged (root.nodes.countP fun t => t.symbol.isOverloaded))
  return { f with root := root }

end AmbientDecl

import AmbientDecl.Proofs.Declaration.Completeness
import AmbientDecl.Proofs.Declaration.Marked

/-!
# Declarations with their type parameters marked

The output once more, in sheets: documents whose lines are marked and know for whom they are
printed.

**Lines.** `Origin` is the symbol of a line, with a signature if its type parameters are in scope on
that line. The `Marks` functions of a printer mark what the `show` functions print.

**Sheets.** `Sheet` is a piece of the output; the `Sheets` functions of a printer follow its `Docs`
functions. Without marks and origins, sheets are what is printed (`docs_sheets`).
-/

namespace AmbientDecl

open Text List

variable (written : String) (s : Signature)

/-- For whom a line is printed. -/
structure Origin where
  place : Place
  /-- The signature that is printed, if its type parameters are in scope. -/
  signature : Option Signature

/-- The type parameters that are in scope on a line. -/
def Origin.scope (o : Origin) : List String :=
  o.place.typeParameterNames ++ o.signature.toList.flatMap fun s =>
    s.typeParameters.map TypeParameter.name

/-- A piece of the output. -/
inductive Sheet where
  /-- A piece without types. -/
  | plain (doc : Doc)
  | line (origin : Origin) (marks : List Mark)
  | block (origin : Origin) (header : List Mark) (body : List Sheet)

namespace Sheet

mutual

def doc : Sheet → Doc
  | .plain doc => doc
  | .line _ marks => .line (textOf marks)
  | .block _ header body => .block (textOf header) (docs body)

def docs : List Sheet → List Doc
  | [] => []
  | sheet :: rest => doc sheet :: docs rest

end

lemma docs_eq (sheets : List Sheet) : docs sheets = sheets.map doc := by
  induction sheets with
  | nil => rfl
  | cons sheet rest ih => rw [docs, ih, map_cons]

@[simp] lemma docs_append (sheets others : List Sheet) :
    docs (sheets ++ others) = docs sheets ++ docs others := by
  simp [docs_eq]

@[simp] lemma docs_plain (l : List Doc) : docs (l.map .plain) = l := by
  rw [docs_eq, map_map]
  exact map_id l

lemma docs_flatMap {α : Type} (l : List α) (f : α → List Sheet) :
    docs (l.flatMap f) = l.flatMap fun a => docs (f a) := by
  simp [docs_eq, map_flatMap]

end Sheet

namespace Printer

def typeMarks (p : Printer) (owner : Place) (params : List String) (t : TypeNode) : List Mark :=
  (markedType (p.directory.scope owner params) params t).marks

def parameterMarks (p : Printer) (owner : Place) (params : List String) (l : List Parameter) :
    List Mark :=
  paramsMarks (markedParams (p.directory.scope owner params) params (l.map Parameter.spec))

def signatureMarks (p : Printer) (o : Origin) (s : Signature) : List Mark :=
  .words "(" :: p.parameterMarks o.place o.scope s.params ++
    .words "): " :: p.typeMarks o.place o.scope (s.returns.getD .void)

def appliedSupertypeMarks (p : Printer) (owner : Place) (name : String) (args : List TypeNode) :
    List Mark :=
  let params := owner.typeParameterNames
  nameMarks params name ((p.directory.resolve owner params name).getD (Directory.verbatim name)) ++
    if args.isEmpty then [] else argumentsMarks (args.map (p.typeMarks owner params))

def supertypeMarks (p : Printer) (owner : Place) (written : String) : List Mark :=
  match (readType (some written)).expression.type with
  | .named name => p.appliedSupertypeMarks owner name []
  | .generic base args =>
    if base = "Object" then p.typeMarks owner owner.typeParameterNames (.generic base args)
    else p.appliedSupertypeMarks owner base args
  | t => p.typeMarks owner owner.typeParameterNames t

def clauseMarks (p : Printer) (owner : Place) (keyword : String) (written : List String) :
    List Mark :=
  if written.isEmpty then []
  else .words (" " ++ keyword ++ " ") :: separated ", " (written.map (p.supertypeMarks owner))

section Lines

variable {p : Printer} {owner : Place} {params : List String}

lemma knows_scope (dir : Directory) (owner : Place) (params : List String) :
    (dir.scope owner params).Knows params := by
  intro name hname
  simp [Directory.scope, Directory.resolve, hname]

lemma spells_typeMarks (t : TypeNode) :
    Spells params (p.typeMarks owner params t) (p.showType owner params t).value :=
  spells_markedType (knows_scope p.directory owner params) t

@[simp] lemma textOf_typeMarks (t : TypeNode) :
    textOf (p.typeMarks owner params t) = (p.showType owner params t).value :=
  (spells_typeMarks t).text

lemma inScope_typeMarks (t : TypeNode) : InScope params (p.typeMarks owner params t) :=
  (spells_typeMarks t).inScope

lemma spells_parameterMarks (l : List Parameter) :
    Spells params (p.parameterMarks owner params l) (p.showParams owner params l).value := by
  have hparams := spells_paramsMarks (knows_scope p.directory owner params) (l.map Parameter.spec)
  rw [shownParams_eq] at hparams
  rw [showParams, Noted.value_bind, Noted.value_pure, Noted.value_mapM]
  exact hparams

@[simp] lemma textOf_parameterMarks (l : List Parameter) :
    textOf (p.parameterMarks owner params l) = (p.showParams owner params l).value :=
  (spells_parameterMarks l).text

lemma inScope_parameterMarks (l : List Parameter) :
    InScope params (p.parameterMarks owner params l) :=
  (spells_parameterMarks l).inScope

lemma textOf_signatureMarks (here : Place) (s : Signature) :
    textOf (p.signatureMarks ⟨here, some s⟩ s) =
      (p.showSignature here here.typeParameterNames s).value := by
  simp [signatureMarks, showSignature, Origin.scope, String.append_assoc]

lemma inScope_signatureMarks (o : Origin) (s : Signature) :
    InScope o.scope (p.signatureMarks o s) := by
  simp [signatureMarks, inScope_parameterMarks, inScope_typeMarks]

lemma value_showSupertypeName (p : Printer) (owner : Place) (written name : String) :
    (p.showSupertypeName owner written name).value =
      (p.directory.resolve owner owner.typeParameterNames name).getD (Directory.verbatim name) := by
  rw [showSupertypeName]
  split
  · rename_i text htext
    rw [htext]
    rfl
  · rename_i hnone
    rw [hnone]
    rfl

lemma spells_appliedSupertypeMarks (name : String) (args : List TypeNode) :
    Spells owner.typeParameterNames (p.appliedSupertypeMarks owner name args)
      (p.showAppliedSupertype owner written name args).value := by
  have hname : Spells owner.typeParameterNames (nameMarks owner.typeParameterNames name
      ((p.directory.resolve owner owner.typeParameterNames name).getD (Directory.verbatim name)))
        (p.showSupertypeName owner written name).value := by
    rw [value_showSupertypeName]
    exact spells_nameMarks fun hparam _ => by simp [Directory.resolve, hparam]
  simp only [appliedSupertypeMarks, showAppliedSupertype, Noted.value_bind, Noted.value_pure,
    Noted.value_mapM, isEmpty_map]
  split
  · simpa using hname
  · exact composes_spells.arguments hname fun t _ => spells_typeMarks t

lemma spells_supertypeMarks : Spells owner.typeParameterNames (p.supertypeMarks owner written)
    (p.showSupertype owner written).value := by
  rw [supertypeMarks, showSupertype]
  simp only [Noted.value_bind]
  generalize (readType (some written)).expression.type = t
  cases t with
  | named name => exact spells_appliedSupertypeMarks written name []
  | generic base args =>
    simp only
    split
    · exact spells_typeMarks _
    · exact spells_appliedSupertypeMarks written base args
  | union | array | function | record | literal | unreadable => exact spells_typeMarks _

lemma spells_clauseMarks (keyword : String) (written : List String) :
    Spells owner.typeParameterNames (p.clauseMarks owner keyword written)
      (p.showClause owner keyword written).value := by
  simp only [clauseMarks, showClause, Noted.value_bind, Noted.value_pure, Noted.value_mapM,
    isEmpty_map]
  split
  · exact composes_spells.nil
  · refine composes_spells.after ?_ _
    exact composes_spells.between (by decide) written fun text _ => spells_supertypeMarks text

@[simp] lemma textOf_clauseMarks (keyword : String) (written : List String) :
    textOf (p.clauseMarks owner keyword written) = (p.showClause owner keyword written).value :=
  (spells_clauseMarks keyword written).text

lemma inScope_clauseMarks (keyword : String) (written : List String) :
    InScope owner.typeParameterNames (p.clauseMarks owner keyword written) :=
  (spells_clauseMarks keyword written).inScope

end Lines

def signatureSheets (p : Printer) (here : Place) (lead : String) (s : Signature) : List Sheet :=
  (p.remarks s.remarks).map .plain ++ [.line ⟨here, some s⟩
    (.words lead :: .list s.typeParameters :: p.signatureMarks ⟨here, some s⟩ s ++ [.words ";"])]

def memberSheets (p : Printer) (inClass : Bool) (here : Place) : List Sheet :=
  let s := here.symbol
  let modifiers := if inClass then memberModifiers s else ""
  if s.kind = .functionDecl then
    s.signatures.flatMap (p.signatureSheets here (modifiers ++ label s.name))
  else
    let readonly := if s.readonly || s.constant then "readonly " else ""
    (p.remarks s.remarks).map .plain ++ [.line ⟨here, none⟩
      (.words (modifiers ++ readonly ++ label s.name ++ ": ") ::
        p.typeMarks here here.typeParameterNames (s.type.getD .any) ++ [.words ";"])]

def inlineSheets (p : Printer) (inClass : Bool) (here : Place) : List Sheet :=
  (here.tree.children.filter here.tree.isInlineIn).flatMap fun t => p.memberSheets inClass
    (here.child t)

def constructorSheets (p : Printer) (here : Place) (s : Signature) : List Sheet :=
  (p.remarks s.constructorRemarks).map .plain ++ [.line ⟨here, none⟩
    (.words "constructor(" :: p.parameterMarks here here.typeParameterNames s.params ++
      [.words ");"])]

/-- The name with the type parameters of the symbol, after the words before it. -/
def genericMarks (p : Printer) (here : Place) (lead : String) : List Mark :=
  [.words (lead ++ p.nameAt here), .list here.symbol.typeParameters]

def classSheets (p : Printer) (here : Place) (lead : String) : List Sheet :=
  let s := here.symbol
  let header := p.genericMarks here (lead ++ (if s.isAbstract then "abstract " else "") ++ "class ")
  (p.remarks s.remarks).map .plain ++ [.block ⟨here, none⟩
    (header ++ p.clauseMarks here "extends" (s.augments.take 1) ++
      p.clauseMarks here "implements" (s.augments.drop 1 ++ s.implements ++ s.mixes).eraseDups)
    (s.signatures.flatMap (p.constructorSheets here) ++ p.inlineSheets true here)]

def interfaceSheets (p : Printer) (here : Place) (lead : String) : List Sheet :=
  let s := here.symbol
  (p.remarks s.remarks).map .plain ++ [.block ⟨here, none⟩
    (p.genericMarks here (lead ++ "interface ") ++
      p.clauseMarks here "extends" ((s.augments ++ s.implements ++ s.mixes).eraseDups))
    (p.inlineSheets false here)]

def functionSheets (p : Printer) (here : Place) (lead : String) : List Sheet :=
  here.symbol.signatures.flatMap (p.signatureSheets here (lead ++ "function " ++ p.nameAt here))

def variableSheets (p : Printer) (here : Place) (lead : String) : List Sheet :=
  let s := here.symbol
  let keyword := if s.constant || s.readonly then "const " else "var "
  (p.remarks s.remarks).map .plain ++ [.line ⟨here, none⟩
    (.words (lead ++ keyword ++ p.nameAt here ++ ": ") ::
      p.typeMarks here here.typeParameterNames (s.type.getD .any) ++ [.words ";"])]

def callbackSheets (p : Printer) (here : Place) (lead : String) (s : Signature) : List Sheet :=
  (p.remarks s.remarks).map .plain ++ [.line ⟨here, none⟩
    (p.genericMarks here (lead ++ "type ") ++
      .words " = (" :: p.parameterMarks here here.typeParameterNames s.params ++
      .words ") => " :: p.typeMarks here here.typeParameterNames (s.returns.getD .void) ++
      [.words ";"])]

def callSheets (p : Printer) (here : Place) (s : Signature) : List Sheet :=
  (p.remarks s.remarks).map .plain ++
    [.line ⟨here, some s⟩ (p.signatureMarks ⟨here, some s⟩ s ++ [.words ";"])]

def propertySheets (p : Printer) (here : Place) (f : RecordField TypeNode) : List Sheet :=
  (p.remarks (.describing f.description)).map .plain ++ [.line ⟨here, none⟩
    (fieldMarks ⟨f.name, p.typeMarks here here.typeParameterNames f.type, f.optional, none⟩ ++
      [.words ";"])]

def typedefSheets (p : Printer) (here : Place) (lead : String) : List Sheet :=
  let s := here.symbol
  let inBlock body := (p.remarks s.remarks).map .plain ++
    [.block ⟨here, none⟩ (p.genericMarks here (lead ++ "interface ")) body]
  match s.signatures with
  | [signature] => p.callbackSheets here lead signature
  | [] =>
    match s.type with
    | some (.record fields) => inBlock (fields.flatMap (p.propertySheets here))
    | type =>
      (p.remarks s.remarks).map .plain ++ [.line ⟨here, none⟩
        (p.genericMarks here (lead ++ "type ") ++
          .words " = " :: p.typeMarks here here.typeParameterNames (type.getD .any) ++
            [.words ";"])]
  | signatures => inBlock (signatures.flatMap (p.callSheets here))

def ownSheets (p : Printer) (here : Place) (lead : String) : List Sheet :=
  match here.tree.kind with
  | .classDecl => p.classSheets here lead
  | .interfaceDecl => p.interfaceSheets here lead
  | .functionDecl => p.functionSheets here lead
  | .memberDecl => p.variableSheets here lead
  | .typedefDecl => p.typedefSheets here lead
  | .enumDecl => (p.enumDocs here lead).map .plain
  | .root | .moduleDecl | .namespaceDecl => []

mutual

/-- A child of a symbol with everything below it, marked. -/
def sheets (p : Printer) (parent : Place) (lead : String) : SymbolTree → List Sheet
  | .node id s children =>
    let here := parent.child (.node id s children)
    let space body := Sheet.block ⟨here, none⟩ [.words (lead ++ "namespace " ++ p.nameAt here)] body
    if parent.tree.isTopModuleIn here.tree then
      (p.remarks s.remarks).map .plain ++
        [.block ⟨here, none⟩ [.words (moduleHeader s.name)] (p.allSheets here "export " children)]
    else if parent.tree.isInlineIn here.tree then
      if children.isEmpty then [] else [space (p.allSheets here "" children)]
    else if parent.tree.isNamespaceIn here.tree then
      (p.remarks s.remarks).map .plain ++ [space (p.allSheets here "" children)]
    else
      p.ownSheets here lead ++
        if here.tree.companions.isEmpty then [] else [space (p.allSheets here "" children)]

def allSheets (p : Printer) (parent : Place) (lead : String) : List SymbolTree → List Sheet
  | [] => []
  | t :: rest => p.sheets parent lead t ++ p.allSheets parent lead rest

end

section Sheets

variable {p : Printer} {here : Place} {lead : String}

lemma docs_signatureSheets :
    Sheet.docs (p.signatureSheets here lead s) = (p.signatureDocs here lead s).value := by
  simp [signatureSheets, signatureDocs, Sheet.docs, Sheet.doc, textOf_signatureMarks, Mark.text,
    String.append_assoc]

lemma docs_memberSheets (inClass : Bool) (here : Place) :
    Sheet.docs (p.memberSheets inClass here) = (p.memberDocs inClass here).value := by
  unfold memberSheets memberDocs
  by_cases hk : here.symbol.kind = .functionDecl
  · simp [hk, Sheet.docs_flatMap, docs_signatureSheets, ← flatMap_def]
  · simp [hk, Sheet.docs, Sheet.doc, String.append_assoc]

lemma docs_inlineSheets (inClass : Bool) (here : Place) :
    Sheet.docs (p.inlineSheets inClass here) = (p.inlineDocs inClass here).value := by
  rw [inlineSheets, Sheet.docs_flatMap, inlineDocs_eq]
  simp only [docs_memberSheets]

lemma docs_constructorSheets :
    Sheet.docs (p.constructorSheets here s) = (p.constructorDocs here s).value := by
  simp [constructorSheets, constructorDocs, Sheet.docs, Sheet.doc, String.append_assoc]

lemma textOf_genericMarks (here : Place) (lead : String) :
    textOf (p.genericMarks here lead) = lead ++ p.genericName here := by
  simp [genericMarks, genericName, Mark.text, String.append_assoc]

lemma docs_classSheets : Sheet.docs (p.classSheets here lead) = (p.classDocs here lead).value := by
  simp [classSheets, classDocs, Sheet.docs, Sheet.doc, Sheet.docs_flatMap, docs_constructorSheets,
    docs_inlineSheets, textOf_genericMarks, ← flatMap_def, String.append_assoc]

lemma docs_interfaceSheets :
    Sheet.docs (p.interfaceSheets here lead) = (p.interfaceDocs here lead).value := by
  simp [interfaceSheets, interfaceDocs, Sheet.docs, Sheet.doc, docs_inlineSheets,
    textOf_genericMarks, String.append_assoc]

lemma docs_functionSheets :
    Sheet.docs (p.functionSheets here lead) = (p.functionDocs here lead).value := by
  simp [functionSheets, functionDocs, Sheet.docs_flatMap, docs_signatureSheets, ← flatMap_def]

lemma docs_variableSheets :
    Sheet.docs (p.variableSheets here lead) = (p.variableDocs here lead).value := by
  simp [variableSheets, variableDocs, Sheet.docs, Sheet.doc, String.append_assoc]

lemma docs_callbackSheets :
    Sheet.docs (p.callbackSheets here lead s) = (p.callbackDocs here lead s).value := by
  simp [callbackSheets, callbackDocs, Sheet.docs, Sheet.doc, textOf_genericMarks,
    String.append_assoc]

lemma docs_callSheets : Sheet.docs (p.callSheets here s) = (p.callDocs here s).value := by
  simp [callSheets, callDocs, Sheet.docs, Sheet.doc, textOf_signatureMarks]

lemma docs_propertySheets (f : RecordField TypeNode) :
    Sheet.docs (p.propertySheets here f) = (p.propertyDocs here f).value := by
  simp [propertySheets, propertyDocs, Sheet.docs, Sheet.doc, fieldMarks, fieldText,
    String.append_assoc]

lemma docs_typedefSheets :
    Sheet.docs (p.typedefSheets here lead) = (p.typedefDocs here lead).value := by
  cases hsig : here.symbol.signatures with
  | nil =>
    rcases htype : here.symbol.type with _ | _ | _ | _ | _ | _ | fields
    case some.record =>
      simp [typedefSheets, typedefDocs, hsig, htype, Sheet.docs, Sheet.doc, Sheet.docs_flatMap,
        docs_propertySheets, textOf_genericMarks, ← flatMap_def, String.append_assoc]
    all_goals
      simp [typedefSheets, typedefDocs, hsig, htype, Sheet.docs, Sheet.doc, textOf_genericMarks,
        String.append_assoc]
  | cons sig rest =>
    cases rest with
    | nil =>
      simp only [typedefSheets, typedefDocs, hsig]
      exact docs_callbackSheets sig
    | cons second others =>
      simp [typedefSheets, typedefDocs, hsig, Sheet.docs, Sheet.doc, Sheet.docs_flatMap,
        docs_callSheets, textOf_genericMarks, ← flatMap_def, String.append_assoc]

lemma docs_ownSheets : Sheet.docs (p.ownSheets here lead) = (p.ownDocs here lead).value := by
  unfold ownSheets ownDocs
  cases here.tree.kind with
  | classDecl => exact docs_classSheets
  | interfaceDecl => exact docs_interfaceSheets
  | functionDecl => exact docs_functionSheets
  | memberDecl => exact docs_variableSheets
  | typedefDecl => exact docs_typedefSheets
  | enumDecl => exact Sheet.docs_plain _
  | root | moduleDecl | namespaceDecl => rfl

lemma allSheets_eq (p : Printer) (q : Place) (lead : String) (cs : List SymbolTree) :
    p.allSheets q lead cs = cs.flatMap (p.sheets q lead) := by
  induction cs with
  | nil => rfl
  | cons c rest ih => rw [allSheets, ih, flatMap_cons]

lemma sheets_eq (p : Printer) (q : Place) (lead : String) (t : SymbolTree) :
    p.sheets q lead t = let here := q.child t
      let space := Sheet.block ⟨here, none⟩ [.words (lead ++ "namespace " ++ p.nameAt here)]
        (t.children.flatMap (p.sheets here ""))
      if q.tree.isTopModuleIn t then
        (p.remarks t.symbol.remarks).map .plain ++
          [.block ⟨here, none⟩ [.words (moduleHeader t.name)]
          (t.children.flatMap (p.sheets here "export "))]
      else if q.tree.isInlineIn t then if t.children.isEmpty then [] else [space]
      else if q.tree.isNamespaceIn t then (p.remarks t.symbol.remarks).map .plain ++ [space]
      else p.ownSheets here lead ++ if t.companions.isEmpty then [] else [space] := by
  cases t with
  | node i s cs =>
    rw [sheets]
    simp only [allSheets_eq]
    rfl

/-- **Without marks and origins, the sheets are what is printed.** -/
lemma docs_sheets (p : Printer) (t : SymbolTree) : ∀ q lead,
    Sheet.docs (p.sheets q lead t) = (p.declaration q lead t).value := by
  induction t using SymbolTree.induct with
  | node i s cs ih =>
    intro q lead
    have hchildren : ∀ here lead, Sheet.docs (cs.flatMap (p.sheets here lead)) =
        (p.declarations here lead cs).value := by
      intro here lead
      rw [Sheet.docs_flatMap, value_declarations]
      exact flatMap_congr fun c hc => ih c hc here lead
    rw [sheets_eq, value_declaration_eq]
    dsimp only
    split
    · simp [Sheet.docs, Sheet.doc, hchildren]
    split
    · split <;> simp [Sheet.docs, Sheet.doc, hchildren]
    split
    · simp [Sheet.docs, Sheet.doc, hchildren]
    · rw [Sheet.docs_append, docs_ownSheets]
      split <;> simp [Sheet.docs, Sheet.doc, hchildren]

end Sheets

end Printer

end AmbientDecl

import AmbientDecl.Declaration.Printer
import AmbientDecl.Proofs.Declaration.Layout
import Mathlib.Data.List.Forall2

/-!
# What is printed for one symbol

Without comments, a symbol is printed as pieces of a document, and each of them starts with the
words that declare it: what leads it in, a keyword and its name.

**Heads.** A text starts with a head when the name at the end of the head is whole, so that nothing
is declared under a longer name (`Heads`). A line that ends in a semicolon or a comma and starts
with a head declares something (`Doc.IsLine`).

**Pieces.** A function has one line for each signature and every other symbol has one piece
(`Declares`). An enumeration and a typedef that is declared as an interface are blocks, and
`Symbol.inside?` lists what stands in them. `declares_memberDocs` is the statement for members in
the body of a class, `declares_functionDocs` and its kin for declarations outside; `classDocs_eq`
and `interfaceDocs_eq` say what the body of a class holds before its members.
-/

namespace AmbientDecl

open TypeExpr List AmbientDecl.Symbol Noted

namespace Noted

variable {α β : Type}

@[simp] lemma value_pure (a : α) : (pure a : Noted α).value = a := rfl

@[simp] lemma value_bind (x : Noted α) (f : α → Noted β) : (x >>= f).value = (f x.value).value :=
  rfl

@[simp] lemma value_mapM (f : α → Noted β) (l : List α) :
    (l.mapM f).value = l.map fun a => (f a).value := by
  induction l with
  | nil => rfl
  | cons a rest ih => rw [mapM_cons, value_bind, value_bind, ih]; rfl

end Noted

/-- A text before which a name is over: it starts with no character of a name. -/
def BreaksName (text : String) : Prop := ∀ c ∈ text.toList.head?, isIdentRest c = false

/-- A text before which the name of a type is over: type parameters or a blank follow. -/
def EndsName (text : String) : Prop := ∀ c ∈ text.toList.head?, c = '<' ∨ c = ' '

/-- What is asked of the first character passes to a text of two parts. -/
lemma head_append {P : Char → Prop} {a b : String} (ha : ∀ c ∈ a.toList.head?, P c)
    (hb : ∀ c ∈ b.toList.head?, P c) : ∀ c ∈ (a ++ b).toList.head?, P c := by
  intro c hc
  rw [String.toList_append, head?_append] at hc
  cases hhead : a.toList.head? with
  | none => exact hb c (by simpa [hhead] using hc)
  | some d => exact ha c (by simpa [hhead] using hc)

lemma endsName_empty : EndsName "" := by simp [EndsName]

lemma EndsName.append {a b : String} (ha : EndsName a) (hb : EndsName b) : EndsName (a ++ b) :=
  head_append ha hb

lemma endsName_typeParametersText (params : List TypeParameter) :
    EndsName (Printer.typeParametersText params) := by
  unfold Printer.typeParametersText
  split
  · exact endsName_empty
  · intro c hc
    simp [argumentsText] at hc
    exact Or.inl hc.symm

lemma endsName_showClause (p : Printer) (owner : Place) (keyword : String) (written : List String) :
    EndsName (p.showClause owner keyword written).value := by
  unfold Printer.showClause
  simp only [value_bind, value_pure]
  split
  · exact endsName_empty
  · intro c hc
    simp at hc
    exact Or.inr hc.symm

lemma endsName_definition (text : String) : EndsName (" = " ++ text) := by
  intro c hc
  simp at hc
  exact Or.inr hc.symm

lemma EndsName.breaksName {text : String} (h : EndsName text) : BreaksName text := by
  intro c hc
  rcases h c hc with rfl | rfl <;> decide

lemma BreaksName.append {a b : String} (ha : BreaksName a) (hb : BreaksName b) :
    BreaksName (a ++ b) :=
  head_append ha hb

/-- A text that starts with a mark that stands in no name. -/
lemma breaksName_of_mark (mark : Char) (hmark : isIdentRest mark = false) {text : String}
    (h : text.toList.head? = some mark) : BreaksName text := by
  intro c hc
  rw [h, Option.mem_some_iff] at hc
  exact hc ▸ hmark

/-- What a piece of a document starts with. -/
def Doc.heading : Doc → String
  | .line text => text
  | .comment _ => ""
  | .block header _ => header

/-- A text that starts with a head, and the name at the end of the head is whole. -/
def Heads (head text : String) : Prop := ∃ rest, text = head ++ rest ∧ BreaksName rest

/-- A line that declares what its head says. -/
def Doc.IsLine (head : String) (d : Doc) : Prop :=
  ∃ text, d = .line text ∧ Heads head text ∧ EndsDeclaration text

/-- A piece that declares what its head says: a line, or a block of lines with the heads
`inside`. -/
def Doc.IsPiece (head : String) (inside? : Option (List String)) (d : Doc) : Prop :=
  match inside? with
  | none => d.IsLine head
  | some inside => ∃ header body, d = .block header body ∧ Heads head header ∧
      List.Forall₂ Doc.IsLine inside body

/-- What stands inside a typedef that is declared as an interface: the properties of a record, or
call signatures, which have no name. -/
def Symbol.shape? (s : Symbol) : Option (List String) :=
  match s.signatures with
  | [] => match s.type with
    | some (.record fields) => some (fields.map fun f => label f.name)
    | _ => none
  | [_] => none
  | first :: second :: rest => some ((first :: second :: rest).map fun _ => "")

/-- What stands inside the declaration of a symbol, if it is a block. -/
def Symbol.inside? (s : Symbol) : Option (List String) :=
  match s.kind with
  | .enumDecl => some (s.enumValues.map fun v => label v.name)
  | .typedefDecl => s.shape?
  | _ => none

/-- The pieces that declare a symbol: one for each signature of a function and else a single one. -/
structure Declares (head : String) (s : Symbol) (docs : List Doc) : Prop where
  nonempty : docs ≠ []
  length : docs.length = if s.kind = .functionDecl then s.signatures.length else 1
  piece : ∀ d ∈ docs, d.IsPiece head s.inside?

section Declares

variable {head text : String} {s : Symbol} {d : Doc}

lemma Doc.IsLine.plain (h : d.IsLine head) : d.Plain := by
  obtain ⟨text, rfl, _, hend⟩ := h
  exact Doc.plain_line.mpr hend

lemma plain_of_isLine {heads : List String} {docs : List Doc}
    (h : List.Forall₂ Doc.IsLine heads docs) : ∀ d ∈ docs, d.Plain := by
  induction h with
  | nil => simp
  | cons hd _ ih => exact forall_mem_cons.mpr ⟨hd.plain, ih⟩

lemma Declares.plain {docs : List Doc} (h : Declares head s docs) : ∀ d ∈ docs, d.Plain := by
  intro d hd
  have hpiece := h.piece d hd
  cases hinside : s.inside? with
  | none =>
    rw [hinside] at hpiece
    exact Doc.IsLine.plain hpiece
  | some inside =>
    rw [hinside] at hpiece
    obtain ⟨header, body, rfl, _, hbody⟩ := hpiece
    exact Doc.plain_block.mpr (plain_of_isLine hbody)

/-- A line is made of its head, a rest before which the name is over, and a semicolon. -/
lemma Doc.isLine_of_eq (rest : String) (hrest : BreaksName rest) (h : text = head ++ rest ++ ";") :
    (Doc.line text).IsLine head := by
  refine ⟨text, rfl, ⟨rest ++ ";", ?_, hrest.append (breaksName_of_mark _ (by decide) rfl)⟩, _,
    Or.inl h⟩
  rw [h, String.append_assoc]

lemma Declares.line (hk : s.kind ≠ .functionDecl) (hinside : s.inside? = none)
    (h : d.IsLine head) : Declares head s [d] where
  nonempty := by simp
  length := by simp [hk]
  piece := by
    rw [hinside, forall_mem_singleton]
    exact h

lemma Declares.block (hk : s.kind ≠ .functionDecl) {inside : List String}
    (hinside : s.inside? = some inside) {header rest : String} (hheader : header = head ++ rest)
    (hrest : BreaksName rest) {body : List Doc} (hbody : List.Forall₂ Doc.IsLine inside body) :
    Declares head s [.block header body] where
  nonempty := by simp
  length := by simp [hk]
  piece := by
    rw [hinside, forall_mem_singleton]
    exact ⟨header, body, rfl, ⟨rest, hheader, hrest⟩, hbody⟩

/-- Lines that are printed one for each item. -/
lemma isLine_flatMap {α : Type} {heading : α → String} {docs : α → List Doc}
    (h : ∀ a, ∃ d, docs a = [d] ∧ d.IsLine (heading a)) (l : List α) :
    List.Forall₂ Doc.IsLine (l.map heading) (l.flatMap docs) := by
  induction l with
  | nil => exact .nil
  | cons a rest ih =>
    obtain ⟨d, hd, hline⟩ := h a
    rw [map_cons, flatMap_cons, hd]
    exact .cons hline ih

/-- Lines for the signatures of a function. -/
lemma Declares.signatures (hk : s.kind = .functionDecl) (hne : s.signatures ≠ [])
    {line : Signature → Doc} (h : ∀ sig ∈ s.signatures, (line sig).IsLine head) :
    Declares head s (s.signatures.map line) where
  nonempty := by simpa using hne
  length := by simp [hk]
  piece := by
    have hinside : s.inside? = none := by simp [inside?, hk]
    rw [hinside]
    rw [forall_mem_map]
    intro sig hsig
    exact h sig hsig

end Declares

/-- Whether a typedef is declared as an interface: with several signatures, or as a record. -/
def Symbol.isStructural (s : Symbol) : Bool :=
  match s.signatures with
  | [] => match s.type with
    | some (.record _) => true
    | _ => false
  | [_] => false
  | _ :: _ :: _ => true

/-- The word that a symbol is declared with outside a class. -/
def Symbol.keyword (s : Symbol) : String :=
  match s.kind with
  | .classDecl => (if s.isAbstract then "abstract " else "") ++ "class "
  | .interfaceDecl => "interface "
  | .functionDecl => "function "
  | .memberDecl => if s.constant || s.readonly then "const " else "var "
  | .enumDecl => (if s.constant then "const " else "") ++ "enum "
  | .typedefDecl => if s.isStructural then "interface " else "type "
  | .root | .moduleDecl | .namespaceDecl => "namespace "

/-- The lines that the body of a class holds before its members: its constructors. -/
def Symbol.constructorHeads (s : Symbol) : List String :=
  if s.kind = .classDecl then s.signatures.map fun _ => "constructor" else []

namespace Printer

variable {p : Printer} {here : Place} {lead : String}

/-- The words that declare a symbol outside a class. -/
def ownHead (p : Printer) (here : Place) (lead : String) : String :=
  lead ++ here.symbol.keyword ++ p.nameAt here

/-- The words that declare a member in the body of a class or an interface. -/
def memberHead (inClass : Bool) (s : Symbol) : String :=
  (if inClass then memberModifiers s else "") ++
    (if s.kind ≠ .functionDecl ∧ (s.readonly || s.constant) then "readonly " else "") ++
    label s.name

variable (hp : p.emitComments = false)

include hp

lemma remarks_eq_nil (r : Remarks) : p.remarks r = [] := by
  simp [remarks, Remarks.docs, hp]

/-- A signature is printed as one line. -/
lemma value_signatureDocs (head : String) (sig : Signature) :
    (p.signatureDocs here head sig).value = [.line (head ++ typeParametersText sig.typeParameters ++
      (p.showSignature here here.typeParameterNames sig).value ++ ";")] := by
  rw [signatureDocs, value_bind, value_pure, remarks_eq_nil hp, nil_append]

omit hp in
lemma breaksName_showSignature (typeParams : List String) (sig : Signature) :
    BreaksName (p.showSignature here typeParams sig).value := by
  refine breaksName_of_mark '(' (by decide) ?_
  simp [showSignature]

omit hp in
lemma isLine_signature (head : String) (sig : Signature) :
    (Doc.line (head ++ typeParametersText sig.typeParameters ++
      (p.showSignature here here.typeParameterNames sig).value ++ ";")).IsLine head :=
  Doc.isLine_of_eq (typeParametersText sig.typeParameters ++
      (p.showSignature here here.typeParameterNames sig).value)
    ((endsName_typeParametersText _).breaksName.append (breaksName_showSignature _ sig))
    (by simp only [String.append_assoc])

/-- The lines of a function, in the body of a class or outside. -/
lemma declares_signatureDocs (head : String) (hk : here.symbol.kind = .functionDecl)
    (hcallable : here.symbol.signatures ≠ []) :
    Declares head here.symbol
      (here.symbol.signatures.flatMap fun sig => (p.signatureDocs here head sig).value) := by
  simp only [value_signatureDocs hp, ← map_eq_flatMap]
  exact Declares.signatures hk hcallable fun sig _ => isLine_signature head sig

omit hp in
/-- The line of a variable or a member. -/
lemma isLine_typed (head text : String) : (Doc.line (head ++ ": " ++ text ++ ";")).IsLine head :=
  Doc.isLine_of_eq (": " ++ text) (breaksName_of_mark ':' (by decide) (by simp))
    (by simp only [String.append_assoc])

/-- A member in the body of a class or an interface; a function has a signature. -/
lemma declares_memberDocs (inClass : Bool)
    (hkind : here.symbol.kind = .functionDecl ∨ here.symbol.kind = .memberDecl)
    (hcallable : here.symbol.kind = .functionDecl → here.symbol.signatures ≠ []) :
    Declares (memberHead inClass here.symbol) here.symbol (p.memberDocs inClass here).value := by
  unfold memberDocs memberHead
  rcases hkind with hk | hk
  · simp only [hk, ↓reduceIte, ne_eq, not_true_eq_false, false_and, value_bind,
      value_pure, value_mapM, ← flatMap_def, String.append_empty]
    exact declares_signatureDocs hp _ hk (hcallable hk)
  · have hnot : SymbolKind.memberDecl ≠ .functionDecl := by decide
    simp only [hk, hnot, ↓reduceIte, ne_eq, not_false_eq_true, true_and, value_bind,
      value_pure, remarks_eq_nil hp, nil_append]
    exact Declares.line (by rw [hk]; exact hnot) (by simp [inside?, hk]) (isLine_typed _ _)

omit hp in
/-- The members in the body, child by child. -/
lemma inlineDocs_eq (p : Printer) (inClass : Bool) (here : Place) :
    (p.inlineDocs inClass here).value = (here.tree.children.filter here.tree.isInlineIn).flatMap
      fun t => (p.memberDocs inClass (here.child t)).value := by
  simp only [inlineDocs, value_bind, value_pure, value_mapM, flatMap_def]

/-- A constructor is printed as one line. -/
lemma isLine_constructorDocs (sig : Signature) :
    ∃ d, (p.constructorDocs here sig).value = [d] ∧ d.IsLine "constructor" := by
  simp only [constructorDocs, value_bind, value_pure, remarks_eq_nil hp, nil_append]
  refine ⟨_, rfl, Doc.isLine_of_eq
    ("(" ++ (p.showParams here here.typeParameterNames sig.params).value ++ ")")
    (breaksName_of_mark '(' (by decide) (by simp)) ?_⟩
  rw [← String.toList_inj]
  simp

/-- A class is a block of its constructors and members. -/
lemma classDocs_eq (hk : here.symbol.kind = .classDecl) (lead : String) : ∃ rest own,
    BreaksName rest ∧ List.Forall₂ Doc.IsLine here.symbol.constructorHeads own ∧
      (p.classDocs here lead).value =
        [.block (p.ownHead here lead ++ rest) (own ++ (p.inlineDocs true here).value)] := by
  refine ⟨typeParametersText here.symbol.typeParameters ++
      (p.showClause here "extends" (here.symbol.augments.take 1)).value ++
      (p.showClause here "implements" (here.symbol.augments.drop 1 ++ here.symbol.implements ++
        here.symbol.mixes).eraseDups).value,
    here.symbol.signatures.flatMap fun sig => (p.constructorDocs here sig).value, ?_, ?_, ?_⟩
  · exact (((endsName_typeParametersText _).append (endsName_showClause _ _ _ _)).append
      (endsName_showClause _ _ _ _)).breaksName
  · rw [constructorHeads, if_pos hk]
    exact isLine_flatMap (isLine_constructorDocs hp) _
  · simp only [classDocs, value_bind, value_pure, value_mapM, remarks_eq_nil hp,
      nil_append, flatMap_def, ownHead, keyword, hk, genericName,
      String.append_assoc]

/-- An interface is a block of its members. -/
lemma interfaceDocs_eq (hk : here.symbol.kind = .interfaceDecl)
    (lead : String) : ∃ rest, BreaksName rest ∧ (p.interfaceDocs here lead).value =
      [.block (p.ownHead here lead ++ rest) (p.inlineDocs false here).value] := by
  refine ⟨typeParametersText here.symbol.typeParameters ++
    (p.showClause here "extends" ((here.symbol.augments ++ here.symbol.implements ++
      here.symbol.mixes).eraseDups)).value, ?_, ?_⟩
  · exact ((endsName_typeParametersText _).append (endsName_showClause _ _ _ _)).breaksName
  · simp only [interfaceDocs, value_bind, value_pure, remarks_eq_nil hp,
      nil_append, ownHead, keyword, hk, genericName, String.append_assoc]

lemma declares_functionDocs (hk : here.symbol.kind = .functionDecl)
    (hcallable : here.symbol.signatures ≠ []) (lead : String) :
    Declares (p.ownHead here lead) here.symbol (p.functionDocs here lead).value := by
  have hhead : p.ownHead here lead = lead ++ "function " ++ p.nameAt here := by
    rw [ownHead, keyword, hk]
  simp only [functionDocs, value_bind, value_pure, value_mapM, ← flatMap_def, hhead]
  exact declares_signatureDocs hp _ hk hcallable

lemma declares_variableDocs (hk : here.symbol.kind = .memberDecl) (lead : String) :
    Declares (p.ownHead here lead) here.symbol (p.variableDocs here lead).value := by
  simp only [variableDocs, value_bind, value_pure, remarks_eq_nil hp, nil_append]
  rw [ownHead, keyword, hk]
  exact Declares.line (by rw [hk]; decide) (by simp [inside?, hk]) (isLine_typed _ _)

/-- A value of an enumeration is a line that starts with its label. -/
lemma isLine_enumValueDocs (v : EnumValue) :
    ∃ d, p.enumValueDocs v = [d] ∧ d.IsLine (label v.name) := by
  simp only [enumValueDocs, remarks_eq_nil hp, nil_append]
  refine ⟨_, rfl, _, rfl, ⟨_, String.append_assoc, ?_⟩, _, Or.inr rfl⟩
  refine BreaksName.append ?_ (breaksName_of_mark ',' (by decide) rfl)
  split
  · exact breaksName_of_mark ' ' (by decide) (by simp)
  · exact endsName_empty.breaksName

lemma declares_enumDocs (hk : here.symbol.kind = .enumDecl) (lead : String) :
    Declares (p.ownHead here lead) here.symbol (p.enumDocs here lead) := by
  simp only [enumDocs, remarks_eq_nil hp, nil_append]
  have hinside : here.symbol.inside? = some (here.symbol.enumValues.map fun v => label v.name) := by
    simp [inside?, hk]
  refine Declares.block (by rw [hk]; decide) hinside ?_ endsName_empty.breaksName
    (isLine_flatMap (isLine_enumValueDocs hp) _)
  simp only [ownHead, keyword, hk, String.append_assoc, String.append_empty]

/-- A call signature is a line that starts with no name. -/
lemma isLine_callDocs (sig : Signature) :
    ∃ d, (p.callDocs here sig).value = [d] ∧ d.IsLine "" := by
  simp only [callDocs, value_bind, value_pure, remarks_eq_nil hp, nil_append]
  exact ⟨_, rfl, Doc.isLine_of_eq _ (breaksName_showSignature _ sig) (by rw [String.empty_append])⟩

/-- A property is a line that starts with its label. -/
lemma isLine_propertyDocs (f : RecordField TypeNode) :
    ∃ d, (p.propertyDocs here f).value = [d] ∧ d.IsLine (label f.name) := by
  simp only [propertyDocs, value_bind, value_pure, remarks_eq_nil hp, nil_append, fieldText]
  refine ⟨_, rfl, Doc.isLine_of_eq ((if f.optional then "?" else "") ++ ": " ++
    (p.showType here here.typeParameterNames f.type).value) ?_ (by simp only [String.append_assoc])⟩
  rw [String.append_assoc]
  refine BreaksName.append ?_ (breaksName_of_mark ':' (by decide) (by simp))
  split
  · exact breaksName_of_mark '?' (by decide) rfl
  · exact endsName_empty.breaksName

omit hp in
/-- A typedef that is declared as an interface, item by item. -/
lemma declares_structural {α : Type} (hk : here.symbol.kind = .typedefDecl)
    (hstruct : here.symbol.isStructural = true) (lead : String) {l : List α} {head : α → String}
    (hinside : here.symbol.inside? = some (l.map head)) {f : α → Noted (List Doc)}
    (hf : ∀ a, ∃ d, (f a).value = [d] ∧ d.IsLine (head a)) :
    Declares (p.ownHead here lead) here.symbol
      [.block (lead ++ "interface " ++ p.genericName here) (l.mapM f).value.flatten] := by
  rw [value_mapM, ← flatMap_def]
  refine Declares.block (by rw [hk]; decide) hinside ?_
    (endsName_typeParametersText here.symbol.typeParameters).breaksName (isLine_flatMap hf l)
  simp only [ownHead, keyword, hk, hstruct, ↓reduceIte, genericName, String.append_assoc]

omit hp in
/-- A typedef that is declared as a type. -/
lemma declares_type (hk : here.symbol.kind = .typedefDecl)
    (hstruct : here.symbol.isStructural = false) (hinside : here.symbol.inside? = none)
    (lead text : String) : Declares (p.ownHead here lead) here.symbol
      [.line (lead ++ "type " ++ p.genericName here ++ " = " ++ text ++ ";")] := by
  refine Declares.line (by rw [hk]; decide) hinside (Doc.isLine_of_eq
    (typeParametersText here.symbol.typeParameters ++ (" = " ++ text))
    ((endsName_typeParametersText _).append (endsName_definition _)).breaksName ?_)
  simp only [ownHead, keyword, hk, hstruct, Bool.false_eq_true, ↓reduceIte, genericName,
    String.append_assoc]

lemma declares_callbackDocs (hk : here.symbol.kind = .typedefDecl)
    (hstruct : here.symbol.isStructural = false) (hinside : here.symbol.inside? = none)
    (lead : String) (sig : Signature) :
    Declares (p.ownHead here lead) here.symbol (p.callbackDocs here lead sig).value := by
  simp only [callbackDocs, value_bind, value_pure, remarks_eq_nil hp, nil_append]
  have htype := declares_type (p := p) hk hstruct hinside lead
    ("(" ++ (p.showParams here here.typeParameterNames sig.params).value ++ ") => " ++
      (p.showType here here.typeParameterNames (sig.returns.getD .void)).value)
  have hopen : " = (" = " = " ++ "(" := rfl
  rw [hopen]
  simpa only [String.append_assoc] using htype

lemma declares_typedefDocs (hk : here.symbol.kind = .typedefDecl) (lead : String) :
    Declares (p.ownHead here lead) here.symbol (p.typedefDocs here lead).value := by
  cases hsig : here.symbol.signatures with
  | nil =>
    simp only [typedefDocs, hsig]
    split
    · rename_i fields htype
      simp only [value_bind, value_pure, remarks_eq_nil hp, nil_append]
      have hinside : here.symbol.inside? = some (fields.map fun f => label f.name) := by
        simp only [inside?, shape?, hk, hsig, htype]
      exact declares_structural hk (by simp [isStructural, hsig, htype]) lead hinside
        (isLine_propertyDocs hp)
    · rename_i htype
      simp only [value_bind, value_pure, remarks_eq_nil hp, nil_append]
      refine declares_type hk ?_ ?_ lead _
      · simp only [isStructural, hsig]
      · simp only [inside?, shape?, hk, hsig]
  | cons sig rest =>
    cases rest with
    | nil =>
      simp only [typedefDocs, hsig]
      exact declares_callbackDocs hp hk (by simp [isStructural, hsig])
        (by simp [inside?, shape?, hk, hsig]) lead sig
    | cons second others =>
      simp only [typedefDocs, hsig, value_bind, value_pure, remarks_eq_nil hp, nil_append]
      have hinside : here.symbol.inside? = some ((sig :: second :: others).map fun _ => "") := by
        simp only [inside?, shape?, hk, hsig]
      exact declares_structural hk (by simp [isStructural, hsig]) lead hinside
        (isLine_callDocs hp)

end Printer

end AmbientDecl

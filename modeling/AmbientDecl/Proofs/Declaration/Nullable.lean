import AmbientDecl.Proofs.Declaration.Name
import AmbientDecl.Proofs.Declaration.Printed
import AmbientDecl.Proofs.Forest.Typing
import AmbientDecl.Proofs.Symbol.Property
import AmbientDecl.Proofs.TypeExpr.Union

/-!
# Where the null marker survives

A documented type that starts with a question mark may be null, and what is printed for it should
say so. Members, parameters and described properties do; the meaning of a typedef and the result of
a function do not.

**Positions.** `TypePosition` lists the positions where a doclet gives one type.
`Symbol.Documents` is what is documented at a position, `Printer.PrintsAt` what is printed there.

**One position at a time.** `printsAt_member` and its kin say for each position which type is
printed there when the documented one has the marker.
-/

namespace AmbientDecl

open Text Printer List Parameter

/-- A position where a doclet gives one type. -/
inductive TypePosition where
  | member
  | meaning
  /-- The described property of a typedef with this number. -/
  | property (index : Nat)
  /-- The parameter with this number in the doclet with that number of a function. -/
  | parameter (doclet index : Nat)
  /-- The result that the doclet with this number gives a function. -/
  | result (doclet : Nat)
deriving DecidableEq, Repr

/-- Whether a value that may be null is printed as one at a position. -/
def TypePosition.keepsNull : TypePosition → Bool
  | .member | .property _ | .parameter .. => true
  | .meaning | .result _ => false

/-- The type that is printed at a position if the documented one has the null marker. -/
def TypePosition.shown (position : TypePosition) (t : TypeNode) : TypeNode :=
  if position.keepsNull then t.orNull else t

/-- The path of a described property with a number. -/
def Doclet.Param.path (param : Doclet.Param) (index : Nat) : List String :=
  (read index param).propertyNames

/-- The types that are documented at a position. A parameter is required and takes one argument, and
neither it nor a property has described properties of its own; of several descriptions of a property
the last one counts. -/
def Symbol.Documents (s : Symbol) (names : Doclet.TypeNames) : TypePosition → Prop
  | .member => ∃ d constant, s.doclet? = some d ∧ d.detail = .value constant (some names) false
  | .meaning => ∃ d, s.doclet? = some d ∧ d.detail = .typedef (some names) [] [] ∧ d.properties = []
  | .property index => ∃ d type param, s.doclet? = some d ∧ d.detail = .typedef type [] [] ∧
      d.properties[index]? = some param ∧ param.type = some names ∧
      ∀ i other, d.properties[i]? = some other → param.path index <+: other.path i →
        other.path i = param.path index ∧ i ≤ index
  | .parameter doclet index => s.kind = .functionDecl ∧ ∃ d param, s.doclets[doclet]? = some d ∧
      d.params[index]? = some param ∧ param.type = some names ∧ param.optional = false ∧
      param.variable_ = false ∧ (read index param).isProperty = false ∧
      ∀ i other, d.params[i]? = some other → (read i other).isProperty = true →
        (read i other).rootName ≠ param.nameAt index
  | .result doclet => s.kind = .functionDecl ∧ ∃ d description, s.doclets[doclet]? = some d ∧
      d.returns = [⟨some names, description⟩]

/-- The alternatives are one expression: a null marker before a type without markers. -/
def Doclet.TypeNames.NullableOf (names : Doclet.TypeNames) (t : TypeNode) : Prop :=
  ∃ text, names.names = ["?" ++ text] ∧ TypeExpr.ofText (stripped text).toList = .ok (.plain t)

namespace Printer

/-- What is printed for the symbol at a place, outside a class or in the body of one, with the words
that declare it. -/
inductive Prints (p : Printer) (here : Place) : String → List Doc → Prop
  | own (lead : String) : Prints p here (p.ownHead here lead) (p.ownDocs here lead).value
  | member (inClass : Bool) :
      Prints p here (memberHead inClass here.symbol) (p.memberDocs inClass here).value

/-- The text of a type among the type parameters of the symbol at a place and further ones. -/
def textAt (p : Printer) (here : Place) (further : List TypeParameter) (t : TypeNode) : String :=
  typeText (p.directory.scope here (here.typeParameterNames ++ further.map TypeParameter.name)) t

def recordDocs (p : Printer) (here : Place) (fields : List (RecordField TypeNode)) : List Doc :=
  fields.flatMap fun f => p.remarks (.describing f.description) ++
    [.line (fieldText ⟨f.name, p.textAt here [] f.type, f.optional, none⟩ ++ ";")]

/-- The type that is printed at a position. -/
def PrintsAt (p : Printer) (here : Place) (t : TypeNode) : TypePosition → Prop
  | .member => ∀ head docs, p.Prints here head docs →
      .line (head ++ ": " ++ p.textAt here [] t ++ ";") ∈ docs
  | .meaning => ∀ lead, (match t with
      | .record fields => .block (lead ++ "interface " ++ p.genericName here)
          (p.recordDocs here fields)
      | t => .line (lead ++ "type " ++ p.genericName here ++ " = " ++ p.textAt here [] t ++ ";")) ∈
        (p.ownDocs here lead).value
  | .property index => ∃ d param fields f, here.symbol.doclet? = some d ∧
      d.properties[index]? = some param ∧ FieldAt (param.path index) f fields ∧ f.type = t ∧
      f.optional = (read index param).optional ∧
      ∀ lead, .block (lead ++ "interface " ++ p.genericName here) (p.recordDocs here fields) ∈
        (p.ownDocs here lead).value
  | .parameter doclet index => ∃ d param sig, ∃ place : Nat, here.symbol.doclets[doclet]? = some d ∧
      d.params[index]? = some param ∧ here.symbol.signatures[doclet]? = some sig ∧
      sig.params[place]? = some (read index param) ∧
      ∀ head docs, p.Prints here head docs → ∃ texts name result, texts.length = sig.params.length ∧
        texts[place]? = some (name ++ ": " ++ p.textAt here sig.typeParameters t) ∧
        .line (head ++ typeParametersText sig.typeParameters ++ "(" ++ joined ", " texts ++ "): " ++
          result ++ ";") ∈ docs
  | .result doclet => ∃ sig, here.symbol.signatures[doclet]? = some sig ∧
      ∀ head docs, p.Prints here head docs → ∃ params,
        .line (head ++ typeParametersText sig.typeParameters ++ "(" ++ params ++ "): " ++
          p.textAt here sig.typeParameters t ++ ";") ∈ docs

end Printer

lemma readType_nullable {names : Doclet.TypeNames} {t : TypeNode} (h : names.NullableOf t) :
    readType (some names.expression) = ⟨⟨t, false, some true, false⟩, none⟩ := by
  obtain ⟨text, hnames, htext⟩ := h
  have hexpression : names.expression = "?" ++ text := by
    simp [Doclet.TypeNames.expression, hnames, joinTypeNames]
  rw [hexpression]
  exact readType_question htext

lemma flat_of_nullable {names : Doclet.TypeNames} {t : TypeNode} (h : names.NullableOf t) :
    t.Flat := by
  obtain ⟨_, _, htext⟩ := h
  exact flat_of_ofText htext

lemma getElem?_readFrom (params : List Doclet.Param) : ∀ (position i : Nat),
    (readFrom position params)[i]? = params[i]?.map fun param => read (position + i) param := by
  induction params with
  | nil => intro position i; rfl
  | cons param rest ih =>
    intro position i
    cases i with
    | zero => rfl
    | succ i =>
      rw [readFrom, getElem?_cons_succ, getElem?_cons_succ, ih, Nat.add_right_comm, Nat.add_assoc]

/-- A documented parameter with the marker. -/
lemma read_nullable {names : Doclet.TypeNames} {t : TypeNode} (h : names.NullableOf t)
    {param : Doclet.Param} (htype : param.type = some names) (index : Nat) :
    (read index param).type = t ∧ (read index param).nullable = true ∧
      (read index param).optional = param.optional ∧
      (read index param).variadic = param.variable_ := by
  simp [Parameter.read, htype, readType_nullable h]

section Positions

variable {s : Symbol} {d : Doclet} {names : Doclet.TypeNames} {t : TypeNode} {p : Printer}
  {here : Place}

lemma printsAt_member (h : here.symbol.Finished) (ht : names.NullableOf t)
    (hdoc : here.symbol.Documents names .member) : p.PrintsAt here t.orNull .member := by
  obtain ⟨d, constant, hd, hdetail⟩ := hdoc
  obtain ⟨hkind, htype⟩ := type_of_finished h hd
  have hmember : here.symbol.kind = .memberDecl := by
    rw [hkind, Doclet.symbolKind, hdetail]
    rfl
  have hnull : here.symbol.type = some t.orNull := by
    rw [htype, Doclet.finalType, if_neg (by simp [Doclet.symbolKind, hdetail]),
      Doclet.ownType, hdetail]
    simp [readType_nullable ht]
  show ∀ head docs, _
  rintro head docs (⟨lead⟩ | ⟨inClass⟩)
  · have hown : p.ownDocs here lead = p.variableDocs here lead := by
      have hkind' : here.tree.kind = .memberDecl := hmember
      rw [ownDocs, hkind']
    rw [hown]
    simp [variableDocs, ownHead, Symbol.keyword, hmember, hnull, showType, textAt,
      String.append_assoc]
  · simp [memberDocs, memberHead, hmember, hnull, showType, textAt, String.append_assoc]

lemma textAt_nil (p : Printer) (here : Place) (t : TypeNode) :
    p.textAt here [] t = (p.showType here here.typeParameterNames t).value := by
  simp [textAt, showType]

lemma value_mapM_propertyDocs (p : Printer) (here : Place) (fields : List (RecordField TypeNode)) :
    (fields.mapM (p.propertyDocs here)).value.flatten = p.recordDocs here fields := by
  simp [recordDocs, propertyDocs, textAt_nil, flatMap_def]

/-- A typedef that is no callback is printed as a record or by its type. -/
lemma printsAt_meaning_of_type (hkind : here.symbol.kind = .typedefDecl)
    (hsignatures : here.symbol.signatures = []) (htype : here.symbol.type = some t) :
    p.PrintsAt here t .meaning := by
  intro lead
  have hown : p.ownDocs here lead = p.typedefDocs here lead := by
    have hkind' : here.tree.kind = .typedefDecl := hkind
    rw [ownDocs, hkind']
  rw [hown]
  simp only [typedefDocs, hsignatures, htype]
  cases t with
  | record fields =>
    simp only [Noted.value_bind, Noted.value_pure]
    rw [value_mapM_propertyDocs]
    exact mem_append_right _ (mem_singleton.mpr rfl)
  | named | union | array | generic | function | literal | unreadable =>
    simp only [Noted.value_bind, Noted.value_pure, textAt_nil, Option.getD_some]
    exact mem_append_right _ (mem_singleton.mpr rfl)

/-- The kind and the signatures of a typedef that is no callback. -/
lemma typedef_of_finished (h : here.symbol.Finished) {type : Option Doclet.TypeNames}
    (hd : here.symbol.doclet? = some d) (hdetail : d.detail = .typedef type [] []) :
    here.symbol.kind = .typedefDecl ∧ here.symbol.signatures = [] ∧ d.isCallback = false := by
  have hkind : here.symbol.kind = .typedefDecl := by
    rw [(type_of_finished h hd).1, Doclet.symbolKind, hdetail]
  have hplain : d.isCallback = false := by simp [Doclet.isCallback, hdetail]
  exact ⟨hkind, signatures_eq_nil_of_finished h hd (.inr ⟨hkind, hplain⟩), hplain⟩

lemma printsAt_meaning (h : here.symbol.Finished) (ht : names.NullableOf t)
    (hdoc : here.symbol.Documents names .meaning) : p.PrintsAt here t .meaning := by
  obtain ⟨d, hd, hdetail, hproperties⟩ := hdoc
  obtain ⟨hkind, hsignatures, _⟩ := typedef_of_finished h hd hdetail
  refine printsAt_meaning_of_type hkind hsignatures ?_
  rw [(type_of_finished h hd).2, Doclet.finalType, if_neg (by simp [hproperties]), Doclet.ownType,
    hdetail]
  simp [readType_nullable ht]

/-- The descriptions around the last one of a path: none before it goes further than the path, and
none after it starts with it. -/
lemma exists_split_of_last {param : Doclet.Param} {index : Nat}
    (hparam : d.properties[index]? = some param)
    (hlast : ∀ i other, d.properties[i]? = some other → param.path index <+: other.path i →
      other.path i = param.path index ∧ i ≤ index) :
    ∃ before after, readFrom 0 d.properties = before ++ read index param :: after ∧
      (∀ q ∈ before, param.path index <+: q.propertyNames → q.propertyNames = param.path index) ∧
      ∀ q ∈ after, ¬ param.path index <+: q.propertyNames := by
  have hread := getElem?_readFrom d.properties 0
  simp only [Nat.zero_add] at hread
  have hat : (readFrom 0 d.properties)[index]? = some (read index param) := by
    rw [hread, hparam]
    rfl
  obtain ⟨hlt, hget⟩ := List.getElem?_eq_some_iff.mp hat
  have hothers : ∀ i q, (readFrom 0 d.properties)[i]? = some q →
      param.path index <+: q.propertyNames → q.propertyNames = param.path index ∧ i ≤ index := by
    intro i q hq
    rw [hread] at hq
    obtain ⟨other, hother, rfl⟩ := Option.map_eq_some_iff.mp hq
    exact hlast i other hother
  refine ⟨(readFrom 0 d.properties).take index,
    (readFrom 0 d.properties).drop (index + 1), ?_, ?_, ?_⟩
  · rw [← hget, getElem_cons_drop, take_append_drop]
  · intro q hq
    obtain ⟨i, hi⟩ := mem_iff_getElem?.mp (mem_of_mem_take hq)
    exact fun hstarts => (hothers i q hi hstarts).1
  · intro q hq hstarts
    obtain ⟨i, hi⟩ := mem_iff_getElem?.mp hq
    rw [getElem?_drop] at hi
    have := (hothers _ q hi hstarts).2
    omega

lemma printsAt_property {index : Nat} (h : here.symbol.Finished) (ht : names.NullableOf t)
    (hdoc : here.symbol.Documents names (.property index)) :
    p.PrintsAt here t.orNull (.property index) := by
  obtain ⟨d, type, param, hd, hdetail, hparam, hnames, hlast⟩ := hdoc
  obtain ⟨hkind, hsignatures, hplain⟩ := typedef_of_finished h hd hdetail
  obtain ⟨before, after, hsplit, hbefore, hafter⟩ := exists_split_of_last hparam hlast
  obtain ⟨fields, f, hrecord, hfield, htype, hoptional⟩ :=
    fieldAt_recordOfProperties hsplit hbefore hafter
  obtain ⟨hread_type, hnullable, _⟩ := read_nullable ht hnames index
  rw [hnullable, if_pos rfl, hread_type] at htype
  refine ⟨d, param, fields, f, hd, hparam, hfield, htype, hoptional, ?_⟩
  refine printsAt_meaning_of_type (t := .record fields) hkind hsignatures ?_
  have hsome : d.properties ≠ [] := by
    intro hempty
    simp [hempty] at hparam
  rw [(type_of_finished h hd).2, Doclet.finalType, if_pos, hrecord]
  rw [← (type_of_finished h hd).1]
  exact ⟨hkind, by simp [hplain], by simpa using hsome⟩

lemma exists_getElem?_of_forall₂ {α β : Type} {R : α → β → Prop} {l : List α} {l' : List β}
    (h : List.Forall₂ R l l') : ∀ {i : Nat} {a : α}, l[i]? = some a →
      ∃ b, l'[i]? = some b ∧ R a b := by
  induction h with
  | nil => intro i a ha; simp at ha
  | cons hab _ ih =>
    intro i a ha
    cases i with
    | zero =>
      obtain rfl := Option.some.inj ha
      exact ⟨_, rfl, hab⟩
    | succ i => exact ih ha

/-- The signature of a doclet of a function. -/
lemma exists_signature (h : here.symbol.Finished) (hkind : here.symbol.kind = .functionDecl)
    {doclet : Nat} (hd : here.symbol.doclets[doclet]? = some d) :
    ∃ sig, here.symbol.signatures[doclet]? = some sig ∧
      (Signature.read d .functionDecl).Expanded sig := by
  obtain ⟨first, hfirst⟩ : ∃ first, here.symbol.doclet? = some first := by
    rw [Symbol.doclet?]
    cases hdoclets : here.symbol.doclets with
    | nil => simp [hdoclets] at hd
    | cons first rest => exact ⟨first, rfl⟩
  exact exists_getElem?_of_forall₂ (signatures_of_finished h hfirst hkind) hd

/-- A signature of a function is printed after the words that declare the function. -/
lemma mem_signature (hkind : here.symbol.kind = .functionDecl) {sig : Signature}
    (hsig : sig ∈ here.symbol.signatures) {head : String} {docs : List Doc}
    (hprints : p.Prints here head docs) :
    .line (head ++ typeParametersText sig.typeParameters ++
      (p.showSignature here here.typeParameterNames sig).value ++ ";") ∈ docs := by
  have hline : ∀ lead, .line (lead ++ typeParametersText sig.typeParameters ++
      (p.showSignature here here.typeParameterNames sig).value ++ ";") ∈
        (p.signatureDocs here lead sig).value :=
    fun lead => mem_append_right _ (mem_singleton.mpr rfl)
  cases hprints with
  | own lead =>
    have hown : p.ownDocs here lead = p.functionDocs here lead := by
      have hkind' : here.tree.kind = .functionDecl := hkind
      rw [ownDocs, hkind']
    have hhead : p.ownHead here lead = lead ++ "function " ++ p.nameAt here := by
      simp only [ownHead, Symbol.keyword, hkind]
    rw [hown, hhead, functionDocs, Noted.value_bind, Noted.value_pure, Noted.value_mapM]
    exact mem_flatten.mpr ⟨_, mem_map_of_mem hsig, hline _⟩
  | member inClass =>
    have hhead : memberHead inClass here.symbol =
        (if inClass then memberModifiers here.symbol else "") ++ label here.symbol.name := by
      simp [memberHead, hkind]
    rw [hhead, memberDocs]
    simp only [hkind, if_true, Noted.value_bind, Noted.value_pure, Noted.value_mapM]
    exact mem_flatten.mpr ⟨_, mem_map_of_mem hsig, hline _⟩

lemma value_showSignature (p : Printer) (here : Place) (sig : Signature) :
    (p.showSignature here here.typeParameterNames sig).value =
      "(" ++ (p.showParams here (here.typeParameterNames ++
        sig.typeParameters.map TypeParameter.name)
        sig.params).value ++ "): " ++ p.textAt here sig.typeParameters (sig.returns.getD .void) :=
          rfl

lemma ofReturns_nullable (ht : names.NullableOf t) (description : Option String) :
    TypeNode.ofReturns [⟨some names, description⟩] = t := by
  have hnames : names.names.isEmpty = false := by
    obtain ⟨text, hnames, _⟩ := ht
    simp [hnames]
  have hreturn : TypeNode.ofReturn ⟨some names, description⟩ = t := by
    simp [TypeNode.ofReturn, hnames, readType_nullable ht]
  rw [TypeNode.ofReturns, isEmpty_cons, if_neg Bool.false_ne_true, map_singleton, hreturn]
  exact (flat_of_nullable ht).joined

lemma printsAt_result {doclet : Nat} (h : here.symbol.Finished) (ht : names.NullableOf t)
    (hdoc : here.symbol.Documents names (.result doclet)) :
    p.PrintsAt here t (.result doclet) := by
  obtain ⟨hkind, d, description, hd, hreturns⟩ := hdoc
  obtain ⟨sig, hsig, groups, _, hexpanded⟩ := exists_signature h hkind hd
  have hresult : sig.returns.getD .void = t := by
    rw [hexpanded]
    show (some (TypeNode.ofReturns d.returns)).getD .void = t
    rw [hreturns, Option.getD_some, ofReturns_nullable ht]
  refine ⟨sig, hsig, ?_⟩
  intro head docs hprints
  have hline := mem_signature hkind (mem_of_getElem? hsig) hprints
  rw [value_showSignature, hresult] at hline
  exact ⟨_, by simpa only [String.append_assoc] using hline⟩

/-- A required parameter is declared with its own type. -/
lemma getElem?_declaredFrom {τ : Type} {q : FunctionParam τ} : ∀ {l : List (FunctionParam τ)}
    {i position : Nat} {seen : List String}, l[i]? = some q → q.isRequired = true →
      ∃ name, (declaredFrom position seen l)[i]? = some ⟨name, .required, q.type⟩ := by
  intro l
  induction l with
  | nil => intro i _ _ h; simp at h
  | cons first rest ih =>
    intro i position seen h hrequired
    cases i with
    | zero =>
      obtain rfl := Option.some.inj h
      simp only [FunctionParam.isRequired, Bool.and_eq_true, Bool.not_eq_true'] at hrequired
      refine ⟨paramName first.name position seen, ?_⟩
      simp [declaredFrom, paramForm, hrequired]
    | succ i => exact ih h hrequired

lemma length_declaredFrom {τ : Type} (l : List (FunctionParam τ)) : ∀ position seen,
    (declaredFrom position seen l).length = l.length := by
  induction l with
  | nil => intro _ _; rfl
  | cons first rest ih => intro _ _; simp [declaredFrom, ih]

/-- Each parameter is printed on its own, a required one by its name and its type. -/
lemma exists_texts (p : Printer) (here : Place) (further : List TypeParameter)
    {params : List Parameter} {param : Parameter} {place : Nat}
    (hparam : params[place]? = some param)
    (hrequired : param.spec.isRequired = true) :
    ∃ texts name, (p.showParams here (here.typeParameterNames ++ further.map TypeParameter.name)
        params).value = joined ", " texts ∧ texts.length = params.length ∧
      texts[place]? = some (name ++ ": " ++ p.textAt here further param.spec.type) := by
  let scope := p.directory.scope here (here.typeParameterNames ++ further.map TypeParameter.name)
  let shown := params.map fun q => q.spec.map (shownType scope)
  have hshown : shown[place]? = some (param.spec.map (shownType scope)) := by
    rw [getElem?_map, hparam]
    rfl
  obtain ⟨name, hname⟩ := getElem?_declaredFrom (i := place) hshown hrequired
  refine ⟨(declaredParams shown).map DeclaredParam.text, name, ?_, ?_, ?_⟩
  · simp only [showParams, showParam, Noted.value_bind, Noted.value_pure, Noted.value_mapM,
      map_map, paramsText]
    rfl
  · rw [length_map, declaredParams, length_declaredFrom, length_map]
  · rw [getElem?_map, declaredParams, hname]
    rfl

lemma printsAt_parameter {doclet index : Nat} (h : here.symbol.Finished) (ht : names.NullableOf t)
    (hdoc : here.symbol.Documents names (.parameter doclet index)) :
    p.PrintsAt here t.orNull (.parameter doclet index) := by
  obtain ⟨hkind, d, param, hd, hparam, hnames, hoptional, hvariadic, hplain, hnone⟩ := hdoc
  obtain ⟨sig, hsig, groups, hgroups, hexpanded⟩ := exists_signature h hkind hd
  obtain ⟨htype, hnullable, hoptional', hvariadic'⟩ := read_nullable ht hnames index
  have hread := getElem?_readFrom d.params 0
  simp only [Nat.zero_add] at hread
  have hmem : read index param ∈ readFrom 0 d.params :=
    mem_of_getElem? ((hread index).trans (by rw [hparam]; rfl))
  have hkept : read index param ∈ sig.params := by
    rw [hexpanded]
    refine mem_substituted_of_plain hgroups hmem hplain ?_
    intro q hq
    obtain ⟨i, hi⟩ := mem_iff_getElem?.mp hq
    obtain ⟨other, hother, rfl⟩ := Option.map_eq_some_iff.mp ((hread i).symm.trans hi)
    exact hnone i other hother
  obtain ⟨place, hplace⟩ := mem_iff_getElem?.mp hkept
  have hspec : (read index param).spec =
      ⟨some (read index param).name, t.orNull, false, false⟩ := by
    rw [spec, hnullable, if_pos rfl, htype, hoptional', hvariadic', hoptional, hvariadic]
  refine ⟨d, param, sig, place, hd, hparam, hsig, hplace, ?_⟩
  intro head docs hprints
  obtain ⟨texts, name, hshown, hlength, htext⟩ :=
    exists_texts p here sig.typeParameters hplace (by rw [hspec]; rfl)
  have hline := mem_signature hkind (mem_of_getElem? hsig) hprints
  rw [value_showSignature, hshown] at hline
  rw [hspec] at htext
  exact ⟨texts, name, _, hlength, htext, by simpa only [String.append_assoc] using hline⟩

end Positions

lemma shown_eq_orNull_iff {position : TypePosition} {t : TypeNode} (h : t.Flat) :
    position.shown t = t.orNull ↔ position.keepsNull = true ∨ .null ∈ t.alternatives := by
  rw [TypePosition.shown, ← h.orNull_eq_iff]
  cases position.keepsNull <;> simp [eq_comm]

/-- **Null survives in members, parameters and properties, and only there.** Where the one
documented type is a type without markers behind a question mark, the printed type is the one with
null added at the positions that keep null, and the one without at the others. So null is lost
exactly at the meaning of a typedef and at the result of a function, unless it is an alternative of
the type anyway. -/
theorem printsAt_nullable (filter : Option DocletFilter) (doclets : List Doclet) (f : Forest)
    (hf : (symbolForest filter doclets).result = .ok f) (p : Printer) (here : Place)
    (hhere : here.tree ∈ f.nodes) (position : TypePosition) (names : Doclet.TypeNames)
    (t : TypeNode)
    (hdoc : here.symbol.Documents names position) (ht : names.NullableOf t) :
    p.PrintsAt here (position.shown t) position ∧
      (position.shown t = t.orNull ↔ position.keepsNull = true ∨ .null ∈ t.alternatives) := by
  have hfinished : here.symbol.Finished := finished_of_symbolForest hf here.tree hhere
  refine ⟨?_, shown_eq_orNull_iff (flat_of_nullable ht)⟩
  cases position with
  | member => exact printsAt_member hfinished ht hdoc
  | meaning => exact printsAt_meaning hfinished ht hdoc
  | property index => exact printsAt_property hfinished ht hdoc
  | parameter doclet index => exact printsAt_parameter hfinished ht hdoc
  | result doclet => exact printsAt_result hfinished ht hdoc

lemma nullableOf_string : Doclet.TypeNames.NullableOf ⟨["?string"]⟩ .string :=
  ⟨"string", rfl, by decide +kernel⟩

/-- A function whose parameter and whose result may be null. -/
def nullableEcho : List Doclet :=
  [.bare "echo" none (.callable [⟨some "x", some ⟨["?string"]⟩, none, false, none, false, .null⟩]
    [⟨some ⟨["?string"]⟩, none⟩])]

/-- Whether a symbol is a function with one doclet, and its only parameter and its result have the
same documented type. -/
def Symbol.echoes (names : Doclet.TypeNames) (s : Symbol) : Bool :=
  s.kind = .functionDecl && match s.doclets with
    | [d] => d.returns = [⟨some names, none⟩] && match d.params with
        | [q] => q.type = some names && !q.optional && !q.variable_ && !(read 0 q).isProperty
        | _ => false
    | _ => false

lemma documents_of_echoes {s : Symbol} {names : Doclet.TypeNames} (h : s.echoes names = true) :
    s.Documents names (.parameter 0 0) ∧ s.Documents names (.result 0) := by
  rw [Symbol.echoes, Bool.and_eq_true, decide_eq_true_eq] at h
  obtain ⟨hkind, h⟩ := h
  split at h
  · rename_i d hd
    rw [Bool.and_eq_true, decide_eq_true_eq] at h
    obtain ⟨hreturns, h⟩ := h
    split at h
    · rename_i param hparam
      simp only [Bool.and_eq_true, decide_eq_true_eq, Bool.not_eq_true'] at h
      obtain ⟨⟨⟨htype, hoptional⟩, hvariadic⟩, hplain⟩ := h
      refine ⟨⟨hkind, d, param, by simp [hd], by simp [hparam], htype, hoptional,
        hvariadic, hplain, ?_⟩,
        hkind, d, none, by simp [hd], hreturns⟩
      intro i other hother hproperty
      cases i with
      | zero =>
        obtain rfl : param = other := by simpa [hparam] using hother
        rw [hplain] at hproperty
        cases hproperty
      | succ i => simp [hparam] at hother
    · cases h
  · cases h

/-- The declaration of `nullableEcho`: the parameter may be null, the result may not. -/
def nullableEchoText : String := "declare function echo(x: string | null): string;\n"

/-- The parameter is printed with null added. -/
theorem printsAt_nullableEcho : ∃ f here, (symbolForest none nullableEcho).result = .ok f ∧
    here.tree ∈ f.nodes ∧ here.symbol.Documents ⟨["?string"]⟩ (.parameter 0 0) ∧
    ∀ p : Printer, p.PrintsAt here TypeNode.string.orNull (.parameter 0 0) := by
  have hrun : ((symbolForest none nullableEcho).result.toOption.bind fun f =>
      (f.nodes.find? fun t => t.symbol.echoes ⟨["?string"]⟩).map fun t => t.longname) =
          some "echo" := by
    decide +kernel
  obtain ⟨f, hforest, hrun⟩ := Run.toOption_bind.mp hrun
  obtain ⟨t, ht, _⟩ := Option.map_eq_some_iff.mp hrun
  have hnode := mem_of_find?_eq_some ht
  have hechoes : t.symbol.echoes ⟨["?string"]⟩ = true := by
    simpa using find?_some ht
  have hdoc := (documents_of_echoes hechoes).1
  exact ⟨f, ⟨t, []⟩, hforest, hnode, hdoc, fun p =>
    (printsAt_nullable none nullableEcho f hforest p ⟨t, []⟩ hnode (.parameter 0 0) _ .string hdoc
      nullableOf_string).1⟩

/-- **The result of the function may be null, but it is printed as if it could not.** -/
theorem lost_nullableEcho : ∃ settings f here, (symbolForest none nullableEcho).result = .ok f ∧
    here ∈ f.places ∧ here.symbol.Documents ⟨["?string"]⟩ (.result 0) ∧
    Doclet.TypeNames.NullableOf ⟨["?string"]⟩ .string ∧
    (emitDeclarations settings f).result = .ok nullableEchoText ∧
    ¬ (Emitter.named settings f).printer.PrintsAt here TypeNode.string.orNull (.result 0) := by
  let settings := { Settings.standard with output := ⟨"", "\t", false⟩ }
  have hrun : ((symbolForest none nullableEcho).result.toOption.bind fun f =>
      (emitDeclarations settings f).result.toOption.bind fun text =>
      (f.places.find? fun q => q.symbol.echoes ⟨["?string"]⟩).map fun here =>
        let p := (Emitter.named settings f).printer
        (text, (p.ownDocs here "declare ").value.map Doc.heading,
          here.symbol.signatures.map fun sig =>
            p.textAt here sig.typeParameters TypeNode.string.orNull)) =
        some (nullableEchoText, ["declare function echo(x: string | null): string;"],
          ["string | null"]) := by
    decide +kernel
  obtain ⟨f, hf, hrun⟩ := Run.toOption_bind.mp hrun
  obtain ⟨text, htext, hrun⟩ := Run.toOption_bind.mp hrun
  obtain ⟨here, hhere, hrun⟩ := Option.map_eq_some_iff.mp hrun
  simp only [Prod.mk.injEq] at hrun
  obtain ⟨rfl, hdocs, htexts⟩ := hrun
  have hechoes : here.symbol.echoes ⟨["?string"]⟩ = true := by
    simpa using find?_some hhere
  refine ⟨settings, f, here, hf, mem_of_find?_eq_some hhere,
    (documents_of_echoes hechoes).2, nullableOf_string, htext, ?_⟩
  rintro ⟨sig, hsig, hprints⟩
  obtain ⟨params, hline⟩ := hprints _ _ (.own "declare ")
  obtain ⟨only, honly, honlyText⟩ := map_eq_singleton_iff.mp htexts
  obtain rfl : only = sig := by simpa [honly] using hsig
  rw [honlyText] at hline
  have hheading := mem_map_of_mem (f := Doc.heading) hline
  rw [hdocs, mem_singleton, Doc.heading] at hheading
  -- the two lines end differently
  have hends := congrArg (fun text => text.toList.reverse) hheading
  simp at hends

end AmbientDecl

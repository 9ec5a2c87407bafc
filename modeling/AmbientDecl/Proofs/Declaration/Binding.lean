import AmbientDecl.Proofs.Declaration.Sheet

/-!
# Which type parameters are bound

A type parameter that is printed has to be listed: on its own line, or on the header of a class, an
interface or a type around it. What is in scope where it is printed is more than that, since a scope
takes in the type parameters of all ancestors.

**Lines and headers.** `Sheet.occurrences` are the lines of the output, each with what is listed on
the headers around it. `Occurrence.Binds` is what can be seen from a line.

**Symbols.** `Origin.inSight` says the same about the symbol of the line: a class, an interface or a
type sees its own type parameters, a member in a body those of the class, and a function those of
the signature that is printed. Nothing else is bound (`binds_iff_inSight`), in particular no type
parameters of a class in the namespace beside it, none of the variable itself, and none of a
signature of an overloaded callback (`loose_overloadedCallback`).
-/

namespace AmbientDecl

open List

variable {comments : List Doc} {o : Origin} {marks : List Mark}

/-- A line of the output with the type parameters that are listed on the headers around it. -/
structure Occurrence where
  around : List String
  origin : Origin
  marks : List Mark

namespace Occurrence

/-- A name is listed on the line or on a header around it. -/
def Binds (x : Occurrence) (name : String) : Prop := name ∈ listedIn x.marks ∨ name ∈ x.around

instance (x : Occurrence) (name : String) : Decidable (x.Binds name) :=
  inferInstanceAs (Decidable (_ ∨ _))

/-- The type parameters that are printed on the line and are not bound. -/
def loose (x : Occurrence) : List String := (usedIn x.marks).filter fun name => ¬ x.Binds name

end Occurrence

namespace Sheet

mutual

/-- The lines of a sheet, where `around` is listed on the headers around it. -/
def occurrences (around : List String) : Sheet → List Occurrence
  | .plain _ => []
  | .line origin marks => [⟨around, origin, marks⟩]
  | .block origin header body =>
    ⟨around, origin, header⟩ :: allOccurrences (around ++ listedIn header) body

def allOccurrences (around : List String) : List Sheet → List Occurrence
  | [] => []
  | sheet :: rest => occurrences around sheet ++ allOccurrences around rest

end

variable {around : List String}

lemma allOccurrences_eq (sheets : List Sheet) :
    allOccurrences around sheets = sheets.flatMap (occurrences around) := by
  induction sheets with
  | nil => rfl
  | cons sheet rest ih => rw [allOccurrences, ih, flatMap_cons]

lemma mem_append {sheets others : List Sheet} {x : Occurrence} :
    x ∈ allOccurrences around (sheets ++ others) ↔
      x ∈ allOccurrences around sheets ∨ x ∈ allOccurrences around others := by
  simp [allOccurrences_eq]

lemma mem_flatMap {α : Type} {l : List α} {g : α → List Sheet} {x : Occurrence} :
    x ∈ allOccurrences around (l.flatMap g) ↔ ∃ a ∈ l, x ∈ allOccurrences around (g a) := by
  simp only [allOccurrences_eq, flatMap_assoc, List.mem_flatMap]

lemma not_mem_plain {l : List Doc} {x : Occurrence} : x ∉ allOccurrences around (l.map .plain) := by
  simp [allOccurrences_eq, occurrences]

lemma mem_line {x : Occurrence} :
    x ∈ allOccurrences around (comments.map .plain ++ [.line o marks]) ↔
      x = ⟨around, o, marks⟩ := by
  simp [mem_append, not_mem_plain, allOccurrences, occurrences]

lemma mem_block {header : List Mark} {body : List Sheet} {x : Occurrence} :
    x ∈ allOccurrences around (comments.map .plain ++ [.block o header body]) ↔
      x = ⟨around, o, header⟩ ∨ x ∈ allOccurrences (around ++ listedIn header) body := by
  simp [mem_append, not_mem_plain, allOccurrences, occurrences]

end Sheet

/-- The names of the type parameters of a symbol. -/
def SymbolTree.ownTypeParameters (t : SymbolTree) : List String :=
  t.symbol.typeParameters.map TypeParameter.name

/-- The type parameters that a symbol sees wherever it is printed: its own if they are listed behind
its name, those of the class or the interface for a member in its body. -/
def Place.inSight (q : Place) : List String :=
  if q.isInline then (q.ancestors.head?.map SymbolTree.ownTypeParameters).getD []
  else if q.tree.kind = .classDecl ∨ q.tree.kind = .interfaceDecl ∨ q.tree.kind = .typedefDecl then
    q.tree.ownTypeParameters
  else []

/-- The type parameters that are in sight on a line: for a function also those of the signature. -/
def Origin.inSight (o : Origin) : List String :=
  o.place.inSight ++ if o.place.tree.kind = .functionDecl then
    o.signature.toList.flatMap fun s => s.typeParameters.map TypeParameter.name
  else []

/-- A line on which exactly the type parameters in sight of its symbol are bound. -/
structure Occurrence.Fits (f : Forest) (x : Occurrence) : Prop where
  place : x.origin.place ∈ f.places
  used : ∀ name ∈ usedIn x.marks, name ∈ x.origin.scope
  binds : ∀ name ∈ usedIn x.marks, (x.Binds name ↔ name ∈ x.origin.inSight)

section Fits

variable {p : Printer} {f : Forest} {q : Place} {c : SymbolTree} {lead : String} {x : Occurrence}
  {around : List String}

@[simp] lemma scope_none (q : Place) : Origin.scope ⟨q, none⟩ = q.typeParameterNames := by
  simp [Origin.scope]

@[simp] lemma inSight_none (q : Place) : Origin.inSight ⟨q, none⟩ = q.inSight := by
  simp [Origin.inSight]

lemma inSight_inline (h : q.tree.isInlineIn c = true) :
    (q.child c).inSight = q.tree.ownTypeParameters := by
  rw [Place.inSight, if_pos (by simpa using h)]
  rfl

lemma inSight_own (hinline : q.isInline = false) (hkind : q.tree.kind = .classDecl ∨
    q.tree.kind = .interfaceDecl ∨ q.tree.kind = .typedefDecl) :
    q.inSight = q.tree.ownTypeParameters := by
  simp [Place.inSight, hinline, hkind]

lemma inSight_nothing (hinline : q.isInline = false)
    (hkind : q.tree.kind = .functionDecl ∨ q.tree.kind = .memberDecl) : q.inSight = [] := by
  rcases hkind with h | h <;> simp [Place.inSight, hinline, h]

/-- A line without types. -/
lemma fits_words (hq : q ∈ f.places) (text : String) :
    Occurrence.Fits f ⟨around, ⟨q, none⟩, [.words text]⟩ :=
  ⟨hq, by simp [usedIn], by simp [usedIn]⟩

/-- A line on which nothing is listed. -/
lemma fits_unlisted (hq : o.place ∈ f.places) (hmarks : InScope o.scope marks)
    (hsight : o.inSight = around) : Occurrence.Fits f ⟨around, o, marks⟩ where
  place := hq
  used := hmarks.used
  binds := by
    intro name _
    simp [Occurrence.Binds, hmarks.listed, hsight]

/-- A line that lists the type parameters that are not listed around it. -/
lemma fits_listed {params : List TypeParameter} {text : String} (hq : o.place ∈ f.places)
    (hmarks : InScope o.scope marks)
    (hsight : o.inSight = around ++ params.map TypeParameter.name) :
    Occurrence.Fits f ⟨around, o, .words text :: .list params :: marks⟩ where
  place := hq
  used := hmarks.used
  binds := by
    intro name _
    simp [Occurrence.Binds, hmarks.listed, hsight, or_comm]

open Sheet Printer

section

variable (hq : q ∈ f.places)

include hq

lemma fits_signatureSheets {s : Signature} (hkind : q.tree.kind = .functionDecl)
    (hx : x ∈ allOccurrences q.inSight (p.signatureSheets q lead s)) : x.Fits f := by
  obtain rfl := mem_line.mp hx
  refine fits_listed hq ?_ ?_
  · simp [inScope_signatureMarks]
  · simp [Origin.inSight, hkind]

lemma fits_memberSheets {inClass : Bool}
    (hx : x ∈ allOccurrences q.inSight (p.memberSheets inClass q)) : x.Fits f := by
  unfold memberSheets at hx
  by_cases hkind : q.symbol.kind = .functionDecl
  · rw [if_pos hkind] at hx
    obtain ⟨s, _, hx⟩ := mem_flatMap.mp hx
    exact fits_signatureSheets hq hkind hx
  · rw [if_neg hkind] at hx
    obtain rfl := mem_line.mp hx
    exact fits_unlisted hq (by simp [inScope_typeMarks]) (by simp)

/-- The members in a body, where the type parameters of the class are listed on its header. -/
lemma fits_inlineSheets {inClass : Bool}
    (hx : x ∈ allOccurrences q.tree.ownTypeParameters (p.inlineSheets inClass q)) : x.Fits f := by
  obtain ⟨c, hc, hx⟩ := mem_flatMap.mp hx
  obtain ⟨hc, hinline⟩ := mem_filter.mp hc
  rw [← inSight_inline hinline] at hx
  exact fits_memberSheets (mem_placesIn_child hq hc) hx

omit hq in
lemma listedIn_genericMarks (q : Place) (lead : String) :
    listedIn (p.genericMarks q lead) = q.tree.ownTypeParameters := by
  simp [Printer.genericMarks, listedIn, SymbolTree.ownTypeParameters, Place.symbol]

/-- A line with the name of a symbol that sees its own type parameters, and types behind it. -/
lemma fits_genericMarks (hsight : q.inSight = q.tree.ownTypeParameters)
    (hmarks : InScope q.typeParameterNames marks) :
    Occurrence.Fits f ⟨[], ⟨q, none⟩, p.genericMarks q lead ++ marks⟩ :=
  fits_listed hq (by simpa using hmarks) ((inSight_none q).trans hsight)

/-- A block with such a line for its header. -/
lemma fits_genericBlock {body : List Sheet}
    (hsight : q.inSight = q.tree.ownTypeParameters) (hmarks : InScope q.typeParameterNames marks)
    (hbody : ∀ y ∈ allOccurrences q.tree.ownTypeParameters body, y.Fits f)
    (hx : x ∈ allOccurrences []
      (comments.map .plain ++ [.block ⟨q, none⟩ (p.genericMarks q lead ++ marks) body])) :
    x.Fits f := by
  rcases mem_block.mp hx with rfl | hx
  · exact fits_genericMarks hq hsight hmarks
  · rw [nil_append, listedIn_append, listedIn_genericMarks, hmarks.listed, append_nil] at hx
    exact hbody x hx

lemma fits_classSheets (hsight : q.inSight = q.tree.ownTypeParameters)
    (hx : x ∈ allOccurrences [] (p.classSheets q lead)) : x.Fits f := by
  simp only [classSheets, append_assoc (p.genericMarks _ _)] at hx
  refine fits_genericBlock hq hsight ?_ ?_ hx
  · simp [inScope_clauseMarks]
  · intro y hy
    rcases mem_append.mp hy with hy | hy
    · obtain ⟨s, _, hy⟩ := mem_flatMap.mp hy
      obtain rfl := mem_line.mp hy
      exact fits_unlisted hq (by simp [inScope_parameterMarks]) (by simpa using hsight)
    · exact fits_inlineSheets hq hy

lemma fits_interfaceSheets (hsight : q.inSight = q.tree.ownTypeParameters)
    (hx : x ∈ allOccurrences [] (p.interfaceSheets q lead)) : x.Fits f :=
  fits_genericBlock hq hsight (inScope_clauseMarks _ _) (fun _ hy => fits_inlineSheets hq hy) hx

lemma fits_propertySheets {field : RecordField TypeNode}
    (hx : x ∈ allOccurrences q.inSight (p.propertySheets q field)) : x.Fits f := by
  obtain rfl := mem_line.mp hx
  refine fits_unlisted hq ?_ (by simp)
  simp [fieldMarks, inScope_typeMarks]

/-- A signature of an overloaded callback does not list its type parameters. -/
lemma fits_callSheets {s : Signature} (hkind : q.tree.kind = .typedefDecl)
    (hx : x ∈ allOccurrences q.inSight (p.callSheets q s)) : x.Fits f := by
  obtain rfl := mem_line.mp hx
  refine fits_unlisted hq ?_ ?_
  · simp [inScope_signatureMarks]
  · simp [Origin.inSight, hkind]

lemma fits_typedefSheets (hkind : q.tree.kind = .typedefDecl)
    (hsight : q.inSight = q.tree.ownTypeParameters)
    (hx : x ∈ allOccurrences [] (p.typedefSheets q lead)) : x.Fits f := by
  -- a block without types on its header
  have hblock : ∀ {body : List Sheet}, (∀ y ∈ allOccurrences q.inSight body, y.Fits f) →
      x ∈ allOccurrences [] ((p.remarks q.symbol.remarks).map .plain ++
        [.block ⟨q, none⟩ (p.genericMarks q (lead ++ "interface ")) body]) → x.Fits f := by
    intro body hbody hx
    rw [← append_nil (p.genericMarks _ _)] at hx
    exact fits_genericBlock hq hsight inScope_nil (hsight ▸ hbody) hx
  unfold typedefSheets at hx
  cases hsig : q.symbol.signatures with
  | nil =>
    simp only [hsig] at hx
    split at hx
    · refine hblock ?_ hx
      intro y hy
      obtain ⟨field, _, hy⟩ := mem_flatMap.mp hy
      exact fits_propertySheets hq hy
    · obtain rfl := mem_line.mp hx
      rw [append_assoc]
      exact fits_genericMarks hq hsight (by simp [inScope_typeMarks])
  | cons s rest =>
    cases rest with
    | nil =>
      simp only [hsig] at hx
      obtain rfl := mem_line.mp hx
      simp only [append_assoc]
      refine fits_genericMarks hq hsight ?_
      simp [inScope_parameterMarks, inScope_typeMarks]
    | cons second others =>
      simp only [hsig] at hx
      refine hblock ?_ hx
      intro y hy
      obtain ⟨s, _, hy⟩ := mem_flatMap.mp hy
      exact fits_callSheets hq hkind hy

lemma fits_ownSheets (hinline : q.isInline = false)
    (hx : x ∈ allOccurrences [] (p.ownSheets q lead)) : x.Fits f := by
  unfold ownSheets at hx
  cases hkind : q.tree.kind with
  | classDecl =>
    rw [hkind] at hx
    exact fits_classSheets hq (inSight_own hinline (by simp [hkind])) hx
  | interfaceDecl =>
    rw [hkind] at hx
    exact fits_interfaceSheets hq (inSight_own hinline (by simp [hkind])) hx
  | functionDecl =>
    rw [hkind, ← inSight_nothing hinline (by simp [hkind])] at hx
    obtain ⟨s, _, hx⟩ := mem_flatMap.mp hx
    exact fits_signatureSheets hq hkind hx
  | memberDecl =>
    rw [hkind, ← inSight_nothing hinline (by simp [hkind])] at hx
    obtain rfl := mem_line.mp hx
    exact fits_unlisted hq (by simp [inScope_typeMarks]) (by simp)
  | typedefDecl =>
    rw [hkind] at hx
    exact fits_typedefSheets hq hkind (inSight_own hinline (by simp [hkind])) hx
  | enumDecl =>
    rw [hkind] at hx
    exact absurd hx not_mem_plain
  | root | moduleDecl | namespaceDecl => simp [hkind, allOccurrences] at hx

end

/-- Every line fits that is printed for a child of a place, at any depth. -/
lemma fits_sheets (p : Printer) (t : SymbolTree) :
    ∀ {q : Place} {lead : String}, q.child t ∈ f.places →
    ∀ x ∈ allOccurrences [] (p.sheets q lead t), x.Fits f := by
  induction t using SymbolTree.induct with
  | node i s cs ih =>
    intro q lead hq
    -- namespaces and modules list nothing, so nothing is bound where a declaration begins
    have hblock : ∀ (comments : List Doc) {text inner : String},
        ∀ x ∈ allOccurrences [] (comments.map .plain ++ [.block ⟨q.child (.node i s cs), none⟩
          [.words text] (cs.flatMap (p.sheets (q.child (.node i s cs)) inner))]), x.Fits f := by
      intro comments text inner x hx
      rcases mem_block.mp hx with rfl | hx
      · exact fits_words hq text
      · obtain ⟨c, hc, hx⟩ := mem_flatMap.mp hx
        exact ih c hc (mem_placesIn_child hq hc) x hx
    intro x hx
    rw [sheets_eq] at hx
    dsimp only at hx
    split at hx
    · exact hblock _ x hx
    split at hx
    · split at hx
      · simp [allOccurrences] at hx
      · exact hblock [] x hx
    rename_i hinline
    split at hx
    · exact hblock _ x hx
    · rcases mem_append.mp hx with hx | hx
      · exact fits_ownSheets hq (by simpa using hinline) hx
      · split at hx
        · simp [allOccurrences] at hx
        · exact hblock [] x hx

end Fits

section Output

variable {settings : Settings} {f : Forest} {text : String}

/-- The top-level declarations with everything in them, marked. -/
def Printer.topSheets (p : Printer) (f : Forest) : List (List Sheet) :=
  f.root.children.map (p.sheets f.top "declare ")

/-- **A printed type parameter is bound if and only if it is in sight of the symbol.** -/
theorem binds_iff_inSight (htext : (emitDeclarations settings f).result = .ok text) :
    let p := (Emitter.named settings f).printer
    text = layout settings.output.indent ((p.topSheets f).map Sheet.docs) ∧
      ∀ x ∈ Sheet.allOccurrences [] (p.topSheets f).flatten, x.origin.place ∈ f.places ∧
        ∀ name ∈ usedIn x.marks, name ∈ x.origin.scope ∧
          (x.Binds name ↔ name ∈ x.origin.inSight) := by
  intro p
  refine ⟨?_, ?_⟩
  · rw [(result_emitDeclarations htext).2, Printer.topSheets, map_map]
    congr 1
    exact map_congr_left fun c _ => (Printer.docs_sheets p c f.top "declare ").symm
  · intro x hx
    rw [Printer.topSheets, ← flatMap_def] at hx
    obtain ⟨c, hc, hx⟩ := Sheet.mem_flatMap.mp hx
    have hfits := fits_sheets p c (mem_placesIn_child (mem_placesIn_top [] f.root) hc) x hx
    exact ⟨hfits.place, fun name hname => ⟨hfits.used name hname, hfits.binds name hname⟩⟩

/-- A doclet with a `template` tag. -/
def Doclet.templated (d : Doclet) (names : String) : Doclet :=
  { d with tags := [⟨"template", .string names, none⟩] }

/-- A class with a method that has a type parameter of its own, and a type in its namespace. -/
def genericBox : List Doclet :=
  [.templated (.bare "Box" none (.classLike ⟨.classForm, [], [], [], [], none, true, false⟩)) "T",
   .templated (.bare "Box#map" (some "Box")
    (.callable [⟨some "x", some ⟨["T"]⟩, none, false, none, false, .null⟩] [⟨some ⟨["U"]⟩, none⟩]))
      "U",
   .bare "Box.Entry" (some "Box") (.typedef (some ⟨["T"]⟩) [] [])]

/-- In the method both type parameters are bound, in the namespace that of the class is not. -/
theorem binds_genericBox : ∃ f method entry, (symbolForest none genericBox).result = .ok f ∧
      method ∈ Sheet.allOccurrences [] ((Emitter.named .standard f).printer.topSheets f).flatten ∧
      entry ∈ Sheet.allOccurrences [] ((Emitter.named .standard f).printer.topSheets f).flatten ∧
      usedIn method.marks = ["T", "U"] ∧ method.Binds "T" ∧ method.Binds "U" ∧
      usedIn entry.marks = ["T"] ∧ ¬ entry.Binds "T" := by
  have hrun : ((symbolForest none genericBox).result.toOption.bind fun f =>
      (emitDeclarations .standard f).result.toOption.bind fun _ =>
      let lines := Sheet.allOccurrences [] ((Emitter.named .standard f).printer.topSheets f).flatten
      (lines.find? fun x => usedIn x.marks = ["T", "U"]).bind fun method =>
      (lines.find? fun x => usedIn x.marks = ["T"]).map fun entry =>
        (method.origin.inSight, entry.origin.inSight)) = some (["T", "U"], []) := by
    decide +kernel
  obtain ⟨f, hforest, hrun⟩ := Run.toOption_bind.mp hrun
  obtain ⟨text, htext, hrun⟩ := Run.toOption_bind.mp hrun
  obtain ⟨method, hmethod, hrun⟩ := Option.bind_eq_some_iff.mp hrun
  obtain ⟨entry, hentry, hrun⟩ := Option.map_eq_some_iff.mp hrun
  obtain ⟨hmethodSight, hentrySight⟩ := Prod.mk.inj hrun
  have hlines := (binds_iff_inSight htext).2
  have hmethodMem := mem_of_find?_eq_some hmethod
  have hentryMem := mem_of_find?_eq_some hentry
  have hmethodUsed : usedIn method.marks = ["T", "U"] := by simpa using find?_some hmethod
  have hentryUsed : usedIn entry.marks = ["T"] := by simpa using find?_some hentry
  refine ⟨f, method, entry, hforest, hmethodMem, hentryMem, hmethodUsed, ?_, ?_, hentryUsed, ?_⟩
  · refine ((hlines method hmethodMem).2 "T" (by simp [hmethodUsed])).2.mpr ?_
    simp [hmethodSight]
  · refine ((hlines method hmethodMem).2 "U" (by simp [hmethodUsed])).2.mpr ?_
    simp [hmethodSight]
  · intro hbinds
    have hsight := ((hlines entry hentryMem).2 "T" (by simp [hentryUsed])).2.mp hbinds
    simp [hentrySight] at hsight

/-- A callback with two signatures, of which the second has a type parameter. -/
def overloadedCallback : List Doclet :=
  [.bare "Cb" none
    (.typedef none [⟨some "x", some ⟨["string"]⟩, none, false, none, false, .null⟩] []),
   .templated (.bare "Cb" none
    (.typedef none [⟨some "x", some ⟨["U"]⟩, none, false, none, false, .null⟩] [])) "U"]

/-- The declarations of `overloadedCallback`: no list of type parameters is printed. -/
def overloadedCallbackText : String :=
  "declare interface Cb \x7b\n\t(x: string): void;\n\t(x: U): void;\n\x7d\n"

theorem loose_overloadedCallback :
    ∃ settings f line, (symbolForest none overloadedCallback).result = .ok f ∧
      (emitDeclarations settings f).result = .ok overloadedCallbackText ∧
      line ∈ Sheet.allOccurrences [] ((Emitter.named settings f).printer.topSheets f).flatten ∧
      textOf line.marks = "(x: U): void;" ∧ "U" ∈ line.origin.scope ∧ line.loose = ["U"] := by
  let settings := { Settings.standard with output := ⟨"", "\t", false⟩ }
  have hrun : ((symbolForest none overloadedCallback).result.toOption.bind fun f =>
      (emitDeclarations settings f).result.toOption.bind fun text =>
      let lines := Sheet.allOccurrences [] ((Emitter.named settings f).printer.topSheets f).flatten
      (lines.find? fun x => textOf x.marks = "(x: U): void;").map fun line =>
        (text, decide ("U" ∈ line.origin.scope), line.loose)) =
        some (overloadedCallbackText, true, ["U"]) := by
    decide +kernel
  obtain ⟨f, hforest, hrun⟩ := Run.toOption_bind.mp hrun
  obtain ⟨text, htext, hrun⟩ := Run.toOption_bind.mp hrun
  obtain ⟨line, hline, hrun⟩ := Option.map_eq_some_iff.mp hrun
  simp only [Prod.mk.injEq, decide_eq_true_eq] at hrun
  obtain ⟨rfl, hscope, hloose⟩ := hrun
  exact ⟨settings, f, line, hforest, htext,
    mem_of_find?_eq_some hline, by simpa using find?_some hline, hscope, hloose⟩

end Output

end AmbientDecl

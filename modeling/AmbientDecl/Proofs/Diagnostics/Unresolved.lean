import AmbientDecl.Proofs.Declaration.Rescoping
import AmbientDecl.Proofs.Diagnostics.Compile
import AmbientDecl.Proofs.TypeExpr.Height

/-!
# Type names without an answer

A type can refer to a name that resolves to nothing at the place where the type is printed.

**Types.** `TypeNode.Meets` is how printing goes through a type, part by part. The names that are
open in a type are those it comes to (`mem_unresolvedNames`), and any type is printed for each of
them (`typeText_of_reference?`).

**Reports.** The findings of an emission are those at all places of the forest
(`mem_findings_topLevel`). Of the findings about one name only the first is reported
(`exists_reports`), so the reports of an emission have distinct names (`reports_emitDeclarations`).
-/

namespace AmbientDecl

open List Printer

namespace TypeNode

/-- The parts of a type that are printed: of a constructor there is no result. -/
def printedParts : TypeNode → List TypeNode
  | .function params returns thisType constructs =>
    params.map FunctionParam.type ++ (thisType.toList ++ (constructs.or returns).toList)
  | t => t.parts

/-- The name that a type refers to; an object with keys and values refers to none. -/
def reference? : TypeNode → Option String
  | .named name => some name
  | .generic base args => if isDictionary base args then none else some base
  | _ => none

/-- Printing a type comes to a type in it. -/
def Meets : TypeNode → TypeNode → Prop := Relation.ReflTransGen fun t s => s ∈ t.printedParts

variable {t s : TypeNode}

lemma height_of_mem_printedParts (h : s ∈ t.printedParts) : s.height < t.height := by
  have hparts : s ∈ t.parts := by
    cases t with
    | function params returns thisType constructs =>
      cases constructs <;> simp_all [printedParts, parts] <;> grind
    | _ => exact h
  have hle : t.height ≤ t.height - 1 + 1 := by omega
  have hs := height_le_iff.mp hle s hparts
  have hpos := height_pos t
  omega

end TypeNode

section Types

open TypeNode

variable {scope : TypeScope} {name : String} {t : TypeNode}

lemma unresolvedInAll_eq (l : List TypeNode) :
    unresolvedInAll scope l = l.flatMap (unresolvedNames scope) := by
  induction l with
  | nil => rfl
  | cons t rest ih => rw [unresolvedInAll, ih, flatMap_cons]

lemma unresolvedInOption_eq (o : Option TypeNode) :
    unresolvedInOption scope o = o.toList.flatMap (unresolvedNames scope) := by
  cases o <;> simp [unresolvedInOption]

lemma unresolvedInParams_eq (l : List (FunctionParam TypeNode)) :
    unresolvedInParams scope l = (l.map FunctionParam.type).flatMap (unresolvedNames scope) := by
  induction l with
  | nil => rfl
  | cons t rest ih => rw [unresolvedInParams, ih, map_cons, flatMap_cons]

lemma unresolvedInFields_eq (l : List (RecordField TypeNode)) :
    unresolvedInFields scope l = (l.map RecordField.type).flatMap (unresolvedNames scope) := by
  induction l with
  | nil => rfl
  | cons t rest ih => rw [unresolvedInFields, ih, map_cons, flatMap_cons]

/-- A name is open in a type if the type itself refers to it or if it is open in a part. -/
lemma mem_unresolvedNames_iff : name ∈ unresolvedNames scope t ↔
    (t.reference? = some name ∧ scope.resolve name = none) ∨
      ∃ s ∈ t.printedParts, name ∈ unresolvedNames scope s := by
  have hname : ∀ other, name ∈ scope.unresolved other ↔
      other = name ∧ scope.resolve name = none := by
    intro other
    cases hother : scope.resolve other <;> simp [TypeScope.unresolved, hother, eq_comm]
    · rintro rfl
      exact hother.symm
    · rintro rfl
      simp [hother]
  cases t with
  | named other => simp [unresolvedNames, hname, reference?, printedParts, parts]
  | generic base args =>
    rw [unresolvedNames, unresolvedInAll_eq]
    cases hdict : isDictionary base args <;>
      simp [hname, hdict, reference?, printedParts, parts, or_comm]
  | function params returns thisType constructs =>
    rw [unresolvedNames, unresolvedInParams_eq, unresolvedInOption_eq, unresolvedInOption_eq,
      unresolvedInOption_eq]
    cases constructs <;> simp [reference?, printedParts, or_and_right, exists_or]
  | array element => simp [unresolvedNames, reference?, printedParts, parts]
  | union members => simp [unresolvedNames, unresolvedInAll_eq, reference?, printedParts, parts]
  | record fields => simp [unresolvedNames, unresolvedInFields_eq, reference?, printedParts, parts]
  | literal | unreadable => simp [unresolvedNames, reference?, printedParts, parts]

/-- **The names that are open in a type are those that printing it comes to.** -/
lemma mem_unresolvedNames : name ∈ unresolvedNames scope t ↔
    ∃ s, t.Meets s ∧ s.reference? = some name ∧ scope.resolve name = none := by
  constructor
  · induction hn : t.height using Nat.strong_induction_on generalizing t with
    | _ n ih =>
      intro h
      rcases mem_unresolvedNames_iff.mp h with h | ⟨s, hs, h⟩
      · exact ⟨t, .refl, h⟩
      · obtain ⟨u, hu, h⟩ := ih s.height (hn ▸ height_of_mem_printedParts hs) rfl h
        exact ⟨u, .head hs hu, h⟩
  · rintro ⟨s, hmeets, h⟩
    induction hmeets using Relation.ReflTransGen.head_induction_on with
    | refl => exact mem_unresolvedNames_iff.mpr (.inl h)
    | head hstep _ ih => exact mem_unresolvedNames_iff.mpr (.inr ⟨_, hstep, ih⟩)

/-- A type that refers to a name without an answer is printed as any type. -/
lemma typeText_of_reference? (h : t.reference? = some name) (hnone : scope.resolve name = none)
    (hany : scope.fallback name = "any") : typeText scope t = "any" := by
  cases t with
  | named other =>
    obtain rfl := Option.some.inj h
    simp [typeText, shownType, ShownType.single, TypeScope.nameText, hnone, hany]
  | generic base args =>
    simp only [reference?, Option.ite_none_left_eq_some, Option.some.injEq] at h
    obtain ⟨hdict, rfl⟩ := h
    have hgeneric : ∀ texts, genericText scope base texts = "any" := fun texts => by
      simp [genericText, hnone, hany]
    rw [typeText, shownType, ShownType.single, shownTexts_eq]
    unfold appliedText
    split
    · rename_i key value htexts
      have hlength : args.length = 2 := by simpa using congrArg List.length htexts
      rw [if_neg (by simpa [isDictionary, hlength] using hdict), hgeneric]
    · exact hgeneric _
  | _ => simp [reference?] at h

end Types

/-- **A name is reported once, and only the names that are found are.** -/
lemma exists_reports {findings : List Finding}
    (h : ∀ d, .diagnostic d ∈ findings → d.kind ≠ .unresolvedType) : ∀ reported : List String,
    ∃ reports : List (String × Symbol),
      Diagnostic.ofKind .unresolvedType (reportFindings reported findings) =
        reports.map (fun r => unresolvedTypeDiagnostic r.1 r.2) ∧ (reports.map Prod.fst).Nodup ∧
      ∀ name, name ∈ reports.map Prod.fst ↔
        name ∉ reported ∧ ∃ owner, .unresolvedType name owner ∈ findings := by
  induction findings with
  | nil => intro reported; exact ⟨[], by simp [reportFindings]⟩
  | cons finding rest ih =>
    replace ih := ih fun d hd => h d (mem_cons_of_mem _ hd)
    intro reported
    cases finding with
    | diagnostic d =>
      obtain ⟨reports, hreports, hnodup, hnames⟩ := ih reported
      have hd : d.kind ≠ .unresolvedType := h d mem_cons_self
      exact ⟨reports, by simp [reportFindings, hd, hreports], hnodup, by simpa using hnames⟩
    | unresolvedType name owner =>
      by_cases hold : name ∈ reported
      · obtain ⟨reports, hreports, hnodup, hnames⟩ := ih reported
        refine ⟨reports, by simp [reportFindings, hold, hreports], hnodup, fun other => ?_⟩
        rw [hnames]
        refine and_congr_right fun hother => ?_
        have hne : other ≠ name := fun heq => hother (heq ▸ hold)
        simp [hne]
      · obtain ⟨reports, hreports, hnodup, hnames⟩ := ih (name :: reported)
        refine ⟨(name, owner) :: reports, ?_, ?_, fun other => ?_⟩
        · simp [reportFindings, hold, hreports, unresolvedTypeDiagnostic]
        · simp [hnodup, hnames]
        · by_cases hne : other = name
          · subst hne
            simp [hold]
          · simp [hnames, hne]

lemma kind_of_mem_found {p : Printer} {q : Place} {d : Diagnostic} (h : .diagnostic d ∈ p.found q) :
    d.kind ≠ .unresolvedType := by
  rcases mem_append.mp h with h | h
  · cases (isNote_of_mem_notes h).1 <;> simp [Symbol.diagnostic]
  · simp [showType] at h

lemma unresolvedType_mem_found {p : Printer} {q : Place} {name : String} :
    (∃ owner, .unresolvedType name owner ∈ p.found q) ↔ p.directory.policy = .any ∧
      ∃ x ∈ q.formatted, ∃ s, x.2.Meets s ∧ s.reference? = some name ∧
        p.directory.resolve q x.1 name = none := by
  have hnotes : ∀ owner, .unresolvedType name owner ∉ p.notes q := fun owner h =>
    nomatch (isNote_of_mem_notes h).1
  by_cases hpolicy : p.directory.policy = .any
  · simp [found, hnotes, showType, hpolicy, mem_unresolvedNames, Directory.scope]
  · simp [found, hnotes, showType, hpolicy]

section Emission

variable {settings : Settings} {f : Forest}

/-- The findings of an emission are those at all places. -/
lemma mem_findings_topLevel (htop : f.root.kind = .root) {finding : Finding} :
    finding ∈ (Emitter.named settings f).topLevel.findings ↔
      ∃ q ∈ f.places, finding ∈ (Emitter.named settings f).printer.found q := by
  have hroot : (Emitter.named settings f).printer.found f.top = [] := by
    have : f.top.symbol.kind = .root := htop
    simp [found, notes, Place.formatted, this]
  have hinline : ∀ c, f.top.tree.isInlineIn c = false := fun c =>
    SymbolTree.isInlineIn_eq_false (by simp [Forest.top, htop]) (by simp [Forest.top, htop])
  have hchild := fun c => (Emitter.named settings f).printer.mem_findings_declaration
    (f := finding) c f.top "declare "
  simp only [hinline, Bool.false_eq_true, false_and, or_false] at hchild
  rw [Emitter.topLevel, Noted.findings_mapM, mem_flatMap, Forest.places, placesIn_eq]
  change _ ↔ ∃ q ∈ f.top :: _, _
  simp only [exists_mem_cons_iff, hroot, not_mem_nil, false_or, mem_flatMap]
  constructor
  · rintro ⟨c, hc, h⟩
    obtain ⟨q, hq, h⟩ := (hchild c).mp h
    exact ⟨q, ⟨c, hc, hq⟩, h⟩
  · rintro ⟨q, ⟨c, hc, hq⟩, h⟩
    exact ⟨c, hc, (hchild c).mpr ⟨q, hq, h⟩⟩

/-- Neither the check before an emission nor the choice of names is about type names. -/
lemma filter_check_eq_nil :
    Diagnostic.ofKind .unresolvedType (Emitter.check f).diagnostics = [] := by
  unfold Emitter.check
  split
  · simp [Run.report, Run.diagnostics, diagnosticsOf, Entry.diagnostic?, Symbol.diagnostic]
  · split <;> rfl

lemma filter_nameChoices_eq_nil (l : List NameChoice) :
    Diagnostic.ofKind .unresolvedType (diagnosticsOf (l.filterMap NameChoice.entry?)) = [] := by
  rw [filter_eq_nil_iff]
  intro d hd
  obtain ⟨choice, -, kind, message, rfl | rfl, rfl⟩ :=
    mem_diagnosticsOf_entry? hd <;> simp [Symbol.diagnostic]

/-- An emission that fails has failed before it printed anything. -/
lemma filter_emitDeclarations :
    Diagnostic.ofKind .unresolvedType (emitDeclarations settings f).diagnostics =
      if (Emitter.check f).result = .ok () then
        Diagnostic.ofKind .unresolvedType
          (reportFindings [] (Emitter.named settings f).topLevel.findings)
      else [] := by
  have happend : ∀ a b, Diagnostic.ofKind .unresolvedType (a ++ b) =
      Diagnostic.ofKind .unresolvedType a ++ Diagnostic.ofKind .unresolvedType b :=
    fun a b => filter_append a b
  rw [emitDeclarations_eq]
  cases hresult : (Emitter.check f).result with
  | error e => rw [Run.diagnostics_bind_error hresult, filter_check_eq_nil, if_neg (by simp)]
  | ok _ =>
    rw [Run.diagnostics_bind hresult, happend, filter_check_eq_nil, if_pos rfl]
    have hnames := filter_nameChoices_eq_nil (allNameChoices f.root)
    rw [Run.diagnostics_bind rfl, Run.diagnostics_bind rfl, happend, happend]
    simp only [Run.diagnostics, Run.noteAll, hnames, diagnosticsOf_map_diagnostic]
    simp [Run.reach, Run.note, diagnosticsOf, Entry.diagnostic?]

lemma result_emitDeclarations_iff : (∃ text, (emitDeclarations settings f).result = .ok text) ↔
    (Emitter.check f).result = .ok () := by
  constructor
  · rintro ⟨text, h⟩
    exact (result_emitDeclarations h).1
  · intro h
    rw [emitDeclarations_eq]
    exact ⟨layout settings.output.indent (Emitter.named settings f).topLevel.value,
      Run.result_bind.mpr ⟨(), h, by simp⟩⟩

/-- **Type names without an answer are reported once.** Those are reported that printing comes to in
a type at some place, if the settings say so; where they stand, any type is printed. -/
theorem reports_emitDeclarations (settings : Settings) (f : Forest) (htop : f.root.kind = .root) :
    let dir := (Emitter.named settings f).printer.directory
    ∃ reports : List (String × Symbol),
      Diagnostic.ofKind .unresolvedType (emitDeclarations settings f).diagnostics =
        reports.map (fun r => unresolvedTypeDiagnostic r.1 r.2) ∧ (reports.map Prod.fst).Nodup ∧
      (∀ name, name ∈ reports.map Prod.fst ↔ settings.unresolvedTypes = .any ∧
        (∃ text, (emitDeclarations settings f).result = .ok text) ∧
        ∃ q ∈ f.places, ∃ x ∈ q.formatted, ∃ s, x.2.Meets s ∧ s.reference? = some name ∧
          dir.resolve q x.1 name = none) ∧
      ∀ q params s name, settings.unresolvedTypes = .any → s.reference? = some name →
        dir.resolve q params name = none → typeText (dir.scope q params) s = "any" := by
  intro dir
  have hpolicy : dir.policy = settings.unresolvedTypes := rfl
  have hany : ∀ q params s name, settings.unresolvedTypes = .any → s.reference? = some name →
      dir.resolve q params name = none → typeText (dir.scope q params) s = "any" := by
    intro q params s name hany hs hnone
    refine typeText_of_reference? hs hnone ?_
    simp [Directory.scope, hpolicy, hany]
  have hkinds : ∀ d, .diagnostic d ∈ (Emitter.named settings f).topLevel.findings →
      d.kind ≠ .unresolvedType := by
    intro d hd
    obtain ⟨q, -, h⟩ := (mem_findings_topLevel htop).mp hd
    exact kind_of_mem_found h
  rw [filter_emitDeclarations]
  by_cases hcheck : (Emitter.check f).result = .ok ()
  · obtain ⟨reports, hreports, hnodup, hnames⟩ := exists_reports hkinds []
    refine ⟨reports, by rw [if_pos hcheck, hreports], hnodup, fun name => ?_, hany⟩
    rw [hnames, result_emitDeclarations_iff]
    simp only [mem_findings_topLevel htop, not_mem_nil, not_false_eq_true, true_and, hcheck]
    rw [exists_comm]
    simp only [exists_and_left, unresolvedType_mem_found, and_left_comm]
    rfl
  · refine ⟨[], by rw [if_neg hcheck]; rfl, nodup_nil, fun name => ?_, hany⟩
    simp [result_emitDeclarations_iff, hcheck]

/-- Two variables with types that nothing is known about. -/
def strangers : Forest where
  root := .node 0 .root
    [.node 1 { Symbol.bare .memberDecl "first" "first"
      with type := some (.generic "Stranger" [.string]) } [],
     .node 2 { Symbol.bare .memberDecl "second" "second"
       with type := some (.array (.named "Stranger")) } []]
  index := [("first", 1), ("second", 2)]
  nextId := 3
  strays := []

/-- The name of the strange types is reported once. -/
theorem reports_strangers : strangers.root.kind = .root ∧ ∃ reports : List (String × Symbol),
    Diagnostic.ofKind .unresolvedType (emitDeclarations .standard strangers).diagnostics =
      reports.map (fun r => unresolvedTypeDiagnostic r.1 r.2) ∧ (reports.map Prod.fst).Nodup ∧
    "Stranger" ∈ reports.map Prod.fst := by
  obtain ⟨reports, hreports, hnodup, hnames, -⟩ := reports_emitDeclarations .standard strangers rfl
  refine ⟨rfl, reports, hreports, hnodup, (hnames _).mpr ⟨rfl, ?_, ?_⟩⟩
  · exact result_emitDeclarations_iff.mpr rfl
  · have hplace : strangers.top.child _ ∈ strangers.places := .tail _ (.head _)
    exact ⟨_, hplace, _, .head _, _, .refl, rfl, by decide +kernel⟩

end Emission

end AmbientDecl

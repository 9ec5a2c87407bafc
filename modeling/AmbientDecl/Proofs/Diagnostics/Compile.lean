import AmbientDecl.Proofs.Declaration.Findings
import AmbientDecl.Proofs.Diagnostics.Stages

/-!
# The diagnostics of a compilation

The printer collects findings, and the emission makes diagnostics of them. All of them are
recoverable and about the symbol that is being printed (`passing_found`). Only supertypes are
reported about a doclet, and symbols with supertypes have one.

`orderly_emitDeclarations` adds the check before the emission and the choice of names.

A compilation that succeeds reports only what can be worked around. One that ends with a fatal
diagnostic reports nothing behind it and nothing fatal before it. And whatever is reported after the
records have been loaded is about a symbol that can be found in the index when the run ends.

* `indexAtEnd` are the longnames that the index knows when a run ends, wherever that is.
* `orderly_symbolForest` and `orderly_compileAccepted` put the stages together.
* `diagnostics_compileRecords` is the statement for a whole compilation.
-/

namespace AmbientDecl

open List

/-- The diagnostic that a finding becomes. -/
def Finding.told : Finding → Diagnostic
  | .unresolvedType name owner => unresolvedTypeDiagnostic name owner
  | .diagnostic d => d

lemma mem_reportFindings {d : Diagnostic} : ∀ {findings : List Finding} {reported : List String},
    d ∈ reportFindings reported findings → ∃ finding ∈ findings, finding.told = d := by
  intro findings
  induction findings with
  | nil =>
    intro reported h
    simp [reportFindings] at h
  | cons finding rest ih =>
    intro reported h
    have hrest : ∀ {reported}, d ∈ reportFindings reported rest →
        ∃ f ∈ finding :: rest, f.told = d := by
      intro reported h
      obtain ⟨f, hf, heq⟩ := ih h
      exact ⟨f, mem_cons_of_mem _ hf, heq⟩
    cases finding with
    | diagnostic d' =>
      rcases mem_cons.mp h with rfl | h
      · exact ⟨_, mem_cons_self, rfl⟩
      · exact hrest h
    | unresolvedType name owner =>
      unfold reportFindings at h
      split at h
      · exact hrest h
      · rcases mem_cons.mp h with rfl | h
        · exact ⟨_, mem_cons_self, rfl⟩
        · exact hrest h

namespace Printer

variable {keys : List String} {p : Printer} {here : Place} {finding : Finding}

lemma passing_unresolvedType {s : Symbol} (hs : s.Known keys) (name : String) :
    (unresolvedTypeDiagnostic name s).Passing keys := by
  refine ⟨⟨s.longname, hs.key, ?_⟩, rfl⟩
  by_cases hempty : s.longname = ""
  · -- only a symbol with doclets can have no longname, and then theirs is the same
    have hdoclets : s.doclets ≠ [] := fun h => (hs.attested.bare h).1 hempty
    obtain ⟨d, rest, hd⟩ := exists_cons_of_ne_nil hdoclets
    have hown := hs.attested.own d (by simp [hd])
    simp [unresolvedTypeDiagnostic, nonempty?, hempty, Symbol.doclet?, hd, hown, Option.filter]
  · simp [unresolvedTypeDiagnostic, nonempty?, hempty]

/-- **All that is found at a place can be worked around and is about the symbol there.** A symbol
with supertypes has a doclet: those that are made up are namespaces and typedefs. -/
lemma passing_found (hs : here.symbol.Known keys) (h : finding ∈ p.found here) :
    finding.told.Passing keys := by
  rcases mem_append.mp h with h | h
  · obtain ⟨hnote, hkind⟩ := isNote_of_mem_notes h
    cases hnote with
    | unreadable message =>
      have hdoclets : here.symbol.doclets ≠ [] := by
        intro hnil
        rcases (hs.attested.bare hnil).2 with h | h <;> simp [h] at hkind
      obtain ⟨d, rest, hd⟩ := exists_cons_of_ne_nil hdoclets
      have hown := hs.attested.own d (by simp [hd])
      refine ⟨⟨here.symbol.longname, hs.key, ?_⟩, rfl⟩
      simp [Finding.told, Symbol.doclet?, hd, hown]
    | unresolved | several => exact ⟨hs.diagnostic _ _, rfl⟩
  · obtain ⟨x, -, h⟩ := mem_flatMap.mp h
    simp only [showType] at h
    split at h
    · obtain ⟨name, -, rfl⟩ := mem_map.mp h
      exact passing_unresolvedType hs name
    · simp at h

end Printer

section Emission

open Run

variable {keys : List String} {f : Forest}

lemma orderly_check (hf : ∀ t ∈ f.nodes, t.symbol.Known keys) :
    Orderly (Diagnostic.Names keys) (fun _ => False) (Emitter.check f) := by
  unfold Emitter.check
  split
  · rename_i t ht
    exact orderly_report ((hf t (mem_of_find?_eq_some ht)).diagnostic _ _)
  · split
    · rename_i hroot
      obtain ⟨t, ht, hkind⟩ := any_eq_true.mp hroot
      exact absurd (of_decide_eq_true hkind) (hf t ht).attested.below
    · exact orderly_pure _

lemma symbol_nameChoices {parent : SymbolTree} : ∀ {ts : List SymbolTree} {taken : List String}
    {choice : NameChoice}, choice ∈ nameChoices parent taken ts →
      ∃ t ∈ ts, choice.symbol = t.symbol := by
  intro ts
  induction ts with
  | nil =>
    intro taken choice h
    simp [nameChoices] at h
  | cons t rest ih =>
    intro taken choice h
    rcases mem_cons.mp h with rfl | h
    · refine ⟨t, mem_cons_self, ?_⟩
      unfold nameChoice
      split <;> rfl
    · obtain ⟨u, hu, heq⟩ := ih h
      exact ⟨u, mem_cons_of_mem _ hu, heq⟩

lemma mem_diagnosticsOf_entry? {l : List NameChoice} {d : Diagnostic}
    (h : d ∈ diagnosticsOf (l.filterMap NameChoice.entry?)) :
    ∃ choice ∈ l, ∃ kind message, (kind = .reservedName ∨ kind = .nameCollision) ∧
      d = choice.symbol.diagnostic kind message := by
  simp only [diagnosticsOf, mem_filterMap] at h
  obtain ⟨entry, ⟨choice, hchoice, hentry⟩, hd⟩ := h
  refine ⟨choice, hchoice, ?_⟩
  unfold NameChoice.entry? at hentry
  split at hentry <;> cases hentry <;> cases hd
  · exact ⟨_, _, .inl rfl, rfl⟩
  · exact ⟨_, _, .inr rfl, rfl⟩

lemma passing_nameChoices (hf : ∀ t ∈ f.nodes, t.symbol.Known keys) :
    ∀ d ∈ diagnosticsOf ((allNameChoices f.root).filterMap NameChoice.entry?), d.Passing keys := by
  intro d hd
  obtain ⟨choice, hchoice, kind, message, hkind, rfl⟩ := mem_diagnosticsOf_entry? hd
  obtain ⟨t, ht, hchoice⟩ := mem_flatMap.mp hchoice
  obtain ⟨c, hc, hsymbol⟩ := symbol_nameChoices hchoice
  have hknown : choice.symbol.Known keys := by
    rw [hsymbol]
    exact hf c (SymbolTree.mem_nodes_iff.mpr ⟨t, ht, mem_of_mem_filter hc⟩)
  rcases hkind with rfl | rfl <;> exact ⟨hknown.diagnostic _ _, rfl⟩

lemma passing_topLevel (settings : Settings) (hf : ∀ t ∈ f.nodes, t.symbol.Known keys) :
    ∀ d ∈ reportFindings [] (Emitter.named settings f).topLevel.findings, d.Passing keys := by
  intro d hd
  obtain ⟨finding, hfinding, rfl⟩ := mem_reportFindings hd
  rw [Emitter.topLevel, Noted.findings_mapM] at hfinding
  obtain ⟨t, ht, hfinding⟩ := mem_flatMap.mp hfinding
  obtain ⟨q, hq, hfound⟩ := (Printer.mem_findings_declaration t _ _).mp (Or.inl hfinding)
  refine Printer.passing_found (hf q.tree ?_) hfound
  rw [Forest.nodes, SymbolTree.nodes_eq]
  exact mem_flatMap.mpr ⟨t, ht, tree_mem_walk hq⟩

lemma diagnosticsOf_map_diagnostic (tasks : List Task) (ds : List Diagnostic) :
    diagnosticsOf (tasks.map Entry.task ++ ds.map Entry.diagnostic) = ds := by
  simp [diagnosticsOf, filterMap_map, Function.comp_def, Entry.diagnostic?]

/-- **An emission reports about symbols of the forest.** -/
lemma orderly_emitDeclarations (settings : Settings) (hf : ∀ t ∈ f.nodes, t.symbol.Known keys) :
    Orderly (Diagnostic.Names keys) (fun _ => False) (emitDeclarations settings f) := by
  rw [emitDeclarations_eq]
  refine (orderly_check hf).bind fun _ _ => ?_
  refine (orderly_noteAll fun d hd => ?_).bind fun _ _ => ?_
  · have hpassing := passing_nameChoices hf d hd
    exact ⟨hpassing.names, hpassing.recoverable⟩
  · refine (orderly_noteAll fun d hd => ?_).bind fun _ _ => ?_
    · rw [diagnosticsOf_map_diagnostic] at hd
      have hpassing := passing_topLevel settings hf d hd
      exact ⟨hpassing.names, hpassing.recoverable⟩
    · exact (orderly_reach _).andPure

end Emission

open Run

/-- The longnames that the index knows when a run ends: those of the finished forest, else those of
the forest that was built, else those of the symbols that the census has entered. -/
def indexAtEnd (filter : Option DocletFilter) (doclets : List Doclet) : List String :=
  match (symbolForest filter doclets).result with
  | .ok f => f.index.map Prod.fst
  | .error _ =>
    match (buildForest filter doclets).result with
    | .ok f => f.index.map Prod.fst
    | .error _ => (Census.reached filter .empty doclets).symbols.map Symbol.longname

variable {filter : Option DocletFilter} {doclets : List Doclet} {built merged f g : Forest}

namespace Forest

lemma mem_index {longname : String} :
    longname ∈ f.index.map Prod.fst ↔ ∃ id, f.idOf? longname = some id := by
  constructor
  · intro h
    obtain ⟨e, he, rfl⟩ := List.mem_map.mp h
    cases hlookup : f.idOf? e.1 with
    | some id => exact ⟨id, rfl⟩
    | none => simpa using List.lookup_eq_none_iff.mp hlookup e he
  · rintro ⟨id, hid⟩
    obtain ⟨front, back, heq, _⟩ := List.lookup_eq_some_iff.mp hid
    simp [heq]

/-- What the index of a forest knows that of a later one knows too. -/
lemma Extends.keys (h : Extends f g) : f.index.map Prod.fst ⊆ g.index.map Prod.fst := by
  intro longname hmem
  obtain ⟨id, hid⟩ := mem_index.mp hmem
  exact mem_index.mpr ⟨id, h.index longname id hid⟩

lemma Consistent.key (hf : f.Consistent) {t : SymbolTree} (ht : t ∈ f.nodes) :
    t.longname ∈ f.index.map Prod.fst :=
  mem_index.mpr ⟨t.id, hf.indexed t ht⟩

end Forest

/-- The index of the forest that is built knows the whole census. -/
lemma longnames_census (h : (buildForest filter doclets).result = .ok built) :
    (Census.reached filter .empty doclets).symbols.map Symbol.longname ⊆
      built.index.map Prod.fst := by
  obtain ⟨c, hc, _, rfl⟩ := result_buildForest.mp h
  have hgrows := (Census.tidy_planting (Census.nodup_ofDoclets hc)).2
  have hkeys : c.planting.forest.index.map Prod.fst = c.planting.longnames := by
    calc c.planting.forest.index.map Prod.fst
        = (c.planting.symbols.zipIdx.map Prod.fst).map Symbol.longname := by
          simp only [Planting.forest, Planting.index, List.map_map]
          rfl
      _ = c.planting.longnames := by
          rw [List.zipIdx_map_fst, Planting.longnames]
  rw [Census.reached_of_addAll hc, hkeys]
  exact hgrows.longnames.subset

/-- A forest that was built and everything after it. -/
lemma subset_indexAtEnd (h : (buildForest filter doclets).result = .ok built) :
    built.index.map Prod.fst ⊆ indexAtEnd filter doclets := by
  unfold indexAtEnd
  split
  · rename_i f hf
    obtain ⟨b, hb, merged, hmerged, hexpanded⟩ := result_symbolForest.mp hf
    obtain rfl : built = b := by simpa [h] using hb
    have hconsistent := consistent_mergeOverloads (consistent_buildForest h) hmerged
    exact List.Subset.trans (extends_mergeOverloads hmerged).keys
      (extends_expandForest hconsistent.root_symbol hexpanded).keys
  · rw [h]
    exact List.Subset.refl _

lemma reached_subset_indexAtEnd (filter : Option DocletFilter) (doclets : List Doclet) :
    (Census.reached filter .empty doclets).symbols.map Symbol.longname ⊆
      indexAtEnd filter doclets := by
  cases h : (buildForest filter doclets).result with
  | ok built => exact List.Subset.trans (longnames_census h) (subset_indexAtEnd h)
  | error e =>
    have hforest : (symbolForest filter doclets).result = .error e := result_bind_error h _
    rw [indexAtEnd, hforest, h]
    exact List.Subset.refl _

lemma indexAtEnd_of_symbolForest (h : (symbolForest filter doclets).result = .ok f) :
    indexAtEnd filter doclets = f.index.map Prod.fst := by
  rw [indexAtEnd, h]

/-- **The way to the finished forest is orderly**, and only the census fails without a report. -/
lemma orderly_symbolForest (filter : Option DocletFilter) (doclets : List Doclet) :
    Orderly (Diagnostic.Names (indexAtEnd filter doclets))
      (fun _ => Census.MeetsBlock filter .empty doclets) (symbolForest filter doclets) := by
  refine (orderly_buildForest (reached_subset_indexAtEnd filter doclets)).bind
    fun built hbuilt => ?_
  have hconsistent := consistent_buildForest hbuilt
  have hsymbols := built_of_buildForest hbuilt
  have hkeys := subset_indexAtEnd hbuilt
  refine (orderly_mergeOverloads fun t ht => ?_).bind fun merged hmerged => ?_
  · exact Symbol.Known.reportable ⟨(hsymbols t ht).attested, hkeys (hconsistent.key ht)⟩
  have hconsistent' := consistent_mergeOverloads hconsistent hmerged
  obtain ⟨g, hg⟩ := exists_expandForest merged
  have hforest : (symbolForest filter doclets).result = .ok g :=
    result_symbolForest.mpr ⟨built, hbuilt, merged, hmerged, hg⟩
  refine orderly_expandForest hconsistent'.root_symbol fun t ht d hd message => ?_
  have hknown : t.symbol.Known (indexAtEnd filter doclets) := by
    refine ⟨(merged_of_mergeOverloads hsymbols hmerged t ht).attested, ?_⟩
    rw [indexAtEnd_of_symbolForest hforest]
    exact (extends_expandForest hconsistent'.root_symbol hg).keys (hconsistent'.key ht)
  exact hknown.about hd _ message

lemma orderly_emit (settings : Settings) (h : (symbolForest filter doclets).result = .ok f) :
    Orderly (Diagnostic.Names (indexAtEnd filter doclets)) (fun _ => False)
      (emitDeclarations settings f) := by
  refine orderly_emitDeclarations settings fun t ht => ?_
  refine ⟨(finished_of_symbolForest h t ht).attested, ?_⟩
  rw [indexAtEnd_of_symbolForest h]
  exact (consistent_symbolForest h).key ht

/-- What a compilation does with doclets that it has loaded, and the counts for its last note. -/
def compileAccepted (settings : Settings) (comparator : Option VersionComparator)
    (doclets : List Doclet) : Run (String × Nat × Nat) := do
  let filter ← filterFor settings comparator
  let forest ← symbolForest (some filter) doclets
  let text ← emitDeclarations settings forest
  return (text, doclets.length, forest.index.length)

section Compilation

variable {settings : Settings} {comparator : Option VersionComparator}

/-- The last note of a compilation is no diagnostic. -/
lemma compileLoaded_eq (settings : Settings) (comparator : Option VersionComparator)
    (loaded : Run (List Doclet)) : ∃ last : String × Nat × Nat → Run String,
      (∀ r, (last r).diagnostics = [] ∧ (last r).result = .ok r.1) ∧
        compileLoaded settings comparator loaded =
          loaded >>= compileAccepted settings comparator >>= last :=
  ⟨fun r => do
    Run.reach (.compiled r.2.1 r.2.2
      (loaded >>= compileAccepted settings comparator).diagnostics.length)
    return r.1, fun _ => ⟨rfl, rfl⟩, rfl⟩

/-- No filter can be made, or the census with it meets a doclet that it cannot read. -/
def StopsEarly (settings : Settings) (comparator : Option VersionComparator)
    (doclets : List Doclet) : Prop :=
  (∃ e, (filterFor settings comparator).result = .error e) ∨
    ∃ filter, (filterFor settings comparator).result = .ok filter ∧
      Census.MeetsBlock (some filter) .empty doclets

/-- **After loading, all reports are about symbols that the index knows at the end**, and no stage
behind the census fails without a report. -/
lemma orderly_compileAccepted (settings : Settings) (comparator : Option VersionComparator)
    (doclets : List Doclet) :
    Orderly (fun d => ∃ filter, (filterFor settings comparator).result = .ok filter ∧
      d.Names (indexAtEnd (some filter) doclets)) (fun _ => StopsEarly settings comparator doclets)
        (compileAccepted settings comparator doclets) := by
  have hfilter : ∀ P, Orderly P (fun _ => StopsEarly settings comparator doclets)
      (filterFor settings comparator) := by
    intro P
    cases h : DocletFilter.ofSettings settings comparator with
    | ok filter =>
      rw [filterFor, h]
      exact orderly_pure _
    | error why =>
      have hfail : filterFor settings comparator = Run.fail (.comparator why) := by
        rw [filterFor, h]
      have hstops : StopsEarly settings comparator doclets :=
        Or.inl ⟨_, congrArg Run.result hfail⟩
      rw [hfail]
      exact orderly_fail (by simp) hstops
  refine (hfilter _).bind fun filter hfilter => ?_
  refine ((orderly_symbolForest (some filter) doclets).mono (fun d hd => ⟨filter, hfilter, hd⟩)
    fun e he => Or.inr ⟨filter, hfilter, he⟩).bind fun f hf => ?_
  exact ((orderly_emit settings hf).mono (fun d hd => ⟨filter, hfilter, hd⟩) (by simp)).andPure

/-- A compilation fails without a report only while it loads or before it plants. -/
lemma orderly_compileRecords (settings : Settings) (comparator : Option VersionComparator)
    (records : List Json.Value) :
    Orderly (fun _ => True) (fun _ => MeetsCompositeKind 0 records ∨
      ∃ doclets, (loadDoclets records).result = .ok doclets ∧
        StopsEarly settings comparator doclets)
      (compileRecords settings comparator records) := by
  obtain ⟨last, hlast, heq⟩ := compileLoaded_eq settings comparator (loadDoclets records)
  rw [compileRecords, heq]
  refine Orderly.bind ?_ fun r _ => orderly_silent (hlast r).1 (hlast r).2
  refine ((orderly_loadFrom records 0).mono (fun _ _ => trivial) fun e he => Or.inl he).bind
    fun doclets hdoclets => ?_
  exact (orderly_compileAccepted settings comparator doclets).mono (fun _ _ => trivial)
    fun e he => Or.inr ⟨doclets, hdoclets, he⟩

/-- The diagnostics of a compilation are those of loading and those after it. -/
lemma diagnostics_later (settings : Settings) (comparator : Option VersionComparator)
    (records : List Json.Value) : ∃ later,
      (compileRecords settings comparator records).diagnostics =
        (loadDoclets records).diagnostics ++ later ∧
      ∀ d ∈ later, ∃ doclets, (loadDoclets records).result = .ok doclets ∧
        d ∈ (compileAccepted settings comparator doclets).diagnostics := by
  obtain ⟨last, hlast, heq⟩ := compileLoaded_eq settings comparator (loadDoclets records)
  rw [compileRecords, heq]
  have hdiagnostics : (loadDoclets records >>= compileAccepted settings comparator >>=
      last).diagnostics = (loadDoclets records >>=
          compileAccepted settings comparator).diagnostics := by
    cases h : (loadDoclets records >>= compileAccepted settings comparator).result with
    | error e => exact diagnostics_bind_error h last
    | ok r => rw [diagnostics_bind h, (hlast r).1, List.append_nil]
  rw [hdiagnostics]
  cases h : (loadDoclets records).result with
  | error e => exact ⟨[], by rw [diagnostics_bind_error h, List.append_nil], by simp⟩
  | ok doclets => exact ⟨_, diagnostics_bind h _, fun d hd => ⟨doclets, rfl, hd⟩⟩

/-- **The diagnostics of a compilation are well formed.** If it succeeds, all of them are
recoverable. If it ends with a fatal one, that is the last, and all before it are recoverable. And
all that are reported after loading have a longname that the index knows when the compilation
ends. -/
theorem diagnostics_compileRecords (settings : Settings) (comparator : Option VersionComparator)
    (records : List Json.Value) :
    (∀ text, (compileRecords settings comparator records).result = .ok text →
      ∀ d ∈ (compileRecords settings comparator records).diagnostics, d.severity = .recoverable) ∧
    (∀ d, (compileRecords settings comparator records).result = .error (.fatal d) →
      d.severity = .fatal ∧ ∃ before,
        (compileRecords settings comparator records).diagnostics = before ++ [d] ∧
          ∀ b ∈ before, b.severity = .recoverable) ∧
    ∃ later, (compileRecords settings comparator records).diagnostics =
        (loadDoclets records).diagnostics ++ later ∧
      ∀ d ∈ later, ∃ doclets filter longname, (loadDoclets records).result = .ok doclets ∧
        (filterFor settings comparator).result = .ok filter ∧
          longname ∈ indexAtEnd (some filter) doclets ∧ d.longname = some longname := by
  have horderly := orderly_compileRecords settings comparator records
  refine ⟨horderly.goes_on, horderly.ends, ?_⟩
  obtain ⟨later, hlater, hd⟩ := diagnostics_later settings comparator records
  refine ⟨later, hlater, ?_⟩
  intro d hmem
  obtain ⟨doclets, hdoclets, hreported⟩ := hd d hmem
  obtain ⟨filter, hfilter, longname, hkey, hlongname⟩ :=
    (orderly_compileAccepted settings comparator doclets).reports d hreported
  exact ⟨doclets, filter, longname, hdoclets, hfilter, hkey, hlongname⟩

end Compilation

end AmbientDecl

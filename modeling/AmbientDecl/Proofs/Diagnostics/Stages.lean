import AmbientDecl.Proofs.Arrival.Census
import AmbientDecl.Proofs.Forest.Origin

/-!
# What the stages report

Every stage from the records to the finished forest is orderly, and after loading every diagnostic
is about a symbol that the index knows.

**Keys.** `Diagnostic.Names keys` says that a diagnostic has one of the longnames `keys`. The lemmas
take any list of keys that holds the longnames of the symbols a stage has at hand.

**Failures.** Loading fails without a diagnostic at a record whose kind is no text
(`orderly_loadFrom`), and the census at a doclet that it cannot read (`Census.orderly_addAll`).
Later stages fail with a diagnostic or not at all.

**The census.** Where a census ends early, what it has entered is all that the index knows.
`Census.reached` is the census up to the doclet that it ends at.
-/

namespace AmbientDecl

open List SymbolTree Census AmbientDecl.Symbol Expander

/-- The diagnostic has one of these longnames. -/
def Diagnostic.Names (keys : List String) (d : Diagnostic) : Prop :=
  ∃ longname ∈ keys, d.longname = some longname

/-- The diagnostic can be worked around and has one of these longnames. -/
structure Diagnostic.Passing (keys : List String) (d : Diagnostic) : Prop where
  names : d.Names keys
  recoverable : d.severity = .recoverable

open Run

variable {P : Diagnostic → Prop} {E : Failure → Prop} {keys : List String}

/-- Whether the kind of a record is an array or an object. -/
def hasCompositeKind : Json.Value → Bool
  | .object ms =>
    match (Json.lookup "kind" ms).getD .null with
    | .array _ | .object _ => true
    | _ => false
  | _ => false

lemma loadRecord_composite (index : Nat) {record : Json.Value}
    (h : hasCompositeKind record = true) :
    ∃ isArray, loadRecord index record = fail (.compositeKind isArray) := by
  unfold hasCompositeKind at h
  split at h
  · split at h
    · rename_i heq
      exact ⟨true, by simp only [loadRecord, heq]⟩
    · rename_i heq
      exact ⟨false, by simp only [loadRecord, heq]⟩
    · simp at h
  · simp at h

lemma orderly_loadRecord {index : Nat} {record : Json.Value} (h : hasCompositeKind record = false) :
    Orderly (fun _ => True) (fun _ => False) (loadRecord index record) := by
  have hreport : ∀ d : Diagnostic, Orderly (fun _ => True) (fun _ => False)
      (do report d; return (none : Option Doclet)) := fun d =>
    (orderly_report trivial).andPure
  unfold loadRecord
  split
  · dsimp only
    split
    · rename_i heq
      simp [hasCompositeKind, heq] at h
    · rename_i heq
      simp [hasCompositeKind, heq] at h
    · split
      · exact (hreport _).attempting _
      · split
        · exact orderly_pure _
        · exact hreport _
  · exact hreport _

/-- Records are loaded up to one whose kind is an array or an object. -/
def MeetsCompositeKind (index : Nat) (records : List Json.Value) : Prop :=
  ∃ front record rest doclets, records = front ++ record :: rest ∧
    (loadFrom index front).result = .ok doclets ∧ hasCompositeKind record = true

lemma orderly_loadFrom (records : List Json.Value) : ∀ index,
    Orderly (fun _ => True) (fun _ => MeetsCompositeKind index records)
      (loadFrom index records) := by
  induction records with
  | nil => intro index; exact orderly_pure _
  | cons record rest ih =>
    intro index
    cases hkind : hasCompositeKind record with
    | true =>
      obtain ⟨isArray, heq⟩ := loadRecord_composite index hkind
      have hfirst : Orderly (fun _ => True) (fun _ => MeetsCompositeKind index (record :: rest))
          (loadRecord index record) := by
        rw [heq]
        exact orderly_fail (by simp) ⟨[], record, rest, [], rfl, rfl, hkind⟩
      refine hfirst.bind fun d hd => ?_
      simp [heq] at hd
    | false =>
      refine ((orderly_loadRecord hkind).mono (fun _ _ => trivial) (by simp)).bind fun d hd => ?_
      refine ((ih (index + 1)).mono (fun _ _ => trivial) ?_).andPure
      rintro _ ⟨front, r, back, doclets, rfl, hfront, hr⟩
      refine ⟨record :: front, r, back, d.toList ++ doclets, rfl, ?_, hr⟩
      exact result_bind.mpr ⟨d, hd, result_bind.mpr ⟨doclets, hfront, rfl⟩⟩

section Doclets

variable {d : Doclet}

/-- Reading a type reports at most that it cannot be read. -/
lemma orderly_readTypeOf (hd : ∀ message, P (.about d .malformedType message))
    (expression : Option String) : Orderly P E (readTypeOf d expression) := by
  simp only [readTypeOf]
  split
  · exact (orderly_report (hd _)).andPure.attempting _
  · exact (orderly_pure _).attempting _

lemma orderly_enumValuesOf (properties : List Doclet.Param) :
    Orderly P E (Symbol.enumValuesOf properties) := by
  induction properties with
  | nil => exact orderly_pure _
  | cons p rest ih =>
    rw [enumValuesOf]
    split
    · exact ((orderly_pure _).attempting _).bind fun _ _ => ih.andPure
    · exact ih

lemma orderly_withDetail (hd : ∀ message, P (.about d .malformedType message)) (s : Symbol) :
    Orderly P E (s.withDetail d) := by
  unfold withDetail
  split
  · exact orderly_pure _
  · split
    · exact (orderly_enumValuesOf _).andPure
    · exact (orderly_readTypeOf hd _).andPure
  · exact (orderly_readTypeOf hd _).andPure
  · exact orderly_pure _

/-- Whether the doclet documents a module without a segment to take its path from. -/
def Doclet.isUnnamedModule (d : Doclet) : Bool :=
  d.symbolKind = .moduleDecl && (Longname.split d.longname).isEmpty

lemma orderly_baseOf (d : Doclet) :
    Orderly P (fun _ => d.isUnnamedModule = true) (Symbol.baseOf d) := by
  have hname : Orderly P (fun _ => d.isUnnamedModule = true) (nameOf d) := by
    unfold nameOf
    split
    · rename_i hkind
      split
      · exact orderly_pure _
      · rename_i hpath
        refine orderly_fail (by simp) ?_
        simpa [Doclet.isUnnamedModule, Longname.modulePath?, hkind] using hpath
    · exact orderly_pure _
  exact hname.bind fun _ _ => (orderly_attemptAll _).andPure

/-- Making a symbol reports something only if it goes well. -/
lemma orderly_ofDoclet (hd : ∀ s, (Symbol.ofDoclet d).result = .ok s →
    ∀ message, P (.about d .malformedType message)) :
    Orderly P (fun _ => d.isUnnamedModule = true) (Symbol.ofDoclet d) := by
  refine (orderly_baseOf d).bind fun base hbase => ?_
  obtain ⟨s, hs⟩ := exists_withDetail d base
  exact orderly_withDetail (hd s (result_bind.mpr ⟨base, hbase, hs⟩)) base

lemma orderly_parametersFrom (hd : ∀ message, P (.about d .malformedType message))
    (params : List Doclet.Param) : ∀ position, Orderly P E (parametersFrom d position params) := by
  induction params with
  | nil => intro position; exact orderly_pure _
  | cons p rest ih =>
    intro position
    have hfirst : Orderly P E (parameterOf d position p) :=
      (orderly_readTypeOf hd _).bind fun _ _ => (orderly_pure _).attempting _
    exact hfirst.bind fun _ _ => (ih (position + 1)).andPure

lemma orderly_returnTypes (hd : ∀ message, P (.about d .malformedType message))
    (returns : List Doclet.Return) : Orderly P E (returnTypes d returns) := by
  induction returns with
  | nil => exact orderly_pure _
  | cons r rest ih =>
    have hfirst : Orderly P E (returnType d r) := by
      unfold returnType
      split
      · exact orderly_pure _
      · split
        · exact orderly_pure _
        · exact (orderly_readTypeOf hd _).andPure
    exact hfirst.bind fun _ _ => ih.andPure

lemma orderly_signature (hd : ∀ message, P (.about d .malformedType message)) (kind : SymbolKind) :
    Orderly P E (Signature.ofDoclet d kind) := by
  have hreturns : Orderly P E (returnTypeOf d) := by
    unfold returnTypeOf
    split
    · exact orderly_pure _
    · exact (orderly_returnTypes hd _).bind fun _ _ => (orderly_pure _).attempting _
  refine (orderly_parametersFrom hd _ 0).bind fun _ _ => ?_
  split
  · exact (orderly_pure _).bind fun _ _ => (orderly_attemptAll _).andPure
  · rw [map_eq_pure_bind]
    exact (hreturns.andPure).bind fun _ _ => (orderly_attemptAll _).andPure

lemma orderly_signatures (kind : SymbolKind) {doclets : List Doclet}
    (h : ∀ d ∈ doclets, ∀ message, P (.about d .malformedType message)) :
    Orderly P E (Signature.ofDoclets kind doclets) := by
  induction doclets with
  | nil => exact orderly_pure _
  | cons d rest ih =>
    refine (orderly_signature (h d mem_cons_self) kind).bind fun _ _ => ?_
    exact (ih fun r hr => h r (mem_cons_of_mem _ hr)).andPure

end Doclets

namespace Census

variable {filter : Option DocletFilter} {c c' : Census} {d : Doclet}

/-- The census up to the doclet that it ends at. -/
def reached (filter : Option DocletFilter) : Census → List Doclet → Census
  | c, [] => c
  | c, d :: rest =>
    match (c.add filter d).result with
    | .ok c' => reached filter c' rest
    | .error _ => c

lemma diagnosticsOf_notes (filter : Option DocletFilter) (d : Doclet) :
    diagnosticsOf ((filter.map fun f => f.notes d).getD []) = [] := by
  cases filter with
  | none => rfl
  | some f =>
    simp only [Option.map_some, Option.getD_some, DocletFilter.notes]
    split <;> rfl

/-- A doclet that cannot be read: its version cannot be compared, or it is the first of its longname
and documents a module without a path. -/
def Blocks (filter : Option DocletFilter) (known : Bool) (d : Doclet) : Prop :=
  (filter.bind fun f => f.obstacle? d).isSome = true ∨
    takesPart filter d = true ∧ known = false ∧ d.isUnnamedModule = true

/-- Reading a doclet reports something only if the doclet makes a symbol. -/
lemma orderly_draft {known : Bool} (hd : ∀ s, (draft filter known d).result = .ok (some s) →
    d.longname ∈ keys) :
    Orderly (Diagnostic.Passing keys) (fun _ => Blocks filter known d) (draft filter known d) := by
  have hversion : Orderly (Diagnostic.Passing keys) (fun _ => Blocks filter known d)
      (checkVersion filter d) := by
    unfold checkVersion
    split
    · rename_i hobstacle
      exact orderly_fail (by simp) (Or.inl (by simp [hobstacle]))
    · exact orderly_pure _
  refine hversion.bind fun _ hok => ?_
  refine (orderly_noteAll (by simp [diagnosticsOf_notes])).bind fun _ _ => ?_
  split
  · rename_i hnew
    have hsymbol : Orderly (Diagnostic.Passing keys) (fun _ => d.isUnnamedModule = true)
        (ofDoclet d) := by
      refine orderly_ofDoclet fun s hs message =>
        ⟨⟨d.longname, hd { s with doclets := [d] } ?_, rfl⟩, rfl⟩
      refine result_bind.mpr ⟨(), hok, ?_⟩
      rw [result_noteAll_bind, if_pos hnew]
      exact result_bind.mpr ⟨s, hs, rfl⟩
    obtain ⟨htakes, hknown⟩ : takesPart filter d = true ∧ known = false := by simpa using hnew
    exact (hsymbol.mono (fun _ h => h) fun _ h => Or.inr ⟨htakes, hknown, h⟩).andPure
  · exact orderly_pure _

lemma longnames_add (h : (c.add filter d).result = .ok c') :
    c.symbols.map Symbol.longname ⊆ c'.symbols.map Symbol.longname := by
  rcases add_cases h with ⟨_, rfl⟩ | ⟨_, _, rfl⟩ | ⟨_, _, _, rfl⟩ | ⟨_, _, _, rfl⟩ |
    ⟨_, _, _, s, _, rfl⟩
  · exact List.Subset.refl _
  · exact List.Subset.refl _
  · exact List.Subset.refl _
  · rw [longname_queue]
    exact List.Subset.refl _
  · rw [map_append]
    exact subset_append_left _ _

lemma longnames_reached : ∀ (doclets : List Doclet) (c : Census),
    c.symbols.map Symbol.longname ⊆ (reached filter c doclets).symbols.map Symbol.longname := by
  intro doclets
  induction doclets with
  | nil => intro c; exact List.Subset.refl _
  | cons d rest ih =>
    intro c
    unfold reached
    split
    · rename_i c' h
      exact List.Subset.trans (longnames_add h) (ih c')
    · exact List.Subset.refl _

lemma reached_of_add {rest : List Doclet} (h : (c.add filter d).result = .ok c') :
    reached filter c (d :: rest) = reached filter c' rest := by
  rw [reached, h]

lemma reached_of_addAll : ∀ {doclets : List Doclet} {c c' : Census},
    (addAll filter c doclets).result = .ok c' → reached filter c doclets = c' := by
  intro doclets
  induction doclets with
  | nil => intro c c' h; exact result_pure.mp h
  | cons d rest ih =>
    intro c c' h
    obtain ⟨next, hnext, h⟩ := result_bind.mp h
    rw [reached_of_add hnext]
    exact ih h

/-- Doclets are collected up to one that cannot be read. -/
def MeetsBlock (filter : Option DocletFilter) (c : Census) (doclets : List Doclet) : Prop :=
  ∃ front d rest c', doclets = front ++ d :: rest ∧ (addAll filter c front).result = .ok c' ∧
    Blocks filter (c'.has d.longname) d

/-- The symbol that a doclet makes is in the next census. -/
lemma longname_mem_enter {s : Symbol}
    (hs : (draft filter (c.has d.longname) d).result = .ok (some s)) :
    d.longname ∈ (c.enter filter d (some s)).symbols.map Symbol.longname := by
  have htakes : takesPart filter d = true := by
    by_contra hnot
    obtain ⟨_, _, hs⟩ := result_bind.mp hs
    simp [result_noteAll_bind, hnot] at hs
  simp [enter, enterSymbol, htakes, (draft_eq_some hs).1]

/-- **The census reports about symbols that it has entered when it ends.** -/
lemma orderly_addAll : ∀ (doclets : List Doclet) (c : Census),
    (reached filter c doclets).symbols.map Symbol.longname ⊆ keys →
      Orderly (Diagnostic.Passing keys) (fun _ => MeetsBlock filter c doclets)
        (addAll filter c doclets) := by
  intro doclets
  induction doclets with
  | nil => intro c _; exact orderly_pure _
  | cons d rest ih =>
    intro c hkeys
    have hadd : Orderly (Diagnostic.Passing keys) (fun _ => MeetsBlock filter c (d :: rest))
        (c.add filter d) := by
      rw [add_eq]
      refine ((orderly_draft fun s hs => ?_).mono (fun _ h => h) fun _ h =>
        ⟨[], d, rest, c, rfl, rfl, h⟩).andPure
      have hnext : (c.add filter d).result = .ok (c.enter filter d (some s)) := by
        rw [add_eq]
        exact result_bind.mpr ⟨some s, hs, rfl⟩
      rw [reached_of_add hnext] at hkeys
      exact hkeys (longnames_reached rest _ (longname_mem_enter hs))
    refine hadd.bind fun c' hc' => ?_
    rw [reached_of_add hc'] at hkeys
    refine (ih c' hkeys).mono (fun _ h => h) ?_
    rintro _ ⟨front, b, back, c'', rfl, hfront, hblocks⟩
    exact ⟨d :: front, b, back, c'', rfl, result_bind.mpr ⟨c', hc', hfront⟩, hblocks⟩

end Census

lemma orderly_checkCycles {c : Census} (hc : c.symbols.map Symbol.longname ⊆ keys) :
    Orderly (Diagnostic.Names keys) E c.checkCycles := by
  unfold checkCycles
  split
  · rename_i d hd
    obtain ⟨s, hs, hloop⟩ := exists_of_findSome?_eq_some hd
    obtain ⟨longname, _, rfl⟩ := Option.map_eq_some_iff.mp hloop
    exact orderly_report ⟨s.longname, hc (mem_map_of_mem hs), rfl⟩
  · exact orderly_pure _

lemma orderly_plantResolved (c : Census) : Orderly P E (plantResolved c) := by
  refine (orderly_noteAll ?_).andPure
  intro d hd
  simp only [diagnosticsOf, mem_filterMap] at hd
  obtain ⟨entry, ⟨placed, _, hentry⟩, hdiagnostic⟩ := hd
  split at hentry
  · rw [← Option.some.inj hentry] at hdiagnostic
    simp [Entry.diagnostic?] at hdiagnostic
  · simp at hentry

namespace Planting

lemma orderly_attachOrphans : ∀ {os : List Orphan} {p : Planting}, Tidy p → Awaits p os →
    (∀ o ∈ os, (p.symbolAt o.id).longname ∈ keys) →
      Orderly (Diagnostic.Names keys) E (attachOrphans p os) := by
  intro os
  induction os with
  | nil => intro p _ _ _; exact orderly_pure _
  | cons o rest ih =>
    intro p hp hawaits hkeys
    have hle := hawaits.le o mem_cons_self
    obtain ⟨htidy, hgrows⟩ := hawaits.first hp
    have hattach : Orderly (Diagnostic.Names keys) E (attachOrphan p o) := by
      refine (orderly_report ⟨_, ?_, rfl⟩).andPure
      have hsame : ((p.attach o).symbolAt o.id).longname = _ := (hgrows.keeps hle).1
      exact hsame ▸ hkeys o mem_cons_self
    refine hattach.bind fun q hq => ?_
    obtain rfl : p.attach o = q := by simpa [result_attachOrphan] using hq
    refine ih htidy (hawaits.attach hp) ?_
    intro o' ho'
    rw [(hgrows.keeps (hawaits.le o' (mem_cons_of_mem _ ho'))).1]
    exact hkeys o' (mem_cons_of_mem _ ho')

end Planting

/-- **Building reports about symbols of the census**, and only the census fails without a report. -/
lemma orderly_buildForest {filter : Option DocletFilter} {doclets : List Doclet}
    (hkeys : (Census.reached filter .empty doclets).symbols.map Symbol.longname ⊆ keys) :
    Orderly (Diagnostic.Names keys) (fun _ => Census.MeetsBlock filter .empty doclets)
      (buildForest filter doclets) := by
  refine ((orderly_addAll doclets .empty hkeys).mono (fun d hd => hd.names) fun _ h => h).bind
    fun c hc => ?_
  rw [reached_of_addAll hc] at hkeys
  refine (orderly_checkCycles hkeys).bind fun _ _ => (orderly_attemptAll _).bind fun _ _ => ?_
  refine (orderly_plantResolved c).bind ?_
  rintro ⟨planting, orphans⟩ hplanted
  obtain ⟨rfl, rfl⟩ : c.resolved = planting ∧ c.orphans = orphans := by
    simpa [result_plantResolved] using hplanted
  have hawaits := c.awaits_orphans.perm
    (mergeSort_perm c.orphans fun a b => decide (a.memberof ≤ b.memberof))
  refine (Planting.orderly_attachOrphans (tidy_resolved (nodup_ofDoclets hc))
    hawaits ?_).bind fun _ _ => (orderly_reach _).bind fun _ _ => (orderly_attemptAll _).andPure
  intro o ho
  obtain ⟨hpos, s, hs, _⟩ := Census.mem_orphans.mp (mem_mergeSort.mp ho)
  obtain ⟨i, hi⟩ := Nat.exists_eq_succ_of_ne_zero (Nat.pos_iff_ne_zero.mp hpos)
  rw [hi, Nat.succ_sub_one] at hs
  rw [hi, Planting.symbolAt, resolved, hs]
  exact hkeys (mem_map_of_mem (mem_of_getElem? hs))

section Merging

variable {s : Symbol}

/-- A symbol that a report can be about. -/
structure Symbol.Known (keys : List String) (s : Symbol) : Prop where
  attested : s.Attested
  key : s.longname ∈ keys

lemma Symbol.Known.about (hs : s.Known keys) {d : Doclet} (hd : d ∈ s.doclets)
    (kind : DiagnosticKind) (message : String) : (Diagnostic.about d kind message).Names keys :=
  ⟨s.longname, hs.key, congrArg some (hs.attested.own d hd)⟩

lemma Symbol.Known.diagnostic (hs : s.Known keys) (kind : DiagnosticKind) (message : String) :
    (s.diagnostic kind message).Names keys :=
  ⟨s.longname, hs.key, rfl⟩

/-- What merging may report about the doclets of a symbol satisfies `P`. -/
def Symbol.Reportable (P : Diagnostic → Prop) (s : Symbol) : Prop :=
  ∀ d ∈ s.doclets, ∀ kind message, kind ≠ .emptySignatures → P (.about d kind message)

lemma Symbol.Known.reportable (hs : s.Known keys) : s.Reportable (Diagnostic.Names keys) :=
  fun _ hd kind message _ => hs.about hd kind message

section

variable (hs : s.Reportable P)

include hs

lemma orderly_checkKinds : Orderly P E (checkKinds s) := by
  unfold checkKinds
  split
  · rename_i d hd
    exact orderly_report (hs d (mem_of_mem_tail (mem_of_find?_eq_some hd)) _ _ (by decide))
  · exact orderly_pure _

lemma orderly_reportDuplicate : Orderly P E (reportDuplicate s) := by
  unfold reportDuplicate
  split
  · rename_i first second rest hdoclets
    exact orderly_report (hs second (by simp [hdoclets]) _ _ (by decide))
  · exact orderly_pure _

lemma orderly_mergeClass : Orderly P E (mergeClass s) := by
  unfold mergeClass
  split
  · exact (orderly_pure _).andPure
  · refine (orderly_signatures _ fun d hd message => ?_).andPure
    exact hs d hd _ _ (by decide)

lemma orderly_mergeCallback : Orderly P E (mergeCallback s) := by
  refine (orderly_signatures _ fun d hd message => ?_).bind fun _ _ => ?_
  · exact hs d (mem_of_mem_filter hd) _ _ (by decide)
  · dsimp only
    split
    · exact (orderly_reportDuplicate hs).andPure
    · exact orderly_pure _

lemma orderly_mergeDoclets : Orderly P E (mergeDoclets s) := by
  unfold mergeDoclets
  split
  · refine (orderly_signatures _ fun d hd message => ?_).andPure
    exact hs d hd _ _ (by decide)
  · split
    · exact orderly_mergeClass hs
    · split
      · exact orderly_mergeCallback hs
      · exact (orderly_reportDuplicate hs).andPure

/-- Merging a symbol; the last check, for a signature, has nothing to report. -/
lemma orderly_mergeSymbol : Orderly P E (mergeSymbol s) := by
  unfold mergeSymbol
  split
  · exact orderly_pure _
  · rename_i hdoclets
    refine (orderly_checkKinds hs).bind fun _ _ => (orderly_mergeDoclets hs).bind ?_
    intro merged hmerged
    rw [result_mergeDoclets, Except.ok.injEq] at hmerged
    subst hmerged
    rw [checkSignatures_worked (by simpa using hdoclets)]
    exact (orderly_pure _).andPure

end

lemma orderly_traverseAll {f : Symbol → Run Symbol} {ts : List SymbolTree}
    (h : ∀ t ∈ ts, Orderly P E (t.traverse f)) : Orderly P E (SymbolTree.traverseAll f ts) := by
  induction ts with
  | nil => exact orderly_pure _
  | cons t rest ih =>
    refine (h t mem_cons_self).bind fun _ _ => ?_
    exact (ih fun r hr => h r (mem_cons_of_mem _ hr)).andPure

lemma orderly_traverse {f : Symbol → Run Symbol} {t : SymbolTree}
    (h : ∀ u ∈ t.walk, Orderly P E (f u.symbol)) : Orderly P E (t.traverse f) := by
  induction t using induct with
  | node i s cs ih =>
    rw [walk_node] at h
    refine (h _ mem_cons_self).bind fun _ _ => Orderly.bind ?_ fun _ _ => orderly_pure _
    refine orderly_traverseAll fun c hc => ih c hc fun u hu => h u ?_
    exact mem_cons_of_mem _ (mem_flatMap.mpr ⟨c, hc, hu⟩)

/-- **Merging reports about the doclets of the forest.** -/
lemma orderly_mergeOverloads {f : Forest} (hf : ∀ t ∈ f.nodes, t.symbol.Reportable P) :
    Orderly P E (mergeOverloads f) := by
  have hchildren : Orderly P E (traverseAll mergeSymbol f.root.children) := by
    refine orderly_traverseAll fun c hc => orderly_traverse fun u hu => ?_
    refine orderly_mergeSymbol (hf u ?_)
    rw [Forest.nodes, nodes_eq]
    exact mem_flatMap.mpr ⟨c, hc, hu⟩
  exact hchildren.bind fun _ _ => (orderly_reach _).andPure

end Merging

section Expansion

variable {α β : Type}

/-- A step of the walk is orderly from wherever it starts. -/
def Expander.Orderly (P : Diagnostic → Prop) (E : Failure → Prop) (x : Expander α) : Prop :=
  ∀ e, Run.Orderly P E (x.run e)

lemma Expander.orderly_pure (a : α) : Expander.Orderly P E (pure a) :=
  fun e => by
    rw [StateT.run_pure]
    exact Run.orderly_pure _

lemma Expander.Orderly.bind {x : Expander α} {f : α → Expander β} (hx : Expander.Orderly P E x)
    (hf : ∀ a, Expander.Orderly P E (f a)) : Expander.Orderly P E (x >>= f) := by
  intro e
  rw [StateT.run_bind]
  exact (hx e).bind fun a _ => hf a.1 a.2

lemma Expander.Orderly.andPure {x : Expander α} {f : α → β} (hx : Expander.Orderly P E x) :
    Expander.Orderly P E (x >>= fun a => pure (f a)) :=
  hx.bind fun _ => Expander.orderly_pure _

lemma Expander.orderly_mapM {f : α → Expander β} (hf : ∀ a, Expander.Orderly P E (f a))
    (l : List α) : Expander.Orderly P E (l.mapM f) := by
  induction l with
  | nil =>
    rw [mapM_nil]
    exact Expander.orderly_pure _
  | cons a rest ih =>
    rw [mapM_cons]
    exact (hf a).bind fun _ => ih.andPure

/-- What only looks at or changes what the walk keeps in mind reports nothing. -/
lemma Expander.orderly_step {x : Expander α} (h : ∀ e, ∃ r, x.run e = pure r) :
    Expander.Orderly P E x := by
  intro e
  obtain ⟨r, hr⟩ := h e
  rw [hr]
  exact Run.orderly_pure r

lemma Expander.orderly_lift {x : Run α} (hx : Run.Orderly P E x) :
    Expander.Orderly P E (liftM x : Expander α) :=
  fun _ => hx.andPure

lemma orderly_expandSignature (container : String) (owner : Symbol) (signature : Signature) :
    Expander.Orderly P E (expandSignature container owner signature) := by
  refine (orderly_lift (orderly_silent rfl rfl)).bind fun _ => ?_
  refine (orderly_mapM (fun group => ?_) _).andPure
  have hmade : Expander.Orderly P E (synthesize container owner group.1 group.2.record) :=
    orderly_step fun e => ⟨_, rfl⟩
  exact hmade.andPure

lemma orderly_expandTypedef {s : Symbol}
    (hs : ∀ d ∈ s.doclets, ∀ message, P (.about d .malformedType message)) :
    Run.Orderly P E (expandTypedef s) := by
  unfold expandTypedef
  split
  · rename_i d hd
    split
    · have hmem : d ∈ s.doclets := mem_of_head? hd
      exact (orderly_parametersFrom (hs d hmem) _ 0).bind fun _ _ =>
        (Run.orderly_pure _).attempting _
    · exact Run.orderly_pure _
  · exact Run.orderly_pure _

lemma orderly_expandSymbol {s : Symbol} (container : String)
    (hs : ∀ d ∈ s.doclets, ∀ message, P (.about d .malformedType message)) :
    Expander.Orderly P E (expandSymbol container s) := by
  refine (orderly_lift (orderly_expandTypedef hs)).bind fun s' => ?_
  refine (orderly_mapM (orderly_expandSignature container s') _).bind fun _ => ?_
  exact Expander.orderly_pure _

/-- What the induction knows about the children of a symbol. -/
def WalkOrderly (P : Diagnostic → Prop) (E : Failure → Prop) (cs : List SymbolTree) : Prop :=
  ∀ c ∈ cs, ∀ container, Expander.Orderly P E (expandTree container c)

lemma orderly_expandMembers {cs : List SymbolTree} (hcs : WalkOrderly P E cs) (container : String) :
    Expander.Orderly P E (expandMembers container cs) := by
  induction cs with
  | nil => exact Expander.orderly_pure _
  | cons c rest ih =>
    refine (hcs c mem_cons_self container).bind fun _ => ?_
    exact (ih fun d hd => hcs d (mem_cons_of_mem _ hd)).andPure

lemma orderly_expandDeclared {cs : List SymbolTree} (hcs : WalkOrderly P E cs)
    (container : String) :
    Expander.Orderly P E (expandDeclared container cs) := by
  induction cs with
  | nil => exact Expander.orderly_pure _
  | cons c rest ih =>
    refine (hcs c mem_cons_self container).bind fun _ => ?_
    refine (orderly_step fun e => ⟨_, rfl⟩).bind fun _ => ?_
    exact (ih fun d hd => hcs d (mem_cons_of_mem _ hd)).andPure

lemma orderly_inContainer {walk : Expander α} (h : Expander.Orderly P E walk)
    (names : List String) : Expander.Orderly P E (inContainer names walk) := by
  refine (orderly_step fun e => ⟨_, rfl⟩).bind fun _ => ?_
  refine (orderly_step fun e => ⟨_, rfl⟩).bind fun _ => h.bind fun _ => ?_
  exact (orderly_step fun e => ⟨_, rfl⟩).andPure

lemma orderly_expandTree {t : SymbolTree}
    (ht : ∀ u ∈ t.walk, ∀ d ∈ u.symbol.doclets, ∀ message, P (.about d .malformedType message))
    (container : String) : Expander.Orderly P E (expandTree container t) := by
  induction t using induct generalizing container with
  | node i s cs ih =>
    rw [walk_node] at ht
    have hcs : WalkOrderly P E cs := fun c hc container =>
      ih c hc (fun u hu => ht u (mem_cons_of_mem _ (mem_flatMap.mpr ⟨c, hc, hu⟩)))
        container
    refine (orderly_expandSymbol container (ht _ mem_cons_self)).bind fun s' => ?_
    split
    · exact (orderly_inContainer (orderly_expandDeclared hcs _) _).andPure
    · exact (orderly_expandMembers hcs _).andPure

/-- **Expansion reports about symbols of the forest.** -/
lemma orderly_expandForest {f : Forest} (hroot : f.root.symbol = Symbol.root)
    (hf : ∀ t ∈ f.nodes, ∀ d ∈ t.symbol.doclets, ∀ message, P (.about d .malformedType message)) :
    Run.Orderly P E (expandForest f) := by
  have hwalk : Expander.Orderly P E (expandTree f.root.longname f.root) := by
    refine orderly_expandTree ?_ _
    intro u hu
    rw [walk_eq] at hu
    rcases mem_cons.mp hu with rfl | hu
    · rw [hroot]
      simp [root, Symbol.bare]
    · exact hf u hu
  exact (hwalk _).bind fun _ _ => (orderly_reach _).andPure

/-- **Expansion always gives a forest.** -/
lemma exists_expandForest (f : Forest) : ∃ g, (expandForest f).result = .ok g := by
  have hwalk : Expander.Orderly (fun d => d.severity = .recoverable) (fun _ => False)
      (expandTree f.root.longname f.root) := orderly_expandTree (fun _ _ _ _ _ => rfl) _
  have h : Run.Orderly (fun d => d.severity = .recoverable) (fun _ => False) (expandForest f) :=
    (hwalk _).bind fun _ _ => (orderly_reach _).andPure
  cases hr : (expandForest f).result with
  | ok g => exact ⟨g, rfl⟩
  | error e => exact (h.fails_silently (fun _ hd => hd) hr).1.elim

end Expansion

end AmbientDecl

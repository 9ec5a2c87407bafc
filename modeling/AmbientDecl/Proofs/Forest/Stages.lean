import AmbientDecl.Compile
import AmbientDecl.Proofs.Forest.Build
import AmbientDecl.Proofs.Forest.Expansion
import AmbientDecl.Proofs.Symbol.Reading

/-!
# Merged overloads and the stages of a forest

Working the queued doclets in changes what a symbol says and nothing about where it stands.

**One symbol.** `Symbol.worked` is the symbol with its doclets worked in, and `result_mergeSymbol`
is all that can happen: a symbol without doclets stays, doclets that contradict each other end the
run, and otherwise `Symbol.worked` comes out. A function never ends up without a signature.

**What stays.** `Symbol.outline` is the part of a symbol that its later doclets have no say in.
Merging keeps the outlines of a tree (`outline_mergeOverloads`), and with them its numbers and
longnames (`extends_mergeOverloads`).

The forest is built, then overloads are merged, then described properties are expanded. The first
stage makes a consistent forest (`consistent_buildForest`), and each of the others gives one that
extends it, so all three leave a sound one (`sound_stages`): numbers, parents, children and the
index fit together, and the way up from every symbol of the tree ends at the root.
-/

namespace AmbientDecl

open SymbolTree

namespace Symbol

/-- The symbol with what its kind takes from all doclets. -/
def worked (s : Symbol) : Symbol :=
  if s.kind = .functionDecl then { s with signatures := s.doclets.map (Signature.read · s.kind) }
  else if s.kind = .classDecl then
    s.doclets.tail.foldl joinClass
      { s with
        signatures := if s.hideConstructor then [] else s.doclets.map (Signature.read · s.kind) }
  else if s.kind = .typedefDecl ∧ s.isCallback then
    { s with signatures := (s.doclets.filter Doclet.isCallback).map (Signature.read · s.kind) }
  else s

/-- The symbol without what all doclets together say about it. -/
def outline (s : Symbol) : Symbol :=
  { s with signatures := [], augments := [], implements := [], mixes := [], description := none }

/-- The first doclet queued on a symbol that documents another kind of thing. -/
def conflict? (s : Symbol) : Option Doclet :=
  s.doclets.tail.find? fun d => d.symbolKind != s.kind

variable {s s' : Symbol}

lemma outline_foldl_joinClass (ds : List Doclet) (s : Symbol) :
    (ds.foldl joinClass s).outline = s.outline := by
  induction ds generalizing s with
  | nil => rfl
  | cons d rest ih =>
    rw [List.foldl_cons, ih]
    unfold joinClass
    split <;> rfl

lemma outline_worked (s : Symbol) : s.worked.outline = s.outline := by
  unfold worked
  split
  · rfl
  · split
    · exact outline_foldl_joinClass _ _
    · split <;> rfl

end Symbol

lemma result_reportDuplicate (s : Symbol) : (reportDuplicate s).result = .ok () := by
  unfold reportDuplicate
  split <;> rfl

/-- **A doclet counts as the kind of symbol that is made of it.** -/
lemma Doclet.countedKind_eq (d : Doclet) : d.countedKind = d.symbolKind := by
  unfold Doclet.countedKind Doclet.symbolKind Doclet.kindName
  cases d.detail with
  | container isModule => cases isModule <;> rfl
  | _ => rfl

lemma result_checkKinds (s : Symbol) : (checkKinds s).result = match s.conflict? with
    | some d => .error (.fatal (conflictDiagnostic s d))
    | none => .ok () := by
  simp only [checkKinds, Doclet.countedKind_eq]
  rw [← Symbol.conflict?]
  cases s.conflict? <;> rfl

lemma result_mergeClass (s : Symbol) : (mergeClass s).result = .ok (s.doclets.tail.foldl joinClass
      { s with
        signatures := if s.hideConstructor then []
          else s.doclets.map (Signature.read · s.kind) }) := by
  unfold mergeClass
  split
  · rfl
  · exact Run.result_bind.mpr ⟨_, result_ofDoclets s.kind s.doclets, rfl⟩

lemma result_mergeCallback (s : Symbol) : (mergeCallback s).result = .ok { s with
      signatures := (s.doclets.filter Doclet.isCallback).map (Signature.read · s.kind) } := by
  refine Run.result_bind.mpr ⟨_, result_ofDoclets s.kind _, ?_⟩
  dsimp only
  split
  · exact Run.result_bind.mpr ⟨(), result_reportDuplicate s, rfl⟩
  · rfl

lemma result_mergeDoclets (s : Symbol) : (mergeDoclets s).result = .ok s.worked := by
  unfold mergeDoclets Symbol.worked
  split
  · exact Run.result_bind.mpr ⟨_, result_ofDoclets s.kind s.doclets, rfl⟩
  · split
    · exact result_mergeClass s
    · split
      · exact result_mergeCallback s
      · exact Run.result_bind.mpr ⟨(), result_reportDuplicate s, rfl⟩

lemma checkSignatures_worked {s : Symbol} (h : s.doclets ≠ []) :
    checkSignatures s.worked = pure () := by
  refine if_neg ?_
  rintro ⟨hkind, hempty⟩
  have hkept : s.worked.outline.kind = s.outline.kind := by rw [s.outline_worked]
  have hfunction : s.kind = .functionDecl := hkept.symm.trans hkind
  rw [Symbol.worked, if_pos hfunction] at hempty
  simp [h] at hempty

/-- **What merging makes of a symbol.** -/
lemma result_mergeSymbol (s : Symbol) : (mergeSymbol s).result = if s.doclets = [] then .ok s
    else match s.conflict? with
      | some d => .error (.fatal (conflictDiagnostic s d))
      | none => .ok s.worked := by
  rw [mergeSymbol]
  by_cases hdoclets : s.doclets = []
  · rw [if_pos hdoclets, if_pos (List.isEmpty_iff.mpr hdoclets)]
    rfl
  · rw [if_neg hdoclets, if_neg (by simpa using hdoclets)]
    have hkinds := result_checkKinds s
    cases hconflict : s.conflict? with
    | some d =>
      rw [hconflict] at hkinds
      exact Run.result_bind_error hkinds _
    | none =>
      rw [hconflict] at hkinds
      rw [Run.result_bind_ok hkinds, Run.result_bind_ok (result_mergeDoclets s),
        checkSignatures_worked hdoclets]
      rfl

/-- A symbol that is merged has its doclets worked in, if it has any. -/
lemma mergeSymbol_eq {s s' : Symbol} (h : (mergeSymbol s).result = .ok s') :
    s' = if s.doclets = [] then s else s.worked := by
  rw [result_mergeSymbol] at h
  split at h
  · rename_i hdoclets
    rw [if_pos hdoclets, Except.ok.inj h]
  · rename_i hdoclets
    rw [if_neg hdoclets]
    split at h
    · cases h
    · exact (Except.ok.inj h).symm

lemma outline_mergeSymbol {s s' : Symbol} (h : (mergeSymbol s).result = .ok s') :
    s'.outline = s.outline := by
  rw [mergeSymbol_eq h]
  split
  · rfl
  · exact s.outline_worked

lemma mergeSymbol_keeps {s s' : Symbol} (h : (mergeSymbol s).result = .ok s') :
    s'.longname = s.longname ∧ s'.kind = s.kind := by
  have hlongname : s'.outline.longname = s.outline.longname := by rw [outline_mergeSymbol h]
  have hkind : s'.outline.kind = s.outline.kind := by rw [outline_mergeSymbol h]
  exact ⟨hlongname, hkind⟩

/-- Merging keeps the doclets of a symbol, and the type that the first of them gave it. -/
lemma mergeSymbol_keepsDoclets {s s' : Symbol} (h : (mergeSymbol s).result = .ok s') :
    s'.doclets = s.doclets ∧ s'.type = s.type := by
  have hdoclets : s'.outline.doclets = s.outline.doclets := by rw [outline_mergeSymbol h]
  have htype : s'.outline.type = s.outline.type := by rw [outline_mergeSymbol h]
  exact ⟨hdoclets, htype⟩

namespace SymbolTree

variable {f : Symbol → Run Symbol} {g : Symbol → Symbol}

/-- What a traversal does to each child. -/
lemma forall₂_traverseAll {R : SymbolTree → SymbolTree → Prop} {cs cs' : List SymbolTree}
    (hcs : ∀ c ∈ cs, ∀ c', (traverse f c).result = .ok c' → R c c')
    (h : (traverseAll f cs).result = .ok cs') : List.Forall₂ R cs cs' := by
  induction cs generalizing cs' with
  | nil =>
    rw [traverseAll, Run.result_pure] at h
    exact h ▸ .nil
  | cons c rest ih =>
    simp only [traverseAll, Run.result_bind, Run.result_pure] at h
    obtain ⟨c', hc', rest', hrest', rfl⟩ := h
    obtain ⟨hc, hrest⟩ := List.forall_mem_cons.mp hcs
    exact .cons (hc c' hc') (ih hrest hrest')

lemma forall₂_walk {R : SymbolTree → SymbolTree → Prop} {cs cs' : List SymbolTree}
    (h : List.Forall₂ (fun c c' => List.Forall₂ R c.walk c'.walk) cs cs') :
    List.Forall₂ R (cs.flatMap walk) (cs'.flatMap walk) :=
  List.rel_flatMap h fun _ _ hwalk => hwalk

/-- **A traversal changes the symbols of a tree one by one.** -/
lemma forall₂_traverse {t t' : SymbolTree} (h : (traverse f t).result = .ok t') :
    List.Forall₂ (fun u u' => (f u.symbol).result = .ok u'.symbol) t.walk t'.walk := by
  induction t using induct generalizing t' with
  | node i s cs ih =>
    simp only [traverse, Run.result_bind, Run.result_pure] at h
    obtain ⟨s', hs', cs', hcs', rfl⟩ := h
    rw [walk_node, walk_node]
    exact .cons hs' (forall₂_walk (forall₂_traverseAll (fun c hc c' => ih c hc) hcs'))

lemma map_mapSymbols {cs cs' : List SymbolTree}
    (h : List.Forall₂ (fun c c' => c'.mapSymbols g = c.mapSymbols g) cs cs') :
    cs'.map (mapSymbols g) = cs.map (mapSymbols g) := by
  rw [← List.forall₂_eq_eq_eq, List.forall₂_map_left_iff, List.forall₂_map_right_iff]
  exact h.flip

/-- What a traversal keeps of every symbol it keeps of the tree. -/
lemma mapSymbols_traverse (hf : ∀ s s', (f s).result = .ok s' → g s' = g s) {t t' : SymbolTree}
    (h : (traverse f t).result = .ok t') : t'.mapSymbols g = t.mapSymbols g := by
  induction t using induct generalizing t' with
  | node i s cs ih =>
    simp only [traverse, Run.result_bind, Run.result_pure] at h
    obtain ⟨s', hs', cs', hcs', rfl⟩ := h
    rw [mapSymbols_node, mapSymbols_node, hf s s' hs',
      map_mapSymbols (forall₂_traverseAll (fun c hc c' => ih c hc) hcs')]

end SymbolTree

lemma result_mergeOverloads {f g : Forest} : (mergeOverloads f).result = .ok g ↔
    ∃ cs, (SymbolTree.traverseAll mergeSymbol f.root.children).result = .ok cs ∧
      g = { f with root := .node f.root.id f.root.symbol cs } := by
  simp only [mergeOverloads, Run.result_bind, Run.result_reach, Run.result_pure]
  constructor
  · rintro ⟨cs, hcs, _, _, rfl⟩
    exact ⟨cs, hcs, rfl⟩
  · rintro ⟨cs, hcs, rfl⟩
    exact ⟨cs, hcs, (), trivial, rfl⟩

/-- **Merging keeps the outline of the tree.** -/
lemma outline_mergeOverloads {f g : Forest} (h : (mergeOverloads f).result = .ok g) :
    g.root.mapSymbols Symbol.outline = f.root.mapSymbols Symbol.outline := by
  obtain ⟨cs, hcs, rfl⟩ := result_mergeOverloads.mp h
  have hkids := map_mapSymbols
    (forall₂_traverseAll (fun c _ c' => mapSymbols_traverse fun s s' => outline_mergeSymbol) hcs)
  cases hroot : f.root with
  | node i s children =>
    rw [hroot, children_node] at hkids
    rw [mapSymbols_node, mapSymbols_node, hkids]
    rfl

/-- Merging changes the symbols of a forest one by one. -/
lemma forall₂_mergeOverloads {f g : Forest} (h : (mergeOverloads f).result = .ok g) :
    List.Forall₂ (fun t t' => (mergeSymbol t.symbol).result = .ok t'.symbol) f.nodes g.nodes := by
  obtain ⟨cs, hcs, rfl⟩ := result_mergeOverloads.mp h
  rw [Forest.nodes, Forest.nodes, nodes_eq, nodes_eq]
  exact forall₂_walk (forall₂_traverseAll (fun c _ c' => forall₂_traverse) hcs)

lemma entries_mergeOverloads {f g : Forest} (h : (mergeOverloads f).result = .ok g) :
    g.root.entries = f.root.entries := by
  have hkept := entries_mapSymbols (g := Symbol.outline) fun _ => rfl
  rw [← hkept g.root, outline_mergeOverloads h, hkept]

/-- **Merging extends a forest**, by nothing. -/
lemma extends_mergeOverloads {f g : Forest} (h : (mergeOverloads f).result = .ok g) :
    f.Extends g := by
  have hentries := entries_mergeOverloads h
  obtain ⟨cs, hcs, rfl⟩ := result_mergeOverloads.mp h
  refine ⟨⟨rfl, rfl⟩, rfl, fun _ _ hid => hid, [], ?_, rfl, rfl, by simp⟩
  rw [hentries, List.append_nil]

variable {filter : Option DocletFilter} {doclets : List Doclet} {built merged expanded : Forest}

lemma consistent_buildForest (h : (buildForest filter doclets).result = .ok built) :
    built.Consistent := by
  obtain ⟨c, hc, _, rfl⟩ := result_buildForest.mp h
  exact Planting.consistent_forest (tidy_of_census hc)

lemma consistent_mergeOverloads (hf : built.Consistent)
    (h : (mergeOverloads built).result = .ok merged) : merged.Consistent :=
  (extends_mergeOverloads h).consistent hf

lemma consistent_expandForest (hf : merged.Consistent)
    (h : (expandForest merged).result = .ok expanded) : expanded.Consistent :=
  (extends_expandForest hf.root_symbol h).consistent hf

/-- The stages that end in the finished forest. -/
lemma result_symbolForest : (symbolForest filter doclets).result = .ok expanded ↔
    ∃ built, (buildForest filter doclets).result = .ok built ∧
      ∃ merged, (mergeOverloads built).result = .ok merged ∧
        (expandForest merged).result = .ok expanded := by
  simp only [symbolForest, Run.result_bind]

lemma consistent_symbolForest (h : (symbolForest filter doclets).result = .ok expanded) :
    expanded.Consistent := by
  obtain ⟨built, hbuilt, merged, hmerged, hexpanded⟩ := result_symbolForest.mp h
  have hconsistent := consistent_mergeOverloads (consistent_buildForest hbuilt) hmerged
  exact consistent_expandForest hconsistent hexpanded

/-- **Every stage leaves a sound forest.** -/
theorem sound_stages (h : (buildForest filter doclets).result = .ok built) :
    built.Sound ∧ ∀ merged, (mergeOverloads built).result = .ok merged →
      merged.Sound ∧ ∀ expanded, (expandForest merged).result = .ok expanded → expanded.Sound := by
  have hbuilt := consistent_buildForest h
  refine ⟨hbuilt.sound, ?_⟩
  intro merged hmerge
  have hmerged := consistent_mergeOverloads hbuilt hmerge
  refine ⟨hmerged.sound, ?_⟩
  intro expanded hexpand
  exact (consistent_expandForest hmerged hexpand).sound

/-- An orphan with a described property, and an enumeration with a member, which is folded. -/
def strayAndOrphan : List Doclet :=
  [.bare "A.f" (some "A") (.callable [.bare "o", .bare "o.x"] []),
   .bare "E" none (.value true none true),
   .bare "E.X" (some "E") (.value true none false)]

theorem sound_stages_strayAndOrphan : ∃ built merged expanded,
    (buildForest none strayAndOrphan).result = .ok built ∧
      (mergeOverloads built).result = .ok merged ∧ (expandForest merged).result = .ok expanded ∧
          (built.Sound ∧ merged.Sound ∧ expanded.Sound) ∧
            expanded.root.entries = [("", 0), ("E", 2), ("A", 4), ("A.f", 1), ("A.f_o", 5)] ∧
              expanded.strays.map Stray.id = [3] := by
  have hrun : ((symbolForest none strayAndOrphan).result.toOption.map fun f =>
      (f.root.entries, f.strays.map Stray.id)) =
        some ([("", 0), ("E", 2), ("A", 4), ("A.f", 1), ("A.f_o", 5)], [3]) := by
    decide +kernel
  obtain ⟨expanded, hok, heq⟩ := Run.toOption_map.mp hrun
  obtain ⟨hentries, hstrays⟩ := Prod.mk.inj heq
  obtain ⟨built, hbuilt, merged, hmerged, hexpanded⟩ :=
    result_symbolForest.mp hok
  obtain ⟨hsound, hrest⟩ := sound_stages hbuilt
  obtain ⟨hsound', hrest'⟩ := hrest merged hmerged
  exact ⟨built, merged, expanded, hbuilt, hmerged, hexpanded,
    ⟨hsound, hsound', hrest' expanded hexpanded⟩, hentries, hstrays⟩

end AmbientDecl

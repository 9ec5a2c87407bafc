import AmbientDecl.Proofs.Forest.Stages
import AmbientDecl.Proofs.Longname

/-!
# Where the symbols of a forest come from

Every symbol of a finished forest goes back to the doclets of one longname, or was made up on the
way. The predicates here follow a symbol through the stages.

**Stages.** `Symbol.Entered` is a symbol of the census: its first doclet made it, the others were
queued. `Symbol.Built` is a symbol of the forest that is built, which may also be a namespace made
up for a missing parent. `Symbol.Merged` has its doclets worked in, and `Symbol.Finished` its
described properties expanded; typedefs made up for these are finished as well.

**Runs.** `built_of_buildForest`, `merged_of_mergeOverloads` and `finished_of_symbolForest` say this
of every symbol of the three forests.

**What all stages keep.** `Symbol.Attested`: the doclets of a symbol have its longname, and one
without doclets has a longname that is not empty.
-/

namespace AmbientDecl

open Text List SymbolTree

variable {doclets : List Doclet} {t : SymbolTree} {cs cs' : List SymbolTree} {g : Forest}
  {container : String}

namespace Symbol

/-- A symbol as the census has it. -/
def Entered (s : Symbol) : Prop :=
  ∃ d rest base, (ofDoclet d).result = .ok base ∧ Census.isMute d = false ∧
    (∀ r ∈ rest, r.longname = d.longname) ∧ s = { base with doclets := d :: rest }

/-- A namespace for a parent that is missing. -/
def MadeUp (s : Symbol) : Prop :=
  ∃ name longname, longname ≠ "" ∧
    s = { Symbol.bare .namespaceDecl name longname with synthesized := true }

/-- A symbol of the forest that is built: what the planting and the folding of enumerations note on
it does not change where it comes from. -/
def Built (s : Symbol) : Prop :=
  ∃ seed values missing, (Entered seed ∨ MadeUp seed) ∧
    s = { seed with enumValues := values, unresolvedParent := missing }

/-- A symbol with its doclets worked in. -/
def Merged (s : Symbol) : Prop :=
  ∃ built, Built built ∧ (mergeSymbol built).result = .ok s

/-- A symbol as the last stage leaves it. -/
def Finished (s : Symbol) : Prop :=
  (∃ merged container e e', Merged merged ∧ Expander.Gives (expandSymbol container merged) e s e') ∨
    ∃ container name record, longnameIn container name ≠ "" ∧
      s = synthesizedTypedef container name record

/-- The doclets of a symbol are about it, and one without doclets is a namespace or a typedef that
has a longname. -/
structure Attested (s : Symbol) : Prop where
  own : ∀ d ∈ s.doclets, d.longname = s.longname
  below : s.kind ≠ .root
  bare : s.doclets = [] → s.longname ≠ "" ∧ (s.kind = .namespaceDecl ∨ s.kind = .typedefDecl)

variable {s s' : Symbol}

lemma Entered.built (h : Entered s) : Built s := ⟨s, _, _, Or.inl h, rfl⟩

lemma MadeUp.built (h : MadeUp s) : Built s := ⟨s, _, _, Or.inr h, rfl⟩

lemma Built.withMissing (h : Built s) (missing : Option String) :
    Built { s with unresolvedParent := missing } := by
  obtain ⟨seed, values, _, hseed, rfl⟩ := h
  exact ⟨seed, values, missing, hseed, rfl⟩

lemma Built.withValues (h : Built s) (values : List EnumValue) :
    Built { s with enumValues := values } := by
  obtain ⟨seed, _, missing, hseed, rfl⟩ := h
  exact ⟨seed, values, missing, hseed, rfl⟩

/-- A doclet that takes part documents a symbol below the root. -/
lemma symbolKind_ne_root {d : Doclet} (h : Census.isMute d = false) : d.symbolKind ≠ .root := by
  simp only [Census.isMute, Doclet.isPackage, Doclet.isFile, Bool.or_eq_false_iff] at h
  unfold Doclet.symbolKind
  cases hd : d.detail <;> simp_all <;> split <;> simp

lemma Entered.attested (h : Entered s) : Attested s := by
  obtain ⟨d, rest, base, hbase, hloud, hsame, rfl⟩ := h
  obtain ⟨hlongname, hkind⟩ := ofDoclet_keeps hbase
  refine ⟨?_, ?_, ?_⟩
  · intro r hr
    rcases mem_cons.mp hr with rfl | hr
    · exact hlongname.symm
    · exact (hsame r hr).trans hlongname.symm
  · exact hkind ▸ symbolKind_ne_root hloud
  · simp

lemma Built.attested (h : Built s) : Attested s := by
  obtain ⟨seed, values, missing, hseed, rfl⟩ := h
  rcases hseed with hseed | ⟨name, longname, hne, rfl⟩
  · exact ⟨hseed.attested.own, hseed.attested.below, hseed.attested.bare⟩
  · exact ⟨by simp [Symbol.bare], by simp [Symbol.bare], fun _ => ⟨hne, Or.inl rfl⟩⟩

/-- What changes neither doclets, longname nor kind leaves a symbol attested. -/
lemma Attested.of_eq (h : Attested s) (hdoclets : s'.doclets = s.doclets)
    (hlongname : s'.longname = s.longname) (hkind : s'.kind = s.kind) : Attested s' := by
  refine ⟨?_, ?_, ?_⟩
  · rw [hdoclets, hlongname]
    exact h.own
  · rw [hkind]
    exact h.below
  · rw [hdoclets, hlongname, hkind]
    exact h.bare

end Symbol

namespace Census

variable {filter : Option DocletFilter} {c c' : Census} {d : Doclet}

lemma entered_queue {symbols : List Symbol} (h : ∀ s ∈ symbols, s.Entered) :
    ∀ s ∈ queue d symbols, s.Entered := by
  intro s' hs'
  obtain ⟨s, hs, rfl⟩ := mem_map.mp hs'
  split
  · rename_i hlongname
    obtain ⟨first, rest, base, hbase, hloud, hsame, rfl⟩ := h s hs
    refine ⟨first, rest ++ [d], base, hbase, hloud, ?_, rfl⟩
    intro r hr
    rcases mem_append.mp hr with hr | hr
    · exact hsame r hr
    · rw [mem_singleton.mp hr, ← hlongname]
      exact (Symbol.ofDoclet_keeps hbase).1
  · exact h s hs

lemma entered_add (hc : ∀ s ∈ c.symbols, s.Entered) (h : (c.add filter d).result = .ok c') :
    ∀ s ∈ c'.symbols, s.Entered := by
  rcases add_cases h with ⟨_, rfl⟩ | ⟨_, _, rfl⟩ | ⟨_, _, _, rfl⟩ | ⟨_, _, _, rfl⟩ |
    ⟨_, hloud, _, base, hbase, rfl⟩
  · exact hc
  · exact hc
  · exact hc
  · exact entered_queue hc
  · intro s hs
    rcases mem_append.mp hs with hs | hs
    · exact hc s hs
    · rw [mem_singleton.mp hs]
      exact ⟨d, [], base, hbase, hloud, by simp, rfl⟩

lemma entered_ofDoclets (h : (ofDoclets filter doclets).result = .ok c) :
    ∀ s ∈ c.symbols, s.Entered :=
  ofDoclets_induct (P := fun _ c => ∀ s ∈ c.symbols, s.Entered) (by simp [empty])
    (fun _ => entered_add) h

end Census

namespace Longname

/-- The longname of some steps of a longname is not empty. -/
lemma join_take_ne_empty {longname : String} {k : Nat} (hk : k < (split longname).length) :
    join ((split longname).take (k + 1)) ≠ "" := by
  intro h
  have hsplit := split_join_take longname (k + 1)
  rw [h] at hsplit
  have hlen := congrArg List.length hsplit
  rw [show split "" = [] from rfl, length_take, length_nil] at hlen
  omega

end Longname

namespace Planting

variable {p : Planting}

/-- A property that the namespaces for missing parents have and that a note about a missing parent
does not change. -/
structure Lasting (P : Symbol → Prop) : Prop where
  made : ∀ {s : Symbol}, s.MadeUp → P s
  missing : ∀ {s : Symbol} (parent : Option String), P s → P { s with unresolvedParent := parent }

variable {P : Symbol → Prop}

lemma all_descend (hP : Lasting P) :
    ∀ (steps : List (String × String)) {p : Planting} {anchor : Nat},
    (∀ step ∈ steps, step.1 ≠ "") → (∀ s ∈ p.symbols, P s) →
      ∀ s ∈ (descend p anchor steps).1.symbols, P s := by
  intro steps
  induction steps with
  | nil => intro p anchor _ hp; exact hp
  | cons step rest ih =>
    obtain ⟨longname, name⟩ := step
    intro p anchor hsteps hp
    have hrest : ∀ step ∈ rest, step.1 ≠ "" := fun s hs => hsteps s (mem_cons_of_mem _ hs)
    cases hid : p.idOf? longname with
    | some id =>
      simp only [descend, hid]
      exact ih hrest hp
    | none =>
      simp only [descend, hid]
      refine ih hrest ?_
      intro s hs
      rcases mem_append.mp hs with hs | hs
      · exact hp s hs
      · rw [mem_singleton.mp hs]
        exact hP.made ⟨name, longname, hsteps _ mem_cons_self, rfl⟩

lemma all_attach (hP : Lasting P) {o : Orphan} (hp : ∀ s ∈ p.symbols, P s) :
    ∀ s ∈ (p.attach o).symbols, P s := by
  have hhome : ∀ s ∈ (homeOf p o.memberof).1.symbols, P s := by
    simp only [homeOf]
    split
    · refine all_descend hP _ ?_ hp
      intro step hstep
      simp only [missingSteps, mem_map, Prod.exists] at hstep
      obtain ⟨step', i, hmem, rfl⟩ := hstep
      have hi := (mem_zipIdx' (mem_of_mem_drop hmem)).1
      exact Longname.join_take_ne_empty hi
    · exact hp
  intro s hs
  obtain ⟨i, hi⟩ := mem_iff_getElem?.mp hs
  simp only [attach, link, modifyAt, getElem?_modify] at hi
  obtain ⟨old, hold, rfl⟩ := Option.map_eq_some_iff.mp hi
  have hkept := hhome old (mem_of_getElem? hold)
  split
  · exact hP.missing _ hkept
  · exact hkept

lemma all_attachAll (hP : Lasting P) : ∀ {os : List Orphan} {p : Planting}, (∀ s ∈ p.symbols, P s) →
    ∀ s ∈ (os.foldl attach p).symbols, P s := by
  intro os
  induction os with
  | nil => intro p hp; exact hp
  | cons o rest ih => intro p hp; exact ih (all_attach hP hp)

lemma lasting_built : Lasting Symbol.Built where
  made := Symbol.MadeUp.built
  missing := fun parent h => h.withMissing parent

/-- A symbol of the tree that is left is one of the planting, up to the values of an enumeration. -/
lemma symbol_of_mem_forest (hp : Tidy p) (ht : t ∈ p.forest.nodes) :
    ∃ s ∈ p.symbols, ∃ values, t.symbol = { s with enumValues := values } := by
  have hid := (p.lookup_index t.longname).symm.trans (idOf?_of_mem_forest hp ht)
  obtain ⟨hpos, hle, _⟩ := idOf?_eq_some hid
  have hwalk := mem_walk_of_mem_nodes ht
  obtain ⟨u, hu, rfl⟩ := mem_walk_absorb hwalk
  obtain ⟨values, hvalues⟩ := u.symbol_absorb
  rw [id_absorb] at hpos hle
  obtain ⟨i, hi⟩ := Nat.exists_eq_succ_of_ne_zero (Nat.pos_iff_ne_zero.mp hpos)
  have hlt : i < p.symbols.length := by omega
  have hsymbol : u.symbol = p.symbols.get ⟨i, hlt⟩ := by
    rw [(children_of_mem_tree hp hu).1, hi, symbolAt, getElem?_eq_getElem hlt]
    rfl
  exact ⟨_, get_mem p.symbols ⟨i, hlt⟩, values, hsymbol ▸ hvalues⟩

end Planting

/-- **The symbols of the forest that is built.** -/
lemma built_of_buildForest {filter : Option DocletFilter} {f : Forest}
    (h : (buildForest filter doclets).result = .ok f) : ∀ t ∈ f.nodes, t.symbol.Built := by
  obtain ⟨c, hc, _, rfl⟩ := result_buildForest.mp h
  have hsymbols : ∀ s ∈ c.planting.symbols, s.Built :=
    Planting.all_attachAll Planting.lasting_built fun s hs =>
      (Census.entered_ofDoclets hc s hs).built
  intro t ht
  obtain ⟨s, hs, values, heq⟩ := Planting.symbol_of_mem_forest (tidy_of_census hc) ht
  rw [heq]
  exact (hsymbols s hs).withValues values

/-- Every symbol of the merged forest was made of one of the forest before. -/
lemma mem_mergeOverloads {f : Forest} (h : (mergeOverloads f).result = .ok g) :
    ∀ t' ∈ g.nodes, ∃ t ∈ f.nodes, (mergeSymbol t.symbol).result = .ok t'.symbol := by
  intro t' ht'
  obtain ⟨i, hi, rfl⟩ := mem_iff_getElem.mp ht'
  have hsame := forall₂_mergeOverloads h
  have hlt : i < f.nodes.length := hsame.length_eq ▸ hi
  exact ⟨f.nodes[i], getElem_mem hlt, hsame.get hlt hi⟩

/-- **The symbols of the merged forest.** -/
lemma merged_of_mergeOverloads {f : Forest} (hf : ∀ t ∈ f.nodes, t.symbol.Built)
    (h : (mergeOverloads f).result = .ok g) : ∀ t ∈ g.nodes, t.symbol.Merged := by
  intro t' ht'
  obtain ⟨t, ht, hmerge⟩ := mem_mergeOverloads h t' ht'
  exact ⟨t.symbol, hf t ht, hmerge⟩

lemma Symbol.Merged.attested {s : Symbol} (h : s.Merged) : s.Attested := by
  obtain ⟨built, hbuilt, hmerge⟩ := h
  obtain ⟨hlongname, hkind⟩ := mergeSymbol_keeps hmerge
  exact hbuilt.attested.of_eq (mergeSymbol_keepsDoclets hmerge).1 hlongname hkind

section Expansion

open Expander

variable {e e' : Expansion} {P Q : Symbol → Prop}

/-- All symbols of a tree have a property. -/
def SymbolTree.All (P : Symbol → Prop) (t : SymbolTree) : Prop := ∀ s ∈ t.walk, P s.symbol

/-- Expansion makes symbols with `P` of symbols with `Q`, and the typedefs that it makes up have
`P`. -/
structure ExpandsTo (Q P : Symbol → Prop) : Prop where
  step : ∀ {s container e s' e'}, Q s → Gives (expandSymbol container s) e s' e' → P s'
  made : ∀ {container name record}, longnameIn container name ≠ "" →
    P (synthesizedTypedef container name record)

lemma typedefName_ne_empty (e : Expansion) (container : String) (owner : Symbol) (root : String) :
    typedefName e container owner root ≠ "" := by
  have hcandidate : ∀ n, numberedFrom 2 (toIdentifier owner.name ++ "_" ++ toIdentifier root) n
      ≠ "" := by
    intro n h
    cases n <;> simp [numberedFrom] at h
  unfold typedefName firstFree
  split
  · exact hcandidate _
  · exact hcandidate _

lemma longnameIn_ne_empty {name : String} (h : name ≠ "") : longnameIn container name ≠ "" := by
  unfold longnameIn
  split
  · exact h
  · simp

/-- What waits has a property, before a step and after it. -/
def Expander.Keeps {α : Type} (P : Symbol → Prop) (x : Expander α) : Prop :=
  ∀ e a e', Gives x e a e' → (∀ t ∈ e.pending, t.All P) → ∀ t ∈ e'.pending, t.All P

lemma keeps_mapM {α β : Type} {f : α → Expander β} (hf : ∀ a, Keeps P (f a)) (l : List α) :
    Keeps P (l.mapM f) := by
  induction l with
  | nil =>
    intro e bs e' h hwait
    rw [mapM_nil, gives_pure] at h
    exact h.2 ▸ hwait
  | cons a rest ih =>
    intro e bs e' h hwait
    simp only [mapM_cons, gives_bind, gives_pure] at h
    obtain ⟨b, e₁, ha, bs', e₂, hrest, _, rfl⟩ := h
    exact ih e₁ bs' e₂ hrest (hf a e b e₁ ha hwait)

lemma keeps_synthesize (hP : ExpandsTo Q P) (container : String) (owner : Symbol) (root : String)
    (record : TypeNode) : Keeps P (synthesize container owner root record) := by
  intro e longname e' h hwait
  simp only [synthesize, gives_bind, gives_get, gives_set, gives_pure] at h
  obtain ⟨_, _, ⟨rfl, rfl⟩, _, _, rfl, rfl, rfl⟩ := h
  intro t ht
  rcases mem_append.mp ht with ht | ht
  · exact hwait t ht
  · rw [mem_singleton.mp ht]
    intro s hs
    rw [walk_node, flatMap_nil, mem_singleton] at hs
    rw [hs]
    exact hP.made (longnameIn_ne_empty (typedefName_ne_empty e container owner root))

lemma keeps_expandSymbol (hP : ExpandsTo Q P) (container : String) (s : Symbol) :
    Keeps P (expandSymbol container s) := by
  intro e s' e' h hwait
  simp only [expandSymbol, gives_bind, gives_pure, gives_lift] at h
  obtain ⟨s₁, _, ⟨_, rfl⟩, signatures, e₁, hsignatures, rfl, rfl⟩ := h
  refine keeps_mapM ?_ s₁.signatures e signatures e₁ hsignatures hwait
  intro signature e sig' e' h hwait
  rw [expandSignature, gives_attempt_bind] at h
  simp only [gives_bind, gives_pure] at h
  obtain ⟨groups, e₁, hgroups, _, rfl⟩ := h
  refine keeps_mapM ?_ _ e groups e₁ hgroups hwait
  intro group e r e' h hwait
  simp only [expandGroup, gives_bind, gives_pure] at h
  obtain ⟨typedef, e₁, hmade, _, rfl⟩ := h
  exact keeps_synthesize hP container s₁ group.1 _ e typedef e₁ hmade hwait

/-- Trees of symbols with `Q` come to trees of symbols with `P`, if what waits has `P`. -/
def Leaves (Q P : Symbol → Prop) (ts ts' : List SymbolTree) (e e' : Expansion) : Prop :=
  (∀ t ∈ ts, t.All Q) → (∀ t ∈ e.pending, t.All P) →
    (∀ t ∈ ts', t.All P) ∧ ∀ t ∈ e'.pending, t.All P

lemma all_node {i : Nat} {s : Symbol} :
    (SymbolTree.node i s cs).All P ↔ P s ∧ ∀ c ∈ cs, c.All P := by
  rw [SymbolTree.All, walk_node, forall_mem_cons, forall_mem_flatMap]
  rfl

/-- **What holds of every symbol that is expanded or made up holds of every symbol that is
left.** -/
lemma walkStep_leaves (hP : ExpandsTo Q P) : WalkStep (Leaves Q P) where
  nil _ _ hwait := ⟨by simp, hwait⟩
  append h h' hall hwait := by
    obtain ⟨hts, hus⟩ := forall_mem_append.mp hall
    obtain ⟨hts', hwait⟩ := h hts hwait
    obtain ⟨hus', hwait⟩ := h' hus hwait
    exact ⟨forall_mem_append.mpr ⟨hts', hus'⟩, hwait⟩
  place _ _ hwait := ⟨hwait, by simp⟩
  node hs hkids hall hwait := by
    rw [forall_mem_singleton, all_node] at hall ⊢
    obtain ⟨hchildren, hdone⟩ := hkids hall.2 (keeps_expandSymbol hP _ _ _ _ _ hs hwait)
    exact ⟨⟨hP.step hall.1 hs, hchildren⟩, hdone⟩
  outside h _ hall hwait := ⟨(h hall (by simp)).1, hwait⟩

lemma expandsTo_finished : ExpandsTo Symbol.Merged Symbol.Finished where
  step := fun hs h => Or.inl ⟨_, _, _, _, hs, h⟩
  made := fun hne => Or.inr ⟨_, _, _, hne, rfl⟩

/-- **The symbols of the expanded forest.** -/
lemma finished_of_expandForest {f : Forest} (hf : ∀ t ∈ f.nodes, t.symbol.Merged)
    (h : (expandForest f).result = .ok g) : ∀ t ∈ g.nodes, t.symbol.Finished := by
  obtain ⟨t', e, ht, rfl⟩ := result_expandForest.mp h
  cases hroot : f.root with
  | node i s cs =>
    rw [hroot] at ht
    obtain ⟨s', e₁, cs', hs, rfl, hkids⟩ := expandTree_cases ht
    have hall : ∀ c ∈ cs, c.All Symbol.Merged := by
      rw [Forest.nodes, nodes_eq, hroot] at hf
      exact forall_mem_flatMap.mp hf
    have hwait := keeps_expandSymbol expandsTo_finished _ s _ s' e₁ hs (by simp)
    have hstep := walkStep_leaves expandsTo_finished
    have hkids := hstep.children (fun _ _ _ _ _ _ => hstep.tree) hkids
    have hchildren := (hkids hall hwait).1
    intro u hu
    rw [Forest.nodes, nodes_eq] at hu
    obtain ⟨c, hc, hu⟩ := mem_flatMap.mp hu
    exact hchildren c hc u hu

end Expansion

lemma doclets_expandSymbol {s s' : Symbol} {e e' : Expansion}
    (h : Expander.Gives (expandSymbol container s) e s' e') : s'.doclets = s.doclets := by
  obtain ⟨type, signatures, rfl⟩ := expandSymbol_keeps h
  rfl

lemma Symbol.Finished.attested {s : Symbol} (h : s.Finished) : s.Attested := by
  rcases h with ⟨merged, container, e, e', hmerged, hexpand⟩ | ⟨container, name, record, hne, rfl⟩
  · obtain ⟨⟨hlongname, hkind⟩, _⟩ := moves_expandSymbol hexpand
    exact hmerged.attested.of_eq (doclets_expandSymbol hexpand) hlongname hkind
  · exact ⟨by simp [synthesizedTypedef, Symbol.bare], by simp [synthesizedTypedef, Symbol.bare],
      fun _ => ⟨hne, Or.inr rfl⟩⟩

/-- **The symbols of a finished forest.** -/
lemma finished_of_symbolForest {filter : Option DocletFilter} {f : Forest}
    (h : (symbolForest filter doclets).result = .ok f) : ∀ t ∈ f.nodes, t.symbol.Finished := by
  obtain ⟨built, hbuilt, merged, hmerged, hexpanded⟩ := result_symbolForest.mp h
  exact finished_of_expandForest
    (merged_of_mergeOverloads (built_of_buildForest hbuilt) hmerged) hexpanded

end AmbientDecl

import AmbientDecl.Proofs.Forest.Chain

/-!
# Where symbols are placed

A symbol that is documented goes where the first of its doclets says, and the doclets alone tell
where that is.

**Left out.** `LeadsOut` follows the parents that first doclets name up to a longname that was
rejected and has no symbol. The symbols from which this is possible are left out, and no others
(`Census.isDropped_iff_leadsOut`).

**Placed.** The other symbols whose parent exists are linked in the order of their first doclets,
before any orphan (`Census.placementOf_cases`, `Census.pairwise_linked_resolved`).

**Left after folding.** `Forest.Holds` is a symbol of the forest with its children, in the tree or
not. In the forest of a planting it is what folding the members of enumerations leaves
(`Planting.holds_forest`).
-/

namespace AmbientDecl

open List SymbolTree Planting Census

variable {id i : Nat}

/-- The forest has this symbol under a number, with children of these numbers, in the tree or as a
stray. -/
def Forest.Holds (f : Forest) (id : Nat) (s : Symbol) (children : List Nat) : Prop :=
  (∃ t ∈ f.root.walk, t.id = id ∧ t.symbol = s ∧ t.children.map SymbolTree.id = children) ∨
    ∃ t ∈ f.strays, t.id = id ∧ t.symbol = s ∧ t.children = children

lemma mem_addMemberValues {v : EnumValue} {values : List EnumValue} (hv : v ∈ values)
    (members : List Symbol) : v ∈ addMemberValues values members := by
  induction members generalizing values with
  | nil => exact hv
  | cons s rest ih =>
    rw [addMemberValues]
    split
    · exact ih hv
    · exact ih (mem_append_left _ hv)

/-- Every member is among the values by its name. -/
lemma exists_value_of_mem {s : Symbol} {members : List Symbol} (hs : s ∈ members)
    (values : List EnumValue) : ∃ v ∈ addMemberValues values members, v.name = s.name := by
  induction members generalizing values with
  | nil => simp at hs
  | cons t rest ih =>
    rw [addMemberValues]
    rcases mem_cons.mp hs with rfl | hs
    · split
      · rename_i hany
        obtain ⟨v, hv, hname⟩ := any_eq_true.mp hany
        exact ⟨v, mem_addMemberValues hv rest, by simpa using hname⟩
      · exact ⟨enumValueOfMember s, mem_addMemberValues (by simp) rest, rfl⟩
    · split
      · exact ih hs _
      · exact ih hs _

namespace SymbolTree

variable {t : SymbolTree}

lemma symbol_absorb_of_ne (h : t.kind ≠ .enumDecl) : (absorbEnumMembers t).symbol = t.symbol := by
  cases t with
  | node i s cs =>
    have hkind : ¬ s.kind = .enumDecl := h
    rw [absorbEnumMembers, if_neg hkind]
    rfl

lemma symbol_absorb_enum (h : t.kind = .enumDecl) : (absorbEnumMembers t).symbol = { t.symbol with
      enumValues := addMemberValues t.symbol.enumValues
        ((t.children.filter fun c => c.kind = .memberDecl).map symbol) } := by
  cases t with
  | node i s cs =>
    have hkind : s.kind = .enumDecl := h
    have hmembers : ((absorbAll cs).filter fun c => c.kind = .memberDecl).map symbol =
        (cs.filter fun c => c.kind = .memberDecl).map symbol := by
      rw [absorbAll_eq, filter_map, map_map]
      have hsame : ((fun c : SymbolTree => decide (c.kind = .memberDecl)) ∘ absorbEnumMembers) =
          fun c => decide (c.kind = .memberDecl) := by
        funext c
        simp
      rw [hsame]
      refine map_congr_left fun c hc => symbol_absorb_of_ne ?_
      have hmember : c.kind = .memberDecl := by simpa using (mem_filter.mp hc).2
      simp [hmember]
    rw [absorbEnumMembers, if_pos hkind]
    simp only [hmembers]
    rfl

end SymbolTree

namespace Planting

variable {p : Planting}

/-- In the tree, folding leaves a symbol as `symbolLeft` has it. -/
lemma symbol_absorb_tree (hp : Tidy p) {t : SymbolTree} (ht : t ∈ p.tree.walk) :
    (absorbEnumMembers t).symbol = symbolLeft p t.id := by
  obtain ⟨hsymbol, hchildren⟩ := children_of_mem_tree hp ht
  have hid : t.id ∈ p.tree.ids := SymbolTree.mem_ids.mpr ⟨t, ht, rfl⟩
  have hmembers : (t.children.filter fun c => c.kind = .memberDecl).map symbol =
      ((p.childrenOf t.id).filter fun c => (p.symbolAt c).kind = .memberDecl).map p.symbolAt := by
    rw [← hchildren, filter_map, map_map]
    have hchild : ∀ c ∈ t.children, c.symbol = p.symbolAt c.id :=
      fun c hc => (children_of_mem_tree hp (mem_walk_of_child ht hc)).1
    have hfilter : (t.children.filter fun c => c.kind = .memberDecl) = t.children.filter
        ((fun c => decide ((p.symbolAt c).kind = .memberDecl)) ∘ SymbolTree.id) := by
      refine filter_congr fun c hc => ?_
      simp [kind, hchild c hc]
    rw [hfilter]
    exact map_congr_left fun c hc => hchild c (mem_of_mem_filter hc)
  have hfolds : foldsMembers p t.id = true ↔ t.kind = .enumDecl := by
    rw [foldsMembers_iff, kind, hsymbol]
    exact and_iff_left hid
  by_cases henum : t.kind = .enumDecl
  · rw [symbol_absorb_enum henum, hmembers, symbolLeft, if_pos (hfolds.mpr henum), hsymbol]
  · rw [symbol_absorb_of_ne henum, symbolLeft, if_neg (mt hfolds.mp henum), hsymbol]

lemma children_absorb_tree (hp : Tidy p) {t : SymbolTree} (ht : t ∈ p.tree.walk) :
    (absorbEnumMembers t).children.map SymbolTree.id = p.folded.childrenOf t.id := by
  obtain ⟨hsymbol, hchildren⟩ := children_of_mem_tree hp ht
  have hid : t.id ∈ p.tree.ids := SymbolTree.mem_ids.mpr ⟨t, ht, rfl⟩
  rw [children_absorb, childrenOf_folded, ← hchildren, filter_map, map_map]
  have hfilter : (t.children.filter fun c => !t.folds c) =
      t.children.filter ((fun c => !p.folds (t.id, c)) ∘ SymbolTree.id) := by
    refine filter_congr fun c hc => ?_
    have hchild := (children_of_mem_tree hp (mem_walk_of_child ht hc)).1
    simp [SymbolTree.folds, kind, folds, hsymbol, hchild, hid]
  rw [hfilter]
  exact map_congr_left fun c _ => id_absorb c

/-- **The forest of a planting holds what folding leaves**, in the tree and outside. -/
lemma holds_forest (hp : Tidy p) {s : Symbol} {children : List Nat} :
    p.forest.Holds id s children ↔
      id ≤ p.symbols.length ∧ s = symbolLeft p id ∧ children = p.folded.childrenOf id := by
  constructor
  · rintro (⟨t, ht, rfl, rfl, rfl⟩ | ⟨t, ht, rfl, rfl, rfl⟩)
    · have hmem : t.id ∈ p.folded.tree.ids := by
        rw [← ids_absorb_tree hp]
        exact SymbolTree.mem_ids.mpr ⟨t, ht, rfl⟩
      obtain ⟨u, hu, rfl⟩ := mem_walk_absorb ht
      rw [id_absorb] at hmem ⊢
      exact ⟨id_le_of_mem_tree (tidy_folded hp) hmem, symbol_absorb_tree hp hu,
        children_absorb_tree hp hu⟩
    · obtain ⟨_, _, hle, hsymbol, _, hchildren⟩ := mem_straysOf.mp ht
      exact ⟨hle, hsymbol, hchildren⟩
  · rintro ⟨hle, rfl, rfl⟩
    by_cases hid : id ∈ p.forest.root.ids
    · obtain ⟨t, ht, rfl⟩ := SymbolTree.mem_ids.mp hid
      obtain ⟨u, hu, rfl⟩ := mem_walk_absorb ht
      refine .inl ⟨_, ht, rfl, ?_, ?_⟩
      · rw [id_absorb, symbol_absorb_tree hp hu]
      · rw [id_absorb, children_absorb_tree hp hu]
    · have hpos : 0 < id := by
        refine Nat.pos_of_ne_zero ?_
        rintro rfl
        refine hid (SymbolTree.mem_ids.mpr ⟨_, mem_walk_self _, ?_⟩)
        exact id_absorb _
      exact .inr ⟨⟨id, symbolLeft p id, p.parent? id, p.folded.childrenOf id⟩,
        mem_straysOf.mpr ⟨hid, hpos, hle, rfl, rfl, rfl⟩, rfl, rfl, rfl⟩

/-- Folding changes only the values of an enumeration. -/
lemma symbolLeft_eq (p : Planting) (id : Nat) :
    ∃ values, symbolLeft p id = { p.symbolAt id with enumValues := values } := by
  unfold symbolLeft
  dsimp only
  split
  · exact ⟨_, rfl⟩
  · exact ⟨(p.symbolAt id).enumValues, rfl⟩

end Planting

/-- A member that is a value of an enumeration and none of its children. -/
structure FoldedInto (q : Symbol) (siblings : List Nat) (id : Nat) (s : Symbol) : Prop where
  member : s.kind = .memberDecl
  enumeration : q.kind = .enumDecl
  gone : id ∉ siblings
  value : ∃ v ∈ q.enumValues, v.name = s.name

namespace Planting

variable {p : Planting}

/-- A symbol that is linked is a child, unless it is a member of an enumeration of the tree. -/
lemma child_or_folded {parent : Nat} (hlink : (parent, id) ∈ p.links) :
    (p.folds (parent, id) = false → id ∈ p.folded.childrenOf parent) ∧
      (p.folds (parent, id) = true →
        FoldedInto (symbolLeft p parent) (p.folded.childrenOf parent) id (symbolLeft p id)) := by
  constructor
  · intro hstays
    exact mem_childrenOf.mpr (mem_links_folded.mpr ⟨hlink, hstays⟩)
  · intro hfolds
    have hgone : id ∉ p.folded.childrenOf parent := by
      rw [mem_childrenOf, mem_links_folded, hfolds]
      simp
    rw [folds_eq, Bool.and_eq_true, decide_eq_true_eq] at hfolds
    obtain ⟨values, hsame⟩ := symbolLeft_eq p id
    refine ⟨by rw [hsame]; exact hfolds.2, ?_, hgone, ?_⟩
    · obtain ⟨values, hparent⟩ := symbolLeft_eq p parent
      rw [hparent]
      exact (foldsMembers_iff.mp hfolds.1).1
    · have hmember : p.symbolAt id ∈ ((p.childrenOf parent).filter fun c => (p.symbolAt c).kind =
              .memberDecl).map p.symbolAt :=
        mem_map_of_mem (mem_filter.mpr ⟨mem_childrenOf.mpr hlink, by simpa using hfolds.2⟩)
      obtain ⟨v, hv, hname⟩ := exists_value_of_mem hmember (p.symbolAt parent).enumValues
      refine ⟨v, ?_, ?_⟩
      · rw [symbolLeft, if_pos hfolds.1]
        exact hv
      · rw [hname, hsame]

lemma idOf?_symbolAt (hp : Tidy p) (hpos : 0 < id) (hle : id ≤ p.symbols.length) :
    p.forest.idOf? (p.symbolAt id).longname = some id := by
  obtain ⟨i, rfl⟩ := Nat.exists_eq_succ_of_ne_zero (Nat.pos_iff_ne_zero.mp hpos)
  refine (p.lookup_index _).trans (idOf?_of_getElem? hp.longnames ?_)
  rw [longnames, getElem?_map, symbolAt, getElem?_eq_getElem hle]
  rfl

end Planting

/-- Along the parents that first doclets name, from the one named here, there is a longname that was
rejected and has no symbol. An empty longname names no parent. -/
inductive LeadsOut (filter : Option DocletFilter) (doclets : List Doclet) : Option String → Prop
  | out {longname : String} (nonempty : longname ≠ "")
      (rejected : ∃ d ∈ doclets, Census.isRejected filter d = true ∧ d.longname = longname)
      (unindexed : Census.docletsOf filter doclets longname = []) :
      LeadsOut filter doclets (some longname)
  | up {longname : String} {first : Doclet} (nonempty : longname ≠ "")
      (indexed : doclets.find? (Census.documents filter longname) = some first)
      (above : LeadsOut filter doclets first.memberof) : LeadsOut filter doclets (some longname)

/-- The parent of a documented symbol exists: its first doclet names none, an accepted package, or a
longname that is documented itself. -/
def Resolved (filter : Option DocletFilter) (doclets : List Doclet) (longname : String) : Prop :=
  ∃ first, doclets.find? (Census.documents filter longname) = some first ∧
    ∀ parent, first.memberof = some parent → parent = "" ∨
      parent ∈ acceptedPackages filter doclets ∨ Census.docletsOf filter doclets parent ≠ []

/-- The symbols with these numbers in their order: first some whose parent exists, as their first
doclets stand, then others, which are orphans or made up. -/
def InOrder (filter : Option DocletFilter) (doclets : List Doclet) (f : Forest) (ids : List Nat) :
    Prop :=
  ∃ resolved late : List String, ids.map some = (resolved ++ late).map f.idOf? ∧
    (resolved.Pairwise fun a b =>
      Census.firstPlace filter doclets a < Census.firstPlace filter doclets b) ∧
    (∀ a ∈ resolved, Resolved filter doclets a) ∧ ∀ a ∈ late, ¬ Resolved filter doclets a

/-- How the symbol of a longname stands in a forest, by the parent that the first of its doclets
names. -/
structure Placed (filter : Option DocletFilter) (doclets : List Doclet) (f : Forest)
    (longname : String)
    (first : Doclet) (id : Nat) (s : Symbol) : Prop where
  indexed : f.idOf? longname = some id
  queued : s.doclets = Census.docletsOf filter doclets longname
  dropped : ¬ f.Attached longname ↔ LeadsOut filter doclets first.memberof
  /-- No parent, an empty one or an accepted package. -/
  top : ¬ LeadsOut filter doclets first.memberof → (∀ parent, first.memberof = some parent →
      parent = "" ∨ parent ∈ acceptedPackages filter doclets) →
      ∃ children, f.Holds 0 Symbol.root children ∧ id ∈ children
  /-- A documented parent; only an enumeration outside the tree keeps members as children. -/
  below : ¬ LeadsOut filter doclets first.memberof → ∀ parent, first.memberof = some parent →
    parent ≠ "" → parent ∉ acceptedPackages filter doclets →
      Census.docletsOf filter doclets parent ≠ [] → ∃ above q siblings,
        f.idOf? parent = some above ∧ f.Holds above q siblings ∧ f.parentOf? id = some above ∧
          (id ∈ siblings ∨ FoldedInto q siblings id s) ∧
          (above ∈ f.root.ids → s.kind = .memberDecl → q.kind = .enumDecl →
            FoldedInto q siblings id s)

namespace Census

variable {filter : Option DocletFilter} {doclets : List Doclet} {c : Census} {s : Symbol}

/-- Where a symbol goes, by the parent that its first doclet names. -/
lemma placementOf_cases (c : Census) (s : Symbol) :
    c.isDropped s = true ∧ placementOf c s = .dropped ∨
    c.isDropped s = false ∧
      ((∀ parent, s.memberof? = some parent → parent = "" ∨ parent ∈ c.packages) ∧
        placementOf c s = .under 0 ∨
      ∃ parent, s.memberof? = some parent ∧ parent ≠ "" ∧ parent ∉ c.packages ∧
        ((∃ id, c.resolved.idOf? parent = some id ∧ placementOf c s = .under id) ∨
          c.has parent = false ∧ placementOf c s = .orphan parent)) := by
  rw [placementOf]
  cases hdropped : c.isDropped s with
  | true => exact .inl ⟨rfl, rfl⟩
  | false =>
    refine .inr ⟨rfl, ?_⟩
    cases hmemberof : s.memberof? with
    | none => exact .inl ⟨by simp, rfl⟩
    | some parent =>
      by_cases hblank : parent = ""
      · exact .inl ⟨by simp [hblank], by simp [nonempty?, Option.filter, hblank]⟩
      · have hnamed : nonempty? (some parent) = some parent := by
          simp [nonempty?, Option.filter, hblank]
        by_cases hpackage : parent ∈ c.packages
        · exact .inl ⟨by simp [hpackage], by simp [hnamed, hpackage]⟩
        · refine .inr ⟨parent, rfl, hblank, hpackage, ?_⟩
          have hsame : (Planting.mk c.symbols []).idOf? parent = c.resolved.idOf? parent := rfl
          cases hid : c.resolved.idOf? parent with
          | some id => exact .inl ⟨id, rfl, by simp [hnamed, hpackage, hsame, hid]⟩
          | none =>
            refine .inr ⟨?_, by simp [hnamed, hpackage, hsame, hid]⟩
            rw [← Bool.not_eq_true, has_iff]
            exact Planting.idOf?_eq_none.mp hid

section

variable (hc : (ofDoclets filter doclets).result = .ok c)

include hc

lemma leadsOut_of_reachesLeftOut :
    ∀ {steps : Nat} {memberof : Option String},
      c.reachesLeftOut c.leftOut steps memberof = true → LeadsOut filter doclets memberof := by
  intro steps
  induction steps with
  | zero => simp [reachesLeftOut]
  | succ steps ih =>
    intro memberof hreach
    obtain ⟨longname, rfl, hne, hleft | ⟨s, hs, hreach⟩⟩ := reachesLeftOut_succ.mp hreach
    · obtain ⟨hrejected, hnone⟩ := (mem_leftOut_ofDoclets hc).mp hleft
      exact .out hne hrejected (docletsOf_eq_nil hc hnone)
    · obtain ⟨first, hfirst, hmemberof⟩ := exists_first hc hs
      exact .up hne hfirst (hmemberof ▸ ih hreach)

lemma reachesLeftOut_of_leadsOut {memberof : Option String} (h : LeadsOut filter doclets memberof) :
    ∃ steps, c.reachesLeftOut c.leftOut steps memberof = true := by
  induction h with
  | @out longname nonempty rejected unindexed =>
    have hnone : c.has longname = false := by
      rw [← Bool.not_eq_true, has_ofDoclets_iff_docletsOf hc]
      exact fun hne => hne unindexed
    have hleft := (mem_leftOut_ofDoclets hc).mpr ⟨rejected, hnone⟩
    exact ⟨1, reachesLeftOut_succ.mpr ⟨longname, rfl, nonempty, .inl hleft⟩⟩
  | @up longname first nonempty indexed _ ih =>
    obtain ⟨steps, hreach⟩ := ih
    obtain ⟨s, hs⟩ := exists_symbol hc indexed
    rw [← memberof?_of_first hc hs indexed] at hreach
    exact ⟨steps + 1, reachesLeftOut_succ.mpr ⟨longname, rfl, nonempty, .inr ⟨s, hs, hreach⟩⟩⟩

/-- **A symbol is left out exactly if the parents lead to a longname that was left out.** -/
lemma isDropped_iff_leadsOut (hcycles : c.checkCycles.result = .ok ()) (hs : s ∈ c.symbols) :
    c.isDropped s = true ↔ LeadsOut filter doclets s.memberof? := by
  constructor
  · exact leadsOut_of_reachesLeftOut hc
  · intro h
    obtain ⟨steps, hreach⟩ := reachesLeftOut_of_leadsOut hc h
    exact isDropped_of_reachesLeftOut hcycles hs hreach

/-- The parent of a symbol exists exactly if the census knows the one that it names. -/
lemma resolved_iff (hs : s ∈ c.symbols) :
    Resolved filter doclets s.longname ↔ ∀ parent, s.memberof? = some parent →
      parent = "" ∨ parent ∈ c.packages ∨ c.has parent = true := by
  obtain ⟨first, hfirst, hmemberof⟩ := exists_first hc (find?_of_mem hc hs)
  rw [Resolved, hmemberof, packages_ofDoclets hc]
  simp only [has_ofDoclets_iff_docletsOf hc]
  constructor
  · rintro ⟨first', hfirst', h⟩
    obtain rfl : first = first' := by simpa [hfirst] using hfirst'
    exact h
  · exact fun h => ⟨first, hfirst, h⟩

lemma resolved_of_under (hs : s ∈ c.symbols) (h : placementOf c s = .under id) :
    Resolved filter doclets s.longname := by
  refine (resolved_iff hc hs).mpr fun parent hparent => ?_
  rcases c.placementOf_cases s with ⟨_, hplace⟩ | ⟨_, ⟨htop, _⟩ | ⟨_, hnamed, _, _, hup⟩⟩
  · simp [hplace] at h
  · exact (htop parent hparent).imp_right .inl
  · rcases hup with ⟨id', hid, _⟩ | ⟨_, hplace⟩
    · obtain rfl : parent = _ := by simpa [hparent] using hnamed
      refine .inr (.inr (has_iff.mpr ?_))
      by_contra hnone
      rw [Planting.idOf?_eq_none.mpr hnone] at hid
      cases hid
    · simp [hplace] at h

lemma not_resolved_of_orphan (hs : s ∈ c.symbols)
    {memberof : String} (h : placementOf c s = .orphan memberof) :
    ¬ Resolved filter doclets s.longname := by
  intro hresolved
  rcases c.placementOf_cases s
    with ⟨_, hplace⟩ | ⟨_, ⟨_, hplace⟩ | ⟨parent, hnamed, hne, hpackage, hup⟩⟩
  · simp [hplace] at h
  · simp [hplace] at h
  · rcases hup with ⟨_, _, hplace⟩ | ⟨hnone, _⟩
    · simp [hplace] at h
    · rcases (resolved_iff hc hs).mp hresolved parent hnamed with hblank | hmem | hhas
      · exact hne hblank
      · exact hpackage hmem
      · simp [hnone] at hhas

end

section

variable (hc : (c.symbols.map Symbol.longname).Nodup)

include hc

/-- The children of a symbol: first those whose parent exists, in the order of the census, then
orphans and symbols that are made up. -/
lemma childrenOf_planting (id : Nat) :
    ∃ early late : List Nat, c.planting.folded.childrenOf id = early ++ late ∧
      early.Pairwise (· < ·) ∧ (∀ i ∈ early, (id, i) ∈ c.resolvedLinks) ∧
        ∀ i ∈ late, (id, i) ∈ c.planting.links ∧
          (i ∈ c.orphans.map Orphan.id ∨ c.symbols.length < i) := by
  obtain ⟨_, hgrows⟩ := tidy_planting hc
  obtain ⟨more, hlinks, hmore⟩ := hgrows.links
  let left : Nat × Nat → Bool := fun l => l.1 == id && !c.planting.folds l
  have hsplit : c.planting.folded.childrenOf id =
      (c.resolvedLinks.filter left).map Prod.snd ++ (more.filter left).map Prod.snd := by
    rw [childrenOf, folded, filter_filter, hlinks, filter_append, map_append]
    rfl
  have hleft : ∀ {l : Nat × Nat}, left l = true → l.1 = id := by
    intro l hl
    simp only [left, Bool.and_eq_true, beq_iff_eq] at hl
    exact hl.1
  refine ⟨_, _, hsplit, ?_, ?_, ?_⟩
  · exact c.pairwise_linked_resolved.sublist (filter_sublist.map Prod.snd)
  · rw [forall_mem_map]
    intro l hl
    obtain ⟨hmem, hkept⟩ := mem_filter.mp hl
    exact hleft hkept ▸ hmem
  · rw [forall_mem_map]
    intro l hl
    obtain ⟨hmem, hkept⟩ := mem_filter.mp hl
    refine ⟨?_, hmore l hmem⟩
    rw [hlinks]
    exact mem_append_right _ (hleft hkept ▸ hmem)

/-- In the planting a symbol of the census has its longname, its kind and its doclets. -/
lemma symbolAt_planting
    (hs : c.symbols[i]? = some s) : (c.planting.symbolAt (i + 1)).longname = s.longname ∧
      (c.planting.symbolAt (i + 1)).kind = s.kind ∧
        (c.planting.symbolAt (i + 1)).doclets = s.doclets := by
  have hle : i + 1 ≤ c.resolved.symbols.length := (List.getElem?_eq_some_iff.mp hs).1
  have hsame : c.resolved.symbolAt (i + 1) = s := by simp [symbolAt, resolved, hs]
  simpa [hsame] using (tidy_planting hc).2.keeps hle

omit hc in
/-- A number behind the census belongs to no documented longname. -/
lemma not_documented_of_lt (hc : (ofDoclets filter doclets).result = .ok c)
    (hlt : c.symbols.length < i) (hle : i ≤ c.planting.symbols.length) :
    doclets.find? (documents filter (c.planting.symbolAt i).longname) = none := by
  have hnd := nodup_ofDoclets hc
  obtain ⟨htidy, hgrows⟩ := tidy_planting hnd
  by_contra hsome
  obtain ⟨first, hfirst⟩ := Option.ne_none_iff_exists'.mp hsome
  obtain ⟨s, hs⟩ := exists_symbol hc hfirst
  obtain ⟨hmem, hlongname⟩ := longname_of_find? hs
  obtain ⟨j, hj⟩ := mem_iff_getElem?.mp hmem
  have hjlt : j < c.symbols.length := (List.getElem?_eq_some_iff.mp hj).1
  -- the two symbols have one longname, hence one number
  have hi := idOf?_symbolAt htidy (Nat.zero_lt_of_lt hlt) hle
  have hj' := idOf?_symbolAt htidy (Nat.succ_pos j) (Nat.le_trans hjlt hgrows.length_le)
  rw [(symbolAt_planting hnd hj).1, hlongname, hi, Option.some.injEq] at hj'
  omega

omit hc in
/-- **The children of a symbol in their order**, by their longnames. -/
lemma ordered_children (hc : (ofDoclets filter doclets).result = .ok c) (id : Nat) :
    InOrder filter doclets c.planting.forest (c.planting.folded.childrenOf id) := by
  have hnd := nodup_ofDoclets hc
  obtain ⟨htidy, hgrows⟩ := tidy_planting hnd
  obtain ⟨early, late, hsplit, hearly, hresolved, hlate⟩ := childrenOf_planting hnd id
  have hcensus : ∀ i ∈ early, ∃ j s, i = j + 1 ∧ c.symbols[j]? = some s ∧
      (c.planting.symbolAt i).longname = s.longname ∧ placementOf c s = .under id := by
    intro i hi
    obtain ⟨hpos, s, hs, hplace⟩ := mem_resolvedLinks.mp (hresolved i hi)
    obtain ⟨j, rfl⟩ := Nat.exists_eq_succ_of_ne_zero (Nat.pos_iff_ne_zero.mp hpos)
    exact ⟨j, s, rfl, hs, (symbolAt_planting hnd hs).1, hplace⟩
  refine ⟨early.map fun i => (c.planting.symbolAt i).longname,
    late.map fun i => (c.planting.symbolAt i).longname, ?_, ?_, ?_, ?_⟩
  · rw [hsplit, ← map_append, map_map]
    refine map_congr_left fun i hi => ?_
    have hlink : (id, i) ∈ c.planting.links := by
      rcases mem_append.mp hi with hi | hi
      · exact hgrows.mem_links (hresolved i hi)
      · exact (hlate i hi).1
    exact (idOf?_symbolAt htidy (htidy.child_pos _ hlink) (htidy.child_le _ hlink)).symm
  · rw [pairwise_map]
    refine hearly.imp_of_mem fun {i i'} hi hi' hlt => ?_
    obtain ⟨j, s, rfl, hs, hname, _⟩ := hcensus i hi
    obtain ⟨j', s', rfl, hs', hname', _⟩ := hcensus i' hi'
    obtain ⟨hj, rfl⟩ := List.getElem?_eq_some_iff.mp hs
    obtain ⟨hj', rfl⟩ := List.getElem?_eq_some_iff.mp hs'
    rw [hname, hname']
    have hordered := pairwise_iff_getElem.mp (ordered_ofDoclets hc) j j' (by simpa using hj)
      (by simpa using hj') (by omega)
    simpa using hordered
  · rw [forall_mem_map]
    intro i hi
    obtain ⟨j, s, rfl, hs, hname, hplace⟩ := hcensus i hi
    rw [hname]
    exact resolved_of_under hc (mem_of_getElem? hs) hplace
  · rw [forall_mem_map]
    intro i hi
    obtain ⟨hlink, horphan | hlt⟩ := hlate i hi
    · obtain ⟨o, ho, rfl⟩ := mem_map.mp horphan
      obtain ⟨hpos, s, hs, hplace⟩ := mem_orphans.mp ho
      obtain ⟨j, hj⟩ := Nat.exists_eq_succ_of_ne_zero (Nat.pos_iff_ne_zero.mp hpos)
      rw [hj, Nat.succ_sub_one] at hs
      rw [hj, (symbolAt_planting hnd hs).1]
      exact not_resolved_of_orphan hc (mem_of_getElem? hs) hplace
    · rintro ⟨first, hfirst, _⟩
      rw [not_documented_of_lt hc hlt (htidy.child_le _ hlink)] at hfirst
      cases hfirst

/-- A symbol that is placed under another is linked to it. -/
lemma link_of_under {parent : Nat} (hs : c.symbols[i]? = some s)
    (h : placementOf c s = .under parent) :
    (parent, i + 1) ∈ c.planting.links :=
  (tidy_planting hc).2.mem_links (mem_resolvedLinks.mpr ⟨Nat.succ_pos i, s, hs, h⟩)

/-- At the top nothing is folded. -/
lemma child_of_top (hs : c.symbols[i]? = some s) (h : placementOf c s = .under 0) :
    ∃ children, c.planting.forest.Holds 0 Symbol.root children ∧ i + 1 ∈ children := by
  obtain ⟨htidy, _⟩ := tidy_planting hc
  have hroot : foldsMembers c.planting 0 = false := rfl
  refine ⟨_, (holds_forest htidy).mpr ⟨Nat.zero_le _, ?_, rfl⟩,
    (child_or_folded (link_of_under hc hs h)).1 ?_⟩
  · simp [symbolLeft, hroot, symbolAt]
  · rw [folds_eq, hroot, Bool.false_and]

/-- Below a symbol, the members of an enumeration of the tree are folded. -/
lemma child_of_symbol {above : Nat}
    (hs : c.symbols[i]? = some s) (h : placementOf c s = .under above) : ∃ q siblings,
      c.planting.forest.Holds above q siblings ∧ c.planting.forest.parentOf? (i + 1) = some above ∧
        (i + 1 ∈ siblings ∨ FoldedInto q siblings (i + 1) (symbolLeft c.planting (i + 1))) ∧
        (above ∈ c.planting.forest.root.ids →
          (symbolLeft c.planting (i + 1)).kind = .memberDecl → q.kind = .enumDecl →
            FoldedInto q siblings (i + 1) (symbolLeft c.planting (i + 1))) := by
  obtain ⟨htidy, hgrows⟩ := tidy_planting hc
  have hlink := link_of_under hc hs h
  obtain ⟨hstays, hfolds⟩ := child_or_folded hlink
  refine ⟨_, _, (holds_forest htidy).mpr ⟨htidy.parent_le _ hlink, rfl, rfl⟩, ?_, ?_, ?_⟩
  · rw [parentOf?_forest htidy (Nat.succ_pos i) (htidy.child_le _ hlink)]
    exact (parent?_eq_some htidy).mpr hlink
  · cases hcase : c.planting.folds (above, i + 1) with
    | false => exact .inl (hstays hcase)
    | true => exact .inr (hfolds hcase)
  · intro htree hmember henum
    have hkept := (mem_ids_absorb_tree htidy).mp htree
    obtain ⟨_, hchild⟩ := symbolLeft_eq c.planting (i + 1)
    obtain ⟨_, hparent⟩ := symbolLeft_eq c.planting above
    rw [hchild] at hmember
    rw [hparent] at henum
    refine hfolds ?_
    rw [folds_eq, Bool.and_eq_true, decide_eq_true_eq]
    exact ⟨Planting.foldsMembers_iff.mpr ⟨henum, hkept.mem_tree htidy⟩, hmember⟩

end

/-- **A symbol of the census is placed as its first doclet says.** -/
lemma placed_of_mem (hc : (ofDoclets filter doclets).result = .ok c)
    (hcycles : c.checkCycles.result = .ok ()) {first : Doclet}
    (hs : c.symbols[i]? = some s)
    (hfirst : doclets.find? (documents filter s.longname) = some first) :
    Placed filter doclets c.planting.forest s.longname first (i + 1)
      (symbolLeft c.planting (i + 1)) := by
  have hnd := nodup_ofDoclets hc
  obtain ⟨htidy, hgrows⟩ := tidy_planting hnd
  have hmem := mem_of_getElem? hs
  have hlt : i < c.symbols.length := (List.getElem?_eq_some_iff.mp hs).1
  obtain ⟨hlongname, _, hdoclets⟩ := symbolAt_planting hnd hs
  have hmemberof := memberof?_of_first hc (find?_of_mem hc hmem) hfirst
  have hleads := isDropped_iff_leadsOut hc hcycles hmem
  rw [hmemberof] at hleads
  constructor
  case indexed =>
    rw [← hlongname]
    exact idOf?_symbolAt htidy (Nat.succ_pos i) (Nat.le_trans hlt hgrows.length_le)
  case queued =>
    obtain ⟨_, hleft⟩ := symbolLeft_eq c.planting (i + 1)
    rw [hleft, ← queued_ofDoclets hc s hmem]
    exact hdoclets
  case dropped => rw [attached_iff hnd hmem, Bool.not_eq_false, hleads]
  case top =>
    intro hkept htop
    rcases c.placementOf_cases s
      with ⟨hdropped, _⟩ | ⟨_, ⟨_, hplace⟩ | ⟨parent, hparent, hne, hpackage, _⟩⟩
    · exact absurd (hleads.mp hdropped) hkept
    · exact child_of_top hnd hs hplace
    · rw [hmemberof] at hparent
      rw [packages_ofDoclets hc] at hpackage
      exact ((htop parent hparent).elim hne hpackage).elim
  case below =>
    intro hkept parent hparent hne hpackage hdocumented
    rw [← hmemberof] at hparent
    rw [← packages_ofDoclets hc] at hpackage
    rw [← has_ofDoclets_iff_docletsOf hc] at hdocumented
    rcases c.placementOf_cases s
      with ⟨hdropped, _⟩ | ⟨_, ⟨htop, _⟩ | ⟨parent', hparent', _, _, hup⟩⟩
    · exact absurd (hleads.mp hdropped) hkept
    · exact ((htop parent hparent).elim hne hpackage).elim
    · obtain rfl : parent = parent' := by simpa [hparent] using hparent'
      rcases hup with ⟨above, habove, hplace⟩ | ⟨hnone, _⟩
      · obtain ⟨q, siblings, hholds, hrest⟩ := child_of_symbol hnd hs hplace
        have hid := (lookup_index _ _).trans (hgrows.idOf? habove)
        exact ⟨above, q, siblings, hid, hholds, hrest⟩
      · simp [hnone] at hdocumented

end Census

/-- Where symbols are placed. Every documented longname has a symbol in the forest that is placed as
the first of its doclets says, and every symbol has its children in order. -/
theorem placed_buildForest {filter : Option DocletFilter} {doclets : List Doclet} {f : Forest}
    (hf : (buildForest filter doclets).result = .ok f) :
    (∀ longname first, doclets.find? (Census.documents filter longname) = some first →
      ∃ id s children, f.Holds id s children ∧ Placed filter doclets f longname first id s) ∧
    ∀ id s children, f.Holds id s children → InOrder filter doclets f children := by
  obtain ⟨c, hc, hcycles, rfl⟩ := result_buildForest.mp hf
  obtain ⟨htidy, hgrows⟩ := tidy_planting (nodup_ofDoclets hc)
  constructor
  · intro longname first hfirst
    obtain ⟨s, hs⟩ := exists_symbol hc hfirst
    obtain ⟨hmem, rfl⟩ := longname_of_find? hs
    obtain ⟨i, hi⟩ := mem_iff_getElem?.mp hmem
    have hle : i + 1 ≤ c.planting.symbols.length :=
      Nat.le_trans (List.getElem?_eq_some_iff.mp hi).1 hgrows.length_le
    exact ⟨i + 1, _, _, (holds_forest htidy).mpr ⟨hle, rfl, rfl⟩,
      placed_of_mem hc hcycles hi hfirst⟩
  · intro id s children hholds
    obtain ⟨_, _, rfl⟩ := (holds_forest htidy).mp hholds
    exact ordered_children hc id

/-- A namespace between two of its functions, a member of a private class, and a member of an
enumeration. -/
def mixedPlaces : List Doclet :=
  [.bare "N.g" (some "N") (.callable [] []), .bare "N" none (.container false),
   .bare "N.h" (some "N") (.callable [] []),
   { Doclet.bare "P" none (.container false) with access := some .privateAccess },
   .bare "P.x" (some "P") (.value false none false),
   .bare "E" none (.value true none true),
   .bare "E.A" (some "E") (.value true none false)]

/-- The member of the class is left out, that of the enumeration is placed, and the functions of the
namespace stand in their order. -/
theorem placed_buildForest_mixedPlaces : ∃ f,
    (buildForest (some (.privacy false)) mixedPlaces).result = .ok f ∧ ¬ f.Attached "P.x" ∧
      f.Attached "E.A" ∧
        ∃ s, f.Holds 2 s [1, 3] ∧ InOrder (some (.privacy false)) mixedPlaces f [1, 3] := by
  have hrun : ((buildForest (some (.privacy false)) mixedPlaces).result.toOption.map fun f =>
      f.root.walk.map fun t => (t.id, t.children.map SymbolTree.id)) =
        some [(0, [2, 5]), (2, [1, 3]), (1, []), (3, []), (5, [])] := by
    decide +kernel
  obtain ⟨f, hf, hwalk⟩ := Run.toOption_map.mp hrun
  obtain ⟨hplaced, horder⟩ := placed_buildForest hf
  obtain ⟨t, ht, heq⟩ : ∃ t ∈ f.root.walk, (t.id, t.children.map SymbolTree.id) = (2, [1, 3]) := by
    rw [← mem_map, hwalk]
    decide
  have hholds : f.Holds 2 t.symbol [1, 3] :=
    .inl ⟨t, ht, congrArg Prod.fst heq, rfl, congrArg Prod.snd heq⟩
  obtain ⟨_, _, _, _, hleft⟩ := hplaced "P.x" (.bare "P.x" (some "P") (.value false none false)) rfl
  obtain ⟨_, _, _, _, hmember⟩ :=
    hplaced "E.A" (.bare "E.A" (some "E") (.value true none false)) rfl
  refine ⟨f, hf, hleft.dropped.mpr ?_, ?_, t.symbol, hholds, horder _ _ _ hholds⟩
  · exact .out (by decide) ⟨_, mem_of_getElem? (i := 3) rfl, by decide, rfl⟩ rfl
  · by_contra hlost
    have henum : mixedPlaces.find? (documents (some (.privacy false)) "E") =
        some (.bare "E" none (.value true none true)) := rfl
    cases hmember.dropped.mp hlost with
    | out _ rejected _ => exact absurd rejected (by decide)
    | up _ indexed above =>
      -- the enumeration names no parent
      rw [henum, Option.some.injEq] at indexed
      subst indexed
      cases above

end AmbientDecl

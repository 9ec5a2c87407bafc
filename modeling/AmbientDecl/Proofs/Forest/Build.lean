import AmbientDecl.Proofs.Forest.Structure
import AmbientDecl.Proofs.Forest.Unfolding

/-!
# The forest of a planting

`absorbEnumMembers` takes the members of an enumeration out of the tree, with everything below
them. It changes no number, longname, kind or name, so the tree that is left is again the tree of a
planting: the one without the links that were folded.

* `children_absorb` says which children stay.
* `Planting.folded` is the planting without the folded links; `ids_absorb_tree` says that its tree
  has the same numbers as the tree that is left.
* `Planting.Kept` tells the symbols that stay by the way up from them (`mem_ids_absorb_tree`).

What `buildForest` gives is the forest of a planting: the tree that is left of it after the folding,
its index, and as strays the symbols that the tree does not hold.

* `Planting.forest` is that forest, and `result_buildForest` says when a run comes to one.
* `Planting.consistent_forest` is what the later stages start from.
-/

namespace AmbientDecl

open List SymbolTree

variable (t : SymbolTree)

lemma absorbAll_eq (l : List SymbolTree) : absorbAll l = l.map absorbEnumMembers := by
  induction l with
  | nil => rfl
  | cons t rest ih => rw [absorbAll, ih, map_cons]

namespace SymbolTree

/-- Whether a child is folded into the values of its parent. -/
def folds (t c : SymbolTree) : Bool := t.kind = .enumDecl && c.kind = .memberDecl

@[simp] lemma id_absorb : (absorbEnumMembers t).id = t.id := by
  cases t with
  | node i s cs =>
    simp only [absorbEnumMembers]
    split <;> rfl

lemma symbol_absorb :
    ∃ values, (absorbEnumMembers t).symbol = { t.symbol with enumValues := values } := by
  cases t with
  | node i s cs =>
    simp only [absorbEnumMembers]
    split
    · exact ⟨_, rfl⟩
    · exact ⟨s.enumValues, rfl⟩

@[simp] lemma kind_absorb : (absorbEnumMembers t).kind = t.kind := by
  obtain ⟨values, h⟩ := symbol_absorb t
  rw [kind, h]
  rfl

@[simp] lemma longname_absorb : (absorbEnumMembers t).longname = t.longname := by
  obtain ⟨values, h⟩ := symbol_absorb t
  rw [longname, h]
  rfl

/-- **What stays below a symbol**: the children that are not folded, and in them the same again. -/
lemma children_absorb : (absorbEnumMembers t).children
    = (t.children.filter fun c => !t.folds c).map absorbEnumMembers := by
  cases t with
  | node i s cs =>
    have hfolds : ∀ c, folds (node i s cs) c
        = (decide (s.kind = .enumDecl) && decide (c.kind = .memberDecl)) := fun c => rfl
    simp only [absorbEnumMembers, absorbAll_eq]
    by_cases hk : s.kind = .enumDecl
    · rw [if_pos hk]
      simp only [children_node, hfolds, hk, decide_true, Bool.true_and, filter_map]
      congr 1
      apply filter_congr
      intro c _
      simp
    · rw [if_neg hk]
      simp [hfolds, hk]

/-- Every subtree that is left comes from one that was there. -/
lemma mem_walk_absorb {t u : SymbolTree} (ht : t ∈ (absorbEnumMembers u).walk) :
    ∃ s ∈ u.walk, t = absorbEnumMembers s := by
  induction u using induct with
  | node i s cs ih =>
    rw [walk_eq, nodes_eq, children_absorb] at ht
    rcases mem_cons.mp ht with rfl | ht
    · exact ⟨_, mem_walk_self _, rfl⟩
    · obtain ⟨d, hd, ht⟩ := mem_flatMap.mp ht
      obtain ⟨c, hc, rfl⟩ := mem_map.mp hd
      have hcs : c ∈ cs := (mem_filter.mp hc).1
      obtain ⟨s', hs', rfl⟩ := ih c hcs ht
      exact ⟨s', mem_walk_trans (mem_walk_of_child (mem_walk_self _) hcs) hs', rfl⟩

end SymbolTree

namespace Planting

variable {p : Planting}

/-- Whether a link is folded: a member of an enumeration that the tree holds. -/
def folds (p : Planting) (l : Nat × Nat) : Bool :=
  (p.symbolAt l.1).kind = .enumDecl && p.tree.ids.contains l.1 &&
    (p.symbolAt l.2).kind = .memberDecl

def folded (p : Planting) : Planting :=
  { p with links := p.links.filter fun l => !p.folds l }

lemma mem_links_folded {l : Nat × Nat} : l ∈ p.folded.links ↔ l ∈ p.links ∧ p.folds l = false := by
  simp [folded]

lemma childrenOf_folded (p : Planting) (id : Nat) :
    p.folded.childrenOf id = (p.childrenOf id).filter fun c => !p.folds (id, c) := by
  simp only [childrenOf, folded, filter_filter, filter_map]
  congr 1
  apply filter_congr
  rintro ⟨a, c⟩ _
  by_cases ha : a = id
  · subst ha
    simp [Bool.and_comm]
  · have hne : (a == id) = false := by simpa using ha
    simp [hne]

lemma foldsMembers_iff {id : Nat} :
    foldsMembers p id = true ↔ (p.symbolAt id).kind = .enumDecl ∧ id ∈ p.tree.ids := by
  simp [foldsMembers, ids]

lemma folds_eq (p : Planting) (id c : Nat) :
    p.folds (id, c) = (foldsMembers p id && decide ((p.symbolAt c).kind = .memberDecl)) := by
  rfl

lemma childrenLeft_eq (p : Planting) (id : Nat) : childrenLeft p id = p.folded.childrenOf id := by
  rw [childrenOf_folded, childrenLeft]
  cases hfolds : foldsMembers p id <;> simp [folds_eq, hfolds]

lemma tidy_folded (hp : Tidy p) : Tidy p.folded where
  longnames := hp.longnames
  once := ((filter_sublist (p := fun l => !p.folds l) (l := p.links)).map Prod.snd).nodup
    hp.once
  child_pos := fun l hl => hp.child_pos l (mem_links_folded.mp hl).1
  child_le := fun l hl => hp.child_le l (mem_links_folded.mp hl).1
  parent_le := fun l hl => hp.parent_le l (mem_links_folded.mp hl).1

/-- In the tree, folding children and folding links is the same. -/
lemma folds_treeAt {id c : Nat} (hid : id ∈ p.tree.ids) (depth depth' : Nat) :
    (p.treeAt depth id).folds (p.treeAt depth' c) = p.folds (id, c) := by
  have hsymbol : ∀ d i, (p.treeAt d i).symbol = p.symbolAt i := by
    intro d i
    cases d <;> rfl
  simp [SymbolTree.folds, kind, hsymbol, folds, hid]

/-- Below a symbol of the tree, what is left has the numbers of the planting without the folded
links. -/
lemma ids_absorb_treeAt (hp : Tidy p) : ∀ {depth id : Nat}, id ∈ p.tree.ids →
    (absorbEnumMembers (p.treeAt depth id)).ids = (p.folded.treeAt depth id).ids := by
  intro depth
  induction depth with
  | zero =>
    intro id _
    rw [ids_children, children_absorb]
    simp [treeAt]
  | succ depth ih =>
    intro id hid
    have hkids : (p.treeAt (depth + 1) id).children
        = (p.childrenOf id).map fun c => p.treeAt depth c := rfl
    rw [ids_children, children_absorb, id_absorb, id_treeAt,
      ids_treeAt_succ, hkids, filter_map, map_map, flatMap_map]
    have hleft : p.folded.childrenOf id
        = (p.childrenOf id).filter ((fun c => !(p.treeAt (depth + 1) id).folds c) ∘
            fun c => p.treeAt depth c) := by
      rw [childrenOf_folded]
      apply filter_congr
      intro c _
      simp only [Function.comp_apply, folds_treeAt hid]
    rw [← hleft]
    congr 1
    apply flatMap_congr
    intro c hc
    have hlink : (id, c) ∈ p.links := (mem_links_folded.mp (mem_childrenOf.mp hc)).1
    exact ih ((mem_ids_tree_of_link hp hlink).mpr hid)

lemma ids_absorb_tree (hp : Tidy p) : (absorbEnumMembers p.tree).ids = p.folded.tree.ids :=
  ids_absorb_treeAt hp ((mem_ids_tree hp).mpr ⟨0, rfl⟩)

/-- A symbol stays if the way up from it ends at the root and passes no link that is folded. -/
inductive Kept (p : Planting) : Nat → Prop
  | root : Kept p 0
  | child {a c : Nat} (link : (a, c) ∈ p.links) (above : Kept p a)
      (unfolded : ¬ ((p.symbolAt a).kind = .enumDecl ∧ (p.symbolAt c).kind = .memberDecl)) :
      Kept p c

lemma Kept.mem_tree (hp : Tidy p) {x : Nat} (h : Kept p x) : x ∈ p.tree.ids := by
  induction h with
  | root => exact (mem_ids_tree hp).mpr ⟨0, rfl⟩
  | child link _ _ ih => exact (mem_ids_tree_of_link hp link).mpr ih

/-- **The tree that is left holds exactly the symbols that stay.** -/
lemma mem_ids_absorb_tree (hp : Tidy p) {x : Nat} :
    x ∈ (absorbEnumMembers p.tree).ids ↔ Kept p x := by
  have hfolds : ∀ {a c : Nat}, a ∈ p.tree.ids → (p.folds (a, c) = false ↔
      ¬ ((p.symbolAt a).kind = .enumDecl ∧ (p.symbolAt c).kind = .memberDecl)) := by
    intro a c ha
    simp [folds, ha]
  rw [ids_absorb_tree hp, mem_ids_tree (tidy_folded hp)]
  constructor
  · rintro ⟨k, hk⟩
    induction k generalizing x with
    | zero =>
      have h0 : x = 0 := by simpa [climb] using hk
      exact h0 ▸ Kept.root
    | succ k ih =>
      obtain ⟨a, ha, hclimb⟩ := Option.bind_eq_some_iff.mp hk
      obtain ⟨hlink, hf⟩ := mem_links_folded.mp ((parent?_eq_some (tidy_folded hp)).mp ha)
      have hkept := ih hclimb
      exact Kept.child hlink hkept ((hfolds (hkept.mem_tree hp)).mp hf)
  · intro h
    induction h with
    | root => exact ⟨0, rfl⟩
    | child link above unfolded ih =>
      obtain ⟨k, hk⟩ := ih
      have hlink := mem_links_folded.mpr ⟨link, (hfolds (above.mem_tree hp)).mpr unfolded⟩
      have hparent := (parent?_eq_some (tidy_folded hp)).mpr hlink
      exact ⟨k + 1, by simpa [climb, hparent] using hk⟩

end Planting

namespace Planting

variable {p : Planting}

def forest (p : Planting) : Forest :=
  ⟨absorbEnumMembers p.tree, p.index, p.symbols.length + 1, straysOf p (absorbEnumMembers p.tree)⟩

/-- The index finds what looking through the symbols finds. -/
lemma lookup_index (p : Planting) (longname : String) :
    p.index.lookup longname = p.idOf? longname := by
  have h : ∀ (l : List Symbol) (k : Nat),
      ((l.zipIdx k).map fun e => (e.1.longname, e.2 + 1)).lookup longname
        = (l.findIdx? fun s => s.longname == longname).map (· + k + 1) := by
    intro l
    induction l with
    | nil => intro k; rfl
    | cons s rest ih =>
      intro k
      by_cases hs : s.longname = longname
      · simp [hs, findIdx?_cons]
      · have hne : (s.longname == longname) = false := by simpa using hs
        have hne' : (longname == s.longname) = false := by simpa using Ne.symm hs
        rw [zipIdx_cons, map_cons, lookup_cons, hne', findIdx?_cons, hne, ih]
        simp only [Bool.false_eq_true, ↓reduceIte, Option.map_map]
        congr 1
        funext i
        simp only [Function.comp_apply]
        omega
  exact h p.symbols 0

/-- The strays: the numbers of the planting that the tree does not hold. -/
lemma mem_straysOf {tree : SymbolTree} {s : Stray} : s ∈ straysOf p tree ↔
    s.id ∉ tree.ids ∧ 0 < s.id ∧ s.id ≤ p.symbols.length ∧ s.symbol = symbolLeft p s.id ∧
      s.parent = p.parent? s.id ∧ s.children = p.folded.childrenOf s.id := by
  simp only [straysOf, mem_filterMap, mem_range]
  constructor
  · rintro ⟨i, hi, hs⟩
    split at hs
    · simp at hs
    · rename_i hplaced
      rw [Option.some.injEq] at hs
      subst hs
      exact ⟨by simpa [ids] using hplaced, Nat.succ_pos i, hi, rfl, rfl, childrenLeft_eq _ _⟩
  · rintro ⟨hid, hpos, hle, hsymbol, hparent, hchildren⟩
    obtain ⟨id, symbol, parent, children⟩ := s
    obtain ⟨i, rfl⟩ := Nat.exists_eq_succ_of_ne_zero (Nat.pos_iff_ne_zero.mp hpos)
    refine ⟨i, hle, ?_⟩
    rw [if_neg (by simpa [ids] using hid), childrenLeft_eq]
    simp only at hsymbol hparent hchildren
    rw [hsymbol, hparent, hchildren]
    rfl

lemma nodup_ids_straysOf (p : Planting) (tree : SymbolTree) :
    ((straysOf p tree).map Stray.id).Nodup := by
  have hsub : ((straysOf p tree).map Stray.id).Sublist
      ((range p.symbols.length).map (· + 1)) := by
    rw [straysOf]
    generalize range p.symbols.length = l
    induction l with
    | nil => exact Sublist.refl _
    | cons i rest ih =>
      simp only [filterMap_cons, map_cons]
      split
      · exact ih.cons _
      · rename_i s hs
        split at hs
        · simp at hs
        · rw [Option.some.injEq] at hs
          subst hs
          exact ih.cons_cons _
  exact hsub.nodup (nodup_range.map fun a b h => Nat.succ.inj h)

lemma stray_children (hp : Tidy p) {s : Stray} (hs : s ∈ p.forest.strays) {c : Nat}
    (hc : c ∈ s.children) : ∃ t ∈ p.forest.strays, t.id = c ∧ t.parent = some s.id := by
  obtain ⟨hid, _, _, _, _, hchildren⟩ := mem_straysOf.mp hs
  rw [hchildren, mem_childrenOf] at hc
  have hlink := (mem_links_folded.mp hc).1
  have hpos := hp.child_pos _ hlink
  have hle := hp.child_le _ hlink
  refine ⟨⟨c, symbolLeft p c, p.parent? c, p.folded.childrenOf c⟩,
    mem_straysOf.mpr ⟨?_, hpos, hle, rfl, rfl, rfl⟩, rfl, (parent?_eq_some hp).mpr hlink⟩
  rw [ids_absorb_tree hp] at hid ⊢
  rw [mem_ids_tree_of_link (tidy_folded hp) hc]
  exact hid

/-- A symbol of the tree that is left has the longname that the planting gives its number. -/
lemma longname_of_mem_forest (hp : Tidy p) {t : SymbolTree} (ht : t ∈ p.forest.root.walk) :
    t.longname = (p.symbolAt t.id).longname := by
  obtain ⟨s, hs, rfl⟩ := mem_walk_absorb ht
  rw [longname_absorb, id_absorb, longname, (children_of_mem_tree hp hs).1]

lemma idOf?_of_mem_forest (hp : Tidy p) {t : SymbolTree} (ht : t ∈ p.forest.nodes) :
    p.forest.idOf? t.longname = some t.id := by
  have hwalk := mem_walk_of_mem_nodes ht
  have hmem : t.id ∈ p.folded.tree.ids := by
    rw [← ids_absorb_tree hp]
    exact SymbolTree.mem_ids.mpr ⟨t, hwalk, rfl⟩
  have hle : t.id ≤ p.symbols.length := id_le_of_mem_tree (tidy_folded hp) hmem
  have hne : t.id ≠ 0 := by
    -- the root has this number already
    intro h0
    have hnd : (absorbEnumMembers p.tree).ids.Nodup := by
      rw [ids_absorb_tree hp]
      exact nodup_ids_tree (tidy_folded hp)
    rw [ids_eq, nodup_cons] at hnd
    refine hnd.1 (mem_map.mpr ⟨t, ht, ?_⟩)
    rw [h0, id_absorb]
    rfl
  obtain ⟨i, hi⟩ := Nat.exists_eq_succ_of_ne_zero hne
  have hget : p.longnames[i]? = some t.longname := by
    rw [longname_of_mem_forest hp hwalk, hi, longnames, getElem?_map, symbolAt,
      getElem?_eq_getElem (by omega)]
    rfl
  rw [Forest.idOf?, hi]
  exact (p.lookup_index _).trans (idOf?_of_getElem? hp.longnames hget)

lemma root_symbol_forest (p : Planting) : p.forest.root.symbol = Symbol.root := rfl

/-- **The forest of a planting is consistent.** -/
lemma consistent_forest (hp : Tidy p) : p.forest.Consistent where
  ids_nodup := by
    rw [forest, ids_absorb_tree hp]
    exact nodup_ids_tree (tidy_folded hp)
  ids_lt := by
    intro i hi
    rw [forest, ids_absorb_tree hp] at hi
    exact Nat.lt_succ_of_le (id_le_of_mem_tree (tidy_folded hp) hi)
  strays_nodup := nodup_ids_straysOf p _
  strays_lt := by
    intro s hs
    exact Nat.lt_succ_of_le (mem_straysOf.mp hs).2.2.1
  apart := fun s hs => (mem_straysOf.mp hs).1
  stray_children_nodup := by
    intro s hs
    rw [(mem_straysOf.mp hs).2.2.2.2.2]
    exact nodup_childrenOf (tidy_folded hp) _
  stray_children := fun s hs c hc => stray_children hp hs hc
  indexed := fun t ht => idOf?_of_mem_forest hp ht
  root_symbol := p.root_symbol_forest

end Planting

/-- A run comes to a forest exactly when the census can be taken and no chain closes, and then it is
the forest of the planted census. -/
lemma result_buildForest {filter : Option DocletFilter} {doclets : List Doclet} {f : Forest} :
    (buildForest filter doclets).result = .ok f ↔
      ∃ c, (Census.ofDoclets filter doclets).result = .ok c ∧ c.checkCycles.result = .ok () ∧
        f = c.planting.forest := by
  simp only [buildForest, Run.result_bind, Run.result_attemptAll_bind, Census.result_plantResolved,
    Planting.result_attachOrphans, Run.result_reach, Run.result_pure]
  constructor
  · rintro ⟨c, hc, _, hcycles, _, hresolved, p, hplanting, _, _, rfl⟩
    rw [Except.ok.injEq] at hresolved hplanting
    subst hresolved
    subst hplanting
    exact ⟨c, hc, hcycles, rfl⟩
  · rintro ⟨c, hc, hcycles, rfl⟩
    exact ⟨c, hc, (), hcycles, _, rfl, c.planting, rfl, (), trivial, rfl⟩

lemma tidy_of_census {filter : Option DocletFilter} {doclets : List Doclet} {c : Census}
    (hc : (Census.ofDoclets filter doclets).result = .ok c) : c.planting.Tidy :=
  (Census.tidy_planting (Census.nodup_ofDoclets hc)).1

end AmbientDecl

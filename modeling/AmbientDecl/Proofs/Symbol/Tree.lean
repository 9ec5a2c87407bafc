import AmbientDecl.Symbol.Tree
import Mathlib.Data.List.Flatten
import Mathlib.Data.List.Nodup
import Mathlib.Data.List.Perm.Basic

/-!
# Walks through a tree of symbols

`SymbolTree.walk` lists the subtrees of a tree. The lemmas here say how the walk of a tree is made
of the walks of its children, and what a subtree has to do with the tree around it.

* `SymbolTree.induct` is induction over trees: a fact about all children gives it for the symbol.
* `SymbolTree.ids` are the numbers in the order of the walk, `SymbolTree.entries` the numbers with
  the longnames.
* `SymbolTree.edges` are the pairs of parent and child in a tree; every number but that of the root
  is the child of an edge once for each time that the walk comes to it (`perm_edges`).
* `SymbolTree.mapSymbols` changes every symbol and leaves the tree as it is.
-/

namespace AmbientDecl

open List

variable (t : SymbolTree) {s : SymbolTree} (i : Nat) (g : Symbol → Symbol)

namespace SymbolTree

/-- Induction over trees: what passes from all children to the symbol holds of every tree. -/
lemma induct {P : SymbolTree → Prop}
    (node : ∀ id s children, (∀ c ∈ children, P c) → P (.node id s children)) : ∀ t, P t := by
  -- the second motive is for lists of children
  apply @SymbolTree.rec P (fun l => ∀ c ∈ l, P c) node
  · intro c hc
    simp at hc
  · intro t rest ht hrest c hc
    rcases mem_cons.mp hc with rfl | hc
    · exact ht
    · exact hrest c hc

@[simp] lemma id_node (s : Symbol) (cs : List SymbolTree) : (node i s cs).id = i := rfl

@[simp] lemma children_node (s : Symbol) (cs : List SymbolTree) : (node i s cs).children = cs := rfl

lemma walkAll_eq (l : List SymbolTree) : walkAll l = l.flatMap walk := by
  induction l with
  | nil => rfl
  | cons t rest ih => rw [walkAll, ih, flatMap_cons]

@[simp] lemma walk_node (s : Symbol) (cs : List SymbolTree) :
    (node i s cs).walk = node i s cs :: cs.flatMap walk := by
  rw [walk, walkAll_eq]

lemma walk_eq : t.walk = t :: t.nodes := by
  cases t with
  | node i s cs => rw [walk]; rfl

lemma nodes_eq : t.nodes = t.children.flatMap walk :=
  walkAll_eq _

lemma mem_walk_self : t ∈ t.walk := by
  rw [walk_eq]
  exact mem_cons_self

lemma mem_walk_of_mem_nodes {t : SymbolTree} (hs : s ∈ t.nodes) : s ∈ t.walk := by
  rw [walk_eq]
  exact mem_cons_of_mem _ hs

/-- What lies below a subtree lies below the tree. -/
lemma mem_walk_trans {t r : SymbolTree} (hs : s ∈ t.walk) (hr : r ∈ s.walk) : r ∈ t.walk := by
  induction t using induct with
  | node i symbol cs ih =>
    rw [walk_node] at hs
    rcases mem_cons.mp hs with rfl | hs
    · exact hr
    · obtain ⟨c, hc, hs⟩ := mem_flatMap.mp hs
      rw [walk_node]
      exact mem_cons_of_mem _ (mem_flatMap.mpr ⟨c, hc, ih c hc hs⟩)

lemma mem_walk_of_child {t c : SymbolTree} (hs : s ∈ t.walk) (hc : c ∈ s.children) :
    c ∈ t.walk := by
  refine mem_walk_trans hs ?_
  rw [walk_eq, nodes_eq]
  exact mem_cons_of_mem _ (mem_flatMap.mpr ⟨c, hc, mem_walk_self c⟩)

/-- Everything below a tree is the child of a subtree. -/
lemma mem_nodes_iff {t c : SymbolTree} : c ∈ t.nodes ↔ ∃ s ∈ t.walk, c ∈ s.children := by
  constructor
  · intro hc
    induction t using induct with
    | node i symbol cs ih =>
      rw [nodes_eq] at hc
      obtain ⟨d, hd, hc⟩ := mem_flatMap.mp hc
      rw [walk_eq] at hc
      rcases mem_cons.mp hc with rfl | hc
      · exact ⟨_, mem_walk_self _, hd⟩
      · obtain ⟨s, hs, hc⟩ := ih d hd hc
        exact ⟨s, mem_walk_trans (mem_walk_of_child (mem_walk_self _) hd) hs, hc⟩
  · rintro ⟨s, hs, hc⟩
    induction t using induct with
    | node i symbol cs ih =>
      rw [nodes_eq]
      rw [walk_node] at hs
      rcases mem_cons.mp hs with rfl | hs
      · exact mem_flatMap.mpr ⟨c, hc, mem_walk_self c⟩
      · obtain ⟨d, hd, hs⟩ := mem_flatMap.mp hs
        exact mem_flatMap.mpr ⟨d, hd, mem_walk_of_child hs hc⟩

def ids (t : SymbolTree) : List Nat := t.walk.map SymbolTree.id

@[simp] lemma ids_node (s : Symbol) (cs : List SymbolTree) :
    (node i s cs).ids = i :: cs.flatMap ids := by
  simp only [ids, walk_node, map_cons, id_node, map_flatMap]
  rfl

lemma ids_eq : t.ids = t.id :: t.nodes.map SymbolTree.id := by
  rw [ids, walk_eq, map_cons]

lemma ids_children : t.ids = t.id :: t.children.flatMap ids := by
  cases t with
  | node i s cs => exact ids_node i s cs

lemma mem_ids {t : SymbolTree} {i : Nat} : i ∈ t.ids ↔ ∃ s ∈ t.walk, s.id = i := by
  simp [ids]

/-- What an index notes about a symbol: its longname and its number. -/
def entry (t : SymbolTree) : String × Nat := (t.longname, t.id)

/-- What the index says of a tree. -/
def entries (t : SymbolTree) : List (String × Nat) := t.walk.map entry

@[simp] lemma entries_node (s : Symbol) (cs : List SymbolTree) :
    (node i s cs).entries = (s.longname, i) :: cs.flatMap entries := by
  simp only [entries, walk_node, map_cons, map_flatMap]
  rfl

lemma ids_eq_entries : t.ids = t.entries.map Prod.snd := by
  rw [entries, map_map]
  rfl

/-- The pairs of parent and child. -/
def edges (t : SymbolTree) : List (Nat × Nat) :=
  t.walk.flatMap fun s => s.children.map fun c => (s.id, c.id)

@[simp] lemma edges_node (s : Symbol) (cs : List SymbolTree) :
    (node i s cs).edges = cs.map (fun c => (i, c.id)) ++ cs.flatMap edges := by
  simp only [edges, walk_node, flatMap_cons, children_node, id_node, flatMap_assoc]
  rfl

lemma mem_edges {t : SymbolTree} {a b : Nat} :
    (a, b) ∈ t.edges ↔ ∃ s ∈ t.walk, ∃ c ∈ s.children, s.id = a ∧ c.id = b := by
  simp [edges]

/-- Every number below the root is the child of an edge, as often as the walk comes to it. -/
lemma perm_edges : (t.edges.map Prod.snd).Perm (t.nodes.map SymbolTree.id) := by
  induction t using induct with
  | node i s cs ih =>
    rw [edges_node, nodes_eq, children_node, map_append, map_map, map_flatMap, map_flatMap]
    induction cs with
    | nil => exact Perm.refl _
    | cons c rest ihrest =>
      have hc : (c.edges.map Prod.snd).Perm (c.nodes.map SymbolTree.id) :=
        ih c mem_cons_self
      have hrest := ihrest (fun d hd => ih d (mem_cons_of_mem _ hd))
      simp only [map_cons, flatMap_cons, Function.comp_apply, walk_eq c, cons_append]
      refine Perm.cons _ ?_
      refine (perm_append_comm_assoc _ _ _).trans ?_
      exact hc.append hrest

/-- Changes every symbol. -/
def mapSymbols (g : Symbol → Symbol) (t : SymbolTree) : SymbolTree :=
  Id.run (t.traverse fun s => pure (g s))

lemma traverseAll_id (cs : List SymbolTree) :
    Id.run (traverseAll (fun s => pure (g s)) cs) = cs.map (mapSymbols g) := by
  induction cs with
  | nil => rfl
  | cons c rest ih => exact congrArg (mapSymbols g c :: ·) ih

@[simp] lemma mapSymbols_node (i : Nat) (s : Symbol) (cs : List SymbolTree) :
    (node i s cs).mapSymbols g = node i (g s) (cs.map (mapSymbols g)) :=
  congrArg (node i (g s)) (traverseAll_id g cs)

@[simp] lemma id_mapSymbols (t : SymbolTree) : (t.mapSymbols g).id = t.id := by
  cases t with
  | node i s cs => rw [mapSymbols_node]; rfl

/-- Where longnames stay, the entries stay. -/
lemma entries_mapSymbols {g : Symbol → Symbol} (hg : ∀ s, (g s).longname = s.longname)
    (t : SymbolTree) : (t.mapSymbols g).entries = t.entries := by
  induction t using induct with
  | node i s cs ih =>
    rw [mapSymbols_node, entries_node, entries_node, hg, flatMap_map]
    exact congrArg _ (flatMap_congr fun c hc => ih c hc)

end SymbolTree

end AmbientDecl

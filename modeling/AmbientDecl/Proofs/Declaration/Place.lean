import AmbientDecl.Declaration.Reference
import AmbientDecl.Proofs.Symbol.Tree

/-!
# Places in a tree

`placesIn` lists the subtrees of a tree, each with its ancestors. A place is the top of the tree or
the place of a child of another place (`places_induct`), so the ancestors of a place are the symbols
that one meets on the way up from it, the nearest first, and the last of them is the top
(`isChain_lineage`, `suffix_lineage`).
-/

namespace AmbientDecl

open List SymbolTree

variable {t : SymbolTree} (ancestors : List SymbolTree) {p : Place}

lemma placesInAll_eq (l : List SymbolTree) :
    placesInAll ancestors l = l.flatMap (placesIn ancestors) := by
  induction l with
  | nil => rfl
  | cons t rest ih => rw [placesInAll, ih, flatMap_cons]

lemma placesIn_eq (t : SymbolTree) : placesIn ancestors t
    = ⟨t, ancestors⟩ :: t.children.flatMap (placesIn (t :: ancestors)) := by
  cases t with
  | node i s cs => rw [placesIn, placesInAll_eq]; rfl

/-- The places of a tree are its subtrees in the order of the walk. -/
lemma tree_placesIn (t : SymbolTree) : ∀ ancestors,
    (placesIn ancestors t).map Place.tree = t.walk := by
  induction t using induct with
  | node i s cs ih =>
    intro ancestors
    rw [placesIn_eq, map_cons, map_flatMap, walk_node]
    congr 1
    apply flatMap_congr
    intro c hc
    exact ih c hc _

lemma tree_mem_walk {ancestors : List SymbolTree}
    (hp : p ∈ placesIn ancestors t) : p.tree ∈ t.walk := by
  rw [← tree_placesIn t ancestors]
  exact mem_map_of_mem hp

/-- Every subtree has a place. -/
lemma exists_place {s : SymbolTree} (hs : s ∈ t.walk) : ∃ p ∈ placesIn ancestors t, p.tree = s := by
  rw [← tree_placesIn t ancestors] at hs
  exact mem_map.mp hs

lemma mem_placesIn_top (t : SymbolTree) : ⟨t, ancestors⟩ ∈ placesIn ancestors t := by
  rw [placesIn_eq]
  exact mem_cons_self

lemma mem_placesIn_child : ∀ {ancestors : List SymbolTree} {q : Place}
    {c : SymbolTree}, q ∈ placesIn ancestors t → c ∈ q.tree.children →
      q.child c ∈ placesIn ancestors t := by
  induction t using induct with
  | node i s cs ih =>
    intro ancestors q c hq hc
    rw [placesIn_eq] at hq ⊢
    rcases mem_cons.mp hq with rfl | hq
    · refine mem_cons_of_mem _ (mem_flatMap.mpr ⟨c, hc, ?_⟩)
      exact mem_placesIn_top _ c
    · obtain ⟨d, hd, hq⟩ := mem_flatMap.mp hq
      exact mem_cons_of_mem _ (mem_flatMap.mpr ⟨d, hd, ih d hd hq hc⟩)

/-- **Induction over places**: from the top of the tree to the children of a place. -/
lemma places_induct {P : Place → Prop} : ∀ {ancestors : List SymbolTree}, P ⟨t, ancestors⟩ →
    (∀ q ∈ placesIn ancestors t, P q → ∀ c ∈ q.tree.children, P (q.child c)) →
      ∀ p ∈ placesIn ancestors t, P p := by
  induction t using induct with
  | node i s cs ih =>
    intro ancestors htop hchild p hp
    have htop_mem := mem_placesIn_top ancestors (node i s cs)
    rw [placesIn_eq] at hp
    rcases mem_cons.mp hp with rfl | hp
    · exact htop
    · obtain ⟨c, hc, hp⟩ := mem_flatMap.mp hp
      refine ih c hc (hchild _ htop_mem htop c hc) ?_ p hp
      intro q hq hPq d hd
      refine hchild q ?_ hPq d hd
      rw [placesIn_eq]
      exact mem_cons_of_mem _ (mem_flatMap.mpr ⟨c, hc, hq⟩)

/-- Each symbol of a lineage is a child of the next. -/
lemma isChain_lineage (hp : p ∈ placesIn [] t) :
    List.IsChain (fun a b => a ∈ b.children) p.lineage := by
  refine places_induct (P := fun p => IsChain (fun a b => a ∈ b.children) p.lineage)
    ?_ ?_ p hp
  · simp [Place.lineage]
  · intro q _ hq c hc
    simp only [Place.lineage, Place.child] at hq ⊢
    exact isChain_cons_cons.mpr ⟨hc, hq⟩

/-- A lineage ends with that of the top. -/
lemma suffix_lineage {ancestors : List SymbolTree}
    (hp : p ∈ placesIn ancestors t) : (t :: ancestors) <:+ p.lineage := by
  refine places_induct (P := fun p => (t :: ancestors) <:+ p.lineage) ?_ ?_ p hp
  · exact suffix_refl _
  · intro q _ hq c _
    exact hq.trans (suffix_cons _ _)

lemma mem_walk_of_lineage (hp : p ∈ placesIn [] t) : ∀ s ∈ p.lineage, s ∈ t.walk := by
  refine places_induct (P := fun p => ∀ s ∈ p.lineage, s ∈ t.walk) ?_ ?_ p hp
  · intro s hs
    simp only [Place.lineage, mem_singleton] at hs
    exact hs ▸ mem_walk_self t
  · intro q _ hall c hc s hs
    simp only [Place.lineage, Place.child, mem_cons] at hs hall
    rcases hs with rfl | hs
    · exact mem_walk_of_child (hall q.tree (Or.inl rfl)) hc
    · exact hall s hs

def Place.mapSymbols (g : Symbol → Symbol) (p : Place) : Place :=
  ⟨p.tree.mapSymbols g, p.ancestors.map (SymbolTree.mapSymbols g)⟩

/-- The places of a tree with every symbol changed. -/
lemma placesIn_mapSymbols (g : Symbol → Symbol) (t : SymbolTree) : ∀ ancestors,
    placesIn (ancestors.map (SymbolTree.mapSymbols g)) (t.mapSymbols g) =
      (placesIn ancestors t).map (Place.mapSymbols g) := by
  induction t using induct with
  | node i s cs ih =>
    intro ancestors
    rw [placesIn_eq, placesIn_eq, map_cons, map_flatMap]
    refine congrArg _ ?_
    rw [mapSymbols_node, children_node, flatMap_map]
    refine flatMap_congr fun c hc => ?_
    have hbelow := ih c hc (.node i s cs :: ancestors)
    rwa [map_cons, mapSymbols_node] at hbelow

end AmbientDecl

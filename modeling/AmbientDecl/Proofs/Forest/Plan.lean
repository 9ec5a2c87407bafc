import AmbientDecl.Proofs.Forest.Substitution

/-!
# The tree that an expansion makes

Expansion makes typedefs on its walk and puts them where the walk is out of the symbol they are for.
This module says where that is, as a function of the tree and of what becomes of each symbol.

**One symbol.** `ExpandedSymbol` is what becomes of a symbol: what is left of it and the typedefs
that are made. `ExpandsSignatures` says which typedef belongs to which parameter.

**Plans.** A plan gives every symbol, by its number, what becomes of it. `SymbolTree.hoisted` are
the typedefs that leave a tree, and `SymbolTree.rebuilt` is the tree with the typedefs behind the
children of containers.

**The rebuilt tree.** It has the old symbols and the typedefs (`mem_walk_rebuilt`), it is the old
tree where the typedefs are taken out (`pruned_rebuilt`), and a typedef comes to the nearest
container around its owner (`hoisted_place`).
-/

namespace AmbientDecl

open Text Expander Expansion List

/-- What becomes of a symbol: what is left of it, and the typedefs for its described properties. -/
structure ExpandedSymbol where
  symbol : Symbol
  made : List SymbolTree

/-- Signatures and what expansion makes of them. The typedefs are those of the first signature, in
the order of its groups, then those of the second and so on. -/
inductive ExpandsSignatures (container : String) :
    List Signature → List Signature → List SymbolTree → Prop
  | nil : ExpandsSignatures container [] [] []
  | cons {before : Signature} {after : List Parameter} {typedef : String → SymbolTree}
      {parameter : String → Parameter} {rest rest' : List Signature} {made : List SymbolTree}
      (first : Substitutes container before.params after typedef parameter)
      (others : ExpandsSignatures container rest rest' made) :
      ExpandsSignatures container (before :: rest) ({ before with params := after } :: rest')
        ((propertyRoots before.params).map typedef ++ made)

/-- The outcome is that of a symbol in a container: its type and its signatures are expanded, and
nothing else changes. -/
structure ExpandedSymbol.Of (container : String) (s : Symbol) (o : ExpandedSymbol) : Prop where
  symbol : o.symbol = { s with type := s.expandedType, signatures := o.symbol.signatures }
  signatures : ExpandsSignatures container s.signatures o.symbol.signatures o.made

/-- The symbol without what expansion changes. -/
def Symbol.unexpanded (s : Symbol) : Symbol := { s with type := none, signatures := [] }

namespace ExpandedSymbol.Of

variable {container : String} {s : Symbol} {o : ExpandedSymbol}

lemma unexpanded (h : o.Of container s) : o.symbol.unexpanded = s.unexpanded := by
  rw [h.symbol]
  rfl

lemma kind (h : o.Of container s) : o.symbol.kind = s.kind := by rw [h.symbol]

lemma longname (h : o.Of container s) : o.symbol.longname = s.longname := by rw [h.symbol]

lemma name (h : o.Of container s) : o.symbol.name = s.name := by rw [h.symbol]

end ExpandedSymbol.Of

lemma ExpandsSignatures.children {container : String} {befores afters : List Signature}
    {made : List SymbolTree} (h : ExpandsSignatures container befores afters made) :
    ∀ t ∈ made, t.children = [] := by
  induction h with
  | nil => simp
  | cons first others ih =>
    intro t ht
    rcases mem_append.mp ht with ht | ht
    · obtain ⟨root, hroot, rfl⟩ := mem_map.mp ht
      exact (first.typedef root hroot).children
    · exact ih t ht

lemma ExpandsSignatures.made_nil {container : String} {afters : List Signature}
    {made : List SymbolTree}
    (h : ExpandsSignatures container [] afters made) : made = [] := by
  cases h
  rfl

lemma expands_mapM (container : String) (owner : Symbol) :
    ∀ (signatures : List Signature) (e : Expansion),
    ∃ signatures' made e', Gives (signatures.mapM (expandSignature container owner)) e
      signatures' e' ∧
      Adds made e e' ∧ ExpandsSignatures container signatures signatures' made := by
  intro signatures
  induction signatures with
  | nil =>
    intro e
    exact ⟨[], [], e, by simp, Adds.refl e, .nil⟩
  | cons signature rest ih =>
    intro e
    obtain ⟨after, e₁, typedef, parameter, hfirst, hadds, hsubstitutes⟩ :=
      substitutes_expandSignature container owner signature e
    obtain ⟨rest', made, e', hrest, hadds', hexpands⟩ := ih e₁
    refine ⟨_, _, e', ?_, hadds.trans hadds', .cons hsubstitutes hexpands⟩
    simp only [mapM_cons, gives_bind, gives_pure]
    exact ⟨_, e₁, hfirst, rest', e', hrest, rfl, rfl⟩

/-- **Expanding a symbol** makes the typedefs of its outcome. -/
lemma expands_expandSymbol (container : String) (s : Symbol) (e : Expansion) :
    ∃ (o : ExpandedSymbol) (e' : Expansion),
    Gives (expandSymbol container s) e o.symbol e' ∧ Adds o.made e e' ∧ o.Of container s := by
  obtain ⟨signatures, made, e', hgives, hadds, hexpands⟩ :=
    expands_mapM container { s with type := s.expandedType } s.signatures e
  exact ⟨⟨{ s with type := s.expandedType, signatures := signatures }, made⟩, e',
    gives_expandSymbol.mpr ⟨signatures, hgives, rfl⟩, hadds, rfl, hexpands⟩

namespace SymbolTree

mutual

/-- The typedefs that leave a tree, in the order of the walk: those for the symbol itself and those
that leave its children, unless the symbol is a container. -/
def hoisted (typedefs : Nat → List SymbolTree) : SymbolTree → List SymbolTree
  | .node id symbol children =>
    typedefs id ++ if symbol.kind.isContainer then [] else hoistedAll typedefs children

def hoistedAll (typedefs : Nat → List SymbolTree) : List SymbolTree → List SymbolTree
  | [] => []
  | t :: rest => hoisted typedefs t ++ hoistedAll typedefs rest

end

mutual

/-- The tree that a plan makes: in a container, the typedefs that leave a child stand behind it. -/
def rebuilt (plan : Nat → ExpandedSymbol) : SymbolTree → SymbolTree
  | .node id symbol children =>
    .node id (plan id).symbol
      (if symbol.kind.isContainer then rebuiltDeclared plan children
        else rebuiltMembers plan children)

def rebuiltDeclared (plan : Nat → ExpandedSymbol) : List SymbolTree → List SymbolTree
  | [] => []
  | t :: rest => rebuilt plan t :: hoisted (fun i => (plan i).made) t ++ rebuiltDeclared plan rest

def rebuiltMembers (plan : Nat → ExpandedSymbol) : List SymbolTree → List SymbolTree
  | [] => []
  | t :: rest => rebuilt plan t :: rebuiltMembers plan rest

end

mutual

def pruned (n : Nat) : SymbolTree → SymbolTree
  | .node id symbol children => .node id symbol (prunedAll n children)

def prunedAll (n : Nat) : List SymbolTree → List SymbolTree
  | [] => []
  | t :: rest => if t.id < n then pruned n t :: prunedAll n rest else prunedAll n rest

end

/-- The typedefs of a tree in the order in which they are made. -/
def made (typedefs : Nat → List SymbolTree) (t : SymbolTree) : List SymbolTree :=
  t.walk.flatMap fun u => typedefs u.id

variable {typedefs typedefs' : Nat → List SymbolTree} {plan plan' : Nat → ExpandedSymbol}

lemma hoistedAll_eq (typedefs : Nat → List SymbolTree) (cs : List SymbolTree) :
    hoistedAll typedefs cs = cs.flatMap (hoisted typedefs) := by
  induction cs with
  | nil => rfl
  | cons c rest ih => rw [hoistedAll, ih, flatMap_cons]

lemma hoisted_node (typedefs : Nat → List SymbolTree) (i : Nat) (s : Symbol)
    (cs : List SymbolTree) :
    (node i s cs).hoisted typedefs =
      typedefs i ++ if s.kind.isContainer then [] else cs.flatMap (hoisted typedefs) := by
  rw [hoisted, hoistedAll_eq]

lemma hoisted_eq (typedefs : Nat → List SymbolTree) (t : SymbolTree) : t.hoisted typedefs =
    typedefs t.id ++ if t.kind.isContainer then [] else t.children.flatMap (hoisted typedefs) := by
  cases t with
  | node i s cs => exact hoisted_node typedefs i s cs

lemma rebuiltDeclared_eq (plan : Nat → ExpandedSymbol) (cs : List SymbolTree) :
    rebuiltDeclared plan cs =
      cs.flatMap fun c => c.rebuilt plan :: c.hoisted fun i => (plan i).made := by
  induction cs with
  | nil => rfl
  | cons c rest ih => rw [rebuiltDeclared, ih, flatMap_cons]

lemma rebuiltMembers_eq (plan : Nat → ExpandedSymbol) (cs : List SymbolTree) :
    rebuiltMembers plan cs = cs.map (rebuilt plan) := by
  induction cs with
  | nil => rfl
  | cons c rest ih => rw [rebuiltMembers, ih, map_cons]

lemma rebuilt_node (plan : Nat → ExpandedSymbol) (i : Nat) (s : Symbol) (cs : List SymbolTree) :
    (node i s cs).rebuilt plan = node i (plan i).symbol
      (if s.kind.isContainer then cs.flatMap fun c => c.rebuilt plan :: c.hoisted
        fun i => (plan i).made
        else cs.map (rebuilt plan)) := by
  rw [rebuilt, rebuiltDeclared_eq, rebuiltMembers_eq]

lemma prunedAll_eq (n : Nat) (cs : List SymbolTree) :
    prunedAll n cs = (cs.filter fun c => c.id < n).map (pruned n) := by
  induction cs with
  | nil => rfl
  | cons c rest ih =>
    rw [prunedAll, ih]
    by_cases hc : c.id < n <;> simp [hc]

lemma pruned_node (n i : Nat) (s : Symbol) (cs : List SymbolTree) :
    (node i s cs).pruned n = node i s ((cs.filter fun c => c.id < n).map (pruned n)) := by
  rw [pruned, prunedAll_eq]

lemma made_node (typedefs : Nat → List SymbolTree) (i : Nat) (s : Symbol) (cs : List SymbolTree) :
    (node i s cs).made typedefs = typedefs i ++ cs.flatMap (made typedefs) := by
  simp only [made, walk_node, flatMap_cons, id_node, flatMap_assoc]
  rfl

@[simp] lemma id_rebuilt (plan : Nat → ExpandedSymbol) (t : SymbolTree) :
    (t.rebuilt plan).id = t.id := by
  cases t with
  | node i s cs => rw [rebuilt_node]; rfl

lemma symbol_rebuilt (plan : Nat → ExpandedSymbol) (t : SymbolTree) :
    (t.rebuilt plan).symbol = (plan t.id).symbol := by
  cases t with
  | node i s cs => rw [rebuilt_node]; rfl

/-! Only the outcomes of its own symbols matter for a tree. -/

lemma made_congr {t : SymbolTree} (h : ∀ i ∈ t.ids, typedefs i = typedefs' i) :
    t.made typedefs = t.made typedefs' :=
  flatMap_congr fun u hu => h u.id (mem_ids.mpr ⟨u, hu, rfl⟩)

lemma hoisted_congr {t : SymbolTree} (h : ∀ i ∈ t.ids, typedefs i = typedefs' i) :
    t.hoisted typedefs = t.hoisted typedefs' := by
  induction t using induct with
  | node i s cs ih =>
    rw [ids_node, forall_mem_cons] at h
    rw [hoisted_node, hoisted_node, h.1]
    have hcs : cs.flatMap (hoisted typedefs) = cs.flatMap (hoisted typedefs') :=
      flatMap_congr fun c hc =>
        ih c hc fun i hi => h.2 i (mem_flatMap.mpr ⟨c, hc, hi⟩)
    rw [hcs]

lemma hoistedAll_congr {cs : List SymbolTree}
    (h : ∀ c ∈ cs, ∀ i ∈ c.ids, typedefs i = typedefs' i) :
    cs.flatMap (hoisted typedefs) = cs.flatMap (hoisted typedefs') :=
  flatMap_congr fun c hc => hoisted_congr (h c hc)

lemma rebuiltDeclared_congr {cs : List SymbolTree} (h : ∀ c ∈ cs, ∀ i ∈ c.ids, plan i = plan' i)
    (hcs : ∀ c ∈ cs, c.rebuilt plan = c.rebuilt plan') :
    rebuiltDeclared plan cs = rebuiltDeclared plan' cs := by
  rw [rebuiltDeclared_eq, rebuiltDeclared_eq]
  refine flatMap_congr fun c hc => ?_
  rw [hcs c hc]
  exact congrArg _ (hoisted_congr fun i hi => by rw [h c hc i hi])

lemma rebuilt_congr {t : SymbolTree} (h : ∀ i ∈ t.ids, plan i = plan' i) :
    t.rebuilt plan = t.rebuilt plan' := by
  induction t using induct with
  | node i s cs ih =>
    rw [ids_node, forall_mem_cons] at h
    have hbelow : ∀ c ∈ cs, ∀ i ∈ c.ids, plan i = plan' i :=
      fun c hc i hi => h.2 i (mem_flatMap.mpr ⟨c, hc, hi⟩)
    have hcs : ∀ c ∈ cs, c.rebuilt plan = c.rebuilt plan' := fun c hc => ih c hc (hbelow c hc)
    rw [rebuilt, rebuilt, h.1, rebuiltDeclared_congr hbelow hcs, rebuiltMembers_eq,
      rebuiltMembers_eq, map_congr_left hcs]

/-- What leaves a tree was made in it, in the same order. -/
lemma hoisted_sublist (typedefs : Nat → List SymbolTree) (t : SymbolTree) :
    (t.hoisted typedefs).Sublist (t.made typedefs) := by
  induction t using induct with
  | node i s cs ih =>
    rw [hoisted_node, made_node]
    refine (Sublist.refl _).append ?_
    split
    · exact nil_sublist _
    · exact Sublist.flatMap_right cs ih

lemma made_sublist {t u : SymbolTree} (hu : u ∈ t.walk) :
    (u.made typedefs).Sublist (t.made typedefs) := by
  induction t using induct with
  | node i s cs ih =>
    rw [walk_node] at hu
    rcases mem_cons.mp hu with rfl | hu
    · exact Sublist.refl _
    · obtain ⟨c, hc, hu⟩ := mem_flatMap.mp hu
      rw [made_node]
      refine ((ih c hc hu).trans ?_).trans (sublist_append_right _ _)
      exact sublist_flatten_of_mem (mem_map_of_mem hc)

lemma mem_hoisted_self (typedefs : Nat → List SymbolTree) {t m : SymbolTree}
    (hm : m ∈ typedefs t.id) : m ∈ t.hoisted typedefs := by
  rw [hoisted_eq]
  exact mem_append_left _ hm

end SymbolTree

namespace SymbolTree

variable {plan : Nat → ExpandedSymbol} {t : SymbolTree}

lemma children_rebuilt (plan : Nat → ExpandedSymbol) (t : SymbolTree) : (t.rebuilt plan).children =
    if t.kind.isContainer then
      t.children.flatMap fun c => c.rebuilt plan :: c.hoisted fun i => (plan i).made
    else t.children.map (rebuilt plan) := by
  cases t with
  | node i s cs => rw [rebuilt_node]; rfl

/-- What leaves a child of a container is a child of it. -/
lemma hoisted_mem_children {c m : SymbolTree} (hkind : t.kind.isContainer = true)
    (hc : c ∈ t.children) (hm : m ∈ c.hoisted fun i => (plan i).made) :
    m ∈ (t.rebuilt plan).children := by
  rw [children_rebuilt, if_pos hkind]
  exact mem_flatMap.mpr ⟨c, hc, mem_cons_of_mem _ hm⟩

/-- A child of a rebuilt symbol is a rebuilt child or came from one. -/
lemma mem_children_rebuilt {v : SymbolTree} (hv : v ∈ (t.rebuilt plan).children) :
    ∃ c ∈ t.children, v = c.rebuilt plan ∨
      t.kind.isContainer = true ∧ v ∈ c.hoisted fun i => (plan i).made := by
  rw [children_rebuilt] at hv
  split at hv
  · rename_i hkind
    obtain ⟨c, hc, hv⟩ := mem_flatMap.mp hv
    exact ⟨c, hc, (mem_cons.mp hv).imp_right fun hv => ⟨hkind, hv⟩⟩
  · obtain ⟨c, hc, rfl⟩ := mem_map.mp hv
    exact ⟨c, hc, .inl rfl⟩

lemma mem_rebuilt {u : SymbolTree} (hu : u ∈ t.walk) : u.rebuilt plan ∈ (t.rebuilt plan).walk := by
  induction t using induct with
  | node i s cs ih =>
    rw [walk_node] at hu
    rcases mem_cons.mp hu with rfl | hu
    · exact mem_walk_self _
    · obtain ⟨c, hc, hu⟩ := mem_flatMap.mp hu
      have hchild : c.rebuilt plan ∈ ((node i s cs).rebuilt plan).children := by
        rw [children_rebuilt]
        split
        · exact mem_flatMap.mpr ⟨c, hc, mem_cons_self⟩
        · exact mem_map_of_mem hc
      exact mem_walk_trans (mem_walk_of_child (mem_walk_self _) hchild) (ih c hc hu)

lemma mem_made {typedefs : Nat → List SymbolTree} {m : SymbolTree} :
    m ∈ t.made typedefs ↔ ∃ u ∈ t.walk, m ∈ typedefs u.id :=
  mem_flatMap

/-- **All symbols of the rebuilt tree** are rebuilt symbols and typedefs. -/
lemma mem_walk_rebuilt {v : SymbolTree}
    (hleaf : ∀ m ∈ t.made fun i => (plan i).made, m.children = [])
    (hv : v ∈ (t.rebuilt plan).walk) :
    (∃ u ∈ t.walk, v = u.rebuilt plan) ∨ v ∈ t.made fun i => (plan i).made := by
  induction t using induct with
  | node i s cs ih =>
    have hbelow : ∀ c ∈ cs, (c.made fun i => (plan i).made).Sublist
        ((node i s cs).made fun i => (plan i).made) :=
      fun c hc => made_sublist (mem_walk_of_child (mem_walk_self _) hc)
    rw [walk_eq, nodes_eq] at hv
    rcases mem_cons.mp hv with rfl | hv
    · exact .inl ⟨_, mem_walk_self _, rfl⟩
    · obtain ⟨w, hw, hv⟩ := mem_flatMap.mp hv
      obtain ⟨c, hc, rfl | ⟨_, hw⟩⟩ := mem_children_rebuilt hw
      · rcases ih c hc (fun m hm => hleaf m ((hbelow c hc).subset hm)) hv with ⟨u, hu, rfl⟩ | hv
        · exact .inl ⟨u, mem_walk_trans (mem_walk_of_child (mem_walk_self _) hc) hu, rfl⟩
        · exact .inr ((hbelow c hc).subset hv)
      · -- a typedef has nothing below it
        have hmade := (hbelow c hc).subset ((hoisted_sublist _ c).subset hw)
        rw [walk_eq, nodes_eq, hleaf w hmade, flatMap_nil, mem_singleton] at hv
        exact .inr (hv ▸ hmade)

/-- **Without the typedefs the rebuilt tree is the old one**, up to what expansion changes of a
symbol. -/
lemma pruned_rebuilt {n : Nat} (hold : ∀ i ∈ t.ids, i < n)
    (hnew : ∀ m ∈ t.made fun i => (plan i).made, n ≤ m.id)
    (hsymbols : ∀ u ∈ t.walk, (plan u.id).symbol.unexpanded = u.symbol.unexpanded) :
    ((t.rebuilt plan).pruned n).mapSymbols Symbol.unexpanded = t.mapSymbols Symbol.unexpanded := by
  induction t using induct with
  | node i s cs ih =>
    rw [ids_node, forall_mem_cons] at hold
    rw [made_node] at hnew
    rw [walk_node, forall_mem_cons] at hsymbols
    have hkept : ∀ c ∈ cs, c.id < n := by
      intro c hc
      refine hold.2 c.id (mem_flatMap.mpr ⟨c, hc, ?_⟩)
      exact mem_ids.mpr ⟨c, mem_walk_self c, rfl⟩
    have hgone : ∀ c ∈ cs, ∀ m ∈ c.hoisted fun i => (plan i).made, ¬ m.id < n := by
      intro c hc m hm
      have hmade := (hoisted_sublist _ c).subset hm
      exact Nat.not_lt.mpr
        (hnew m (mem_append_right _ (mem_flatMap.mpr ⟨c, hc, hmade⟩)))
    have hchildren : (((node i s cs).rebuilt plan).children.filter fun c => c.id < n) =
        cs.map (rebuilt plan) := by
      rw [children_rebuilt, children_node]
      split
      · rw [filter_flatMap, ← flatMap_singleton' (cs.map (rebuilt plan)), flatMap_map]
        refine flatMap_congr fun c hc => ?_
        rw [filter_cons_of_pos (by simpa using hkept c hc),
          filter_eq_nil_iff.mpr (by simpa using hgone c hc)]
      · refine filter_eq_self.mpr ?_
        simpa using hkept
    rw [rebuilt_node] at hchildren ⊢
    rw [children_node] at hchildren
    have hsymbol : (plan i).symbol.unexpanded = s.unexpanded := hsymbols.1
    rw [pruned_node, hchildren, mapSymbols_node, mapSymbols_node, hsymbol, map_map, map_map]
    refine congrArg _ (map_congr_left fun c hc => ?_)
    refine ih c hc (fun j hj => hold.2 j (mem_flatMap.mpr ⟨c, hc, hj⟩)) ?_ ?_
    · exact fun m hm => hnew m (mem_append_right _ (mem_flatMap.mpr ⟨c, hc, hm⟩))
    · exact fun u hu => hsymbols.2 u (mem_flatMap.mpr ⟨c, hc, hu⟩)

/-- **A typedef that leaves a symbol comes to the nearest container around it**, or leaves the whole
tree. -/
lemma hoisted_place {ancestors : List SymbolTree} {typedefs : Nat → List SymbolTree} :
    ∀ p ∈ placesIn ancestors t, ∀ m ∈ p.tree.hoisted typedefs, m ∈ t.hoisted typedefs ∨
      ∃ k ∈ t.walk, p.ancestors.find? (fun a => a.kind.isContainer) = some k ∧
        ∃ c ∈ k.children, m ∈ c.hoisted typedefs := by
  refine places_induct (fun m hm => .inl hm) ?_
  intro q hq ih c hc m hm
  have hmem := tree_mem_walk hq
  simp only [Place.child, Place.lineage] at hm ⊢
  cases hkind : q.tree.kind.isContainer with
  | true =>
    refine .inr ⟨q.tree, hmem, find?_cons_of_pos (by exact hkind), c, hc, hm⟩
  | false =>
    rw [find?_cons_of_neg (by simp [hkind])]
    refine ih m ?_
    rw [hoisted_eq, if_neg (by simp [hkind])]
    exact mem_append_right _ (mem_flatMap.mpr ⟨c, hc, hm⟩)

end SymbolTree

end AmbientDecl

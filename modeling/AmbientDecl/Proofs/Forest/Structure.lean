import AmbientDecl.Proofs.Declaration.Place
import AmbientDecl.Proofs.Identifier
import Mathlib.Data.List.Chain
import Mathlib.Logic.Relation

/-!
# The structure of a forest

A forest is a tree and the strays, the symbols that the index knows and the tree does not hold.
Taken together they are a graph of children and parents.

**The graph.** `Forest.links` are all pairs of a symbol and one of its children, in the tree and
among the strays. `Forest.parentOf?` is the parent that a symbol has: in the tree the nearest of its
ancestors, else the one that is written down with the stray.

**What is to be shown.** `Forest.Sound` says that the graph is a tree where it can be reached from
the root: nobody is the child of two symbols or twice of one, parents and children agree, the walk
comes to everything that can be reached once, the way up from there ends at the root, and the index
finds what the walk comes to.

**What is kept.** `Forest.Consistent` is what the stages keep: numbers differ and are used up in
order, strays belong to strays. It is enough (`Consistent.sound`). A stage keeps it by giving a
forest that extends the one before (`Extends.consistent`).
-/

namespace AmbientDecl

open List SymbolTree

namespace Forest

variable {f : Forest}

/-- All pairs of a symbol and one of its children. -/
def links (f : Forest) : List (Nat × Nat) :=
  f.root.edges ++ f.strays.flatMap fun s => s.children.map fun c => (s.id, c)

/-- The number of the parent in the tree. -/
def parentOf? (f : Forest) (id : Nat) : Option Nat :=
  match f.place? id with
  | some p => p.ancestors.head?.map SymbolTree.id
  | none => (f.strays.find? fun s => s.id == id).bind Stray.parent

/-- The graph of children and parents is a tree where it can be reached from the root. -/
structure Sound (f : Forest) : Prop where
  /-- Every symbol is in at most one list of children, and there once. -/
  once : (f.links.map Prod.snd).Nodup
  /-- Every symbol in a list of children has its owner as parent. -/
  parent : ∀ l ∈ f.links, f.parentOf? l.2 = some l.1
  /-- The walk comes to no symbol twice. -/
  walk_once : f.root.ids.Nodup
  /-- The walk comes to exactly the symbols that can be reached from the root. -/
  walk_reaches : ∀ id, id ∈ f.root.ids ↔
    Relation.ReflTransGen (fun a b => (a, b) ∈ f.links) f.root.id id
  /-- The way up from a symbol that the walk comes to is its lineage, which ends at the root. -/
  climbs : ∀ p ∈ f.places, List.IsChain (fun a b => f.parentOf? a.id = some b.id) p.lineage ∧
    p.lineage.getLast? = some f.root
  /-- At the root the way up is over. -/
  root_parent : f.parentOf? f.root.id = none
  /-- The index finds every symbol that the walk comes to below the root. -/
  indexed : ∀ t ∈ f.nodes, f.idOf? t.longname = some t.id

/-- What every stage keeps. -/
structure Consistent (f : Forest) : Prop where
  ids_nodup : f.root.ids.Nodup
  ids_lt : ∀ i ∈ f.root.ids, i < f.nextId
  strays_nodup : (f.strays.map Stray.id).Nodup
  strays_lt : ∀ s ∈ f.strays, s.id < f.nextId
  /-- No stray is in the tree. -/
  apart : ∀ s ∈ f.strays, s.id ∉ f.root.ids
  stray_children_nodup : ∀ s ∈ f.strays, s.children.Nodup
  /-- What belongs to a stray is a stray that names it as its parent. -/
  stray_children : ∀ s ∈ f.strays, ∀ c ∈ s.children, ∃ t ∈ f.strays, t.id = c ∧ t.parent = some s.id
  indexed : ∀ t ∈ f.nodes, f.idOf? t.longname = some t.id
  root_symbol : f.root.symbol = Symbol.root

/-- A forest and a later one: nothing is gone or has another longname, what is new has the next
numbers, and the index finds both. -/
structure Extends (f g : Forest) : Prop where
  root : g.root.id = f.root.id ∧ g.root.symbol = f.root.symbol
  strays : g.strays = f.strays
  index : ∀ longname id, f.idOf? longname = some id → g.idOf? longname = some id
  new : ∃ new : List (String × Nat), g.root.entries.Perm (f.root.entries ++ new) ∧
    new.map Prod.snd = List.range' f.nextId new.length ∧ g.nextId = f.nextId + new.length ∧
    ∀ e ∈ new, g.idOf? e.1 = some e.2

lemma ids_places (f : Forest) : f.places.map (fun p => p.tree.id) = f.root.ids := by
  have htree : f.places.map Place.tree = f.root.walk := tree_placesIn _ _
  rw [ids, ← htree, map_map]
  rfl

lemma place?_eq_some (hf : f.root.ids.Nodup) {p : Place} (hp : p ∈ f.places) :
    f.place? p.tree.id = some p := by
  rw [← f.ids_places] at hf
  exact find?_eq_some_of_nodup (fun p : Place => p.tree.id) hf hp rfl

lemma place?_eq_none {id : Nat} (hid : id ∉ f.root.ids) : f.place? id = none := by
  rw [place?, find?_eq_none]
  intro p hp heq
  exact hid (SymbolTree.mem_ids.mpr ⟨p.tree, tree_mem_walk hp, by simpa using heq⟩)

lemma parentOf?_child (hf : f.root.ids.Nodup) {s c : SymbolTree} (hs : s ∈ f.root.walk)
    (hc : c ∈ s.children) : f.parentOf? c.id = some s.id := by
  obtain ⟨q, hq, rfl⟩ := exists_place [] hs
  have hplace := place?_eq_some hf (mem_placesIn_child hq hc)
  simp only [Place.child] at hplace
  simp [parentOf?, hplace, Place.lineage]

lemma parentOf?_root (hf : f.root.ids.Nodup) : f.parentOf? f.root.id = none := by
  have hplace := place?_eq_some hf (mem_placesIn_top [] f.root)
  simp only at hplace
  simp [parentOf?, hplace]

lemma parentOf?_stray (hf : Consistent f) {s : Stray} (hs : s ∈ f.strays) :
    f.parentOf? s.id = s.parent := by
  rw [parentOf?, place?_eq_none (hf.apart s hs),
    find?_eq_some_of_nodup Stray.id hf.strays_nodup hs rfl]
  rfl

/-- Parents depend on the shape of the tree and on the strays. -/
lemma parentOf?_congr {g : Forest} {change : Symbol → Symbol}
    (htree : g.root.mapSymbols change = f.root.mapSymbols change) (hstrays : g.strays = f.strays)
    (id : Nat) : g.parentOf? id = f.parentOf? id := by
  have hparent : ∀ h : Forest, (h.place? id).map (fun p => p.ancestors.head?.map SymbolTree.id) =
      ((placesIn [] (h.root.mapSymbols change)).find? fun p => p.tree.id == id).map
        fun p => p.ancestors.head?.map SymbolTree.id := by
    intro h
    have hplaces := placesIn_mapSymbols change h.root []
    rw [map_nil] at hplaces
    rw [hplaces, find?_map, Option.map_map]
    have htest : ((fun p : Place => p.tree.id == id) ∘ Place.mapSymbols change) =
        fun p => p.tree.id == id := by
      funext p
      simp [Place.mapSymbols]
    rw [htest]
    refine congrArg (fun read => Option.map read _) ?_
    funext p
    cases hp : p.ancestors <;> simp [Place.mapSymbols, hp]
  have hsame := (hparent g).trans ((congrArg _ (by rw [htree])).trans (hparent f).symm)
  unfold parentOf?
  rw [hstrays]
  cases hg : g.place? id <;> cases hf : f.place? id <;> simp_all

lemma mem_links {a b : Nat} : (a, b) ∈ f.links ↔
    (∃ s ∈ f.root.walk, ∃ c ∈ s.children, s.id = a ∧ c.id = b) ∨
      ∃ s ∈ f.strays, s.id = a ∧ b ∈ s.children := by
  rw [links, mem_append, mem_edges]
  refine or_congr Iff.rfl ?_
  simp only [mem_flatMap, mem_map, Prod.mk.injEq]
  constructor
  · rintro ⟨s, hs, c, hc, rfl, rfl⟩
    exact ⟨s, hs, rfl, hc⟩
  · rintro ⟨s, hs, rfl, hb⟩
    exact ⟨s, hs, b, hb, rfl, rfl⟩

lemma Consistent.parent (hf : Consistent f) : ∀ l ∈ f.links, f.parentOf? l.2 = some l.1 := by
  rintro ⟨a, b⟩ hl
  rcases mem_links.mp hl with ⟨s, hs, c, hc, rfl, rfl⟩ | ⟨s, hs, rfl, hb⟩
  · exact parentOf?_child hf.ids_nodup hs hc
  · obtain ⟨t, ht, rfl, hparent⟩ := hf.stray_children s hs b hb
    rw [← hparent]
    exact parentOf?_stray hf ht

lemma Consistent.nodup_links (hf : Consistent f) : f.links.Nodup := by
  have htree : f.root.edges.Nodup := by
    refine Nodup.of_map Prod.snd ((f.root.perm_edges).nodup_iff.mpr ?_)
    have := hf.ids_nodup
    rw [ids_eq] at this
    exact (nodup_cons.mp this).2
  have hstrays : (f.strays.flatMap fun s => s.children.map fun c => (s.id, c)).Nodup := by
    rw [nodup_flatMap]
    constructor
    · intro s hs
      exact (hf.stray_children_nodup s hs).map fun a b h => (Prod.mk.inj h).2
    · refine List.Pairwise.imp ?_ (pairwise_map.mp hf.strays_nodup)
      intro s t hne l hs ht
      obtain ⟨_, _, rfl⟩ := mem_map.mp hs
      obtain ⟨_, _, heq⟩ := mem_map.mp ht
      exact hne (Prod.mk.inj heq).1.symm
  refine Nodup.append htree hstrays ?_
  rintro ⟨a, b⟩ hedge hstray
  obtain ⟨s, hs, _, _, rfl, _⟩ := SymbolTree.mem_edges.mp hedge
  obtain ⟨t, ht, hb⟩ := mem_flatMap.mp hstray
  obtain ⟨_, _, heq⟩ := mem_map.mp hb
  refine hf.apart t ht (SymbolTree.mem_ids.mpr ⟨s, hs, ?_⟩)
  exact (Prod.mk.inj heq).1.symm

/-- Nobody is the child of two symbols, or twice of one. -/
lemma Consistent.once (hf : Consistent f) : (f.links.map Prod.snd).Nodup := by
  refine Nodup.map_on ?_ hf.nodup_links
  rintro ⟨a, b⟩ hl ⟨a', b'⟩ hl' heq
  simp only at heq
  subst heq
  have h := hf.parent _ hl
  rw [hf.parent _ hl', Option.some.injEq] at h
  simp only at h
  rw [h]

/-- The walk comes to exactly what can be reached. -/
lemma Consistent.walk_reaches (hf : Consistent f) (id : Nat) : id ∈ f.root.ids ↔
    Relation.ReflTransGen (fun a b => (a, b) ∈ f.links) f.root.id id := by
  constructor
  · intro hid
    obtain ⟨t, ht, rfl⟩ := SymbolTree.mem_ids.mp hid
    obtain ⟨p, hp, rfl⟩ := exists_place [] ht
    refine places_induct (P := fun p => Relation.ReflTransGen (fun a b => (a, b) ∈ f.links)
      f.root.id p.tree.id) Relation.ReflTransGen.refl ?_ p hp
    intro q hq hreach c hc
    exact hreach.tail (mem_links.mpr (Or.inl ⟨q.tree, tree_mem_walk hq, c, hc, rfl, rfl⟩))
  · intro hreach
    induction hreach with
    | refl => exact SymbolTree.mem_ids.mpr ⟨f.root, mem_walk_self _, rfl⟩
    | tail _ hlink ih =>
      rcases mem_links.mp hlink with ⟨s, hs, c, hc, _, rfl⟩ | ⟨s, hs, rfl, _⟩
      · exact SymbolTree.mem_ids.mpr ⟨c, mem_walk_of_child hs hc, rfl⟩
      · exact absurd ih (hf.apart s hs)

lemma Consistent.climbs (hf : Consistent f) : ∀ p ∈ f.places,
    List.IsChain (fun a b => f.parentOf? a.id = some b.id) p.lineage ∧
      p.lineage.getLast? = some f.root := by
  intro p hp
  constructor
  · refine (isChain_lineage hp).imp_of_mem_imp ?_
    intro a b ha hb hab
    exact parentOf?_child hf.ids_nodup (mem_walk_of_lineage hp b hb) hab
  · obtain ⟨front, hfront⟩ := suffix_lineage hp
    rw [← hfront]
    simp

/-- **A consistent forest is sound.** -/
lemma Consistent.sound (hf : Consistent f) : Sound f where
  once := hf.once
  parent := hf.parent
  walk_once := hf.ids_nodup
  walk_reaches := hf.walk_reaches
  climbs := hf.climbs
  root_parent := parentOf?_root hf.ids_nodup
  indexed := hf.indexed

/-- Below the root, the entries of a later forest are the old ones and the new ones. -/
lemma Extends.entry_nodes {g : Forest} (h : Extends f g) {new : List (String × Nat)}
    (hnew : g.root.entries.Perm (f.root.entries ++ new)) :
    (g.nodes.map SymbolTree.entry).Perm (f.nodes.map SymbolTree.entry ++ new) := by
  have hroot : g.root.entry = f.root.entry := by
    rw [entry, longname, h.root.1, h.root.2]
    rfl
  rw [entries, entries, walk_eq, walk_eq, map_cons, map_cons, hroot] at hnew
  exact hnew.cons_inv

/-- **A later forest is consistent if the one before is.** -/
lemma Extends.consistent {g : Forest} (h : Extends f g) (hf : Consistent f) : Consistent g := by
  obtain ⟨new, hperm, hnumbers, hnext, hindexed⟩ := h.new
  have hids : g.root.ids.Perm (f.root.ids ++ range' f.nextId new.length) := by
    rw [ids_eq_entries, ids_eq_entries, ← hnumbers, ← map_append]
    exact hperm.map _
  have hmem : ∀ i, i ∈ g.root.ids ↔ i ∈ f.root.ids ∨ f.nextId ≤ i ∧ i < f.nextId + new.length := by
    intro i
    rw [hids.mem_iff, mem_append, mem_range'_1]
  refine
    { ids_nodup := ?_
      ids_lt := ?_
      strays_nodup := h.strays ▸ hf.strays_nodup
      strays_lt := ?_
      apart := ?_
      stray_children_nodup := h.strays ▸ hf.stray_children_nodup
      stray_children := h.strays ▸ hf.stray_children
      indexed := ?_
      root_symbol := h.root.2.trans hf.root_symbol }
  · refine hids.nodup_iff.mpr (Nodup.append hf.ids_nodup (nodup_range' 1) ?_)
    intro i hi hi'
    have := hf.ids_lt i hi
    have := (mem_range'_1.mp hi').1
    omega
  · intro i hi
    rcases (hmem i).mp hi with hold | hnew
    · have := hf.ids_lt i hold
      omega
    · omega
  · intro s hs
    have := hf.strays_lt s (h.strays ▸ hs)
    omega
  · intro s hs hi
    rw [h.strays] at hs
    rcases (hmem s.id).mp hi with hold | hnew
    · exact hf.apart s hs hold
    · have := hf.strays_lt s hs
      omega
  · intro t ht
    have hentry := (h.entry_nodes hperm).mem_iff.mp (mem_map_of_mem ht)
    rcases mem_append.mp hentry with hold | hnew
    · obtain ⟨s, hs, heq⟩ := mem_map.mp hold
      obtain ⟨hlongname, hid⟩ := Prod.mk.inj heq
      rw [← hlongname, ← hid]
      exact h.index _ _ (hf.indexed s hs)
    · exact hindexed _ hnew

end Forest

end AmbientDecl

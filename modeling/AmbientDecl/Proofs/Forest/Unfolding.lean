import AmbientDecl.Proofs.Forest.Planting
import AmbientDecl.Proofs.Identifier
import AmbientDecl.Proofs.Symbol.Tree

/-!
# The tree of a planting

`Planting.tree` follows the links from the root, as deep as there are symbols. That is deep enough
and finds nothing twice, although links off the root may run in circles: a circle has no way in,
because each of its symbols has its one parent on the circle.

**Climbing.** `Planting.climb k id` follows the parents of a symbol for `k` links. The root has no
parent, so a climb that ends there has only one length (`climb_root_unique`), and never more links
than there are symbols (`climb_root_le`).

**Unfolding.** The tree at a symbol holds exactly what climbs to it (`mem_ids_treeAt`), each symbol
once (`nodup_ids_treeAt`). So the whole tree holds exactly the symbols that climb to the root
(`mem_ids_tree`), and a symbol in it has all its children below it (`children_of_mem_tree`).
-/

namespace AmbientDecl

open List

variable {a c k id x : Nat}

namespace Planting

variable {p : Planting}

def parent? (p : Planting) (id : Nat) : Option Nat :=
  (p.links.find? fun l => l.2 == id).map (·.1)

lemma mem_childrenOf : c ∈ p.childrenOf a ↔ (a, c) ∈ p.links := by
  simp [childrenOf]

/-- Where each number has at most one parent, a link tells who it is. -/
lemma parent?_eq_some (hp : Tidy p) : p.parent? c = some a ↔ (a, c) ∈ p.links := by
  constructor
  · intro h
    obtain ⟨⟨a', c'⟩, hfind, rfl⟩ := Option.map_eq_some_iff.mp h
    have hmem := mem_of_find?_eq_some hfind
    have hc : c' = c := by simpa using find?_some hfind
    exact hc ▸ hmem
  · intro h
    rw [parent?, find?_eq_some_of_nodup Prod.snd hp.once h rfl]
    rfl

lemma parent?_root (hp : Tidy p) : p.parent? 0 = none := by
  cases h : p.parent? 0 with
  | none => rfl
  | some a => exact absurd (hp.child_pos _ ((parent?_eq_some hp).mp h)) (by simp)

lemma nodup_childrenOf (hp : Tidy p) (a : Nat) : (p.childrenOf a).Nodup := by
  have hsub : (p.childrenOf a).Sublist p.linked :=
    (filter_sublist (p := fun l : Nat × Nat => l.1 == a) (l := p.links)).map Prod.snd
  exact hsub.nodup hp.once

/-- The symbol `k` links above. -/
def climb (p : Planting) : Nat → Nat → Option Nat
  | 0, id => some id
  | k + 1, id => (p.parent? id).bind (p.climb k)

lemma climb_add (a b id : Nat) : p.climb (a + b) id = (p.climb a id).bind (p.climb b) := by
  induction a generalizing id with
  | zero => simp [climb]
  | succ a ih =>
    rw [Nat.succ_add, climb, climb]
    cases p.parent? id with
    | none => rfl
    | some q => exact ih q

lemma climb_one (id : Nat) : p.climb 1 id = p.parent? id := by
  cases h : p.parent? id <;> simp [climb, h]

lemma climb_succ_eq_some :
    p.climb (k + 1) id = some a ↔ ∃ b, p.climb k id = some b ∧ p.parent? b = some a := by
  rw [climb_add, Option.bind_eq_some_iff]
  simp only [climb_one]

lemma climb_root (hp : Tidy p) (hk : 0 < k) : p.climb k 0 = none := by
  obtain ⟨k, rfl⟩ := Nat.exists_eq_succ_of_ne_zero (Nat.pos_iff_ne_zero.mp hk)
  simp [climb, parent?_root hp]

/-- Two climbs from a symbol to the root are equally long. -/
lemma climb_root_unique (hp : Tidy p) {l : Nat} (hk : p.climb k id = some 0)
    (hl : p.climb l id = some 0) : k = l := by
  by_contra hne
  rcases Nat.lt_or_gt_of_ne hne with h | h
  · obtain ⟨d, rfl⟩ := Nat.exists_eq_add_of_lt h
    rw [Nat.add_assoc, climb_add, hk, Option.bind_some, climb_root hp (Nat.succ_pos d)] at hl
    simp at hl
  · obtain ⟨d, rfl⟩ := Nat.exists_eq_add_of_lt h
    rw [Nat.add_assoc, climb_add, hl, Option.bind_some, climb_root hp (Nat.succ_pos d)] at hk
    simp at hk

/-- On the way from a symbol to the root no symbol is met twice. -/
lemma climb_inj (hp : Tidy p) {i j : Nat} (hk : p.climb k id = some 0) (hi : i ≤ k)
    (hj : j ≤ k) (hia : p.climb i id = some a) (hja : p.climb j id = some a) : i = j := by
  obtain ⟨d, rfl⟩ := Nat.exists_eq_add_of_le hi
  have hd : p.climb d a = some 0 := by simpa [climb_add, hia] using hk
  obtain ⟨e, he⟩ := Nat.exists_eq_add_of_le hj
  have he' : p.climb e a = some 0 := by simpa [he, climb_add, hja] using hk
  have := climb_root_unique hp hd he'
  omega

/-- **No climb to the root has more links than there are symbols.** -/
lemma climb_root_le (hp : Tidy p) (hk : p.climb k id = some 0) : k ≤ p.symbols.length := by
  -- the symbols below the root on the way are different numbers from one on
  let passed := (range k).map fun i => (p.climb i id).getD 0
  have hstep : ∀ i < k, ∃ a b, p.climb i id = some a ∧ (b, a) ∈ p.links := by
    intro i hi
    obtain ⟨d, rfl⟩ := Nat.exists_eq_add_of_lt hi
    rw [Nat.add_right_comm, climb_add] at hk
    obtain ⟨b, hb, _⟩ := Option.bind_eq_some_iff.mp hk
    obtain ⟨a, ha, hab⟩ := climb_succ_eq_some.mp hb
    exact ⟨a, b, ha, (parent?_eq_some hp).mp hab⟩
  have hnodup : passed.Nodup := by
    refine Nodup.map_on ?_ nodup_range
    intro i hi j hj heq
    rw [mem_range] at hi hj
    obtain ⟨a, _, ha, _⟩ := hstep i hi
    obtain ⟨b, _, hb, _⟩ := hstep j hj
    rw [ha, hb, Option.getD_some, Option.getD_some] at heq
    exact climb_inj hp hk (Nat.le_of_lt hi) (Nat.le_of_lt hj) ha (heq ▸ hb)
  have hsub : passed ⊆ range' 1 p.symbols.length := by
    intro a ha
    obtain ⟨i, hi, rfl⟩ := mem_map.mp ha
    obtain ⟨a, b, ha, hl⟩ := hstep i (mem_range.mp hi)
    rw [ha, Option.getD_some, mem_range'_1]
    have := hp.child_pos _ hl
    have := hp.child_le _ hl
    omega
  have hlen := (subperm_of_subset hnodup hsub).length_le
  simpa [passed] using hlen

@[simp] lemma id_treeAt (p : Planting) (depth id : Nat) : (p.treeAt depth id).id = id := by
  cases depth <;> rfl

lemma ids_treeAt_succ (p : Planting) (depth id : Nat) :
    (p.treeAt (depth + 1) id).ids = id :: (p.childrenOf id).flatMap fun c =>
      (p.treeAt depth c).ids := by
  rw [treeAt, SymbolTree.ids_node, flatMap_map]

/-- The tree at a symbol holds what climbs to it. -/
lemma mem_ids_treeAt (hp : Tidy p) : ∀ {depth id : Nat},
    x ∈ (p.treeAt depth id).ids ↔ ∃ k ≤ depth, p.climb k x = some id := by
  intro depth
  induction depth with
  | zero =>
    intro id
    simp only [treeAt, SymbolTree.ids_node, flatMap_nil, mem_singleton,
      Nat.le_zero_eq, exists_eq_left, climb, Option.some.injEq]
  | succ depth ih =>
    intro id
    rw [ids_treeAt_succ, mem_cons]
    constructor
    · rintro (rfl | hx)
      · exact ⟨0, Nat.zero_le _, rfl⟩
      · obtain ⟨c, hc, hx⟩ := mem_flatMap.mp hx
        obtain ⟨k, hk, hclimb⟩ := ih.mp hx
        have hlink := (parent?_eq_some hp).mpr (mem_childrenOf.mp hc)
        exact ⟨k + 1, Nat.succ_le_succ hk, climb_succ_eq_some.mpr ⟨c, hclimb, hlink⟩⟩
    · rintro ⟨k, hk, hclimb⟩
      cases k with
      | zero => exact Or.inl (by simpa [climb] using hclimb)
      | succ k =>
        obtain ⟨c, hc, hlink⟩ := climb_succ_eq_some.mp hclimb
        refine Or.inr (mem_flatMap.mpr ⟨c, ?_, ih.mpr ⟨k, Nat.le_of_succ_le_succ hk, hc⟩⟩)
        exact mem_childrenOf.mpr ((parent?_eq_some hp).mp hlink)

/-- Below a symbol that climbs to the root nothing is found twice. -/
lemma nodup_ids_treeAt (hp : Tidy p) : ∀ {depth id level : Nat}, p.climb level id = some 0 →
    (p.treeAt depth id).ids.Nodup := by
  intro depth
  induction depth with
  | zero => intro id level _; simp [treeAt]
  | succ depth ih =>
    intro id level hlevel
    have hbelow : ∀ c ∈ p.childrenOf id, p.climb (level + 1) c = some 0 := by
      intro c hc
      have hlink := (parent?_eq_some hp).mpr (mem_childrenOf.mp hc)
      simpa [climb, hlink] using hlevel
    have hat : ∀ {c x : Nat}, c ∈ p.childrenOf id → x ∈ (p.treeAt depth c).ids →
        ∃ k, p.climb k x = some c ∧ p.climb (k + (level + 1)) x = some 0 := by
      intro c x hc hx
      obtain ⟨k, _, hk⟩ := (mem_ids_treeAt hp).mp hx
      exact ⟨k, hk, by rw [climb_add, hk, Option.bind_some, hbelow c hc]⟩
    rw [ids_treeAt_succ, nodup_cons]
    constructor
    · intro hmem
      obtain ⟨c, hc, hx⟩ := mem_flatMap.mp hmem
      obtain ⟨k, _, hroot⟩ := hat hc hx
      have := climb_root_unique hp hroot hlevel
      omega
    · refine nodup_flatMap.mpr ⟨fun c hc => ih (hbelow c hc), ?_⟩
      refine List.Pairwise.imp_of_mem ?_ (nodup_childrenOf hp id)
      intro c d hc hd hne x hxc hxd
      obtain ⟨k, hk, hroot⟩ := hat hc hxc
      obtain ⟨l, hl, hroot'⟩ := hat hd hxd
      -- the two ways up from `x` are equally long, so they pass the same child
      have hlen := climb_root_unique hp hroot hroot'
      have hkl : k = l := by omega
      subst hkl
      rw [hk, Option.some.injEq] at hl
      exact hne hl

/-- A subtree is the unfolding of its symbol, by as much of the depth as the way to it has left. -/
lemma eq_treeAt_of_mem (hp : Tidy p) {t : SymbolTree} : ∀ {depth id : Nat},
    t ∈ (p.treeAt depth id).walk →
      ∃ k ≤ depth, p.climb k t.id = some id ∧ t = p.treeAt (depth - k) t.id := by
  intro depth
  induction depth with
  | zero =>
    intro id ht
    simp only [treeAt, SymbolTree.walk_node, flatMap_nil, mem_singleton] at ht
    subst ht
    exact ⟨0, Nat.le_refl _, rfl, rfl⟩
  | succ depth ih =>
    intro id ht
    rw [treeAt, SymbolTree.walk_node] at ht
    rcases mem_cons.mp ht with rfl | ht
    · exact ⟨0, Nat.zero_le _, rfl, rfl⟩
    · obtain ⟨c, hc, ht⟩ := mem_flatMap.mp ht
      obtain ⟨child, hchild, rfl⟩ := mem_map.mp hc
      obtain ⟨k, hk, hclimb, heq⟩ := ih ht
      have hlink := (parent?_eq_some hp).mpr (mem_childrenOf.mp hchild)
      refine ⟨k + 1, Nat.succ_le_succ hk, climb_succ_eq_some.mpr ⟨child, hclimb, hlink⟩, ?_⟩
      rw [Nat.succ_sub_succ]
      exact heq

/-- **The tree holds exactly the symbols that climb to the root.** -/
lemma mem_ids_tree (hp : Tidy p) : x ∈ p.tree.ids ↔ ∃ k, p.climb k x = some 0 := by
  rw [tree, mem_ids_treeAt hp]
  constructor
  · rintro ⟨k, _, hk⟩
    exact ⟨k, hk⟩
  · rintro ⟨k, hk⟩
    exact ⟨k, Nat.le_succ_of_le (climb_root_le hp hk), hk⟩

/-- **The tree holds no symbol twice.** -/
lemma nodup_ids_tree (hp : Tidy p) : p.tree.ids.Nodup :=
  nodup_ids_treeAt hp (show p.climb 0 0 = some 0 from rfl)

/-- The tree holds the child of a link exactly when it holds the parent. -/
lemma mem_ids_tree_of_link (hp : Tidy p) (h : (a, c) ∈ p.links) :
    c ∈ p.tree.ids ↔ a ∈ p.tree.ids := by
  have hlink := (parent?_eq_some hp).mpr h
  rw [mem_ids_tree hp, mem_ids_tree hp]
  constructor
  · rintro ⟨k, hk⟩
    cases k with
    | zero =>
      have h0 : c = 0 := by simpa [climb] using hk
      exact absurd (hp.child_pos _ h) (by simp [h0])
    | succ k => exact ⟨k, by simpa [climb, hlink] using hk⟩
  · rintro ⟨k, hk⟩
    exact ⟨k + 1, by simpa [climb, hlink] using hk⟩

/-- **Nothing is cut off**: a symbol in the tree has below it all that is linked to it. -/
lemma children_of_mem_tree (hp : Tidy p) {t : SymbolTree} (ht : t ∈ p.tree.walk) :
    t.symbol = p.symbolAt t.id ∧ t.children.map SymbolTree.id = p.childrenOf t.id := by
  obtain ⟨k, _, hclimb, heq⟩ := eq_treeAt_of_mem hp ht
  have hk := climb_root_le hp hclimb
  -- the way to `t` is shorter than the depth, so one more unfolding is left
  obtain ⟨d, hd⟩ : ∃ d, p.symbols.length + 1 - k = d + 1 := ⟨p.symbols.length - k, by omega⟩
  rw [hd, treeAt] at heq
  generalize t.id = i at heq
  subst heq
  refine ⟨rfl, ?_⟩
  simp only [SymbolTree.children_node, map_map]
  exact (map_congr_left fun c _ => id_treeAt p d c).trans (map_id _)

lemma id_le_of_mem_tree (hp : Tidy p) {x : Nat} (hx : x ∈ p.tree.ids) : x ≤ p.symbols.length := by
  obtain ⟨k, hk⟩ := (mem_ids_tree hp).mp hx
  cases k with
  | zero =>
    have h0 : x = 0 := by simpa [climb] using hk
    omega
  | succ k =>
    obtain ⟨a, ha, _⟩ := Option.bind_eq_some_iff.mp hk
    exact hp.child_le _ ((parent?_eq_some hp).mp ha)

end Planting

end AmbientDecl

import AmbientDecl.Proofs.Arrival.Census
import AmbientDecl.Proofs.Forest.Planting

/-!
# Planting symbols in another order

The number of a symbol is its place in the census, so symbols in another order have other numbers.

**Renaming.** `Planting.Renamed σ p q` says that `q` is `p` with every number `i` replaced by `σ i`:
it has the same symbols, finds the same longnames and gives every symbol the same children in the
same order. Planting a symbol, linking it and attaching an orphan keep this
(`Planting.renamed_attach`).

**Orphans.** An orphan looks for its home by longnames, so it finds the same one, and it is reported
in the same words (`Planting.agree_attachOrphans`).

**Numbers.** `Census.renumber` takes the number of a symbol in one census to its number in another
with the same symbols.

**Children and orphans.** Where a symbol goes gives away its group. So in a census whose groups are
kept in their order, every symbol has the same children in the same order
(`Census.renamed_resolved`), and the orphans are attached in the same order
(`Census.sortedOrphans_renamed`).
-/

namespace AmbientDecl

open List Orphan

variable {id i : Nat} {o : Orphan}

namespace Planting

variable {σ : Nat → Nat} {p q : Planting}

/-- The same planting with other numbers. -/
structure Renamed (σ : Nat → Nat) (p q : Planting) : Prop where
  injective : Function.Injective σ
  zero : σ 0 = 0
  /-- Numbers that have not been given out stay. -/
  fixes : ∀ id, p.symbols.length < id → σ id = id
  length : q.symbols.length = p.symbols.length
  symbolAt : ∀ id, q.symbolAt (σ id) = p.symbolAt id
  idOf? : ∀ longname, q.idOf? longname = (p.idOf? longname).map σ
  childrenOf : ∀ id, q.childrenOf (σ id) = (p.childrenOf id).map σ

lemma Renamed.pos (h : Renamed σ p q) (hpos : 0 < id) : 0 < σ id := by
  refine Nat.pos_of_ne_zero fun hzero => ?_
  have := h.injective (hzero.trans h.zero.symm)
  omega

lemma Renamed.le (h : Renamed σ p q) (hle : id ≤ p.symbols.length) : σ id ≤ q.symbols.length := by
  rw [h.length]
  by_contra hlt
  have := h.injective (h.fixes (σ id) (by omega))
  omega

lemma childrenOf_link (p : Planting) (parent child id : Nat) : (p.link parent child).childrenOf id
      = p.childrenOf id ++ if parent = id then [child] else [] := by
  by_cases heq : parent = id <;> simp [childrenOf, link, heq]

lemma Renamed.link (h : Renamed σ p q) (parent child : Nat) :
    Renamed σ (p.link parent child) (q.link (σ parent) (σ child)) where
  injective := h.injective
  zero := h.zero
  fixes := h.fixes
  length := h.length
  symbolAt := h.symbolAt
  idOf? := h.idOf?
  childrenOf id := by
    rw [childrenOf_link, childrenOf_link, h.childrenOf, map_append]
    by_cases heq : parent = id
    · simp [heq]
    · have hne : ¬ σ parent = σ id := fun hσ => heq (h.injective hσ)
      simp [heq, hne]

lemma symbolAt_append (p : Planting) (s : Symbol) (links : List (Nat × Nat)) (id : Nat) :
    (Planting.mk (p.symbols ++ [s]) links).symbolAt id
      = if id = p.symbols.length + 1 then s else p.symbolAt id := by
  cases id with
  | zero => rfl
  | succ i =>
    simp only [Planting.symbolAt, Nat.add_right_cancel_iff]
    by_cases hi : i = p.symbols.length
    · simp [hi]
    · rw [if_neg hi]
      by_cases hlt : i < p.symbols.length
      · rw [getElem?_append_left hlt]
      · rw [getElem?_eq_none (by simp; omega), getElem?_eq_none (by omega)]

lemma idOf?_append (p : Planting) (s : Symbol) (links : List (Nat × Nat)) (longname : String) :
    (Planting.mk (p.symbols ++ [s]) links).idOf? longname =
      (p.idOf? longname).or (if s.longname = longname then some (p.symbols.length + 1)
        else none) := by
  simp only [Planting.idOf?, findIdx?_append]
  cases hfind : p.symbols.findIdx? fun s => s.longname == longname with
  | some i => simp
  | none => by_cases hs : s.longname = longname <;> simp [findIdx?_cons, hs]

/-- A new symbol gets the same number in both. -/
lemma Renamed.plant (h : Renamed σ p q) (parent : Nat) (s : Symbol) :
    (q.plant (σ parent) s).2 = σ (p.plant parent s).2 ∧
      Renamed σ (p.plant parent s).1 (q.plant (σ parent) s).1 := by
  have hnew : σ (p.symbols.length + 1) = p.symbols.length + 1 := h.fixes _ (Nat.lt_succ_self _)
  refine ⟨?_, h.injective, h.zero, ?_, ?_, ?_, ?_, ?_⟩
  · simp only [Planting.plant, h.length, hnew]
  · intro id hid
    simp only [Planting.plant, length_append, length_singleton] at hid
    exact h.fixes id (by omega)
  · simp [Planting.plant, h.length]
  · intro id
    simp only [Planting.plant]
    rw [symbolAt_append, symbolAt_append, h.length, h.symbolAt]
    by_cases hid : id = p.symbols.length + 1
    · rw [if_pos hid, if_pos (by rw [hid, hnew])]
    · have hne : ¬ σ id = p.symbols.length + 1 := fun hσ => hid (h.injective (hσ.trans hnew.symm))
      rw [if_neg hid, if_neg hne]
  · intro longname
    simp only [Planting.plant]
    rw [idOf?_append, idOf?_append, h.length, h.idOf?]
    cases p.idOf? longname with
    | some id => rfl
    | none => by_cases hs : s.longname = longname <;> simp [hs, hnew]
  · intro id
    have hlink := (h.link parent (p.symbols.length + 1)).childrenOf id
    rw [hnew] at hlink
    simp only [Planting.plant, h.length]
    exact hlink

lemma symbolAt_modifyAt (p : Planting) (hpos : 0 < id) (hle : id ≤ p.symbols.length)
    (f : Symbol → Symbol) (id' : Nat) :
    (p.modifyAt id f).symbolAt id' = if id' = id then f (p.symbolAt id) else p.symbolAt id' := by
  cases id' with
  | zero => rw [if_neg (by omega)]; rfl
  | succ i =>
    obtain ⟨k, rfl⟩ : ∃ k, id = k + 1 := ⟨id - 1, by omega⟩
    simp only [Planting.symbolAt, modifyAt, Nat.add_sub_cancel, getElem?_modify,
      Nat.add_right_cancel_iff]
    by_cases hi : i = k
    · subst hi
      simp [getElem?_eq_getElem (show i < p.symbols.length by omega)]
    · simp [hi, Ne.symm hi]

lemma idOf?_modifyAt (p : Planting) (id : Nat) (memberof longname : String) :
    (p.modifyAt id fun s => { s with unresolvedParent := some memberof }).idOf? longname
      = p.idOf? longname := by
  rw [idOf?_eq, idOf?_eq, longnames_eq, longnames_eq, tags_modifyAt]

/-- An orphan remembers the parent that it misses. -/
lemma Renamed.modifyAt (h : Renamed σ p q) (hpos : 0 < id) (hle : id ≤ p.symbols.length)
    (memberof : String) :
    Renamed σ (p.modifyAt id fun s => { s with unresolvedParent := some memberof })
      (q.modifyAt (σ id) fun s => { s with unresolvedParent := some memberof }) where
  injective := h.injective
  zero := h.zero
  fixes := by simpa [Planting.modifyAt] using h.fixes
  length := by simpa [Planting.modifyAt] using h.length
  symbolAt id' := by
    rw [symbolAt_modifyAt p hpos hle, symbolAt_modifyAt q (h.pos hpos) (h.le hle), h.symbolAt,
      h.symbolAt]
    by_cases hid : id' = id
    · simp [hid]
    · have hne : ¬ σ id' = σ id := fun hσ => hid (h.injective hσ)
      simp [hid, hne]
  idOf? longname := by rw [idOf?_modifyAt, idOf?_modifyAt, h.idOf?]
  childrenOf := h.childrenOf

lemma anchorOf_renamed (h : Renamed σ p q) (steps : List Longname.Step) : ∀ depth,
    anchorOf q steps depth = (σ (anchorOf p steps depth).1, (anchorOf p steps depth).2) := by
  intro depth
  induction depth with
  | zero => rw [anchorOf, anchorOf, h.zero]
  | succ depth ih =>
    simp only [anchorOf, h.idOf?]
    cases p.idOf? (Longname.join (steps.take (depth + 1))) with
    | none => exact ih
    | some id => rfl

lemma renamed_descend : ∀ (steps : List (String × String)) {p q : Planting} {anchor : Nat},
    Renamed σ p q → (descend q (σ anchor) steps).2 = σ (descend p anchor steps).2 ∧
      Renamed σ (descend p anchor steps).1 (descend q (σ anchor) steps).1 := by
  intro steps
  induction steps with
  | nil => intro p q anchor h; exact ⟨rfl, h⟩
  | cons step rest ih =>
    intro p q anchor h
    simp only [descend, h.idOf?]
    cases p.idOf? step.1 with
    | some id => exact ih h
    | none =>
      obtain ⟨hid, hplant⟩ := h.plant anchor
        { Symbol.bare .namespaceDecl step.2 step.1 with synthesized := true }
      simp only [Option.map_none, hid]
      exact ih hplant

lemma renamed_homeOf (h : Renamed σ p q) (memberof : String) :
    (homeOf q memberof).2 = σ (homeOf p memberof).2 ∧
      Renamed σ (homeOf p memberof).1 (homeOf q memberof).1 := by
  simp only [homeOf, anchorOf_renamed h, h.symbolAt]
  split
  · exact renamed_descend _ h
  · exact ⟨rfl, h⟩

end Planting

def Orphan.rename (σ : Nat → Nat) (o : Orphan) : Orphan := { o with id := σ o.id }

namespace Planting

variable {σ : Nat → Nat} {p q : Planting}

/-- **Attaching an orphan keeps a renaming.** -/
lemma renamed_attach (h : Renamed σ p q) (hp : Tidy p) (hpos : 0 < o.id)
    (hle : o.id ≤ p.symbols.length) : Renamed σ (p.attach o) (q.attach (o.rename σ)) := by
  obtain ⟨hhome, hrenamed⟩ := renamed_homeOf h o.memberof
  have hlonger := (tidy_homeOf hp o.memberof).2.2.length_le
  rw [attach, attach]
  simp only [rename, hhome]
  exact (hrenamed.modifyAt hpos (hle.trans hlonger) o.memberof).link _ _

/-- An orphan is reported in the same words. -/
lemma agree_attachOrphan (h : Renamed σ p q) (hp : Tidy p) (hpos : 0 < o.id)
    (hle : o.id ≤ p.symbols.length) :
    (attachOrphan p o).Agree (Renamed σ) (attachOrphan q (o.rename σ)) := by
  have hattach := renamed_attach h hp hpos hle
  have hdiagnostics : ∀ (r : Planting) (o : Orphan), (attachOrphan r o).diagnostics =
      [orphanDiagnostic ((r.attach o).symbolAt o.id) ((r.attach o).symbolAt (homeOf r o.memberof).2)
        o.memberof] := fun _ _ => rfl
  refine .success (result_attachOrphan p o) (result_attachOrphan q (o.rename σ)) hattach ?_
  rw [hdiagnostics, hdiagnostics]
  simp only [rename] at hattach ⊢
  rw [(renamed_homeOf h o.memberof).1, hattach.symbolAt, hattach.symbolAt]

lemma agree_attachOrphans : ∀ {os : List Orphan} {p q : Planting}, Renamed σ p q → Tidy p →
    Awaits p os → (attachOrphans p os).Agree (Renamed σ) (attachOrphans q (os.map (rename σ))) := by
  intro os
  induction os with
  | nil => intro p q h _ _; exact Run.agree_pure h
  | cons o rest ih =>
    intro p q h hp hawaits
    have hpos := hawaits.pos o mem_cons_self
    have hle := hawaits.le o mem_cons_self
    refine (agree_attachOrphan h hp hpos hle).bind fun p' q' hp' _ hnext => ?_
    rw [result_attachOrphan, Except.ok.injEq] at hp'
    subst hp'
    exact ih hnext (hawaits.first hp).1 (hawaits.attach hp)

end Planting

open List Planting

def Placement.rename (σ : Nat → Nat) : Placement → Placement
  | .dropped => .dropped
  | .under parent => .under (σ parent)
  | .orphan memberof => .orphan memberof

namespace Census

variable {c c' : Census} {packages : List String} {s : Symbol}

def number (c : Census) (longname : String) : Nat := (c.resolved.idOf? longname).getD 0

/-- The number in another census of the symbol that has a number in this one. -/
def renumber (c c' : Census) : Nat → Nat
  | 0 => 0
  | i + 1 =>
    match c.symbols[i]? with
    | some s => c'.number s.longname
    | none => i + 1

section

variable (hnd : (c.symbols.map Symbol.longname).Nodup)

include hnd

lemma idOf?_of_getElem?
    (hs : c.symbols[i]? = some s) : c.resolved.idOf? s.longname = some (i + 1) := by
  refine Planting.idOf?_of_getElem? (p := c.resolved) hnd ?_
  simp [longnames, resolved, hs]

lemma number_of_getElem? (hs : c.symbols[i]? = some s) : c.number s.longname = i + 1 := by
  rw [number, idOf?_of_getElem? hnd hs]
  rfl

lemma idOf?_eq_number (hs : s ∈ c.symbols) :
    c.resolved.idOf? s.longname = some (c.number s.longname) := by
  obtain ⟨i, hi⟩ := getElem?_of_mem hs
  rw [number, idOf?_of_getElem? hnd hi]
  rfl

/-- The number of a symbol is taken to its number. -/
lemma renumber_number (hs : s ∈ c.symbols) :
    renumber c c' (c.number s.longname) = c'.number s.longname := by
  obtain ⟨i, hi⟩ := getElem?_of_mem hs
  rw [number_of_getElem? hnd hi, renumber, hi]

lemma symbolAt_number (hs : s ∈ c.symbols) : c.resolved.symbolAt (c.number s.longname) = s := by
  obtain ⟨i, hi⟩ := getElem?_of_mem hs
  rw [number_of_getElem? hnd hi]
  simp [symbolAt, resolved, hi]

end

section Permuted

variable (hperm : c.symbols.Perm c'.symbols) (hnd : (c.symbols.map Symbol.longname).Nodup)

include hperm hnd

lemma nodup_of_perm : (c'.symbols.map Symbol.longname).Nodup :=
  (hperm.map Symbol.longname).nodup_iff.mp hnd

omit hnd in
lemma getElem?_eq_none_of_perm (h : c.symbols[i]? = none) : c'.symbols[i]? = none := by
  rw [List.getElem?_eq_none_iff] at h ⊢
  rwa [← hperm.length_eq]

lemma idOf?_renumber (longname : String) :
    c'.resolved.idOf? longname = (c.resolved.idOf? longname).map (renumber c c') := by
  have hmem : longname ∈ c.resolved.longnames ↔ longname ∈ c'.resolved.longnames :=
    (hperm.map Symbol.longname).mem_iff
  by_cases hin : longname ∈ c.resolved.longnames
  · obtain ⟨s, hs, rfl⟩ := mem_map.mp hin
    have hnd' := nodup_of_perm hperm hnd
    rw [idOf?_eq_number hnd hs, idOf?_eq_number hnd' (hperm.mem_iff.mp hs), Option.map_some,
      renumber_number hnd hs]
  · rw [Planting.idOf?_eq_none.mpr hin, Planting.idOf?_eq_none.mpr (fun h => hin (hmem.mpr h))]
    rfl

lemma symbolAt_renumber (id : Nat) :
    c'.resolved.symbolAt (renumber c c' id) = c.resolved.symbolAt id := by
  have hnd' := nodup_of_perm hperm hnd
  cases id with
  | zero => rfl
  | succ i =>
    rw [renumber]
    cases hi : c.symbols[i]? with
    | some s =>
      simp only
      rw [symbolAt_number hnd' (hperm.mem_iff.mp (mem_of_getElem? hi))]
      simp [symbolAt, resolved, hi]
    | none => simp [symbolAt, resolved, hi, getElem?_eq_none_of_perm hperm hi]

lemma renumber_renumber (id : Nat) : renumber c' c (renumber c c' id) = id := by
  have hnd' := nodup_of_perm hperm hnd
  cases id with
  | zero => rfl
  | succ i =>
    rw [renumber.eq_def c c']
    cases hi : c.symbols[i]? with
    | some s =>
      simp only [hi]
      rw [renumber_number hnd' (hperm.mem_iff.mp (mem_of_getElem? hi)), number_of_getElem? hnd hi]
    | none => simp [renumber, hi, getElem?_eq_none_of_perm hperm hi]

lemma renumber_injective : Function.Injective (renumber c c') :=
  Function.LeftInverse.injective (renumber_renumber hperm hnd)

end Permuted

/-- The link of a symbol whose parent exists. -/
def linkOf (c : Census) (s : Symbol) : Option (Nat × Nat) :=
  match placementOf c s with
  | .under parent => some (parent, c.number s.longname)
  | _ => none

/-- A symbol as an orphan, if its parent does not exist. -/
def orphanOf (c : Census) (s : Symbol) : Option Orphan :=
  match placementOf c s with
  | .orphan memberof => some ⟨c.number s.longname, memberof⟩
  | _ => none

section

variable (hnd : (c.symbols.map Symbol.longname).Nodup)

include hnd

lemma placed_eq : c.placed = c.symbols.map fun s => (s, c.number s.longname, placementOf c s) := by
  have hzip : (c.symbols.zipIdx.map Prod.fst).map
    (fun s => (s, c.number s.longname, placementOf c s))
      = c.placed := by
    rw [map_map, placed]
    refine map_congr_left ?_
    rintro ⟨s, i⟩ hs
    have hi := mem_zipIdx_iff_getElem?.mp hs
    simp only [Function.comp_apply, number_of_getElem? hnd hi]
  rw [← hzip, zipIdx_map_fst]

lemma resolvedLinks_eq : c.resolvedLinks = c.symbols.filterMap c.linkOf := by
  rw [resolvedLinks, placed_eq hnd, filterMap_map]
  rfl

lemma orphans_eq : c.orphans = c.symbols.filterMap c.orphanOf := by
  rw [orphans, placed_eq hnd, filterMap_map]
  rfl

end

/-- A symbol that is not left out goes where its group says. -/
lemma placementOf_eq (c : Census) (s : Symbol) :
    placementOf c s = if c.isDropped s then .dropped
      else match s.group c.packages with
        | none => .under 0
        | some memberof =>
          match c.resolved.idOf? memberof with
          | some parent => .under parent
          | none => .orphan memberof := by
  unfold placementOf Symbol.group groupOf
  split
  · rfl
  · cases nonempty? s.memberof? with
    | none => rfl
    | some m =>
      simp only [Option.filter_some]
      cases c.packages.contains m <;> rfl

/-- The group of what goes under a symbol. -/
def groupUnder (c : Census) (parent : Nat) : Option String :=
  if parent = 0 then none else c.resolved.longnames[parent - 1]?

/-- A symbol goes where its group says. -/
lemma group_of_placementOf (s : Symbol) :
    (∀ parent, placementOf c s = .under parent → s.group c.packages = c.groupUnder parent) ∧
      ∀ memberof, placementOf c s = .orphan memberof → s.group c.packages = some memberof := by
  rw [placementOf_eq]
  cases c.isDropped s with
  | true => simp
  | false =>
    cases s.group c.packages with
    | none => simp [groupUnder]
    | some memberof =>
      cases hid : c.resolved.idOf? memberof with
      | none => simp [hid]
      | some parent =>
        obtain ⟨hpos, _, hget⟩ := idOf?_eq_some hid
        simp [hid, groupUnder, hget, Nat.pos_iff_ne_zero.mp hpos]

lemma group_of_linkOf {link : Nat × Nat} (h : c.linkOf s = some link) :
    s.group c.packages = c.groupUnder link.1 := by
  unfold linkOf at h
  split at h
  · rename_i hunder
    rw [← Option.some.inj h]
    exact (group_of_placementOf s).1 _ hunder
  · cases h

lemma group_of_orphanOf (h : c.orphanOf s = some o) : s.group c.packages = some o.memberof := by
  unfold orphanOf at h
  split at h
  · rename_i horphan
    rw [← Option.some.inj h]
    exact (group_of_placementOf s).2 _ horphan
  · cases h

section Alike

variable (h : Alike c.packages c c') (hnd : (c.symbols.map Symbol.longname).Nodup)

include h

lemma Alike.group (s : Symbol) : s.group c'.packages = s.group c.packages := by
  unfold Symbol.group groupOf
  congr 1
  funext parent
  rw [Bool.eq_iff_iff]
  simp [h.packages.mem_iff]

include hnd

lemma placementOf_renumber (s : Symbol) :
    placementOf c' s = (placementOf c s).rename (renumber c c') := by
  rw [placementOf_eq, placementOf_eq, h.isDropped hnd, h.group]
  cases c.isDropped s with
  | true => rfl
  | false =>
    simp only [Bool.false_eq_true, if_false]
    cases s.group c.packages with
    | none => rfl
    | some memberof =>
      simp only [idOf?_renumber h.symbols.perm hnd]
      cases c.resolved.idOf? memberof <;> rfl

lemma linkOf_renumber (hs : s ∈ c.symbols) :
    c'.linkOf s = (c.linkOf s).map (Prod.map (renumber c c') (renumber c c')) := by
  rw [linkOf, linkOf, placementOf_renumber h hnd]
  cases placementOf c s with
  | dropped => rfl
  | orphan memberof => rfl
  | under parent =>
    simp only [Placement.rename, Option.map_some, Prod.map_apply, renumber_number hnd hs]

lemma orphanOf_renumber (hs : s ∈ c.symbols) :
    c'.orphanOf s = (c.orphanOf s).map (rename (renumber c c')) := by
  rw [orphanOf, orphanOf, placementOf_renumber h hnd]
  cases placementOf c s with
  | dropped => rfl
  | under parent => rfl
  | orphan memberof =>
    simp only [Placement.rename, Option.map_some, rename, renumber_number hnd hs]

lemma resolvedLinks_renumber :
    c'.resolvedLinks =
      (c'.symbols.filterMap c.linkOf).map (Prod.map (renumber c c') (renumber c c')) := by
  have hnd' := (h.symbols.perm.map Symbol.longname).nodup_iff.mp hnd
  rw [resolvedLinks_eq hnd', map_filterMap]
  refine filterMap_congr fun s hs => ?_
  exact linkOf_renumber h hnd (h.symbols.perm.mem_iff.mpr hs)

lemma orphans_renumber :
    c'.orphans = (c'.symbols.filterMap c.orphanOf).map (rename (renumber c c')) := by
  have hnd' := (h.symbols.perm.map Symbol.longname).nodup_iff.mp hnd
  rw [orphans_eq hnd', map_filterMap]
  refine filterMap_congr fun s hs => ?_
  exact orphanOf_renumber h hnd (h.symbols.perm.mem_iff.mpr hs)

/-- **Every symbol has the same children in the same order.** -/
lemma childrenOf_renumber (id : Nat) :
    c'.resolved.childrenOf (renumber c c' id) = (c.resolved.childrenOf id).map (renumber c c') := by
  have hlinks : Rearranged Prod.fst (c.symbols.filterMap c.linkOf)
      (c'.symbols.filterMap c.linkOf) :=
    h.symbols.filterMap fun _ _ => group_of_linkOf
  have hcomp : ((fun l : Nat × Nat => l.1 == renumber c c' id) ∘
      Prod.map (renumber c c') (renumber c c')) = fun l => l.1 == id := by
    funext l
    exact (renumber_injective h.symbols.perm hnd).beq_eq
  have hkeeps : (c.symbols.filterMap c.linkOf).filter (fun l => l.1 == id)
      = (c'.symbols.filterMap c.linkOf).filter fun l => l.1 == id := hlinks.keeps id
  simp only [childrenOf, resolved]
  rw [resolvedLinks_renumber h hnd, resolvedLinks_eq hnd, filter_map, hcomp, hkeeps,
    map_map, map_map]
  rfl

/-- **The orphans are attached in the same order.** -/
lemma sortedOrphans_renumber : c'.sortedOrphans = c.sortedOrphans.map (rename (renumber c c')) := by
  have horphans : Rearranged memberof (c.symbols.filterMap c.orphanOf)
      (c'.symbols.filterMap c.orphanOf) :=
    h.symbols.filterMap (u := some) fun _ _ => group_of_orphanOf
  have hmap : ∀ os : List Orphan, (os.map (rename (renumber c c'))).mergeSort
      (Rearranged.keyLE memberof) =
        (os.mergeSort (Rearranged.keyLE memberof)).map (rename (renumber c c')) := by
    intro os
    rw [map_mergeSort]
    intro _ _ _ _
    rfl
  calc c'.sortedOrphans
      = ((c'.symbols.filterMap c.orphanOf).map (rename (renumber c c'))).mergeSort
          (Rearranged.keyLE memberof) := by rw [← orphans_renumber h hnd]; rfl
    _ = (c.orphans.mergeSort (Rearranged.keyLE memberof)).map
          (rename (renumber c c')) := by rw [hmap, ← horphans.mergeSort, ← orphans_eq hnd]

/-- **The symbols whose parent exists are planted alike.** -/
lemma renamed_resolved : Planting.Renamed (renumber c c') c.resolved c'.resolved where
  injective := renumber_injective h.symbols.perm hnd
  zero := rfl
  fixes id hid := by
    cases id with
    | zero => omega
    | succ i =>
      have hi : c.symbols[i]? = none := getElem?_eq_none (Nat.le_of_lt_succ hid)
      simp [renumber, hi]
  length := h.symbols.perm.length_eq.symm
  symbolAt := symbolAt_renumber h.symbols.perm hnd
  idOf? := idOf?_renumber h.symbols.perm hnd
  childrenOf := childrenOf_renumber h hnd

end Alike

end Census

end AmbientDecl

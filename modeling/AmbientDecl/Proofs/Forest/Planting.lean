import AmbientDecl.Proofs.Forest.Census

/-!
# Links of a planting

Every symbol of a planting has a number, and a link gives a child its parent. Links are only ever
added, and each addition is for a number that has no parent yet.

**The invariant.** `Planting.Tidy` says that longnames differ, that no number is the child of two
links, and that links stay inside the planting. The root, which has the number zero, is nobody's
child.

**Steps.** `Planting.Grows` compares a planting with a later one: symbols keep their longname, kind
and doclets, and links stay. Planting a symbol, going down to the home of an orphan and attaching it
(`tidy_plant`, `tidy_descend`, `tidy_homeOf`, `tidy_attach`) keep the one and satisfy the other.

**Runs.** `tidy_resolved` starts the invariant and `tidy_attachAll` carries it through
all orphans, which wait with no parent until it is their turn (`Planting.Awaits`).
-/

namespace AmbientDecl

open List

variable {longname : String} {id parent : Nat} {free : List Nat} {s : Symbol} {o : Orphan}
  {os : List Orphan}

namespace Planting

variable {p q r : Planting}

/-- The longname, the kind and the doclets of each symbol: what planting never changes about one. -/
def tags (p : Planting) : List (String × SymbolKind × List Doclet) :=
  p.symbols.map fun s => (s.longname, s.kind, s.doclets)

def longnames (p : Planting) : List String :=
  p.symbols.map Symbol.longname

@[simp] lemma length_longnames (p : Planting) : p.longnames.length = p.symbols.length := by
  simp [longnames]

lemma longnames_eq (p : Planting) : p.longnames = p.tags.map Prod.fst := by
  simp [longnames, tags]

lemma idOf?_eq (p : Planting) (longname : String) :
    p.idOf? longname = (p.longnames.idxOf? longname).map (· + 1) := by
  simp only [idOf?, longnames, idxOf?, findIdx?_map]
  rfl

lemma idOf?_eq_none : p.idOf? longname = none ↔ longname ∉ p.longnames := by
  rw [idOf?_eq, Option.map_eq_none_iff, idxOf?_eq_none_iff]

/-- The number of a longname is that of a symbol that has it. -/
lemma idOf?_eq_some (h : p.idOf? longname = some id) :
    0 < id ∧ id ≤ p.symbols.length ∧ p.longnames[id - 1]? = some longname := by
  rw [idOf?_eq, Option.map_eq_some_iff] at h
  obtain ⟨i, hi, rfl⟩ := h
  obtain ⟨hlt, hget, _⟩ := idxOf?_eq_some_iff.mp hi
  rw [length_longnames] at hlt
  refine ⟨Nat.succ_pos i, hlt, ?_⟩
  rw [Nat.add_sub_cancel, getElem?_eq_getElem (by simpa using hlt), hget]

/-- Where longnames differ, the symbol of a number is found by its longname. -/
lemma idOf?_of_getElem? (hnd : p.longnames.Nodup) {i : Nat} (h : p.longnames[i]? = some longname) :
    p.idOf? longname = some (i + 1) := by
  obtain ⟨hlt, hget⟩ := List.getElem?_eq_some_iff.mp h
  rw [idOf?_eq, Option.map_eq_some_iff]
  refine ⟨i, idxOf?_eq_some_iff.mpr ⟨hlt, hget, ?_⟩, rfl⟩
  intro j hj heq
  have := (Nodup.getElem_inj_iff hnd).mp (heq.trans hget.symm)
  omega

def linked (p : Planting) : List Nat := p.links.map Prod.snd

/-- Longnames differ, each number has at most one parent, and the links stay inside. -/
structure Tidy (p : Planting) : Prop where
  longnames : p.longnames.Nodup
  once : p.linked.Nodup
  child_pos : ∀ l ∈ p.links, 0 < l.2
  child_le : ∀ l ∈ p.links, l.2 ≤ p.symbols.length
  parent_le : ∀ l ∈ p.links, l.1 ≤ p.symbols.length

/-- A planting and a later one: what was there stays, and every new link is for a number out of
`free` or for a symbol that was not there. -/
structure Grows (free : List Nat) (p q : Planting) : Prop where
  tags : p.tags <+: q.tags
  links : ∃ more, q.links = p.links ++ more ∧ ∀ l ∈ more, l.2 ∈ free ∨ p.symbols.length < l.2

lemma Grows.refl (free : List Nat) (p : Planting) : Grows free p p :=
  ⟨prefix_refl _, [], by simp, by simp⟩

section

variable (h : Grows free p q)

include h

lemma Grows.length_le : p.symbols.length ≤ q.symbols.length := by
  simpa [Planting.tags] using h.tags.length_le

lemma Grows.trans (h' : Grows free q r) : Grows free p r := by
  obtain ⟨more, hmore, hnew⟩ := h.links
  obtain ⟨more', hmore', hnew'⟩ := h'.links
  have hle := h.length_le
  refine ⟨h.tags.trans h'.tags, more ++ more', by rw [hmore', hmore, append_assoc], ?_⟩
  intro l hl
  rcases mem_append.mp hl with hl | hl
  · exact hnew l hl
  · exact (hnew' l hl).imp id (fun h => by omega)

lemma Grows.mono {free' : List Nat} (hsub : ∀ i ∈ free, i ∈ free') : Grows free' p q := by
  obtain ⟨more, hmore, hnew⟩ := h.links
  exact ⟨h.tags, more, hmore, fun l hl => (hnew l hl).imp (hsub _) id⟩

lemma Grows.mem_links {l : Nat × Nat} (hl : l ∈ p.links) : l ∈ q.links := by
  obtain ⟨more, hmore, _⟩ := h.links
  rw [hmore]
  exact mem_append_left _ hl

lemma Grows.longnames : p.longnames <+: q.longnames := by
  rw [longnames_eq, longnames_eq]
  exact h.tags.map _

lemma Grows.idOf? (hid : p.idOf? longname = some id) : q.idOf? longname = some id := by
  rw [idOf?_eq, Option.map_eq_some_iff] at hid ⊢
  obtain ⟨i, hi, rfl⟩ := hid
  exact ⟨i, IsPrefix.findIdx?_eq_some h.longnames hi, rfl⟩

/-- The longname, the kind and the doclets of a symbol that is there do not change. -/
lemma Grows.keeps (hid : id ≤ p.symbols.length) :
    (q.symbolAt id).longname = (p.symbolAt id).longname ∧
      (q.symbolAt id).kind = (p.symbolAt id).kind ∧
        (q.symbolAt id).doclets = (p.symbolAt id).doclets := by
  cases id with
  | zero => exact ⟨rfl, rfl, rfl⟩
  | succ i =>
    have htag : q.tags[i]? = p.tags[i]? := by
      rw [prefix_iff_getElem?.mp h.tags i (by simp [Planting.tags]; omega), getElem?_eq_getElem]
    have hp : i < p.symbols.length := hid
    have hq : i < q.symbols.length := Nat.lt_of_lt_of_le hp h.length_le
    simp only [Planting.tags, getElem?_map, getElem?_eq_getElem hp,
      getElem?_eq_getElem hq, Option.map_some, Option.some.injEq, Prod.mk.injEq] at htag
    simp only [symbolAt, getElem?_eq_getElem hp, getElem?_eq_getElem hq, Option.getD_some]
    exact htag

lemma Grows.kind (hid : id ≤ p.symbols.length) : (q.symbolAt id).kind = (p.symbolAt id).kind :=
  (h.keeps hid).2.1

end

/-- One more link, for a number that has no parent yet. -/
lemma Tidy.of_link (hp : Tidy p) (hlongnames : q.longnames.Nodup)
    (hlinks : q.links = p.links ++ [(parent, id)]) (hlen : p.symbols.length ≤ q.symbols.length)
    (hparent : parent ≤ q.symbols.length) (hpos : 0 < id) (hid : id ≤ q.symbols.length)
    (hfree : id ∉ p.linked) : Tidy q where
  longnames := hlongnames
  once := by
    have hlinked : q.linked = p.linked ++ [id] := by simp [linked, hlinks]
    rw [hlinked]
    exact Nodup.append hp.once (nodup_singleton _) (by simpa using hfree)
  child_pos := by
    intro l hl
    rcases mem_append.mp (hlinks ▸ hl) with hl | hl
    · exact hp.child_pos l hl
    · rwa [mem_singleton.mp hl]
  child_le := by
    intro l hl
    rcases mem_append.mp (hlinks ▸ hl) with hl | hl
    · exact Nat.le_trans (hp.child_le l hl) hlen
    · rwa [mem_singleton.mp hl]
  parent_le := by
    intro l hl
    rcases mem_append.mp (hlinks ▸ hl) with hl | hl
    · exact Nat.le_trans (hp.parent_le l hl) hlen
    · rwa [mem_singleton.mp hl]

lemma tidy_plant (hp : Tidy p) (hparent : parent ≤ p.symbols.length)
    (hs : s.longname ∉ p.longnames) :
    Tidy (p.plant parent s).1 := by
  have hlen : (p.plant parent s).1.symbols.length = p.symbols.length + 1 := by simp [plant]
  refine hp.of_link ?_ rfl ?_ ?_ (Nat.succ_pos _) (Nat.le_of_eq hlen.symm) ?_
  · have hnew : (p.plant parent s).1.longnames = p.longnames ++ [s.longname] := by
      simp [plant, Planting.longnames]
    rw [hnew]
    exact Nodup.append hp.longnames (nodup_singleton _) (by simpa using hs)
  · omega
  · omega
  · -- the number of the new symbol is behind all that have a parent
    intro hmem
    obtain ⟨l, hl, heq⟩ := mem_map.mp hmem
    have := hp.child_le l hl
    omega

lemma grows_plant (free : List Nat) (p : Planting) (parent : Nat) (s : Symbol) :
    Grows free p (p.plant parent s).1 where
  tags := by simp [plant, Planting.tags]
  links := by
    refine ⟨[(parent, p.symbols.length + 1)], rfl, ?_⟩
    intro l hl
    rw [mem_singleton.mp hl]
    exact Or.inr (Nat.lt_succ_self _)

/-- Going down from a symbol that is there ends at one that is there afterwards. -/
lemma tidy_descend : ∀ (steps : List (String × String)) {p : Planting} {anchor : Nat},
    Tidy p → anchor ≤ p.symbols.length → Tidy (descend p anchor steps).1 ∧
        (descend p anchor steps).2 ≤ (descend p anchor steps).1.symbols.length ∧
        Grows [] p (descend p anchor steps).1 := by
  intro steps
  induction steps with
  | nil => intro p anchor hp hanchor; exact ⟨hp, hanchor, Grows.refl _ _⟩
  | cons step rest ih =>
    obtain ⟨longname, name⟩ := step
    intro p anchor hp hanchor
    cases hid : p.idOf? longname with
    | some id =>
      simp only [descend, hid]
      exact ih hp (idOf?_eq_some hid).2.1
    | none =>
      simp only [descend, hid]
      have hnew := tidy_plant (s := { Symbol.bare .namespaceDecl name longname with
        synthesized := true }) hp hanchor (idOf?_eq_none.mp hid)
      have hlen : p.symbols.length + 1 ≤ (p.plant anchor { Symbol.bare .namespaceDecl name
          longname with synthesized := true }).1.symbols.length := by
        simp [plant]
      obtain ⟨ht, hle, hg⟩ := ih hnew hlen
      exact ⟨ht, hle, (grows_plant [] p anchor _).trans hg⟩

lemma anchorOf_le (p : Planting) (steps : List Longname.Step) :
    ∀ depth, (anchorOf p steps depth).1 ≤ p.symbols.length := by
  intro depth
  induction depth with
  | zero => exact Nat.zero_le _
  | succ depth ih =>
    unfold anchorOf
    split
    · next id hid => exact (idOf?_eq_some hid).2.1
    · exact ih

/-- The home of an orphan is there once it has been looked for. -/
lemma tidy_homeOf (hp : Tidy p) (memberof : String) :
    Tidy (homeOf p memberof).1 ∧ (homeOf p memberof).2 ≤ (homeOf p memberof).1.symbols.length ∧
      Grows [] p (homeOf p memberof).1 := by
  simp only [homeOf]
  split
  · exact tidy_descend _ hp (anchorOf_le p _ _)
  · exact ⟨hp, anchorOf_le p _ _, Grows.refl _ _⟩

/-- The planting after an orphan has been linked to its home. -/
def attach (p : Planting) (o : Orphan) : Planting :=
  ((homeOf p o.memberof).1.modifyAt o.id fun s =>
    { s with unresolvedParent := some o.memberof }).link (homeOf p o.memberof).2 o.id

/-- Attaching an orphan is reported and never stops the run. -/
lemma result_attachOrphan (p : Planting) (o : Orphan) :
    (attachOrphan p o).result = .ok (p.attach o) := rfl

lemma result_attachOrphans : ∀ (os : List Orphan) (p : Planting),
    (attachOrphans p os).result = .ok (os.foldl attach p) := by
  intro os
  induction os with
  | nil => intro p; rfl
  | cons o rest ih =>
    intro p
    refine Run.result_bind.mpr ⟨p.attach o, result_attachOrphan p o, ?_⟩
    exact ih (p.attach o)

/-- Noting the missing parent of a symbol changes neither longnames nor kinds. -/
@[simp] lemma tags_modifyAt (p : Planting) (id : Nat) (memberof : String) :
    (p.modifyAt id fun s => { s with unresolvedParent := some memberof }).tags = p.tags := by
  simp only [modifyAt, tags]
  apply ext_getElem?
  intro i
  simp only [getElem?_map, getElem?_modify]
  split <;> simp [Function.comp_def]

lemma tags_attach (p : Planting) (o : Orphan) : (p.attach o).tags = (homeOf p o.memberof).1.tags :=
  tags_modifyAt (homeOf p o.memberof).1 o.id o.memberof

lemma length_attach (p : Planting) (o : Orphan) :
    (p.attach o).symbols.length = (homeOf p o.memberof).1.symbols.length := by
  simpa [tags] using congrArg List.length (tags_attach p o)

/-- Once its home is there, linking an orphan only adds the link. -/
lemma grows_homeOf_attach (p : Planting) (o : Orphan) :
    Grows [o.id] (homeOf p o.memberof).1 (p.attach o) :=
  ⟨tags_attach p o ▸ prefix_refl _, [((homeOf p o.memberof).2, o.id)], rfl, by simp⟩

lemma mem_links_attach (p : Planting) (o : Orphan) :
    ((homeOf p o.memberof).2, o.id) ∈ (p.attach o).links := by
  simp [attach, link]

lemma mem_linked : id ∈ p.linked ↔ ∃ parent, (parent, id) ∈ p.links := by
  simp [linked]

/-- An orphan that has no parent yet is linked to its home, and to nothing else. -/
lemma tidy_attach (hp : Tidy p) (hpos : 0 < o.id) (hle : o.id ≤ p.symbols.length)
    (hfree : o.id ∉ p.linked) : Tidy (p.attach o) ∧ Grows [o.id] p (p.attach o) := by
  obtain ⟨hq, hhome, hg⟩ := tidy_homeOf hp o.memberof
  have hlen := length_attach p o
  have hstill : o.id ∉ (homeOf p o.memberof).1.linked := by
    obtain ⟨more, hmore, hnew⟩ := hg.links
    intro hmem
    obtain ⟨parent, hl⟩ := mem_linked.mp hmem
    rw [hmore] at hl
    rcases mem_append.mp hl with hl | hl
    · exact hfree (mem_linked.mpr ⟨parent, hl⟩)
    · rcases hnew _ hl with h | h
      · simp at h
      · exact absurd hle (Nat.not_le.mpr h)
  have hgrow := hg.length_le
  refine ⟨hq.of_link ?_ rfl ?_ ?_ hpos ?_ hstill, ?_⟩
  · rw [longnames_eq, tags_attach, ← longnames_eq]
    exact hq.longnames
  · omega
  · omega
  · omega
  · exact (hg.mono (by simp)).trans (grows_homeOf_attach p o)

/-- Orphans with different numbers, none of which has a parent. -/
structure Awaits (p : Planting) (os : List Orphan) : Prop where
  distinct : (os.map Orphan.id).Nodup
  pos : ∀ o ∈ os, 0 < o.id
  le : ∀ o ∈ os, o.id ≤ p.symbols.length
  free : ∀ o ∈ os, o.id ∉ p.linked

lemma Awaits.perm {os' : List Orphan} (h : Awaits p os) (hperm : os'.Perm os) : Awaits p os' where
  distinct := (hperm.map Orphan.id).nodup_iff.mpr h.distinct
  pos := fun o ho => h.pos o (hperm.mem_iff.mp ho)
  le := fun o ho => h.le o (hperm.mem_iff.mp ho)
  free := fun o ho => h.free o (hperm.mem_iff.mp ho)

/-- The orphan whose turn it is can be attached. -/
lemma Awaits.first (h : Awaits p (o :: os)) (hp : Tidy p) :
    Tidy (p.attach o) ∧ Grows [o.id] p (p.attach o) :=
  tidy_attach hp (h.pos o mem_cons_self) (h.le o mem_cons_self) (h.free o mem_cons_self)

/-- When one orphan has been attached the others still wait. -/
lemma Awaits.attach (hp : Tidy p) (h : Awaits p (o :: os)) : Awaits (p.attach o) os := by
  have hg := (h.first hp).2
  obtain ⟨hnew, hdistinct⟩ := nodup_cons.mp h.distinct
  refine ⟨hdistinct, fun o' ho' => h.pos o' (mem_cons_of_mem _ ho'), ?_, ?_⟩
  · intro o' ho'
    exact Nat.le_trans (h.le o' (mem_cons_of_mem _ ho')) hg.length_le
  · intro o' ho' hmem
    obtain ⟨parent, hl⟩ := mem_linked.mp hmem
    obtain ⟨more, hmore, hmem⟩ := hg.links
    rw [hmore] at hl
    rcases mem_append.mp hl with hl | hl
    · exact h.free o' (mem_cons_of_mem _ ho') (mem_linked.mpr ⟨parent, hl⟩)
    · have hle := h.le o' (mem_cons_of_mem _ ho')
      rcases hmem _ hl with heq | hlt
      · rw [← mem_singleton.mp heq] at hnew
        exact hnew (mem_map_of_mem ho')
      · exact absurd hle (Nat.not_le.mpr hlt)

lemma tidy_attachAll : ∀ {os : List Orphan} {p : Planting}, Tidy p → Awaits p os →
    Tidy (os.foldl attach p) ∧ Grows (os.map Orphan.id) p (os.foldl attach p) := by
  intro os
  induction os with
  | nil => intro p hp _; exact ⟨hp, Grows.refl _ _⟩
  | cons o rest ih =>
    intro p hp h
    obtain ⟨hq, hg⟩ := h.first hp
    obtain ⟨hr, hg'⟩ := ih hq (h.attach hp)
    refine ⟨hr, (hg.mono ?_).trans (hg'.mono ?_)⟩
    · intro i hi
      rw [mem_singleton.mp hi]
      exact mem_cons_self
    · intro i hi
      exact mem_cons_of_mem _ hi

end Planting

namespace Census

variable {c : Census}

/-- The symbols of the census with their numbers and where they go. -/
def placed (c : Census) : List (Symbol × Nat × Placement) :=
  c.symbols.zipIdx.map fun (s, i) => (s, i + 1, placementOf c s)

/-- The links of the symbols whose parent exists. -/
def resolvedLinks (c : Census) : List (Nat × Nat) :=
  c.placed.filterMap fun (_, id, placement) =>
    match placement with
    | .under parent => some (parent, id)
    | _ => none

/-- The symbols whose parent does not exist, in the order of the census. -/
def orphans (c : Census) : List Orphan :=
  c.placed.filterMap fun (_, id, placement) =>
    match placement with
    | .orphan memberof => some ⟨id, memberof⟩
    | _ => none

/-- The orphans in the order in which they are attached. -/
def sortedOrphans (c : Census) : List Orphan :=
  c.orphans.mergeSort fun a b => decide (a.memberof ≤ b.memberof)

def resolved (c : Census) : Planting := ⟨c.symbols, c.resolvedLinks⟩

/-- Where all symbols go. -/
def planting (c : Census) : Planting := c.sortedOrphans.foldl Planting.attach c.resolved

lemma result_plantResolved (c : Census) :
    (plantResolved c).result = .ok (c.resolved, c.orphans) := rfl

lemma mem_placed {placement : Placement} : (s, id, placement) ∈ c.placed ↔
      0 < id ∧ c.symbols[id - 1]? = some s ∧ placement = placementOf c s := by
  simp only [placed, mem_map, Prod.exists, Prod.mk.injEq, mem_zipIdx_iff_getElem?]
  constructor
  · rintro ⟨s', i, hget, rfl, rfl, rfl⟩
    exact ⟨Nat.succ_pos i, hget, rfl⟩
  · rintro ⟨hpos, hget, rfl⟩
    exact ⟨s, id - 1, hget, rfl, by omega, rfl⟩

/-- A symbol is linked at once exactly when its parent exists. -/
lemma mem_resolvedLinks : (parent, id) ∈ c.resolvedLinks ↔
    0 < id ∧ ∃ s, c.symbols[id - 1]? = some s ∧ placementOf c s = .under parent := by
  simp only [resolvedLinks, mem_filterMap]
  constructor
  · rintro ⟨⟨s, i, placement⟩, hmem, hlink⟩
    obtain ⟨hpos, hget, rfl⟩ := mem_placed.mp hmem
    split at hlink
    · next parent' heq =>
        simp only [Option.some.injEq, Prod.mk.injEq] at hlink
        obtain ⟨rfl, rfl⟩ := hlink
        exact ⟨hpos, s, hget, heq⟩
    · simp at hlink
  · rintro ⟨hpos, s, hget, hplace⟩
    exact ⟨(s, id, .under parent), mem_placed.mpr ⟨hpos, hget, hplace.symm⟩, rfl⟩

/-- A symbol is an orphan exactly when its parent does not exist. -/
lemma mem_orphans : o ∈ c.orphans ↔
    0 < o.id ∧ ∃ s, c.symbols[o.id - 1]? = some s ∧ placementOf c s = .orphan o.memberof := by
  simp only [orphans, mem_filterMap]
  constructor
  · rintro ⟨⟨s, i, placement⟩, hmem, horphan⟩
    obtain ⟨hpos, hget, rfl⟩ := mem_placed.mp hmem
    split at horphan
    · next memberof heq =>
        simp only [Option.some.injEq] at horphan
        subst horphan
        exact ⟨hpos, s, hget, heq⟩
    · simp at horphan
  · rintro ⟨hpos, s, hget, hplace⟩
    exact ⟨(s, o.id, .orphan o.memberof), mem_placed.mpr ⟨hpos, hget, hplace.symm⟩, rfl⟩

/-- The numbers of the census run upwards from one. -/
lemma pairwise_placed (c : Census) : (c.placed.map fun e => e.2.1).Pairwise (· < ·) := by
  have hids : (c.placed.map fun e => e.2.1) = (c.symbols.zipIdx.map Prod.snd).map (· + 1) := by
    simp only [placed, map_map]
    rfl
  rw [hids, zipIdx_map_snd, pairwise_map]
  exact (pairwise_lt_range' 1).imp fun h => Nat.succ_lt_succ h

/-- A part of the census picks its numbers in their order. -/
lemma pairwise_pick {f : Symbol × Nat × Placement → Option Nat} (c : Census)
    (hf : ∀ e id, f e = some id → id = e.2.1) : (c.placed.filterMap f).Pairwise (· < ·) := by
  have hsub : (c.placed.filterMap f).Sublist (c.placed.map fun e => e.2.1) := by
    generalize c.placed = l
    induction l with
    | nil => exact Sublist.refl _
    | cons e rest ih =>
      rw [filterMap_cons, map_cons]
      cases he : f e with
      | none => exact ih.cons _
      | some id =>
        rw [hf e id he]
        exact ih.cons_cons _
  exact c.pairwise_placed.sublist hsub

lemma placementOf_le (h : placementOf c s = .under parent) : parent ≤ c.symbols.length := by
  unfold placementOf at h
  split at h
  · simp at h
  · split at h
    · simp only [Placement.under.injEq] at h
      omega
    · split at h
      · simp only [Placement.under.injEq] at h
        omega
      · split at h
        · next id hid =>
            simp only [Placement.under.injEq] at h
            have := (Planting.idOf?_eq_some hid).2.1
            exact h ▸ this
        · simp at h

/-- Symbols whose parent exists are linked in the order of the census. -/
lemma pairwise_linked_resolved (c : Census) : c.resolved.linked.Pairwise (· < ·) := by
  have hpick : c.resolved.linked = c.placed.filterMap fun e =>
      match e.2.2 with
      | .under _ => some e.2.1
      | _ => none := by
    simp only [Planting.linked, resolved, resolvedLinks, map_filterMap]
    congr 1
    funext ⟨s, id, placement⟩
    cases placement <;> rfl
  rw [hpick]
  refine pairwise_pick c ?_
  intro e id h
  split at h
  · exact (Option.some.inj h).symm
  · simp at h

lemma tidy_resolved (hc : (c.symbols.map Symbol.longname).Nodup) : Planting.Tidy c.resolved where
  longnames := hc
  once := c.pairwise_linked_resolved.imp Nat.ne_of_lt
  child_pos := fun l hl => (mem_resolvedLinks.mp hl).1
  child_le := by
    intro l hl
    obtain ⟨hpos, s, hget, _⟩ := mem_resolvedLinks.mp hl
    have := (List.getElem?_eq_some_iff.mp hget).1
    show l.2 ≤ c.symbols.length
    omega
  parent_le := by
    intro l hl
    obtain ⟨_, s, _, hplace⟩ := mem_resolvedLinks.mp hl
    exact placementOf_le hplace

lemma awaits_orphans (c : Census) : Planting.Awaits c.resolved c.orphans where
  distinct := by
    have hpick : c.orphans.map Orphan.id = c.placed.filterMap fun e =>
        match e.2.2 with
        | .orphan _ => some e.2.1
        | _ => none := by
      simp only [orphans, map_filterMap]
      congr 1
      funext ⟨s, id, placement⟩
      cases placement <;> rfl
    rw [hpick]
    refine (pairwise_pick c ?_).imp Nat.ne_of_lt
    intro e id h
    split at h
    · exact (Option.some.inj h).symm
    · simp at h
  pos := fun o ho => (mem_orphans.mp ho).1
  le := by
    intro o ho
    obtain ⟨hpos, s, hget, _⟩ := mem_orphans.mp ho
    have := (List.getElem?_eq_some_iff.mp hget).1
    show o.id ≤ c.symbols.length
    omega
  free := by
    intro o ho hmem
    obtain ⟨parent, hl⟩ := Planting.mem_linked.mp hmem
    obtain ⟨_, s, hget, hunder⟩ := mem_resolvedLinks.mp hl
    obtain ⟨_, s', hget', horphan⟩ := mem_orphans.mp ho
    rw [hget, Option.some.injEq] at hget'
    subst hget'
    rw [hunder] at horphan
    simp at horphan

/-- **The finished planting is tidy**, and has all that was planted before the orphans. -/
lemma tidy_planting (hc : (c.symbols.map Symbol.longname).Nodup) :
    Planting.Tidy c.planting ∧ Planting.Grows (c.orphans.map Orphan.id) c.resolved c.planting := by
  have hperm : c.sortedOrphans.Perm c.orphans := mergeSort_perm _ _
  obtain ⟨ht, hg⟩ := Planting.tidy_attachAll (tidy_resolved hc) (c.awaits_orphans.perm hperm)
  refine ⟨ht, hg.mono ?_⟩
  intro i hi
  exact (hperm.map Orphan.id).mem_iff.mp hi

end Census

end AmbientDecl

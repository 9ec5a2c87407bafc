import AmbientDecl.Proofs.Forest.Build
import AmbientDecl.Proofs.Forest.Haven

/-!
# Which symbols the tree holds

Every symbol of the census is in the index of the forest, but not every one is in the tree. Which
ones are can be read off the census.

**The way up.** `Census.parent?` is the symbol of the census that a symbol belongs to: the parent
that it names, or its haven if that one is missing; a symbol that was left out with an ancestor
belongs to nobody. `Census.Rooted` symbols come to the root that way without passing a member of an
enumeration.

**The result.** The tree holds exactly the rooted symbols (`mem_forest_iff_rooted`). A symbol is
lost, and nothing is reported, where the way up does not come to the root: the haven of an orphan
can be the orphan itself, something below it, a symbol that was left out, or a member that was
folded.
-/

namespace AmbientDecl

open Planting Census

variable {a i x : Nat}

namespace Census

variable {c : Census}

/-- The symbol of the census that a symbol belongs to. -/
def parent? (c : Census) : Nat → Option Nat
  | 0 => none
  | i + 1 => c.symbols[i]?.bind fun s =>
    match placementOf c s with
    | .dropped => none
    | .under a => some a
    | .orphan memberof => some (c.haven memberof)

/-- A symbol whose way up comes to the root and passes no member of an enumeration. -/
inductive Rooted (c : Census) : Nat → Prop
  | root : Rooted c 0
  | child {a i : Nat} (parent : c.parent? i = some a) (above : Rooted c a)
      (unfolded : ¬ ((c.resolved.symbolAt a).kind = .enumDecl ∧
        (c.resolved.symbolAt i).kind = .memberDecl)) : Rooted c i

lemma le_of_parent? (h : c.parent? i = some a) : i ≤ c.symbols.length := by
  cases i with
  | zero => exact Nat.zero_le _
  | succ i =>
    obtain ⟨s, hget, _⟩ := Option.bind_eq_some_iff.mp h
    exact (List.getElem?_eq_some_iff.mp hget).1

end Census

namespace Planting

variable {c : Census}

variable (hc : (c.symbols.map Symbol.longname).Nodup)

include hc

/-- Links of symbols of the census go to what leads to their parent. -/
lemma parent?_of_link (hi : i ≤ c.symbols.length)
    (hlink : (x, i) ∈ c.planting.links) : ∃ a, c.parent? i = some a ∧ Leads c c.planting x a := by
  obtain ⟨htidy, hgrows⟩ := tidy_planting hc
  obtain ⟨_, horphans⟩ := charted_planting hc
  obtain ⟨more, hmore, hnew⟩ := hgrows.links
  obtain ⟨i, rfl⟩ := Nat.exists_eq_succ_of_ne_zero
    (Nat.pos_iff_ne_zero.mp (htidy.child_pos _ hlink))
  rcases List.mem_append.mp (hmore ▸ hlink) with hold | hlater
  · obtain ⟨_, s, hget, hplace⟩ := Census.mem_resolvedLinks.mp hold
    refine ⟨x, ?_, .here (placementOf_le hplace)⟩
    rw [Census.parent?, show c.symbols[i]? = some s from hget]
    simp [hplace]
  · rcases hnew _ hlater with horphan | hlt
    · obtain ⟨o, ho, heq⟩ := List.mem_map.mp horphan
      obtain ⟨home, hhome, hleads⟩ := horphans o ho
      obtain ⟨_, s, hget, hplace⟩ := Census.mem_orphans.mp ho
      simp only at heq
      rw [heq] at hhome hget
      -- nobody has two parents
      have hsame : x = home := by
        have hparent := (parent?_eq_some htidy).mpr hlink
        rw [(parent?_eq_some htidy).mpr hhome, Option.some.injEq] at hparent
        exact hparent.symm
      refine ⟨c.haven o.memberof, ?_, hsame ▸ hleads⟩
      rw [Census.parent?, show c.symbols[i]? = some s from hget]
      simp [hplace]
    · exact absurd hi (Nat.not_le.mpr hlt)

/-- A symbol of the census that has a parent is linked to something that leads there. -/
lemma link_of_parent? (hparent : c.parent? i = some a) :
    ∃ x, (x, i) ∈ c.planting.links ∧ Leads c c.planting x a := by
  obtain ⟨_, hgrows⟩ := tidy_planting hc
  cases i with
  | zero => simp [Census.parent?] at hparent
  | succ i =>
    obtain ⟨s, hget, hplace⟩ := Option.bind_eq_some_iff.mp hparent
    cases hcase : placementOf c s with
    | dropped => simp [hcase] at hplace
    | under q =>
      simp only [hcase, Option.some.injEq] at hplace
      subst hplace
      have hlink : (q, i + 1) ∈ c.resolvedLinks :=
        Census.mem_resolvedLinks.mpr ⟨Nat.succ_pos i, s, hget, hcase⟩
      exact ⟨q, hgrows.mem_links hlink, .here (placementOf_le hcase)⟩
    | orphan memberof =>
      simp only [hcase, Option.some.injEq] at hplace
      subst hplace
      exact (charted_planting hc).2 ⟨i + 1, memberof⟩
        (Census.mem_orphans.mpr ⟨Nat.succ_pos i, s, hget, hcase⟩)

omit hc in
lemma Leads.le {p : Planting} (h : Leads c p x a) : a ≤ c.symbols.length := by
  induction h with
  | here le => exact le
  | up _ _ _ ih => exact ih

omit hc in
/-- The way up comes to one symbol of the census only. -/
lemma Leads.unique {p : Planting} (hp : Tidy p) {b : Nat} (ha : Leads c p x a)
    (hb : Leads c p x b) :
    a = b := by
  induction ha with
  | here le =>
    cases hb with
    | here => rfl
    | up lt => exact absurd le (Nat.not_le.mpr lt)
  | up lt link _ ih =>
    cases hb with
    | here le => exact absurd le (Nat.not_le.mpr lt)
    | up _ link' leads' =>
      have hparent := (parent?_eq_some hp).mpr link
      rw [(parent?_eq_some hp).mpr link', Option.some.injEq] at hparent
      exact ih (hparent ▸ leads')

/-- What leads to a symbol of the census is that symbol, or a namespace below a container. -/
lemma Leads.eq_or_kind (hx : x ≤ c.planting.symbols.length) (h : Leads c c.planting x a) :
    x = a ∨ (c.planting.symbolAt x).kind = .namespaceDecl ∧
      (c.resolved.symbolAt a).kind.isContainer = true := by
  obtain ⟨hcharted, _⟩ := charted_planting hc
  cases h with
  | here => exact Or.inl rfl
  | up lt link above =>
    obtain ⟨steps, hmade⟩ := hcharted.madeUp x lt hx
    have hanchor := (Leads.up lt link above).unique hcharted.tidy hmade.leads
    exact Or.inr ⟨hmade.kind, hanchor ▸ (isClear_iff.mp hmade.clear).1⟩

/-- A link of the planting folds exactly when it would at the symbol of the census above. -/
lemma unfolded_iff (hi : i ≤ c.symbols.length)
    (hx : x ≤ c.planting.symbols.length) (h : Leads c c.planting x a) :
    ¬ ((c.planting.symbolAt x).kind = .enumDecl ∧ (c.planting.symbolAt i).kind = .memberDecl) ↔
      ¬ ((c.resolved.symbolAt a).kind = .enumDecl ∧
        (c.resolved.symbolAt i).kind = .memberDecl) := by
  obtain ⟨_, hgrows⟩ := tidy_planting hc
  rw [hgrows.kind hi]
  rcases h.eq_or_kind hc hx with rfl | ⟨hkind, hcontainer⟩
  · rw [hgrows.kind h.le]
  · have hne : (c.resolved.symbolAt a).kind ≠ .enumDecl := by
      intro henum
      rw [henum] at hcontainer
      exact absurd hcontainer (by decide)
    simp [hkind, hne]

/-- From a symbol that stays, the way up comes to a rooted one. -/
lemma Kept.rooted (h : Kept c.planting x) : ∀ {a : Nat}, Leads c c.planting x a → c.Rooted a := by
  obtain ⟨htidy, _⟩ := tidy_planting hc
  induction h with
  | root =>
    intro a hleads
    cases hleads with
    | here => exact .root
    | up lt => exact absurd lt (Nat.not_lt_zero _)
  | child link _ unfolded ih =>
    intro a hleads
    cases hleads with
    | here le =>
      obtain ⟨q, hparent, hq⟩ := parent?_of_link hc le link
      exact .child hparent (ih hq)
        ((unfolded_iff hc le (htidy.parent_le _ link) hq).mp unfolded)
    | up _ link' leads' =>
      have hsame := (parent?_eq_some htidy).mpr link
      rw [(parent?_eq_some htidy).mpr link', Option.some.injEq] at hsame
      exact ih (hsame ▸ leads')

/-- What leads to a symbol that stays, stays. -/
lemma Leads.kept (h : Leads c c.planting x a)
    (hkept : Kept c.planting a) (hx : x ≤ c.planting.symbols.length) : Kept c.planting x := by
  obtain ⟨htidy, _⟩ := tidy_planting hc
  obtain ⟨hcharted, _⟩ := charted_planting hc
  induction h with
  | here => exact hkept
  | up lt link _ ih =>
    refine .child link (ih hkept (htidy.parent_le _ link)) ?_
    -- a namespace is no member
    obtain ⟨steps, hmade⟩ := hcharted.madeUp _ lt hx
    simp [hmade.kind]

lemma Kept.of_rooted (h : c.Rooted i) : Kept c.planting i := by
  obtain ⟨htidy, _⟩ := tidy_planting hc
  induction h with
  | root => exact .root
  | child parent _ unfolded ih =>
    obtain ⟨x, hlink, hleads⟩ := link_of_parent? hc parent
    have hx := htidy.parent_le _ hlink
    exact .child hlink (hleads.kept hc ih hx)
      ((unfolded_iff hc (le_of_parent? parent) hx hleads).mpr unfolded)

end Planting

/-- **The tree holds exactly the rooted symbols.** Every symbol of the census is in the index, and
it can be reached from the root exactly when its way up comes there. -/
theorem mem_forest_iff_rooted {filter : Option DocletFilter} {doclets : List Doclet} {f : Forest}
    (h : (buildForest filter doclets).result = .ok f) :
    ∃ c, (Census.ofDoclets filter doclets).result = .ok c ∧
      ∀ i s, c.symbols[i]? = some s → f.idOf? s.longname = some (i + 1) ∧
        (Relation.ReflTransGen (fun a b => (a, b) ∈ f.links) f.root.id (i + 1) ↔
          c.Rooted (i + 1)) := by
  obtain ⟨c, hcensus, _, rfl⟩ := result_buildForest.mp h
  have hc := nodup_ofDoclets hcensus
  obtain ⟨htidy, hgrows⟩ := tidy_planting hc
  refine ⟨c, hcensus, ?_⟩
  intro i s hget
  have hlongname : c.resolved.longnames[i]? = some s.longname := by
    rw [longnames, List.getElem?_map, show c.resolved.symbols[i]? = some s from hget]
    rfl
  refine ⟨?_, ?_⟩
  · rw [Forest.idOf?]
    exact (lookup_index _ _).trans
      (hgrows.idOf? (Planting.idOf?_of_getElem? (p := c.resolved) hc hlongname))
  · rw [← (consistent_forest htidy).walk_reaches, forest, mem_ids_absorb_tree htidy]
    constructor
    · intro hkept
      exact hkept.rooted hc (.here (List.getElem?_eq_some_iff.mp hget).1)
    · exact Planting.Kept.of_rooted hc

/-- An orphan, and a function below a member of an enumeration. -/
def lostAndFound : List Doclet :=
  [.bare "A.f" (some "A") (.callable [] []), .bare "E" none (.value true none true),
   .bare "E.X" (some "E") (.value true none false),
   .bare "E.X.g" (some "E.X") (.callable [] [])]

theorem mem_forest_iff_rooted_lostAndFound :
    ∃ f c, (buildForest none lostAndFound).result = .ok f ∧
      (Census.ofDoclets none lostAndFound).result = .ok c ∧ f.root.ids = [0, 2, 5, 1] ∧
        c.Rooted 1 ∧ ¬ c.Rooted 4 := by
  have hrun : ((buildForest none lostAndFound).result.toOption.map fun f => f.root.ids)
      = some [0, 2, 5, 1] := by
    decide +kernel
  have hnames : ((ofDoclets none lostAndFound).result.toOption.map fun c =>
      c.symbols.length) = some 4 := by
    decide +kernel
  obtain ⟨f, hbuilt, hids⟩ := Run.toOption_map.mp hrun
  obtain ⟨c, hc, hall⟩ := mem_forest_iff_rooted hbuilt
  obtain ⟨c', hc', _, rfl⟩ := result_buildForest.mp hbuilt
  have hreach := (consistent_forest (tidy_of_census hc')).walk_reaches
  rw [hc, Except.toOption, Option.map_some, Option.some.injEq] at hnames
  have hget : ∀ i, i < 4 → ∃ s, c.symbols[i]? = some s :=
    fun i hi => ⟨_, List.getElem?_eq_getElem (hnames ▸ hi)⟩
  obtain ⟨s, hs⟩ := hget 0 (by decide)
  obtain ⟨t, ht⟩ := hget 3 (by decide)
  refine ⟨_, c, hbuilt, hc, hids, ?_, ?_⟩
  · rw [← (hall 0 s hs).2, ← hreach, hids]
    decide
  · rw [← (hall 3 t ht).2, ← hreach, hids]
    decide

/-- A function that is documented as a member of something below itself. -/
def memberOfItself : List Doclet := [.bare "f" (some "f.g") (.callable [] [])]

/-- Such a function is lost: it belongs to itself, and nothing was left out. -/
theorem lost_memberOfItself : ∃ c f, (Census.ofDoclets none memberOfItself).result = .ok c ∧
    (buildForest none memberOfItself).result = .ok f ∧ c.leftOut = [] ∧ f.idOf? "f" = some 1 ∧
      f.links = [(1, 1)] ∧ f.root.ids = [0] ∧ ¬ c.Rooted 1 := by
  have hrun : ((buildForest none memberOfItself).result.toOption.map fun f =>
      (f.idOf? "f", f.links, f.root.ids)) = some (some 1, [(1, 1)], [0]) := by
    decide +kernel
  have hleft : ((ofDoclets none memberOfItself).result.toOption.map fun c =>
      (c.leftOut, c.parent? 1)) = some ([], some 1) := by
    decide +kernel
  obtain ⟨f, hf, heq⟩ := Run.toOption_map.mp hrun
  obtain ⟨c, hc, heq'⟩ := Run.toOption_map.mp hleft
  simp only [Prod.mk.injEq] at heq heq'
  refine ⟨c, f, hc, hf, heq'.1, heq.1, heq.2.1, heq.2.2, ?_⟩
  -- a way up from one only ever comes back to one
  have hloop : ∀ i, c.Rooted i → i ≠ 1 := by
    intro i h
    induction h with
    | root => simp
    | child parent _ _ ih =>
      rintro rfl
      rw [heq'.2, Option.some.injEq] at parent
      exact ih parent.symm
  exact fun h => hloop 1 h rfl

end AmbientDecl

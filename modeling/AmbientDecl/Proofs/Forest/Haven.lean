import AmbientDecl.Proofs.Forest.Planting
import AmbientDecl.Proofs.Longname

/-!
# Where orphans end up

An orphan goes under the nearest ancestor of its missing parent, and namespaces may be made up on
the way there. Which symbol of the census it then belongs to does not depend on the order of the
orphans: made-up namespaces only ever stand between it and that symbol.

**The haven.** `Census.haven` is found in the census alone. `Planting.Leads` goes up from a symbol
through made-up namespaces to the first symbol of the census.

**The invariant.** `Planting.Charted` says of every made-up namespace which steps it stands for
(`Planting.MadeUp`): its longname is that of the steps, the way from their anchor is clear, and it
leads there. So it does not matter whether the next orphan finds it or makes it.

**Steps and run.** `charted_descend` and `charted_homeOf` go to the home of one orphan,
`charted_attach` attaches it, `charted_planting` is the run.
-/

namespace AmbientDecl

open List

open Longname (Step WellCut)

variable {j k b : Nat} {free : List Nat}

namespace Census

/-- The nearest ancestor of a path that the census has, with the number of steps that lead to it. -/
def anchor (c : Census) (steps : List Step) : Nat × Nat :=
  anchorOf c.resolved steps (steps.length - 1)

/-- Whether namespaces can be made up for the steps from their anchor on. -/
def isClear (c : Census) (steps : List Step) : Bool :=
  (c.resolved.symbolAt (c.anchor steps).1).kind.isContainer &&
    (missingSteps steps (c.anchor steps).2).all fun (_, name) => isIdentifier name

/-- The symbol of the census that the orphans of a missing parent belong to, made-up namespaces
passed over. -/
def haven (c : Census) (memberof : String) : Nat :=
  let steps := Longname.split memberof
  if c.isClear steps && !steps.isEmpty then
    (c.resolved.idOf? (Longname.join steps)).getD (c.anchor steps).1
  else (c.anchor steps).1

end Census

section Steps

variable {p : Planting} {steps : List Step}

lemma anchorOf_depth_le (p : Planting) (steps : List Step) : ∀ k, (anchorOf p steps k).2 ≤ k := by
  intro k
  induction k with
  | zero => exact Nat.le_refl _
  | succ k ih =>
    rw [anchorOf]
    split
    · exact Nat.le_refl _
    · exact Nat.le_succ_of_le ih

/-- Only the steps that are looked at matter. -/
lemma anchorOf_take (p : Planting) (steps : List Step) : ∀ {k : Nat}, k ≤ j →
    anchorOf p (steps.take j) k = anchorOf p steps k := by
  intro k
  induction k with
  | zero => intro _; rfl
  | succ k ih =>
    intro hk
    rw [anchorOf, anchorOf, take_take, Nat.min_eq_left hk, ih (by omega)]

/-- Between an anchor and the end of the search there is no other one. -/
lemma anchorOf_between (p : Planting) (steps : List Step) : ∀ {k : Nat},
    (anchorOf p steps k).2 ≤ j → j ≤ k → anchorOf p steps j = anchorOf p steps k := by
  intro k
  induction k with
  | zero =>
    intro _ hj
    rw [Nat.le_zero.mp hj]
  | succ k ih =>
    intro hdepth hj
    rcases Nat.le_succ_iff.mp hj with hj | rfl
    · cases hid : p.idOf? (Longname.join (steps.take (k + 1))) with
      | some id =>
        rw [anchorOf, hid] at hdepth
        exact absurd hdepth (by simp only; omega)
      | none =>
        rw [anchorOf, hid] at hdepth ⊢
        exact ih hdepth hj
    · rfl

/-- An ancestor that exists is not deeper than the anchor. -/
lemma le_anchorOf_depth (hpos : 0 < j) (h : p.idOf? (Longname.join (steps.take j)) ≠ none) :
    ∀ {k : Nat}, j ≤ k → j ≤ (anchorOf p steps k).2 := by
  intro k
  induction k with
  | zero => intro hj; omega
  | succ k ih =>
    intro hj
    rw [anchorOf]
    split
    · exact hj
    · rename_i hnone
      rcases Nat.le_succ_iff.mp hj with hj | rfl
      · exact ih hj
      · exact absurd hnone h

lemma missingSteps_eq_nil (hk : steps.length ≤ k) : missingSteps steps k = [] := by
  simp [missingSteps, drop_eq_nil_of_le, hk]

lemma missingSteps_cons {step : Step} (hk : steps[k]? = some step) : missingSteps steps k
      = (Longname.join (steps.take (k + 1)), unquote step.segment) ::
        missingSteps steps (k + 1) := by
  have hget : steps.zipIdx[k]? = some (step, k) := by simp [getElem?_zipIdx, hk]
  obtain ⟨hlt, heq⟩ := List.getElem?_eq_some_iff.mp hget
  rw [missingSteps, drop_eq_getElem_cons hlt, heq]
  rfl

/-- The missing names are identifiers: said step by step. -/
lemma all_missingSteps : ((missingSteps steps k).all fun (_, name) => isIdentifier name) = true ↔
      ∀ i step, k ≤ i → steps[i]? = some step → isIdentifier (unquote step.segment) = true := by
  simp only [missingSteps, all_map, all_eq_true, Function.comp_apply, Prod.forall]
  constructor
  · intro h i step hi hget
    refine h step i (mem_iff_getElem?.mpr ⟨i - k, ?_⟩)
    rw [getElem?_drop, getElem?_zipIdx, Nat.add_sub_cancel' hi, hget]
    simp
  · intro h step i hmem
    obtain ⟨j, hj⟩ := mem_iff_getElem?.mp hmem
    rw [getElem?_drop, getElem?_zipIdx, Option.map_eq_some_iff] at hj
    obtain ⟨step', hget, heq⟩ := hj
    obtain ⟨rfl, rfl⟩ := Prod.mk.inj heq
    exact h (0 + (k + j)) step' (by omega) (by simpa using hget)

end Steps

namespace Planting

variable {c : Census} {p q : Planting} {steps : List Step}

/-- Up from a symbol, through made-up namespaces, to a symbol of the census or the root. -/
inductive Leads (c : Census) (p : Planting) : Nat → Nat → Prop
  | here {a : Nat} (le : a ≤ c.symbols.length) : Leads c p a a
  | up {a b above : Nat} (lt : c.symbols.length < b) (link : (above, b) ∈ p.links)
      (leads : Leads c p above a) : Leads c p b a

lemma Leads.mono (hg : Grows free p q) {a : Nat} (h : Leads c p b a) : Leads c q b a := by
  induction h with
  | here le => exact .here le
  | up lt link _ ih => exact .up lt (hg.mem_links link) ih

/-- A namespace that was made up for these steps. -/
structure MadeUp (c : Census) (p : Planting) (b : Nat) (steps : List Step) : Prop where
  longname : p.longnames[b - 1]? = some (Longname.join steps)
  wellCut : WellCut steps
  kind : (p.symbolAt b).kind = .namespaceDecl
  clear : c.isClear steps = true
  leads : Leads c p b (c.anchor steps).1

lemma MadeUp.mono (hg : Grows free p q) (hpos : 0 < b) (hle : b ≤ p.symbols.length)
    (h : MadeUp c p b steps) : MadeUp c q b steps where
  longname := by
    have hlt : b - 1 < p.longnames.length := by rw [length_longnames]; omega
    rw [prefix_iff_getElem?.mp hg.longnames _ hlt, ← getElem?_eq_getElem hlt, h.longname]
  wellCut := h.wellCut
  kind := (hg.kind hle).trans h.kind
  clear := h.clear
  leads := h.leads.mono hg

/-- Everything that was not in the census was made up for some steps. -/
structure Charted (c : Census) (p : Planting) : Prop where
  tidy : Tidy p
  grows : Grows (c.orphans.map Orphan.id) c.resolved p
  madeUp : ∀ b, c.symbols.length < b → b ≤ p.symbols.length → ∃ steps, MadeUp c p b steps

lemma Charted.length_le (h : Charted c p) : c.symbols.length ≤ p.symbols.length :=
  h.grows.length_le

/-- What does not exist now is not in the census. -/
lemma Charted.idOf?_none (h : Charted c p) {longname : String} (hid : p.idOf? longname = none) :
    c.resolved.idOf? longname = none := by
  cases hc : c.resolved.idOf? longname with
  | none => rfl
  | some id =>
    rw [h.grows.idOf? hc] at hid
    simp at hid

/-- **What exists under the longname of steps** is in the census, or was made up for these steps. -/
lemma Charted.idOf?_some (h : Charted c p) (hsteps : WellCut steps) {id : Nat}
    (hid : p.idOf? (Longname.join steps) = some id) :
    c.resolved.idOf? (Longname.join steps) = some id ∨
      c.resolved.idOf? (Longname.join steps) = none ∧ MadeUp c p id steps := by
  obtain ⟨hpos, hle, hget⟩ := idOf?_eq_some hid
  by_cases hcensus : id ≤ c.symbols.length
  · left
    have hlt : id - 1 < c.resolved.longnames.length := by
      rw [length_longnames]
      exact Nat.lt_of_lt_of_le (Nat.sub_lt hpos Nat.one_pos) hcensus
    have hold : c.resolved.longnames[id - 1]? = some (Longname.join steps) := by
      rw [getElem?_eq_getElem hlt, ← prefix_iff_getElem?.mp h.grows.longnames _ hlt, hget]
    have hnodup : c.resolved.longnames.Nodup := h.grows.longnames.sublist.nodup h.tidy.longnames
    rw [idOf?_of_getElem? hnodup hold, Nat.sub_add_cancel hpos]
  · right
    constructor
    · cases hc : c.resolved.idOf? (Longname.join steps) with
      | none => rfl
      | some id' =>
        have hsame := h.grows.idOf? hc
        rw [hid, Option.some.injEq] at hsame
        exact absurd (hsame ▸ (idOf?_eq_some hc).2.1) hcensus
    · obtain ⟨steps', hmade⟩ := h.madeUp id (Nat.not_le.mp hcensus) hle
      have hjoin : Longname.join steps' = Longname.join steps :=
        Option.some.inj (hmade.longname.symm.trans hget)
      have heq : steps' = steps := by
        rw [← Longname.split_join hmade.wellCut, hjoin, Longname.split_join hsteps]
      exact heq ▸ hmade

lemma isClear_iff : c.isClear steps = true ↔
    (c.resolved.symbolAt (c.anchor steps).1).kind.isContainer = true ∧
      ∀ i step, (c.anchor steps).2 ≤ i → steps[i]? = some step →
        isIdentifier (unquote step.segment) = true := by
  rw [Census.isClear, Bool.and_eq_true, all_missingSteps]

lemma anchor_le (c : Census) (steps : List Step) : (c.anchor steps).1 ≤ c.symbols.length :=
  anchorOf_le c.resolved steps _

/-- Beyond its anchor, a path has the anchor of every beginning of it. -/
lemma anchor_take (hk : k < steps.length) :
    c.anchor (steps.take (k + 1)) = anchorOf c.resolved steps k := by
  have hlen : (steps.take (k + 1)).length - 1 = k := by
    rw [length_take, Nat.min_eq_left hk]
    rfl
  rw [Census.anchor, hlen]
  exact anchorOf_take c.resolved steps (Nat.le_succ k)

lemma anchor_take_eq (hdepth : (c.anchor steps).2 ≤ k) (hk : k < steps.length) :
    c.anchor (steps.take (k + 1)) = c.anchor steps := by
  rw [anchor_take hk]
  exact anchorOf_between c.resolved steps hdepth (by omega)

lemma isClear_take (hdepth : (c.anchor steps).2 ≤ k) (hk : k < steps.length)
    (hclear : c.isClear steps = true) : c.isClear (steps.take (k + 1)) = true := by
  obtain ⟨hcontainer, hnames⟩ := isClear_iff.mp hclear
  rw [isClear_iff, anchor_take_eq hdepth hk]
  refine ⟨hcontainer, ?_⟩
  intro i step hi hget
  rw [getElem?_take] at hget
  split at hget
  · exact hnames i step hi hget
  · simp at hget

/-- The nearest ancestor now is that of the census, or a namespace made up below it. -/
lemma Charted.anchorOf_cases (h : Charted c p) (hsteps : WellCut steps) : ∀ {k : Nat},
    k ≤ steps.length → anchorOf p steps k = anchorOf c.resolved steps k ∨
      ∃ j < k, (anchorOf p steps k).2 = j + 1 ∧
        MadeUp c p (anchorOf p steps k).1 (steps.take (j + 1)) ∧
          c.anchor (steps.take (j + 1)) = anchorOf c.resolved steps k := by
  intro k
  induction k with
  | zero => intro _; exact Or.inl rfl
  | succ k ih =>
    intro hk
    cases hid : p.idOf? (Longname.join (steps.take (k + 1))) with
    | none =>
      rw [anchorOf, anchorOf, hid, h.idOf?_none hid]
      rcases ih (by omega) with hsame | ⟨j, hj, hmade⟩
      · exact Or.inl hsame
      · exact Or.inr ⟨j, by omega, hmade⟩
    | some id =>
      rcases h.idOf?_some (hsteps.take (k + 1)) hid with hcensus | ⟨hnone, hmade⟩
      · rw [anchorOf, anchorOf, hid, hcensus]
        exact Or.inl rfl
      · rw [anchorOf, anchorOf, hid, hnone]
        exact Or.inr ⟨k, by omega, rfl, hmade, anchor_take (by omega)⟩

/-- The namespace that is made up for a missing step. -/
lemma Charted.plant (h : Charted c p) {above : Nat} (habove : above ≤ p.symbols.length)
    (hleads : Leads c p above (c.anchor steps).1) (hsteps : WellCut steps)
    (hclear : c.isClear steps = true) (hid : p.idOf? (Longname.join steps) = none) (name : String) :
    let s := { Symbol.bare .namespaceDecl name (Longname.join steps) with synthesized := true }
    Charted c (p.plant above s).1 ∧ Leads c (p.plant above s).1 (p.plant above s).2
      (c.anchor steps).1 := by
  intro s
  have hg : Grows (c.orphans.map Orphan.id) p (p.plant above s).1 := grows_plant _ p above s
  have hle := h.length_le
  have hlink : (above, p.symbols.length + 1) ∈ (p.plant above s).1.links := by simp [Planting.plant]
  have hleads' : Leads c (p.plant above s).1 (p.symbols.length + 1) (c.anchor steps).1 :=
    .up (by omega) hlink (hleads.mono hg)
  refine ⟨⟨tidy_plant h.tidy habove (idOf?_eq_none.mp hid), h.grows.trans hg, ?_⟩, hleads'⟩
  intro b hlt hb
  rw [show (p.plant above s).1.symbols.length = p.symbols.length + 1 by simp [Planting.plant]] at hb
  rcases Nat.le_succ_iff.mp hb with hold | rfl
  · obtain ⟨steps', hmade⟩ := h.madeUp b hlt hold
    exact ⟨steps', hmade.mono hg (by omega) hold⟩
  · refine ⟨steps, ?_, hsteps, ?_, hclear, hleads'⟩
    · simp [Planting.plant, longnames, s, Symbol.bare]
    · simp [Planting.plant, symbolAt, s, Symbol.bare]

/-- One step down: the next namespace is there afterwards, and leads to the anchor. Only where the
census has the next longname itself the way ends there. -/
lemma Charted.step (h : Charted c p) (hsteps : WellCut steps) (hclear : c.isClear steps = true)
    (hdepth : (c.anchor steps).2 ≤ k) (hk : k < steps.length) {above : Nat}
    (habove : above ≤ p.symbols.length) (hleads : Leads c p above (c.anchor steps).1) :
    ∃ p' below, descend p above (missingSteps steps k) =
      descend p' below (missingSteps steps (k + 1)) ∧
      Charted c p' ∧ below ≤ p'.symbols.length ∧
        (c.resolved.idOf? (Longname.join (steps.take (k + 1))) = some below ∨
          c.resolved.idOf? (Longname.join (steps.take (k + 1))) = none ∧
            Leads c p' below (c.anchor steps).1) := by
  obtain ⟨step, hget⟩ : ∃ step, steps[k]? = some step := ⟨_, getElem?_eq_getElem hk⟩
  have hcut := hsteps.take (k + 1)
  have hanchor := anchor_take_eq hdepth hk
  rw [missingSteps_cons hget]
  cases hid : p.idOf? (Longname.join (steps.take (k + 1))) with
  | some id =>
    refine ⟨p, id, by rw [descend, hid], h, (idOf?_eq_some hid).2.1, ?_⟩
    rcases h.idOf?_some hcut hid with hcensus | ⟨hnone, hmade⟩
    · exact Or.inl hcensus
    · exact Or.inr ⟨hnone, hanchor ▸ hmade.leads⟩
  | none =>
    obtain ⟨hcharted, hleads'⟩ := h.plant habove (hanchor ▸ hleads) hcut
      (isClear_take hdepth hk hclear) hid (unquote step.segment)
    refine ⟨_, _, by rw [descend, hid], hcharted, ?_, Or.inr ⟨h.idOf?_none hid, hanchor ▸ hleads'⟩⟩
    simp [Planting.plant]

/-- **All the way down** from a namespace that leads to the anchor. -/
lemma charted_descend (hsteps : WellCut steps) (hclear : c.isClear steps = true) :
    ∀ (left : Nat) {p : Planting} {k above : Nat}, Charted c p → (c.anchor steps).2 ≤ k →
      k + left + 1 = steps.length → above ≤ p.symbols.length → Leads c p above (c.anchor steps).1 →
        Charted c (descend p above (missingSteps steps k)).1 ∧
          Leads c (descend p above (missingSteps steps k)).1
            (descend p above (missingSteps steps k)).2
            ((c.resolved.idOf? (Longname.join steps)).getD (c.anchor steps).1) := by
  intro left
  induction left with
  | zero =>
    intro p k above h hdepth hk habove hleads
    obtain ⟨p', below, heq, hcharted, _, hbelow⟩ :=
      h.step hsteps hclear hdepth (by omega) habove hleads
    rw [heq, missingSteps_eq_nil (by omega), descend]
    rw [take_of_length_le (by omega)] at hbelow
    refine ⟨hcharted, ?_⟩
    rcases hbelow with hcensus | ⟨hnone, hleads'⟩
    · rw [hcensus]
      exact .here (idOf?_eq_some hcensus).2.1
    · rw [hnone]
      exact hleads'
  | succ left ih =>
    intro p k above h hdepth hk habove hleads
    obtain ⟨p', below, heq, hcharted, hle, hbelow⟩ :=
      h.step hsteps hclear hdepth (by omega) habove hleads
    rw [heq]
    rcases hbelow with hcensus | ⟨_, hleads'⟩
    · -- the anchor would not be the nearest ancestor
      have hdeeper := le_anchorOf_depth (k := steps.length - 1) (Nat.succ_pos k)
        (by rw [hcensus]; simp) (by omega)
      exact absurd (Nat.le_trans hdeeper hdepth) (by omega)
    · exact ih hcharted (by omega) (by omega) hle hleads'

/-- Whether namespaces can be made up for the steps from a symbol on that was found for `depth` of
them. -/
def isClearFrom (p : Planting) (steps : List Step) (found depth : Nat) : Bool :=
  (p.symbolAt found).kind.isContainer &&
    (missingSteps steps depth).all fun (_, name) => isIdentifier name

lemma homeOf_eq (p : Planting) (memberof : String) :
    homeOf p memberof = let steps := Longname.split memberof
      let found := anchorOf p steps (steps.length - 1)
      if p.isClearFrom steps found.1 found.2 then descend p found.1 (missingSteps steps found.2)
      else (p, found.1) := rfl

/-- The home below an ancestor that leads to the anchor of the census. -/
lemma Charted.below (h : Charted c p) (hsteps : WellCut steps) {found depth : Nat}
    (hfound : found ≤ p.symbols.length) (hleads : Leads c p found (c.anchor steps).1)
    (hanchor : (c.anchor steps).2 ≤ depth) (hdepth : depth < steps.length)
    (hclear : p.isClearFrom steps found depth = c.isClear steps) :
    let home := if p.isClearFrom steps found depth then descend p found (missingSteps steps depth)
      else (p, found)
    Charted c home.1 ∧ Leads c home.1 home.2
      (if c.isClear steps then (c.resolved.idOf? (Longname.join steps)).getD (c.anchor steps).1
        else (c.anchor steps).1) := by
  rw [hclear]
  by_cases hc : c.isClear steps = true
  · rw [if_pos hc, if_pos hc]
    exact charted_descend hsteps hc (steps.length - 1 - depth) h hanchor (by omega) hfound hleads
  · rw [if_neg hc, if_neg hc]
    exact ⟨h, hleads⟩

/-- A namespace that was made up for a beginning of the steps is as good as their anchor. -/
lemma MadeUp.isClearFrom (hmade : MadeUp c p b (steps.take (j + 1)))
    (hanchor : c.anchor (steps.take (j + 1)) = c.anchor steps) (hdepth : (c.anchor steps).2 ≤ j) :
    p.isClearFrom steps b (j + 1) = c.isClear steps := by
  obtain ⟨hcontainer, hnames⟩ := isClear_iff.mp hmade.clear
  rw [hanchor] at hcontainer hnames
  rw [Bool.eq_iff_iff, isClear_iff, Planting.isClearFrom, hmade.kind, Bool.and_eq_true,
    all_missingSteps]
  constructor
  · rintro ⟨_, hrest⟩
    refine ⟨hcontainer, ?_⟩
    intro i step hi hget
    by_cases hij : i < j + 1
    · exact hnames i step hi (by rw [getElem?_take, if_pos hij, hget])
    · exact hrest i step (by omega) hget
  · rintro ⟨_, hall⟩
    exact ⟨rfl, fun i step hi hget => hall i step (by omega) hget⟩

/-- **The home of an orphan leads to its haven.** -/
lemma charted_homeOf (h : Charted c p) (memberof : String) :
    Charted c (homeOf p memberof).1 ∧
      Leads c (homeOf p memberof).1 (homeOf p memberof).2 (c.haven memberof) := by
  rw [homeOf_eq, Census.haven]
  have hsteps := Longname.wellCut_split memberof
  generalize Longname.split memberof = steps at hsteps ⊢
  by_cases hnil : steps = []
  · subst hnil
    exact ⟨h, .here (Nat.zero_le _)⟩
  have hpos : 0 < steps.length := length_pos_iff.mpr hnil
  have hne : steps.isEmpty = false := by simpa using hnil
  have hdepth : (c.anchor steps).2 ≤ steps.length - 1 := anchorOf_depth_le _ _ _
  simp only [hne, Bool.not_false, Bool.and_true]
  rcases h.anchorOf_cases hsteps (Nat.sub_le steps.length 1) with
    hsame | ⟨j, hj, hat, hmade, hanchor⟩
  · -- the ancestor of the census is still the nearest
    have hfound : anchorOf p steps (steps.length - 1) = c.anchor steps := hsame
    rw [hfound]
    refine h.below hsteps (Nat.le_trans (anchor_le c steps) h.length_le) (.here (anchor_le c steps))
      (Nat.le_refl _) (by omega) ?_
    rw [isClearFrom, h.grows.kind (anchor_le c steps), Census.isClear]
  · -- a namespace was made up below it, for an orphan before
    have hbelow : c.anchor (steps.take (j + 1)) = c.anchor steps := hanchor
    have hsome : (c.anchor steps).2 ≤ j := by
      rw [← hbelow, anchor_take (by omega)]
      exact anchorOf_depth_le _ _ _
    rw [hat]
    exact h.below hsteps (anchorOf_le p steps _) (hbelow ▸ hmade.leads) (by omega) (by omega)
      (hmade.isClearFrom hbelow hsome)

lemma Charted.mono (h : Charted c p) (hq : Tidy q)
    (hgq : Grows (c.orphans.map Orphan.id) c.resolved q) (hg : Grows free p q)
    (hlen : q.symbols.length = p.symbols.length) : Charted c q := by
  refine ⟨hq, hgq, ?_⟩
  intro b hlt hb
  obtain ⟨steps, hmade⟩ := h.madeUp b hlt (hlen ▸ hb)
  exact ⟨steps, hmade.mono hg (by omega) (hlen ▸ hb)⟩

/-- An orphan gets a link to a home that leads to its haven. -/
lemma charted_attach (h : Charted c p) {o : Orphan} (ho : o ∈ c.orphans) (hfree : o.id ∉ p.linked) :
    Charted c (p.attach o) ∧ ∃ home, (home, o.id) ∈ (p.attach o).links ∧
      Leads c (p.attach o) home (c.haven o.memberof) := by
  obtain ⟨hcharted, hleads⟩ := charted_homeOf h o.memberof
  have hle : o.id ≤ c.symbols.length := c.awaits_orphans.le o ho
  obtain ⟨htidy, hg⟩ := tidy_attach h.tidy (c.awaits_orphans.pos o ho)
    (Nat.le_trans hle h.length_le) hfree
  have hlast := grows_homeOf_attach p o
  have hgrows := h.grows.trans (hg.mono fun i hi =>
    mem_singleton.mp hi ▸ mem_map_of_mem ho)
  exact ⟨hcharted.mono htidy hgrows hlast (length_attach p o), _, mem_links_attach p o,
    hleads.mono hlast⟩

lemma charted_attachAll : ∀ {os : List Orphan} {p : Planting}, Charted c p → Awaits p os →
    (∀ o ∈ os, o ∈ c.orphans) →
      Charted c (os.foldl attach p) ∧ ∀ o ∈ os, ∃ home, (home, o.id) ∈ (os.foldl attach p).links ∧
        Leads c (os.foldl attach p) home (c.haven o.memberof) := by
  intro os
  induction os with
  | nil => intro p h _ _; exact ⟨h, by simp⟩
  | cons o rest ih =>
    intro p h hwait hos
    obtain ⟨hcharted, home, hlink, hleads⟩ :=
      charted_attach h (hos o mem_cons_self) (hwait.free o mem_cons_self)
    have hwait' := hwait.attach h.tidy
    obtain ⟨hdone, hrest⟩ := ih hcharted hwait' fun o ho => hos o (mem_cons_of_mem _ ho)
    refine ⟨hdone, ?_⟩
    intro o' ho'
    rcases mem_cons.mp ho' with rfl | ho'
    · have hg := (tidy_attachAll hcharted.tidy hwait').2
      exact ⟨home, hg.mem_links hlink, hleads.mono hg⟩
    · exact hrest o' ho'

/-- **In the finished planting every orphan has a home that leads to its haven.** -/
lemma charted_planting (hc : (c.symbols.map Symbol.longname).Nodup) :
    Charted c c.planting ∧ ∀ o ∈ c.orphans, ∃ home, (home, o.id) ∈ c.planting.links ∧
      Leads c c.planting home (c.haven o.memberof) := by
  have hstart : Charted c c.resolved := by
    refine ⟨Census.tidy_resolved hc, Grows.refl _ _, ?_⟩
    intro b hlt hb
    exact absurd hlt (Nat.not_lt.mpr hb)
  have hperm : c.sortedOrphans.Perm c.orphans := mergeSort_perm _ _
  obtain ⟨hdone, hall⟩ := charted_attachAll hstart (c.awaits_orphans.perm hperm)
    fun o ho => hperm.mem_iff.mp ho
  exact ⟨hdone, fun o ho => hall o (hperm.mem_iff.mpr ho)⟩

end Planting

end AmbientDecl

import AmbientDecl.Proofs.Forest.Haven

/-!
# Homes of orphans

The orphans of a missing parent go under one symbol, and namespaces are made up so that their
qualified names stay right.

**Places on a path.** `Planting.IsAt` is the symbol that some steps lead to; the root is where no
steps lead. `Planting.Nearest` is the nearest ancestor of a path that exists, said without a search,
and `nearest_anchorOf` says that the search finds it.

**Homes.** If the nearest ancestor can hold declarations and the steps behind it are identifiers
(`Planting.Open`), the home is at the end of the path (`homeOf_path`), otherwise it is the ancestor
(`homeOf_of_not_open`). Attaching an orphan opens no path that was not open and closes none, so the
next orphan of the same parent has the same home (`homeOf_attach`).

**Made-up namespaces.** `Planting.Housed` says that every made-up namespace is where the steps of
its longname but the last one lead. `lodged_attach` is the step and `housed_attachAll` the run.
-/

namespace AmbientDecl

open List Longname

open Longname (Step WellCut)

namespace Planting

variable {p q : Planting} {steps : List Step} {free : List Nat}

/-- The symbol that steps lead to; no steps lead to the root. -/
def IsAt (p : Planting) (steps : List Step) (id : Nat) : Prop :=
  steps = [] ∧ id = 0 ∨ steps ≠ [] ∧ p.idOf? (Longname.join steps) = some id

lemma isAt_nil (p : Planting) : p.IsAt [] 0 := Or.inl ⟨rfl, rfl⟩

lemma isAt_of_idOf? {id : Nat} (hne : steps ≠ []) (h : p.idOf? (Longname.join steps) = some id) :
    p.IsAt steps id :=
  Or.inr ⟨hne, h⟩

lemma IsAt.mono {id : Nat} (hg : Grows free p q) (h : p.IsAt steps id) : q.IsAt steps id :=
  h.imp_right fun ⟨hne, hid⟩ => ⟨hne, hg.idOf? hid⟩

lemma IsAt.le {id : Nat} (h : p.IsAt steps id) : id ≤ p.symbols.length := by
  rcases h with ⟨_, rfl⟩ | ⟨_, hid⟩
  · exact Nat.zero_le _
  · exact (idOf?_eq_some hid).2.1

lemma IsAt.unique {id id' : Nat} (h : p.IsAt steps id) (h' : p.IsAt steps id') : id = id' := by
  rcases h with ⟨hnil, rfl⟩ | ⟨hne, hid⟩ <;> rcases h' with ⟨hnil', rfl⟩ | ⟨hne', hid'⟩
  · rfl
  · exact absurd hnil hne'
  · exact absurd hnil' hne
  · exact Option.some.inj (hid.symm.trans hid')

/-- The nearest ancestor of a path that exists, and the number of steps that lead to it. -/
structure Nearest (p : Planting) (steps : List Step) (depth anchor : Nat) : Prop where
  proper : depth ≤ steps.length - 1
  isAt : p.IsAt (steps.take depth) anchor
  longest : ∀ k, depth < k → k < steps.length → p.idOf? (Longname.join (steps.take k)) = none

lemma isAt_anchorOf (p : Planting) {steps : List Step} : ∀ {k : Nat}, k ≤ steps.length - 1 →
    p.IsAt (steps.take (anchorOf p steps k).2) (anchorOf p steps k).1 := by
  intro k
  induction k with
  | zero => intro _; exact p.isAt_nil
  | succ k ih =>
    intro hk
    rw [anchorOf]
    split
    · rename_i id hid
      refine isAt_of_idOf? ?_ hid
      simpa using ne_nil_of_length_pos (by omega : 0 < steps.length)
    · exact ih (by omega)

/-- **The search finds the nearest ancestor.** -/
lemma nearest_anchorOf (p : Planting) (steps : List Step) :
    p.Nearest steps (anchorOf p steps (steps.length - 1)).2
      (anchorOf p steps (steps.length - 1)).1 where
  proper := anchorOf_depth_le p steps _
  isAt := isAt_anchorOf p (Nat.le_refl _)
  longest := by
    intro k hdepth hk
    by_contra hsome
    have hle := le_anchorOf_depth (Nat.zero_lt_of_lt hdepth) hsome
      (k := steps.length - 1) (by omega)
    omega

/-- A namespace under the symbol that the steps of its longname but the last one lead to. -/
structure Lodged (p : Planting) (b : Nat) : Prop where
  kind : (p.symbolAt b).kind = .namespaceDecl
  named : Longname.split (p.symbolAt b).longname ≠ []
  under : ∃ above, (above, b) ∈ p.links ∧
    p.IsAt (Longname.split (p.symbolAt b).longname).dropLast above

lemma Lodged.mono (hg : Grows free p q) {b : Nat} (hle : b ≤ p.symbols.length) (h : Lodged p b) :
    Lodged q b := by
  obtain ⟨hlongname, hkind, _⟩ := hg.keeps hle
  obtain ⟨above, hlink, hat⟩ := h.under
  refine ⟨hkind.trans h.kind, ?_, above, hg.mem_links hlink, ?_⟩
  · rw [hlongname]
    exact h.named
  · rw [hlongname]
    exact hat.mono hg

/-- The namespace that is made up for a longname. -/
def namespaceFor (longname name : String) : Symbol :=
  { Symbol.bare .namespaceDecl name longname with synthesized := true }

lemma descend_of_none {longname : String} (h : p.idOf? longname = none)
    (above : Nat) (name : String)
    (rest : List (String × String)) : descend p above ((longname, name) :: rest) =
      descend (p.plant above (namespaceFor longname name)).1 (p.symbols.length + 1) rest := by
  rw [descend, h]
  rfl

lemma length_plant (p : Planting) (above : Nat) (s : Symbol) :
    (p.plant above s).1.symbols.length = p.symbols.length + 1 := by
  simp [plant]

lemma symbolAt_plant (p : Planting) (above : Nat) (s : Symbol) :
    (p.plant above s).1.symbolAt (p.symbols.length + 1) = s := by
  simp [plant, symbolAt]

section Next

variable {k above : Nat}

/-- The namespace that is made up for the next step. -/
lemma lodged_plant (hsteps : WellCut steps) (hk : k < steps.length)
    (hat : p.IsAt (steps.take k) above)
    (name : String) :
    Lodged (p.plant above (namespaceFor (Longname.join (steps.take (k + 1))) name)).1
      (p.symbols.length + 1) := by
  have hsplit : split (namespaceFor (join (steps.take (k + 1))) name).longname =
      steps.take (k + 1) := split_join (hsteps.take (k + 1))
  have hlast : (steps.take (k + 1)).dropLast = steps.take k := by
    rw [dropLast_eq_take, take_take, length_take]
    congr 1
    omega
  refine ⟨?_, ?_, above, by simp [plant], ?_⟩
  · rw [symbolAt_plant]
    rfl
  · rw [symbolAt_plant, hsplit]
    simpa using ne_nil_of_length_pos (Nat.zero_lt_of_lt hk)
  · rw [symbolAt_plant, hsplit, hlast]
    exact hat.mono (grows_plant [] p above _)

lemma isAt_plant (hp : Tidy p) (hle : above ≤ p.symbols.length) (hne : steps ≠ [])
    (hnew : Longname.join steps ∉ p.longnames) (name : String) :
    (p.plant above (namespaceFor (Longname.join steps) name)).1.IsAt steps
      (p.symbols.length + 1) := by
  have htidy := tidy_plant (s := namespaceFor (join steps) name) hp hle hnew
  refine isAt_of_idOf? hne (idOf?_of_getElem? htidy.longnames ?_)
  simp [plant, Planting.longnames, namespaceFor, Symbol.bare]

end Next

/-- **Going down along steps** ends where they lead, and what is made up on the way is lodged. -/
lemma descend_path (hsteps : WellCut steps) :
    ∀ (left : Nat) {p : Planting} {k above : Nat}, Tidy p →
    k + left = steps.length → p.IsAt (steps.take k) above →
      (descend p above (missingSteps steps k)).1.IsAt steps
        (descend p above (missingSteps steps k)).2 ∧
        ∀ b, p.symbols.length < b → b ≤ (descend p above (missingSteps steps k)).1.symbols.length →
          Lodged (descend p above (missingSteps steps k)).1 b := by
  intro left
  induction left with
  | zero =>
    intro p k above _ hk hat
    rw [take_of_length_le (by omega)] at hat
    rw [missingSteps_eq_nil (by omega), descend]
    exact ⟨hat, fun b hlt hle => absurd hlt (Nat.not_lt.mpr hle)⟩
  | succ left ih =>
    intro p k above hp hk hat
    have hlt : k < steps.length := by omega
    have hne : steps.take (k + 1) ≠ [] := by
      simpa using ne_nil_of_length_pos (Nat.zero_lt_of_lt hlt)
    obtain ⟨step, hstep⟩ : ∃ step, steps[k]? = some step := ⟨_, getElem?_eq_getElem hlt⟩
    rw [missingSteps_cons hstep]
    cases hid : p.idOf? (join (steps.take (k + 1))) with
    | some id =>
      simp only [descend, hid]
      exact ih hp (by omega) (isAt_of_idOf? hne hid)
    | none =>
      rw [descend_of_none hid]
      have hnew := idOf?_eq_none.mp hid
      have hlodged := lodged_plant hsteps hlt hat (unquote step.segment)
      have hat' := isAt_plant hp hat.le hne hnew (unquote step.segment)
      have htidy : Tidy (p.plant above
          (namespaceFor (join (steps.take (k + 1))) (unquote step.segment))).1 :=
        tidy_plant hp hat.le hnew
      obtain ⟨hdone, hmade⟩ := ih htidy (by omega) hat'
      refine ⟨hdone, fun b hb hle => ?_⟩
      rcases Nat.lt_or_ge (p.symbols.length + 1) b with hlater | hfirst
      · refine hmade b ?_ hle
        rw [length_plant]
        exact hlater
      · obtain rfl : b = p.symbols.length + 1 := by omega
        exact hlodged.mono (tidy_descend _ htidy hat'.le).2.2
          (Nat.le_of_eq (length_plant _ _ _).symm)

/-- Namespaces can be made up behind the anchor of a path: it holds declarations, and the names of
the steps behind it are identifiers. -/
def Open (p : Planting) (steps : List Step) (depth anchor : Nat) : Prop :=
  (p.symbolAt anchor).kind.isContainer = true ∧
    ∀ step ∈ steps.drop depth, isIdentifier (unquote step.segment) = true

lemma isClearFrom_iff {depth anchor : Nat} :
    p.isClearFrom steps anchor depth = true ↔ p.Open steps depth anchor := by
  rw [isClearFrom, Bool.and_eq_true, all_missingSteps]
  refine and_congr_right fun _ => ?_
  simp only [mem_iff_getElem?, getElem?_drop]
  constructor
  · rintro h step ⟨i, hi⟩
    exact h (depth + i) step (by omega) hi
  · intro h i step hi hget
    exact h step ⟨i - depth, by rwa [Nat.add_sub_cancel' hi]⟩

section Homes

variable {memberof : String} {depth anchor : Nat}

/-- The nearest ancestor that a search from a planting finds for a missing parent. -/
def anchorFor (p : Planting) (memberof : String) : Nat × Nat :=
  anchorOf p (Longname.split memberof) ((Longname.split memberof).length - 1)

/-- The path of a missing parent is open. -/
def OpenFor (p : Planting) (memberof : String) : Prop :=
  p.Open (Longname.split memberof) (p.anchorFor memberof).2 (p.anchorFor memberof).1

lemma homeOf_of_open (h : p.OpenFor memberof) : homeOf p memberof =
    descend p (p.anchorFor memberof).1
      (missingSteps (Longname.split memberof) (p.anchorFor memberof).2) := by
  rw [homeOf_eq]
  exact if_pos (isClearFrom_iff.mpr h)

lemma homeOf_of_not_open (h : ¬ p.OpenFor memberof) :
    homeOf p memberof = (p, (p.anchorFor memberof).1) := by
  rw [homeOf_eq]
  exact if_neg (mt isClearFrom_iff.mp h)

/-- **On an open path the home is at its end**, and what is made up for it is lodged. -/
lemma homeOf_path (hp : Tidy p) (h : p.OpenFor memberof) :
    (homeOf p memberof).1.IsAt (Longname.split memberof) (homeOf p memberof).2 ∧
      ∀ b, p.symbols.length < b → b ≤ (homeOf p memberof).1.symbols.length →
        Lodged (homeOf p memberof).1 b := by
  have hnear := nearest_anchorOf p (split memberof)
  rw [homeOf_of_open h]
  refine descend_path (wellCut_split memberof)
    ((split memberof).length - (p.anchorFor memberof).2) hp ?_ hnear.isAt
  have hdepth : (p.anchorFor memberof).2 ≤ (split memberof).length - 1 := hnear.proper
  omega

/-- Whatever the path is, what is made up on the way to the home is lodged. -/
lemma lodged_homeOf (hp : Tidy p) (memberof : String) : ∀ b, p.symbols.length < b →
    b ≤ (homeOf p memberof).1.symbols.length → Lodged (homeOf p memberof).1 b := by
  by_cases h : p.OpenFor memberof
  · exact (homeOf_path hp h).2
  · rw [homeOf_of_not_open h]
    exact fun b hlt hle => absurd hlt (Nat.not_lt.mpr hle)

/-- What was not there before has a new number. -/
lemma Grows.lt_of_idOf? (hg : Grows free p q) {longname : String} {id : Nat}
    (hnone : p.idOf? longname = none)
    (hid : q.idOf? longname = some id) : p.symbols.length < id ∧ id ≤ q.symbols.length := by
  obtain ⟨hpos, hle, hget⟩ := idOf?_eq_some hid
  refine ⟨?_, hle⟩
  by_contra hold
  have hlt : id - 1 < p.longnames.length := by rw [length_longnames]; omega
  rw [prefix_iff_getElem?.mp hg.longnames _ hlt] at hget
  exact idOf?_eq_none.mp hnone (Option.some.inj hget ▸ getElem_mem hlt)

lemma anchorOf_congr (h : q.longnames = p.longnames) (steps : List Step) : ∀ k,
    anchorOf q steps k = anchorOf p steps k := by
  intro k
  induction k with
  | zero => rfl
  | succ k ih => rw [anchorOf, anchorOf, idOf?_eq, idOf?_eq, h, ih]

/-- A path that is open stays open: what is found further along it was made up. -/
lemma OpenFor.mono (hg : Grows free p q) (h : p.OpenFor memberof)
    (hmade : ∀ b, p.symbols.length < b → b ≤ q.symbols.length → (q.symbolAt b).kind =
      .namespaceDecl) :
    q.OpenFor memberof := by
  have hnear := nearest_anchorOf p (split memberof)
  have hnear' := nearest_anchorOf q (split memberof)
  obtain ⟨hcontainer, hnames⟩ := h
  change p.Nearest _ (p.anchorFor memberof).2 (p.anchorFor memberof).1 at hnear
  change q.Nearest _ (q.anchorFor memberof).2 (q.anchorFor memberof).1 at hnear'
  have hdepth : (p.anchorFor memberof).2 ≤ (q.anchorFor memberof).2 := by
    by_contra hlt
    have hproper := hnear.proper
    have hnone := hnear'.longest (p.anchorFor memberof).2 (by omega) (by omega)
    rcases hnear.isAt with ⟨hnil, _⟩ | ⟨_, hid⟩
    · have := congrArg List.length hnil
      rw [length_take, length_nil] at this
      omega
    · rw [hg.idOf? hid] at hnone
      cases hnone
  refine ⟨?_, fun step hstep => hnames step ((drop_sublist_drop_left _ hdepth).subset hstep)⟩
  rcases Nat.eq_or_lt_of_le hdepth with hsame | hdeeper
  · have hat := hnear.isAt.mono hg
    rw [hsame] at hat
    rw [hnear'.isAt.unique hat, hg.kind hnear.isAt.le]
    exact hcontainer
  · -- the anchor was not there before, so it is one of the namespaces
    have hproper := hnear'.proper
    have hnone := hnear.longest (q.anchorFor memberof).2 hdeeper (by omega)
    rcases hnear'.isAt with ⟨hnil, _⟩ | ⟨_, hid⟩
    · have := congrArg List.length hnil
      rw [length_take, length_nil] at this
      omega
    · obtain ⟨hlt, hle⟩ := hg.lt_of_idOf? hnone hid
      rw [hmade _ hlt hle]
      rfl

variable {o : Orphan}

lemma lodged_attach (hp : Tidy p) (o : Orphan) : ∀ b, p.symbols.length < b →
    b ≤ (p.attach o).symbols.length → Lodged (p.attach o) b := by
  intro b hlt hle
  rw [length_attach] at hle
  exact (lodged_homeOf hp o.memberof b hlt hle).mono (grows_homeOf_attach p o) hle

/-- **The next orphan of the same parent has the same home.** -/
lemma homeOf_attach (hp : Tidy p) (hpos : 0 < o.id) (hle : o.id ≤ p.symbols.length)
    (hfree : o.id ∉ p.linked) :
    (homeOf (p.attach o) o.memberof).2 = (homeOf p o.memberof).2 := by
  obtain ⟨htidy, hg⟩ := tidy_attach hp hpos hle hfree
  by_cases hopen : p.OpenFor o.memberof
  · have hat := (homeOf_path hp hopen).1.mono (grows_homeOf_attach p o)
    have hopen' := hopen.mono hg fun b hlt hb => (lodged_attach hp o b hlt hb).kind
    exact (homeOf_path htidy hopen').1.unique (hat.mono (tidy_homeOf htidy o.memberof).2.2)
  · -- nothing is made up, so the search finds what it found before
    have htags : (p.attach o).tags = p.tags := by rw [tags_attach, homeOf_of_not_open hopen]
    have hanchor : (p.attach o).anchorFor o.memberof = p.anchorFor o.memberof :=
      anchorOf_congr (by rw [longnames_eq, longnames_eq, htags]) _ _
    have hkind : ((p.attach o).symbolAt (p.anchorFor o.memberof).1).kind =
        (p.symbolAt (p.anchorFor o.memberof).1).kind := hg.kind (anchorOf_le p _ _)
    have hopen' : ¬ (p.attach o).OpenFor o.memberof := by
      rw [OpenFor, Open, hanchor, hkind]
      exact hopen
    rw [homeOf_of_not_open hopen', homeOf_of_not_open hopen, hanchor]

end Homes

variable {os : List Orphan} {n : Nat}

/-- Orphans of one parent that are attached one after another have one home. -/
lemma together_attachAll {memberof : String} (hp : Tidy p) (h : Awaits p os)
    (hsame : ∀ o ∈ os, o.memberof = memberof) :
    ∀ o ∈ os, ((homeOf p memberof).2, o.id) ∈ (os.foldl attach p).links := by
  induction os generalizing p with
  | nil => simp
  | cons o rest ih =>
    obtain ⟨hfirst, hsame⟩ := forall_mem_cons.mp hsame
    have hpos := h.pos o mem_cons_self
    have hle := h.le o mem_cons_self
    have hfree := h.free o mem_cons_self
    have htidy := (h.first hp).1
    have hgrows := (tidy_attachAll htidy (h.attach hp)).2
    subst hfirst
    rw [forall_mem_cons]
    refine ⟨hgrows.mem_links (mem_links_attach p o), fun o' ho' => ?_⟩
    have hlink := ih htidy (h.attach hp) hsame o' ho'
    rwa [homeOf_attach hp hpos hle hfree] at hlink

/-- All symbols behind the first `n` are made up and lodged. -/
def Housed (n : Nat) (p : Planting) : Prop := ∀ b, n < b → b ≤ p.symbols.length → Lodged p b

/-- **Every namespace that is made up for orphans is lodged in the end.** -/
lemma housed_attachAll (hp : Tidy p) (h : Awaits p os) (hhoused : Housed n p) :
    Housed n (os.foldl attach p) := by
  induction os generalizing p with
  | nil => exact hhoused
  | cons o rest ih =>
    obtain ⟨htidy, hg⟩ := h.first hp
    refine ih htidy (h.attach hp) fun b hlt hle => ?_
    rcases Nat.lt_or_ge p.symbols.length b with hnew | hold
    · exact lodged_attach hp o b hnew hle
    · exact (hhoused b hlt hold).mono hg hold

end Planting

end AmbientDecl

import AmbientDecl.Proofs.Forest.Census
import AmbientDecl.Proofs.Identifier
import Mathlib.Data.List.Sort

/-!
# The census of doclets in another order

Items have keys, and a list is rearranged if items of one key stay in their order.

**One step at a time.** Where items have two keys, every rearrangement that respects both is made of
exchanges of neighbours that differ in both (`shuffled_of_rearranged`). So a pass over a list needs
to be looked at for two neighbours only.

**Sorting by the key.** A stable sort by the key undoes every rearrangement
(`Rearranged.mergeSort`).

**Groups.** Doclets that end up below one parent are of one group: `none` for the top level, else
the parent that they name. A package is no parent, so its longname names the top level.

**One doclet.** What a doclet does to the census is cut in two: `Census.draft` reads it and can
fail, `Census.enter` enters it and cannot. Two doclets of different longnames are read
independently, and entering them in either order gives the same census, but for the order of two new
symbols (`Census.alike_enter_comm`).

**The pass.** So the census of rearranged doclets has the same symbols, and those of one group in
the same order (`Census.agree_ofDoclets`).

A chain of membership goes from longname to longname, and the census finds the same symbol for a
longname in whichever order it holds its symbols. So the same chains close
(`Census.agree_checkCycles`) and the same symbols are left out (`Census.Alike.isDropped`).
-/

namespace AmbientDecl

open List

variable {s : Symbol} {new : Option Symbol}

/-- The same items, and those of one key in the same order. -/
structure Rearranged {α κ : Type} [DecidableEq κ] (key : α → κ) (l l' : List α) : Prop where
  perm : l.Perm l'
  keeps : ∀ k, l.filter (fun a => key a = k) = l'.filter (fun a => key a = k)

namespace Rearranged

variable {α κ : Type} [DecidableEq κ] {key : α → κ} {l l' m : List α}

lemma refl (key : α → κ) (l : List α) : Rearranged key l l := ⟨.refl l, fun _ => rfl⟩

lemma symm (h : Rearranged key l l') : Rearranged key l' l :=
  ⟨h.perm.symm, fun k => (h.keeps k).symm⟩

lemma trans (h : Rearranged key l l') (h' : Rearranged key l' m) : Rearranged key l m :=
  ⟨h.perm.trans h'.perm, fun k => (h.keeps k).trans (h'.keeps k)⟩

lemma append_right (h : Rearranged key l l') (m : List α) : Rearranged key (l ++ m) (l' ++ m) where
  perm := h.perm.append_right m
  keeps k := by rw [filter_append, filter_append, h.keeps k]

lemma append_left (m : List α) (h : Rearranged key l l') : Rearranged key (m ++ l) (m ++ l') where
  perm := h.perm.append_left m
  keeps k := by rw [filter_append, filter_append, h.keeps k]

/-- What is done to each item and keeps its key. -/
lemma map (h : Rearranged key l l') {f : α → α} (hf : ∀ a ∈ l, key (f a) = key a) :
    Rearranged key (l.map f) (l'.map f) where
  perm := h.perm.map f
  keeps k := by
    have hcomp : ∀ a ∈ l, ((fun b => decide (key b = k)) ∘ f) a = decide (key a = k) := by
      intro a ha
      rw [Function.comp_apply, hf a ha]
    have hcomp' : ∀ a ∈ l', ((fun b => decide (key b = k)) ∘ f) a = decide (key a = k) :=
      fun a ha => hcomp a (h.perm.mem_iff.mpr ha)
    rw [filter_map, filter_map, filter_congr hcomp, filter_congr hcomp', h.keeps k]

/-- Neighbours with different keys may be exchanged. -/
lemma swap {a b : α} (hne : key a ≠ key b) (l : List α) :
    Rearranged key (a :: b :: l) (b :: a :: l) where
  perm := .swap b a l
  keeps k := by
    by_cases ha : key a = k
    · have hb : ¬ key b = k := fun hb => hne (ha.trans hb.symm)
      simp [ha, hb]
    · simp [filter_cons, ha]

/-- A selection of items of one key is the same in both lists. -/
lemma filter_eq (h : Rearranged key l l') {P : α → Bool} {k : κ} (hP : ∀ a ∈ l, P a → key a = k) :
    l.filter P = l'.filter P := by
  have hboth : ∀ (r : List α), (∀ a ∈ r, P a → key a = k) →
      r.filter P = (r.filter fun a => key a = k).filter P := by
    intro r hr
    rw [filter_filter]
    refine filter_congr fun a ha => ?_
    cases hPa : P a with
    | false => simp
    | true => simp [hr a ha hPa]
  rw [hboth l hP, hboth l' fun a ha => hP a (h.perm.mem_iff.mpr ha), h.keeps k]

/-- What is made of the items, if it gives away the key of the item that it was made of. -/
lemma filterMap {β κ' : Type} [DecidableEq κ'] (h : Rearranged key l l') {g : α → Option β}
    {key' : β → κ'} {u : κ' → κ} (hg : ∀ a b, g a = some b → key a = u (key' b)) :
    Rearranged key' (l.filterMap g) (l'.filterMap g) where
  perm := h.perm.filterMap g
  keeps k := by
    have hpick : ∀ r : List α, (r.filterMap g).filter (fun b => key' b = k)
        = (r.filter fun a => (g a).any fun b => key' b = k).filterMap g := by
      intro r
      rw [filter_filterMap, filterMap_filter]
      congr 1
      funext a
      cases g a with
      | none => simp
      | some b => by_cases hb : key' b = k <;> simp [hb]
    rw [hpick, hpick, h.filter_eq]
    intro a _ ha
    cases hb : g a with
    | none => simp [hb] at ha
    | some b =>
      have hk : key' b = k := by simpa [hb] using ha
      rw [hg a b hb, hk]

/-- Lists that start with the same item go on rearranged. -/
lemma of_cons {a : α} (h : Rearranged key (a :: l) (a :: l')) : Rearranged key l l' where
  perm := h.perm.cons_inv
  keeps k := by
    have hk := h.keeps k
    rw [filter_cons, filter_cons] at hk
    split at hk
    · exact (List.cons.inj hk).2
    · exact hk

end Rearranged

/-- Lists that differ by exchanges of neighbours that are apart from each other. -/
inductive Shuffled {α : Type} (apart : α → α → Prop) : List α → List α → Prop
  | refl (l : List α) : Shuffled apart l l
  | cons (a : α) {l l' : List α} (rest : Shuffled apart l l') : Shuffled apart (a :: l) (a :: l')
  | swap {a b : α} (h : apart a b) (l : List α) : Shuffled apart (a :: b :: l) (b :: a :: l)
  | trans {l m l' : List α} (first : Shuffled apart l m) (second : Shuffled apart m l') :
      Shuffled apart l l'

section Shuffled

variable {α κ κ' : Type} [DecidableEq κ] [DecidableEq κ'] {key : α → κ} {key' : α → κ'}

/-- The first item that shares a key with `a`, where `a` is the first of both its keys. -/
lemma exists_first {a : α} : ∀ {l : List α} {r r' : List α},
    l.filter (fun b => key b = key a) = a :: r → l.filter (fun b => key' b = key' a) = a :: r' →
      ∃ u v, l = u ++ a :: v ∧ ∀ x ∈ u, key a ≠ key x ∧ key' a ≠ key' x := by
  intro l
  induction l with
  | nil =>
    intro r r' h _
    simp at h
  | cons x l ih =>
    intro r r' h h'
    by_cases hx : key x = key a
    · rw [filter_cons_of_pos (by simpa using hx)] at h
      exact ⟨[], l, by rw [(List.cons.inj h).1, nil_append], by simp⟩
    by_cases hx' : key' x = key' a
    · rw [filter_cons_of_pos (by simpa using hx')] at h'
      exact ⟨[], l, by rw [(List.cons.inj h').1, nil_append], by simp⟩
    rw [filter_cons_of_neg (by simpa using hx)] at h
    rw [filter_cons_of_neg (by simpa using hx')] at h'
    obtain ⟨u, v, rfl, hu⟩ := ih h h'
    refine ⟨x :: u, v, rfl, ?_⟩
    intro y hy
    rcases mem_cons.mp hy with rfl | hy
    · exact ⟨Ne.symm hx, Ne.symm hx'⟩
    · exact hu y hy

/-- An item passes everything that it is apart from. -/
lemma shuffled_middle {apart : α → α → Prop} {a : α} (v : List α) : ∀ {u : List α},
    (∀ x ∈ u, apart a x) → Shuffled apart (a :: (u ++ v)) (u ++ a :: v) := by
  intro u
  induction u with
  | nil => intro _; exact .refl _
  | cons x u ih =>
    intro hu
    refine .trans (.swap (hu x mem_cons_self) (u ++ v)) (.cons x ?_)
    exact ih fun y hy => hu y (mem_cons_of_mem _ hy)

/-- An item can be moved to the front over items of other keys. -/
lemma Rearranged.middle {a : α} (v : List α) : ∀ {u : List α}, (∀ x ∈ u, key a ≠ key x) →
    Rearranged key (u ++ a :: v) (a :: (u ++ v)) := by
  intro u hu
  refine ⟨perm_middle, fun k => ?_⟩
  by_cases hk : key a = k
  · have hnone : u.filter (fun b => key b = k) = [] := by
      rw [filter_eq_nil_iff]
      intro x hx
      simpa [← hk] using Ne.symm (hu x hx)
    simp [hk, hnone]
  · simp [hk]

/-- **A rearrangement by two keys is made of exchanges of neighbours that differ in both.** -/
lemma shuffled_of_rearranged : ∀ {l l' : List α}, Rearranged key l l' → Rearranged key' l l' →
    Shuffled (fun a b => key a ≠ key b ∧ key' a ≠ key' b) l l' := by
  intro l
  induction l with
  | nil =>
    intro l' h _
    rw [h.perm.nil_eq]
    exact .refl _
  | cons a rest ih =>
    intro l' h h'
    have hfirst := (h.keeps (key a)).symm
    have hfirst' := (h'.keeps (key' a)).symm
    rw [filter_cons_of_pos (by simp)] at hfirst hfirst'
    obtain ⟨u, v, rfl, hu⟩ := exists_first hfirst hfirst'
    have hrest : Rearranged key rest (u ++ v) :=
      (h.trans (.middle v fun x hx => (hu x hx).1)).of_cons
    have hrest' : Rearranged key' rest (u ++ v) :=
      (h'.trans (.middle v fun x hx => (hu x hx).2)).of_cons
    exact .trans (.cons a (ih hrest hrest')) (shuffled_middle v hu)

end Shuffled

namespace Rearranged

variable {α : Type} {key : α → String} {l l' : List α}

/-- Sorted lists that are rearranged are the same. -/
lemma eq_of_sorted : ∀ {l l' : List α}, Rearranged key l l' →
    l.Pairwise (fun a b => key a ≤ key b) → l'.Pairwise (fun a b => key a ≤ key b) → l = l' := by
  intro l
  induction l with
  | nil =>
    intro l' h _ _
    exact h.perm.nil_eq
  | cons a rest ih =>
    intro l' h hl hl'
    cases l' with
    | nil => exact absurd h.perm.length_eq (by simp)
    | cons b rest' =>
      obtain ⟨ha, hrest⟩ := pairwise_cons.mp hl
      obtain ⟨hb, hrest'⟩ := pairwise_cons.mp hl'
      -- both heads have the least key
      have hab : key a ≤ key b := by
        rcases mem_cons.mp (h.perm.mem_iff.mpr mem_cons_self) with hba | hmem
        · exact hba ▸ String.le_refl (key b)
        · exact ha b hmem
      have hba : key b ≤ key a := by
        rcases mem_cons.mp (h.perm.mem_iff.mp mem_cons_self) with hab | hmem
        · exact hab ▸ String.le_refl (key a)
        · exact hb a hmem
      have hkey : key b = key a := String.le_antisymm hba hab
      have hfirst := h.keeps (key a)
      rw [filter_cons_of_pos (by simp), filter_cons_of_pos (by simpa using hkey)]
        at hfirst
      obtain rfl := (List.cons.inj hfirst).1
      rw [ih h.of_cons hrest hrest']

/-- The order of the keys, as a sort takes it. -/
def keyLE (key : α → String) (a b : α) : Bool := decide (key a ≤ key b)

lemma keyLE_trans (a b c : α) (hab : keyLE key a b) (hbc : keyLE key b c) : keyLE key a c := by
  simp only [keyLE, decide_eq_true_eq] at hab hbc ⊢
  exact String.le_trans hab hbc

lemma keyLE_total (a b : α) : (keyLE key a b || keyLE key b a) = true := by
  simp only [keyLE, Bool.or_eq_true, decide_eq_true_eq]
  exact String.le_total (key a) (key b)

/-- A sort by the key is stable. -/
lemma of_mergeSort (key : α → String) (l : List α) :
    Rearranged key l (l.mergeSort (keyLE key)) := by
  refine ⟨(mergeSort_perm _ _).symm, fun k => ?_⟩
  have hsorted : (l.filter fun a => key a = k).Pairwise fun a b => keyLE key a b := by
    refine pairwise_of_forall_mem_list fun a ha b hb => ?_
    simp only [mem_filter, decide_eq_true_eq] at ha hb
    simp [keyLE, ha.2, hb.2]
  have hsub := (sublist_mergeSort keyLE_trans keyLE_total hsorted
    filter_sublist).filter fun a => key a = k
  rw [filter_filter] at hsub
  simp only [Bool.and_self] at hsub
  refine hsub.eq_of_length ?_
  exact ((mergeSort_perm l (keyLE key)).filter _).length_eq.symm

/-- **A stable sort by the key undoes a rearrangement.** -/
lemma mergeSort (h : Rearranged key l l') : l.mergeSort (keyLE key) = l'.mergeSort (keyLE key) := by
  have hsorted : ∀ r : List α, (r.mergeSort (keyLE key)).Pairwise fun a b => key a ≤ key b := by
    intro r
    have htotal : ∀ a b : α, (keyLE key a b || keyLE key b a) = true := keyLE_total
    simpa [keyLE] using pairwise_mergeSort keyLE_trans htotal r
  exact (((of_mergeSort key l).symm.trans h).trans (of_mergeSort key l')).eq_of_sorted (hsorted l)
    (hsorted l')

end Rearranged

/-- The group of what names this parent. -/
def groupOf (packages : List String) (memberof : Option String) : Option String :=
  (nonempty? memberof).filter fun parent => !packages.contains parent

def Doclet.group (packages : List String) (d : Doclet) : Option String :=
  groupOf packages d.memberof

/-- The group of a symbol is that of its first doclet. -/
def Symbol.group (packages : List String) (s : Symbol) : Option String :=
  groupOf packages s.memberof?

/-- The longnames of the packages that a filter accepts. -/
def acceptedPackages (filter : Option DocletFilter) (doclets : List Doclet) : List String :=
  (doclets.filter fun d => !Census.isRejected filter d && d.isPackage).map Doclet.longname

namespace Census

variable {filter : Option DocletFilter} {packages : List String} {c c' : Census} {d a b : Doclet}

def takesPart (filter : Option DocletFilter) (d : Doclet) : Bool :=
  !isRejected filter d && !isMute d

/-- Reads a doclet, whose longname may be known; gives the symbol if the doclet makes one. -/
def draft (filter : Option DocletFilter) (known : Bool) (d : Doclet) : Run (Option Symbol) := do
  checkVersion filter d
  Run.noteAll ((filter.map fun f => f.notes d).getD [])
  if takesPart filter d && !known then
    let s ← Symbol.ofDoclet d
    return some { s with doclets := [d] }
  else return none

/-- The symbols with a doclet entered that makes a symbol or belongs to one. -/
def enterSymbol (filter : Option DocletFilter) (d : Doclet) (new : Option Symbol)
    (symbols : List Symbol) : List Symbol :=
  if takesPart filter d then
    match new with
    | some s => symbols ++ [s]
    | none => queue d symbols
  else symbols

def enter (filter : Option DocletFilter) (c : Census) (d : Doclet) (new : Option Symbol) :
    Census where
  symbols := enterSymbol filter d new c.symbols
  rejected := c.rejected ++ if isRejected filter d then [d.longname] else []
  packages := c.packages ++ acceptedPackages filter [d]

lemma add_eq (filter : Option DocletFilter) (c : Census) (d : Doclet) :
    c.add filter d = draft filter (c.has d.longname) d >>= fun new =>
      pure (c.enter filter d new) := by
  simp only [add, draft, bind_assoc]
  refine bind_congr fun _ => bind_congr fun _ => ?_
  cases hr : isRejected filter d <;> cases hp : d.isPackage <;> cases hf : d.isFile <;>
    cases hh : c.has d.longname <;>
      simp [takesPart, isMute, enter, enterSymbol, acceptedPackages, hr, hp, hf]

lemma draft_eq_some {known : Bool} (h : (draft filter known d).result = .ok (some s)) :
    s.longname = d.longname ∧ s.doclets = [d] := by
  obtain ⟨_, _, h⟩ := Run.result_bind.mp h
  rw [Run.result_noteAll_bind] at h
  split at h
  · obtain ⟨base, hbase, h⟩ := Run.result_bind.mp h
    simp only [Run.result_pure, Option.some.injEq] at h
    subst h
    exact ⟨(Symbol.ofDoclet_keeps hbase).1, rfl⟩
  · simp at h

/-- Two censuses of the same symbols, those of one group in the same order. -/
structure Alike (packages : List String) (c c' : Census) : Prop where
  symbols : Rearranged (Symbol.group packages) c.symbols c'.symbols
  rejected : c.rejected.Perm c'.rejected
  packages : c.packages.Perm c'.packages
  documented : ∀ s ∈ c.symbols, s.doclets ≠ []

lemma Alike.left (h : Alike packages c c') : Alike packages c c :=
  ⟨.refl _ _, .refl _, .refl _, h.documented⟩

lemma Alike.trans {c'' : Census} (h : Alike packages c c') (h' : Alike packages c' c'') :
    Alike packages c c'' :=
  ⟨h.symbols.trans h'.symbols, h.rejected.trans h'.rejected, h.packages.trans h'.packages,
    h.documented⟩

lemma Alike.has (h : Alike packages c c') (longname : String) :
    c.has longname = c'.has longname := by
  rw [Bool.eq_iff_iff, has_iff, has_iff]
  exact (h.symbols.perm.map Symbol.longname).mem_iff

/-- A doclet that is queued does not change the group of a symbol. -/
lemma group_queued (hs : s.doclets ≠ []) :
    Symbol.group packages (if s.longname = d.longname then { s with doclets := s.doclets ++ [d] }
      else s) = Symbol.group packages s := by
  split
  · simp only [Symbol.group, Symbol.memberof?, Symbol.doclet?, head?_append_of_ne_nil _ hs]
  · rfl

lemma rearranged_enterSymbol {l l' : List Symbol} (h : Rearranged (Symbol.group packages) l l')
    (hdoc : ∀ s ∈ l, s.doclets ≠ []) (new : Option Symbol) :
    Rearranged (Symbol.group packages) (enterSymbol filter d new l)
      (enterSymbol filter d new l') := by
  unfold enterSymbol
  split
  · cases new with
    | none => exact h.map fun s hs => group_queued (hdoc s hs)
    | some s => exact h.append_right [s]
  · exact h

lemma documented_enterSymbol {l : List Symbol} (hdoc : ∀ s ∈ l, s.doclets ≠ [])
    (hnew : ∀ s, new = some s → s.doclets = [d]) :
    ∀ s ∈ enterSymbol filter d new l, s.doclets ≠ [] := by
  intro s hs
  unfold enterSymbol at hs
  split at hs
  · cases new with
    | none =>
      obtain ⟨t, ht, rfl⟩ := mem_map.mp hs
      split
      · simp
      · exact hdoc t ht
    | some t =>
      rcases mem_append.mp hs with hs | hs
      · exact hdoc s hs
      · rw [mem_singleton.mp hs, hnew t rfl]
        simp
  · exact hdoc s hs

/-- The same doclet entered into two censuses that are alike. -/
lemma Alike.enter (h : Alike packages c c') (hnew : ∀ s, new = some s → s.doclets = [d]) :
    Alike packages (c.enter filter d new) (c'.enter filter d new) where
  symbols := rearranged_enterSymbol h.symbols h.documented new
  rejected := h.rejected.append_right _
  packages := h.packages.append_right _
  documented := documented_enterSymbol h.documented hnew

lemma queue_comm (hne : a.longname ≠ b.longname) (l : List Symbol) :
    queue b (queue a l) = queue a (queue b l) := by
  simp only [queue, map_map]
  refine map_congr_left fun s _ => ?_
  simp only [Function.comp_apply]
  grind

lemma queue_append_singleton (hne : s.longname ≠ d.longname) (l : List Symbol) :
    queue d (l ++ [s]) = queue d l ++ [s] := by
  simp [queue, hne]

/-- Entering a doclet says nothing about other longnames. -/
lemma has_enter (hnew : ∀ s, new = some s → s.longname = a.longname)
    (hne : a.longname ≠ b.longname) : (c.enter filter a new).has b.longname = c.has b.longname := by
  rw [Bool.eq_iff_iff, has_iff, has_iff, enter]
  unfold enterSymbol
  split
  · cases new with
    | none => rw [longname_queue]
    | some s =>
      rw [map_append, mem_append, map_singleton, mem_singleton, hnew s rfl]
      exact or_iff_left (Ne.symm hne)
  · rfl

/-- Two doclets of different longnames and groups may be entered in either order. -/
lemma rearranged_enterSymbol_comm {l : List Symbol} {new' : Option Symbol}
    (hnew : ∀ s, new = some s → s.longname = a.longname ∧ s.doclets = [a])
    (hnew' : ∀ s, new' = some s → s.longname = b.longname ∧ s.doclets = [b])
    (hne : a.longname ≠ b.longname) (hgroup : a.group packages ≠ b.group packages) :
    Rearranged (Symbol.group packages)
      (enterSymbol filter b new' (enterSymbol filter a new l))
      (enterSymbol filter a new (enterSymbol filter b new' l)) := by
  unfold enterSymbol
  by_cases ha : takesPart filter a = true
  · by_cases hb : takesPart filter b = true
    · simp only [ha, hb, ↓reduceIte]
      cases new with
      | none =>
        cases new' with
        | none =>
          rw [queue_comm hne]
          exact .refl _ _
        | some t =>
          have ht := (hnew' t rfl).1
          rw [queue_append_singleton (ht ▸ Ne.symm hne)]
          exact .refl _ _
      | some s =>
        have hs := (hnew s rfl).1
        cases new' with
        | none =>
          rw [queue_append_singleton (hs ▸ hne)]
          exact .refl _ _
        | some t =>
          have hkey : Symbol.group packages s ≠ Symbol.group packages t := by
            simpa [Symbol.group, Symbol.memberof?, Symbol.doclet?, (hnew s rfl).2,
              (hnew' t rfl).2, Doclet.group] using hgroup
          simp only [append_assoc]
          exact (Rearranged.swap hkey []).append_left l
    · simp only [ha, hb, Bool.false_eq_true, ↓reduceIte]
      exact .refl _ _
  · simp only [ha, Bool.false_eq_true, ↓reduceIte]
    exact .refl _ _

lemma alike_enter_comm (h : Alike packages c c) {new' : Option Symbol}
    (hnew : ∀ s, new = some s → s.longname = a.longname ∧ s.doclets = [a])
    (hnew' : ∀ s, new' = some s → s.longname = b.longname ∧ s.doclets = [b])
    (hne : a.longname ≠ b.longname) (hgroup : a.group packages ≠ b.group packages) :
    Alike packages ((c.enter filter a new).enter filter b new')
      ((c.enter filter b new').enter filter a new) where
  symbols := rearranged_enterSymbol_comm hnew hnew' hne hgroup
  rejected := by
    simp only [enter, append_assoc]
    exact perm_append_comm.append_left _
  packages := by
    simp only [enter, append_assoc]
    exact perm_append_comm.append_left _
  documented := documented_enterSymbol
    (documented_enterSymbol h.documented fun s hs => (hnew s hs).2) fun s hs => (hnew' s hs).2

lemma agree_add (h : Alike packages c c') (d : Doclet) :
    (c.add filter d).Agree (Alike packages) (c'.add filter d) := by
  rw [add_eq, add_eq, h.has]
  refine Run.agree_bind_same fun new hnew => Run.agree_pure (h.enter ?_)
  rintro s rfl
  exact (draft_eq_some hnew).2

lemma agree_addAll : ∀ {doclets : List Doclet} {c c' : Census}, Alike packages c c' →
    (addAll filter c doclets).Agree (Alike packages) (addAll filter c' doclets) := by
  intro doclets
  induction doclets with
  | nil => intro c c' h; exact Run.agree_pure h
  | cons d rest ih => intro c c' h; exact (agree_add h d).bind fun _ _ _ _ hnext => ih hnext

lemma addAll_two (hne : a.longname ≠ b.longname) (c : Census) (rest : List Doclet) :
    addAll filter c (a :: b :: rest) = draft filter (c.has a.longname) a >>= fun new =>
        draft filter (c.has b.longname) b >>= fun new' =>
        addAll filter ((c.enter filter a new).enter filter b new') rest := by
  simp only [addAll, add_eq, bind_assoc, pure_bind]
  refine Run.bind_congr_ok fun new hnew => ?_
  rw [has_enter _ hne]
  rintro s rfl
  exact (draft_eq_some hnew).1

lemma agree_addAll_swap (h : Alike packages c c') (hne : a.longname ≠ b.longname)
    (hgroup : a.group packages ≠ b.group packages) (rest : List Doclet) :
    (addAll filter c (a :: b :: rest)).Agree (Alike packages)
      (addAll filter c' (b :: a :: rest)) := by
  rw [addAll_two hne, addAll_two hne.symm, ← h.has a.longname, ← h.has b.longname]
  refine Run.agree_comm _ _ fun new new' hnew hnew' => agree_addAll ?_
  have hmade : ∀ s, new = some s → s.longname = a.longname ∧ s.doclets = [a] := by
    rintro s rfl
    exact draft_eq_some hnew
  have hmade' : ∀ s, new' = some s → s.longname = b.longname ∧ s.doclets = [b] := by
    rintro s rfl
    exact draft_eq_some hnew'
  exact (alike_enter_comm h.left hmade hmade' hne hgroup).trans
    ((h.enter fun s hs => (hmade' s hs).2).enter fun s hs => (hmade s hs).2)

lemma agree_addAll_shuffled {l l' : List Doclet}
    (hl : Shuffled (fun a b => a.group packages ≠ b.group packages ∧
      a.longname ≠ b.longname) l l') :
    ∀ {c c' : Census}, Alike packages c c' →
      (addAll filter c l).Agree (Alike packages) (addAll filter c' l') := by
  induction hl with
  | refl l => exact agree_addAll
  | cons d _ ih => intro c c' h; exact (agree_add h d).bind fun _ _ _ _ hnext => ih hnext
  | swap hapart l => intro c c' h; exact agree_addAll_swap h hapart.2 hapart.1 l
  | trans _ _ ih ih' =>
    intro c c' h
    exact (ih h.left).trans (ih' h) fun _ _ _ => Alike.trans

/-- **The census of rearranged doclets has the same symbols, those of one group in the same
order.** -/
lemma agree_ofDoclets {l l' : List Doclet} (hgroup : Rearranged (Doclet.group packages) l l')
    (hlongname : Rearranged Doclet.longname l l') :
    (ofDoclets filter l).Agree (Alike packages) (ofDoclets filter l') :=
  agree_addAll_shuffled (shuffled_of_rearranged hgroup hlongname)
    ⟨.refl _ _, .refl _, .refl _, by simp [empty]⟩

/-- A doclet that is added has been read and is entered. -/
lemma exists_enter (h : (c.add filter d).result = .ok c') : ∃ new, c' = c.enter filter d new := by
  rw [add_eq] at h
  obtain ⟨new, _, h⟩ := Run.result_bind.mp h
  exact ⟨new, (Run.result_pure.mp h).symm⟩

/-- The packages of the census are those that the filter accepts. -/
lemma packages_ofDoclets {doclets : List Doclet} (h : (ofDoclets filter doclets).result = .ok c) :
    c.packages = acceptedPackages filter doclets := by
  refine ofDoclets_induct (P := fun doclets c => c.packages =
    acceptedPackages filter doclets) rfl ?_ h
  intro doclets d c c' _ hc h
  obtain ⟨new, rfl⟩ := exists_enter h
  simp [enter, hc, acceptedPackages]

end Census

end AmbientDecl

namespace AmbientDecl.Census

open List

variable {packages : List String} {c c' : Census}

/-- A census whose longnames differ finds the same symbols in any order. -/
lemma Alike.find? (h : Alike packages c c') (hnd : (c.symbols.map Symbol.longname).Nodup)
    (longname : String) : c'.find? longname = c.find? longname := by
  have hnd' : (c'.symbols.map Symbol.longname).Nodup :=
    (h.symbols.perm.map Symbol.longname).nodup_iff.mp hnd
  cases hfind : c.find? longname with
  | none =>
    rw [Census.find?, find?_eq_none] at hfind ⊢
    exact fun s hs => hfind s (h.symbols.perm.mem_iff.mpr hs)
  | some s =>
    have hs : s ∈ c'.symbols := h.symbols.perm.mem_iff.mp (mem_of_find?_eq_some hfind)
    have hlongname : s.longname = longname := by simpa using find?_some hfind
    exact find?_eq_some_of_nodup Symbol.longname hnd' hs hlongname

lemma loopFrom_congr (hfind : ∀ longname, c'.find? longname = c.find? longname) :
    ∀ (steps : Nat) (seen : List String) (next : Option String),
      c'.loopFrom steps seen next = c.loopFrom steps seen next := by
  intro steps
  induction steps with
  | zero => intro seen next; simp only [loopFrom]
  | succ steps ih =>
    intro seen next
    cases next with
    | none => simp only [loopFrom]
    | some longname => simp only [loopFrom, hfind, ih]

lemma Alike.loop? (h : Alike packages c c') (hnd : (c.symbols.map Symbol.longname).Nodup)
    (s : Symbol) : c'.loop? s = c.loop? s := by
  rw [Census.loop?, Census.loop?, h.symbols.perm.length_eq, loopFrom_congr (h.find? hnd)]

/-- The check ends the run exactly when the chain of a symbol closes. -/
lemma result_checkCycles :
    (∃ e, c.checkCycles.result = .error e) ∧ (∃ s ∈ c.symbols, c.loop? s ≠ none) ∨
    c.checkCycles = pure () ∧ ∀ s ∈ c.symbols, c.loop? s = none := by
  rw [checkCycles]
  cases hfind : c.symbols.findSome? fun s => (c.loop? s).map (cycleDiagnostic s) with
  | none =>
    refine Or.inr ⟨rfl, fun s hs => ?_⟩
    simpa using findSome?_eq_none_iff.mp hfind s hs
  | some d =>
    obtain ⟨s, hs, hd⟩ := exists_of_findSome?_eq_some hfind
    obtain ⟨longname, hloop, rfl⟩ := Option.map_eq_some_iff.mp hd
    exact Or.inl ⟨⟨_, rfl⟩, s, hs, by simp [hloop]⟩

/-- **The same chains close.** -/
lemma agree_checkCycles (h : Alike packages c c') (hnd : (c.symbols.map Symbol.longname).Nodup) :
    c.checkCycles.Agree (fun _ _ => True) c'.checkCycles := by
  rcases result_checkCycles (c := c) with ⟨⟨e, herror⟩, s, hs, hloop⟩ | ⟨hpure, hnone⟩
  · rcases result_checkCycles (c := c') with ⟨⟨e', herror'⟩, _⟩ | ⟨_, hnone'⟩
    · exact .failure herror herror'
    · rw [← h.loop? hnd] at hloop
      exact absurd (hnone' s (h.symbols.perm.mem_iff.mp hs)) hloop
  · rcases result_checkCycles (c := c') with ⟨_, s, hs, hloop⟩ | ⟨hpure', _⟩
    · rw [h.loop? hnd] at hloop
      exact absurd (hnone s (h.symbols.perm.mem_iff.mpr hs)) hloop
    · rw [hpure, hpure']
      exact Run.agree_pure trivial

lemma Alike.contains_leftOut (h : Alike packages c c') (longname : String) :
    c'.leftOut.contains longname = c.leftOut.contains longname := by
  rw [Bool.eq_iff_iff]
  simp only [contains_iff_mem, leftOut, mem_eraseDups, mem_filter, h.has, h.rejected.mem_iff]

lemma reachesLeftOut_congr (hfind : ∀ longname, c'.find? longname = c.find? longname)
    {leftOut leftOut' : List String}
    (hleft : ∀ longname, leftOut'.contains longname = leftOut.contains longname) :
    ∀ (steps : Nat) (memberof : Option String),
      c'.reachesLeftOut leftOut' steps memberof = c.reachesLeftOut leftOut steps memberof := by
  intro steps
  induction steps with
  | zero => intro memberof; simp only [reachesLeftOut]
  | succ steps ih => intro memberof; simp only [reachesLeftOut, hfind, hleft, ih]

/-- **The same symbols are left out with an ancestor.** -/
lemma Alike.isDropped (h : Alike packages c c') (hnd : (c.symbols.map Symbol.longname).Nodup)
    (s : Symbol) : c'.isDropped s = c.isDropped s := by
  rw [Census.isDropped, Census.isDropped, h.symbols.perm.length_eq,
    reachesLeftOut_congr (h.find? hnd) h.contains_leftOut]

end AmbientDecl.Census

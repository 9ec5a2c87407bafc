import Mathlib.Tactic.Common
import AmbientDecl.Longname

/-!
# Cutting longnames and putting them together

`Longname.split` leaves out empty segments, so not every longname comes back from its steps. But the
steps that it gives are well cut, and well-cut steps come back from their longname.

**Reading a segment.** `Longname.inside` reads characters that hold no mark outside quotes and tells
whether a quote is open at the end; `splitFrom_append` passes over such characters.

**Well-cut steps.** `Longname.WellCut` says that every segment has something in it and no mark
outside quotes, that all but the last close their quotes, and that all but the first have a mark.
`wellCut_split` and `split_join` are the two halves, and a beginning of well-cut steps is well cut,
so that the longname of every ancestor has the steps that one expects (`split_join_take`).

**Longnames that come back.** Marks are lost where no segment follows them. `Longname.Tight` says,
without reading segments, that this is nowhere the case (`text_splitFrom_iff`).
-/

namespace AmbientDecl.Longname

open TypeExpr List

variable {mark : Option Char} {steps : List Step}

/-- Reads characters without a mark outside quotes: whether a quote is open after them. -/
def inside (quoted : Bool) : List Char → Option Bool
  | [] => some quoted
  | c :: rest =>
    if c = '"' then inside (!quoted) rest
    else if !quoted && isPathMark c then none
    else inside quoted rest

lemma inside_append {cs ds : List Char} : ∀ {quoted : Bool},
    inside quoted (cs ++ ds) = (inside quoted cs).bind fun q => inside q ds := by
  induction cs with
  | nil => intro quoted; rfl
  | cons c rest ih =>
    intro quoted
    simp only [cons_append, inside]
    split
    · exact ih
    · split
      · rfl
      · exact ih

/-- Characters of one segment are collected. -/
lemma splitFrom_append {cs : List Char} (rest : List Char) :
    ∀ {current : List Char} {quoted after : Bool}, inside quoted cs = some after →
      splitFrom mark current quoted (cs ++ rest)
        = splitFrom mark (cs.reverse ++ current) after rest := by
  induction cs with
  | nil =>
    intro current quoted after h
    rw [inside, Option.some.injEq] at h
    rw [h]
    rfl
  | cons c cs ih =>
    intro current quoted after h
    rw [inside] at h
    rw [cons_append, splitFrom, reverse_cons, append_assoc]
    split at h
    · rename_i hc
      rw [if_pos hc, ih h]
      rfl
    · rename_i hc
      split at h
      · simp at h
      · rename_i hmark
        rw [if_neg hc, if_neg hmark, ih h]
        rfl

/-- A step whose segment is not empty and holds no mark outside quotes; `after` tells whether it
leaves a quote open. -/
structure Step.WellCut (step : Step) (after : Bool) : Prop where
  nonempty : step.segment.toList ≠ []
  inside : inside false step.segment.toList = some after
  mark : ∀ c ∈ step.mark, isPathMark c = true

/-- The steps after the first: each has a mark, and only the last may leave a quote open. -/
def WellCutTail : List Step → Prop
  | [] => True
  | step :: rest =>
    step.mark ≠ none ∧ (∃ after, step.WellCut after ∧ (rest ≠ [] → after = false)) ∧
      WellCutTail rest

/-- Steps that are well cut. -/
def WellCut : List Step → Prop
  | [] => True
  | step :: rest => (∃ after, step.WellCut after ∧ (rest ≠ [] → after = false)) ∧ WellCutTail rest

lemma WellCutTail.wellCut (h : WellCutTail steps) : WellCut steps := by
  cases steps with
  | nil => trivial
  | cons step rest => exact h.2

lemma WellCutTail.take (h : WellCutTail steps) (k : Nat) : WellCutTail (steps.take k) := by
  induction steps generalizing k with
  | nil => simpa using h
  | cons step rest ih =>
    cases k with
    | zero => trivial
    | succ k =>
      obtain ⟨hmark, ⟨after, hstep, hlast⟩, hrest⟩ := h
      refine ⟨hmark, ⟨after, hstep, ?_⟩, ih hrest k⟩
      intro hne
      exact hlast fun hnil => hne (by simp [hnil])

lemma WellCut.take (h : WellCut steps) (k : Nat) : WellCut (steps.take k) := by
  cases steps with
  | nil => simpa using h
  | cons step rest =>
    cases k with
    | zero => trivial
    | succ k =>
      obtain ⟨⟨after, hstep, hlast⟩, hrest⟩ := h
      refine ⟨⟨after, hstep, ?_⟩, hrest.take k⟩
      intro hne
      exact hlast fun hnil => hne (by simp [hnil])

lemma stepOf_of_ne_nil {current : List Char} (h : current ≠ []) :
    stepOf mark current = [⟨mark, String.ofList current.reverse⟩] := by
  rw [stepOf, if_neg (by simpa using h)]

/-- A segment that has been started ends up in a step. -/
lemma splitFrom_of_ne_nil (mark : Option Char) (cs : List Char) :
    ∀ (quoted : Bool) {current : List Char},
    current ≠ [] → ∃ more rest, splitFrom mark current quoted cs =
        ⟨mark, String.ofList (current.reverse ++ more)⟩ :: rest := by
  induction cs with
  | nil =>
    intro quoted current hne
    exact ⟨[], [], by rw [splitFrom, stepOf_of_ne_nil hne, append_nil]⟩
  | cons c cs ih =>
    intro quoted current hne
    have hcollect : ∀ quoted', ∃ more rest, splitFrom mark (c :: current) quoted' cs =
        ⟨mark, String.ofList (current.reverse ++ more)⟩ :: rest := by
      intro quoted'
      obtain ⟨more, rest, h⟩ := ih quoted' (cons_ne_nil c current)
      exact ⟨c :: more, rest, by simpa using h⟩
    rw [splitFrom]
    split
    · exact hcollect _
    · split
      · exact ⟨[], splitFrom (some c) [] false cs, by rw [stepOf_of_ne_nil hne, append_nil]; rfl⟩
      · exact hcollect _

lemma mem_stepOf {current : List Char} {step : Step} (h : step ∈ stepOf mark current) :
    step.segment.toList = current.reverse := by
  rw [stepOf] at h
  split at h
  · simp at h
  · rw [mem_singleton.mp h, String.toList_ofList]

lemma mem_segment {c : Char} {step : Step} (hc : c ∈ step.segment.toList) (cs : List Char) :
    ∀ {mark : Option Char} {current : List Char} {quoted : Bool},
      step ∈ splitFrom mark current quoted cs → c ∈ current ∨ c ∈ cs := by
  have hstarted : ∀ {mark current}, step ∈ stepOf mark current → c ∈ current := by
    intro mark current h
    rwa [mem_stepOf h, mem_reverse] at hc
  induction cs with
  | nil =>
    intro mark current quoted h
    exact .inl (hstarted h)
  | cons d cs ih =>
    intro mark current quoted h
    have hcollect : ∀ quoted', step ∈ splitFrom mark (d :: current) quoted' cs →
        c ∈ current ∨ c ∈ d :: cs := by
      intro quoted' h
      have hmem := ih h
      simp only [mem_cons] at hmem ⊢
      tauto
    rw [splitFrom] at h
    split at h
    · exact hcollect _ h
    · split at h
      · rcases mem_append.mp h with h | h
        · exact .inl (hstarted h)
        · have hmem := ih h
          simp only [mem_cons] at hmem ⊢
          tauto
      · exact hcollect _ h

/-- A segment that is being read, and the steps after it. -/
lemma wellCut_splitFrom : ∀ (cs : List Char) {mark : Option Char} {current : List Char}
    {quoted : Bool}, inside false current.reverse = some quoted →
      (∀ c ∈ mark, isPathMark c = true) → WellCut (splitFrom mark current quoted cs) ∧
          (mark ≠ none → WellCutTail (splitFrom mark current quoted cs)) := by
  intro cs
  induction cs with
  | nil =>
    intro mark current quoted hinside hmark
    rw [splitFrom]
    by_cases hnil : current = []
    · subst hnil
      exact ⟨trivial, fun _ => trivial⟩
    · rw [stepOf_of_ne_nil hnil]
      have hstep : Step.WellCut ⟨mark, String.ofList current.reverse⟩ quoted :=
        ⟨by simpa using hnil, by simpa using hinside, hmark⟩
      exact ⟨⟨⟨quoted, hstep, by simp⟩, trivial⟩,
        fun hne => ⟨hne, ⟨quoted, hstep, by simp⟩, trivial⟩⟩
  | cons c rest ih =>
    intro mark current quoted hinside hmark
    have hnext : inside false (c :: current).reverse = inside quoted [c] := by
      rw [reverse_cons, inside_append, hinside]
      rfl
    rw [splitFrom]
    split
    · rename_i hc
      refine ih ?_ hmark
      rw [hnext, inside, if_pos hc]
      rfl
    · rename_i hc
      split
      · rename_i hcut
        -- a mark outside quotes ends the segment, which has closed its quotes
        have hq : quoted = false := by
          cases quoted with
          | false => rfl
          | true => simp at hcut
        have hpath : isPathMark c = true := by simpa [hq] using hcut
        subst hq
        have htail : WellCutTail (splitFrom (some c) [] false rest) :=
          (ih rfl (by simpa using hpath)).2 (by simp)
        by_cases hnil : current = []
        · subst hnil
          exact ⟨htail.wellCut, fun _ => htail⟩
        · rw [stepOf_of_ne_nil hnil]
          have hstep : Step.WellCut ⟨mark, String.ofList current.reverse⟩ false :=
            ⟨by simpa using hnil, by simpa using hinside, hmark⟩
          exact ⟨⟨⟨false, hstep, fun _ => rfl⟩, htail⟩,
            fun hne => ⟨hne, ⟨false, hstep, fun _ => rfl⟩, htail⟩⟩
      · rename_i hcut
        refine ih ?_ hmark
        rw [hnext, inside, if_neg hc, if_neg hcut]
        rfl

lemma wellCut_split (longname : String) : WellCut (split longname) :=
  (wellCut_splitFrom longname.toList rfl (by simp)).1

lemma toList_join (steps : List Step) :
    (join steps).toList = steps.flatMap fun step => step.text.toList := by
  rw [join, Text.joined]
  induction steps with
  | nil => rfl
  | cons step rest ih =>
    cases rest with
    | nil => simp
    | cons next rest =>
      rw [map_cons, map_cons, String.intercalate_cons_cons, String.append_empty,
        String.toList_append, ← map_cons, ih]
      rfl

/-- A segment is read up to the next mark; `hrest` is for the steps that come then. -/
lemma splitFrom_segment {segment : String} {after : Bool}
    (hstep : Step.WellCut ⟨mark, segment⟩ after) {rest : List Step}
    (hlast : rest ≠ [] → after = false)
    (hrest : ∀ current, splitFrom mark current false (rest.flatMap fun step => step.text.toList)
      = stepOf mark current ++ rest) :
    splitFrom mark [] false (segment.toList ++ rest.flatMap fun step => step.text.toList)
      = ⟨mark, segment⟩ :: rest := by
  have hsegment : stepOf mark segment.toList.reverse = [⟨mark, segment⟩] := by
    rw [stepOf_of_ne_nil (by simpa using hstep.nonempty)]
    simp
  rw [splitFrom_append _ hstep.inside, append_nil]
  by_cases hnil : rest = []
  · rw [hnil, flatMap_nil, splitFrom, hsegment]
  · rw [hlast hnil, hrest, hsegment]
    rfl

/-- Steps with marks end the segment that is being read. -/
lemma splitFrom_join (h : WellCutTail steps) : ∀ (mark : Option Char) (current : List Char),
      splitFrom mark current false (steps.flatMap fun step => step.text.toList)
        = stepOf mark current ++ steps := by
  induction steps with
  | nil =>
    intro mark current
    rw [flatMap_nil, splitFrom, append_nil]
  | cons step rest ih =>
    intro mark current
    obtain ⟨hne, ⟨after, hstep, hlast⟩, hrest⟩ := h
    obtain ⟨_ | c, segment⟩ := step
    · exact absurd rfl hne
    · have hmark : isPathMark c = true := hstep.mark c rfl
      have hquote : c ≠ '"' := by
        rintro rfl
        exact absurd hmark (by decide)
      have htext : (Step.text ⟨some c, segment⟩).toList = c :: segment.toList := by
        simp [Step.text]
      rw [flatMap_cons, htext, cons_append, splitFrom, if_neg hquote,
        if_pos (by simpa using hmark), splitFrom_segment hstep hlast (ih hrest _)]

lemma split_join (h : WellCut steps) : split (join steps) = steps := by
  rw [split, toList_join]
  cases steps with
  | nil => rfl
  | cons step rest =>
    obtain ⟨⟨after, hstep, hlast⟩, hrest⟩ := h
    obtain ⟨_ | c, segment⟩ := step
    · exact splitFrom_segment hstep hlast (splitFrom_join hrest none)
    · have htail : WellCutTail (⟨some c, segment⟩ :: rest) :=
        ⟨by simp, ⟨after, hstep, hlast⟩, hrest⟩
      exact splitFrom_join htail none []

/-- The ancestors of a longname have the steps that lead to them. -/
lemma split_join_take (longname : String) (k : Nat) :
    split (join ((split longname).take k)) = (split longname).take k :=
  split_join ((wellCut_split longname).take k)

/-- A mark outside quotes stands at a position; `quoted` tells whether a quote is open at the
start. -/
def CutAt (quoted : Bool) (cs : List Char) (i : Nat) : Prop :=
  (∃ c, cs[i]? = some c ∧ isPathMark c = true) ∧ (quoted.toNat + (cs.take i).count '"') % 2 = 0

/-- Behind every mark outside quotes stands something that is no such mark. -/
def Tight (quoted : Bool) (cs : List Char) : Prop :=
  ∀ i, CutAt quoted cs i → i + 1 < cs.length ∧ ¬ CutAt quoted cs (i + 1)

/-- Whether a quote is open behind a character. -/
def quotedAfter (quoted : Bool) (c : Char) : Bool := if c = '"' then !quoted else quoted

section Tight

variable {quoted : Bool} {c : Char} {cs : List Char}

lemma cutAt_zero : CutAt quoted (c :: cs) 0 ↔ (!quoted && isPathMark c) = true := by
  cases quoted <;> simp [CutAt]

lemma cutAt_succ {i : Nat} : CutAt quoted (c :: cs) (i + 1) ↔
    CutAt (quotedAfter quoted c) cs i := by
  have hparity : (quoted.toNat + ((c :: cs).take (i + 1)).count '"') % 2 =
      ((quotedAfter quoted c).toNat + (cs.take i).count '"') % 2 := by
    rw [take_succ_cons, count_cons, quotedAfter]
    by_cases hc : c = '"' <;> cases quoted <;> simp [hc] <;> omega
  rw [CutAt, CutAt, hparity, getElem?_cons_succ]

lemma tight_cons : Tight quoted (c :: cs) ↔
    (CutAt quoted (c :: cs) 0 → cs ≠ [] ∧ ¬ CutAt (quotedAfter quoted c) cs 0) ∧
      Tight (quotedAfter quoted c) cs := by
  have hlength : cs ≠ [] ↔ 0 + 1 < (c :: cs).length := by simp [length_pos_iff]
  rw [Tight, ← Nat.and_forall_add_one, hlength, cutAt_succ (i := 0)]
  simp only [cutAt_succ, length_cons, Nat.add_lt_add_iff_right]
  rfl

end Tight

lemma text_stepOf {current : List Char} (h : current ≠ []) :
    (stepOf mark current).flatMap (fun step => step.text.toList) =
      mark.toList ++ current.reverse := by
  rw [stepOf_of_ne_nil h]
  cases mark <;> simp [Step.text]

/-- What is put together again is no longer than the text. -/
lemma length_splitFrom_le (mark : Option Char) (current : List Char) (quoted : Bool)
    (cs : List Char) :
    ((splitFrom mark current quoted cs).flatMap fun step => step.text.toList).length ≤
      mark.toList.length + current.length + cs.length := by
  have hstep : ∀ (mark : Option Char) current, ((stepOf mark current).flatMap
      fun step => step.text.toList).length ≤ mark.toList.length + current.length := by
    intro mark current
    by_cases hnil : current = []
    · simp [stepOf, hnil]
    · simp [text_stepOf hnil]
  fun_induction splitFrom mark current quoted cs with
  | case1 => exact hstep _ _
  | case2 _ _ _ _ ih => simpa [Nat.add_assoc, Nat.add_comm 1] using ih
  | case3 mark current quoted c rest _ _ ih =>
    have := hstep mark current
    simp only [flatMap_append, length_append, length_cons, Option.toList_some, length_nil] at ih ⊢
    omega
  | case4 _ _ _ _ _ _ _ ih => simpa [Nat.add_assoc, Nat.add_comm 1] using ih

/-- Where a mark has just been read, something has to follow that is no mark. -/
lemma text_splitFrom_iff (mark : Option Char) (current : List Char) (quoted : Bool)
    (cs : List Char) :
    (splitFrom mark current quoted cs).flatMap (fun step => step.text.toList) =
        mark.toList ++ (current.reverse ++ cs) ↔
      (mark ≠ none → current = [] → cs ≠ [] ∧ ¬ CutAt quoted cs 0) ∧ Tight quoted cs := by
  fun_induction splitFrom mark current quoted cs with
  | case1 mark current quoted =>
    have htight : Tight quoted [] := by simp [Tight, CutAt]
    by_cases hnil : current = []
    · cases mark <;> simp [stepOf, hnil, htight]
    · simp [text_stepOf hnil, hnil, htight]
  | case2 mark current quoted rest ih =>
    have hcut : ¬ CutAt quoted ('"' :: rest) 0 := by
      rw [cutAt_zero, show isPathMark '"' = false from rfl]
      simp
    simpa [tight_cons, hcut, quotedAfter] using ih
  | case3 mark current quoted c rest hquote hcut ih =>
    have hopen : quotedAfter quoted c = false := by
      rw [quotedAfter, if_neg hquote]
      simpa using (Bool.and_eq_true_iff.mp hcut).1
    simp only [ne_eq, reduceCtorEq, not_false_eq_true, true_imp_iff, Option.toList_some,
      reverse_nil, nil_append, singleton_append] at ih
    simp only [tight_cons, hopen, cutAt_zero, hcut, flatMap_append, not_true_eq_false, and_false,
      imp_false, true_imp_iff, ne_eq, ← ih]
    by_cases hnil : current = []
    · cases mark with
      | none => simp [stepOf, hnil]
      | some m =>
        -- the mark before has no segment, so it is lost
        have hle := length_splitFrom_le (some c) [] false rest
        have hne : (splitFrom (some c) [] false rest).flatMap (fun step => step.text.toList) ≠
            m :: c :: rest := by
          intro h
          rw [h] at hle
          simp only [Option.toList_some, length_cons, length_nil] at hle
          omega
        simpa [stepOf, hnil] using hne
    · simp [text_stepOf hnil, hnil]
  | case4 mark current quoted c rest hquote hcut ih =>
    have hnone : ¬ CutAt quoted (c :: rest) 0 := by rwa [cutAt_zero]
    simpa [tight_cons, hnone, quotedAfter, hquote] using ih

/-- The ancestors of a longname are its parent and the ancestors of that. -/
lemma parents_cons {longname : String} (h : parents longname ≠ []) :
    ∃ parent, parents longname = parent :: parents parent := by
  cases hsize : (split longname).length - 1 with
  | zero => simp [parents, hsize] at h
  | succ k =>
    refine ⟨join ((split longname).take (k + 1)), ?_⟩
    have hlength : ((split longname).take (k + 1)).length - 1 = k := by
      rw [length_take]
      omega
    rw [parents, parents, split_join_take, hlength, hsize, range_succ, map_append, reverse_append]
    refine congrArg (List.cons _ ∘ reverse) (map_congr_left fun i hi => ?_)
    rw [take_take, Nat.min_eq_left (by simpa using Nat.le_of_lt (mem_range.mp hi))]

/-- **Cutting and putting together.** Every beginning of the steps of a longname comes back from its
own longname, so that ancestors are those of the parent and the parent itself. The longname comes
back from its steps exactly if behind every mark outside quotes stands something that is no such
mark. -/
theorem join_split_eq_iff (longname : String) :
    (∀ steps, steps <+: split longname → split (join steps) = steps) ∧
    (parents longname ≠ [] → ∃ parent, parents longname = parent :: parents parent) ∧
    (join (split longname) = longname ↔ Tight false longname.toList) := by
  refine ⟨?_, parents_cons, ?_⟩
  · intro steps h
    rw [prefix_iff_eq_take.mp h]
    exact split_join_take longname steps.length
  · have htext := text_splitFrom_iff none [] false longname.toList
    rw [← String.toList_inj, toList_join, split]
    simpa using htext

/-- A module whose path holds a mark, and a member behind two marks. -/
def doubledMark : String := "module:\"a.b\"~C..d"

theorem join_split_doubledMark :
    [⟨none, "module:\"a.b\""⟩] <+: split doubledMark ∧
    split (join [⟨none, "module:\"a.b\""⟩]) = [⟨none, "module:\"a.b\""⟩] ∧
    parents doubledMark ≠ [] ∧ (∃ parent, parents doubledMark = parent :: parents parent) ∧
    ¬ Tight false doubledMark.toList := by
  obtain ⟨hback, hparents, htight⟩ := join_split_eq_iff doubledMark
  have hfront : [⟨none, "module:\"a.b\""⟩] <+: split doubledMark := by decide +kernel
  have hancestors : parents doubledMark ≠ [] := by decide +kernel
  exact ⟨hfront, hback _ hfront, hancestors, hparents hancestors, mt htight.mpr (by decide +kernel)⟩

end AmbientDecl.Longname

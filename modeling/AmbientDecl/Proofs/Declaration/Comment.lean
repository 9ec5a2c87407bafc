import AmbientDecl.Declaration.Document
import Mathlib.Data.List.DropRight
import Mathlib.Data.List.Infix

/-!
# Text does not get out of its comment

A comment of the output ends at the first mark that ends comments. What is said in it is taken from
the documentation and can hold anything.

**Marks.** `EndsComment` says that a text holds the mark. Two texts make one only if the first ends
in a star and the second starts with a slash (`endsComment_append`), so each line can be looked at
alone, and escaping a line leaves no mark in it (`not_endsComment_escape`).

**Comments.** Remarks that say anything are laid out as lines that open one comment, and the only
mark that ends it is the one at their end (`comment_closedOnce`).
-/

namespace AmbientDecl

open Text List

/-- The mark that ends a comment stands somewhere in the text. -/
def EndsComment (cs : List Char) : Prop := ['*', '/'] <:+: cs

instance (cs : List Char) : Decidable (EndsComment cs) := inferInstanceAs (Decidable (_ <:+: _))

section Marks

variable {cs ds : List Char}

lemma endsComment_cons (c : Char) (cs : List Char) :
    EndsComment (c :: cs) ↔ (c = '*' ∧ cs.head? = some '/') ∨ EndsComment cs := by
  rw [EndsComment, infix_cons_iff, cons_prefix_cons]
  refine or_congr (and_congr eq_comm ?_) Iff.rfl
  cases cs with
  | nil => simp
  | cons d ds => simp [eq_comm]

/-- **A mark in two texts stands in one of them, or they meet in it.** -/
lemma endsComment_append : EndsComment (cs ++ ds) ↔
    EndsComment cs ∨ EndsComment ds ∨ (cs.getLast? = some '*' ∧ ds.head? = some '/') := by
  induction cs with
  | nil => simp [EndsComment]
  | cons c cs ih =>
    rw [cons_append, endsComment_cons, endsComment_cons, ih]
    cases cs with
    | nil => simp [EndsComment]; tauto
    | cons d rest => simp; tauto

lemma not_endsComment_trimRight (h : ¬ EndsComment cs) : ¬ EndsComment (trimRight cs) := by
  have hprefix : trimRight cs <+: cs := List.rdropWhile_prefix isBlank cs
  exact fun hmark => h (hmark.trans hprefix.isInfix)

/-- **Escaping leaves no mark**, and the first character as it is. -/
lemma not_endsComment_escape (cs : List Char) :
    ¬ EndsComment (escapeCommentEnd cs) ∧ (escapeCommentEnd cs).head? = cs.head? := by
  fun_induction escapeCommentEnd cs with
  | case1 rest ih =>
    refine ⟨?_, rfl⟩
    simp [endsComment_cons, ih.1]
  | case2 c rest hpair ih =>
    refine ⟨?_, rfl⟩
    rw [endsComment_cons, ih.2]
    rintro (⟨rfl, hslash⟩ | hmark)
    · obtain ⟨after, rfl⟩ := head?_eq_some_iff.mp hslash
      exact hpair after rfl rfl
    · exact ih.1 hmark
  | case3 => simp [EndsComment]

/-- A text whose only mark stands at its end. -/
lemma eq_of_endsOnce (h : ¬ EndsComment (cs ++ ['*'])) {before after : List Char}
    (heq : cs ++ ['*', '/'] = before ++ ['*', '/'] ++ after) : before = cs ∧ after = [] := by
  rcases eq_nil_or_concat after with rfl | ⟨after, last, rfl⟩
  · rw [append_nil] at heq
    exact ⟨(append_cancel_right heq).symm, rfl⟩
  · -- What stands before the last character has no mark.
    have hall : (cs ++ ['*']) ++ ['/'] = (before ++ ['*', '/'] ++ after) ++ [last] := by
      simpa using heq
    have hfront := append_inj_left' hall rfl
    exact absurd ⟨before, after, hfront.symm⟩ h

end Marks

section Lines

variable {unit : String} {depth : Nat}

lemma blank_indentation (hunit : ∀ c ∈ unit.toList, isBlank c = true) :
    ∀ c ∈ (indentation unit depth).toList, isBlank c = true := by
  induction depth with
  | zero => simp [indentation, joined]
  | succ depth ih =>
    have hsucc : indentation unit (depth + 1) = unit ++ indentation unit depth := by
      cases depth <;>
        simp [indentation, joined, replicate_succ, String.intercalate_cons_cons]
    rw [hsucc, String.toList_append, forall_mem_append]
    exact ⟨hunit, ih⟩

/-- White space in front of a line makes no mark. -/
lemma not_endsComment_line (hunit : ∀ c ∈ unit.toList, isBlank c = true) {text : String}
    (htext : ¬ EndsComment text.toList) :
    ¬ EndsComment (indentation unit depth ++ text).toList := by
  have hstar : '*' ∉ (indentation unit depth).toList := fun hmem =>
    absurd (blank_indentation hunit '*' hmem) (by decide)
  rw [String.toList_append, endsComment_append]
  rintro (hmark | hmark | ⟨hlast, _⟩)
  · exact hstar (hmark.subset mem_cons_self)
  · exact htext hmark
  · exact hstar (mem_of_getLast? hlast)

/-- A line of a comment holds no mark if what it says holds none. -/
lemma not_endsComment_commentLine {text : String} (h : ¬ EndsComment text.toList) :
    ¬ EndsComment (commentLine text).toList := by
  have hline : (commentLine text).toList = trimRight (' ' :: '*' :: ' ' :: text.toList) := by
    simp [commentLine, strippedRight]
  rw [hline]
  refine not_endsComment_trimRight ?_
  simpa [endsComment_cons] using h

/-- Lines without a mark make none when they are joined. -/
lemma not_endsComment_joined {lines : List String} (h : ∀ line ∈ lines, ¬ EndsComment line.toList) :
    ¬ EndsComment (joined "\n" lines).toList := by
  induction lines with
  | nil => simp [joined, EndsComment]
  | cons line rest ih =>
    rw [forall_mem_cons] at h
    cases rest with
    | nil => simpa [joined] using h.1
    | cons next rest =>
      have hfeed : "\n".toList = ['\n'] := rfl
      rw [joined, String.intercalate_cons_cons, String.append_assoc, String.toList_append,
        String.toList_append, hfeed, singleton_append, endsComment_append, endsComment_cons]
      rintro (hmark | (⟨hstar, _⟩ | hmark) | ⟨_, hslash⟩)
      · exact h.1 hmark
      · exact absurd hstar (by decide)
      · exact ih h.2 hmark
      · exact absurd hslash (by simp)

end Lines

/-- There is something to say: a description that is not blank, a parameter, a text about what is
returned, a deprecation or a version. -/
def Remarks.Says (r : Remarks) : Prop :=
  (∃ text ∈ r.description, ∃ c ∈ text.toList, isBlank c = false) ∨ r.params ≠ [] ∨
    (∃ text ∈ r.returns, text ≠ "") ∨ r.deprecated ≠ none ∨ ∃ text ∈ r.since, text ≠ ""

section Comments

variable {unit : String} {depth : Nat} {r : Remarks}

lemma linesFrom_eq_nil {current cs : List Char} : linesFrom current cs = [] ↔
    current = [] ∧ cs = [] := by
  fun_induction linesFrom current cs <;> simp_all

lemma trim_eq_nil {cs : List Char} : trim cs = [] ↔ ∀ c ∈ cs, isBlank c = true := by
  have hright : trim cs = [] ↔ ∀ c ∈ trimLeft cs, isBlank c = true := rdropWhile_eq_nil_iff
  rw [hright]
  constructor
  · intro h c hc
    rw [← takeWhile_append_dropWhile (p := isBlank) (l := cs), mem_append] at hc
    rcases hc with hc | hc
    · exact mem_takeWhile_imp hc
    · exact h c hc
  · exact fun h c hc => h c ((dropWhile_suffix _).subset hc)

lemma descriptionLines_eq_nil {description : Option String} : descriptionLines description = [] ↔
    ¬ ∃ text ∈ description, ∃ c ∈ text.toList, isBlank c = false := by
  rw [descriptionLines, map_eq_nil_iff, lines, linesFrom_eq_nil, trim_eq_nil]
  cases description <;> simp

lemma nonempty?_eq_none {text : Option String} : nonempty? text = none ↔ ¬ ∃ t ∈ text, t ≠ "" := by
  cases text <;> simp [nonempty?]

lemma body_eq_nil : r.body = [] ↔ ¬ r.Says := by
  simp only [Remarks.body, Remarks.Says, append_eq_nil_iff, map_eq_nil_iff,
    Option.toList_eq_nil_iff, descriptionLines_eq_nil, nonempty?_eq_none, not_or,
      not_not, and_assoc]

/-- The comment of remarks but for its last line. -/
def Remarks.opened (unit : String) (depth : Nat) (r : Remarks) : List String :=
  (indentation unit depth ++ "/**") :: r.body.map fun text =>
    indentation unit depth ++ commentLine (String.ofList (escapeCommentEnd text.toList))

lemma allLines_docs (wanted : Bool) : Doc.allLines unit depth (r.docs wanted) =
    if wanted = true ∧ r.body ≠ [] then r.opened unit depth ++ [indentation unit depth ++ " */"]
      else [] := by
  unfold Remarks.docs
  by_cases h : wanted = true ∧ r.body ≠ []
  · rw [if_pos h, if_pos (by simpa using h)]
    simp [Doc.allLines, Doc.lines, Remarks.opened, Function.comp_def]
  · rw [if_neg h, if_neg (by simpa using h)]
    rfl

lemma not_endsComment_opened (hunit : ∀ c ∈ unit.toList, isBlank c = true) :
    ∀ line ∈ r.opened unit depth, ¬ EndsComment line.toList := by
  rw [Remarks.opened, forall_mem_cons]
  constructor
  · exact not_endsComment_line hunit (by decide)
  · rw [forall_mem_map]
    intro text _
    refine not_endsComment_line hunit (not_endsComment_commentLine ?_)
    rw [String.toList_ofList]
    exact (not_endsComment_escape text.toList).1

/-- **No text gets out of its comment.** There is a comment exactly if comments are wanted and there
is something to say. Its lines start with the mark that opens it, and the mark that ends it stands
at their end and nowhere else. -/
theorem comment_closedOnce (r : Remarks) (wanted : Bool) (depth : Nat) {unit : String}
    (hunit : ∀ c ∈ unit.toList, isBlank c = true) :
    let lines := Doc.allLines unit depth (r.docs wanted)
    let text := (joined "\n" lines).toList
    (lines ≠ [] ↔ wanted = true ∧ r.Says) ∧
      (lines ≠ [] → (indentation unit depth ++ "/**").toList <+: text ∧
        ∃ front, text = front ++ ['*', '/'] ∧
          ∀ before after, text = before ++ ['*', '/'] ++ after → before = front ∧ after = []) := by
  intro lines text
  have hlines : lines = _ := allLines_docs wanted
  have hsays : r.body ≠ [] ↔ r.Says := by rw [ne_eq, body_eq_nil, not_not]
  have hne : lines ≠ [] ↔ wanted = true ∧ r.body ≠ [] := by
    rw [hlines]
    simp
  refine ⟨by rw [hne, hsays], fun hsome => ?_⟩
  rw [if_pos (hne.mp hsome)] at hlines
  have hopened : r.opened unit depth ≠ [] := by simp [Remarks.opened]
  -- all but the last character, which are lines as well
  have hfront : ¬ EndsComment
      (joined "\n" (r.opened unit depth ++ [indentation unit depth ++ " *"])).toList := by
    refine not_endsComment_joined ?_
    rw [forall_mem_append, forall_mem_singleton]
    exact ⟨not_endsComment_opened hunit, not_endsComment_line hunit (by decide)⟩
  have htext : text = (joined "\n" (r.opened unit depth) ++ "\n" ++
    indentation unit depth ++ " ").toList ++ ['*', '/'] := by
    simp only [text, hlines, joined]
    rw [String.intercalate_append_of_ne_nil hopened (by simp)]
    simp
  refine ⟨?_, _, htext, fun before after heq => eq_of_endsOnce ?_ (htext.symm.trans heq)⟩
  · simp only [text, hlines, Remarks.opened, cons_append, joined]
    rw [String.intercalate_cons_of_ne_nil (by simp), String.append_assoc]
    exact ⟨_, String.toList_append.symm⟩
  · rw [joined, String.intercalate_append_of_ne_nil hopened (by simp)] at hfront
    simpa [joined] using hfront

/-- Remarks full of marks: whole ones, one across two lines, and what is left of one at both ends of
a text. -/
def hostileRemarks : Remarks :=
  ⟨some " **// *\n/ */", [("*/", "/*"), ("x", "*\n/")], some "/", some "*", some "*/ */"⟩

theorem comment_closedOnce_hostileRemarks :
    let lines := Doc.allLines " \t" 2 (hostileRemarks.docs true)
    let text := (joined "\n" lines).toList
    lines.length = 9 ∧ (" \t \t/**").toList <+: text ∧ ∃ front, text = front ++ ['*', '/'] ∧
      ∀ before after, text = before ++ ['*', '/'] ++ after → before = front ∧ after = [] := by
  intro lines text
  have hrun : lines.length = 9 := by decide +kernel
  have hunit : " \t".toList.all isBlank = true := by decide
  obtain ⟨_, hclosed⟩ := comment_closedOnce hostileRemarks true 2 (all_eq_true.mp hunit)
  have hsome : lines ≠ [] := fun hnone => by simp [hnone] at hrun
  exact ⟨hrun, hclosed hsome⟩

end Comments

end AmbientDecl

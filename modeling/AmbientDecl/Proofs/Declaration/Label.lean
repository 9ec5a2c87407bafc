import AmbientDecl.Proofs.Text.Literal
import AmbientDecl.Proofs.TypeExpr.Lexeme

/-!
# Names of fields in a text

The name of a field is found again in the text of a record, whatever it is (`label_append_inj`).

**Literals.** A text is found again in its string literal, since a reader can take it back. The
literal ends where the reader of string tokens says that it ends (`string?_stringLiteral`).

**Labels.** A name that is an identifier is written as it is. Only a question mark or a colon can
stand behind it, and it has neither.

**Legal text.** Labels and the names that declarations start from are legal or literals, unless a
name is an identifier with a line feed behind it, which counts as an identifier and is kept.
-/

namespace AmbientDecl

open Text TypeExpr List

variable {a b name : String}

variable {c : Char} {cs r r' : List Char}

/-- What stands between quotes as it is. -/
lemma stringTail?_ordinary {word : List Char} (hword : ∀ c ∈ word, c ≠ '"' ∧ c ≠ '\\')
    (r : List Char) :
    stringTail? '"' (word ++ r) = (stringTail? '"' r).map fun cut => (word ++ cut.1, cut.2) := by
  induction word with
  | nil => simp
  | cons c word ih =>
    obtain ⟨⟨hquote, hescape⟩, hword⟩ := forall_mem_cons.mp hword
    rw [cons_append, stringTail?.eq_def]
    simp only [hquote, hescape, if_false, ih hword, Option.map_map]
    rfl

lemma stringTail?_escape {letter : Char} (hletter : letter ≠ '\n') (r : List Char) :
    stringTail? '"' ('\\' :: letter :: r) =
      (stringTail? '"' r).map fun cut => ('\\' :: letter :: cut.1, cut.2) := by
  rw [stringTail?.eq_def]
  simp [hletter]

lemma mem_hexadecimal {width n : Nat} (h : c ∈ hexadecimal width n) : c ≠ '"' ∧ c ≠ '\\' := by
  have hall : ∀ a : Fin 16, Nat.digitChar a ≠ '"' ∧ Nat.digitChar a ≠ '\\' := by decide
  induction width generalizing n with
  | zero => simp [hexadecimal] at h
  | succ width ih =>
    rw [hexadecimal, mem_append, mem_singleton] at h
    rcases h with h | rfl
    · exact ih h
    · exact hall ⟨n % 16, Nat.mod_lt _ (by decide)⟩

lemma stringTail?_unitEscape (n : Nat) (r : List Char) : stringTail? '"' (unitEscape n ++ r) =
    (stringTail? '"' r).map fun cut => (unitEscape n ++ cut.1, cut.2) := by
  simp only [unitEscape, cons_append, stringTail?_escape (by decide : 'u' ≠ '\n'),
    stringTail?_ordinary (fun c hc => mem_hexadecimal hc), Option.map_map]
  rfl

lemma stringTail?_literalChar (c : Char) (r : List Char) : stringTail? '"' (literalChar c ++ r) =
    (stringTail? '"' r).map fun cut => (literalChar c ++ cut.1, cut.2) := by
  rcases literalChar_cases c with ⟨hc, hquote, hescape, _⟩ | ⟨letter, hshort, hc⟩ | hc
  · rw [hc]
    exact stringTail?_ordinary (by simp [hquote, hescape]) r
  · rw [hc]
    exact stringTail?_escape (shortEscape_spec hshort).2.1 r
  · rw [hc, unitsEscape]
    split
    · exact stringTail?_unitEscape _ r
    · simp only [append_assoc, stringTail?_unitEscape, Option.map_map]
      rfl

lemma stringTail?_literalChars (cs : List Char) :
    stringTail? '"' (cs.flatMap literalChar ++ ['"']) =
      some (cs.flatMap literalChar ++ ['"'], []) := by
  induction cs with
  | nil => rfl
  | cons c cs ih =>
    rw [flatMap_cons, append_assoc, stringTail?_literalChar, ih]
    simp

/-- **A string literal is one string token.** -/
lemma string?_stringLiteral (text : String) :
    string? (stringLiteral text).toList = some ((stringLiteral text).toList, []) := by
  rw [stringLiteral, String.toList_ofList, cons_append, string?, if_pos (Or.inl rfl),
    stringTail?_literalChars]
  rfl

lemma stringLiteral_append_inj
    (h : (stringLiteral a).toList ++ r = (stringLiteral b).toList ++ r') : a = b ∧ r = r' := by
  obtain ⟨hsame, hrest⟩ := string?_append_inj (string?_stringLiteral a) (string?_stringLiteral b) h
  simp only [stringLiteral, String.toList_ofList, cons_append, List.cons.injEq, true_and,
    append_cancel_right_eq] at hsame
  exact ⟨String.toList_injective (literalChars_inj hsame), hrest⟩

/-- The characters that end a label are a question mark and a colon. -/
def isLabelChar (c : Char) : Bool := c != '?' && c != ':'

lemma isLabelChar_of_nameChar (h : NameChar c) : isLabelChar c = true := by
  have hquestion : ¬ NameChar '?' := by decide
  have hcolon : ¬ NameChar ':' := by decide
  simp only [isLabelChar, Bool.and_eq_true, bne_iff_ne]
  constructor
  · rintro rfl
    exact hquestion h
  · rintro rfl
    exact hcolon h

/-- A literal starts with a quote, and an identifier does not. -/
lemma identifier_append_ne_stringLiteral (h : isIdentifier a = true) :
    a.toList ++ r ≠ (stringLiteral b).toList ++ r' := by
  intro heq
  have hname := nameChar_of_isIdentifier h
  cases ha : a.toList with
  | nil => simp [isIdentifier, ha, isIdentifierChars] at h
  | cons c cs =>
    have hquote : ¬ NameChar '"' := by decide
    rw [ha, stringLiteral, String.toList_ofList] at heq
    obtain rfl : c = '"' := (List.cons.inj heq).1
    exact hquote (hname _ (by simp [ha]))

/-- **A label is found again in front of a question mark or a colon.** -/
lemma label_append_inj (hr : Stops isLabelChar r) (hr' : Stops isLabelChar r')
    (h : (label a).toList ++ r = (label b).toList ++ r') : a = b ∧ r = r' := by
  unfold label at h
  split at h <;> split at h
  · rename_i ha hb
    have hrun : ∀ {name : String}, isIdentifier name = true →
        ∀ c ∈ name.toList, isLabelChar c = true :=
      fun hname c hc => isLabelChar_of_nameChar (nameChar_of_isIdentifier hname c hc)
    obtain ⟨hsame, hrest⟩ := run_append_inj (hrun ha) (hrun hb) hr hr' h
    exact ⟨String.toList_injective hsame, hrest⟩
  · rename_i ha _
    exact absurd h (identifier_append_ne_stringLiteral ha)
  · rename_i _ hb
    exact absurd h.symm (identifier_append_ne_stringLiteral hb)
  · exact stringLiteral_append_inj h

/-- An identifier with a line feed behind it. -/
def TrailsLineFeed (name : String) : Prop :=
  ∃ front, isIdentifierChars front = true ∧ name.toList = front ++ ['\n']

lemma isIdentifier_iff : isIdentifier name = true ↔
    isIdentifierChars name.toList = true ∨ TrailsLineFeed name := by
  rw [isIdentifier, Bool.or_eq_true]
  refine or_congr Iff.rfl ?_
  rw [Bool.and_eq_true, beq_iff_eq]
  constructor
  · rintro ⟨hlast, hfront⟩
    exact ⟨_, hfront, (dropLast_append_getLast? _ hlast).symm⟩
  · rintro ⟨front, hfront, hname⟩
    simpa [hname] using hfront

lemma legal_of_isIdentifierChars (h : isIdentifierChars name.toList = true) : Legal name := by
  have hchars := identChar_of_isIdentifierChars h
  rw [← name.ofList_toList]
  cases hname : name.toList with
  | nil => simp [hname, isIdentifierChars] at h
  | cons c cs =>
    rw [hname, isIdentifierChars, Bool.and_eq_true] at h
    exact legal_ofList (not_isDigitLike_of_isIdentStart h.1) (hname ▸ hchars)

lemma TrailsLineFeed.not_legal (h : TrailsLineFeed name) : ¬ Legal name := by
  obtain ⟨front, _, hname⟩ := h
  intro hlegal
  exact absurd (hlegal.chars '\n' (by simp [hname])) (by decide)

/-- **Labels and first names.** The label of a name is the name itself, which is legal then, or a
JSON string that is read as the name, and the name of a declaration starts from a legal one, exactly
if the name is no identifier with a line feed behind it. Otherwise both are the name itself. -/
theorem label_legal_iff (name : String) :
    (label name = name ∧ Legal name ∨ IsQuoted (label name) name ↔ ¬ TrailsLineFeed name) ∧
    (Legal (baseName name) ↔ ¬ TrailsLineFeed name) ∧
    (TrailsLineFeed name → label name = name ∧ baseName name = name) := by
  by_cases hident : isIdentifier name = true
  · have hlabel : label name = name := if_pos hident
    have hbase : baseName name = name := if_pos hident
    have hplain : ¬ IsQuoted name name := fun hquotes =>
      (nameChar_of_isIdentifier hident).not_mem (by decide) (mem_of_head? hquotes.1)
    have hlegal : Legal name ↔ ¬ TrailsLineFeed name :=
      ⟨fun h hfeed => hfeed.not_legal h,
        fun hfeed => legal_of_isIdentifierChars ((isIdentifier_iff.mp hident).resolve_right hfeed)⟩
    simp [hlabel, hbase, hplain, hlegal]
  · have hfeed : ¬ TrailsLineFeed name := fun h => hident (isIdentifier_iff.mpr (.inr h))
    have hlabel : label name = stringLiteral name := if_neg hident
    have hbase : baseName name = toIdentifier name := if_neg hident
    simp [hlabel, hbase, hfeed, isQuoted_stringLiteral, legal_toIdentifier]

theorem label_trailingLineFeed :
    TrailsLineFeed "a\n" ∧ label "a\n" = "a\n" ∧ ¬ Legal (baseName "a\n") := by
  obtain ⟨_, hlegal, hsame⟩ := label_legal_iff "a\n"
  have hfeed : TrailsLineFeed "a\n" := ⟨['a'], by decide, by decide⟩
  exact ⟨hfeed, (hsame hfeed).1, fun h => hlegal.mp h hfeed⟩

/-- A name with a line feed at its end is neither legal nor quoted. -/
theorem label_lineFeed : label "a\n" = "a\n" ∧ baseName "a\n" = "a\n" ∧ ¬ Legal "a\n" ∧
    ¬ IsQuoted (label "a\n") "a\n" := by
  have hlabel : label "a\n" = "a\n" := by decide +kernel
  refine ⟨hlabel, by decide +kernel, fun h => absurd (h.chars '\n' (by decide)) (by decide), ?_⟩
  rw [hlabel]
  exact fun h => absurd h.1 (by decide)

end AmbientDecl

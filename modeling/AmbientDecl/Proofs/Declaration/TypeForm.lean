import AmbientDecl.Proofs.Declaration.Expressible

/-!
# The forms of printed types

How the text of a type starts and what can follow it.

**What follows.** A type ends where one of a few marks stands (`Before`). Its alternatives end at
bars as well, and what stands before the brackets of an array ends at brackets as well (`typeEnds`,
`alternativeEnds`, `headEnds`).

**Heads.** What stands before brackets is told by its first character (`HeadForm`,
`HeadForm.opens`). If it starts with a word, the word and its arguments make the type (`WordForm`).

**Alternatives.** A type that is no function is a list of alternatives, so it starts with a head
(`Expressible.exists_head`).
-/

namespace AmbientDecl

open Text TypeExpr List

section Lists

variable {α : Type} {f : α → List Char} {sep : List Char}

/-- The items behind the first one. -/
def moreChars (sep : List Char) (f : α → List Char) (l : List α) : List Char :=
  l.flatMap fun a => sep ++ f a

lemma intercalate_map_cons (a : α) (l : List α) :
    sep.intercalate ((a :: l).map f) = f a ++ moreChars sep f l := by
  induction l generalizing a with
  | nil => simp [moreChars]
  | cons b l ih =>
    rw [map_cons, map_cons, intercalate_cons_cons, ← map_cons, ih]
    simp [moreChars]

end Lists

section Following

variable {marks marks' : List String} {r : List Char} {p : Char → Bool}

/-- Nothing follows, or one of some marks. -/
def Before (marks : List String) (r : List Char) : Prop :=
  r = [] ∨ ∃ mark ∈ marks, mark.toList <+: r

def typeEnds : List String := [")", ",", ";", ">", " \x7d"]

def alternativeEnds : List String := " | " :: typeEnds

/-- The marks that can follow what an array may be made of. -/
def headEnds : List String := "[]" :: alternativeEnds

lemma Before.mono (h : Before marks r) (hmarks : marks ⊆ marks') : Before marks' r :=
  h.imp_right fun ⟨mark, hmark, hr⟩ => ⟨mark, hmarks hmark, hr⟩

lemma before_append (mark : String) (h : mark ∈ marks) (r : List Char) :
    Before marks (mark.toList ++ r) :=
  Or.inr ⟨mark, h, prefix_append _ _⟩

/-- Another mark does not follow if none of the marks starts with it or is its start. -/
lemma Before.not_starts (h : Before marks r) {mark : String} (hmark : mark ≠ "")
    (hall : (marks.all fun m =>
      !m.toList.isPrefixOf mark.toList && !mark.toList.isPrefixOf m.toList) =
      true) : ¬ mark.toList <+: r := by
  intro hprefix
  rcases h with rfl | ⟨m, hm, hr⟩
  · exact hmark (String.toList_injective (prefix_nil.mp hprefix))
  · have hapart := all_eq_true.mp hall m hm
    simp only [Bool.and_eq_true, Bool.not_eq_true', Bool.eq_false_iff, ne_eq,
      List.isPrefixOf_iff_prefix]
      at hapart
    rcases prefix_or_prefix_of_prefix hr hprefix with h | h
    · exact hapart.1 h
    · exact hapart.2 h

lemma Before.stops (h : Before marks r)
    (hall : (marks.all fun m => m.toList.head?.any fun c => !p c) = true) : Stops p r := by
  rcases h with rfl | ⟨m, hm, ⟨rest, rfl⟩⟩
  · simp [Stops]
  · have hhead := all_eq_true.mp hall m hm
    cases hchars : m.toList with
    | nil => simp [hchars] at hhead
    | cons c cs => exact stops_cons (by simpa [hchars] using hhead)

end Following

/-- What the first character of a type tells. -/
inductive Opening where
  | paren
  | brace
  | quote
  | digit
  | word
deriving DecidableEq

/-- What is told by a character at the front. -/
def Opening.ofChar (c : Char) : Opening :=
  if c = '-' ∨ isDecimal c then .digit
  else if c = '(' then .paren
  else if c = '\x7b' then .brace
  else if c = '"' ∨ c = '\'' then .quote
  else .word

lemma Opening.mem_of_ofChar {c : Char} (hdigit : ofChar c ≠ .digit) (hword : ofChar c ≠ .word) :
    c ∈ ['(', '\x7b', '"', '\''] := by
  unfold ofChar at hdigit hword
  split_ifs at hdigit hword <;> simp_all

/-- A word that is printed as it is. -/
def IsPrintedWord (word : String) : Prop := word ∈ printableNames ∨ word = "true" ∨ word = "false"

def isNumberChar (c : Char) : Bool := isDecimal c || c == '.' || c == '-'

namespace TypeNode

variable {scope : TypeScope} {t t' : TypeNode} {o o' : Opening} {r r' : List Char}

/-- The forms of types that are no arrays, by the first character of their text. -/
inductive HeadForm (scope : TypeScope) : TypeNode → Opening → Prop
  | parenthesized {t : TypeNode} (text : t.headChars scope = '(' :: t.chars scope ++ [')']) :
      HeadForm scope t .paren
  | dictionary {key : String} {value : TypeNode} (isKey : key ∈ ["string", "number", "symbol"])
      (expressible : value.Expressible) :
        HeadForm scope (.generic "Object" [.named key, value]) .brace
  | record {fields : List (RecordField TypeNode)} (undescribed : ∀ f ∈ fields, f.description = none)
      (expressible : ∀ f ∈ fields, f.type.Expressible) : HeadForm scope (.record fields) .brace
  | string {text : String} (token : string? text.toList = some (text.toList, [])) :
      HeadForm scope (.literal text) .quote
  | number {text : String} (token : number? text.toList = some (text.toList, [])) :
      HeadForm scope (.literal text) .digit
  | named {name : String} (known : name ∈ printableNames) : HeadForm scope (.named name) .word
  | truth {text : String} (isTruth : text = "true" ∨ text = "false") :
      HeadForm scope (.literal text) .word
  | generic {base : String} {args : List TypeNode} (known : base ∈ printableNames)
      (notObject : base ≠ "Object") (given : args ≠ []) (expressible : ∀ t ∈ args, t.Expressible) :
      HeadForm scope (.generic base args) .word

lemma Expressible.headForm (h : t.Expressible) (hrank : t.rank = 0) : ∃ o, HeadForm scope t o := by
  cases h with
  | named known => exact ⟨_, .named known⟩
  | truth isTruth => exact ⟨_, .truth isTruth⟩
  | string token => exact ⟨_, .string token⟩
  | number token => exact ⟨_, .number token⟩
  | array => simp [rank] at hrank
  | union => exact ⟨_, .parenthesized rfl⟩
  | generic known notObject given expressible =>
    exact ⟨_, .generic known notObject given expressible⟩
  | dictionary isKey expressible => exact ⟨_, .dictionary isKey expressible⟩
  | record undescribed expressible => exact ⟨_, .record undescribed expressible⟩
  | function => exact ⟨_, .parenthesized rfl⟩

end TypeNode

/-- How words are spelled: with characters of names, the first of them no digit, and not like the
word before a constructor. -/
lemma spelling_of_isPrintedWord {word : String} (h : IsPrintedWord word) :
    (∀ c ∈ word.toList, isIdentRest c = true) ∧
      (∃ first rest, word.toList = first :: rest ∧ Opening.ofChar first = .word) ∧
        word ≠ "new" := by
  have hall : (("true" :: "false" :: printableNames).all fun word => word.toList.all isIdentRest &&
      (word.toList.head?.any fun c => Opening.ofChar c == .word) && word != "new") = true := by
    decide +kernel
  have hmem : word ∈ "true" :: "false" :: printableNames := by
    rcases h with h | rfl | rfl
    · exact mem_cons_of_mem _ (mem_cons_of_mem _ h)
    · exact mem_cons_self
    · exact mem_cons_of_mem _ mem_cons_self
  have hword := all_eq_true.mp hall word hmem
  simp only [Bool.and_eq_true, all_eq_true, bne_iff_ne] at hword
  obtain ⟨⟨hchars, hfirst⟩, hnew⟩ := hword
  refine ⟨hchars, ?_, hnew⟩
  cases hword : word.toList with
  | nil => simp [hword] at hfirst
  | cons first rest => exact ⟨first, rest, rfl, by simpa [hword] using hfirst⟩

lemma not_isTruth_of_known {name : String} (known : name ∈ printableNames) :
    ¬ (name = "true" ∨ name = "false") := by
  rintro (rfl | rfl)
  · exact absurd known (by decide)
  · exact absurd known (by decide)

/-- A number starts with a digit or a minus sign and has only characters of numbers. -/
lemma chars_of_number? {cs taken rest : List Char} (h : number? cs = some (taken, rest)) :
    (∀ c ∈ taken, isNumberChar c = true) ∧
      ∃ first more, taken = first :: more ∧ (first = '-' ∨ isDecimal first = true) := by
  obtain ⟨negative, whole, fraction, hwhole, hfraction, rfl⟩ := parts_of_number? h
  have hrun : ∀ {digits}, IsRun isDecimal digits → ∀ c ∈ digits, isNumberChar c = true :=
      fun hdigits c hc => by
    simp [isNumberChar, hdigits.2 c hc]
  have hbody : ∀ c ∈ whole ++ fraction, isNumberChar c = true := by
    refine forall_mem_append.mpr ⟨hrun hwhole, ?_⟩
    rcases hfraction with rfl | ⟨digits, hdigits, rfl⟩
    · simp
    · exact forall_mem_cons.mpr ⟨rfl, hrun hdigits⟩
  cases negative with
  | true => exact ⟨forall_mem_cons.mpr ⟨rfl, hbody⟩, _, _, rfl, .inl rfl⟩
  | false =>
    obtain ⟨first, more, rfl⟩ := exists_cons_of_ne_nil hwhole.1
    exact ⟨hbody, first, _, rfl, .inr (hwhole.2 first mem_cons_self)⟩

lemma exists_quote_of_string? {cs : List Char} {cut : Cut} (h : string? cs = some cut) :
    ∃ quote rest, cs = quote :: rest ∧ (quote = '"' ∨ quote = '\'') := by
  cases cs with
  | nil => simp [string?] at h
  | cons quote rest =>
    rw [string?] at h
    split at h
    · exact ⟨quote, rest, rfl, ‹_›⟩
    · simp at h

namespace TypeNode

variable {scope : TypeScope} {t t' : TypeNode} {o o' : Opening} {r r' : List Char}

lemma HeadForm.opens (hscope : scope.Plain) (h : HeadForm scope t o) :
    ∃ first rest, t.headChars scope = first :: rest ∧ Opening.ofChar first = o := by
  cases h with
  | parenthesized text => exact ⟨_, _, text, by decide⟩
  | dictionary isKey => exact ⟨_, _, chars_dictionary hscope isKey _, by decide⟩
  | @record fields =>
    by_cases hne : fields = []
    · subst hne
      exact ⟨_, _, chars_record_nil, by decide⟩
    · exact ⟨_, _, chars_record hne, by decide⟩
  | @string text token =>
    obtain ⟨quote, rest, hchars, hquote⟩ := exists_quote_of_string? token
    refine ⟨quote, rest, (chars_literal text).trans hchars, ?_⟩
    rcases hquote with rfl | rfl <;> decide
  | @number text token =>
    obtain ⟨-, first, rest, hchars, hfirst⟩ := chars_of_number? token
    refine ⟨first, rest, (chars_literal text).trans hchars, ?_⟩
    simp [Opening.ofChar, hfirst]
  | @named name known =>
    obtain ⟨-, ⟨first, rest, hchars, hfirst⟩, -⟩ := spelling_of_isPrintedWord (Or.inl known)
    exact ⟨first, rest, (chars_named hscope known).trans hchars, hfirst⟩
  | @truth text isTruth =>
    obtain ⟨-, ⟨first, rest, hchars, hfirst⟩, -⟩ := spelling_of_isPrintedWord (Or.inr isTruth)
    exact ⟨first, rest, (chars_literal text).trans hchars, hfirst⟩
  | @generic base args known notObject =>
    obtain ⟨-, ⟨first, rest, hchars, hfirst⟩, -⟩ := spelling_of_isPrintedWord (Or.inl known)
    have htext := chars_generic hscope known notObject args
    rw [hchars, cons_append] at htext
    exact ⟨first, _, htext, hfirst⟩

/-- Types that are written alike have the same form. -/
lemma HeadForm.opening_eq (hscope : scope.Plain) (h : HeadForm scope t o)
    (h' : HeadForm scope t' o')
    (heq : t.headChars scope ++ r = t'.headChars scope ++ r') : o = o' := by
  obtain ⟨first, rest, hchars, rfl⟩ := h.opens hscope
  obtain ⟨first', rest', hchars', rfl⟩ := h'.opens hscope
  rw [hchars, hchars'] at heq
  rw [(List.cons.inj heq).1]

/-- The text of the arguments of a word, which may have none. -/
def argumentChars (scope : TypeScope) : List TypeNode → List Char
  | [] => []
  | args => '<' :: (", ".toList.intercalate (args.map (chars scope)) ++ ['>'])

lemma argumentChars_of_ne_nil {args : List TypeNode} (h : args ≠ []) : argumentChars scope args =
    '<' :: (", ".toList.intercalate (args.map (chars scope)) ++ ['>']) := by
  cases args with
  | nil => exact absurd rfl h
  | cons => rfl

lemma stops_argumentChars {p : Char → Bool} (args : List TypeNode) (h : p '<' = false)
    (hr : Stops p r) :
    Stops p (argumentChars scope args ++ r) := by
  cases args with
  | nil => exact hr
  | cons => exact stops_cons h

/-- The forms of types that start with a word: the word and its arguments. -/
inductive WordForm : TypeNode → String → List TypeNode → Prop
  | named {name : String} (known : name ∈ printableNames) : WordForm (.named name) name []
  | truth {text : String} (isTruth : text = "true" ∨ text = "false") :
      WordForm (.literal text) text []
  | generic {base : String} {args : List TypeNode} (known : base ∈ printableNames)
      (notObject : base ≠ "Object") (given : args ≠ []) (expressible : ∀ t ∈ args, t.Expressible) :
      WordForm (.generic base args) base args

variable {word : String} {args args' : List TypeNode}

lemma HeadForm.wordForm (h : HeadForm scope t .word) : ∃ word args, WordForm t word args := by
  cases h with
  | named known => exact ⟨_, _, .named known⟩
  | truth isTruth => exact ⟨_, _, .truth isTruth⟩
  | generic known notObject given expressible =>
    exact ⟨_, _, .generic known notObject given expressible⟩

lemma WordForm.isPrintedWord (h : WordForm t word args) : IsPrintedWord word := by
  cases h with
  | named known => exact Or.inl known
  | truth isTruth => exact Or.inr isTruth
  | generic known => exact Or.inl known

lemma WordForm.expressible (h : WordForm t word args) : ∀ t ∈ args, t.Expressible := by
  cases h with
  | named => simp
  | truth => simp
  | generic _ _ _ expressible => exact expressible

lemma WordForm.chars_eq (hscope : scope.Plain) (h : WordForm t word args) :
    t.headChars scope = word.toList ++ argumentChars scope args := by
  cases h with
  | named known => exact (chars_named hscope known).trans (append_nil _).symm
  | truth => exact (chars_literal _).trans (append_nil _).symm
  | generic known notObject given =>
    rw [argumentChars_of_ne_nil given]
    exact chars_generic hscope known notObject args

/-- A word and its arguments make one type. -/
lemma WordForm.unique (h : WordForm t word args) (h' : WordForm t' word args) : t = t' := by
  cases h with
  | named known =>
    cases h' with
    | named => rfl
    | truth isTruth => exact absurd isTruth (not_isTruth_of_known known)
    | generic _ _ given => exact absurd rfl given
  | truth isTruth =>
    cases h' with
    | named known => exact absurd isTruth (not_isTruth_of_known known)
    | truth => rfl
    | generic _ _ given => exact absurd rfl given
  | generic _ _ given =>
    cases h' with
    | named => exact absurd rfl given
    | truth => exact absurd rfl given
    | generic => rfl

lemma Expressible.core (h : t.Expressible) : t.core.Expressible ∧ t.core.rank = 0 := by
  induction h with
  | array _ ih => exact ih
  | named known => exact ⟨.named known, rfl⟩
  | truth isTruth => exact ⟨.truth isTruth, rfl⟩
  | string token => exact ⟨.string token, rfl⟩
  | number token => exact ⟨.number token, rfl⟩
  | union several flat expressible => exact ⟨.union several flat expressible, rfl⟩
  | generic known notObject given expressible =>
    exact ⟨.generic known notObject given expressible, rfl⟩
  | dictionary isKey expressible => exact ⟨.dictionary isKey expressible, rfl⟩
  | record undescribed expressible => exact ⟨.record undescribed expressible, rfl⟩
  | function declarable one expressible result self made =>
    exact ⟨.function declarable one expressible result self made, rfl⟩

lemma before_brackets (n : Nat) (h : Before alternativeEnds r) :
    Before headEnds (brackets n ++ r) := by
  cases n with
  | zero => exact h.mono (subset_cons_self _ _)
  | succ n => exact before_append "[]" mem_cons_self _

def IsFunction : TypeNode → Prop
  | .function .. => True
  | _ => False

instance (t : TypeNode) : Decidable t.IsFunction :=
  match t with
  | .function .. => isTrue trivial
  | .named _ | .union _ | .array _ | .generic .. | .record _ | .literal _ | .unreadable _ =>
    isFalse id

lemma Expressible.alternatives (h : t.Expressible) :
    t.alternatives ≠ [] ∧ ∀ a ∈ t.alternatives, a.Expressible := by
  have hsingle : t.alternatives = [t] → t.alternatives ≠ [] ∧
      ∀ a ∈ t.alternatives, a.Expressible := by
    intro heq
    rw [heq]
    exact ⟨by simp, by simpa using h⟩
  cases h with
  | union several flat expressible =>
    exact ⟨ne_nil_of_length_pos (by simp only [TypeNode.alternatives]; omega), expressible⟩
  | _ => exact hsingle rfl

/-- A type that is no function is printed as its alternatives. -/
lemma Expressible.chars_alternatives (h : t.Expressible) (hfunction : ¬ t.IsFunction) :
    t.chars scope = " | ".toList.intercalate (t.alternatives.map (headChars scope)) := by
  cases h with
  | union several flat => exact chars_union flat
  | function => exact absurd trivial hfunction
  | _ => exact intercalate_singleton.symm

lemma Expressible.alternatives_cases (h : t.Expressible) :
    (∃ members, t = .union members ∧ 2 ≤ members.length) ∨ t.alternatives = [t] := by
  cases h with
  | union several => exact Or.inl ⟨_, rfl, several⟩
  | _ => exact Or.inr rfl

lemma Expressible.eq_of_alternatives (h : t.Expressible) (h' : t'.Expressible)
    (heq : t.alternatives = t'.alternatives) : t = t' := by
  have hlength := congrArg List.length heq
  rcases h.alternatives_cases with ⟨members, rfl, hseveral⟩ | hsingle <;>
    rcases h'.alternatives_cases with ⟨members', rfl, hseveral'⟩ | hsingle'
  · rw [show members = members' from heq]
  · rw [hsingle'] at hlength
    simp only [TypeNode.alternatives, length_singleton] at hlength
    omega
  · rw [hsingle] at hlength
    simp only [TypeNode.alternatives, length_singleton] at hlength
    omega
  · rw [hsingle, hsingle'] at heq
    exact (List.cons.inj heq).1

/-- A type that is no function starts with a head. -/
lemma Expressible.exists_head (h : t.Expressible) (hfunction : ¬ t.IsFunction)
    (hr : Before typeEnds r) :
    ∃ c o s, HeadForm scope c o ∧ c.Expressible ∧ Before headEnds s ∧
      t.chars scope ++ r = c.headChars scope ++ s := by
  obtain ⟨hne, hexpressible⟩ := h.alternatives
  have htext : t.chars scope = " | ".toList.intercalate (t.alternatives.map (headChars scope)) :=
    h.chars_alternatives hfunction
  obtain ⟨a, rest, halternatives⟩ := exists_cons_of_ne_nil hne
  rw [halternatives] at htext hexpressible
  obtain ⟨hcore, hrank⟩ := (hexpressible a mem_cons_self).core
  obtain ⟨o, hform⟩ : ∃ o, HeadForm scope a.core o := hcore.headForm hrank
  have hmore : Before alternativeEnds (moreChars " | ".toList (headChars scope) rest ++ r) := by
    cases rest with
    | nil => exact hr.mono (subset_cons_self _ _)
    | cons b rest =>
      rw [moreChars, flatMap_cons, append_assoc, append_assoc]
      exact before_append " | " mem_cons_self _
  refine ⟨a.core, o, _, hform, hcore, before_brackets a.rank hmore, ?_⟩
  rw [htext, intercalate_map_cons, headChars_eq a]
  simp only [append_assoc]

end TypeNode

end AmbientDecl

import AmbientDecl.Json.Reader
import Mathlib.Tactic.Common

/-!
# What string literals denote

The literal of a text is a JSON document, and its value is the text (`parse_stringLiteral`).

**Characters.** A character is written as it is, with a short escape, or by its UTF-16 units
(`literalChar_cases`). In each case the reader of strings takes it back (`reads_literalChar`). So
the written forms of two texts are not the same (`literalChars_inj`).

A string literal of the declaration language denotes a sequence of UTF-16 units. Between its quotes
a character stands for its own units, unless it is a backslash, which starts an escape, or ends a
line.

**Reading.** `escape?` reads what stands behind a backslash and `denotation?` a whole literal, which
has to end at the first quote that is not escaped. `Denotes` compares the units with those of a
text. A literal denotes one text at most, since `units` is injective (`Denotes.unique`).

**Loss.** An escape has more characters than it denotes units, except the escape of the quote
itself. So nothing that is read has more units than the characters other than the quote have
(`length_closing?_le`), and a backslash before anything but the quote makes it fewer
(`length_closing?_backslash`).

**Quoting.** A text between quotes denotes itself exactly if there is neither a backslash nor a line
end nor the quote in it (`closing?_bare_iff`). If quotes are escaped, they may be in it
(`closing?_escaped_iff`).
-/

namespace AmbientDecl

open Text Json List

variable {c : Char} {cs r text rest : List Char} {start : Nat}

/-- The characters with an escape of two characters, and the second of these. -/
def shortEscapes : List (Char × Char) :=
  [('"', '"'), ('\\', '\\'), ('\n', 'n'), ('\r', 'r'), ('\t', 't'), ('\x08', 'b'), ('\x0c', 'f')]

/-- A character is written as it is, with a short escape, or by its units. -/
lemma literalChar_cases (c : Char) :
    literalChar c = [c] ∧ c ≠ '"' ∧ c ≠ '\\' ∧ 32 ≤ c.toNat ∨
    (∃ letter, (c, letter) ∈ shortEscapes ∧ literalChar c = ['\\', letter]) ∨
    literalChar c = unitsEscape c := by
  unfold literalChar
  split_ifs with hquote hline hreturn htab hback hfeed hplain
  · right; left
    rcases hquote with rfl | rfl
    · exact ⟨'"', by simp [shortEscapes], rfl⟩
    · exact ⟨'\\', by simp [shortEscapes], rfl⟩
  · exact Or.inr (Or.inl ⟨'n', by simp [shortEscapes, hline], rfl⟩)
  · exact Or.inr (Or.inl ⟨'r', by simp [shortEscapes, hreturn], rfl⟩)
  · exact Or.inr (Or.inl ⟨'t', by simp [shortEscapes, htab], rfl⟩)
  · exact Or.inr (Or.inl ⟨'b', by simp [shortEscapes, hback], rfl⟩)
  · exact Or.inr (Or.inl ⟨'f', by simp [shortEscapes, hfeed], rfl⟩)
  · exact Or.inl ⟨rfl, by tauto⟩
  · exact Or.inr (Or.inr rfl)

lemma shortEscape_spec {letter : Char} (h : (c, letter) ∈ shortEscapes) :
    letter ≠ 'u' ∧ letter ≠ '\n' ∧ escapeLetter? letter = some c := by
  have hall : (shortEscapes.all fun p =>
      p.2 != 'u' && (p.2 != '\n' && escapeLetter? p.2 == some p.1)) = true := by
    decide
  simpa using all_eq_true.mp hall _ h

/-- Hexadecimal digits are read as the number that they write. -/
lemma hexUnit?_hexadecimal {n : Nat} (h : n < 0x10000) (r : List Char) :
    hexUnit? (hexadecimal 4 n ++ r) = some (n, r) := by
  have hdigit : ∀ m, hexValue? (m % 16).digitChar = some (m % 16) := by
    intro m
    have hall : ∀ a : Fin 16, hexValue? (Nat.digitChar a) = some a.val := by decide
    exact hall ⟨m % 16, Nat.mod_lt _ (by decide)⟩
  simp only [hexadecimal, nil_append, cons_append, hexUnit?, hdigit, Option.bind_eq_bind,
    Option.bind_some, Option.some.injEq, Prod.mk.injEq, and_true]
  omega

/-- The units of a character are read as the character. -/
lemma exists_unit (c : Char) (r : List Char) : ∃ unit after, unit < 0x10000 ∧
    unitsEscape c ++ r = unitEscape unit ++ after ∧ r.length ≤ after.length ∧
      unitChar unit after = (c, r) := by
  have hvalid : c.toNat < 0xd800 ∨ 0xdfff < c.toNat ∧ c.toNat < 0x110000 := c.valid
  by_cases hbasic : c.toNat < 0x10000
  · refine ⟨c.toNat, r, hbasic, by rw [unitsEscape, if_pos hbasic], Nat.le_refl _, ?_⟩
    unfold unitChar
    rw [if_neg (by omega), if_neg (by omega), Char.ofNat_toNat]
  · have hlow : 0xdc00 + (c.toNat - 0x10000) % 0x400 < 0x10000 := by omega
    refine ⟨0xd800 + (c.toNat - 0x10000) / 0x400,
      unitEscape (0xdc00 + (c.toNat - 0x10000) % 0x400) ++ r, by omega,
      by rw [unitsEscape, if_neg hbasic, append_assoc], by simp, ?_⟩
    unfold unitChar unitEscape
    rw [if_pos (by omega)]
    simp only [cons_append, hexUnit?_hexadecimal hlow]
    rw [if_pos (by omega)]
    have hpair : 0x10000 + 0x400 * (0xd800 + (c.toNat - 0x10000) / 0x400 - 0xd800) +
        (0xdc00 + (c.toNat - 0x10000) % 0x400 - 0xdc00) = c.toNat := by omega
    rw [hpair, Char.ofNat_toNat]

/-- The reader of strings has read `text` and left `rest`. -/
def ReadsBody (outcome : Read (List Char) cs) (text rest : List Char) : Prop :=
  ∃ h, outcome = .ok ⟨text, rest, h⟩

lemma reads_escape {e : Parsed Char Char cs} (he : escapeSequence start cs = .ok e)
    (h : ReadsBody (stringBody start e.rest) text rest) :
    ReadsBody (stringBody start ('\\' :: cs)) (e.value :: text) rest := by
  obtain ⟨_, h⟩ := h
  rw [stringBody, if_neg (by decide), if_pos rfl, he]
  simp only [bind, Except.bind, h]
  exact ⟨_, rfl⟩

/-- **A written character is read as the character.** -/
lemma reads_literalChar (c : Char) (hr : r ≠ []) (h : ReadsBody (stringBody start r) text rest) :
    ReadsBody (stringBody start (literalChar c ++ r)) (c :: text) rest := by
  rcases literalChar_cases c with ⟨hc, hquote, hescape, hcontrol⟩ | ⟨letter, hshort, hc⟩ | hc
  · obtain ⟨_, h⟩ := h
    rw [hc, singleton_append, stringBody, if_neg hquote, if_neg hescape, if_neg (by omega), h]
    exact ⟨_, rfl⟩
  · obtain ⟨hu, _, hletter⟩ := shortEscape_spec hshort
    have he : escapeSequence start (letter :: r) = .ok ⟨c, r, by simp⟩ := by
      rw [escapeSequence, if_neg hu, hletter]
    rw [hc]
    exact reads_escape he h
  · obtain ⟨unit, after, hunit, hwritten, hafter, hchar⟩ := exists_unit c r
    have hlength : (hexadecimal 4 unit ++ after).length = 4 + after.length := length_append
    have hpos := length_pos_iff.mpr hr
    have hshorter : r.length < ('u' :: (hexadecimal 4 unit ++ after)).length := by
      rw [length_cons, hlength]
      omega
    have he : escapeSequence start ('u' :: (hexadecimal 4 unit ++ after)) =
        .ok ⟨c, r, hshorter⟩ := by
      rw [escapeSequence, if_pos rfl, if_neg (by omega), hexUnit?_hexadecimal hunit]
      simp only [hchar, Parsed.ofRest?, dif_pos hshorter]
    rw [hc, hwritten]
    exact reads_escape he h

lemma reads_literalChars (cs : List Char) :
    ReadsBody (stringBody start (cs.flatMap literalChar ++ '"' :: r)) cs r := by
  induction cs with
  | nil =>
    rw [flatMap_nil, nil_append, stringBody, if_pos rfl]
    exact ⟨_, rfl⟩
  | cons c cs ih =>
    rw [flatMap_cons, append_assoc]
    exact reads_literalChar c (by simp) ih

/-- The written forms of two texts are not the same. -/
lemma literalChars_inj {a b : List Char} (h : a.flatMap literalChar = b.flatMap literalChar) :
    a = b := by
  have hreads : ∀ cs, ReadsBody (stringBody 0 (cs.flatMap literalChar ++ ['"'])) cs [] :=
    reads_literalChars
  have ha := hreads a
  rw [h] at ha
  obtain ⟨_, ha⟩ := ha
  obtain ⟨_, hb⟩ := hreads b
  exact congrArg Parsed.value (Except.ok.inj (ha.symm.trans hb))

/-- **A string literal is a JSON document of the text.** -/
lemma parse_stringLiteral (s : String) : parse (stringLiteral s) = .ok (.string s) := by
  obtain ⟨body, hbody⟩ : ∃ body, body = s.toList.flatMap literalChar ++ ['"'] := ⟨_, rfl⟩
  have hcs : (stringLiteral s).toList = '"' :: body := by rw [hbody]; exact String.toList_ofList
  obtain ⟨_, hread⟩ : ReadsBody (stringBody (body.length + 1) body) s.toList [] :=
    hbody ▸ reads_literalChars s.toList
  have hvalue : ∃ h, value ('"' :: body) = .ok ⟨.string s, [], h⟩ := by
    rw [value, if_pos rfl, hread]
    exact ⟨by simp, by simp only [bind, Except.bind, pure, Except.pure, Parsed.map, Parsed.within,
      String.ofList_toList]⟩
  obtain ⟨_, hvalue⟩ := hvalue
  have hblank : skipBlanks ('"' :: body) = '"' :: body := rfl
  have hmark : ('"' :: body).head? ≠ some '﻿' := by simp
  have hdocument : document ('"' :: body) = .ok (.string s) := by
    unfold document
    rw [if_neg hmark, hblank, hvalue]
    rfl
  rw [parse, hcs, hdocument]

/-- A JSON string that is read as `s`. -/
def IsQuoted (t s : String) : Prop := t.toList.head? = some '"' ∧ parse t = .ok (.string s)

lemma isQuoted_stringLiteral (s : String) : IsQuoted (stringLiteral s) s := by
  refine ⟨?_, parse_stringLiteral s⟩
  rw [stringLiteral, String.toList_ofList]
  rfl

end AmbientDecl

namespace AmbientDecl.Text

open List

def codeUnits (n : Nat) : List Nat :=
  if n < 0x10000 then [n] else [0xd800 + (n - 0x10000) / 0x400, 0xdc00 + (n - 0x10000) % 0x400]

def units (cs : List Char) : List Nat := cs.flatMap fun c => codeUnits c.toNat

@[simp] lemma units_nil : units [] = [] := rfl

@[simp] lemma units_cons (c : Char) (cs : List Char) :
    units (c :: cs) = codeUnits c.toNat ++ units cs := rfl

lemma length_codeUnits (n : Nat) : 1 ≤ (codeUnits n).length ∧ (codeUnits n).length ≤ 2 := by
  unfold codeUnits
  split <;> simp

/-- The units of a character are told apart by the first one and do not run into what follows. -/
lemma codeUnits_append_inj {a b : Char} {us vs : List Nat}
    (h : codeUnits a.toNat ++ us = codeUnits b.toNat ++ vs) : a = b ∧ us = vs := by
  have ha : a.toNat < 0xd800 ∨ 0xdfff < a.toNat ∧ a.toNat < 0x110000 := a.valid
  have hb : b.toNat < 0xd800 ∨ 0xdfff < b.toNat ∧ b.toNat < 0x110000 := b.valid
  have heq : a.toNat = b.toNat ∧ us = vs := by
    unfold codeUnits at h
    split at h <;> split at h <;> simp only [cons_append, nil_append, List.cons.injEq] at h
    · exact h
    · omega
    · omega
    · exact ⟨by omega, h.2.2⟩
  exact ⟨Char.toNat_inj.mp heq.1, heq.2⟩

lemma units_injective : Function.Injective units := by
  intro a b h
  induction a generalizing b with
  | nil =>
    cases b with
    | nil => rfl
    | cons d b =>
      have := congrArg List.length h
      simp only [units_nil, units_cons, length_nil, length_append] at this
      have := (length_codeUnits d.toNat).1
      omega
  | cons c a ih =>
    cases b with
    | nil =>
      have := congrArg List.length h
      simp only [units_nil, units_cons, length_nil, length_append] at this
      have := (length_codeUnits c.toNat).1
      omega
    | cons d b =>
      obtain ⟨rfl, hrest⟩ := codeUnits_append_inj h
      rw [ih hrest]

/-- The number that hexadecimal digits write. -/
def hexNumber? (digits : List Char) : Option Nat :=
  (digits.mapM Json.hexValue?).map fun values => values.foldl (fun n value => 16 * n + value) 0

/-- The letters that stand for a control character behind a backslash. -/
def controlLetters : List (Char × Nat) :=
  [('b', 8), ('t', 9), ('n', 10), ('v', 11), ('f', 12), ('r', 13)]

/-- The characters that continue a literal on the next line if they stand behind a backslash. -/
def endsCodeLine (c : Char) : Bool :=
  c == '\n' || c == '\r' || c.toNat == 0x2028 || c.toNat == 0x2029

/-- An escape by a letter and the hexadecimal digits of a unit. -/
def unitEscape? (size : Nat) (cs : List Char) : Option (List Nat × Nat) :=
  if (cs.take size).length = size then (hexNumber? (cs.take size)).map fun n => ([n], size + 1)
    else none

/-- An escape by a letter and a code point between braces, of which the first has been read. -/
def codePointEscape? (cs : List Char) : Option (List Nat × Nat) :=
  let digits := cs.takeWhile fun c => (Json.hexValue? c).isSome
  if digits ≠ [] ∧ (cs.drop digits.length).head? = some '\x7d' then
    ((hexNumber? digits).filter (· ≤ 0x10ffff)).map fun n => (codeUnits n, digits.length + 3)
  else none

/-- What is denoted by the start of a text that stands behind a backslash, and the length of that
start. -/
def escape? : List Char → Option (List Nat × Nat)
  | [] => none
  | c :: cs =>
    if c = 'x' then unitEscape? 2 cs
    else if c = 'u' then
      if cs.head? = some '\x7b' then codePointEscape? cs.tail else unitEscape? 4 cs
    else if c = '\r' ∧ cs.head? = some '\n' then some ([], 2)
    else if c = '0' then if cs.head?.any Char.isDigit then none else some ([0], 1)
    else match controlLetters.lookup c with
      | some unit => some ([unit], 1)
      | none =>
        if endsCodeLine c then some ([], 1)
        else if c.isDigit then none
        else some (codeUnits c.toNat, 1)

/-- What is denoted by a text up to the quote at its end, the first characters left out. -/
def closing? (quote : Char) : Nat → List Char → Option (List Nat)
  | _, [] => none
  | n + 1, _ :: cs => closing? quote n cs
  | 0, c :: cs =>
    if c = quote then if cs.isEmpty then some [] else none
    else if c = '\\' then (escape? cs).bind fun e => (closing? quote e.2 cs).map (e.1 ++ ·)
    else if c = '\n' ∨ c = '\r' then none
    else (closing? quote 0 cs).map (codeUnits c.toNat ++ ·)

/-- What a literal denotes. -/
def denotation? : List Char → Option (List Nat)
  | [] => none
  | quote :: cs => if quote = '\'' ∨ quote = '"' then closing? quote 0 cs else none

lemma denotation?_cons {quote : Char} (h : quote = '\'' ∨ quote = '"') (cs : List Char) :
    denotation? (quote :: cs) = closing? quote 0 cs := if_pos h

/-- The literal denotes the text. -/
def Denotes (literal text : String) : Prop := denotation? literal.toList = some (units text.toList)

instance (literal text : String) : Decidable (Denotes literal text) :=
  inferInstanceAs (Decidable (_ = _))

lemma Denotes.unique {literal a b : String} (ha : Denotes literal a) (hb : Denotes literal b) :
    a = b :=
  String.toList_injective (units_injective (Option.some.inj (ha.symm.trans hb)))

section Loss

variable {quote c : Char} {cs : List Char} {e : List Nat × Nat} {us : List Nat} {n : Nat}

/-- How many units the characters other than the quote have. -/
def mass (quote : Char) (cs : List Char) : Nat := (units (cs.filter (· ≠ quote))).length

@[simp] lemma mass_nil (quote : Char) : mass quote [] = 0 := rfl

lemma mass_cons_of_ne (h : c ≠ quote) (cs : List Char) :
    mass quote (c :: cs) = (codeUnits c.toNat).length + mass quote cs := by
  simp [mass, h]

lemma mass_quote_cons (quote : Char) (cs : List Char) :
    mass quote (quote :: cs) = mass quote cs := by
  simp [mass]

lemma mass_append (quote : Char) (a b : List Char) :
    mass quote (a ++ b) = mass quote a + mass quote b := by
  simp [mass, units]

lemma mass_take_add_drop (quote : Char) (n : Nat) (cs : List Char) :
    mass quote (cs.take n) + mass quote (cs.drop n) = mass quote cs := by
  rw [← mass_append, take_append_drop]

lemma mass_le (quote : Char) (cs : List Char) : mass quote cs ≤ (units cs).length := by
  induction cs with
  | nil => simp
  | cons c cs ih =>
    by_cases hc : c = quote
    · subst hc
      rw [mass_quote_cons, units_cons, length_append]
      omega
    · rw [mass_cons_of_ne hc, units_cons, length_append]
      omega

lemma mass_cons_pos (h : c ≠ quote) (cs : List Char) :
    mass quote cs + 1 ≤ mass quote (c :: cs) := by
  have := (length_codeUnits c.toNat).1
  rw [mass_cons_of_ne h]
  omega

lemma unitEscape?_eq_some (h : unitEscape? n cs = some e) : e.1.length = 1 ∧ e.2 = n + 1 := by
  unfold unitEscape? at h
  split at h
  · obtain ⟨_, _, rfl⟩ := Option.map_eq_some_iff.mp h
    exact ⟨rfl, rfl⟩
  · cases h

lemma codePointEscape?_eq_some (h : codePointEscape? cs = some e) : e.1.length ≤ 2 ∧ 3 ≤ e.2 := by
  simp only [codePointEscape?] at h
  split at h
  · obtain ⟨n, _, rfl⟩ := Option.map_eq_some_iff.mp h
    exact ⟨(length_codeUnits n).2, by simp⟩
  · cases h

variable (hquote : quote = '\'' ∨ quote = '"')

include hquote

/-- **An escape denotes no more than what stands behind its backslash, but for that of the
quote.** -/
lemma length_escape?_le (h : escape? (c :: cs) = some e) :
    c = quote ∧ e = (codeUnits quote.toNat, 1) ∨ e.1.length ≤ mass quote ((c :: cs).take e.2) := by
  by_cases hc : c = quote
  · subst hc
    left
    rcases hquote with rfl | rfl
    · exact ⟨rfl, (Option.some.inj h).symm⟩
    · exact ⟨rfl, (Option.some.inj h).symm⟩
  right
  have hfirst : ∀ k, 1 ≤ mass quote ((c :: cs).take (k + 1)) := by
    intro k
    have := mass_cons_pos hc (cs.take k)
    rw [take_succ_cons]
    omega
  simp only [escape?] at h
  split at h
  · obtain ⟨hlength, hsize⟩ := unitEscape?_eq_some h
    rw [hlength, hsize]
    exact hfirst 2
  split at h
  · split at h
    · -- both the letter and the brace are behind the backslash, and a pair of units is at most
      -- denoted
      rename_i hbrace
      obtain ⟨rest, rfl⟩ := head?_eq_some_iff.mp hbrace
      obtain ⟨hlength, hsize⟩ := codePointEscape?_eq_some h
      obtain ⟨k, hk⟩ := Nat.exists_eq_add_of_le' hsize
      have hne : '\x7b' ≠ quote := by rcases hquote with rfl | rfl <;> decide
      have hletter := mass_cons_pos hc ('\x7b' :: rest.take (k + 1))
      have hopen := mass_cons_pos hne (rest.take (k + 1))
      rw [hk, take_succ_cons, take_succ_cons]
      omega
    · obtain ⟨hlength, hsize⟩ := unitEscape?_eq_some h
      rw [hlength, hsize]
      exact hfirst 4
  split at h
  · simp [← Option.some.inj h]
  split at h
  · split at h
    · cases h
    · rw [← Option.some.inj h]
      exact hfirst 0
  split at h
  · rw [← Option.some.inj h]
    exact hfirst 0
  split at h
  · simp [← Option.some.inj h]
  split at h
  · cases h
  · simp [← Option.some.inj h, mass_cons_of_ne hc]

lemma length_codeUnits_quote : (codeUnits quote.toNat).length = 1 := by
  rcases hquote with rfl | rfl <;> rfl

lemma backslash_ne_quote : '\\' ≠ quote := by
  rcases hquote with rfl | rfl <;> decide

/-- An escape and what follows it denote no more than what stands behind the backslash, or the
escape is that of the quote. -/
lemma length_escaped_le (he : escape? cs = some e) (hrest : us.length ≤ mass quote (cs.drop e.2)) :
    (e.1 ++ us).length ≤ mass quote cs ∨ ∃ rest, cs = quote :: rest ∧
      e = (codeUnits quote.toNat, 1) := by
  cases cs with
  | nil => cases he
  | cons c cs =>
    rcases length_escape?_le hquote he with ⟨rfl, he⟩ | hlength
    · exact Or.inr ⟨cs, rfl, he⟩
    · left
      rw [length_append, ← mass_take_add_drop quote e.2 (c :: cs)]
      omega

/-- **A literal denotes no more units than its characters have, quotes not counted.** -/
lemma length_closing?_le (h : closing? quote n cs = some us) :
    us.length ≤ mass quote (cs.drop n) := by
  induction cs generalizing n us with
  | nil => simp [closing?] at h
  | cons c cs ih =>
    cases n with
    | succ n => exact ih h
    | zero =>
      rw [drop_zero]
      simp only [closing?] at h
      split at h
      · split at h
        · simp [← Option.some.inj h]
        · cases h
      rename_i hc
      split at h
      · obtain ⟨e, he, h⟩ := Option.bind_eq_some_iff.mp h
        obtain ⟨vs, hvs, rfl⟩ := Option.map_eq_some_iff.mp h
        have hmass := mass_cons_pos hc cs
        rcases length_escaped_le hquote he (ih hvs) with hlength | ⟨rest, rfl, rfl⟩
        · omega
        · have hrest := ih hvs
          rw [drop_succ_cons, drop_zero] at hrest
          rw [mass_quote_cons] at hmass
          rw [length_append, length_codeUnits_quote hquote]
          omega
      split at h
      · cases h
      · obtain ⟨vs, hvs, rfl⟩ := Option.map_eq_some_iff.mp h
        have hrest := ih hvs
        rw [drop_zero] at hrest
        rw [mass_cons_of_ne hc, length_append]
        omega

/-- **A backslash is lost in what is denoted, unless it escapes the quote.** -/
lemma length_closing?_backslash (h : closing? quote 0 ('\\' :: cs) = some us) :
    us.length ≤ mass quote cs ∨ ∃ rest vs, cs = quote :: rest ∧ closing? quote 0 rest = some vs ∧
        us.length = vs.length + 1 := by
  rw [closing?, if_neg (backslash_ne_quote hquote), if_pos rfl] at h
  obtain ⟨e, he, h⟩ := Option.bind_eq_some_iff.mp h
  obtain ⟨vs, hvs, rfl⟩ := Option.map_eq_some_iff.mp h
  rcases length_escaped_le hquote he (length_closing?_le hquote hvs) with hlength | ⟨rest, rfl, rfl⟩
  · exact Or.inl hlength
  · refine Or.inr ⟨rest, vs, rfl, hvs, ?_⟩
    rw [length_append, length_codeUnits_quote hquote, Nat.add_comm]

end Loss

section Quoting

variable {quote : Char} {text : List Char}

/-- A character that can stand in a literal and denotes itself there. -/
def StandsForItself (c : Char) : Prop := c ≠ '\\' ∧ c ≠ '\n' ∧ c ≠ '\r'

instance (c : Char) : Decidable (StandsForItself c) := inferInstanceAs (Decidable (_ ∧ _))

lemma closing?_cons {c : Char} (hc : StandsForItself c) (hne : c ≠ quote) (cs : List Char) :
    closing? quote 0 (c :: cs) = (closing? quote 0 cs).map (codeUnits c.toNat ++ ·) := by
  rw [closing?, if_neg hne, if_neg hc.1, if_neg (not_or.mpr hc.2)]

lemma standsForItself_of_closing? {c : Char} {cs : List Char} {us : List Nat} (hne : c ≠ quote)
    (hslash : c ≠ '\\') (h : closing? quote 0 (c :: cs) = some us) : StandsForItself c := by
  rw [closing?, if_neg hne, if_neg hslash] at h
  split at h
  · cases h
  · rename_i hend
    exact ⟨hslash, not_or.mp hend⟩

/-- The text as it stands between quotes that are escaped in it. -/
def escapedQuotes (quote : Char) (text : List Char) : List Char :=
  replaceEach (fun c => if c = quote then ['\\', quote] else [c]) text

lemma escapedQuotes_cons (quote c : Char) (text : List Char) : escapedQuotes quote (c :: text) =
    (if c = quote then ['\\', quote] else [c]) ++ escapedQuotes quote text := rfl

variable (hquote : quote = '\'' ∨ quote = '"')

include hquote

lemma mass_escapedQuotes (text : List Char) :
    mass quote (escapedQuotes quote text) = (units text).length := by
  induction text with
  | nil => rfl
  | cons c text ih =>
    rw [escapedQuotes_cons, mass_append, ih, units_cons, length_append]
    congr 1
    split
    · subst c
      rw [mass_cons_of_ne (backslash_ne_quote hquote), mass_quote_cons,
        length_codeUnits_quote hquote]
      rfl
    · rename_i hc
      rw [mass_cons_of_ne hc]
      rfl

/-- A backslash in a text between quotes is lost. -/
lemma length_backslash_bare {us : List Nat}
    (h : closing? quote 0 ('\\' :: (text ++ [quote])) = some us) :
    us.length ≤ (units text).length := by
  have hmass : ∀ t, mass quote (t ++ [quote]) ≤ (units t).length := by
    intro t
    have := mass_le quote t
    rw [mass_append, mass_quote_cons, mass_nil]
    omega
  rcases length_closing?_backslash hquote h with hlength | ⟨rest, vs, hrest, hvs, hlength⟩
  · exact Nat.le_trans hlength (hmass text)
  · cases text with
    | nil =>
      obtain ⟨-, rfl⟩ := List.cons.inj hrest
      cases hvs
    | cons c text =>
      obtain ⟨rfl, rfl⟩ := List.cons.inj hrest
      have hle := Nat.le_trans (length_closing?_le hquote hvs) (hmass text)
      rw [units_cons, length_append, length_codeUnits_quote hquote]
      omega

/-- It is lost also if the quotes in the text are escaped. -/
lemma length_backslash_escaped {us : List Nat}
    (h : closing? quote 0 ('\\' :: (escapedQuotes quote text ++ [quote])) = some us) :
    us.length ≤ (units text).length := by
  rcases length_closing?_backslash hquote h with hlength | ⟨rest, vs, hrest, hvs, hlength⟩
  · rwa [mass_append, mass_quote_cons, mass_nil, mass_escapedQuotes hquote] at hlength
  · -- an escaped quote does not stand at the start, so the backslash is in front of the last quote
    cases text with
    | nil =>
      obtain ⟨-, rfl⟩ := List.cons.inj hrest
      cases hvs
    | cons c text =>
      rw [escapedQuotes_cons] at hrest
      split at hrest
      · exact absurd (List.cons.inj hrest).1 (backslash_ne_quote hquote)
      · rename_i hc
        exact absurd (List.cons.inj hrest).1 hc

omit hquote in
/-- One character of a text that is to denote itself, if a backslash at its place would be lost. -/
lemma closing?_cons_iff {c : Char} {cs : List Char} (hne : c ≠ quote)
    (hloss : ∀ us, closing? quote 0 ('\\' :: cs) = some us → us.length ≤ (units text).length) :
    closing? quote 0 (c :: cs) = some (units (c :: text)) ↔
      StandsForItself c ∧ closing? quote 0 cs = some (units text) := by
  constructor
  · intro h
    have hc : StandsForItself c := by
      refine standsForItself_of_closing? hne ?_ h
      rintro rfl
      have hlength := hloss _ h
      have hunit := (length_codeUnits '\\'.toNat).1
      rw [units_cons, length_append] at hlength
      omega
    rw [closing?_cons hc hne] at h
    obtain ⟨us, hus, heq⟩ := Option.map_eq_some_iff.mp h
    rw [units_cons] at heq
    exact ⟨hc, by rw [hus, append_cancel_left heq]⟩
  · rintro ⟨hc, h⟩
    rw [closing?_cons hc hne, h]
    rfl

lemma closing?_escapedQuote (cs : List Char) :
    closing? quote 0 ('\\' :: quote :: cs) =
      (closing? quote 0 cs).map (codeUnits quote.toNat ++ ·) := by
  rcases hquote with rfl | rfl <;> rfl

/-- **A text between quotes denotes itself exactly if its characters stand for themselves and none
is the quote.** -/
lemma closing?_bare_iff (text : List Char) :
    closing? quote 0 (text ++ [quote]) = some (units text) ↔
      ∀ c ∈ text, StandsForItself c ∧ c ≠ quote := by
  induction text with
  | nil => simp [closing?]
  | cons c text ih =>
    rw [cons_append, forall_mem_cons]
    by_cases hc : c = quote
    · subst hc
      simp [closing?]
    · rw [closing?_cons_iff hc fun _ => length_backslash_bare hquote, ih]
      simp [hc]

/-- **If the quotes in it are escaped, it denotes itself exactly if all other characters do.** -/
lemma closing?_escaped_iff (text : List Char) :
    closing? quote 0 (escapedQuotes quote text ++ [quote]) = some (units text) ↔
      ∀ c ∈ text, StandsForItself c := by
  induction text with
  | nil => simp [escapedQuotes, replaceEach, closing?]
  | cons c text ih =>
    rw [escapedQuotes_cons, append_assoc, forall_mem_cons]
    split
    · subst c
      have hself : StandsForItself quote := by rcases hquote with rfl | rfl <;> decide
      rw [cons_append, singleton_append, closing?_escapedQuote hquote, units_cons,
        Option.map_eq_some_iff, ← ih]
      simp [hself]
    · rename_i hc
      rw [singleton_append, closing?_cons_iff hc fun _ => length_backslash_escaped hquote, ih]

end Quoting

end AmbientDecl.Text

import AmbientDecl.Json.Value
import AmbientDecl.Parsed

/-!
# Reading JSON documents

The reader takes a document character by character and stops at the first fault. A fault is kept
with the number of characters from it to the end of the document, which a reader knows without
counting from the start; `parse` turns it into a line and a column.

Beyond the standard the words `NaN`, `Infinity` and `-Infinity` are numbers. Of several members of
one name the last counts, at the place of the first. An integer of too many digits is not read.

All texts are sequences of Unicode scalar values, here and in the other modules. So an escape of
half a pair of UTF-16 units that stands alone is read as the replacement character.
-/

namespace AmbientDecl.Json

open Text Decimal

/-- What the reader misses or does not accept. -/
inductive Problem where
  | value
  | propertyName
  | colon
  | comma
  | extraData
  | unterminatedString
  | controlCharacter
  | badEscape
  | badUnicodeEscape
  | byteOrderMark
  /-- An integer that is too long to be read. -/
  | tooManyDigits (run : TooManyDigits)
deriving DecidableEq, Repr

def Problem.message : Problem → String
  | .value => "Expecting value"
  | .propertyName => "Expecting property name enclosed in double quotes"
  | .colon => "Expecting ':' delimiter"
  | .comma => "Expecting ',' delimiter"
  | .extraData => "Extra data"
  | .unterminatedString => "Unterminated string starting at"
  | .controlCharacter => "Invalid control character at"
  | .badEscape => "Invalid \\escape"
  | .badUnicodeEscape => "Invalid \\uXXXX escape"
  | .byteOrderMark => "Unexpected UTF-8 BOM (decode using utf-8-sig)"
  | .tooManyDigits run => run.message

/-- A problem and the number of characters from it to the end. -/
structure Stop where
  problem : Problem
  left : Nat

/-- What a reader makes of `cs`. -/
abbrev Read (α : Type) (cs : List Char) := Except Stop (Parsed Char α cs)

def isJsonBlank (c : Char) : Bool :=
  c == ' ' || c == '\t' || c == '\n' || c == '\r'

/-- The text without the white space it starts with. -/
def skipBlanks (cs : List Char) : List Char :=
  cs.dropWhile isJsonBlank

theorem length_skipBlanks_le (cs : List Char) : (skipBlanks cs).length ≤ cs.length :=
  length_dropWhile_le _ _

def hexValue? (c : Char) : Option Nat :=
  if '0' ≤ c ∧ c ≤ '9' then some (c.toNat - 48)
  else if 'a' ≤ c ∧ c ≤ 'f' then some (c.toNat - 87)
  else if 'A' ≤ c ∧ c ≤ 'F' then some (c.toNat - 55)
  else none

/-- Four hexadecimal digits and the text after them. -/
def hexUnit? : List Char → Option (Nat × List Char)
  | a :: b :: c :: d :: rest => do
    let a ← hexValue? a
    let b ← hexValue? b
    let c ← hexValue? c
    let d ← hexValue? d
    some (4096 * a + 256 * b + 16 * c + d, rest)
  | _ => none

/-- The character of a UTF-16 unit, or of the pair it starts; half a pair alone is replaced. -/
def unitChar (unit : Nat) (rest : List Char) : Char × List Char :=
  let alone := (if 0xd800 ≤ unit ∧ unit < 0xe000 then '�' else Char.ofNat unit, rest)
  if 0xd800 ≤ unit ∧ unit < 0xdc00 then
    match rest with
    | '\\' :: 'u' :: after =>
      match hexUnit? after with
      | some (low, rest) =>
        if 0xdc00 ≤ low ∧ low < 0xe000 then
          (Char.ofNat (0x10000 + 0x400 * (unit - 0xd800) + (low - 0xdc00)), rest)
        else alone
      | none => alone
    | _ => alone
  else alone

/-- The character that a letter after a backslash stands for. -/
def escapeLetter? (c : Char) : Option Char :=
  if c = '"' ∨ c = '\\' ∨ c = '/' then some c
  else if c = 'b' then some '\x08'
  else if c = 'f' then some '\x0c'
  else if c = 'n' then some '\n'
  else if c = 'r' then some '\r'
  else if c = 't' then some '\t'
  else none

/-- What follows a backslash in a string that starts `start` characters before the end. -/
def escapeSequence (start : Nat) (cs : List Char) : Read Char cs :=
  match cs with
  | [] => .error ⟨.unterminatedString, start⟩
  | c :: rest =>
    if c = 'u' then
      match (if rest.length ≤ 4 then none else hexUnit? rest) with
      | none => .error ⟨.badUnicodeEscape, rest.length + 1⟩
      | some (unit, after) =>
        match Parsed.ofRest? (unitChar unit after).1 (unitChar unit after).2 with
        | some p => .ok p
        | none => .error ⟨.badUnicodeEscape, rest.length + 1⟩
    else
      match escapeLetter? c with
      | some e => .ok ⟨e, rest, by simp⟩
      | none => .error ⟨.badEscape, rest.length + 2⟩

/-- The characters of a string up to its closing quote. -/
def stringBody (start : Nat) (cs : List Char) : Read (List Char) cs :=
  match cs with
  | [] => .error ⟨.unterminatedString, start⟩
  | c :: rest =>
    if c = '"' then .ok ⟨[], rest, by simp⟩
    else if c = '\\' then do
      let e ← escapeSequence start rest
      let tail ← stringBody start e.rest
      return ⟨e.value :: tail.value, tail.rest, by
        have h₁ := e.shorter; have h₂ := tail.shorter; simp only [List.length_cons]; omega⟩
    else if c.toNat < 32 then .error ⟨.controlCharacter, rest.length + 1⟩
    else do
      let tail ← stringBody start rest
      return ⟨c :: tail.value, tail.rest,
        by have h := tail.shorter; simp only [List.length_cons]; omega⟩
termination_by cs.length
decreasing_by
  · have h := e.shorter; simp only [List.length_cons]; omega
  · simp

/-- The number that digits write. -/
def digitsValue (ds : List Char) : Nat :=
  ds.foldl (fun n c => 10 * n + (c.toNat - 48)) 0

/-- The digits that stand before the point, and the text after them. -/
def wholePart? : List Char → Option (List Char × List Char)
  | [] => none
  | c :: rest =>
    if c = '0' then some ([c], rest)
    else if c.isDigit then some (c :: rest.takeWhile Char.isDigit, rest.dropWhile Char.isDigit)
    else none

/-- The digits that stand after a point, and the text after them. -/
def fractionPart : List Char → List Char × List Char
  | '.' :: rest =>
    match rest.takeWhile Char.isDigit with
    | [] => ([], '.' :: rest)
    | digits => (digits, rest.dropWhile Char.isDigit)
  | cs => ([], cs)

/-- The exponent after its mark, and the text after it. -/
def exponentPart (cs : List Char) : Option Int × List Char :=
  match cs with
  | [] => (none, cs)
  | e :: rest =>
    if e = 'e' ∨ e = 'E' then
      let (negative, digits) := match rest with
        | '-' :: r => (true, r)
        | '+' :: r => (false, r)
        | r => (false, r)
      match digits.takeWhile Char.isDigit with
      | [] => (none, cs)
      | ds =>
        let n : Int := digitsValue ds
        (some (if negative then -n else n), digits.dropWhile Char.isDigit)
    else (none, cs)

/-- A number and the text after it. -/
def number? (cs : List Char) : Option (Value × List Char) := do
  let (negative, unsigned) := match cs with
    | '-' :: rest => (true, rest)
    | _ => (false, cs)
  let (whole, afterWhole) ← wholePart? unsigned
  let (fraction, afterFraction) := fractionPart afterWhole
  let (exponent?, rest) := exponentPart afterFraction
  let digits := digitsValue (whole ++ fraction)
  if fraction.isEmpty && exponent?.isNone then
    some (.int (if negative then -(digits : Int) else digits), rest)
  else
    some (.float (.ofDecimal negative digits (exponent?.getD 0 - fraction.length)), rest)

/-- The digits of an integer that is too long to be read; no other number is. -/
def overlong? (cs : List Char) : Option TooManyDigits := do
  let unsigned := match cs with
    | '-' :: rest => rest
    | _ => cs
  let (whole, afterWhole) ← wholePart? unsigned
  let (fraction, afterFraction) := fractionPart afterWhole
  if fraction.isEmpty && (exponentPart afterFraction).1.isNone then tooManyDigits? whole else none

def wordValues : List (String × Value) :=
  [("null", .null), ("true", .bool true), ("false", .bool false), ("NaN", .float .notANumber),
   ("Infinity", .float (.infinite false)), ("-Infinity", .float (.infinite true))]

/-- A number or a word that is a value, and the text after it. -/
def scalar? (cs : List Char) : Option (Value × List Char) :=
  match wordValues.findSome? fun (word, v) =>
      (dropWord word.toList cs).map fun rest => (v, rest) with
  | some found => some found
  | none => number? cs

mutual

/-- A value at the front of the text. -/
def value (cs : List Char) : Read Value cs :=
  match cs with
  | [] => .error ⟨.value, 0⟩
  | c :: rest =>
    if c = '"' then do
      let body ← stringBody (rest.length + 1) rest
      return (body.map fun cs => .string (String.ofList cs)).within (by simp)
    else if c = '[' then
      match h : skipBlanks rest with
      | ']' :: after => .ok ⟨.array [], after, by
          have := length_skipBlanks_le rest
          rw [h] at this
          simp only [List.length_cons] at *
          omega⟩
      | _ => do
        let items ← elements (skipBlanks rest)
        return (items.map .array).within (by
          have := length_skipBlanks_le rest; simp only [List.length_cons]; omega)
    else if c = '\x7b' then
      match h : skipBlanks rest with
      | '\x7d' :: after => .ok ⟨.object [], after, by
          have := length_skipBlanks_le rest
          rw [h] at this
          simp only [List.length_cons] at *
          omega⟩
      | _ => do
        let all ← members (skipBlanks rest)
        return (all.map fun ms => .object (distinctMembers ms)).within (by
          have := length_skipBlanks_le rest; simp only [List.length_cons]; omega)
    else
      match overlong? (c :: rest), scalar? (c :: rest) with
      | some run, _ => .error ⟨.tooManyDigits run, rest.length + 1⟩
      | none, some (v, after) =>
        match Parsed.ofRest? v after with
        | some p => .ok p
        | none => .error ⟨.value, rest.length + 1⟩
      | none, none => .error ⟨.value, rest.length + 1⟩
termination_by (cs.length, 0)
decreasing_by
  all_goals
    have := length_skipBlanks_le rest
    simp only [List.length_cons, Prod.lex_def]; omega

/-- The items of an array from one of them to the closing bracket. -/
def elements (cs : List Char) : Read (List Value) cs := do
  let v ← value cs
  match h : skipBlanks v.rest with
  | ']' :: after => return ⟨[v.value], after, by
      have h₁ := length_skipBlanks_le v.rest; have h₂ := v.shorter
      rw [h] at h₁; simp only [List.length_cons] at h₁; omega⟩
  | ',' :: after => do
    let more ← elements (skipBlanks after)
    return ⟨v.value :: more.value, more.rest, by
      have h₁ := length_skipBlanks_le v.rest; have h₂ := v.shorter; have h₃ := more.shorter
      have h₄ := length_skipBlanks_le after
      rw [h] at h₁; simp only [List.length_cons] at h₁; omega⟩
  | other => throw ⟨.comma, other.length⟩
termination_by (cs.length, 1)
decreasing_by
  · exact Prod.Lex.right _ Nat.zero_lt_one
  · have h₁ := length_skipBlanks_le v.rest; have h₂ := v.shorter
    have h₃ := length_skipBlanks_le after
    rw [h] at h₁; simp only [List.length_cons] at h₁; simp only [Prod.lex_def]; omega

/-- The members of an object from one of them to the closing brace. -/
def members (cs : List Char) : Read (List (String × Value)) cs :=
  match cs with
  | '"' :: rest => do
    let key ← stringBody (rest.length + 1) rest
    match hk : skipBlanks key.rest with
    | ':' :: afterColon => do
      let v ← value (skipBlanks afterColon)
      let member := (String.ofList key.value, v.value)
      match h : skipBlanks v.rest with
      | '\x7d' :: after => return ⟨[member], after, by
          have h₁ := length_skipBlanks_le v.rest; have h₂ := v.shorter
          have h₃ := length_skipBlanks_le afterColon
          have h₄ := length_skipBlanks_le key.rest; have h₅ := key.shorter
          rw [h] at h₁; rw [hk] at h₄; simp only [List.length_cons] at *; omega⟩
      | ',' :: after => do
        let more ← members (skipBlanks after)
        return ⟨member :: more.value, more.rest, by
          have h₁ := length_skipBlanks_le v.rest; have h₂ := v.shorter
          have h₃ := length_skipBlanks_le afterColon
          have h₄ := length_skipBlanks_le key.rest; have h₅ := key.shorter
          have h₆ := more.shorter; have h₇ := length_skipBlanks_le after
          rw [h] at h₁; rw [hk] at h₄; simp only [List.length_cons] at *; omega⟩
      | other => throw ⟨.comma, other.length⟩
    | other => throw ⟨.colon, other.length⟩
  | other => throw ⟨.propertyName, other.length⟩
termination_by (cs.length, 1)
decreasing_by
  · have h₃ := length_skipBlanks_le afterColon
    have h₄ := length_skipBlanks_le key.rest; have h₅ := key.shorter
    rw [hk] at h₄; simp only [List.length_cons] at *; simp only [Prod.lex_def]; omega
  · have h₁ := length_skipBlanks_le v.rest; have h₂ := v.shorter
    have h₃ := length_skipBlanks_le afterColon
    have h₄ := length_skipBlanks_le key.rest; have h₅ := key.shorter
    have h₇ := length_skipBlanks_le after
    rw [h] at h₁; rw [hk] at h₄; simp only [List.length_cons] at *; simp only [Prod.lex_def]; omega

end

/-- What is wrong and where. -/
structure SyntaxFault where
  problem : Problem
  place : Place

def SyntaxFault.isOverlong (fault : SyntaxFault) : Bool :=
  match fault.problem with
  | .tooManyDigits _ => true
  | _ => false

/-- The problem and its place in words; that of an integer of too many digits has no place. -/
def SyntaxFault.message (fault : SyntaxFault) : String :=
  let place := fault.place
  if fault.isOverlong then fault.problem.message
  else s!"{fault.problem.message}: line {place.line} column {place.column} (char {place.offset})"

/-- The fault of a stop in a document. -/
def Stop.locate (document : List Char) (stop : Stop) : SyntaxFault :=
  ⟨stop.problem, .ofLeft document stop.left⟩

/-- The value of a document, and what stands after it. -/
def document (cs : List Char) : Except Stop Value := do
  if cs.head? = some '﻿' then throw ⟨.byteOrderMark, cs.length⟩
  let v ← value (skipBlanks cs)
  match skipBlanks v.rest with
  | [] => return v.value
  | rest => throw ⟨.extraData, rest.length⟩

/-- Reads a whole document. -/
def parse (text : String) : Except SyntaxFault Value :=
  match document text.toList with
  | .ok v => .ok v
  | .error stop => .error (stop.locate text.toList)

end AmbientDecl.Json

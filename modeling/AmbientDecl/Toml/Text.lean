import AmbientDecl.Json.Reader

/-!
# Texts and numbers of configuration files

A reader stops at the first fault of a document. A fault is kept with the number of characters from
it to the end of the document.

A text stands between quotes. Between double quotes a backslash starts an escape, between single
quotes everything is taken literally. Three quotes instead of one open a text that may have several
lines; a line feed right after them is left out, and up to two further quotes right before the
closing ones belong to the text.

Digits may have single underscores between them. An integer is written in decimal digits or, after
`0x`, `0o` or `0b`, in those of another base. A decimal number with a fraction or an exponent is a
floating-point number.

Dates and times are recognised, so that they are told from numbers, and a date that is in no
calendar is a fault. No setting is a moment, so nothing more is kept of one: it is read as no
number, which no setting takes.
-/

namespace AmbientDecl.Toml

open Text

/-- The names on the way to a value. -/
abbrev Path := List String

/-- A path in words. -/
def shownPath : Path → String
  | [name] => "(" ++ quoted name ++ ",)"
  | path => "(" ++ ", ".intercalate (path.map quoted) ++ ")"

/-- What is wrong with a document. -/
inductive Problem where
  | statement
  /-- Something stands after a statement on its line. -/
  | lineEnd
  | keyStart
  | equalsSign
  | value
  | moment
  | arrayEnd
  | inlineEnd
  | tableEnd
  | tableArrayEnd
  | unterminatedString
  | backslash
  | hexadecimal
  /-- An escape of a code point that is no character. -/
  | scalarValue
  /-- A word that ends a text is missing. -/
  | expected (word : List Char)
  /-- A character that cannot stand in a comment or in a text that is taken literally. -/
  | invalidCharacter (c : Char)
  /-- A character that cannot stand in a text with escapes. -/
  | illegalCharacter (c : Char)
  /-- A value stands where a table is needed, or has a value already. -/
  | overwriting
  | repeatedKey (name : String)
  | repeatedTable (path : Path)
  | reopenedTable (path : Path)
  | immutable (path : Path)
  /-- An integer that is too long to be read. -/
  | tooManyDigits (run : TooManyDigits)
deriving DecidableEq, Repr

def Problem.message : Problem → String
  | .statement => "Invalid statement"
  | .lineEnd => "Expected newline or end of document after a statement"
  | .keyStart => "Invalid initial character for a key part"
  | .equalsSign => "Expected '=' after a key in a key/value pair"
  | .value => "Invalid value"
  | .moment => "Invalid date or datetime"
  | .arrayEnd => "Unclosed array"
  | .inlineEnd => "Unclosed inline table"
  | .tableEnd => "Expected ']' at the end of a table declaration"
  | .tableArrayEnd => "Expected ']]' at the end of an array declaration"
  | .unterminatedString => "Unterminated string"
  | .backslash => "Unescaped '\\' in a string"
  | .hexadecimal => "Invalid hex value"
  | .scalarValue => "Escaped character is not a Unicode scalar value"
  | .expected word => s!"Expected {quoted (String.ofList word)}"
  | .invalidCharacter c => s!"Found invalid character {quoted (toString c)}"
  | .illegalCharacter c => s!"Illegal character {quoted (toString c)}"
  | .overwriting => "Cannot overwrite a value"
  | .repeatedKey name => s!"Duplicate inline table key {quoted name}"
  | .repeatedTable path => s!"Cannot declare {shownPath path} twice"
  | .reopenedTable path => s!"Cannot redefine namespace {shownPath path}"
  | .immutable path => s!"Cannot mutate immutable namespace {shownPath path}"
  | .tooManyDigits run => run.message

/-- A problem with how much of the document is left there. -/
structure Stop where
  problem : Problem
  left : Nat

/-- What a reader makes of `cs`. -/
abbrev Read (α : Type) (cs : List Char) := Except Stop (Parsed Char α cs)

/-- A problem at its place. -/
structure Fault where
  problem : Problem
  place : Option Place

def Fault.isOverlong (fault : Fault) : Bool :=
  match fault.problem with
  | .tooManyDigits _ => true
  | _ => false

/-- The problem and its place in words; that of an integer of too many digits has no place. -/
def Fault.message (fault : Fault) : String :=
  if fault.isOverlong then fault.problem.message
  else match fault.place with
    | some place => s!"{fault.problem.message} (at line {place.line}, column {place.column})"
    | none => s!"{fault.problem.message} (at end of document)"

def Stop.locate (document : List Char) (stop : Stop) : Fault :=
  ⟨stop.problem, if stop.left = 0 then none else some (.ofLeft document stop.left)⟩

/-- White space that does not end a line. -/
def isGap (c : Char) : Bool :=
  c == ' ' || c == '\t'

/-- White space, line ends included. -/
def isFiller (c : Char) : Bool :=
  isGap c || c == '\n'

/-- The control characters that no text and no comment may have. -/
def isForbidden (c : Char) : Bool :=
  (c.toNat < 32 && c != '\t') || c.toNat == 127

/-- The control characters that a text of several lines may not have. -/
def isForbiddenInLong (c : Char) : Bool :=
  isForbidden c && c != '\n'

/-- Stops at the first forbidden character of a text that starts `left` characters before the
end. -/
def checkChars (forbidden : Char → Bool) (left : Nat) : List Char → Except Stop Unit
  | [] => .ok ()
  | c :: rest =>
    if forbidden c then .error ⟨.invalidCharacter c, left⟩ else checkChars forbidden (left - 1) rest

def comment (cs : List Char) : Except Stop (Scanned Char Unit cs) :=
  match cs with
  | '#' :: rest => do
    checkChars isForbidden rest.length (rest.takeWhile (· != '\n'))
    return ⟨(), rest.dropWhile (· != '\n'), by
      have := length_dropWhile_le (· != '\n') rest
      simp only [List.length_cons]; omega⟩
  | cs => .ok ⟨(), cs, Nat.le_refl _⟩

/-- Passes over white space, line ends and comments. -/
def filler (cs : List Char) : Except Stop (Scanned Char Unit cs) := do
  let start := cs.dropWhile isFiller
  have hstart : start.length ≤ cs.length := length_dropWhile_le _ _
  let after ← comment start
  if h : after.rest.length < start.length then do
    let more ← filler after.rest
    return ⟨(), more.rest, by have := more.notLonger; omega⟩
  else return ⟨(), start, hstart⟩
termination_by cs.length

/-- The character that a letter after a backslash stands for. -/
def escapeLetter? (c : Char) : Option Char :=
  if c = '/' then none else Json.escapeLetter? c

/-- The character of a code point that `size` hexadecimal digits at the front write. -/
def hexadecimalChar (size : Nat) (cs : List Char) : Except Stop (Char × List Char) :=
  let digits := (cs.take size).filterMap Json.hexValue?
  if digits.length ≠ size then .error ⟨.hexadecimal, cs.length⟩
  else
    let code := digits.foldl (fun n d => 16 * n + d) 0
    if code.isValidChar then .ok (Char.ofNat code, cs.drop size)
    else .error ⟨.scalarValue, (cs.drop size).length⟩

/-- What follows a backslash. In a text of several lines the end of a line can follow it, which is
left out together with the white space before the next text. -/
def escapeSequence (long : Bool) (cs : List Char) : Read (List Char) cs :=
  match cs with
  | [] => .error ⟨.backslash, 0⟩
  | c :: rest =>
    if long && c == '\n' then
      .ok ⟨[], rest.dropWhile isFiller, by
        have := length_dropWhile_le isFiller rest
        simp only [List.length_cons]; omega⟩
    else if long && isGap c then
      match h : rest.dropWhile isGap with
      | [] => .ok ⟨[], [], by simp⟩
      | '\n' :: after => .ok ⟨[], after.dropWhile isFiller, by
          have h₁ := length_dropWhile_le isGap rest
          have h₂ := length_dropWhile_le isFiller after
          rw [h] at h₁; simp only [List.length_cons] at *; omega⟩
      | other => .error ⟨.backslash, other.length⟩
    else if c = 'u' || c = 'U' then do
      let (e, after) ← hexadecimalChar (if c = 'u' then 4 else 8) rest
      match Parsed.ofRest? [e] after with
      | some p => return p
      | none => throw ⟨.hexadecimal, rest.length⟩
    else
      match escapeLetter? c with
      | some e => .ok (.ofHead [e])
      | none => .error ⟨.backslash, rest.length⟩

/-- The characters of a text with escapes up to its closing quotes. -/
def basicBody (long : Bool) (cs : List Char) : Read (List Char) cs :=
  match cs with
  | [] => .error ⟨.unterminatedString, 0⟩
  | '"' :: rest =>
    if !long then .ok (.ofHead [])
    else match rest with
      | '"' :: '"' :: _ => .ok (Parsed.ofHead []).ofTail.ofTail
      | rest => do
        let body ← basicBody long rest
        return (body.map ('"' :: ·)).ofTail
  | '\\' :: rest => do
    let e ← escapeSequence long rest
    let body ← basicBody long e.rest
    return (e.andThen (body.map (e.value ++ ·))).ofTail
  | c :: rest =>
    if (if long then isForbiddenInLong c else isForbidden c) then
      .error ⟨.illegalCharacter c, rest.length + 1⟩
    else do
      let body ← basicBody long rest
      return (body.map (c :: ·)).ofTail
termination_by cs.length
decreasing_by
  · simp
  · have := e.shorter; simp only [List.length_cons]; omega
  · simp

def basicText (cs : List Char) : Except Stop (String × List Char) := do
  let body ← basicBody false cs
  return (String.ofList body.value, body.rest)

/-- The characters up to the word that closes a literal text. -/
def literalBody (closing : List Char) (forbidden : Char → Bool) (cs : List Char) :
    Except Stop (List Char × List Char) :=
  match cutWord closing cs with
  | none => .error ⟨.expected closing, 0⟩
  | some (body, after) => do
    checkChars forbidden cs.length body
    return (body, after)

def literalText (cs : List Char) : Except Stop (String × List Char) := do
  let (body, after) ← literalBody ['\''] isForbidden cs
  return (String.ofList body, after)

/-- A text with up to two quotes that stand after the closing ones, and the text after them. -/
def withFurtherQuotes (quote : Char) (body : List Char) (cs : List Char) : String × List Char :=
  let further := (cs.take 2).takeWhile (· == quote)
  (String.ofList (body ++ further), cs.drop further.length)

/-- Reads a text of several lines from after its first three quotes. -/
def longText (quote : Char) (cs : List Char) : Except Stop (String × List Char) := do
  let start := match cs with
    | '\n' :: rest => rest
    | _ => cs
  if quote = '"' then do
    let body ← basicBody true start
    return withFurtherQuotes quote body.value body.rest
  else do
    let (body, after) ← literalBody [quote, quote, quote] isForbiddenInLong start
    return withFurtherQuotes quote body after

open Json Text Decimal

/-- The digits after a first one, without the underscores between them, and the text after them. -/
def moreDigits (isDigit : Char → Bool) : List Char → List Char × List Char
  | [] => ([], [])
  | '_' :: c :: rest =>
    if isDigit c then
      let (digits, after) := moreDigits isDigit rest
      (c :: digits, after)
    else ([], '_' :: c :: rest)
  | c :: rest =>
    if isDigit c then
      let (digits, after) := moreDigits isDigit rest
      (c :: digits, after)
    else ([], c :: rest)

/-- The digits at the front, without the underscores between them, and the text after them. -/
def digits? (isDigit : Char → Bool) : List Char → Option (List Char × List Char)
  | [] => none
  | c :: rest =>
    if isDigit c then
      let (digits, after) := moreDigits isDigit rest
      some (c :: digits, after)
    else none

/-- The base that a letter after a zero stands for. -/
def baseOf? (c : Char) : Option Nat :=
  if c = 'x' then some 16 else if c = 'o' then some 8 else if c = 'b' then some 2 else none

/-- An integer in another base than ten, and the text after it. -/
def basedInteger? : List Char → Option (Value × List Char)
  | '0' :: c :: rest => do
    let base ← baseOf? c
    let (digits, after) ← digits? (fun d => (hexValue? d).any (· < base)) rest
    let n : Nat := (digits.filterMap hexValue?).foldl (fun n d => base * n + d) 0
    some (.int n, after)
  | _ => none

/-- The digits before the point, and the text after them. -/
def wholeDigits? : List Char → Option (List Char × List Char)
  | '0' :: rest => some (['0'], rest)
  | cs => digits? Char.isDigit cs

/-- The digits after a point, and the text after them. -/
def fractionDigits (cs : List Char) : List Char × List Char :=
  match cs with
  | '.' :: rest => (digits? Char.isDigit rest).getD ([], cs)
  | _ => ([], cs)

/-- The exponent after its mark, and the text after it. -/
def exponent? (cs : List Char) : Option (Int × List Char) :=
  match cs with
  | [] => none
  | e :: rest => do
    if e = 'e' || e = 'E' then
      let (negative, unsigned) := match rest with
        | '-' :: r => (true, r)
        | '+' :: r => (false, r)
        | r => (false, r)
      let (digits, after) ← digits? Char.isDigit unsigned
      let n : Int := digitsValue digits
      some (if negative then -n else n, after)
    else none

/-- The floating-point number of digits before and after the point and of an exponent. -/
def float (negative : Bool) (whole fraction : List Char) (exponent : Int) : Value :=
  .float (.ofDecimal negative (digitsValue (whole ++ fraction)) (exponent - fraction.length))

/-- A decimal number, and the text after it. -/
def decimalNumber? (cs : List Char) : Option (Except TooManyDigits Value × List Char) := do
  let (negative, unsigned) := match cs with
    | '-' :: rest => (true, rest)
    | '+' :: rest => (false, rest)
    | _ => (false, cs)
  let (whole, afterWhole) ← wholeDigits? unsigned
  let (fraction, afterFraction) := fractionDigits afterWhole
  match exponent? afterFraction, tooManyDigits? whole with
  | none, overlong? =>
    let n : Int := digitsValue whole
    if !fraction.isEmpty then some (.ok (float negative whole fraction 0), afterFraction)
    else match overlong? with
      | some run => some (.error run, afterFraction)
      | none => some (.ok (.int (if negative then -n else n)), afterFraction)
  | some (exponent, after), _ => some (.ok (float negative whole fraction exponent), after)

/-- The words for numbers that are no numbers or not finite. -/
def numberWords : List (String × Binary64) :=
  [("inf", .infinite false), ("+inf", .infinite false), ("-inf", .infinite true),
   ("nan", .notANumber), ("+nan", .notANumber), ("-nan", .notANumber)]

def number? (cs : List Char) : Option (Except TooManyDigits Value × List Char) :=
  match basedInteger? cs with
  | some (v, after) => some (.ok v, after)
  | none =>
    match decimalNumber? cs with
    | some found => some found
    | none => numberWords.findSome? fun (word, x) =>
        (dropWord word.toList cs).map fun after => (.ok (.float x), after)

/-- A number of `size` digits between two bounds, and the text after it. -/
def fixedNumber? (size least greatest : Nat) (cs : List Char) : Option (Nat × List Char) :=
  let digits := cs.take size
  let n := digitsValue digits
  if digits.length = size ∧ digits.all Char.isDigit ∧ least ≤ n ∧ n ≤ greatest then
    some (n, cs.drop size)
  else none

/-- A character and a number of two digits after it, and the text after them. -/
def markedNumber? (mark : Char) (least greatest : Nat) : List Char → Option (Nat × List Char)
  | c :: rest => if c = mark then fixedNumber? 2 least greatest rest else none
  | [] => none

/-- The text after a time of day. -/
def afterTime? (cs : List Char) : Option (List Char) := do
  let (_, rest) ← fixedNumber? 2 0 23 cs
  let (_, rest) ← markedNumber? ':' 0 59 rest
  let (_, rest) ← markedNumber? ':' 0 59 rest
  match rest with
  | '.' :: c :: after => some (if c.isDigit then after.dropWhile Char.isDigit else rest)
  | _ => some rest

/-- The text after the distance of a time zone, if there is one at the front. -/
def afterZone (cs : List Char) : List Char :=
  match cs with
  | 'Z' :: rest | 'z' :: rest => rest
  | c :: rest =>
    let zone? := do
      let (_, rest) ← fixedNumber? 2 0 23 rest
      markedNumber? ':' 0 59 rest
    match zone? with
    | some (_, after) => if c = '+' || c = '-' then after else cs
    | none => cs
  | [] => []

def daysOf (year month : Nat) : Nat :=
  if month = 2 then
    if year % 4 = 0 ∧ (year % 100 ≠ 0 ∨ year % 400 = 0) then 29 else 28
  else if [4, 6, 9, 11].contains month then 30
  else 31

/-- Whether a date is in the calendar, and the text after it; a time may follow it. -/
def dateWithTime? (cs : List Char) : Option (Bool × List Char) := do
  let (year, rest) ← fixedNumber? 4 0 9999 cs
  let (month, rest) ← markedNumber? '-' 1 12 rest
  let (day, rest) ← markedNumber? '-' 1 31 rest
  let after := match rest with
    | c :: time =>
      if c = 'T' || c = 't' || c = ' ' then ((afterTime? time).map afterZone).getD rest else rest
    | [] => rest
  some (year ≠ 0 && day ≤ daysOf year month, after)

/-- Reads a date, a time or both. -/
def moment? (cs : List Char) : Option (Bool × List Char) :=
  match dateWithTime? cs with
  | some found => some found
  | none => (afterTime? cs).map fun after => (true, after)

end AmbientDecl.Toml

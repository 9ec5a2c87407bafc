import AmbientDecl.Text.CharClass

/-!
# Cutting, quoting and comparing texts

Small operations on texts as lists of characters: cutting at the first or last occurrence of a
character or word, splitting at every occurrence of a character, and replacing.

A message shows a text between quotes, so that its ends and its invisible characters can be seen.
The quotes are single ones, or double ones when the text holds a single quote and no double one. A
backslash and the chosen quote are written with a backslash before them, the common line controls
by their letters, and any other character that is not printable by its code point.

A string literal of the declaration language stands between double quotes, with the quote, the
backslash and every character outside the printable ASCII range escaped. A character above the basic
plane is escaped by the two halves of its UTF-16 form. The same text is a string of a JSON document.

Two words are compared by what they have in common: their longest common piece, and in the same way
the words left of it and right of it. Twice the number of characters in common, divided by the
lengths of both words, is one for equal words and zero for words without a common character.
-/

namespace AmbientDecl.Text

/-- The pieces between the occurrences of a character. -/
def splitAt (sep : Char) : List Char → List (List Char)
  | [] => [[]]
  | c :: rest =>
    if c = sep then [] :: splitAt sep rest
    else match splitAt sep rest with
      | [] => [[c]]
      | piece :: pieces => (c :: piece) :: pieces

/-- What stands before and after the first occurrence of a character. -/
def cutFirst (sep : Char) : List Char → Option (List Char × List Char)
  | [] => none
  | c :: rest =>
    if c = sep then some ([], rest)
    else (cutFirst sep rest).map fun (before, after) => (c :: before, after)

/-- What stands before and after the last occurrence of a character. -/
def cutLast (sep : Char) (cs : List Char) : Option (List Char × List Char) :=
  (cutFirst sep cs.reverse).map fun (after, before) => (before.reverse, after.reverse)

/-- The rest of a text that starts with `word`. -/
def dropWord : List Char → List Char → Option (List Char)
  | [], cs => some cs
  | _ :: _, [] => none
  | w :: word, c :: cs => if w = c then dropWord word cs else none

/-- What stands before and after the first occurrence of a word. -/
def cutWord (word : List Char) : List Char → Option (List Char × List Char)
  | [] => (dropWord word []).map fun rest => ([], rest)
  | c :: cs =>
    match dropWord word (c :: cs) with
    | some rest => some ([], rest)
    | none => (cutWord word cs).map fun (before, after) => (c :: before, after)

/-- Every character replaced by a text. -/
def replaceEach (f : Char → List Char) (cs : List Char) : List Char :=
  cs.flatMap f

/-- The texts with `sep` between neighbours. -/
def joined (sep : String) (texts : List String) : String :=
  sep.intercalate texts

/-- A number in hexadecimal digits, with a fixed width. -/
def hexadecimal : (width : Nat) → Nat → List Char
  | 0, _ => []
  | width + 1, n => hexadecimal width (n / 16) ++ [Nat.digitChar (n % 16)]

/-- A character by its code point, in the shortest of the three forms that hold it. -/
def codePointEscape (c : Char) : List Char :=
  if c.toNat < 0x100 then '\\' :: 'x' :: hexadecimal 2 c.toNat
  else if c.toNat < 0x10000 then '\\' :: 'u' :: hexadecimal 4 c.toNat
  else '\\' :: 'U' :: hexadecimal 8 c.toNat

/-- A character as it stands between the quotes `quote`. -/
def quotedChar (quote c : Char) : List Char :=
  if c = '\\' ∨ c = quote then ['\\', c]
  else if c = '\n' then ['\\', 'n']
  else if c = '\r' then ['\\', 'r']
  else if c = '\t' then ['\\', 't']
  else if isPrintable c then [c]
  else codePointEscape c

/-- The quotes put around a text. -/
def quoteFor (cs : List Char) : Char :=
  if cs.contains '\'' && !cs.contains '"' then '"' else '\''

/-- A text as messages show it. -/
def quoted (s : String) : String :=
  let quote := quoteFor s.toList
  String.ofList (quote :: s.toList.flatMap (quotedChar quote) ++ [quote])

/-- An escape by one UTF-16 unit. -/
def unitEscape (unit : Nat) : List Char :=
  '\\' :: 'u' :: hexadecimal 4 unit

/-- A character by its UTF-16 units. -/
def unitsEscape (c : Char) : List Char :=
  if c.toNat < 0x10000 then unitEscape c.toNat
  else
    let offset := c.toNat - 0x10000
    unitEscape (0xd800 + offset / 0x400) ++ unitEscape (0xdc00 + offset % 0x400)

/-- A character as it stands in a string literal. -/
def literalChar (c : Char) : List Char :=
  if c = '"' ∨ c = '\\' then ['\\', c]
  else if c = '\n' then ['\\', 'n']
  else if c = '\r' then ['\\', 'r']
  else if c = '\t' then ['\\', 't']
  else if c = '\x08' then ['\\', 'b']
  else if c = '\x0c' then ['\\', 'f']
  else if 32 ≤ c.toNat ∧ c.toNat ≤ 126 then [c]
  else unitsEscape c

/-- The string literal of a text. -/
def stringLiteral (s : String) : String :=
  String.ofList ('"' :: s.toList.flatMap literalChar ++ ['"'])

/-- The length of the longest text that both texts start with. -/
def commonLead : List Char → List Char → Nat
  | a :: as, b :: bs => if a = b then commonLead as bs + 1 else 0
  | _, _ => 0

/-- A common piece of two texts: where it starts in each of them, and its length. -/
structure CommonPiece where
  left : Nat
  right : Nat
  length : Nat

/-- The longest common piece of two texts; of several the first in the first text, and of those the
first in the second. -/
def longestPiece (as bs : List Char) : CommonPiece :=
  let starts := (List.range as.length).flatMap fun i => (List.range bs.length).map fun j => (i, j)
  starts.foldl
    (fun best (i, j) =>
      let length := commonLead (as.drop i) (bs.drop j)
      if best.length < length then ⟨i, j, length⟩ else best) ⟨0, 0, 0⟩

/-- The number of characters in common. -/
def common (as bs : List Char) : Nat :=
  let piece := longestPiece as bs
  if _h : 0 < piece.length ∧ piece.left < as.length then
    common (as.take piece.left) (bs.take piece.right) + piece.length +
      common (as.drop (piece.left + piece.length)) (bs.drop (piece.right + piece.length))
  else 0
termination_by as.length
decreasing_by
  · simp only [piece] at _h; simp only [List.length_take]; omega
  · simp only [piece] at _h; simp only [List.length_drop]; omega

/-- A word with its similarity to another word, as a fraction. -/
structure RatedWord where
  word : String
  num : Nat
  den : Nat

def rated (other word : String) : RatedWord :=
  ⟨word, 2 * common word.toList other.toList, word.length + other.length⟩

/-- Whether a word comes after or with another one: by similarity, then by its characters. -/
def RatedWord.atLeast (a b : RatedWord) : Bool :=
  b.num * a.den < a.num * b.den || (b.num * a.den == a.num * b.den && decide (b.word ≤ a.word))

/-- The at most three words that are similar to a word by three fifths or more, the most similar
first. -/
def closeWords (words : List String) (word : String) : List String :=
  let close := (words.map (rated word)).filter fun r => 3 * r.den ≤ 5 * r.num
  ((close.mergeSort RatedWord.atLeast).take 3).map (·.word)

end AmbientDecl.Text

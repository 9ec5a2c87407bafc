/-!
# Classes of characters

A property of the Unicode character database is a finite union of intervals of code points. This
file fixes that representation and gives the two large classes, of version 14.0: word characters and
printable characters. Above ASCII they are tables of runs: how many code points are left out, how
many follow that belong to the class, and so on in turn.

White space is the class of characters that trimming removes and that separates tokens: the tab
and line controls, the four information separators, the space and the space characters of Unicode.

A line ends at one of a smaller class of characters, a carriage return followed by a line feed
counting as one end. Text files end their lines in three ways, and readers see line feeds only. A
reader that meets a fault knows how many characters are left, and from that number and the document
follows the place, as people count it.

Two classes of digit are told apart. A *decimal digit* is a character of a script's row of ten
digits, so it has a value from zero to nine and numbers can be written with it. A *digit character*
is a decimal digit or one of the digits that stand alone, such as superscripts and circled digits.

Letters have a lower case by the simple mapping of the Unicode character database. Two letters are
apart: a capital i with a dot keeps its dot as a mark of its own, and a capital sigma at the end of
a word has a form of its own.
-/

namespace AmbientDecl.Text

/-- Intervals of code points, both ends included. -/
abbrev CharRanges := List (Nat × Nat)

/-- Whether a character lies in one of the intervals. -/
def CharRanges.contains (ranges : CharRanges) (c : Char) : Bool :=
  ranges.any fun range => range.1 ≤ c.toNat && c.toNat ≤ range.2

@[simp] theorem CharRanges.contains_nil (c : Char) : CharRanges.contains [] c = false := rfl

theorem CharRanges.contains_cons (range : Nat × Nat) (ranges : CharRanges) (c : Char) :
    CharRanges.contains (range :: ranges) c =
      ((range.1 ≤ c.toNat && c.toNat ≤ range.2) || CharRanges.contains ranges c) := rfl

/-- The intervals of a table of runs that starts at the code point `start`. -/
def CharRanges.ofRuns (start : Nat) : List Nat → CharRanges
  | skipped :: length :: runs =>
    (start + skipped, start + skipped + length - 1) :: ofRuns (start + skipped + length) runs
  | _ => []

/-- The word characters above ASCII: letters and numerals of every script. -/
def wordRanges : CharRanges := CharRanges.ofRuns 0
  [170,1,7,2,1,1,3,2,1,3,1,23,1,31,1,458,4,12,14,5,7,1,1,1,129,5,1,2,2,4,1,1,6,1,1,3,1,1,1,20,1,83,
   1,139,8,166,1,38,2,1,6,41,71,27,4,4,45,43,21,10,4,2,1,99,1,1,15,2,7,15,2,1,16,1,1,30,29,89,11,1,
   14,43,9,2,4,1,5,22,4,1,9,1,3,1,23,25,7,11,5,24,1,6,17,42,58,54,3,1,18,1,7,10,4,10,1,16,4,8,2,2,2,
   22,1,7,1,1,3,4,3,1,16,1,13,2,1,3,4,12,2,6,2,1,8,6,4,2,2,22,1,7,1,2,1,2,1,2,31,4,1,1,7,10,2,3,16,
   9,1,3,1,22,1,7,1,2,1,5,3,1,18,1,15,2,4,10,9,1,11,8,2,2,2,22,1,7,1,2,1,5,3,1,30,2,1,3,4,10,1,7,11,
   1,1,6,3,3,1,4,3,2,1,1,1,2,3,2,3,3,3,12,22,1,21,13,18,8,1,3,1,23,1,16,3,1,26,3,2,1,2,2,4,10,8,7,1,
   1,4,8,1,3,1,23,1,10,1,5,3,1,31,2,1,2,4,10,1,2,17,9,1,3,1,41,2,1,16,1,5,3,1,10,4,19,1,6,5,18,3,24,
   1,9,1,1,2,7,31,10,17,48,1,2,12,7,9,10,39,2,1,1,1,5,1,24,1,1,1,10,1,2,9,1,2,5,1,1,9,10,2,4,32,1,
   31,20,12,8,1,36,27,5,115,43,20,11,6,6,4,4,3,1,3,2,7,3,4,13,12,1,1,10,6,38,1,1,5,1,2,43,1,333,1,4,
   2,7,1,1,1,4,2,41,1,4,2,33,1,4,2,7,1,1,1,4,2,15,1,57,1,4,2,67,14,20,3,16,16,86,2,6,3,620,2,17,1,
   26,5,75,3,11,7,18,13,19,14,18,14,13,1,3,15,52,35,1,4,1,3,10,6,10,22,10,6,89,7,5,2,34,1,1,5,70,10,
   31,39,40,2,5,11,44,4,26,6,11,37,23,9,53,43,10,6,10,13,1,93,47,17,8,3,10,41,30,13,56,26,36,28,10,
   3,49,2,9,7,43,2,3,41,4,1,6,1,2,3,1,5,192,64,278,2,6,2,38,2,6,2,8,1,1,1,1,1,1,1,31,2,53,1,7,1,1,3,
   3,1,7,3,4,2,6,4,13,5,3,1,7,115,2,2,6,5,11,6,13,101,1,4,1,2,10,1,1,3,5,6,1,1,1,1,1,1,4,1,11,2,4,5,
   5,4,1,1,58,726,60,78,22,630,30,1132,229,6,4,3,2,9,1,2,38,1,1,5,1,2,56,7,1,16,23,9,7,1,7,1,7,1,7,
   1,7,1,7,1,7,1,7,80,1,469,3,25,9,7,5,2,5,4,86,6,3,1,90,1,4,5,43,1,94,3,4,10,32,48,16,32,10,30,8,1,
   15,32,10,39,15,320,6592,64,22157,67,46,2,269,3,28,20,47,16,31,2,80,39,9,2,103,2,64,5,2,1,1,1,5,
   24,16,1,3,1,4,1,23,13,6,10,52,14,50,28,10,24,6,3,1,1,2,1,38,10,23,25,29,7,47,28,11,6,5,1,25,1,41,
   23,3,1,8,4,10,6,23,3,1,3,50,1,1,3,2,2,5,2,1,1,1,24,3,2,11,7,3,12,6,2,6,2,6,9,7,1,7,1,43,1,14,6,
   115,13,10,6,11172,12,23,4,49,8452,366,2,106,38,7,12,5,5,1,1,10,1,13,1,5,1,1,1,2,1,2,1,108,33,363,
   18,64,2,54,40,12,116,5,1,135,19,10,7,26,6,26,11,89,3,6,2,6,2,6,2,3,35,12,1,26,1,19,1,2,1,15,2,14,
   34,123,12,45,12,57,17,2,244,29,3,49,16,27,4,36,9,30,5,38,10,30,2,36,4,8,1,5,42,158,2,10,6,36,4,
   36,4,40,8,52,12,11,1,15,1,7,1,2,1,11,1,15,1,7,1,2,67,311,9,22,10,8,24,6,1,42,1,9,69,6,2,1,1,44,1,
   2,3,1,2,23,2,31,2,38,8,9,48,19,1,2,5,33,4,26,70,56,4,20,2,47,15,4,1,3,1,29,10,9,23,31,1,32,32,8,
   1,28,6,5,16,54,10,22,2,27,5,26,23,7,80,73,55,51,13,51,7,42,12,10,294,31,1,42,6,2,78,40,8,22,11,4,
   27,18,46,28,20,23,12,53,26,30,1,2,2,1,13,45,32,25,7,10,9,36,15,10,4,1,2,1,8,35,3,1,12,48,14,4,11,
   11,1,1,4,20,11,18,1,25,84,7,1,1,1,4,1,15,1,10,7,47,17,10,11,8,2,2,2,22,1,7,1,2,1,5,3,1,18,1,12,5,
   158,53,18,4,5,10,5,3,30,48,20,2,1,1,8,10,166,47,41,4,36,48,20,1,11,10,38,43,13,1,7,10,54,27,21,
   12,4,7,185,44,116,83,12,8,2,1,2,8,1,2,1,24,15,1,1,1,14,10,70,8,2,39,16,1,1,1,28,1,10,40,7,1,21,1,
   11,46,19,1,18,73,263,9,1,37,17,1,15,29,5,30,112,7,1,2,1,38,21,1,9,10,6,6,1,2,1,32,14,1,7,10,310,
   19,189,1,15,21,43,922,102,111,17,196,2636,97,15,1071,4049,583,8633,569,7,31,1,10,6,79,1,10,6,30,
   18,48,16,4,12,10,1,7,1,21,5,19,688,87,105,75,5,1,66,13,64,2,1,1,28,6136,8,1238,42,9,8935,4,1,7,1,
   2,1,291,45,3,17,4,8,396,2308,107,5,13,3,9,7,10,5702,20,108,25,135,85,1,71,1,2,2,1,2,2,2,4,1,12,1,
   1,1,7,1,65,1,4,2,8,1,7,1,28,1,4,1,5,1,1,3,7,1,340,2,25,1,25,1,31,1,25,1,31,1,25,1,31,1,25,1,31,1,
   25,1,8,2,50,1792,31,481,45,10,7,2,10,4,1,321,30,18,44,4,10,1254,7,1,4,1,2,1,15,1,197,2,9,48,68,7,
   1,4,10,791,59,1,3,1,4,76,45,1,15,194,4,1,27,1,2,1,1,2,1,1,10,1,4,1,1,1,1,6,1,4,1,1,1,1,1,1,3,1,2,
   1,1,2,1,1,1,1,1,1,1,1,1,1,2,1,1,2,4,1,7,1,4,1,4,1,1,1,10,1,17,5,3,1,5,1,17,580,13,2787,10,1030,
   42720,32,4153,7,222,2,5762,14,7473,3103,542,1506,4939]

/-- Letters, numerals and the underscore: the characters that may stand inside a word. -/
def isWord (c : Char) : Bool :=
  c.isAlphanum || c == '_' || (128 ≤ c.toNat && wordRanges.contains c)

/-- The printable characters above ASCII: no controls, format characters, separators, private
characters and code points without a character. -/
def printableRanges : CharRanges := CharRanges.ofRuns 0
  [161,12,1,714,2,6,4,7,1,1,1,20,1,397,1,38,2,50,2,3,1,55,8,27,4,6,17,22,1,192,1,48,2,59,2,101,14,
   59,2,49,2,15,1,28,2,1,1,11,5,31,9,74,1,161,1,8,2,2,2,22,1,7,1,1,3,4,2,9,2,2,2,4,8,1,4,2,1,5,2,25,
   2,3,1,6,4,2,2,22,1,7,1,2,1,2,1,2,2,1,1,5,4,2,2,3,3,1,7,4,1,1,7,17,10,3,1,9,1,3,1,22,1,7,1,2,1,5,
   2,10,1,3,1,3,2,1,15,4,2,12,7,7,1,3,1,8,2,2,2,22,1,7,1,2,1,5,2,9,2,2,2,3,7,3,4,2,1,5,2,18,10,2,1,
   6,3,3,1,4,3,2,1,1,1,2,3,2,3,3,3,12,4,5,3,3,1,4,2,1,6,1,14,21,5,13,1,3,1,23,1,16,2,9,1,3,1,4,7,2,
   1,3,2,1,2,4,2,10,7,22,1,3,1,23,1,10,1,5,2,9,1,3,1,4,7,2,6,2,1,4,2,10,1,2,13,13,1,3,1,51,1,3,1,6,
   4,16,2,26,1,3,1,18,3,24,1,9,1,1,2,7,3,1,4,6,1,1,1,8,6,10,2,3,12,58,4,29,37,2,1,1,1,5,1,24,1,1,1,
   23,2,5,1,1,1,6,2,10,2,4,32,72,1,36,4,39,1,36,1,15,1,13,37,198,1,1,5,1,2,377,1,4,2,7,1,1,1,4,2,41,
   1,4,2,33,1,4,2,7,1,1,1,4,2,15,1,57,1,4,2,67,2,32,3,26,6,86,2,6,2,640,1,28,3,89,7,22,9,24,9,20,12,
   13,1,3,1,2,12,94,2,10,6,10,6,14,1,11,6,89,7,43,5,70,10,31,1,12,4,12,4,1,3,42,2,5,11,44,4,26,6,11,
   3,62,2,65,1,29,2,11,6,10,6,14,2,31,49,77,3,47,1,116,8,60,3,15,3,60,7,43,2,11,8,43,5,534,2,6,2,38,
   2,6,2,8,1,1,1,1,1,1,1,31,2,53,1,15,1,14,2,6,1,19,2,3,1,9,17,24,8,47,17,2,2,27,1,13,3,33,15,33,15,
   140,4,663,25,11,21,1812,2,32,1,349,5,45,1,1,5,1,2,56,7,2,14,24,9,7,1,7,1,7,1,7,1,7,1,7,1,7,1,7,1,
   126,34,26,1,89,12,214,26,12,5,63,1,86,2,103,5,43,1,94,1,84,12,47,1,29293,3,55,9,348,20,184,8,203,
   5,2,1,1,1,5,24,59,3,10,6,56,8,70,8,12,6,116,11,30,3,78,1,11,4,33,1,55,9,14,2,10,2,103,24,28,10,6,
   2,6,2,6,9,7,1,7,1,60,4,126,2,10,6,11172,12,23,4,49,8452,366,2,106,38,7,12,5,5,26,1,5,1,1,1,2,1,2,
   1,125,16,445,2,54,7,1,32,42,6,51,1,19,1,4,4,5,1,135,4,190,3,6,2,6,2,6,2,3,3,7,1,7,13,2,2,12,1,26,
   1,19,1,2,1,15,2,14,34,123,5,3,4,45,3,88,1,13,3,1,47,46,130,29,3,49,15,28,4,36,9,30,5,43,5,30,1,
   37,4,14,42,158,2,10,6,36,4,36,4,40,8,52,11,12,1,15,1,7,1,2,1,11,1,15,1,7,1,2,67,311,9,22,10,8,24,
   6,1,42,1,9,69,6,2,1,1,44,1,2,3,1,2,23,1,72,8,9,48,19,1,2,5,33,3,27,5,1,64,56,4,20,2,50,1,2,5,8,1,
   3,1,29,2,3,4,10,7,9,7,64,32,39,4,12,9,54,3,29,2,27,5,26,7,4,12,7,80,73,55,51,13,51,7,46,8,10,294,
   31,1,42,1,3,2,2,78,40,8,42,22,26,38,28,20,23,9,78,4,36,9,62,1,5,13,25,7,10,6,53,1,18,8,39,9,96,1,
   20,11,18,1,44,65,7,1,1,1,4,1,15,1,11,6,59,5,10,6,4,1,8,2,2,2,22,1,7,1,2,1,5,1,10,2,2,2,3,2,1,6,1,
   5,7,2,7,3,5,139,92,1,5,30,72,8,10,166,54,2,38,34,69,11,10,6,13,19,58,6,10,54,27,2,15,4,23,185,60,
   100,83,12,8,2,1,2,8,1,2,1,30,1,2,2,12,9,10,70,8,2,46,2,11,27,72,8,83,13,73,263,9,1,45,1,14,10,29,
   3,32,2,22,1,14,73,7,1,2,1,44,3,1,1,2,1,9,8,10,6,6,1,2,1,37,1,2,1,6,7,10,310,25,183,1,15,50,13,
   923,102,111,1,5,11,196,2636,99,13,1071,4049,583,8633,569,7,31,1,10,4,81,1,10,6,30,2,6,10,70,10,
   10,1,7,1,21,5,19,688,91,101,75,4,57,7,17,64,5,11,2,14,6136,8,1238,42,9,8935,4,1,7,1,2,1,291,45,3,
   17,4,8,396,2308,107,5,13,3,9,7,10,2,4,4704,46,2,23,9,116,60,246,10,39,2,74,8,112,21,70,154,20,12,
   87,9,25,135,85,1,71,1,2,2,1,2,2,2,4,1,12,1,1,1,7,1,65,1,4,2,8,1,7,1,28,1,4,1,5,1,1,3,7,1,340,2,
   292,2,702,15,5,1,15,1104,31,225,7,1,17,2,7,1,2,1,5,213,45,3,14,2,10,4,2,320,31,17,58,5,1,1248,7,
   1,4,1,2,1,15,1,197,2,16,41,76,4,10,4,2,785,68,76,61,194,4,1,27,1,2,1,1,2,1,1,10,1,4,1,1,1,1,6,1,
   4,1,1,1,1,1,1,3,1,2,1,1,2,1,1,1,1,1,1,1,1,1,1,2,1,1,2,4,1,7,1,4,1,4,1,1,1,10,1,17,5,3,1,5,1,17,
   52,2,270,44,4,100,12,15,2,15,1,15,1,37,10,174,56,29,13,44,4,9,7,2,14,6,154,984,5,16,3,13,3,116,
   12,89,7,12,4,1,15,12,4,56,8,10,6,40,8,30,2,2,78,340,12,14,2,5,3,5,3,7,9,29,3,11,5,6,10,10,6,8,8,
   7,9,147,1,55,37,10,1030,42720,32,4153,7,222,2,5762,14,7473,3103,542,1506,4939,716213,240]

/-- Whether a message can show a character as it is. -/
def isPrintable (c : Char) : Bool :=
  (32 ≤ c.toNat && c.toNat ≤ 126) || (128 ≤ c.toNat && printableRanges.contains c)

def blankRanges : CharRanges :=
  [(0x9, 0xd), (0x1c, 0x20), (0x85, 0x85), (0xa0, 0xa0), (0x1680, 0x1680), (0x2000, 0x200a),
   (0x2028, 0x2029), (0x202f, 0x202f), (0x205f, 0x205f), (0x3000, 0x3000)]

/-- The characters that trimming removes. -/
def isBlank (c : Char) : Bool :=
  blankRanges.contains c

/-- The text without the white space in front. -/
def trimLeft (cs : List Char) : List Char :=
  cs.dropWhile isBlank

/-- The text without the white space behind. -/
def trimRight (cs : List Char) : List Char :=
  (cs.reverse.dropWhile isBlank).reverse

/-- The text without the white space around it. -/
def trim (cs : List Char) : List Char :=
  trimRight (trimLeft cs)

/-- Whether a character is white space and no information separator. -/
def isSpace (c : Char) : Bool :=
  isBlank c && !(0x1c ≤ c.toNat && c.toNat ≤ 0x1f)

/-- The text without the white space around it, up to the first information separator. -/
def trimSpace (cs : List Char) : List Char :=
  ((cs.dropWhile isSpace).reverse.dropWhile isSpace).reverse

def lineEndRanges : CharRanges :=
  [(0xa, 0xd), (0x1c, 0x1e), (0x85, 0x85), (0x2028, 0x2029)]

/-- The characters that end a line. -/
def isLineEnd (c : Char) : Bool :=
  lineEndRanges.contains c

/-- The lines of a text of which `current`, read backwards, is the start of the first. -/
def linesFrom (current : List Char) : List Char → List (List Char)
  | [] => if current.isEmpty then [] else [current.reverse]
  | '\r' :: '\n' :: rest => current.reverse :: linesFrom [] rest
  | c :: rest =>
    if isLineEnd c then current.reverse :: linesFrom [] rest else linesFrom (c :: current) rest

/-- The lines of a text; an end at the very end of the text opens no further line. -/
def lines (cs : List Char) : List (List Char) :=
  linesFrom [] cs

def stripped (s : String) : String :=
  String.ofList (trim s.toList)

def strippedRight (s : String) : String :=
  String.ofList (trimRight s.toList)

/-- The characters with a line feed for every carriage return, alone or before a line feed. -/
def lineFeedChars : List Char → List Char
  | '\r' :: '\n' :: rest => '\n' :: lineFeedChars rest
  | '\r' :: rest => '\n' :: lineFeedChars rest
  | c :: rest => c :: lineFeedChars rest
  | [] => []

/-- The text with every line ended by a line feed. -/
def toLineFeeds (s : String) : String :=
  String.ofList (lineFeedChars s.toList)

/-- The characters with a line feed for every carriage return before a line feed. -/
def joinedLineEnds : List Char → List Char
  | '\r' :: '\n' :: rest => '\n' :: joinedLineEnds rest
  | c :: rest => c :: joinedLineEnds rest
  | [] => []

/-- A place in a document: line and column, counted from one, and the number of characters before
it. -/
structure Place where
  line : Nat
  column : Nat
  offset : Nat
deriving DecidableEq, Repr

/-- The place in a document with `left` characters from it to the end. -/
def Place.ofLeft (document : List Char) (left : Nat) : Place :=
  let offset := document.length - left
  let before := document.take offset
  { line := before.count '\n' + 1
    column := (before.reverse.takeWhile (· != '\n')).length + 1
    offset := offset }

/-- The rows of decimal digits above ASCII; the length of every row is a multiple of ten. -/
def decimalRanges : CharRanges :=
  [(0x660, 0x669), (0x6f0, 0x6f9), (0x7c0, 0x7c9), (0x966, 0x96f), (0x9e6, 0x9ef), (0xa66, 0xa6f),
   (0xae6, 0xaef), (0xb66, 0xb6f), (0xbe6, 0xbef), (0xc66, 0xc6f), (0xce6, 0xcef), (0xd66, 0xd6f),
   (0xde6, 0xdef), (0xe50, 0xe59), (0xed0, 0xed9), (0xf20, 0xf29), (0x1040, 0x1049),
   (0x1090, 0x1099), (0x17e0, 0x17e9), (0x1810, 0x1819), (0x1946, 0x194f), (0x19d0, 0x19d9),
   (0x1a80, 0x1a89), (0x1a90, 0x1a99), (0x1b50, 0x1b59), (0x1bb0, 0x1bb9), (0x1c40, 0x1c49),
   (0x1c50, 0x1c59), (0xa620, 0xa629), (0xa8d0, 0xa8d9), (0xa900, 0xa909), (0xa9d0, 0xa9d9),
   (0xa9f0, 0xa9f9), (0xaa50, 0xaa59), (0xabf0, 0xabf9), (0xff10, 0xff19), (0x104a0, 0x104a9),
   (0x10d30, 0x10d39), (0x11066, 0x1106f), (0x110f0, 0x110f9), (0x11136, 0x1113f),
   (0x111d0, 0x111d9), (0x112f0, 0x112f9), (0x11450, 0x11459), (0x114d0, 0x114d9),
   (0x11650, 0x11659), (0x116c0, 0x116c9), (0x11730, 0x11739), (0x118e0, 0x118e9),
   (0x11950, 0x11959), (0x11c50, 0x11c59), (0x11d50, 0x11d59), (0x11da0, 0x11da9),
   (0x16a60, 0x16a69), (0x16ac0, 0x16ac9), (0x16b50, 0x16b59), (0x1d7ce, 0x1d7ff),
   (0x1e140, 0x1e149), (0x1e2f0, 0x1e2f9), (0x1e950, 0x1e959), (0x1fbf0, 0x1fbf9)]

/-- The digit characters that belong to no row of ten. -/
def loneDigitRanges : CharRanges :=
  [(0xb2, 0xb3), (0xb9, 0xb9), (0x1369, 0x1371), (0x19da, 0x19da), (0x2070, 0x2070),
   (0x2074, 0x2079), (0x2080, 0x2089), (0x2460, 0x2468), (0x2474, 0x247c), (0x2488, 0x2490),
   (0x24ea, 0x24ea), (0x24f5, 0x24fd), (0x24ff, 0x24ff), (0x2776, 0x277e), (0x2780, 0x2788),
   (0x278a, 0x2792), (0x10a40, 0x10a43), (0x10e60, 0x10e68), (0x11052, 0x1105a), (0x1f100, 0x1f10a)]

def isDecimal (c : Char) : Bool :=
  c.isDigit || decimalRanges.contains c

def isDigitLike (c : Char) : Bool :=
  isDecimal c || loneDigitRanges.contains c

def decimalValue (c : Char) : Nat :=
  if c.isDigit then c.toNat - 48
  else match decimalRanges.find? (fun row => row.1 ≤ c.toNat && c.toNat ≤ row.2) with
    | some row => (c.toNat - row.1) % 10
    | none => 0

/-- Reads a run of decimal digits. -/
def decimalNumber (digits : List Char) : Nat :=
  digits.foldl (fun n c => 10 * n + decimalValue c) 0

def digitLimit : Nat := 4300

/-- A run is too long to be read as a number. -/
structure TooManyDigits where
  count : Nat
deriving DecidableEq, Repr

/-- What is said about a run of too many digits. -/
def TooManyDigits.message (run : TooManyDigits) : String :=
  s!"Exceeds the limit ({digitLimit} digits) for integer string conversion: " ++
    s!"value has {run.count} digits; use sys.set_int_max_str_digits() to increase the limit"

def tooManyDigits? (digits : List Char) : Option TooManyDigits :=
  if digitLimit < digits.length then some ⟨digits.length⟩ else none

/-- The capital letters above ASCII that stand right before their small letters: runs in which the
two take turns. -/
def pairedRanges : CharRanges := CharRanges.ofRuns 0
  [256, 47, 3, 5, 2, 15, 2, 45, 2, 5, 4, 3, 2, 1, 3, 1, 5, 1, 6, 1, 7, 5, 2, 1, 4, 1, 2, 1, 3, 3, 2,
   1, 3, 1, 8, 1, 2, 1, 2, 17, 2, 17, 3, 3, 3, 39, 3, 17, 8, 1, 5, 1, 4, 9, 289, 3, 3, 1, 97, 23, 8,
   1, 2, 1, 101, 33, 9, 53, 2, 13, 2, 95, 6353, 149, 11, 95, 644, 1, 2780, 1, 6, 5, 6, 1, 2, 1, 10,
   99, 8, 3, 4, 1, 31053, 45, 19, 27, 135, 13, 3, 61, 10, 3, 2, 9, 4, 1, 4, 3, 3, 19, 11, 15, 4, 3,
   6, 1, 5, 3, 28, 1]

/-- The other capital letters above ASCII: the first of a run, the length of the run, and the
distance to the small letters. -/
def capitalRuns : List (Nat × Nat × Int) :=
  [(0xc0, 23, 32), (0xd8, 7, 32), (0x178, 1, -121), (0x181, 1, 210), (0x186, 1, 206),
   (0x189, 2, 205), (0x18e, 1, 79), (0x18f, 1, 202), (0x190, 1, 203), (0x193, 1, 205),
   (0x194, 1, 207), (0x196, 1, 211), (0x197, 1, 209), (0x19c, 1, 211), (0x19d, 1, 213),
   (0x19f, 1, 214), (0x1a6, 1, 218), (0x1a9, 1, 218), (0x1ae, 1, 218), (0x1b1, 2, 217),
   (0x1b7, 1, 219), (0x1c4, 1, 2), (0x1c7, 1, 2), (0x1ca, 1, 2), (0x1f1, 1, 2), (0x1f6, 1, -97),
   (0x1f7, 1, -56), (0x220, 1, -130), (0x23a, 1, 10795), (0x23d, 1, -163), (0x23e, 1, 10792),
   (0x243, 1, -195), (0x244, 1, 69), (0x245, 1, 71), (0x37f, 1, 116), (0x386, 1, 38),
   (0x388, 3, 37), (0x38c, 1, 64), (0x38e, 2, 63), (0x391, 17, 32), (0x3a3, 9, 32), (0x3cf, 1, 8),
   (0x3f4, 1, -60), (0x3f9, 1, -7), (0x3fd, 3, -130), (0x400, 16, 80), (0x410, 32, 32),
   (0x4c0, 1, 15), (0x531, 38, 48), (0x10a0, 38, 7264), (0x10c7, 1, 7264), (0x10cd, 1, 7264),
   (0x13a0, 80, 38864), (0x13f0, 6, 8), (0x1c90, 43, -3008), (0x1cbd, 3, -3008), (0x1e9e, 1, -7615),
   (0x1f08, 8, -8), (0x1f18, 6, -8), (0x1f28, 8, -8), (0x1f38, 8, -8), (0x1f48, 6, -8),
   (0x1f59, 1, -8), (0x1f5b, 1, -8), (0x1f5d, 1, -8), (0x1f5f, 1, -8), (0x1f68, 8, -8),
   (0x1f88, 8, -8), (0x1f98, 8, -8), (0x1fa8, 8, -8), (0x1fb8, 2, -8), (0x1fba, 2, -74),
   (0x1fbc, 1, -9), (0x1fc8, 4, -86), (0x1fcc, 1, -9), (0x1fd8, 2, -8), (0x1fda, 2, -100),
   (0x1fe8, 2, -8), (0x1fea, 2, -112), (0x1fec, 1, -7), (0x1ff8, 2, -128), (0x1ffa, 2, -126),
   (0x1ffc, 1, -9), (0x2126, 1, -7517), (0x212a, 1, -8383), (0x212b, 1, -8262), (0x2132, 1, 28),
   (0x2160, 16, 16), (0x24b6, 26, 26), (0x2c00, 48, 48), (0x2c62, 1, -10743), (0x2c63, 1, -3814),
   (0x2c64, 1, -10727), (0x2c6d, 1, -10780), (0x2c6e, 1, -10749), (0x2c6f, 1, -10783),
   (0x2c70, 1, -10782), (0x2c7e, 2, -10815), (0xa77d, 1, -35332), (0xa78d, 1, -42280),
   (0xa7aa, 1, -42308), (0xa7ab, 1, -42319), (0xa7ac, 1, -42315), (0xa7ad, 1, -42305),
   (0xa7ae, 1, -42308), (0xa7b0, 1, -42258), (0xa7b1, 1, -42282), (0xa7b2, 1, -42261),
   (0xa7b3, 1, 928), (0xa7c4, 1, -48), (0xa7c5, 1, -42307), (0xa7c6, 1, -35384), (0xff21, 26, 32),
   (0x10400, 40, 40), (0x104b0, 36, 40), (0x10570, 11, 39), (0x1057c, 15, 39), (0x1058c, 7, 39),
   (0x10594, 2, 39), (0x10c80, 51, 64), (0x118a0, 32, 32), (0x16e40, 32, 32), (0x1e900, 34, 34)]

/-- The small letter of a capital letter, any other character itself. -/
def lowerChar (c : Char) : Char :=
  if c.toNat < 128 then c.toLower
  else if pairedRanges.any fun (first, last) =>
      first ≤ c.toNat && c.toNat ≤ last && (c.toNat - first) % 2 == 0 then Char.ofNat (c.toNat + 1)
  else
    let run? := capitalRuns.find? fun (first, length, _) =>
      first ≤ c.toNat && c.toNat < first + length
    match run? with
    | some (_, _, distance) => Char.ofNat ((c.toNat : Int) + distance).toNat
    | none => c

def isLetter (c : Char) : Bool :=
  isWord c && !isDecimal c && c != '_'

/-- The characters in lower case, after a character `before` of the same text. -/
def lowerChars (before : Option Char) : List Char → List Char
  | [] => []
  | c :: rest =>
    let lower :=
      if c = 'İ' then ['i', '\u0307']
      else if c = 'Σ' && before.any isLetter && !rest.head?.any isLetter then ['ς']
      else [lowerChar c]
    lower ++ lowerChars (some c) rest

/-- The lower case of a text. -/
def lowered (s : String) : String :=
  String.ofList (lowerChars none s.toList)

end AmbientDecl.Text

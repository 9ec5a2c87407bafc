import AmbientDecl.Parsed
import AmbientDecl.Text.CharClass

/-!
# Tokens of type expressions

A type expression is a sequence of string and number literals, names and punctuation, with white
space between them. A name is a path of identifiers joined by `.`, `#` or `~`; it may start with
`module:` and the path of a module, which is taken as far as possible.
-/

namespace AmbientDecl.TypeExpr

open Text

/-- The marks of type expressions. -/
inductive Punct where
  | bar
  | openParen
  | closeParen
  | less
  | greater
  | openBracket
  | closeBracket
  | openBrace
  | closeBrace
  | comma
  | semicolon
  | colon
  | equals
  | question
  | bang
  | star
  | ellipsis
  | dotLess
deriving DecidableEq, Repr

def Punct.text : Punct → String
  | .bar => "|"
  | .openParen => "("
  | .closeParen => ")"
  | .less => "<"
  | .greater => ">"
  | .openBracket => "["
  | .closeBracket => "]"
  | .openBrace => "\x7b"
  | .closeBrace => "\x7d"
  | .comma => ","
  | .semicolon => ";"
  | .colon => ":"
  | .equals => "="
  | .question => "?"
  | .bang => "!"
  | .star => "*"
  | .ellipsis => "..."
  | .dotLess => ".<"

def Punct.ofChar? (c : Char) : Option Punct :=
  [Punct.bar, .openParen, .closeParen, .less, .greater, .openBracket, .closeBracket, .openBrace,
   .closeBrace, .comma, .semicolon, .colon, .equals, .question, .bang, .star].find?
    fun p => p.text.toList == [c]

/-- A token of a type expression. -/
inductive Token where
  | string (text : String)
  | number (text : String)
  | name (text : String)
  | punct (mark : Punct)
deriving DecidableEq, Repr

def Token.text : Token → String
  | .string text | .number text | .name text => text
  | .punct mark => mark.text

/-- A token or a run of white space. -/
inductive Lexeme where
  | blank (text : List Char)
  | token (t : Token)
deriving DecidableEq, Repr

def Lexeme.text : Lexeme → List Char
  | .blank text => text
  | .token t => t.text.toList

def Lexeme.token? : Lexeme → Option Token
  | .blank _ => none
  | .token t => some t

/-- A text cut in two: what a lexeme takes, and the rest. -/
abbrev Cut := List Char × List Char

/-- A run of one or more characters of a class. -/
def run? (p : Char → Bool) (cs : List Char) : Option Cut :=
  match cs.takeWhile p with
  | [] => none
  | taken => some (taken, cs.dropWhile p)

/-- The rest of a string literal up to its quote. A backslash takes the next character with it,
which may not be a line feed. -/
def stringTail? (quote : Char) : List Char → Option Cut
  | [] => none
  | c :: rest =>
    if c = quote then some ([c], rest)
    else if c = '\\' then
      match rest with
      | [] => none
      | d :: rest =>
        if d = '\n' then none
        else (stringTail? quote rest).map fun (taken, rest) => (c :: d :: taken, rest)
    else (stringTail? quote rest).map fun (taken, rest) => (c :: taken, rest)

/-- A string literal between single or double quotes. -/
def string? : List Char → Option Cut
  | [] => none
  | c :: rest =>
    if c = '"' ∨ c = '\'' then (stringTail? c rest).map fun (taken, rest) => (c :: taken, rest)
    else none

/-- Digits, and a point and digits after them. -/
def unsignedNumber? (cs : List Char) : Option Cut := do
  let (whole, rest) ← run? isDecimal cs
  match rest with
  | '.' :: after =>
    match run? isDecimal after with
    | some (fraction, rest) => some (whole ++ '.' :: fraction, rest)
    | none => some (whole, rest)
  | _ => some (whole, rest)

/-- A number, which may be negative. -/
def number? : List Char → Option Cut
  | '-' :: rest => (unsignedNumber? rest).map fun (taken, rest) => ('-' :: taken, rest)
  | cs => unsignedNumber? cs

/-- The characters that may start an identifier. -/
def isIdentStart (c : Char) : Bool :=
  c.isAlpha || c == '_' || c == '$'

/-- The characters that may stand inside an identifier. -/
def isIdentRest (c : Char) : Bool :=
  isWord c || c == '$'

/-- The characters that join the identifiers of a path. -/
def isPathMark (c : Char) : Bool :=
  c == '.' || c == '#' || c == '~'

def identifier? : List Char → Option Cut
  | [] => none
  | c :: rest =>
    if isIdentStart c then some (c :: rest.takeWhile isIdentRest, rest.dropWhile isIdentRest)
    else none

theorem length_identifier? {cs : List Char} {cut : Cut} (h : identifier? cs = some cut) :
    cut.2.length < cs.length := by
  cases cs with
  | nil => simp [identifier?] at h
  | cons c rest =>
    simp only [identifier?] at h
    split at h
    · have := length_dropWhile_le isIdentRest rest
      obtain rfl := Option.some.inj h
      simp only [List.length_cons]; omega
    · simp at h

/-- Identifiers, each after a path mark. -/
def pathSteps (cs : List Char) : Cut :=
  match cs with
  | [] => ([], [])
  | c :: rest =>
    if isPathMark c then
      match _found : identifier? rest with
      | some (word, after) =>
        let (taken, rest) := pathSteps after
        (c :: word ++ taken, rest)
      | none => ([], c :: rest)
    else ([], c :: rest)
termination_by cs.length
decreasing_by
  have := length_identifier? _found
  simp only [List.length_cons] at *; omega

/-- The characters that may not stand in the path of a module. -/
def endsModulePath (c : Char) : Bool :=
  isBlank c ||
    ['|', ',', ';', '<', '>', '(', ')', '\x7b', '\x7d', '[', ']', '=', ':', '!', '?', '*',
     '"'].contains c

/-- The path of a module: text between double quotes, or as many characters as can stand in a
path. -/
def modulePath? : List Char → Option Cut
  | [] => none
  | c :: rest =>
    if c = '"' then
      match rest.dropWhile (· != '"') with
      | [] => none
      | quote :: after => some (c :: rest.takeWhile (· != '"') ++ [quote], after)
    else run? (fun c => !endsModulePath c) (c :: rest)

/-- The mark of a module's name. -/
def moduleMark : List Char := "module:".toList

/-- The name of a module, or of something inside it. -/
def moduleName? : List Char → Option Cut
  | 'm' :: 'o' :: 'd' :: 'u' :: 'l' :: 'e' :: ':' :: rest => do
    let (path, after) ← modulePath? rest
    let (steps, rest) := pathSteps after
    some (moduleMark ++ path ++ steps, rest)
  | _ => none

def name? (cs : List Char) : Option Cut :=
  match moduleName? cs with
  | some cut => some cut
  | none => do
    let (word, after) ← identifier? cs
    let (steps, rest) := pathSteps after
    some (word ++ steps, rest)

def punct? : List Char → Option (Punct × List Char)
  | '.' :: '.' :: '.' :: rest => some (.ellipsis, rest)
  | '.' :: '<' :: rest => some (.dotLess, rest)
  | c :: rest => (Punct.ofChar? c).map fun p => (p, rest)
  | [] => none

/-- The lexeme at the front of a text and the text after it. -/
def lexemeCut? (cs : List Char) : Option (Lexeme × List Char) :=
  match run? isBlank cs with
  | some (taken, rest) => some (.blank taken, rest)
  | none =>
  match string? cs with
  | some (taken, rest) => some (.token (.string (String.ofList taken)), rest)
  | none =>
  match number? cs with
  | some (taken, rest) => some (.token (.number (String.ofList taken)), rest)
  | none =>
  match name? cs with
  | some (taken, rest) => some (.token (.name (String.ofList taken)), rest)
  | none =>
  match punct? cs with
  | some (mark, rest) => some (.token (.punct mark), rest)
  | none => none

/-- Reads the lexeme at the front of a text. -/
def lexeme? (cs : List Char) : Option (Parsed Char Lexeme cs) :=
  (lexemeCut? cs).bind fun (l, rest) => Parsed.ofRest? l rest

/-- A character that starts no lexeme, and the number of characters from it to the end. -/
structure Stray where
  char : Char
  left : Nat
deriving DecidableEq, Repr

def lexemes (cs : List Char) : Except Stray (List Lexeme) :=
  match cs with
  | [] => .ok []
  | c :: rest =>
    match lexeme? (c :: rest) with
    | none => .error ⟨c, rest.length + 1⟩
    | some p => do
      let more ← lexemes p.rest
      return p.value :: more
termination_by cs.length
decreasing_by exact p.shorter

/-- The lexemes without the white space. -/
def tokens (cs : List Char) : Except Stray (List Token) := do
  return (← lexemes cs).filterMap Lexeme.token?

end AmbientDecl.TypeExpr

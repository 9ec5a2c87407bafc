import AmbientDecl.TypeExpr.Token

/-!
# Identifiers

A documented name is any text, often one between quotes. A declaration needs an identifier: word
characters and dollar signs, the first of them no digit. Some words are reserved.

A name that is taken gets a number. Candidates are tried in order; when `bound` names at most are
taken and the candidates differ from each other, one of the first `bound + 1` is free.
-/

namespace AmbientDecl

open Text TypeExpr

/-- The text between a pair of equal quotes, or the text itself. -/
def unquoteChars (cs : List Char) : List Char :=
  match cs with
  | first :: second :: rest =>
    if (first = '"' ∨ first = '\'') ∧ (second :: rest).getLast? = some first then
      (second :: rest).dropLast
    else cs
  | _ => cs

/-- The name without one pair of quotes around it. -/
def unquote (name : String) : String :=
  String.ofList (unquoteChars name.toList)

def isIdentifierChars : List Char → Bool
  | [] => false
  | c :: rest => isIdentStart c && rest.all isIdentRest

/-- Whether a name is an identifier, a line feed after it disregarded. -/
def isIdentifier (name : String) : Bool :=
  let cs := name.toList
  isIdentifierChars cs || (cs.getLast? == some '\n' && isIdentifierChars cs.dropLast)

/-- Whether an underscore has to stand before these characters to make an identifier. -/
def needsUnderscore : List Char → Bool
  | [] => true
  | c :: _ => isDigitLike c

/-- The characters with an underscore for each that cannot stand in an identifier. -/
def identifierChars (cs : List Char) : List Char :=
  cs.map fun c => if isIdentRest c then c else '_'

/-- An identifier made out of any name. -/
def toIdentifier (name : String) : String :=
  let cleaned := identifierChars (unquoteChars name.toList)
  String.ofList (if needsUnderscore cleaned then '_' :: cleaned else cleaned)

/-- The words that can name nothing. -/
def reservedWords : List String :=
  ["break", "case", "catch", "class", "const", "continue", "debugger", "default", "delete", "do",
   "else", "enum", "export", "extends", "false", "finally", "for", "function", "if", "implements",
   "import", "in", "instanceof", "interface", "let", "new", "null", "package", "private",
   "protected", "public", "return", "static", "super", "switch", "this", "throw", "true", "try",
   "typeof", "var", "void", "while", "with", "yield"]

/-- The words that can name no class, interface, enumeration or type. -/
def predefinedTypeNames : List String :=
  ["any", "bigint", "boolean", "never", "number", "object", "string", "symbol", "undefined",
   "unknown"]

namespace Text

/-- The candidates for a name: `base`, then `base_first` and so on upwards. -/
def numberedFrom (first : Nat) (base : String) : Nat → String
  | 0 => base
  | k + 1 => base ++ "_" ++ toString (first + k)

/-- The first candidate that is not taken, where at most `bound` candidates are. -/
def firstFree (isTaken : String → Bool) (candidate : Nat → String) (bound : Nat) : String :=
  match (List.range bound).find? fun n => !isTaken (candidate n) with
  | some n => candidate n
  | none => candidate bound

end Text

end AmbientDecl

import AmbientDecl.Text.Basic
import AmbientDecl.TypeExpr.Basic
import AmbientDecl.TypeExpr.Token

/-!
# Reading type expressions

A recursive-descent reader over tokens. The reader of a *primary* type is a parameter of the readers
of unions, functions, records and argument lists, and a primary type is read by the readers of its
parts one level down: `primary (n + 1)` reads with `term (primary n)`. So the bound on nesting is
the recursion itself, and every loop at one level ends because it takes tokens. How alternatives are
joined is a parameter too, since a machine can fail to compare them (`primaryBy`).

Reading the type of a comment never fails. An expression without text stands for any type, and one
that cannot be read is kept as it is, with a complaint that says why.
-/

namespace AmbientDecl.TypeExpr

open Text

/-- How deep types may be nested. -/
def maxNesting : Nat := 64

/-- What can be wrong with an expression. -/
inductive SyntaxError where
  /-- A character that starts no token. -/
  | strayCharacter (c : Char) (offset : Nat)
  /-- Something else than a certain mark. -/
  | expected (mark : Punct) (found : Option Token)
  | unexpectedEnd
  /-- Markers without a type. -/
  | missingType
  | unexpectedToken (t : Token)
  | tooDeep
  | missingSeparator
  | badRecordKey (t : Token)
  /-- Alternatives that the machine cannot compare. -/
  | exhausted
deriving DecidableEq, Repr

def SyntaxError.message : SyntaxError → String
  | .strayCharacter c offset => s!"unexpected character {quoted (toString c)} at {offset}"
  | .expected mark found =>
    let foundText := (found.map Token.text).getD "end of expression"
    s!"expected {quoted mark.text}, found {quoted foundText}"
  | .unexpectedEnd => "unexpected end of expression"
  | .missingType => "missing type"
  | .unexpectedToken t => s!"unexpected token {quoted t.text}"
  | .tooDeep => s!"nesting deeper than {maxNesting} levels"
  | .missingSeparator => "expected ',' between record fields"
  | .badRecordKey t => s!"invalid record key {quoted t.text}"
  | .exhausted => "alternatives that cannot be compared"

/-- What a reader makes of `ts`. -/
abbrev Outcome (α : Type) (ts : List Token) := Except SyntaxError (Parsed Token α ts)

/-- A reader of values of `α` from the front of a list of tokens. -/
abbrev Parser (α : Type) := (ts : List Token) → Outcome α ts

/-- How primary types are read and how the alternatives of a union are joined. -/
structure Reader where
  read : Parser TypeNode
  unite : List TypeNode → Except SyntaxError TypeNode

/-- Whether a mark stands at the front, and the tokens after it. -/
def accept (mark : Punct) : List Token → Bool × List Token
  | .punct m :: rest => if m = mark then (true, rest) else (false, .punct m :: rest)
  | ts => (false, ts)

theorem length_accept_le (mark : Punct) (ts : List Token) :
    (accept mark ts).2.length ≤ ts.length := by
  unfold accept
  split
  · split <;> simp
  · exact Nat.le_refl _

/-- The mark at the front. -/
def expect (mark : Punct) (ts : List Token) : Outcome Unit ts :=
  match ts with
  | .punct m :: rest =>
    if m = mark then .ok ⟨(), rest, by simp⟩ else .error (.expected mark (some (.punct m)))
  | [] => .error (.expected mark none)
  | t :: _ => .error (.expected mark (some t))

/-- The marks that can follow a type. -/
def endsType : Punct → Bool
  | .closeParen | .comma | .bar | .greater | .closeBracket | .closeBrace | .equals | .semicolon =>
    true
  | _ => false

/-- Whether no type starts here: the expression ends, or a mark follows that can only stand after a
type. -/
def atTypeEnd : List Token → Bool
  | [] => true
  | .punct mark :: _ => endsType mark
  | _ :: _ => false

/-- The type with an array for each pair of brackets at the front, and the tokens after them. -/
def arrayMarks (t : TypeNode) : List Token → TypeNode × List Token
  | .punct .openBracket :: .punct .closeBracket :: rest => arrayMarks (.array t) rest
  | ts => (t, ts)

theorem length_arrayMarks_le (t : TypeNode) (ts : List Token) :
    (arrayMarks t ts).2.length ≤ ts.length := by
  fun_induction arrayMarks t ts with
  | case1 t rest ih => simp only [List.length_cons]; omega
  | case2 => exact Nat.le_refl _

/-- Reads one type with its array marks. -/
def suffixed (primary : Reader) : Parser TypeNode := fun ts => do
  let p ← primary.read ts
  return ⟨(arrayMarks p.value p.rest).1, (arrayMarks p.value p.rest).2,
    Nat.lt_of_le_of_lt (length_arrayMarks_le p.value p.rest) p.shorter⟩

/-- One or more types with bars between them. -/
def alternatives (primary : Reader) (ts : List Token) : Outcome (List TypeNode) ts := do
  let first ← suffixed primary ts
  match h : first.rest with
  | .punct .bar :: rest => do
    let others ← alternatives primary rest
    return ⟨first.value :: others.value, others.rest, by
      have h₁ := first.shorter; have h₂ := others.shorter
      rw [h] at h₁; simp only [List.length_cons] at h₁; omega⟩
  | _ => return first.map fun t => [t]
termination_by ts.length
decreasing_by
  have h₁ := first.shorter
  rw [h] at h₁; simp only [List.length_cons] at h₁; omega

/-- Reads alternatives. -/
def union (primary : Reader) : Parser TypeNode := fun ts => do
  let members ← alternatives primary ts
  let t ← primary.unite members.value
  return members.map fun _ => t

/-- One or more types with commas between them, and the closing mark. -/
def arguments (primary : Reader) (ts : List Token) :
    Outcome (TypeNode × List TypeNode) ts := do
  let first ← union primary ts
  match h : first.rest with
  | .punct .comma :: rest => do
    let others ← arguments primary rest
    return ⟨(first.value, others.value.1 :: others.value.2), others.rest, by
      have h₁ := first.shorter; have h₂ := others.shorter
      rw [h] at h₁; simp only [List.length_cons] at h₁; omega⟩
  | _ => do
    let close ← expect .greater first.rest
    return ⟨(first.value, []), close.rest, Nat.lt_trans close.shorter first.shorter⟩
termination_by ts.length
decreasing_by
  have h₁ := first.shorter
  rw [h] at h₁; simp only [List.length_cons] at h₁; omega

/-- What stands between two commas of a parameter list. -/
inductive FunctionItem where
  | thisType (t : TypeNode)
  | constructs (t : TypeNode)
  | param (p : FunctionParam TypeNode)

/-- The type of a parameter; without one it is any type. -/
def parameterType (primary : Reader) (ts : List Token) :
    Except SyntaxError (Scanned Token TypeNode ts) :=
  if atTypeEnd ts then .ok ⟨.any, ts, Nat.le_refl _⟩
  else do
    let t ← union primary ts
    return ⟨t.value, t.rest, Nat.le_of_lt t.shorter⟩

/-- A parameter after its name. -/
def parameter (primary : Reader) (name : Option String) (ts : List Token) :
    Except SyntaxError (Scanned Token FunctionItem ts) := do
  let t ← parameterType primary (accept .ellipsis ts).2
  return {
    value := .param ⟨name, t.value, (accept .equals t.rest).1, (accept .ellipsis ts).1⟩
    rest := (accept .equals t.rest).2
    notLonger := Nat.le_trans (length_accept_le _ _)
      (Nat.le_trans t.notLonger (length_accept_le _ _)) }

/-- One item of a parameter list. -/
def functionItem (primary : Reader) (ts : List Token) :
    Except SyntaxError (Scanned Token FunctionItem ts) :=
  match ts with
  | .name name :: .punct .colon :: rest =>
    if name = "this" then do
      let t ← union primary rest
      return ⟨.thisType t.value, t.rest, by have := t.shorter; simp only [List.length_cons]; omega⟩
    else if name = "new" then do
      let t ← union primary rest
      return ⟨.constructs t.value, t.rest, by
        have := t.shorter; simp only [List.length_cons]; omega⟩
    else do
      let p ← parameter primary (some name) rest
      return ⟨p.value, p.rest, by have := p.notLonger; simp only [List.length_cons]; omega⟩
  | ts => parameter primary none ts

/-- The items after the first one, each after a comma, and the closing parenthesis. -/
def moreFunctionItems (primary : Reader) (ts : List Token) :
    Outcome (List FunctionItem) ts :=
  match ts with
  | .punct .closeParen :: rest => .ok ⟨[], rest, by simp⟩
  | .punct .comma :: rest => do
    let item ← functionItem primary rest
    let more ← moreFunctionItems primary item.rest
    return ⟨item.value :: more.value, more.rest, by
      have h₁ := item.notLonger; have h₂ := more.shorter; simp only [List.length_cons]; omega⟩
  | ts => .error (.expected .comma ts.head?)
termination_by ts.length
decreasing_by
  have h₁ := item.notLonger
  simp only [List.length_cons]; omega

/-- The items of a parameter list and the closing parenthesis. -/
def functionItems (primary : Reader) (ts : List Token) : Outcome (List FunctionItem) ts :=
  match ts with
  | .punct .closeParen :: rest => .ok ⟨[], rest, by simp⟩
  | ts => do
    let item ← functionItem primary ts
    let more ← moreFunctionItems primary item.rest
    return ⟨item.value :: more.value, more.rest, Nat.lt_of_lt_of_le more.shorter item.notLonger⟩

/-- The function type that the items and a return type make; of several types for one purpose the
last counts. -/
def functionOf (items : List FunctionItem) (returns : Option TypeNode) : TypeNode :=
  .function
    (items.filterMap fun | .param p => some p | _ => none)
    returns
    (items.filterMap fun | .thisType t => some t | _ => none).getLast?
    (items.filterMap fun | .constructs t => some t | _ => none).getLast?

/-- A function type after its opening parenthesis. -/
def function (primary : Reader) : Parser TypeNode := fun ts => do
  let items ← functionItems primary ts
  match h : items.rest with
  | .punct .colon :: rest => do
    let returns ← suffixed primary rest
    return ⟨functionOf items.value (some returns.value), returns.rest, by
      have h₁ := items.shorter; have h₂ := returns.shorter
      rw [h] at h₁; simp only [List.length_cons] at h₁; omega⟩
  | _ => return items.map fun items => functionOf items none

def fieldName (ts : List Token) : Outcome String ts :=
  match ts with
  | [] => .error .unexpectedEnd
  | .string text :: rest => .ok ⟨String.ofList (text.toList.drop 1).dropLast, rest, by simp⟩
  | .name text :: rest | .number text :: rest => .ok ⟨text, rest, by simp⟩
  | t :: _ => .error (.badRecordKey t)

/-- The type of a field after its name, and whether the field is optional. -/
def fieldType (primary : Reader) (optional : Bool) (ts : List Token) :
    Except SyntaxError (Scanned Token (TypeNode × Bool) ts) :=
  match ts with
  | .punct .colon :: rest => do
    let t ← union primary rest
    return {
      value := (t.value, (accept .equals t.rest).1 || optional)
      rest := (accept .equals t.rest).2
      notLonger := by
        have h₁ := length_accept_le .equals t.rest; have h₂ := t.shorter
        simp only [List.length_cons]; omega }
  | ts => .ok ⟨(.any, optional), ts, Nat.le_refl _⟩

def field (primary : Reader) (ts : List Token) : Outcome (RecordField TypeNode) ts := do
  let name ← fieldName ts
  let t ← fieldType primary (accept .question name.rest).1 (accept .question name.rest).2
  return ⟨⟨name.value, t.value.1, t.value.2, none⟩, t.rest, by
    have h₁ := name.shorter; have h₂ := length_accept_le .question name.rest
    have h₃ := t.notLonger; omega⟩

/-- The fields after the first one, each after a separator, and the closing brace; a separator may
also stand before the brace. -/
def moreFields (primary : Reader) (ts : List Token) :
    Outcome (List (RecordField TypeNode)) ts :=
  match ts with
  | .punct .closeBrace :: rest => .ok ⟨[], rest, by simp⟩
  | .punct mark :: .punct .closeBrace :: rest =>
    if mark = .comma ∨ mark = .semicolon then .ok ⟨[], rest, by simp only [List.length_cons]; omega⟩
    else .error .missingSeparator
  | .punct mark :: rest =>
    if mark = .comma ∨ mark = .semicolon then do
      let first ← field primary rest
      let more ← moreFields primary first.rest
      return ⟨first.value :: more.value, more.rest, by
        have h₁ := first.shorter; have h₂ := more.shorter; simp only [List.length_cons]; omega⟩
    else .error .missingSeparator
  | _ => .error .missingSeparator
termination_by ts.length
decreasing_by
  have h₁ := first.shorter
  simp only [List.length_cons]; omega

/-- The fields of a record and the closing brace. -/
def fields (primary : Reader) (ts : List Token) :
    Outcome (List (RecordField TypeNode)) ts :=
  match ts with
  | .punct .closeBrace :: rest => .ok ⟨[], rest, by simp⟩
  | ts => do
    let first ← field primary ts
    let more ← moreFields primary first.rest
    return ⟨first.value :: more.value, more.rest, Nat.lt_trans more.shorter first.shorter⟩

/-- A type that starts with a punctuation mark. -/
def markedTerm (primary : Reader) (mark : Punct) (rest : List Token) :
    Outcome TypeNode (.punct mark :: rest) :=
  match mark with
  | .openParen => do
    let t ← union primary rest
    let close ← expect .closeParen t.rest
    return ⟨t.value, close.rest, by
      have h₁ := t.shorter; have h₂ := close.shorter; simp only [List.length_cons]; omega⟩
  | .openBrace => do
    let all ← fields primary rest
    return (all.map TypeNode.record).within (by simp)
  | .star => .ok ⟨.any, rest, by simp⟩
  | .question =>
    if atTypeEnd rest then .ok ⟨.any, rest, by simp⟩
    else do
      let t ← suffixed primary rest
      let orNull ← primary.unite [t.value, .null]
      return (t.map fun _ => orNull).within (by simp)
  | .bang => do
    let t ← suffixed primary rest
    return t.within (by simp)
  | mark => .error (.unexpectedToken (.punct mark))

/-- The type of a name that stands alone. -/
def bareName (name : String) : TypeNode :=
  if name = "true" ∨ name = "false" then .literal name else .ofName name

/-- A type that starts with a name. -/
def namedTerm (primary : Reader) (name : String) (rest : List Token) :
    Outcome TypeNode (.name name :: rest) :=
  match rest with
  | .punct mark :: after =>
    if mark = .openParen ∧ name = "function" then do
      let t ← function primary after
      return t.within (by simp only [List.length_cons]; omega)
    else if (mark = .less ∨ mark = .dotLess) ∧ name ≠ "true" ∧ name ≠ "false" then do
      let args ← arguments primary after
      return (args.map fun (first, others) => TypeNode.applied name first others).within (by
        simp only [List.length_cons]; omega)
    else .ok ⟨bareName name, .punct mark :: after, by simp⟩
  | rest => .ok ⟨bareName name, rest, by simp⟩

/-- Reads one type without array marks. -/
def term (primary : Reader) : Parser TypeNode
  | [] => .error .unexpectedEnd
  | .punct mark :: rest => markedTerm primary mark rest
  | .string text :: rest => .ok ⟨.literal text, rest, by simp⟩
  | .number text :: rest => .ok ⟨.literal text, rest, by simp⟩
  | .name name :: rest => namedTerm primary name rest

/-- Types without array marks whose parts are nested at most `levels` deep, with a way to join
alternatives. -/
def primaryBy (unite : List TypeNode → Except SyntaxError TypeNode) : (levels : Nat) → Reader
  | 0 => ⟨fun _ => .error .tooDeep, unite⟩
  | levels + 1 => ⟨term (primaryBy unite levels), unite⟩

/-- Types without array marks whose parts are nested at most `levels` deep. -/
def primary : (levels : Nat) → Reader :=
  primaryBy fun types => .ok (.unionOf types)

end AmbientDecl.TypeExpr

namespace AmbientDecl

open Text

/-- A type with the markers that stand around it in a comment. -/
structure TypeExpression where
  type : TypeNode
  /-- Whether the value may be left out. -/
  optional : Bool
  /-- Whether the value may be null, if the expression says so. -/
  nullable : Option Bool
  /-- Whether there may be any number of values. -/
  variadic : Bool
deriving DecidableEq, Repr

/-- A type without markers. -/
def TypeExpression.plain (t : TypeNode) : TypeExpression :=
  ⟨t, false, none, false⟩

namespace TypeExpr

/-- The null marker at the front, and the tokens after it. -/
def nullMarker : List Token → Option Bool × List Token
  | .punct .question :: rest => (some true, rest)
  | .punct .bang :: rest => (some false, rest)
  | ts => (none, ts)

/-- The type after the first markers, the null marker that counts, and the tokens after the type. A
type may be left out after `...` and after `?`. -/
def markedType (primary : Reader) (variadic : Bool) (nullable : Option Bool) (ts : List Token) :
    Except SyntaxError (TypeNode × Option Bool × List Token) :=
  if atTypeEnd ts then
    if nullable = some false ∨ (nullable = none ∧ variadic = false) then .error .missingType
    else .ok (.any, none, ts)
  else do
    let t ← union primary ts
    return (t.value, nullable, t.rest)

def expressionBy (primary : Reader) (ts : List Token) : Except SyntaxError TypeExpression := do
  let (variadic, afterEllipsis) := accept .ellipsis ts
  let (first, start) := nullMarker afterEllipsis
  let (t, nullable, afterType) ← markedType primary variadic first start
  let (optional, afterOptional) := accept .equals afterType
  let (again, rest) := accept .question afterOptional
  match rest with
  | t :: _ => throw (.unexpectedToken t)
  | [] => return ⟨t, optional, if again then some true else nullable, variadic⟩

def ofTextBy (primary : Reader) (cs : List Char) : Except SyntaxError TypeExpression :=
  match tokens cs with
  | .error stray => .error (.strayCharacter stray.char (cs.length - stray.left))
  | .ok ts => expressionBy primary ts

/-- A whole expression, with a bound on nesting of its own. -/
def expressionWithin (levels : Nat) (ts : List Token) : Except SyntaxError TypeExpression :=
  expressionBy (primary levels) ts

/-- The expression that a text writes, with a bound on nesting of its own. -/
def ofTextWithin (levels : Nat) (cs : List Char) : Except SyntaxError TypeExpression :=
  ofTextBy (primary levels) cs

/-- Reads a whole expression with its markers. -/
def expression (ts : List Token) : Except SyntaxError TypeExpression :=
  expressionWithin maxNesting ts

/-- Reads a type expression. -/
def ofText (cs : List Char) : Except SyntaxError TypeExpression :=
  ofTextWithin maxNesting cs

/-- The union of types, unless comparing them takes more calls. -/
def uniteWithin (calls : Nat) (types : List TypeNode) : Except SyntaxError TypeNode :=
  if TypeNode.unitesWithin calls types then .ok (.unionOf types) else .error .exhausted

/-- The expression that a text writes, read on a stack that holds so many calls. -/
def ofTextOn (calls : Nat) (cs : List Char) : Except SyntaxError TypeExpression :=
  ofTextBy (primaryBy (uniteWithin calls) maxNesting) cs

end TypeExpr

/-- What an expression was read as, and the complaint if it could not be read. -/
structure TypeReading where
  expression : TypeExpression
  complaint : Option String
deriving DecidableEq, Repr

/-- Reads an expression. -/
def readType (expression : Option String) : TypeReading :=
  let text := stripped (expression.getD "")
  if text = "" then ⟨.plain .any, none⟩
  else match TypeExpr.ofText text.toList with
    | .ok e => ⟨e, none⟩
    | .error fault =>
      ⟨.plain (.unreadable text),
        some s!"Cannot read type expression {quoted text}: {fault.message}"⟩

def typeOfExpression (expression : Option String) : TypeNode :=
  (readType expression).expression.type

/-- One expression out of the alternatives that a comment lists. -/
def joinTypeNames : List String → String
  | [name] => name
  | names => joined "|" (names.map fun name => "(" ++ name ++ ")")

end AmbientDecl

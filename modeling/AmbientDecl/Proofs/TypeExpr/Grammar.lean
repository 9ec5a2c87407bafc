import Mathlib.Logic.Function.Iterate
import AmbientDecl.Proofs.TypeExpr.Reader

/-!
# The grammar of type expressions

The language of type expressions, written down without the reader that knows it.

**Phrases.** A language is a relation between the tokens of a phrase, the tokens behind it and the
meaning of the phrase (`Phrases`). What stands behind a phrase matters in two places only: a
question mark that no type can follow is a type of its own, and pairs of brackets belong to the
innermost type before them. Everything else about the grammar is context-free.

**Nonterminals.** Each of them takes the language of primary types as a parameter, and a primary
type is a term over primary types one level down: `Primary (n + 1) = Term (Primary n)`. So the bound
on nesting is the recursion itself. `Sentence` is a whole expression with its markers.
-/

namespace AmbientDecl.TypeExpr

/-- What phrases mean: the tokens of a phrase, the tokens behind it, and the meaning. -/
abbrev Phrases (α : Type) := List Token → List Token → α → Prop

namespace Grammar

variable {P : Phrases TypeNode}

/-- One or more phrases with a mark between neighbours. -/
inductive Separated {α : Type} (mark : Punct) (L : Phrases α) : Phrases (List α)
  | single {ps after : List Token} {a : α} (phrase : L ps after a) : Separated mark L ps after [a]
  | cons {ps qs after : List Token} {a : α} {as : List α}
      (phrase : L ps (.punct mark :: qs ++ after) a) (others : Separated mark L qs after as) :
      Separated mark L (ps ++ .punct mark :: qs) after (a :: as)

def bracketPairs : Nat → List Token
  | 0 => []
  | n + 1 => .punct .openBracket :: .punct .closeBracket :: bracketPairs n

/-- `Postfix = Primary ('[' ']')*`, with all the pairs of brackets that follow. -/
inductive Postfix (P : Phrases TypeNode) : Phrases TypeNode
  | intro {ps after : List Token} {t : TypeNode} (pairs : Nat)
      (head : P ps (bracketPairs pairs ++ after) t) (all : ¬ bracketPairs 1 <+: after) :
      Postfix P (ps ++ bracketPairs pairs) after (TypeNode.array^[pairs] t)

/-- `Union = Postfix ('|' Postfix)*`. -/
inductive Union (P : Phrases TypeNode) : Phrases TypeNode
  | intro {ps after : List Token} {members : List TypeNode}
      (list : Separated .bar (Postfix P) ps after members) :
      Union P ps after (TypeNode.unionOf members)

/-- `[Union]`, where a type that is left out is any type. -/
inductive OptionalUnion (P : Phrases TypeNode) : Phrases TypeNode
  | omitted {after : List Token} : OptionalUnion P [] after .any
  | given {ps after : List Token} {t : TypeNode} (type : Union P ps after t) :
      OptionalUnion P ps after t

/-- `[name ':']`. -/
def labelTokens : Option String → List Token
  | none => []
  | some name => [.name name, .punct .colon]

/-- `Item = this ':' Union | new ':' Union | [name ':'] ['...'] [Union] ['=']`. -/
inductive Item (P : Phrases TypeNode) : Phrases FunctionItem
  | thisType {ps after : List Token} {t : TypeNode} (type : Union P ps after t) :
      Item P (.name "this" :: .punct .colon :: ps) after (.thisType t)
  | constructs {ps after : List Token} {t : TypeNode} (type : Union P ps after t) :
      Item P (.name "new" :: .punct .colon :: ps) after (.constructs t)
  | param {ps after : List Token} {t : TypeNode} {name : Option String} {variadic optional : Bool}
      (notThis : name ≠ some "this") (notNew : name ≠ some "new")
      (type : OptionalUnion P ps (optionally .equals optional ++ after) t) :
      Item P (labelTokens name ++ optionally .ellipsis variadic ++ ps ++
        optionally .equals optional)
        after (.param ⟨name, t, optional, variadic⟩)

/-- Nothing, or items with commas between them; one item without tokens is nothing. -/
inductive Items (P : Phrases TypeNode) : Phrases (List FunctionItem)
  | none {after : List Token} : Items P [] after []
  | some {ps after : List Token} {items : List FunctionItem}
      (list : Separated .comma (Item P) ps after items) (tokens : ps ≠ []) : Items P ps after items

/-- `Field = key ['?'] [':' Union ['=']]`. -/
inductive Field (P : Phrases TypeNode) : Phrases (RecordField TypeNode)
  | untyped {after : List Token} {key : Token} {name : String} {question : Bool}
      (named : NamesField key name) :
      Field P (key :: optionally .question question) after ⟨name, .any, question, none⟩
  | typed {ps after : List Token} {key : Token} {name : String} {t : TypeNode}
      {question optional : Bool} (named : NamesField key name)
      (type : Union P ps (optionally .equals optional ++ after) t) :
      Field P (key :: optionally .question question ++ .punct .colon :: ps ++
        optionally .equals optional) after ⟨name, t, optional || question, none⟩

/-- One or more fields with separators between them, and maybe one more separator at the end. -/
inductive Fields (P : Phrases TypeNode) : Phrases (List (RecordField TypeNode))
  | single {ps after : List Token} {f : RecordField TypeNode} (field : Field P ps after f) :
      Fields P ps after [f]
  | trailing {ps after : List Token} {f : RecordField TypeNode} {mark : Punct}
      (separates : Separates mark) (field : Field P ps (.punct mark :: after) f) :
      Fields P (ps ++ [.punct mark]) after [f]
  | cons {ps qs after : List Token} {f : RecordField TypeNode} {fs : List (RecordField TypeNode)}
      {mark : Punct} (separates : Separates mark)
        (field : Field P ps (.punct mark :: qs ++ after) f)
      (others : Fields P qs after fs) : Fields P (ps ++ .punct mark :: qs) after (f :: fs)

/-- A type without brackets behind it. -/
inductive Term (P : Phrases TypeNode) : Phrases TypeNode
  /-- `'(' Union ')'` -/
  | parenthesized {ps after : List Token} {t : TypeNode}
      (type : Union P ps (.punct .closeParen :: after) t) :
      Term P (.punct .openParen :: ps ++ [.punct .closeParen]) after t
  | emptyRecord {after : List Token} :
      Term P [.punct .openBrace, .punct .closeBrace] after (.record [])
  /-- An opening brace, fields and a closing brace. -/
  | record {ps after : List Token} {fs : List (RecordField TypeNode)}
      (list : Fields P ps (.punct .closeBrace :: after) fs) :
      Term P (.punct .openBrace :: ps ++ [.punct .closeBrace]) after (.record fs)
  | star {after : List Token} : Term P [.punct .star] after .any
  /-- `'?'` before the end of a type. -/
  | unknown {after : List Token} (ends : atTypeEnd after = true) :
      Term P [.punct .question] after .any
  | nullable {ps after : List Token} {t : TypeNode} (type : Postfix P ps after t) :
      Term P (.punct .question :: ps) after t.orNull
  | nonNull {ps after : List Token} {t : TypeNode} (type : Postfix P ps after t) :
      Term P (.punct .bang :: ps) after t
  | string {after : List Token} (text : String) : Term P [.string text] after (.literal text)
  | number {after : List Token} (text : String) : Term P [.number text] after (.literal text)
  | truth {after : List Token} {name : String} (isTruth : name = "true" ∨ name = "false") :
      Term P [.name name] after (.literal name)
  /-- `function '(' items ')'` -/
  | function {ps after : List Token} {items : List FunctionItem}
      (list : Items P ps (.punct .closeParen :: after) items) :
      Term P (.name "function" :: .punct .openParen :: ps ++ [.punct .closeParen]) after
        (functionOf items none)
  /-- `function '(' items ')' ':' Postfix` -/
  | functionReturning {ps qs after : List Token} {items : List FunctionItem} {r : TypeNode}
      (list : Items P ps (.punct .closeParen :: .punct .colon :: qs ++ after) items)
      (returns : Postfix P qs after r) :
      Term P (.name "function" :: .punct .openParen :: ps ++ .punct .closeParen ::
        .punct .colon :: qs)
        after (functionOf items (some r))
  | name {after : List Token} {name : String} (isName : name ≠ "true" ∧ name ≠ "false") :
      Term P [.name name] after (.ofName name)
  /-- `name ('<' | '.<') Union (',' Union)* '>'` -/
  | applied {ps after : List Token} {name : String} {mark : Punct} {first : TypeNode}
      {others : List TypeNode} (isName : name ≠ "true" ∧ name ≠ "false")
      (opens : mark = .less ∨ mark = .dotLess)
      (list : Separated .comma (Union P) ps (.punct .greater :: after) (first :: others)) :
      Term P (.name name :: .punct mark :: ps ++ [.punct .greater]) after
        (TypeNode.applied name first others)

/-- A type without brackets behind it, whose parts are nested at most `levels` deep. -/
def Primary : (levels : Nat) → Phrases TypeNode
  | 0 => fun _ _ _ => False
  | levels + 1 => Term (Primary levels)

/-- `['?' | '!']`. -/
def nullTokens : Option Bool → List Token
  | none => []
  | some true => [.punct .question]
  | some false => [.punct .bang]

/-- No marker stands at the front. -/
def Unmarked (ts : List Token) : Prop :=
  ts.head? ≠ some (.punct .question) ∧ ts.head? ≠ some (.punct .bang)

/-- `Sentence = ['...'] ['?' | '!'] [Union] ['='] ['?']`: a whole expression. A question or
exclamation mark at the front is a marker, and the type is left out where a type ends behind the
markers. -/
inductive Sentence : List Token → TypeExpression → Prop
  | typed {ps : List Token} {t : TypeNode} {nullable : Option Bool} {variadic optional again : Bool}
      (type : Union (Primary maxNesting) ps
        (optionally .equals optional ++ optionally .question again) t)
      (unmarked : nullable = none → Unmarked ps) :
      Sentence (optionally .ellipsis variadic ++ nullTokens nullable ++ ps ++
        optionally .equals optional ++ optionally .question again)
        ⟨t, optional, if again then some true else nullable, variadic⟩
  | untyped {nullable : Option Bool} {variadic optional again : Bool}
      (ends : atTypeEnd (optionally .equals optional ++ optionally .question again) = true)
      (marked : variadic = true ∨ nullable = some true) (notBang : nullable ≠ some false) :
      Sentence (optionally .ellipsis variadic ++ nullTokens nullable ++
        optionally .equals optional ++ optionally .question again)
        ⟨.any, optional, if again then some true else none, variadic⟩

end Grammar

end AmbientDecl.TypeExpr

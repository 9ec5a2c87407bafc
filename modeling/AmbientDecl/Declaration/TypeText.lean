import AmbientDecl.Identifier
import AmbientDecl.Symbol.Basic

/-!
# Texts of types

A declaration allows less than a comment: names are identifiers and differ, an optional parameter
cannot stand before a required one, and only the last parameter can take the rest of the arguments.
What cannot be declared as it was documented is declared as something weaker.

How a type is printed. What a name is printed as depends on where it is printed, so the printer
takes a `TypeScope` that answers for names; everything else about the text is decided here.
-/

namespace AmbientDecl

open Text

/-- How a parameter is marked. -/
inductive ParamForm where
  | required
  | optional
  /-- Required, but the value may be undefined. -/
  | orUndefined
  /-- Takes the rest of the arguments. -/
  | rest
  /-- Takes an array where the rest of the arguments cannot be taken. -/
  | array
deriving DecidableEq, Repr

/-- A parameter as it is printed. -/
structure DeclaredParam (τ : Type) where
  name : String
  form : ParamForm
  type : τ
deriving Repr

variable {τ σ : Type}

def FunctionParam.map (f : τ → σ) (p : FunctionParam τ) : FunctionParam σ :=
  ⟨p.name, f p.type, p.optional, p.variadic⟩

/-- Whether a call has to give the argument. -/
def FunctionParam.isRequired (p : FunctionParam τ) : Bool :=
  !p.optional && !p.variadic

/-- The form of a parameter that `later` ones follow. -/
def paramForm (p : FunctionParam τ) (later : List (FunctionParam τ)) : ParamForm :=
  if p.variadic then
    if later.isEmpty then .rest else .array
  else if p.optional then
    if later.any FunctionParam.isRequired then .orUndefined else .optional
  else .required

/-- The name under which a parameter is declared after parameters of the names `seen`. -/
def paramName (name : Option String) (position : Nat) (seen : List String) : String :=
  let base := match nonempty? name with
    | some name => toIdentifier name
    | none => s!"arg{position}"
  firstFree (fun name => reservedWords.contains name || seen.contains name) (numberedFrom 1 base)
    (reservedWords.length + seen.length)

/-- The parameters from a position on as they are declared, after parameters of the names `seen`. -/
def declaredFrom (position : Nat) (seen : List String) :
    List (FunctionParam τ) → List (DeclaredParam τ)
  | [] => []
  | p :: later =>
    let name := paramName p.name position seen
    ⟨name, paramForm p later, p.type⟩ :: declaredFrom (position + 1) (name :: seen) later

/-- Gives each parameter its name and its form. -/
def declaredParams (params : List (FunctionParam τ)) : List (DeclaredParam τ) :=
  declaredFrom 0 [] params

/-- A documented parameter as a parameter of a function type. -/
def Parameter.spec (p : Parameter) : FunctionParam TypeNode :=
  ⟨some p.name, if p.nullable then p.type.orNull else p.type, p.optional, p.variadic⟩

/-- What names mean where a type is printed. -/
structure TypeScope where
  /-- The text of a name that can be printed there. -/
  resolve : String → Option String
  /-- The text of any other name. -/
  fallback : String → String

/-- The text of a name. -/
def TypeScope.nameText (scope : TypeScope) (name : String) : String :=
  (scope.resolve name).getD (scope.fallback name)

/-- The name of a property or a member: an identifier as it is, anything else as a string. -/
def label (name : String) : String :=
  if isIdentifier name then name else stringLiteral name

def parenthesized (text : String) : String := "(" ++ text ++ ")"

/-- The text of a type as an alternative of a union. -/
def alternativeText (t : TypeNode) (text : String) : String :=
  match t with
  | .function .. => parenthesized text
  | _ => text

def arrayText (t : TypeNode) (text : String) : String :=
  (match t with
  | .function .. | .union _ => parenthesized text
  | _ => text) ++ "[]"

/-- A type with its text. -/
structure ShownType where
  node : TypeNode
  text : String
  /-- The alternatives of the type with their texts in a union. -/
  alternatives : List (TypeNode × String)

/-- A type that is no union, with its text. -/
def ShownType.single (node : TypeNode) (text : String) : ShownType :=
  ⟨node, text, [(node, alternativeText node text)]⟩

/-- The text of alternatives as a union. -/
def unionText (alternatives : List (TypeNode × String)) : String :=
  joined " | " (alternatives.map (·.2))

/-- The text of the type with the undefined value added. -/
def ShownType.orUndefined (s : ShownType) : String :=
  unionText ((s.alternatives ++ [(TypeNode.undefined, "undefined")]).eraseDupsBy
    fun a b => a.1 == b.1)

def DeclaredParam.text (p : DeclaredParam ShownType) : String :=
  match p.form with
  | .required => p.name ++ ": " ++ p.type.text
  | .optional => p.name ++ "?: " ++ p.type.text
  | .orUndefined => p.name ++ ": " ++ p.type.orUndefined
  | .rest => "..." ++ p.name ++ ": " ++ arrayText p.type.node p.type.text
  | .array => p.name ++ ": " ++ arrayText p.type.node p.type.text

def paramsText (params : List (FunctionParam ShownType)) : String :=
  joined ", " ((declaredParams params).map DeclaredParam.text)

def functionText (params : String) (returns thisType constructs : Option String) : String :=
  let params := match thisType with
    | some text => if params.isEmpty then "this: " ++ text else "this: " ++ text ++ ", " ++ params
    | none => params
  match constructs with
  | some text => "new (" ++ params ++ ") => " ++ text
  | none => "(" ++ params ++ ") => " ++ returns.getD "void"

def fieldText (f : RecordField String) : String :=
  label f.name ++ (if f.optional then "?" else "") ++ ": " ++ f.type

def recordText (fields : List (RecordField String)) : String :=
  if fields.isEmpty then "\x7b\x7d"
  else "\x7b " ++ joined "; " (fields.map fieldText) ++ " \x7d"

/-- The text of an object whose keys have the type `key`. -/
def dictionaryText (key value : String) : String :=
  let key := if key == "string" || key == "number" || key == "symbol" then key else "string"
  "\x7b [key: " ++ key ++ "]: " ++ value ++ " \x7d"

def argumentsText (args : List String) : String :=
  "<" ++ joined ", " args ++ ">"

/-- The text of a generic type; one whose base can be anything takes no arguments. -/
def genericText (scope : TypeScope) (base : String) (args : List String) : String :=
  match scope.resolve base with
  | some text => text ++ argumentsText args
  | none =>
    if scope.fallback base = "any" then "any" else scope.fallback base ++ argumentsText args

/-- Whether a generic type is an object with keys and values. -/
def isDictionary {α : Type} (base : String) (args : List α) : Bool :=
  base == "Object" && args.length == 2

/-- The text of an application of a generic type. -/
def appliedText (scope : TypeScope) (base : String) (args : List String) : String :=
  match args with
  | [key, value] =>
    if base == "Object" then dictionaryText key value else genericText scope base args
  | _ => genericText scope base args

mutual

def shownType (scope : TypeScope) : TypeNode → ShownType
  | .named name => .single (.named name) (scope.nameText name)
  | .union members =>
    let alternatives := shownAlternatives scope members
    ⟨.union members, unionText alternatives, alternatives⟩
  | .array element => .single (.array element) (arrayText element (shownType scope element).text)
  | .generic base args =>
    .single (.generic base args) (appliedText scope base (shownTexts scope args))
  | .function params returns thisType constructs =>
    .single (.function params returns thisType constructs)
      (functionText (paramsText (shownParams scope params)) (shownOption scope returns)
        (shownOption scope thisType) (shownOption scope constructs))
  | .record fields => .single (.record fields) (recordText (shownFields scope fields))
  | .literal text => .single (.literal text) text
  | .unreadable raw => .single (.unreadable raw) "any"

/-- Alternatives with their texts in a union. -/
def shownAlternatives (scope : TypeScope) : List TypeNode → List (TypeNode × String)
  | [] => []
  | t :: rest => (t, alternativeText t (shownType scope t).text) :: shownAlternatives scope rest

def shownTexts (scope : TypeScope) : List TypeNode → List String
  | [] => []
  | t :: rest => (shownType scope t).text :: shownTexts scope rest

def shownOption (scope : TypeScope) : Option TypeNode → Option String
  | none => none
  | some t => some (shownType scope t).text

def shownParams (scope : TypeScope) :
    List (FunctionParam TypeNode) → List (FunctionParam ShownType)
  | [] => []
  | ⟨name, t, optional, variadic⟩ :: rest =>
    ⟨name, shownType scope t, optional, variadic⟩ :: shownParams scope rest

def shownFields (scope : TypeScope) : List (RecordField TypeNode) → List (RecordField String)
  | [] => []
  | ⟨name, t, optional, description⟩ :: rest =>
    ⟨name, (shownType scope t).text, optional, description⟩ :: shownFields scope rest

end

/-- Prints a type. -/
def typeText (scope : TypeScope) (t : TypeNode) : String :=
  (shownType scope t).text

/-- The name, if the scope has no answer for it. -/
def TypeScope.unresolved (scope : TypeScope) (name : String) : List String :=
  if (scope.resolve name).isSome then [] else [name]

mutual

/-- The names without an answer, in the order in which the printer meets them. -/
def unresolvedNames (scope : TypeScope) : TypeNode → List String
  | .named name => scope.unresolved name
  | .union members => unresolvedInAll scope members
  | .array element => unresolvedNames scope element
  | .generic base args =>
    unresolvedInAll scope args ++ if isDictionary base args then [] else scope.unresolved base
  | .function params returns thisType constructs =>
    unresolvedInParams scope params ++ unresolvedInOption scope thisType ++
      if constructs.isSome then unresolvedInOption scope constructs
      else unresolvedInOption scope returns
  | .record fields => unresolvedInFields scope fields
  | .literal _ => []
  | .unreadable _ => []

def unresolvedInAll (scope : TypeScope) : List TypeNode → List String
  | [] => []
  | t :: rest => unresolvedNames scope t ++ unresolvedInAll scope rest

def unresolvedInOption (scope : TypeScope) : Option TypeNode → List String
  | none => []
  | some t => unresolvedNames scope t

def unresolvedInParams (scope : TypeScope) : List (FunctionParam TypeNode) → List String
  | [] => []
  | ⟨_, t, _, _⟩ :: rest => unresolvedNames scope t ++ unresolvedInParams scope rest

def unresolvedInFields (scope : TypeScope) : List (RecordField TypeNode) → List String
  | [] => []
  | ⟨_, t, _, _⟩ :: rest => unresolvedNames scope t ++ unresolvedInFields scope rest

end

end AmbientDecl

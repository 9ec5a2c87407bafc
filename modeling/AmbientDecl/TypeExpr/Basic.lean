/-!
# Types of declarations

The types that documentation comments write and declarations print. A type is a name, a literal, or
built from types as a union, an array, an application of a generic type, a function or a record. An
expression that could not be read is kept as it was written.

Documentation comments spell one type in several ways: `String` and `string`, `Array<T>` and `T[]`,
`Object<V>` and `Object<string, V>`. The functions here build types in one spelling, and the reader
of type expressions builds its results with them only.
-/

namespace AmbientDecl

/-- A parameter of a function type. -/
structure FunctionParam (τ : Type) where
  name : Option String
  type : τ
  optional : Bool
  variadic : Bool
deriving Repr

/-- A field of a record type. -/
structure RecordField (τ : Type) where
  name : String
  type : τ
  optional : Bool
  description : Option String
deriving Repr

/-- A type. -/
inductive TypeNode where
  /-- A primitive, a global type or a documented symbol. -/
  | named (name : String)
  | union (members : List TypeNode)
  | array (element : TypeNode)
  | generic (base : String) (args : List TypeNode)
  /-- A function; `constructs` is the type of the object that it makes when called with `new`. -/
  | function (params : List (FunctionParam TypeNode))
      (returns thisType constructs : Option TypeNode)
  | record (fields : List (RecordField TypeNode))
  /-- A string, a number or a truth value, as it is written. -/
  | literal (text : String)
  /-- An expression that could not be read. -/
  | unreadable (raw : String)
deriving Repr, Inhabited

namespace TypeNode

mutual

def same : TypeNode → TypeNode → Bool
  | .named a, .named b => a == b
  | .union as, .union bs => sameAll as bs
  | .array a, .array b => same a b
  | .generic a as, .generic b bs => a == b && sameAll as bs
  | .function ps r t c, .function ps' r' t' c' =>
    sameParams ps ps' && sameOption r r' && sameOption t t' && sameOption c c'
  | .record fs, .record fs' => sameFields fs fs'
  | .literal a, .literal b => a == b
  | .unreadable a, .unreadable b => a == b
  | _, _ => false

def sameAll : List TypeNode → List TypeNode → Bool
  | [], [] => true
  | a :: as, b :: bs => same a b && sameAll as bs
  | _, _ => false

def sameOption : Option TypeNode → Option TypeNode → Bool
  | none, none => true
  | some a, some b => same a b
  | _, _ => false

def sameParams : List (FunctionParam TypeNode) → List (FunctionParam TypeNode) → Bool
  | [], [] => true
  | ⟨n, a, o, v⟩ :: as, b :: bs =>
    n == b.name && same a b.type && o == b.optional && v == b.variadic && sameParams as bs
  | _, _ => false

def sameFields : List (RecordField TypeNode) → List (RecordField TypeNode) → Bool
  | [], [] => true
  | ⟨n, a, o, d⟩ :: as, b :: bs =>
    n == b.name && same a b.type && o == b.optional && d == b.description && sameFields as bs
  | _, _ => false

end

mutual

theorem same_iff : ∀ a b : TypeNode, same a b = true ↔ a = b
  | .named a, b => by cases b <;> simp [same]
  | .union as, b => by cases b <;> simp [same, sameAll_iff as]
  | .array a, b => by cases b <;> simp [same, same_iff a]
  | .generic a as, b => by cases b <;> simp [same, sameAll_iff as]
  | .function ps r t c, b => by
    cases b <;> simp [same, sameParams_iff ps, sameOption_iff r, sameOption_iff t, sameOption_iff c,
      and_assoc]
  | .record fs, b => by cases b <;> simp [same, sameFields_iff fs]
  | .literal a, b => by cases b <;> simp [same]
  | .unreadable a, b => by cases b <;> simp [same]

theorem sameAll_iff : ∀ as bs : List TypeNode, sameAll as bs = true ↔ as = bs
  | [], bs => by cases bs <;> simp [sameAll]
  | a :: as, bs => by cases bs <;> simp [sameAll, same_iff a, sameAll_iff as]

theorem sameOption_iff : ∀ a b : Option TypeNode, sameOption a b = true ↔ a = b
  | none, b => by cases b <;> simp [sameOption]
  | some a, b => by cases b <;> simp [sameOption, same_iff a]

theorem sameParams_iff :
    ∀ as bs : List (FunctionParam TypeNode), sameParams as bs = true ↔ as = bs
  | [], bs => by cases bs <;> simp [sameParams]
  | ⟨n, a, o, v⟩ :: as, bs => by
    cases bs with
    | nil => simp [sameParams]
    | cons b bs => cases b; simp [sameParams, same_iff a, sameParams_iff as, and_assoc]

theorem sameFields_iff :
    ∀ as bs : List (RecordField TypeNode), sameFields as bs = true ↔ as = bs
  | [], bs => by cases bs <;> simp [sameFields]
  | ⟨n, a, o, d⟩ :: as, bs => by
    cases bs with
    | nil => simp [sameFields]
    | cons b bs => cases b; simp [sameFields, same_iff a, sameFields_iff as, and_assoc]

end

instance : DecidableEq TypeNode := fun a b =>
  if h : same a b = true then isTrue ((same_iff a b).1 h)
  else isFalse fun e => h ((same_iff a b).2 e)

mutual

/-- The number of types on the longest way into a type, the type itself included. -/
@[simp] def height : TypeNode → Nat
  | .named _ | .literal _ | .unreadable _ => 1
  | .array element => height element + 1
  | .union members => heightAll members + 1
  | .generic _ args => heightAll args + 1
  | .function params returns thisType constructs =>
    max (heightParams params) (max (heightOption returns)
      (max (heightOption thisType) (heightOption constructs))) + 1
  | .record fields => heightFields fields + 1

@[simp] def heightAll : List TypeNode → Nat
  | [] => 0
  | t :: ts => max (height t) (heightAll ts)

@[simp] def heightOption : Option TypeNode → Nat
  | none => 0
  | some t => height t

@[simp] def heightParams : List (FunctionParam TypeNode) → Nat
  | [] => 0
  | ⟨_, t, _, _⟩ :: ps => max (height t) (heightParams ps)

@[simp] def heightFields : List (RecordField TypeNode) → Nat
  | [] => 0
  | ⟨_, t, _, _⟩ :: fs => max (height t) (heightFields fs)

end

mutual

/-- The calls that comparing two types takes, which goes on to the first difference: three from an
array to its elements, one more where the parts of a type are a list. -/
def comparing : TypeNode → TypeNode → Nat
  | .array a, .array b => comparing a b + 3
  | .union as, .union bs => comparingAll as bs + 4
  | .generic a as, .generic b bs => if a = b then comparingAll as bs + 4 else 0
  | .function ps r t c, .function ps' r' t' c' =>
    max (comparingParams ps ps' + 4) <| if !sameParams ps ps' then 0 else
      max (comparingOption r r' + 3) <| if !sameOption r r' then 0 else
        max (comparingOption t t' + 3) <| if !sameOption t t' then 0 else comparingOption c c' + 3
  | .record fs, .record fs' => comparingFields fs fs' + 4
  | _, _ => 0

def comparingAll : List TypeNode → List TypeNode → Nat
  | a :: as, b :: bs => max (comparing a b) (if same a b then comparingAll as bs else 0)
  | _, _ => 0

def comparingOption : Option TypeNode → Option TypeNode → Nat
  | some a, some b => comparing a b
  | _, _ => 0

def comparingParams : List (FunctionParam TypeNode) → List (FunctionParam TypeNode) → Nat
  | ⟨n, a, o, v⟩ :: as, b :: bs =>
    if n != b.name then 0
    else max (comparing a b.type + 3) <|
      if same a b.type && o == b.optional && v == b.variadic then comparingParams as bs else 0
  | _, _ => 0

def comparingFields : List (RecordField TypeNode) → List (RecordField TypeNode) → Nat
  | ⟨n, a, o, d⟩ :: as, b :: bs =>
    if n != b.name then 0
    else max (comparing a b.type + 3) <|
      if same a b.type && o == b.optional && d == b.description then comparingFields as bs else 0
  | _, _ => 0

end

def any : TypeNode := .named "any"

def void : TypeNode := .named "void"

def null : TypeNode := .named "null"

def string : TypeNode := .named "string"

def undefined : TypeNode := .named "undefined"

end TypeNode

/-- The names that a declaration may use without declaring them. -/
def primitiveNames : List String :=
  ["any", "unknown", "never", "string", "number", "boolean", "bigint", "symbol", "object",
   "undefined", "null", "void", "this"]

/-- Spellings in comments and the names that declarations use for them. -/
def spellings : List (String × String) :=
  [("*", "any"), ("mixed", "any"), ("bool", "boolean"), ("Boolean", "boolean"),
   ("String", "string"), ("Number", "number"), ("int", "number"), ("integer", "number"),
   ("float", "number"), ("Symbol", "symbol"), ("Undefined", "undefined"), ("Null", "null"),
   ("function", "Function")]

/-- Replaces the spellings of a primitive type by one. -/
def canonicalName (name : String) : String :=
  (spellings.lookup name).getD name

def isArrayName (name : String) : Bool :=
  name == "Array" || name == "array"

def isObjectName (name : String) : Bool :=
  name == "Object" || name == "object"

namespace TypeNode

/-- The type of a name; arrays without an element type hold anything. -/
def ofName (name : String) : TypeNode :=
  let canonical := canonicalName name
  if isArrayName canonical then .array any else .named canonical

/-- A generic type applied to one or more types. An array has one argument, an object a key type
and a value type, of which the key type may be left out. -/
def applied (base : String) (first : TypeNode) (others : List TypeNode) : TypeNode :=
  let canonical := canonicalName base
  if isArrayName canonical && others.isEmpty then .array first
  else if isObjectName canonical then
    match others with
    | [] => .generic "Object" [string, first]
    | second :: _ => .generic "Object" [first, second]
  else .generic canonical (first :: others)

/-- A generic type applied to any number of types; an object needs at least one. -/
def applied? (base : String) : List TypeNode → Option TypeNode
  | [] =>
    if isObjectName (canonicalName base) then none else some (.generic (canonicalName base) [])
  | first :: others => some (applied base first others)

/-- The members of a union, or the type itself. -/
def alternatives : TypeNode → List TypeNode
  | .union members => members
  | t => [t]

/-- The union of types: the alternatives of each in order, repetitions left out; a single
alternative is that type itself. -/
def unionOf (types : List TypeNode) : TypeNode :=
  match (types.flatMap alternatives).eraseDups with
  | [t] => t
  | members => .union members

def orNull (t : TypeNode) : TypeNode :=
  unionOf [t, null]

/-- Whether a type can be looked for among others, one after another up to the first equal one, with
so many calls. -/
def seeksWithin (calls : Nat) (t : TypeNode) : List TypeNode → Bool
  | [] => true
  | kept :: rest => comparing kept t ≤ calls && (kept == t || seeksWithin calls t rest)

/-- Whether alternatives can be added to those `kept`, without repetitions, with so many calls. -/
def collectsWithin (calls : Nat) (kept : List TypeNode) : List TypeNode → Bool
  | [] => true
  | t :: rest =>
    seeksWithin calls t kept &&
      collectsWithin calls (if kept.contains t then kept else kept ++ [t]) rest

/-- Whether types can be joined with so many calls. -/
def unitesWithin (calls : Nat) (types : List TypeNode) : Bool :=
  collectsWithin calls [] (types.flatMap alternatives)

end TypeNode

end AmbientDecl

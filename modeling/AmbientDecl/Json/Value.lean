import AmbientDecl.Decimal.Binary64
import AmbientDecl.Text.Basic

/-!
# JSON values

The values of a JSON document. Integers are exact, numbers written with a point or an exponent are
binary floating-point numbers, and the members of an object keep the order in which their names
first appear.

The members of an object can also be listed: an array of pairs, each of a name and a value. A text
of two characters is a pair as well, and so are the names of an object of two members. Of several
pairs of one name the last counts, at the place of the first.
-/

namespace AmbientDecl.Json

open Text Decimal

/-- A value of JSON; members keep their order. -/
inductive Value where
  | null
  | bool (b : Bool)
  | int (n : Int)
  | float (x : Binary64)
  | string (s : String)
  | array (items : List Value)
  | object (members : List (String × Value))
deriving Inhabited, Repr

/-- The value of a name in a list of members. -/
def lookup (name : String) (members : List (String × Value)) : Option Value :=
  (members.find? fun m => m.1 == name).map (·.2)

/-- Sets the value of a name, at its place if it has one and at the end otherwise. -/
def putMember (name : String) (v : Value) : List (String × Value) → List (String × Value)
  | [] => [(name, v)]
  | m :: members => if m.1 = name then (name, v) :: members else m :: putMember name v members

/-- The members in the order in which their names first appear, each with its last value. -/
def distinctMembers (members : List (String × Value)) : List (String × Value) :=
  members.foldl (fun acc m => putMember m.1 m.2 acc) []

namespace Value

def member? (name : String) : Value → Option Value
  | .object members => lookup name members
  | _ => none

def ofString? : Option String → Value
  | some s => .string s
  | none => .null

def ofInt? : Option Int → Value
  | some n => .int n
  | none => .null

def ofStrings (ss : List String) : Value :=
  .array (ss.map .string)

mutual

/-- A value as a message shows it. -/
def shown : Value → String
  | .null => "None"
  | .bool b => if b then "True" else "False"
  | .int n => toString n
  | .float x => x.text
  | .string s => quoted s
  | .array items => "[" ++ joinedItems items ++ "]"
  | .object members => "\x7b" ++ joinedMembers members ++ "\x7d"

def joinedItems : List Value → String
  | [] => ""
  | [v] => shown v
  | v :: rest => shown v ++ ", " ++ joinedItems rest

def joinedMembers : List (String × Value) → String
  | [] => ""
  | [(name, v)] => quoted name ++ ": " ++ shown v
  | (name, v) :: rest => quoted name ++ ": " ++ shown v ++ ", " ++ joinedMembers rest

end

/-- The value as text: a string is itself, any other value is shown. -/
def text : Value → String
  | .string s => s
  | v => shown v

mutual

/-- The value with null for every infinity and for no number, which JSON cannot write. -/
def writable : Value → Value
  | .float x => if x.isFinite then .float x else .null
  | .array items => .array (writableItems items)
  | .object members => .object (writableMembers members)
  | v => v

def writableItems : List Value → List Value
  | [] => []
  | v :: rest => writable v :: writableItems rest

def writableMembers : List (String × Value) → List (String × Value)
  | [] => []
  | (name, v) :: rest => (name, writable v) :: writableMembers rest

end

mutual

/-- The number of values on the longest way into the value, itself included. -/
def depth : Value → Nat
  | .array items => itemsDepth items + 1
  | .object members => membersDepth members + 1
  | _ => 1

def itemsDepth : List Value → Nat
  | [] => 0
  | v :: rest => max (depth v) (itemsDepth rest)

def membersDepth : List (String × Value) → Nat
  | [] => 0
  | (_, v) :: rest => max (depth v) (membersDepth rest)

end

mutual

/-- The digits of the longest integer in the value. -/
def digits : Value → Nat
  | .int n => (toString n.natAbs).length
  | .array items => itemsDigits items
  | .object members => membersDigits members
  | _ => 0

def itemsDigits : List Value → Nat
  | [] => 0
  | v :: rest => max (digits v) (itemsDigits rest)

def membersDigits : List (String × Value) → Nat
  | [] => 0
  | (_, v) :: rest => max (digits v) (membersDigits rest)

end

/-- Whether the value counts as present: not null, false, zero or empty. -/
def truthy : Value → Bool
  | .null => false
  | .bool b => b
  | .int n => n != 0
  | .float (.finite _ mantissa _) => mantissa != 0
  | .float _ => true
  | .string s => s != ""
  | .array items => !items.isEmpty
  | .object members => !members.isEmpty

end Value

/-- Why a value lists no members. -/
inductive PairProblem where
  /-- No list of anything, but a value of this class. -/
  | noList (className : String)
  /-- An item at a place that is no list of anything. -/
  | noParts (index : Nat)
  /-- An item at a place that has not two parts. -/
  | notPair (index parts : Nat)
  /-- An item at a place whose name is a list or an object. -/
  | compositeName (isArray : Bool)
deriving DecidableEq, Repr

def PairProblem.message : PairProblem → String
  | .noList className => s!"'{className}' object is not iterable"
  | .noParts index =>
    s!"cannot convert dictionary update sequence element #{index} to a sequence"
  | .notPair index parts =>
    s!"dictionary update sequence element #{index} has length {parts}; 2 is required"
  | .compositeName true => "unhashable type: 'list'"
  | .compositeName false => "unhashable type: 'dict'"

/-- The two parts of an item that lists a member; a text has its characters for parts. -/
def listedPair (index : Nat) : Value → Except PairProblem (Value × Value)
  | .array [name, v] => .ok (name, v)
  | .array items => .error (.notPair index items.length)
  | .string s => match s.toList with
    | [a, b] => .ok (.string (toString a), .string (toString b))
    | cs => .error (.notPair index cs.length)
  | .object [(a, _), (b, _)] => .ok (.string a, .string b)
  | .object ms => .error (.notPair index ms.length)
  | _ => .error (.noParts index)

/-- The members that items list, of which the first has the index `start`. -/
def listedMembersFrom (start : Nat) : List Value → Except PairProblem (List (String × Value))
  | [] => .ok []
  | item :: rest => do
    let (name, v) ← listedPair start item
    match name with
    | .array _ => throw (.compositeName true)
    | .object _ => throw (.compositeName false)
    | name => return (name.text, v) :: (← listedMembersFrom (start + 1) rest)

/-- The members that a value lists: those of an object, or the pairs of an array or a text. -/
def listedMembers : Value → Except PairProblem (List (String × Value))
  | .object ms => .ok ms
  | .array items => distinctMembers <$> listedMembersFrom 0 items
  | .string s =>
    distinctMembers <$> listedMembersFrom 0 (s.toList.map fun c => .string (toString c))
  | .null => .error (.noList "NoneType")
  | .bool _ => .error (.noList "bool")
  | .int _ => .error (.noList "int")
  | .float _ => .error (.noList "float")

end AmbientDecl.Json

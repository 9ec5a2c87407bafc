import AmbientDecl.Json.Value

/-!
# Checked values and decoders

Reading a record out of a JSON value either gives the record or a list of faults, each at a path
into the value. All faults are collected, in the order of the fields.

A text writes an integer plainly if it has digits only, no zero before other digits, and perhaps a
minus sign. Of the texts that do not, some can be tidied: white space around the number, a plus
sign, zeros before the first other digit, a fraction of zeros and single underscores between digits
are left out. A number of very many digits is refused.

Single values and the fields of records are read by lenient rules: a truth value may be written as a
number or a word, an integer as a text or as a number without a fraction.
-/

namespace AmbientDecl.Validation

open Json Text

/-- What is wrong with a value. -/
inductive Problem where
  | missing
  | notString
  | notBoolean
  /-- A number or text that stands for no truth value. -/
  | strangeBoolean
  | notInteger
  /-- A text that does not write an integer. -/
  | strangeInteger
  | fractionalInteger
  /-- An integer that is too great to be read. -/
  | oversizedInteger
  | notFinite
  | notList
  | notTuple
  | notSet
  /-- Not an object of this class. -/
  | notObject (className : String)
  /-- None of the values of an enumeration. -/
  | notOneOf (choices : List String)
  /-- A member that no field takes. -/
  | unknownMember
  /-- No object at all where a tagged one is needed. -/
  | notTagged
  | noTag (tag : String)
  | unknownTag (tag found : String) (choices : List String)
deriving DecidableEq, Repr

/-- Choices as a message lists them, the last after `or`. -/
def listedChoices : List String → String
  | [] => ""
  | [choice] => quoted choice
  | [a, b] => quoted a ++ " or " ++ quoted b
  | choice :: rest => quoted choice ++ ", " ++ listedChoices rest

def Problem.message : Problem → String
  | .missing => "Field required"
  | .notString => "Input should be a valid string"
  | .notBoolean => "Input should be a valid boolean"
  | .strangeBoolean => "Input should be a valid boolean, unable to interpret input"
  | .notInteger => "Input should be a valid integer"
  | .strangeInteger => "Input should be a valid integer, unable to parse string as an integer"
  | .fractionalInteger => "Input should be a valid integer, got a number with a fractional part"
  | .oversizedInteger => "Unable to parse input string as an integer, exceeded maximum size"
  | .notFinite => "Input should be a finite number"
  | .notList => "Input should be a valid list"
  | .notTuple => "Input should be a valid tuple"
  | .notSet => "Input should be a valid set"
  | .notObject className => s!"Input should be a valid dictionary or instance of {className}"
  | .notOneOf choices => s!"Input should be {listedChoices choices}"
  | .unknownMember => "Extra inputs are not permitted"
  | .notTagged => "Input should be a valid dictionary or object to extract fields from"
  | .noTag tag => s!"Unable to extract tag using discriminator {quoted tag}"
  | .unknownTag tag found choices =>
    let tag := quoted tag
    let expected := joined ", " (choices.map quoted)
    s!"Input tag '{found}' found using {tag} does not match any of the expected tags: {expected}"

/-- A problem at a path into the value. -/
structure Fault where
  path : List String
  problem : Problem
deriving DecidableEq, Repr

def Fault.message (fault : Fault) : String :=
  joined "." fault.path ++ ": " ++ fault.problem.message

def faultsMessage (faults : List Fault) : String :=
  joined "; " (faults.map Fault.message)

/-- A value, or what is wrong with the input. -/
inductive Checked (α : Type) where
  | valid (a : α)
  | invalid (faults : List Fault)

namespace Checked

variable {α β : Type}

/-- Applies a function to a valid value. -/
protected def map (f : α → β) : Checked α → Checked β
  | .valid a => .valid (f a)
  | .invalid faults => .invalid faults

/-- Applies a checked function to a checked value, joining the faults of both. -/
protected def seq : Checked (α → β) → Checked α → Checked β
  | .valid f, .valid a => .valid (f a)
  | .valid _, .invalid faults => .invalid faults
  | .invalid faults, .valid _ => .invalid faults
  | .invalid faults, .invalid more => .invalid (faults ++ more)

instance : Functor Checked where
  map := Checked.map

instance : Applicative Checked where
  pure := .valid
  seq f x := Checked.seq f (x ())

/-- A single fault. -/
def fault (problem : Problem) : Checked α := .invalid [⟨[], problem⟩]

/-- The same with a field name or an index in front of every path. -/
def under (step : String) : Checked α → Checked α
  | .valid a => .valid a
  | .invalid faults => .invalid (faults.map fun f => { f with path := step :: f.path })

/-- A value, or a single fault. -/
def ofExcept : Except Problem α → Checked α
  | .ok a => .valid a
  | .error problem => fault problem

/-- The value or the faults. -/
def toExcept : Checked α → Except (List Fault) α
  | .valid a => .ok a
  | .invalid faults => .error faults

@[simp] theorem map_valid (f : α → β) (a : α) : f <$> (.valid a : Checked α) = .valid (f a) := rfl

@[simp] theorem valid_seq_valid (f : α → β) (a : α) :
    (.valid f : Checked (α → β)) <*> .valid a = .valid (f a) := rfl

@[simp] theorem under_valid (step : String) (a : α) :
    (.valid a : Checked α).under step = .valid a := rfl

end Checked

open Text

def isPositiveDigit (c : Char) : Bool :=
  '1' ≤ c && c ≤ '9'

def signedInteger (negative : Bool) (digits : List Char) : Int :=
  let n : Nat := digits.foldl (fun n c => 10 * n + (c.toNat - 48)) 0
  if negative then -(n : Int) else n

/-- The integer of plain digits, for a number of which `sign` characters were read before. -/
def plainDigits (negative : Bool) (sign : Nat) (cs : List Char) : Except Problem Int :=
  if cs = ['0'] then .ok 0
  else if cs.head?.any isPositiveDigit then
    let digits := cs.takeWhile Char.isDigit
    if digitLimit < sign + digits.length then .error .oversizedInteger
    else if digits.length = cs.length then .ok (signedInteger negative digits)
    else .error .strangeInteger
  else .error .strangeInteger

/-- The integer that a text writes plainly. The length counts before what stands after the
digits. -/
def plainInteger : List Char → Except Problem Int
  | '-' :: cs => plainDigits true 1 cs
  | cs => plainDigits false 0 cs

/-- The text after a zero, without further zeros and underscores; `last` is the character before it.
A last zero and one before a point stay. -/
def afterZero (last : Char) : List Char → Option (List Char)
  | [] => some [last]
  | c :: rest =>
    if c = '0' || c = '_' then afterZero c rest
    else if isPositiveDigit c || c = '-' then some (c :: rest)
    else if c = '.' then some (last :: c :: rest)
    else none

/-- The text of a number without the zeros before it. -/
def withoutLeadingZeros : List Char → Option (List Char)
  | [] => none
  | c :: rest =>
    if c = '0' then afterZero c rest
    else if isPositiveDigit c then some (c :: rest)
    else none

/-- The text before a point that only zeros follow. -/
def withoutZeroFraction (cs : List Char) : List Char :=
  match cutFirst '.' cs with
  | some (whole, fraction) => if !fraction.isEmpty && fraction.all (· == '0') then whole else cs
  | none => cs

/-- The text without its underscores, if each of them stands alone between other characters. -/
def withoutUnderscores (cs : List Char) : List Char :=
  let groups := splitAt '_' cs
  if groups.all fun g => !g.isEmpty then groups.flatten else cs

/-- The text of a number without a plus sign before it; a minus sign cannot follow one. -/
def withoutPlus : List Char → Option (List Char)
  | '+' :: '-' :: _ => none
  | '+' :: cs => some cs
  | cs => some cs

/-- A text without what can be left out. -/
def tidied? (cs : List Char) : Option (List Char) := do
  let number ← match ← withoutPlus (trimSpace cs) with
    | '-' :: unsigned => (withoutLeadingZeros unsigned).map ('-' :: ·)
    | unsigned => withoutLeadingZeros unsigned
  return withoutUnderscores (withoutZeroFraction number)

/-- Reads a text as it is, or else tidied. -/
def integerOfText (text : String) : Except Problem Int :=
  match plainInteger text.toList with
  | .error .strangeInteger =>
    match (tidied? text.toList).map plainInteger with
    | some (.ok n) => .ok n
    | _ => .error .strangeInteger
  | result => result

/-- Reads a value of `α`. -/
abbrev Decoder (α : Type) := Value → Checked α

def string : Decoder String
  | .string s => .valid s
  | _ => .fault .notString

def anything : Decoder Value := .valid

def falseWords : List String := ["0", "off", "f", "false", "n", "no"]

def trueWords : List String := ["1", "on", "t", "true", "y", "yes"]

/-- A word for a truth value, in any case. -/
def truthOfWord? (word : String) : Option Bool :=
  let word := String.ofList (word.toList.map Char.toLower)
  if falseWords.contains word then some false
  else if trueWords.contains word then some true
  else none

/-- Integers of at least this magnitude are too great for a machine word; the least word has it. -/
def wordBound : Int := Nat.pow 2 63

/-- A machine word for a truth value. -/
def truthOfWordValue (n : Int) : Checked Bool :=
  if n = 0 then .valid false
  else if n = 1 then .valid true
  else .fault .strangeBoolean

/-- The integer of a number without a fraction, if its magnitude is below that of a word. -/
def wordOfFloat? (x : Decimal.Binary64) : Option Int :=
  x.toInt?.filter fun n => -wordBound < n && n < wordBound

def truth : Decoder Bool
  | .bool b => .valid b
  | .int n => if -wordBound ≤ n && n < wordBound then truthOfWordValue n else .fault .notBoolean
  | .float x => match wordOfFloat? x with
    | some n => truthOfWordValue n
    | none => .fault .notBoolean
  | .string s => match truthOfWord? s with
    | some b => .valid b
    | none => .fault .strangeBoolean
  | _ => .fault .notBoolean

/-- The integer of a number without a fraction. -/
def integerOfFloat (x : Decimal.Binary64) : Except Problem Int :=
  if !x.isFinite then .error .notFinite
  else if x.toInt?.isNone then .error .fractionalInteger
  else match wordOfFloat? x with
    | some n => .ok n
    | none => .error .oversizedInteger

def integer : Decoder Int
  | .int n => .valid n
  | .bool b => .valid (if b then 1 else 0)
  | .float x => .ofExcept (integerOfFloat x)
  | .string s => .ofExcept (integerOfText s)
  | _ => .fault .notInteger

def orNull {α : Type} (decoder : Decoder α) : Decoder (Option α)
  | .null => .valid none
  | v => some <$> decoder v

/-- The items of a list, of which the first has the index `start`. -/
def itemsFrom {α : Type} (decoder : Decoder α) (start : Nat) : List Value → Checked (List α)
  | [] => .valid []
  | v :: rest =>
    (· :: ·) <$> (decoder v).under (toString start) <*> itemsFrom decoder (start + 1) rest

def list {α : Type} (decoder : Decoder α) : Decoder (List α)
  | .array items => itemsFrom decoder 0 items
  | _ => .fault .notList

def tuple {α : Type} (decoder : Decoder α) : Decoder (List α)
  | .array items => itemsFrom decoder 0 items
  | _ => .fault .notTuple

def set {α : Type} [BEq α] (decoder : Decoder α) : Decoder (List α)
  | .array items => List.eraseDups <$> itemsFrom decoder 0 items
  | _ => .fault .notSet

def choice {α : Type} (choices : List (String × α)) : Decoder α
  | .string s => match choices.lookup s with
    | some a => .valid a
    | none => .fault (.notOneOf (choices.map (·.1)))
  | _ => .fault (.notOneOf (choices.map (·.1)))

/-- The members of an object. -/
abbrev Members := List (String × Value)

/-- A record read from the members of an object. -/
def object {α : Type} (className : String) (decoder : Members → Checked α) : Decoder α
  | .object members => decoder members
  | _ => .fault (.notObject className)

/-- A record of one of several forms, which the member `tag` names. The faults in it are at paths
that start with the form. -/
def tagged {α : Type} (tag : String) (forms : List (String × (Members → Checked α))) : Decoder α
  | .object members =>
    match lookup tag members with
    | none => .fault (.noTag tag)
    | some found =>
      let form? := match found with
        | .string form => (forms.lookup form).map fun decoder => (form, decoder)
        | _ => none
      match form? with
      | some (form, decoder) => (decoder members).under form
      | none => .fault (.unknownTag tag found.text (forms.map (·.1)))
  | _ => .fault .notTagged

/-- A member that an object must have. -/
def required {α : Type} (members : Members) (name : String) (decoder : Decoder α) : Checked α :=
  match lookup name members with
  | some v => (decoder v).under name
  | none => (Checked.fault .missing).under name

/-- A member of an object, or its default. -/
def field {α : Type} (members : Members) (name : String) (decoder : Decoder α) (absent : α) :
    Checked α :=
  match lookup name members with
  | some v => (decoder v).under name
  | none => .valid absent

end AmbientDecl.Validation

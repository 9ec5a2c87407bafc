import AmbientDecl.Settings.Basic
import AmbientDecl.Toml.Document

/-!
# Sources of settings

A file of variables has a variable on each line: a name, an equals sign and a value. The word
`export` may stand before the name, a value may stand between quotes, and a number sign after white
space starts a comment. A name alone stands for a variable without a value. A line that is none of
this is passed over.

A value may refer to other variables in braces after a dollar sign, perhaps with a text for their
absence. The variables before it in the file come before those of the environment.

Settings come from several sources: what the caller says, environment variables, a file of variables
and configuration files. An earlier source wins over a later one, and objects are merged member by
member.

A variable is named after its field with a lead before it, in any case; for a field inside another
one both names are joined by two underscores. Fields that are no single values are written as JSON.
In the other sources the names of the fields may be in any case as well, those of the fields inside
may not.
-/

namespace AmbientDecl.Dotenv

open Text

/-- A variable with its value, if it has one. -/
abbrev Binding := String × Option String

/-- White space that does not end a line. -/
def isGap (c : Char) : Bool :=
  isBlank c && c != '\n'

/-- The text from the next line on. -/
def nextLine (cs : List Char) : List Char :=
  (cs.dropWhile (· != '\n')).drop 1

def withoutExport (cs : List Char) : List Char :=
  match dropWord "export".toList cs with
  | some (c :: rest) => if isGap c then rest.dropWhile isGap else cs
  | _ => cs

/-- A name, perhaps between quotes, and the text after it. -/
def name? (cs : List Char) : Option (String × List Char) :=
  match cs with
  | '\'' :: rest =>
    match cutFirst '\'' rest with
    | some (c :: body, after) => some (String.ofList (c :: body), after)
    | _ => none
  | _ =>
    let isNameChar (c : Char) : Bool := c != '=' && c != '#' && !isBlank c
    let name := cs.takeWhile isNameChar
    if name.isEmpty then none else some (String.ofList name, cs.dropWhile isNameChar)

/-- What stands before and after the first quote that has no backslash before it. -/
def cutAtQuote (quote : Char) (escaped : Bool) : List Char → Option (List Char × List Char)
  | [] => none
  | c :: rest =>
    if c = quote && !escaped then some ([], rest)
    else (cutAtQuote quote (c == '\\') rest).map fun (body, after) => (c :: body, after)

/-- The characters with the escapes replaced by what they stand for. -/
def unescaped (escaped : Char → Option Char) : List Char → List Char
  | '\\' :: c :: rest =>
    match escaped c with
    | some e => e :: unescaped escaped rest
    | none => '\\' :: unescaped escaped (c :: rest)
  | c :: rest => c :: unescaped escaped rest
  | [] => []

/-- The text up to the closing quote, and what stands after it. If every quote has a backslash
before it, the last one closes. -/
def quotedValue? (quote : Char) (escaped : Char → Option Char) (cs : List Char) :
    Option (String × List Char) :=
  ((cutAtQuote quote false cs).orElse fun _ => cutLast quote cs).map fun (body, after) =>
    (String.ofList (unescaped escaped body), after)

/-- What a backslash can stand before between single quotes. -/
def singleEscape (c : Char) : Option Char :=
  if c = '\\' || c = '\'' then some c else none

/-- What a backslash can stand before between double quotes. -/
def doubleEscape (c : Char) : Option Char :=
  if c = '\\' || c = '\'' || c = '"' then some c
  else if c = 'a' then some '\x07'
  else if c = 'b' then some '\x08'
  else if c = 'f' then some '\x0c'
  else if c = 'n' then some '\n'
  else if c = 'r' then some '\r'
  else if c = 't' then some '\t'
  else if c = 'v' then some '\x0b'
  else none

/-- The characters before a comment, which starts with a number sign after white space. -/
def beforeComment : List Char → List Char
  | [] => []
  | c :: rest =>
    if isBlank c && (rest.dropWhile isBlank).head? == some '#' then [] else c :: beforeComment rest

/-- The value after an equals sign, and what stands after it. -/
def value? (cs : List Char) : Option (String × List Char) :=
  match cs.dropWhile isGap with
  | '\'' :: rest => quotedValue? '\'' singleEscape rest
  | '"' :: rest => quotedValue? '"' doubleEscape rest
  | _ => some (String.ofList (trim (beforeComment (cs.takeWhile (· != '\n')))),
      cs.dropWhile (· != '\n'))

/-- The text after the end of the line, if nothing but a comment is left on it. -/
def afterLine? (cs : List Char) : Option (List Char) :=
  let rest := cs.dropWhile isGap
  let rest := if rest.head? = some '#' then rest.dropWhile (· != '\n') else rest
  match rest with
  | [] => some []
  | c :: after => if c = '\n' then some after else none

/-- The variable at the front of the text, if the line gives one, and the text from the next line
on. A value between quotes may go over several lines. -/
def line (cs : List Char) : Option Binding × List Char :=
  let start := withoutExport cs
  if start.head? = some '#' then (none, nextLine start)
  else match name? start with
    | none => (none, nextLine start)
    | some (name, afterName) =>
      let (v, after) : Option (Option String) × List Char := match afterName.dropWhile isGap with
        | '=' :: rest =>
          match value? rest with
          | some (v, after) => (some (some v), after)
          | none => (none, rest)
        | after => (some none, after)
      match v, afterLine? after with
      | some v, some next => (some (name, v), next)
      | _, _ => (none, nextLine after)

def bindings (cs : List Char) : List Binding :=
  match cs.dropWhile isBlank with
  | [] => []
  | start =>
    let (binding, after) := line start
    if after.length < cs.length then binding.toList ++ bindings after else binding.toList
termination_by cs.length

/-- The name and the text for its absence of a reference from after its brace, and the text after
it. -/
def reference? (cs : List Char) : Option (String × String × List Char) :=
  let isNameChar (c : Char) : Bool := c != '\x7d' && c != ':'
  let name := String.ofList (cs.takeWhile isNameChar)
  match cs.dropWhile isNameChar with
  | '\x7d' :: after => some (name, "", after)
  | ':' :: '-' :: rest =>
    (cutFirst '\x7d' rest).map fun (absent, after) => (name, String.ofList absent, after)
  | _ => none

/-- The characters with every reference replaced by the value of its variable. -/
def substituted (valueOf? : String → Option String) (cs : List Char) : List Char :=
  match cs with
  | '$' :: '\x7b' :: rest =>
    match reference? rest with
    | some (name, absent, after) =>
      if after.length < rest.length then
        ((valueOf? name).getD absent).toList ++ substituted valueOf? after
      else '$' :: substituted valueOf? ('\x7b' :: rest)
    | none => '$' :: substituted valueOf? ('\x7b' :: rest)
  | c :: rest => c :: substituted valueOf? rest
  | [] => []
termination_by cs.length

/-- Sets a variable, at its place if it was set before. -/
def put (name : String) (v : Option String) : List Binding → List Binding
  | [] => [(name, v)]
  | b :: rest => if b.1 = name then (name, v) :: rest else b :: put name v rest

/-- The value that a reference to a variable stands for. One without a value stands for no text. -/
def valueOf? (environment : List (String × String)) (earlier : List Binding) (name : String) :
    Option String :=
  match earlier.lookup name with
  | some v => some (v.getD "")
  | none => environment.lookup name

/-- The variables with their values after all references are replaced. -/
def resolved (environment : List (String × String)) (bs : List Binding) : List Binding :=
  bs.foldl
    (fun earlier (name, v) =>
      put name (v.map fun text =>
        String.ofList (substituted (valueOf? environment earlier) text.toList)) earlier) []

/-- The variables that a file sets. A byte order mark at its start is no part of it. -/
def assignments (environment : List (String × String)) (text : String) : List Binding :=
  let cs := (toLineFeeds text).toList
  resolved environment (bindings (if cs.head? = some '﻿' then cs.drop 1 else cs))

end AmbientDecl.Dotenv

namespace AmbientDecl

open Json Text Validation

/-- Why there are no settings. -/
inductive SettingsFailure where
  /-- The values are not valid. -/
  | invalid (faults : List Fault)
  /-- A variable is not written as JSON; `fromFile` if it comes from a file of variables. -/
  | unreadableVariable (field : String) (fromFile : Bool)
  /-- A configuration file cannot be read. -/
  | unreadableToml (fault : Toml.Fault)
  /-- A configuration file in JSON cannot be read. -/
  | unreadableJson (fault : SyntaxFault)
  /-- A configuration file in JSON holds no members. -/
  | noMembers (problem : PairProblem)

mutual

/-- The value that a stronger one makes of a weaker one: objects are merged, anything else is
replaced. -/
def mergeValue (weak : Option Value) : Value → Value
  | .object strong =>
    match weak with
    | some (.object members) => .object (mergeMembers members strong)
    | _ => .object strong
  | v => v

/-- Merges the members of two objects. -/
def mergeMembers (weak : List (String × Value)) : List (String × Value) → List (String × Value)
  | [] => weak
  | (name, v) :: rest => mergeMembers (putMember name (mergeValue (lookup name weak) v) weak) rest

end

/-- The members with the names of the fields that they mean: the name itself or else the first that
differs in case only. Members that mean no field come after them. -/
def namedMembers (ms : Members) : Members :=
  let valueOf? (field : String) : Option Value :=
    (lookup field ms).orElse fun _ => (ms.find? fun m => lowered m.1 == field).map (·.2)
  let named := Settings.fieldNames.filterMap fun field => (valueOf? field).map fun v => (field, v)
  named ++ ms.filter fun m => !Settings.fieldNames.contains (lowered m.1)

/-- Variables by lower-case names, of several of one name the last. One without a value is null. -/
def lowerVariables (assignments : List (String × Option String)) : Members :=
  distinctMembers (assignments.map fun (name, text) => (lowered name, .ofString? text))

/-- The pieces of a name between two underscores. -/
def nameParts : List Char → List (List Char)
  | [] => [[]]
  | '_' :: '_' :: rest => [] :: nameParts rest
  | c :: rest =>
    match nameParts rest with
    | [] => [[c]]
    | part :: parts => (c :: part) :: parts

/-- Sets the value at a path; a path through something that is no object leads nowhere. -/
def putPath (v : Value) : List String → Members → Members
  | [], ms => ms
  | [name], ms => putMember name v ms
  | name :: path, ms =>
    match lookup name ms with
    | some (.object inner) => putMember name (.object (putPath v path inner)) ms
    | some _ => ms
    | none => putMember name (.object (putPath v path [])) ms

/-- What the variables for fields inside a field say. -/
def innerMembers (assignments : Members) (variableName : String) : Members :=
  assignments.foldl
    (fun ms (name, v) =>
      match dropWord (variableName ++ "__").toList name.toList with
      | some rest => putPath v ((nameParts rest).map String.ofList) ms
      | none => ms) []

/-- The members under the names of fields that they have in another case. -/
def foldNames (names : List String) (ms : Members) : Members :=
  ms.foldl
    (fun acc (name, v) =>
      putMember ((names.find? fun n => lowered n == lowered name).getD name) v acc) []

/-- The names of the fields inside a field, if it has any. -/
def innerNames (field : String) : Option (List String) :=
  if field = "since" then some Settings.sinceNames
  else if field = "output" then some Settings.outputNames
  else none

/-- Whether the variable of a field is written as JSON. -/
def isCompound (field : String) : Bool :=
  field == "ignore_scopes" || field == "known_types" || (innerNames field).isSome

/-- The value of a field that is written as JSON, with what inner variables say. -/
def compoundValue? (fromFile : Bool) (assignments : Members) (field variableName : String) :
    Except SettingsFailure (Option Value) :=
  let inner := innerMembers assignments variableName
  let folded (ms : Members) : Value := .object (match innerNames field with
    | some names => foldNames names ms
    | none => ms)
  match lookup variableName assignments with
  | some (.string text) =>
    match Json.parse text with
    | .ok .null => .ok none
    | .ok (.object ms) => .ok (some (folded (mergeMembers ms inner)))
    | .ok v => .ok (some v)
    | .error _ => .error (.unreadableVariable field fromFile)
  | _ => .ok (if inner.isEmpty then none else some (folded inner))

/-- The value of a field that is written as it is. -/
def plainValue? (assignments : Members) (variableName : String) : Option Value :=
  match lookup variableName assignments with
  | some (.string text) => some (.string text)
  | _ => none

/-- What the variables say about fields, in their order. -/
def fieldMembers (fromFile : Bool) (lead : String) (assignments : Members) :
    List String → Except SettingsFailure Members
  | [] => .ok []
  | field :: rest => do
    let variableName := lowered (lead ++ field)
    let v? ← if isCompound field then compoundValue? fromFile assignments field variableName
      else .ok (plainValue? assignments variableName)
    let more ← fieldMembers fromFile lead assignments rest
    return v?.toList.map (fun v => (field, v)) ++ more

/-- The settings that variables give. -/
def variableMembers (fromFile : Bool) (lead : String) (assignments : Members) :
    Except SettingsFailure Members :=
  fieldMembers fromFile lead assignments Settings.fieldNames

/-- Whether a variable is meant for a field: it has the name of the field's variable or, for a field
that is written as JSON, a name that starts with it. -/
def isMeantFor (lead name field : String) : Bool :=
  let variableName := lowered (lead ++ field)
  name == variableName || (isCompound field && variableName.toList.isPrefixOf name.toList)

/-- What a file of variables says besides the settings `found` in it. A variable with a value that
is meant for no field counts under its own name. If variables have a lead, the bare names of fields
are passed over. -/
def strayMembers (lead : String) (found assignments : Members) : Members :=
  assignments.foldl
    (fun strays (name, v) =>
      let isKnown := (lookup name (found ++ strays)).isSome
        || (lead != "" && Settings.fieldNames.contains name)
      if !v.truthy || isKnown || Settings.fieldNames.any (isMeantFor lead name) then strays
      else strays ++ [(name, v)]) []

def dotenvMembers (lead : String) (environment : List (String × String)) (text : String) :
    Except SettingsFailure Members := do
  let assignments := lowerVariables (Dotenv.assignments environment text)
  let found ← variableMembers true lead assignments
  return found ++ strayMembers lead found assignments

/-- Where settings come from, the strongest source first. -/
structure SettingsSources where
  overrides : Members
  environment : List (String × String)
  /-- The text of a file of variables. -/
  dotenv : Option String
  /-- The text of a configuration file. -/
  toml : Option String
  /-- The text of a configuration file in JSON. -/
  json : Option String
  /-- What the names of variables start with. -/
  lead : String

/-- What the names of variables start with unless something else is said. -/
def standardLead : String := "TSDOCLET_"

namespace SettingsSources

/-- No source but the environment. -/
def ofEnvironment (environment : List (String × String)) : SettingsSources :=
  ⟨[], environment, none, none, none, standardLead⟩

def tomlMembers (text : Option String) : Except SettingsFailure Members :=
  match text with
  | none => .ok []
  | some text => match Toml.parse text with
    | .ok ms => .ok (namedMembers ms)
    | .error fault => .error (.unreadableToml fault)

/-- What a configuration file in JSON says; a blank one says nothing. -/
def jsonMembers (text : Option String) : Except SettingsFailure Members :=
  let text := toLineFeeds (text.getD "")
  if (trim text.toList).isEmpty then .ok []
  else match Json.parse text with
    | .ok v => match listedMembers v with
      | .ok ms => .ok (namedMembers ms)
      | .error problem => .error (.noMembers problem)
    | .error fault => .error (.unreadableJson fault)

/-- The settings of all sources. -/
def load (s : SettingsSources) : Except SettingsFailure Settings := do
  let toml ← tomlMembers s.toml
  let json ← jsonMembers s.json
  let assignments := s.environment.map fun (name, text) => (name, some text)
  let environment ← variableMembers false s.lead (lowerVariables assignments)
  let dotenv ← dotenvMembers s.lead s.environment (s.dotenv.getD "")
  let merged := [environment, dotenv, toml, json].foldl
    (fun strong weak => mergeMembers weak strong) (namedMembers s.overrides)
  match Settings.decode merged with
  | .valid settings => return settings
  | .invalid faults => throw (.invalid faults)

end SettingsSources

/-- The settings of a caller who is the only source. -/
def Settings.ofMembers (members : Members) : Checked Settings :=
  Settings.decode (namedMembers members)

end AmbientDecl

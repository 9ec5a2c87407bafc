import AmbientDecl.Validation.Decoder

/-!
# Settings

What a user can choose about a run: which doclets take part, how types without a documented symbol
are printed, and how the declarations look.

Settings are read from the members of an object. A member that is absent takes its default; at the
top level a member that no field takes is a fault, inside `since` and `output` it is passed over.
-/

namespace AmbientDecl

/-- What is printed for a type name without a symbol. -/
inductive UnresolvedPolicy where
  /-- The type of every value, and a diagnostic. -/
  | any
  /-- The name as it is. -/
  | keep
deriving DecidableEq, Repr

def UnresolvedPolicy.table : List (String × UnresolvedPolicy) :=
  [("any", .any), ("keep", .keep)]

def UnresolvedPolicy.name : UnresolvedPolicy → String
  | .any => "any"
  | .keep => "keep"

/-- Which tagged versions take part. -/
structure SinceSettings where
  latestVersion : Option String
  /-- The path of the comparator that decides. -/
  comparator : Option String
deriving DecidableEq, Repr

/-- How the declarations are written. -/
structure OutputSettings where
  /-- The name of the file if the destination is a directory. -/
  fileName : String
  /-- What stands once before a nested line for each level. -/
  indent : String
  emitComments : Bool
deriving DecidableEq, Repr

/-- The settings of a compilation. -/
structure Settings where
  /-- Scopes whose doclets take no part. -/
  ignoreScopes : List String
  includePrivate : Bool
  includeUndocumented : Bool
  unresolvedTypes : UnresolvedPolicy
  /-- Global type names that need no documentation. -/
  knownTypes : List String
  since : SinceSettings
  output : OutputSettings
deriving DecidableEq, Repr

/-- The global type names that are known by default. -/
def standardKnownTypes : List String :=
  ["Array", "ArrayBuffer", "Blob", "Date", "Document", "Element", "Error", "Event", "EventTarget",
   "File", "Function", "HTMLElement", "Iterable", "Iterator", "Map", "Node", "NodeList", "Object",
   "Promise", "Record", "RegExp", "Set", "Uint8Array", "WeakMap", "WeakSet", "Window"]

def SinceSettings.standard : SinceSettings := ⟨none, none⟩

def OutputSettings.standard : OutputSettings := ⟨"jsdoc-results.d.ts", "\t", true⟩

/-- The choices of a run that is told nothing. -/
def Settings.standard : Settings :=
  { ignoreScopes := []
    includePrivate := true
    includeUndocumented := false
    unresolvedTypes := .any
    knownTypes := standardKnownTypes
    since := .standard
    output := .standard }

open Json Validation

namespace Settings

def fieldNames : List String :=
  ["ignore_scopes", "include_private", "include_undocumented", "unresolved_types", "known_types",
   "since", "output"]

def sinceNames : List String := ["latest_version", "comparator"]

def outputNames : List String := ["file_name", "indent", "emit_comments"]

def decodeSince : Decoder SinceSettings :=
  object "SinceSettings" fun ms => SinceSettings.mk
    <$> field ms "latest_version" (orNull string) none
    <*> field ms "comparator" (orNull string) none

def decodeOutput : Decoder OutputSettings :=
  object "OutputSettings" fun ms => OutputSettings.mk
    <$> field ms "file_name" string OutputSettings.standard.fileName
    <*> field ms "indent" string OutputSettings.standard.indent
    <*> field ms "emit_comments" truth OutputSettings.standard.emitComments

/-- No member but those of the fields. -/
def noOthers (ms : Members) : Checked Unit :=
  match ms.filter fun m => !fieldNames.contains m.1 with
  | [] => .valid ()
  | others => .invalid (others.map fun m => ⟨[m.1], .unknownMember⟩)

/-- Reads settings; what is not given is standard. -/
def decode (ms : Members) : Checked Settings :=
  (Settings.mk
    <$> field ms "ignore_scopes" (set string) Settings.standard.ignoreScopes
    <*> field ms "include_private" truth Settings.standard.includePrivate
    <*> field ms "include_undocumented" truth Settings.standard.includeUndocumented
    <*> field ms "unresolved_types" (choice UnresolvedPolicy.table)
      Settings.standard.unresolvedTypes
    <*> field ms "known_types" (set string) Settings.standard.knownTypes
    <*> field ms "since" decodeSince .standard
    <*> field ms "output" decodeOutput .standard)
    <* noOthers ms

/-- Names in the order of their characters. -/
def sortedNames (names : List String) : List String :=
  names.mergeSort fun a b => decide (a ≤ b)

def toValue (s : Settings) : Value :=
  .object [("ignore_scopes", .ofStrings (sortedNames s.ignoreScopes)),
    ("include_private", .bool s.includePrivate),
    ("include_undocumented", .bool s.includeUndocumented),
    ("unresolved_types", .string s.unresolvedTypes.name),
    ("known_types", .ofStrings (sortedNames s.knownTypes)),
    ("since", .object [("latest_version", .ofString? s.since.latestVersion),
      ("comparator", .ofString? s.since.comparator)]),
    ("output", .object [("file_name", .string s.output.fileName),
      ("indent", .string s.output.indent), ("emit_comments", .bool s.output.emitComments)])]

end Settings

end AmbientDecl

/-!
# Diagnostics

What a run reports about its input. A recoverable diagnostic is recorded and the run goes on; a
fatal one ends the run. Which of the two it is depends on its kind alone.
-/

namespace AmbientDecl

/-- Whether a run goes on after a diagnostic. -/
inductive Severity where
  | recoverable
  | fatal
deriving DecidableEq, Repr

def Severity.name : Severity → String
  | .recoverable => "recoverable"
  | .fatal => "fatal"

/-- What a diagnostic is about. -/
inductive DiagnosticKind where
  | unresolvedParent
  | unresolvedType
  | unresolvedSupertype
  | nameCollision
  | reservedName
  | malformedType
  | duplicateSymbol
  | unsupportedKind
  | multipleInheritance
  | conflictingKinds
  | cyclicMemberof
  | emptySignatures
  | invalidDoclet
deriving DecidableEq, Repr

namespace DiagnosticKind

def name : DiagnosticKind → String
  | .unresolvedParent => "unresolved-parent"
  | .unresolvedType => "unresolved-type"
  | .unresolvedSupertype => "unresolved-supertype"
  | .nameCollision => "name-collision"
  | .reservedName => "reserved-name"
  | .malformedType => "malformed-type"
  | .duplicateSymbol => "duplicate-symbol"
  | .unsupportedKind => "unsupported-kind"
  | .multipleInheritance => "multiple-inheritance"
  | .conflictingKinds => "conflicting-kinds"
  | .cyclicMemberof => "cyclic-memberof"
  | .emptySignatures => "empty-signatures"
  | .invalidDoclet => "invalid-doclet"

def all : List DiagnosticKind :=
  [.unresolvedParent, .unresolvedType, .unresolvedSupertype, .nameCollision, .reservedName,
   .malformedType, .duplicateSymbol, .unsupportedKind, .multipleInheritance, .conflictingKinds,
   .cyclicMemberof, .emptySignatures, .invalidDoclet]

def ofName? (name : String) : Option DiagnosticKind :=
  all.find? fun kind => kind.name == name

/-- Contradictory or unusable input ends the run; everything else can be worked around. -/
def severity : DiagnosticKind → Severity
  | .conflictingKinds | .cyclicMemberof | .emptySignatures | .invalidDoclet => .fatal
  | _ => .recoverable

end DiagnosticKind

/-- A place in the documented sources. -/
structure SourceLocation where
  filename : Option String
  path : Option String
  lineno : Option Int
deriving DecidableEq, Repr

/-- A text that is present and not empty. -/
def nonempty? (text : Option String) : Option String :=
  text.filter (· ≠ "")

/-- The place as text: the file with its directory, and the line. -/
def SourceLocation.text (location : SourceLocation) : String :=
  let file := (nonempty? location.filename).getD "<unknown>"
  let file := match nonempty? location.path with
    | some path => path ++ "/" ++ file
    | none => file
  match location.lineno with
  | some line => file ++ ":" ++ toString line
  | none => file

/-- A report about a symbol. -/
structure Diagnostic where
  kind : DiagnosticKind
  longname : Option String
  message : String
  source : Option SourceLocation
deriving DecidableEq, Repr

namespace Diagnostic

/-- A diagnostic about something documented, which has a longname and a place. A longname that is
given goes before that. -/
abbrev attributed (kind : DiagnosticKind) (message : String) (longname : Option String)
    (documented : Option (Option String × Option SourceLocation)) : Diagnostic :=
  ⟨kind, longname.or (documented.bind Prod.fst), message, documented.bind Prod.snd⟩

/-- The diagnostics of one kind. -/
abbrev ofKind (kind : DiagnosticKind) (diagnostics : List Diagnostic) : List Diagnostic :=
  diagnostics.filter fun d => d.kind = kind

def severity (d : Diagnostic) : Severity :=
  d.kind.severity

def isFatal (d : Diagnostic) : Bool :=
  d.severity == .fatal

/-- The line that a user sees. -/
def text (d : Diagnostic) : String :=
  let who := match nonempty? d.longname with
    | some longname => " [" ++ longname ++ "]"
    | none => ""
  let where_ := match d.source with
    | some location => " (" ++ location.text ++ ")"
    | none => ""
  s!"{d.severity.name} {d.kind.name}{who}: {d.message}{where_}"

end Diagnostic

end AmbientDecl

import AmbientDecl.Diagnostic
import AmbientDecl.Json.Value
import AmbientDecl.TypeExpr.Parser
import AmbientDecl.Version

/-!
# Runs on machines

Every function of the library has a result for every input, but a machine that carries it out has a
stack for a certain number of calls and writes integers of a certain length. A run notes the tasks
that need either, in the order in which it comes to them, and goes on as if the machine had carried
them out. What becomes of it on a machine with limits follows from the tasks.

A run writes down its diagnostics, the milestones it passes and the tasks that it asks of the
machine, in order. Diagnostics and milestones are also events of a structured log: a level, a
message and named fields.

A stage of a compilation gives a value or fails, and in both cases leaves entries in the journal.
The journal of two stages in a row is the journal of the first followed by that of the second; after
a failure nothing is written any more.
-/

namespace AmbientDecl

/-- What a run asks of the machine. -/
inductive Task where
  /-- Reading a type expression, which compares the alternatives of its unions. -/
  | read (text : String)
  /-- Joining types, which compares their alternatives. -/
  | unite (types : List TypeNode)
  /-- Writing a value with integers of so many digits that is nested so deep. -/
  | write (digits levels : Nat)
  /-- A recursion of so many calls. -/
  | descend (calls : Nat)
deriving DecidableEq, Repr

namespace Task

/-- Writing a value as text. -/
def writing (v : Json.Value) : Task := .write v.digits (v.depth - 1)

/-- Printing a type: two calls for each level. -/
def printing (t : TypeNode) : Task := .descend (2 * t.height)

end Task

/-- The limits of a machine. -/
structure Capacity where
  /-- The calls that the stack holds. -/
  calls : Nat
  /-- The digits of the longest integer that is written. -/
  digits : Nat
deriving DecidableEq, Repr

/-- Why a machine does not carry a task out. -/
inductive Refusal where
  | tooManyDigits (limit : Nat)
  | comparisonTooDeep
  | valueTooDeep
  | recursionTooDeep
deriving DecidableEq, Repr

namespace Capacity

/-- The limits of a usual machine. -/
def standard : Capacity := ⟨950, Text.digitLimit⟩

/-- The reason, if there is one, for which a machine does not carry a task out. -/
def refusal? (c : Capacity) : Task → Option Refusal
  | .read text =>
    match TypeExpr.ofTextOn c.calls text.toList with
    | .error .exhausted => some .comparisonTooDeep
    | _ => none
  | .unite types => if TypeNode.unitesWithin c.calls types then none else some .comparisonTooDeep
  | .write digits levels =>
    if c.calls < levels then some .valueTooDeep
    else if c.digits < digits then some (.tooManyDigits c.digits)
    else none
  | .descend calls => if c.calls < calls then some .recursionTooDeep else none

end Capacity

open Json

/-- What a run passes. -/
inductive Milestone where
  | leftOutByVersion (longname since : String) (latest : Option String)
  | leftOutWithParent (longname : String)
  | forestBuilt (doclets symbols filtered : Nat)
  | overloadsMerged (overloaded : Nat)
  | parametersExpanded (synthesized : Nat)
  | nameSanitized (longname name : String)
  | declarationsEmitted (blocks : Nat)
  | compiled (doclets symbols diagnostics : Nat)
deriving DecidableEq, Repr

/-- A diagnostic, a milestone or a task. -/
inductive Entry where
  | diagnostic (d : Diagnostic)
  | milestone (m : Milestone)
  | task (t : Task)
deriving DecidableEq, Repr

def Entry.diagnostic? : Entry → Option Diagnostic
  | .diagnostic d => some d
  | .milestone _ | .task _ => none

/-- The diagnostics of a journal. -/
def diagnosticsOf (journal : List Entry) : List Diagnostic :=
  journal.filterMap Entry.diagnostic?

/-- How important an event is. -/
inductive LogLevel where
  | debug
  | info
  | warning
  | error
deriving DecidableEq, Repr

def LogLevel.name : LogLevel → String
  | .debug => "debug"
  | .info => "info"
  | .warning => "warning"
  | .error => "error"

/-- The number of a level; a logger shows events of its own number and above. -/
def LogLevel.number : LogLevel → Nat
  | .debug => 10
  | .info => 20
  | .warning => 30
  | .error => 40

/-- An event of the structured log. -/
structure Event where
  level : LogLevel
  message : String
  fields : List (String × Value)

def Milestone.event : Milestone → Event
  | .leftOutByVersion longname since latest =>
    ⟨.debug, "Doclet left out by @since", [("longname", .string longname), ("since", .string since),
      ("latest_version", .ofString? latest)]⟩
  | .leftOutWithParent longname =>
    ⟨.debug, "Member of a filtered symbol left out", [("longname", .string longname)]⟩
  | .forestBuilt doclets symbols filtered =>
    ⟨.debug, "Symbol tree built", [("doclets", .int doclets), ("symbols", .int symbols),
      ("filtered", .int filtered)]⟩
  | .overloadsMerged overloaded =>
    ⟨.debug, "Overloads merged", [("overloaded_symbols", .int overloaded)]⟩
  | .parametersExpanded synthesized =>
    ⟨.debug, "Property parameters expanded", [("synthesized", .int synthesized)]⟩
  | .nameSanitized longname name =>
    ⟨.debug, "Name sanitized", [("longname", .string longname), ("name", .string name)]⟩
  | .declarationsEmitted blocks => ⟨.debug, "Declarations emitted", [("blocks", .int blocks)]⟩
  | .compiled doclets symbols diagnostics =>
    ⟨.info, "Declarations compiled", [("doclets", .int doclets), ("symbols", .int symbols),
      ("diagnostics", .int diagnostics)]⟩

/-- The event of a diagnostic: an error if the run ends with it, else a warning. -/
def Diagnostic.event (d : Diagnostic) : Event :=
  { level := if d.isFatal then .error else .warning
    message := d.message
    fields :=
      [("kind", .string d.kind.name), ("longname", .ofString? d.longname)] ++ match d.source with
        | some location =>
          [("filename", .ofString? location.filename), ("lineno", .ofInt? location.lineno)]
        | none => [] }

/-- The log event of an entry. -/
def Entry.event? : Entry → Option Event
  | .diagnostic d => some d.event
  | .milestone m => some m.event
  | .task _ => none

/-- The line number that is written with a diagnostic: in the event of one that names a file, and in
the text of one that ends the run. -/
def Diagnostic.line? (d : Diagnostic) : Option Int :=
  (d.source.filter fun location => d.isFatal || (nonempty? location.filename).isSome).bind
    SourceLocation.lineno

/-- What the machine has to carry out for an entry. -/
def Entry.tasks : Entry → List Task
  | .diagnostic d => d.line?.toList.map fun line => .writing (.int line)
  | .milestone _ => []
  | .task t => [t]

/-- Why the machine does not carry an entry out. -/
def Entry.refusal? (c : Capacity) (entry : Entry) : Option Refusal :=
  entry.tasks.findSome? c.refusal?

/-- The fields without a field of this name. -/
def withoutField (name : String) (fields : List (String × Value)) : List (String × Value) :=
  fields.filter fun f => f.1 != name

def dropEmptyLongname (fields : List (String × Value)) : List (String × Value) :=
  match lookup "longname" fields with
  | some .null | some (.string "") => withoutField "longname" fields
  | _ => fields

def foldSource (fields : List (String × Value)) : List (String × Value) :=
  let others := withoutField "lineno" (withoutField "filename" fields)
  let file := (lookup "filename" fields).getD .null
  if file.truthy then
    let source := match (lookup "lineno" fields).getD .null with
      | .null => file
      | line => .string (file.text ++ ":" ++ line.text)
    putMember "source" source others
  else others

/-- The fields of an event as they are shown, its message and level among them. -/
def Event.shownFields (e : Event) : List (String × Value) :=
  foldSource (dropEmptyLongname
    (("event", .string e.message) :: ("log_level", .string e.level.name) :: e.fields))

/-- The levels of a logger and its handlers. -/
structure LogLevels where
  logger : Nat
  handlers : List Nat
deriving DecidableEq, Repr

/-- Sets all levels for a run: everything if `debug`, else diagnostics only. A logger without a
handler gets one. -/
def LogLevels.configure (levels : LogLevels) (debug : Bool) : LogLevels :=
  let level := if debug then LogLevel.debug.number else LogLevel.warning.number
  { logger := level
    handlers := if levels.handlers.isEmpty then [level] else levels.handlers.map fun _ => level }

/-- How a run ends without a result. -/
inductive Failure where
  /-- A fatal diagnostic, the last of the journal. -/
  | fatal (d : Diagnostic)
  /-- A module whose longname has no segment to take its path from. -/
  | unnamedModule
  /-- A doclet whose kind is an array or an object. -/
  | compositeKind (isArray : Bool)
  /-- The version comparator of the settings cannot be used. -/
  | comparator (e : ComparatorError)
  /-- Versions that cannot be compared. -/
  | version (run : Text.TooManyDigits)
  /-- A root below the root, which nothing can be declared for. -/
  | nestedRoot
  /-- A task that the machine does not carry out. -/
  | refused (r : Refusal)
deriving DecidableEq, Repr

/-- A journal and the result of the run that wrote it. -/
structure Run (α : Type) where
  journal : List Entry
  result : Except Failure α

namespace Run

variable {α β : Type}

protected def pure (a : α) : Run α := ⟨[], .ok a⟩

protected def bind (x : Run α) (f : α → Run β) : Run β :=
  match x.result with
  | .ok a => ⟨x.journal ++ (f a).journal, (f a).result⟩
  | .error e => ⟨x.journal, .error e⟩

instance : Monad Run where
  pure := Run.pure
  bind := Run.bind

/-- A run that fails. -/
def fail (e : Failure) : Run α := ⟨[], .error e⟩

/-- Writes an entry. -/
def note (entry : Entry) : Run Unit := ⟨[entry], .ok ()⟩

/-- Notes a task. -/
def attempt (t : Task) : Run Unit := note (.task t)

/-- Passes a milestone. -/
def reach (m : Milestone) : Run Unit := note (.milestone m)

/-- Writes a diagnostic and fails if it is fatal. -/
def report (d : Diagnostic) : Run Unit :=
  ⟨[.diagnostic d], if d.isFatal then .error (.fatal d) else .ok ()⟩

/-- Writes several entries, none of which ends the run. -/
def noteAll (entries : List Entry) : Run Unit := ⟨entries, .ok ()⟩

def attemptAll (tasks : List Task) : Run Unit := noteAll (tasks.map Entry.task)

/-- The entries up to the first one that the machine cannot carry out, and the reason. -/
def refusedIn (c : Capacity) : List Entry → Option (List Entry × Refusal)
  | [] => none
  | entry :: rest =>
    match entry.refusal? c with
    | some refusal => some ([entry], refusal)
    | none => (refusedIn c rest).map fun (journal, refusal) => (entry :: journal, refusal)

/-- The run on a machine with limits, which ends at the first task that is not carried out. -/
def on (c : Capacity) (x : Run α) : Run α :=
  match refusedIn c x.journal with
  | some (journal, refusal) => ⟨journal, .error (.refused refusal)⟩
  | none => x

def diagnostics (x : Run α) : List Diagnostic :=
  diagnosticsOf x.journal

@[simp] theorem pure_def (a : α) : (pure a : Run α) = ⟨[], .ok a⟩ := rfl

theorem bind_def (x : Run α) (f : α → Run β) : x >>= f = Run.bind x f := rfl

@[simp] theorem ok_bind (journal : List Entry) (a : α) (f : α → Run β) :
    (⟨journal, .ok a⟩ : Run α) >>= f = ⟨journal ++ (f a).journal, (f a).result⟩ := rfl

@[simp] theorem error_bind (journal : List Entry) (e : Failure) (f : α → Run β) :
    (⟨journal, .error e⟩ : Run α) >>= f = ⟨journal, .error e⟩ := rfl

instance : LawfulMonad Run := LawfulMonad.mk' Run
  (by rintro α ⟨journal, _ | a⟩ <;> simp [Functor.map, Run.bind, Run.pure])
  (by intro α β a f; simp [bind_def, Run.bind])
  (by
    rintro α β γ ⟨journal, e | a⟩ f g
    · rfl
    · cases h : (f a).result <;> simp [bind_def, Run.bind, h, List.append_assoc])

end Run

end AmbientDecl

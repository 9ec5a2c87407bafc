import AmbientDecl.Compile
import AmbientDecl.Settings.Source

/-!
# The command

The command takes the file of doclets and a few options. Options and the file may stand in any
order; after two hyphens alone everything is an argument, and a single hyphen is an argument as
well. Of several values of one option the last counts.

A path is a list of names with slashes between them. Empty names and single points mean nothing, so
one path can be written in several ways; `normalPath` is the way that has neither.

The command reads a file of doclets, compiles it, and writes the declarations to a file or to
standard output. Arguments are checked before anything is read, settings are loaded next, and the
doclets last.

What the command needs from outside is a `Host`, in any monad; what it does there is in its
`Outcome`, apart from reading. So the same definition runs against the real system and against one
made of values.
-/

namespace AmbientDecl

open Text

/-- The options of the command. -/
inductive CommandOption where
  | destination
  | config
  | debug
  | noDebug
  | help
deriving DecidableEq, Repr

namespace CommandOption

def table : List (String × CommandOption) :=
  [("-d", .destination), ("--destination", .destination), ("--config", .config),
   ("--debug", .debug), ("--no-debug", .noDebug), ("-h", .help), ("--help", .help)]

/-- Finds an option by its name. -/
def ofText? (name : String) : Option CommandOption :=
  table.lookup name

def longNames : List String :=
  (table.map (·.1)).filter fun name => "--".toList.isPrefixOf name.toList

/-- The long names that an unknown one is similar to, in the order of their characters. A short name
is similar to none. -/
def similarNames (name : String) : List String :=
  if "--".toList.isPrefixOf name.toList then
    (closeWords longNames name).mergeSort fun a b => decide (a ≤ b)
  else []

def takesValue : CommandOption → Bool
  | .destination | .config => true
  | _ => false

end CommandOption

/-- Why arguments cannot be read. -/
inductive ArgumentFault where
  | unknownOption (name : String)
  /-- An option without the value it needs. -/
  | missingValue (name : String)
  /-- An option with a value it does not take. -/
  | needlessValue (name : String)
deriving DecidableEq, Repr

/-- A command line, taken apart. -/
structure Arguments where
  /-- The options in their order, those with a value with the last one. -/
  options : List (CommandOption × String)
  /-- Everything that is no option. -/
  positional : List String
deriving DecidableEq, Repr

namespace Arguments

def empty : Arguments := ⟨[], []⟩

def valueOf? (a : Arguments) (option : CommandOption) : Option String :=
  a.options.lookup option

def has (a : Arguments) (option : CommandOption) : Bool :=
  (a.valueOf? option).isSome

/-- Sets an option, at its place if it was given before. -/
def set (a : Arguments) (option : CommandOption) (value : String) : Arguments :=
  { a with
    options :=
      if a.has option then a.options.map fun o => if o.1 = option then (option, value) else o
      else a.options ++ [(option, value)] }

def add (a : Arguments) (argument : String) : Arguments :=
  { a with positional := a.positional ++ [argument] }

/-- A word of options in short form, from after its hyphen: the options it sets and, if the last of
them needs a value that follows as the next argument, that option. -/
def shortOptions (a : Arguments) :
    List Char → Except ArgumentFault (Arguments × Option (String × CommandOption))
  | [] => .ok (a, none)
  | c :: rest =>
    let name := String.ofList ['-', c]
    match CommandOption.ofText? name with
    | none => .error (.unknownOption name)
    | some option =>
      if option.takesValue then
        if rest.isEmpty then .ok (a, some (name, option))
        else .ok (a.set option (String.ofList rest), none)
      else shortOptions (a.set option "") rest

/-- A word that starts with a hyphen: the options it sets and, if the last of them needs a value
that follows as the next argument, that option. -/
def optionWord (a : Arguments) (word : List Char) :
    Except ArgumentFault (Arguments × Option (String × CommandOption)) :=
  let (nameChars, value?) := match cutFirst '=' word with
    | some (name, value) => (name, some (String.ofList value))
    | none => (word, none)
  let name := String.ofList nameChars
  match (if "--".toList.isPrefixOf nameChars then CommandOption.ofText? name else none) with
  | some option =>
    match value?, option.takesValue with
    | some value, true => .ok (a.set option value, none)
    | some _, false => .error (.needlessValue name)
    | none, true => .ok (a, some (name, option))
    | none, false => .ok (a.set option "", none)
  | none =>
    if "--".toList.isPrefixOf word then .error (.unknownOption name)
    else shortOptions a (word.drop 1)

def isOptionWord : List Char → Bool
  | '-' :: _ :: _ => true
  | _ => false

/-- Reads arguments; `pending` is an option that waits for its value. -/
def parseFrom (a : Arguments) (pending : Option (String × CommandOption)) :
    List String → Except ArgumentFault Arguments
  | [] => match pending with
    | some (name, _) => .error (.missingValue name)
    | none => .ok a
  | word :: rest =>
    match pending with
    | some (_, option) => parseFrom (a.set option word) none rest
    | none =>
      if word = "--" then .ok { a with positional := a.positional ++ rest }
      else if isOptionWord word.toList then
        match optionWord a word.toList with
        | .ok (a, pending) => parseFrom a pending rest
        | .error fault => .error fault
      else parseFrom (a.add word) none rest

/-- Reads a list of arguments. -/
def parse (words : List String) : Except ArgumentFault Arguments :=
  parseFrom empty none words

end Arguments

/-- What there can be at a path. -/
inductive PathStatus where
  | missing
  | file
  | directory
deriving DecidableEq, Repr

def pathNames (path : String) : List String :=
  ((splitAt '/' path.toList).map String.ofList).filter fun name => name != "" && name != "."

def isAbsolutePath (path : String) : Bool :=
  path.toList.head? == some '/'

/-- The path of names; without any it is the current directory, or the root of the file system. -/
def pathOfNames (isAbsolute : Bool) (names : List String) : String :=
  if isAbsolute then "/" ++ joined "/" names
  else if names.isEmpty then "."
  else joined "/" names

/-- A path without empty names and single points. -/
def normalPath (path : String) : String :=
  pathOfNames (isAbsolutePath path) (pathNames path)

/-- The path of a file in a directory. -/
def pathIn (directory name : String) : String :=
  if isAbsolutePath name then normalPath name
  else pathOfNames (isAbsolutePath directory) (pathNames directory ++ pathNames name)

def pathParent (path : String) : String :=
  pathOfNames (isAbsolutePath path) (pathNames path).dropLast

/-- The directories on the way to a path, the outermost first. -/
def pathAncestors (path : String) : List String :=
  let names := pathNames path
  (List.range (names.length - 1)).map fun i =>
    pathOfNames (isAbsolutePath path) (names.take (i + 1))

/-- The ending of a path in lower case, with its point; a name that starts or ends with its only
point has none. -/
def pathEnding (path : String) : String :=
  match cutLast '.' ((pathNames path).getLast?.getD "").toList with
  | some (_ :: _, c :: ending) => lowered (String.ofList ('.' :: c :: ending))
  | _ => ""

/-- Why no file can be written at a path. -/
inductive WriteError where
  /-- A file is where the directory of the path would be. -/
  | occupied (path : String)
  /-- A file is on the way to the directory of the path. -/
  | notDirectory (path : String)
  | isDirectory (path : String)
deriving DecidableEq, Repr

def WriteError.message : WriteError → String
  | .occupied path => s!"[Errno 17] File exists: {quoted path}"
  | .notDirectory path => s!"[Errno 20] Not a directory: {quoted path}"
  | .isDirectory path => s!"[Errno 21] Is a directory: {quoted path}"

/-- Why no file can be written at a path, given what there is at it and at the directories on the
way to it. Directories that are missing can be made. -/
def writeError? (path : String) (ancestors : List (String × PathStatus)) (status : PathStatus) :
    Option WriteError :=
  match ancestors.find? fun a => a.2 == .file with
  | some (occupied, _) =>
    some (if occupied = pathParent path then .occupied occupied
      else .notDirectory (pathParent path))
  | none => if status = .directory then some (.isDirectory path) else none

/-- The system, as far as the command needs it. -/
structure Host (m : Type → Type) where
  status : String → m PathStatus
  textAt : String → m String
  inputText : m String
  environment : m (List (String × String))

/-- A failure that has no message for the user. -/
inductive CommandFailure where
  | settings (failure : SettingsFailure)
  /-- The doclets hold an integer of too many digits. -/
  | overlong (fault : Json.SyntaxFault)
  | run (failure : Failure)
  | unwritable (e : WriteError)

/-- What is printed, what is written and how the command ends. -/
structure Outcome where
  exitCode : Nat
  output : String
  errors : String
  /-- The path and the text of the file that is written. -/
  written : Option (String × String)
  failure : Option CommandFailure

namespace Outcome

def printing (output : String) : Outcome := ⟨0, output, "", none, none⟩

def writing (path text : String) : Outcome := ⟨0, "", "", some (path, text), none⟩

def misuse (errors : String) : Outcome := ⟨2, "", errors, none, none⟩

def failed (failure : CommandFailure) : Outcome := ⟨1, "", "", none, some failure⟩

end Outcome

def usageLine : String := "Usage: main [OPTIONS] SOURCE\n"

def helpText : String :=
  usageLine ++
  "\n" ++
  "  Compile the doclets in SOURCE (the JSON array printed by ``jsdoc -X``, ``-``\n" ++
  "  for stdin) into an ambient TypeScript declaration file.\n" ++
  "\n" ++
  "Options:\n" ++
  "  -d, --destination PATH  Output file, or directory to write the default file\n" ++
  "                          name into (default: stdout).\n" ++
  "  --config FILE           Settings file (.toml, .json or dotenv).\n" ++
  "  --debug / --no-debug    Enable debug logging of the compilation stages.\n" ++
  "  -h, --help              Show this message and exit.\n"

/-- A message about the arguments after a hint at the help. -/
def usageError (message : String) : Outcome :=
  .misuse (usageLine ++ "Try 'main --help' for help.\n\nError: " ++ message ++ "\n")

/-- What is said about the options that an unknown one may stand for. -/
def suggestion (names : List String) : String :=
  match names.map quoted with
  | [] => ""
  | [name] => " Did you mean " ++ name ++ "?"
  | names => " (Possible options: " ++ joined ", " names ++ ")"

def ArgumentFault.outcome : ArgumentFault → Outcome
  | .unknownOption name =>
    let similar := CommandOption.similarNames name
    usageError ("No such option " ++ quoted name ++ "." ++ suggestion similar)
  | .missingValue name => .misuse ("Error: Option " ++ quoted name ++ " requires an argument.\n")
  | .needlessValue name => .misuse ("Error: Option " ++ quoted name ++ " does not take a value.\n")

/-- The message about an argument or an option with a path where no file is. -/
def pathError? (parameter path : String) : PathStatus → Option Outcome
  | .file => none
  | .missing => some (usageError
      ("Invalid value for '" ++ parameter ++ "': File " ++ quoted path ++ " does not exist."))
  | .directory => some (usageError
      ("Invalid value for '" ++ parameter ++ "': File " ++ quoted path ++ " is a directory."))

def extraArguments? (extra : List String) : Option Outcome :=
  match extra with
  | [] => none
  | [argument] => some (usageError ("Got unexpected extra argument (" ++ argument ++ ")"))
  | _ => some (usageError ("Got unexpected extra arguments (" ++ joined " " extra ++ ")"))

/-- The sources of settings with a settings file; the ending of its name tells how to read it. -/
def sourcesOf (environment : List (String × String)) (config : Option (String × String)) :
    SettingsSources :=
  let sources := SettingsSources.ofEnvironment environment
  match config with
  | none => sources
  | some (path, text) =>
    if pathEnding path = ".toml" then { sources with toml := some text }
    else if pathEnding path = ".json" then { sources with json := some text }
    else { sources with dotenv := some text }

/-- The records that a text writes, or the message about it. -/
def recordsOfText (text : String) : Except Outcome (List Json.Value) :=
  match Json.parse (toLineFeeds text) with
  | .ok (.array records) => .ok records
  | .ok _ => .error (usageError "Invalid value for SOURCE: expected a JSON array of doclets")
  | .error fault =>
    if fault.isOverlong then .error (.failed (.overlong fault))
    else .error (usageError ("Invalid value for SOURCE: not valid JSON: " ++ fault.message))

/-- The text of the declarations, or what is left behind without them. -/
def compiledText (settings : Settings) (records : List Json.Value) : Except Outcome String :=
  let run := compileRecords settings none records
  match run.result with
  | .ok text => .ok text
  | .error (.fatal _) =>
    .error ⟨1, "", joined "" (run.diagnostics.map fun d => d.text ++ "\n"), none, none⟩
  | .error failure => .error (.failed (.run failure))

variable {m : Type → Type} [Monad m]

def checkFile (host : Host m) (parameter : String) (path : Option String) :
    ExceptT Outcome m Unit := do
  match path with
  | none => return ()
  | some path =>
    let status ← (host.status path : m PathStatus)
    match pathError? parameter path status with
    | some outcome => throw outcome
    | none => return ()

/-- Checks the arguments and gives the file of doclets. -/
def checkedSource (host : Host m) (a : Arguments) : ExceptT Outcome m String := do
  if a.has .help then throw (.printing helpText)
  checkFile host "--config" (a.valueOf? .config)
  match a.positional with
  | [] => throw (usageError "Missing argument 'SOURCE'.")
  | source :: extra =>
    checkFile host "SOURCE" (if source = "-" then none else some source)
    match extraArguments? extra with
    | some outcome => throw outcome
    | none => return source

def loadedSettings (host : Host m) (a : Arguments) : ExceptT Outcome m Settings := do
  let environment ← (host.environment : m _)
  let config ← match a.valueOf? .config with
    | some path => do
      let text ← (host.textAt path : m String)
      pure (some (path, text))
    | none => pure none
  match (sourcesOf environment config).load with
  | .ok settings => return settings
  | .error failure => throw (.failed (.settings failure))

/-- Writes the declarations to a path, or says why that cannot be done. -/
def writtenTo (host : Host m) (path text : String) : m Outcome := do
  let ancestors ← (pathAncestors path).mapM fun ancestor => do
    return (ancestor, ← host.status ancestor)
  match writeError? path ancestors (← host.status path) with
  | some e => return .failed (.unwritable e)
  | none => return .writing path text

/-- Where the declarations go. -/
def delivered (host : Host m) (a : Arguments) (settings : Settings) (text : String) :
    m Outcome := do
  match a.valueOf? .destination with
  | none => return .printing text
  | some destination =>
    let path := normalPath destination
    let isDirectory := (← host.status path) = .directory
    writtenTo host (if isDirectory then pathIn path settings.output.fileName else path) text

/-- The command up to its outcome, which an early end throws. -/
def steps (host : Host m) (words : List String) : ExceptT Outcome m Outcome := do
  let a ← match Arguments.parse words with
    | .ok a => pure a
    | .error fault => throw fault.outcome
  let source ← checkedSource host a
  let settings ← loadedSettings host a
  let text ← (if source = "-" then host.inputText else host.textAt source : m String)
  let records ← ExceptT.mk (pure (recordsOfText text))
  let declarations ← ExceptT.mk (pure (compiledText settings records))
  (delivered host a settings declarations : m Outcome)

/-- What a run of the command does. -/
def execute (host : Host m) (words : List String) : m Outcome := do
  match ← (steps host words).run with
  | .ok outcome => return outcome
  | .error outcome => return outcome

end AmbientDecl

import AmbientDecl.CommandLine.Execution

/-!
# The program

The command on the real system: arguments, files, standard streams and the environment.
-/

namespace AmbientDecl

/-- What there is at a path of the file system. -/
def statusOf (path : String) : IO PathStatus := do
  try
    let found ← IO.FS.realPath path
    if ← found.pathExists then
      return if ← found.isDir then .directory else .file
    else return .missing
  catch _ => return .missing

/-- The variables that a list of assignments sets, with a null character after each. -/
def variablesOfList (text : String) : List (String × String) :=
  (Text.splitAt '\x00' text.toList).filterMap fun assignment =>
    (Text.cutFirst '=' assignment).map fun (name, v) => (String.ofList name, String.ofList v)

/-- The variables of the environment, as the system lists them. -/
def environmentVariables : IO (List (String × String)) := do
  try return variablesOfList (← IO.FS.readFile "/proc/self/environ")
  catch _ => return []

def realHost : Host IO where
  status := statusOf
  textAt path := IO.FS.readFile path
  inputText := do (← IO.getStdin).readToEnd
  environment := environmentVariables

/-- What a failure without a message for the user says. -/
def CommandFailure.message : CommandFailure → String
  | .settings (.invalid faults) => Validation.faultsMessage faults
  | .settings (.unreadableVariable name _) => "error parsing value for field \"" ++ name ++ "\""
  | .settings (.unreadableToml fault) => fault.message
  | .settings (.unreadableJson fault) => fault.message
  | .settings (.noMembers problem) => problem.message
  | .overlong fault => fault.message
  | .run (.comparator e) => e.message
  | .run (.version digits) => digits.message
  | .run _ => "the doclets cannot be compiled"
  | .unwritable e => e.message

/-- Writes a file, with the directories it needs. -/
def writeTo (path text : String) : IO Unit := do
  match Text.cutLast '/' path.toList with
  | some (directory, _) =>
    if !directory.isEmpty then IO.FS.createDirAll (String.ofList directory)
  | none => pure ()
  IO.FS.writeFile path text

end AmbientDecl

open AmbientDecl in
def main (words : List String) : IO UInt32 := do
  let outcome ← execute realHost words
  if let some (path, text) := outcome.written then writeTo path text
  IO.print outcome.output
  IO.eprint outcome.errors
  if let some failure := outcome.failure then IO.eprintln failure.message
  return outcome.exitCode.toUInt32

import AmbientDecl.Text.Basic

/-!
# Versions

A doclet may be tagged with the version that introduced it. Whether it takes part in a run is
decided by a comparator, which gets the tagged version and the latest released one.
-/

namespace AmbientDecl

open Text

/-- A semantic version. -/
structure Version where
  major : Nat
  minor : Nat
  patch : Nat
deriving DecidableEq, Repr

namespace Version

/-- Whether a version is not newer than another. -/
def notNewer (a b : Version) : Bool :=
  a.major < b.major ||
    (a.major == b.major && (a.minor < b.minor || (a.minor == b.minor && a.patch ≤ b.patch)))

/-- The digits at the front and the text after them. -/
def digits? (cs : List Char) : Option (List Char × List Char) :=
  match cs.takeWhile isDecimal with
  | [] => none
  | digits => some (digits, cs.dropWhile isDecimal)

/-- A point and digits at the front, and the text after them. -/
def dottedDigits? : List Char → Option (List Char × List Char)
  | '.' :: rest => digits? rest
  | _ => none

/-- The three runs of digits at the front of a text; a `v` may stand before them, anything after
them. -/
def runs? (text : String) : Option (List Char × List Char × List Char) := do
  let cs := trim text.toList
  let start := match cs with
    | 'v' :: rest | 'V' :: rest => rest
    | _ => cs
  let (major, rest) ← digits? start
  let (minor, rest) ← dottedDigits? rest
  let (patch, _) ← dottedDigits? rest
  return (major, minor, patch)

def ofText? (text : String) : Option Version :=
  (runs? text).map fun (major, minor, patch) =>
    ⟨decimalNumber major, decimalNumber minor, decimalNumber patch⟩

/-- The first number of the version at the front of a text that is too long to be read. -/
def tooLong? (text : String) : Option TooManyDigits := do
  let (major, minor, patch) ← runs? text
  [major, minor, patch].findSome? tooManyDigits?

end Version

/-- Decides from a tagged version and the latest one whether a doclet takes part. -/
structure VersionComparator where
  keeps : String → Option String → Bool
  /-- What makes the comparison fail. -/
  obstacle? : String → Option String → Option TooManyDigits

namespace VersionComparator

/-- A comparator that never fails. -/
def total (keeps : String → Option String → Bool) : VersionComparator :=
  ⟨keeps, fun _ _ => none⟩

/-- Keeps what is tagged with a semantic version not newer than the latest one. If the latest
version is not a semantic version, every semantic version is kept. -/
def keepsSemantic (tagged : String) (latest : Option String) : Bool :=
  match Version.ofText? tagged with
  | none => false
  | some version =>
    match Version.ofText? (latest.getD "") with
    | none => true
    | some latest => version.notNewer latest

/-- Compares semantic versions. The latest one is read only if the tagged one is a version. -/
def semantic : VersionComparator where
  keeps := keepsSemantic
  obstacle? tagged latest :=
    if (Version.ofText? tagged).isNone then none
    else (Version.tooLong? tagged).orElse fun _ => Version.tooLong? (latest.getD "")

end VersionComparator

/-- Why no comparator was found. -/
inductive ComparatorError where
  /-- The path has no module or no name in it. -/
  | badPath (path : String)
  /-- The path of the module starts with a point. -/
  | relativeModule (name : String)
  | noModule (name : String)
  /-- The module would lie inside one that holds no modules. -/
  | notPackage (name parent : String)
  /-- The module holds no comparator of this name. -/
  | notCallable (path : String)
deriving DecidableEq, Repr

def ComparatorError.message : ComparatorError → String
  | .badPath path => s!"Invalid import path: {path}"
  | .relativeModule name =>
    s!"the 'package' argument is required to perform a relative import for {quoted name}"
  | .noModule name => s!"No module named {quoted name}"
  | .notPackage name parent => s!"No module named {quoted name}; {quoted parent} is not a package"
  | .notCallable path => s!"{path} is not callable"

/-- A comparator under the name that it has in its module. -/
structure NamedComparator where
  module : String
  name : String
  compare : VersionComparator

/-- Finds a comparator by the path that the settings give. -/
abbrev ComparatorRegistry := List NamedComparator

namespace ComparatorRegistry

/-- The comparators that every run knows. -/
def standard : ComparatorRegistry :=
  [⟨"tsdoclet.doclets", "default_version_comparator", .semantic⟩]

/-- The module and the ancestors of a module, the outermost first. -/
def lineage (module : String) : List String :=
  let parts := splitAt '.' module.toList
  (List.range parts.length).map fun i =>
    joined "." ((parts.take (i + 1)).map String.ofList)

/-- The module and the name that a path gives, divided by a colon or else by the last point. -/
def cutPath? (path : String) : Option (String × String) := do
  let cs := path.toList
  let (module, name) ← match cutFirst ':' cs with
    | some cut => some cut
    | none => cutLast '.' cs
  if module.isEmpty || name.isEmpty then none
  else some (String.ofList module, String.ofList name)

/-- The modules that hold other modules. -/
def packages (registry : ComparatorRegistry) : List String :=
  registry.flatMap fun c => (lineage c.module).dropLast

/-- Why a module cannot be reached from `parent`, the module before it in its lineage. -/
def unreachable (registry : ComparatorRegistry) (parent : Option String) (name : String) :
    ComparatorError :=
  match parent with
  | some parent =>
    if registry.packages.contains parent then .noModule name else .notPackage name parent
  | none => .noModule name

/-- The first error on the way down a lineage of which `parent` was reached. -/
def lineageError? (registry : ComparatorRegistry) (parent : Option String) :
    List String → Option ComparatorError
  | [] => none
  | name :: rest =>
    if (registry.flatMap fun c => lineage c.module).contains name then
      lineageError? registry (some name) rest
    else some (registry.unreachable parent name)

/-- The comparator at a path. -/
def find (registry : ComparatorRegistry) (path : String) : Except ComparatorError NamedComparator :=
  match cutPath? path with
  | none => .error (.badPath path)
  | some (module, name) =>
    if module.toList.head? = some '.' then .error (.relativeModule module)
    else match registry.lineageError? none (lineage module) with
      | some e => .error e
      | none =>
        match registry.find? fun c => c.module == module && c.name == name with
        | some c => .ok c
        | none => .error (.notCallable path)

end ComparatorRegistry

end AmbientDecl

import AmbientDecl.Declaration.Printer
import AmbientDecl.Doclet.Record
import AmbientDecl.Forest.Build
import AmbientDecl.Forest.Expansion

/-!
# Compilation

The whole way from documentation records to the text of a declaration file: loading, filtering,
building the forest, merging overloads, expanding described properties and emission.
-/

namespace AmbientDecl

/-- The way to the finished forest. -/
def symbolForest (filter : Option DocletFilter) (doclets : List Doclet) : Run Forest := do
  let built ← buildForest filter doclets
  let merged ← mergeOverloads built
  expandForest merged

/-- The filter that settings ask for; a comparator that is given wins over theirs. -/
def filterFor (settings : Settings) (comparator : Option VersionComparator) : Run DocletFilter :=
  match DocletFilter.ofSettings settings comparator with
  | .ok filter => return filter
  | .error e => Run.fail (.comparator e)

/-- The text of the declarations of doclets that a run has loaded. -/
def compileLoaded (settings : Settings) (comparator : Option VersionComparator)
    (loaded : Run (List Doclet)) : Run String :=
  let run : Run (String × Nat × Nat) := do
    let doclets ← loaded
    let filter ← filterFor settings comparator
    let forest ← symbolForest (some filter) doclets
    let text ← emitDeclarations settings forest
    return (text, doclets.length, forest.index.length)
  do
    let (text, doclets, symbols) ← run
    Run.reach (.compiled doclets symbols run.diagnostics.length)
    return text

/-- The declarations of doclets. -/
def compileDoclets (settings : Settings) (comparator : Option VersionComparator)
    (doclets : List Doclet) : Run String :=
  compileLoaded settings comparator (return doclets)

/-- The declarations of records as they come from a file. -/
def compileRecords (settings : Settings) (comparator : Option VersionComparator)
    (records : List Json.Value) : Run String :=
  compileLoaded settings comparator (loadDoclets records)

end AmbientDecl

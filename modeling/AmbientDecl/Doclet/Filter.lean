import AmbientDecl.Doclet.Basic
import AmbientDecl.Run
import AmbientDecl.Settings.Basic

/-!
# Which doclets take part

The settings leave doclets out: those of source files, ignored and undocumented ones, those of
certain scopes, private ones, and those that are tagged with a version that is not yet released. The
first reason that applies counts.
-/

namespace AmbientDecl

open Text

/-- Why a doclet takes no part. -/
inductive Rejection where
  | file
  | ignored
  | undocumented
  | scope
  | privateAccess
  | version
deriving DecidableEq, Repr

/-- The settings with a version comparator. -/
structure DocletFilter where
  settings : Settings
  comparator : VersionComparator

namespace DocletFilter

/-- The filter of the settings. A given comparator comes before that of the settings, and that
before the standard one. -/
def ofSettings (settings : Settings) (comparator : Option VersionComparator) :
    Except ComparatorError DocletFilter :=
  match comparator, nonempty? settings.since.comparator with
  | some compare, _ => .ok ⟨settings, compare⟩
  | none, none => .ok ⟨settings, .semantic⟩
  | none, some path => do
    let found ← ComparatorRegistry.standard.find path
    return ⟨settings, found.compare⟩

/-- The reason to leave a doclet out before its version is looked at. -/
def plainRejection? (filter : DocletFilter) (d : Doclet) : Option Rejection :=
  if d.isFile then some .file
  else if d.ignore then some .ignored
  else if d.undocumented && !filter.settings.includeUndocumented then some .undocumented
  else if d.scope.any fun s => filter.settings.ignoreScopes.contains s.name then some .scope
  else if d.access == some .privateAccess && !filter.settings.includePrivate then
    some .privateAccess
  else none

/-- Whether the doclet is tagged with a version that the comparator does not keep. -/
def rejectsVersion (filter : DocletFilter) (d : Doclet) : Bool :=
  match nonempty? d.since with
  | some since => !filter.comparator.keeps since filter.settings.since.latestVersion
  | none => false

/-- The reason to leave a doclet out. -/
def rejection? (filter : DocletFilter) (d : Doclet) : Option Rejection :=
  match filter.plainRejection? d with
  | some reason => some reason
  | none => if filter.rejectsVersion d then some .version else none

/-- What makes the comparison of the doclet's version fail, if its version is looked at. -/
def obstacle? (filter : DocletFilter) (d : Doclet) : Option TooManyDigits := do
  if (filter.plainRejection? d).isSome then none
  else
    let since ← nonempty? d.since
    filter.comparator.obstacle? since filter.settings.since.latestVersion

def accepts (filter : DocletFilter) (d : Doclet) : Bool :=
  (filter.rejection? d).isNone

/-- What is noted about a doclet that is left out. -/
def notes (filter : DocletFilter) (d : Doclet) : List Entry :=
  if filter.rejection? d = some .version then
    [.milestone
      (.leftOutByVersion d.longname (d.since.getD "") filter.settings.since.latestVersion)]
  else []

end DocletFilter

end AmbientDecl

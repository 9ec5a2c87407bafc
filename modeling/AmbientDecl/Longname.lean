import AmbientDecl.Identifier
import AmbientDecl.Text.Basic

/-!
# Longnames

The longname of a documented symbol is a path: segments joined by `.` for a static member, `#` for a
member of instances and `~` for something inside. Text between double quotes belongs to one segment
whatever it holds. The longname of a module starts with `module:`.
-/

namespace AmbientDecl.Longname

open TypeExpr

/-- A segment of a longname and the mark before it; the first segment may have none. -/
structure Step where
  mark : Option Char
  segment : String
deriving DecidableEq, Repr

def Step.text (step : Step) : String :=
  match step.mark with
  | some c => String.ofList (c :: step.segment.toList)
  | none => step.segment

/-- The step of a segment read backwards, if the segment is not empty. -/
def stepOf (mark : Option Char) (current : List Char) : List Step :=
  if current.isEmpty then [] else [⟨mark, String.ofList current.reverse⟩]

/-- The steps of a longname of which `current`, read backwards, is the start of a segment. -/
def splitFrom (mark : Option Char) (current : List Char) (quoted : Bool) : List Char → List Step
  | [] => stepOf mark current
  | c :: rest =>
    if c = '"' then splitFrom mark (c :: current) (!quoted) rest
    else if !quoted && isPathMark c then stepOf mark current ++ splitFrom (some c) [] false rest
    else splitFrom mark (c :: current) quoted rest

/-- Cuts a longname into steps; empty segments are left out. -/
def split (longname : String) : List Step :=
  splitFrom none [] false longname.toList

/-- The longname of steps. -/
def join (steps : List Step) : String :=
  Text.joined "" (steps.map Step.text)

/-- The longnames of all ancestors, the nearest first. -/
def parents (longname : String) : List String :=
  let steps := split longname
  ((List.range (steps.length - 1)).map fun i => join (steps.take (i + 1))).reverse

/-- The last segment without quotes; a longname without segments is its own. -/
def lastSegment (longname : String) : String :=
  match (split longname).getLast? with
  | some step => unquote step.segment
  | none => longname

/-- Whether the longname is that of a module or of something inside one. -/
def isModule (longname : String) : Bool :=
  moduleMark.isPrefixOf longname.toList

/-- The path of a module named by a segment. -/
def pathOfSegment (segment : String) : String :=
  if isModule segment then String.ofList (unquoteChars (segment.toList.drop moduleMark.length))
  else segment

/-- The path of the module that a longname starts with; a longname without segments has none. -/
def modulePath? (longname : String) : Option String :=
  ((split longname).head?).map fun step => pathOfSegment step.segment

end AmbientDecl.Longname

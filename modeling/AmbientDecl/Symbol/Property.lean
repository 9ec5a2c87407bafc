import AmbientDecl.Run
import AmbientDecl.Symbol.Basic

/-!
# Properties of parameters

A comment describes the properties of a parameter `opts` by further parameters named `opts.a`,
`opts.a.b` and so on; `list[].a` describes a property of the elements of an array. Together such
names form a tree, and the tree makes a record type.
-/

namespace AmbientDecl

open Text

/-- A step of a dotted name; `isArray` if it stands for the elements of an array. -/
structure PropertyStep where
  name : String
  isArray : Bool
deriving DecidableEq, Repr

/-- A dotted name. -/
structure PropertyPath where
  root : PropertyStep
  path : List PropertyStep
deriving DecidableEq, Repr

/-- A step from the text between two points; the text may not be empty. -/
def PropertyStep.ofChars? (cs : List Char) : Option PropertyStep :=
  let isArray := "[]".toList.isSuffixOf cs
  let name := if isArray then cs.take (cs.length - 2) else cs
  if name.isEmpty then none else some ⟨String.ofList name, isArray⟩

def PropertyPath.ofName? (name : String) : Option PropertyPath :=
  match (splitAt '.' name.toList).mapM PropertyStep.ofChars? with
  | some (root :: step :: rest) => some ⟨root, step :: rest⟩
  | _ => none

/-- The tree of the paths. -/
inductive Shape where
  | node (param : Option Parameter) (isArray : Bool) (children : List (String × Shape))

namespace Shape

/-- A level without descriptions. -/
def empty : Shape := .node none false []

/-- The description of the level itself. -/
def param : Shape → Option Parameter
  | .node param _ _ => param

/-- Whether a name marks the level as the elements of an array. -/
def isArray : Shape → Bool
  | .node _ isArray _ => isArray

/-- The properties in the order of their first descriptions. -/
def children : Shape → List (String × Shape)
  | .node _ _ children => children

/-- The same level, marked as the elements of an array if `mark`. -/
def markArray (mark : Bool) : Shape → Shape
  | .node param isArray children => .node param (isArray || mark) children

/-- The same level with another description of itself. -/
def withParam (param : Option Parameter) : Shape → Shape
  | .node _ isArray children => .node param isArray children

/-- Changes the property of a name, which is added at the end if it is new. -/
def alter (name : String) (f : Shape → Shape) : List (String × Shape) → List (String × Shape)
  | [] => [(name, f empty)]
  | (n, s) :: rest => if n = name then (n, f s) :: rest else (n, s) :: alter name f rest

/-- Adds a path. -/
def insert : List PropertyStep → Parameter → Shape → Shape
  | [], p, shape => shape.withParam (some p)
  | step :: rest, p, .node param isArray children =>
    .node param isArray
      (alter step.name (fun s => insert rest p (s.markArray step.isArray)) children)

/-- Whether the level stands for the elements of an array. -/
def holdsArray (shape : Shape) : Bool :=
  shape.isArray || shape.param.any fun p => match p.type with
    | .array _ => true
    | _ => false

/-- The field that a level makes whose properties make `fields`. -/
def fieldOf (name : String) (param : Option Parameter) (isArray : Bool)
    (fields : List (RecordField TypeNode)) : RecordField TypeNode :=
  let shape := Shape.node param isArray []
  let base :=
    if fields.isEmpty then (param.map (·.type)).getD .any
    else if shape.holdsArray then .array (.record fields)
    else .record fields
  { name := name
    type := if param.any (·.nullable) then base.orNull else base
    optional := param.any (·.optional)
    description := param.bind (·.description) }

/-- The fields that properties make. -/
def fields : List (String × Shape) → List (RecordField TypeNode)
  | [] => []
  | (name, .node param isArray children) :: rest =>
    fieldOf name param isArray (fields children) :: fields rest

/-- The record type of a tree. -/
def record (shape : Shape) : TypeNode :=
  .record (fields shape.children)

end Shape

/-- The path of a described property, of one step if its name is not dotted. -/
def Parameter.propertyPath (p : Parameter) : List PropertyStep :=
  match PropertyPath.ofName? p.name with
  | some path => path.root :: path.path
  | none => [⟨p.name, false⟩]

/-- Making the record type of described properties: three calls for each level. -/
def propertyTask (params : List Parameter) : Task :=
  .descend (3 * (params.map fun p => p.propertyPath.length).max?.getD 0)

/-- The record type of described properties. -/
def recordOfProperties (params : List Parameter) : TypeNode :=
  (params.foldl (fun shape p => shape.insert p.propertyPath p) Shape.empty).record

end AmbientDecl

import AmbientDecl.Declaration.Reference
import AmbientDecl.Forest.Overload
import AmbientDecl.Symbol.Property

/-!
# Expanding described properties

The parameters `opts`, `opts.a` and `opts.b` of a signature are one parameter whose type has two
properties. The type becomes a typedef of its own, named after the owner of the signature and the
parameter, and stands right after the owner in the nearest module or namespace around it. A typedef
with described properties gets its record type here as well.

Described properties can be expanded in the symbols themselves. The symbols are gone through in the
order in which they stood at the beginning, and each typedef is put into a list of children as soon
as it is made: behind the child of the nearest container that its owner is in, and behind the
typedefs that were put there before.
-/

namespace AmbientDecl

open Text

/-- The parameter that a described property belongs to; a plain parameter is its own. -/
def Parameter.rootName (p : Parameter) : String :=
  match PropertyPath.ofName? p.name with
  | some path => path.root.name
  | none => p.name

/-- Whether it describes a property of a parameter. -/
def Parameter.isProperty (p : Parameter) : Bool :=
  (PropertyPath.ofName? p.name).isSome

/-- The described properties of a parameter list, by parameter. -/
def propertyGroups (params : List Parameter) : List (String × Shape) :=
  ((params.filter Parameter.isProperty).foldl
    (fun shape p => shape.insert p.propertyPath p) Shape.empty).children

/-- The first plain parameter of a name. -/
def plainParameter? (params : List Parameter) (name : String) : Option Parameter :=
  params.find? fun p => !p.isProperty && p.name == name

/-- The parameter that stands for a group whose typedef has this longname. -/
def groupParameter (plain : Option Parameter) (root : String) (shape : Shape) (typedef : String) :
    Parameter :=
  let reference := TypeNode.named typedef
  let type := if (shape.withParam plain).holdsArray then .array reference else reference
  match plain with
  | some p => { p with type := type }
  | none => .bare root type

/-- The parameters with each group replaced, at its first place, by the parameter that stands for
it; `seen` are the groups that have been replaced already. -/
def substituted (groups : List (String × Parameter)) (seen : List String) :
    List Parameter → List Parameter
  | [] => []
  | p :: rest =>
    match groups.lookup p.rootName with
    | none => p :: substituted groups seen rest
    | some replacement =>
      if seen.contains p.rootName then substituted groups seen rest
      else replacement :: substituted groups (p.rootName :: seen) rest

/-- What the walk keeps in mind. -/
structure Expansion where
  index : List (String × Nat)
  nextId : Nat
  /-- The names of the children of the nearest container. -/
  taken : List String
  /-- The typedefs that go after the child of the nearest container that is being walked. -/
  pending : List SymbolTree

/-- A step of the walk. -/
abbrev Expander := StateT Expansion Run

/-- The longname of something in a container. -/
def longnameIn (container name : String) : String :=
  if container.isEmpty then name else container ++ "." ++ name

/-- The name of the typedef for a parameter of `owner`: the first that is free in the container. -/
def typedefName (e : Expansion) (container : String) (owner : Symbol) (root : String) : String :=
  firstFree
    (fun name => e.taken.contains name || (e.index.lookup (longnameIn container name)).isSome)
    (numberedFrom 2 (toIdentifier owner.name ++ "_" ++ toIdentifier root))
    (e.taken.length + e.index.length)

/-- A typedef that the library makes up. -/
def synthesizedTypedef (container name : String) (record : TypeNode) : Symbol :=
  { Symbol.bare .typedefDecl name (longnameIn container name) with
    type := some record
    synthesized := true }

/-- Makes the typedef for a parameter of `owner` and gives its longname. -/
def synthesize (container : String) (owner : Symbol) (root : String) (record : TypeNode) :
    Expander String := do
  let e ← get
  let typedef := synthesizedTypedef container (typedefName e container owner root) record
  set { e with
    index := Forest.registerIn e.index typedef.longname e.nextId
    nextId := e.nextId + 1
    taken := e.taken ++ [typedef.name]
    pending := e.pending ++ [SymbolTree.node e.nextId typedef []] }
  return typedef.longname

/-- The parameter that stands for a group, its typedef made. -/
def expandGroup (container : String) (owner : Symbol) (params : List Parameter)
    (group : String × Shape) : Expander (String × Parameter) := do
  let typedef ← synthesize container owner group.1 group.2.record
  return (group.1, groupParameter (plainParameter? params group.1) group.1 group.2 typedef)

/-- A signature of `owner` without described properties. -/
def expandSignature (container : String) (owner : Symbol) (signature : Signature) :
    Expander Signature := do
  Run.attempt (propertyTask (signature.params.filter Parameter.isProperty))
  let groups ← (propertyGroups signature.params).mapM (expandGroup container owner signature.params)
  return { signature with params := substituted groups [] signature.params }

/-- A typedef with its described properties as its type. -/
def expandTypedef (s : Symbol) : Run Symbol :=
  match s.doclet? with
  | some d =>
    if s.kind = .typedefDecl ∧ !d.isCallback ∧ !d.properties.isEmpty then do
      let properties ← parametersFrom d 0 d.properties
      Run.attempt (propertyTask properties)
      return { s with type := some (recordOfProperties properties) }
    else return s
  | none => return s

/-- A symbol with everything about it expanded. -/
def expandSymbol (container : String) (s : Symbol) : Expander Symbol := do
  let s ← expandTypedef s
  let signatures ← s.signatures.mapM (expandSignature container s)
  return { s with signatures := signatures }

/-- The typedefs made since the last time. -/
def takePending : Expander (List SymbolTree) :=
  modifyGet fun e => (e.pending, { e with pending := [] })

/-- Runs a walk inside a container whose children have these names; what is noted about the
container outside comes back afterwards. -/
def inContainer {α : Type} (names : List String) (walk : Expander α) : Expander α := do
  let outer ← get
  set { outer with taken := names, pending := [] }
  let a ← walk
  modify fun e => { e with taken := outer.taken, pending := outer.pending }
  return a

mutual

/-- Expands a tree inside a container. -/
def expandTree (container : String) : SymbolTree → Expander SymbolTree
  | .node id symbol children => do
    let symbol ← expandSymbol container symbol
    let children ←
      if symbol.kind.isContainer then
        inContainer (children.map SymbolTree.name) (expandDeclared symbol.longname children)
      else expandMembers container children
    return .node id symbol children

/-- Expands the children of a container, with the typedefs made for each right after it. -/
def expandDeclared (container : String) : List SymbolTree → Expander (List SymbolTree)
  | [] => return []
  | t :: rest => do
    let t ← expandTree container t
    let made ← takePending
    let rest ← expandDeclared container rest
    return t :: made ++ rest

/-- Expands the children of a symbol that is no container. -/
def expandMembers (container : String) : List SymbolTree → Expander (List SymbolTree)
  | [] => return []
  | t :: rest => do
    let t ← expandTree container t
    let rest ← expandMembers container rest
    return t :: rest

end

/-- The third stage. -/
def expandForest (f : Forest) : Run Forest := do
  let start : Expansion := ⟨f.index, f.nextId, [], []⟩
  let (root, e) ← (expandTree f.root.longname f.root).run start
  Run.reach (.parametersExpanded (e.nextId - f.nextId))
  return { f with root := root, index := e.index, nextId := e.nextId }

/-- A function with another value at one number. -/
def written {α : Type} (f : Nat → α) (id : Nat) (a : α) : Nat → α :=
  fun j => if j = id then a else f j

/-- The symbols of a forest by their numbers, each with the numbers of its children. -/
structure Heap where
  symbol : Nat → Symbol
  children : Nat → List Nat
  index : List (String × Nat)
  nextId : Nat
  /-- How many typedefs have been put behind a symbol. -/
  inserted : Nat → Nat

/-- The nearest container above a symbol, and the child of it that the symbol is in. -/
def climb (anchor : SymbolTree) : List SymbolTree → SymbolTree × Option SymbolTree
  | [] => (anchor, none)
  | parent :: above =>
    if parent.kind.isContainer then (anchor, some parent) else climb parent above

namespace Heap

def ofForest (f : Forest) : Heap where
  symbol id := ((f.root.get? id).map SymbolTree.symbol).getD f.root.symbol
  children id := ((f.root.get? id).map fun t => t.children.map SymbolTree.id).getD []
  index := f.index
  nextId := f.nextId
  inserted _ := 0

/-- Puts a new symbol under the symbol numbered `parent`: at a place, or at the end. -/
def add (h : Heap) (parent : Nat) (index : Option Int) (s : Symbol) : Heap :=
  let children := h.children parent
  { h with
    symbol := written h.symbol h.nextId s
    children := written (written h.children h.nextId []) parent (match index with
      | some i => SymbolTree.insertAt i h.nextId children
      | none => children ++ [h.nextId])
    nextId := h.nextId + 1 }

/-- Registers a typedef and puts it behind a child of a container and the typedefs that stand there;
without that child, behind the last one. -/
def put (container anchor : Nat) (h : Heap) (typedef : SymbolTree) : Heap :=
  let children := h.children container
  let index : Int := ((children.idxOf? anchor).map Int.ofNat).getD (children.length - 1)
  let offset := h.inserted anchor + 1
  { h.add container (some (index + offset)) typedef.symbol with
    index := h.index ++ [(typedef.longname, h.nextId)]
    inserted := written h.inserted anchor offset }

/-- The names of the children of a symbol. -/
def names (h : Heap) (id : Nat) : List String :=
  (h.children id).map fun child => (h.symbol child).name

/-- Expands the symbol at a place below `root`. -/
def expandAt (root : SymbolTree) (h : Heap) (p : Place) : Run Heap := do
  let (anchor, container?) := climb p.tree p.ancestors
  let container := container?.getD root
  let (symbol, e) ← (expandSymbol container.longname (h.symbol p.tree.id)).run
    ⟨h.index, h.nextId, h.names container.id, []⟩
  return e.pending.foldl (put container.id anchor.id)
    { h with symbol := written h.symbol p.tree.id symbol }

/-- The tree of a symbol, down to a depth. -/
def treeAt (h : Heap) : (depth id : Nat) → SymbolTree
  | 0, id => .node id (h.symbol id) []
  | depth + 1, id => .node id (h.symbol id) ((h.children id).map (treeAt h depth))

/-- A forest with the tree that the symbols make up. -/
def toForest (h : Heap) (f : Forest) : Forest :=
  { f with root := h.treeAt h.nextId f.root.id, index := h.index, nextId := h.nextId }

end Heap

/-- Expands a forest in place. -/
def expandInPlace (f : Forest) : Run Forest := do
  let places := placesInAll [f.root] f.root.children
  let h ← places.foldlM (Heap.expandAt f.root) (Heap.ofForest f)
  Run.reach (.parametersExpanded (h.nextId - f.nextId))
  return h.toForest f

end AmbientDecl

import AmbientDecl.Doclet.Filter
import AmbientDecl.Symbol.OfDoclet
import AmbientDecl.Symbol.Tree

/-!
# Building the forest

The first pass over the doclets. Those that the filter rejects are remembered by their longnames,
and so are packages. Every other longname gets one symbol, made of its first doclet; the later
doclets of the longname are queued on the symbol.

A symbol names its parent by a longname, that one names its own, and so on through the symbols of
the census. A chain that comes back to a longname it has passed makes no tree and ends the run. A
chain that reaches a longname that was left out takes its symbols with it.

The census is finite, so a chain of more steps than it has symbols has passed one twice. That bounds
both walks along a chain.

The second pass gives every symbol its parent. Symbols are numbered by their place in a list, and a
link is a pair of numbers; the children of a symbol are its links in the order in which they were
made. So each symbol is linked at most once, and the tree below the root is what the links reach
from there.

Symbols whose parent exists come first, in the order of the doclets. The others are *orphans*: they
follow, sorted by the parent they miss. An orphan goes under the nearest ancestor of that parent
that exists; where declarations can stand, namespaces are made up for the missing steps, so that the
qualified name of the orphan stays right.

From doclets to the forest of their symbols: the census, the check for cycles, the planting, and the
enumerations, whose values are documented both as properties and as members.
-/

namespace AmbientDecl

/-- What the pass collects. -/
structure Census where
  /-- The symbols in the order of their first doclets; their longnames are distinct. -/
  symbols : List Symbol
  rejected : List String
  packages : List String
deriving Repr

namespace Census

def empty : Census := ⟨[], [], []⟩

def find? (c : Census) (longname : String) : Option Symbol :=
  c.symbols.find? fun s => s.longname == longname

def has (c : Census) (longname : String) : Bool :=
  (c.find? longname).isSome

/-- Queues a doclet on the symbol of its longname. -/
def queue (d : Doclet) (symbols : List Symbol) : List Symbol :=
  symbols.map fun s => if s.longname = d.longname then { s with doclets := s.doclets ++ [d] } else s

/-- Whether a filter rejects a doclet; without a filter none is rejected. -/
def isRejected (filter : Option DocletFilter) (d : Doclet) : Bool :=
  filter.any fun f => !f.accepts d

/-- Ends the run if the filter cannot decide about a doclet. -/
def checkVersion (filter : Option DocletFilter) (d : Doclet) : Run Unit :=
  match filter.bind fun f => f.obstacle? d with
  | some run => Run.fail (.version run)
  | none => return ()

def add (filter : Option DocletFilter) (c : Census) (d : Doclet) : Run Census := do
  checkVersion filter d
  Run.noteAll ((filter.map fun f => f.notes d).getD [])
  if isRejected filter d then return { c with rejected := c.rejected ++ [d.longname] }
  else if d.isPackage then return { c with packages := c.packages ++ [d.longname] }
  else if d.isFile then return c
  else if c.has d.longname then return { c with symbols := queue d c.symbols }
  else do
    let s ← Symbol.ofDoclet d
    return { c with symbols := c.symbols ++ [{ s with doclets := [d] }] }

def addAll (filter : Option DocletFilter) : Census → List Doclet → Run Census
  | c, [] => return c
  | c, d :: rest => do
    let c ← c.add filter d
    addAll filter c rest

/-- What the doclets that take part document. -/
def ofDoclets (filter : Option DocletFilter) (doclets : List Doclet) : Run Census :=
  addAll filter empty doclets

/-- The longnames that were rejected and have no symbol, each once. -/
def leftOut (c : Census) : List String :=
  (c.rejected.filter fun longname => !c.has longname).eraseDups

end Census

end AmbientDecl

namespace AmbientDecl.Census

/-- The longname at which a chain closes that has passed `seen` and goes on at `next`, if it does so
within `steps` steps. -/
def loopFrom (c : Census) :
    (steps : Nat) → (seen : List String) → (next : Option String) → Option String
  | 0, _, _ => none
  | _, _, none => none
  | steps + 1, seen, some longname =>
    match c.find? longname with
    | none => none
    | some s =>
      if seen.contains longname then some longname
      else loopFrom c steps (longname :: seen) s.memberof?

/-- The longname at which the chain of a symbol closes. -/
def loop? (c : Census) (s : Symbol) : Option String :=
  c.loopFrom (c.symbols.length + 1) [s.longname] s.memberof?

/-- A doclet that comes to be its own ancestor. -/
def cycleDiagnostic (s : Symbol) (longname : String) : Diagnostic :=
  s.diagnostic .cyclicMemberof s!"memberof chain of {s.longname} loops back through {longname}"

/-- Reports the first symbol whose chain closes. -/
def checkCycles (c : Census) : Run Unit :=
  match c.symbols.findSome? fun s => (c.loop? s).map fun longname => cycleDiagnostic s longname with
  | some d => Run.report d
  | none => return ()

/-- Whether a chain that goes on at `memberof` reaches a longname that was left out, within `steps`
steps. -/
def reachesLeftOut (c : Census) (leftOut : List String) :
    (steps : Nat) → (memberof : Option String) → Bool
  | 0, _ => false
  | steps + 1, memberof =>
    match nonempty? memberof with
    | none => false
    | some longname =>
      leftOut.contains longname || match c.find? longname with
        | some s => reachesLeftOut c leftOut steps s.memberof?
        | none => false

/-- Whether a symbol is left out with an ancestor. -/
def isDropped (c : Census) (s : Symbol) : Bool :=
  c.reachesLeftOut c.leftOut (c.symbols.length + 1) s.memberof?

/-- The symbols on the chain of a symbol, within `steps` steps and up to one that was followed
before. -/
def chainFrom (c : Census) (followed : List String) : (steps : Nat) → (s : Symbol) → List String
  | 0, _ => []
  | steps + 1, s =>
    if followed.contains s.longname then []
    else s.longname ::
      match (nonempty? s.memberof?).filter fun longname => !c.leftOut.contains longname with
      | some longname => ((c.find? longname).map (chainFrom c followed steps)).getD []
      | none => []

/-- Following the chains of symbols, one call for each step; no chain is followed twice. -/
def chainTasks (c : Census) (followed : List String) : List Symbol → List Task
  | [] => []
  | s :: rest =>
    let chain := c.chainFrom followed (c.symbols.length + 1) s
    .descend chain.length :: chainTasks c (chain ++ followed) rest

end AmbientDecl.Census

namespace AmbientDecl

/-- Symbols with links between them. The symbol at place `i` has the number `i + 1`, and zero is the
root. -/
structure Planting where
  symbols : List Symbol
  /-- Parent and child of each link, in the order in which they were made. -/
  links : List (Nat × Nat)
deriving Repr

namespace Planting

def idOf? (p : Planting) (longname : String) : Option Nat :=
  (p.symbols.findIdx? fun s => s.longname == longname).map (· + 1)

def symbolAt (p : Planting) (id : Nat) : Symbol :=
  match id with
  | 0 => Symbol.root
  | i + 1 => p.symbols[i]?.getD Symbol.root

/-- A symbol becomes the last child of another. -/
def link (p : Planting) (parent child : Nat) : Planting :=
  { p with links := p.links ++ [(parent, child)] }

/-- Adds a symbol and links it to a parent; its number comes with the result. -/
def plant (p : Planting) (parent : Nat) (s : Symbol) : Planting × Nat :=
  let id := p.symbols.length + 1
  (⟨p.symbols ++ [s], p.links ++ [(parent, id)]⟩, id)

def modifyAt (p : Planting) (id : Nat) (f : Symbol → Symbol) : Planting :=
  { p with symbols := p.symbols.modify (id - 1) f }

def childrenOf (p : Planting) (id : Nat) : List Nat :=
  (p.links.filter fun l => l.1 == id).map (·.2)

/-- The tree at a symbol, as deep as `depth` links. -/
def treeAt (p : Planting) : (depth : Nat) → (id : Nat) → SymbolTree
  | 0, id => .node id (p.symbolAt id) []
  | depth + 1, id => .node id (p.symbolAt id) ((p.childrenOf id).map fun c => treeAt p depth c)

/-- The tree below the root; no path in it is longer than there are symbols. -/
def tree (p : Planting) : SymbolTree :=
  p.treeAt (p.symbols.length + 1) 0

def index (p : Planting) : List (String × Nat) :=
  p.symbols.zipIdx.map fun (s, i) => (s.longname, i + 1)

end Planting

/-- A symbol whose parent does not exist: its number and the longname of the parent. -/
structure Orphan where
  id : Nat
  memberof : String
deriving DecidableEq, Repr

/-- Where a symbol goes. -/
inductive Placement where
  /-- Nowhere, with an ancestor that was left out. -/
  | dropped
  /-- Under the symbol of a number. -/
  | under (parent : Nat)
  /-- Under an ancestor of a parent that does not exist. -/
  | orphan (memberof : String)
deriving DecidableEq, Repr

/-- Where a symbol of the census goes. -/
def placementOf (c : Census) (s : Symbol) : Placement :=
  if c.isDropped s then .dropped
  else match nonempty? s.memberof? with
    | none => .under 0
    | some memberof =>
      if c.packages.contains memberof then .under 0
      else match (Planting.mk c.symbols []).idOf? memberof with
        | some parent => .under parent
        | none => .orphan memberof

/-- Links the symbols of the census that have a parent, and gives the orphans. -/
def plantResolved (c : Census) : Run (Planting × List Orphan) := do
  let placed := c.symbols.zipIdx.map fun (s, i) => (s, i + 1, placementOf c s)
  Run.noteAll (placed.filterMap fun (s, _, placement) =>
    if placement = .dropped then some (.milestone (.leftOutWithParent s.longname)) else none)
  let links := placed.filterMap fun (_, id, placement) =>
    match placement with
    | .under parent => some (parent, id)
    | _ => none
  let orphans := placed.filterMap fun (_, id, placement) =>
    match placement with
    | .orphan memberof => some ⟨id, memberof⟩
    | _ => none
  return (⟨c.symbols, links⟩, orphans)

/-- The nearest existing ancestor of a path, with the number of steps that lead to it, among the
ancestors of at most `depth` steps. -/
def anchorOf (p : Planting) (steps : List Longname.Step) : (depth : Nat) → Nat × Nat
  | 0 => (0, 0)
  | depth + 1 =>
    match p.idOf? (Longname.join (steps.take (depth + 1))) with
    | some id => (id, depth + 1)
    | none => anchorOf p steps depth

/-- Goes down from a symbol along longnames, making up a namespace for each that does not exist. -/
def descend (p : Planting) (anchor : Nat) : List (String × String) → Planting × Nat
  | [] => (p, anchor)
  | (longname, name) :: rest =>
    match p.idOf? longname with
    | some id => descend p id rest
    | none =>
      let (p, id) := p.plant anchor
        { Symbol.bare .namespaceDecl name longname with synthesized := true }
      descend p id rest

/-- The longname and the name of each step after the first `depth`. -/
def missingSteps (steps : List Longname.Step) (depth : Nat) : List (String × String) :=
  (steps.zipIdx.drop depth).map fun (step, i) =>
    (Longname.join (steps.take (i + 1)), unquote step.segment)

/-- The symbol under which the orphans of a missing parent go, made up if it can be. -/
def homeOf (p : Planting) (memberof : String) : Planting × Nat :=
  let steps := Longname.split memberof
  let (anchor, depth) := anchorOf p steps (steps.length - 1)
  let missing := missingSteps steps depth
  if (p.symbolAt anchor).kind.isContainer && missing.all fun (_, name) => isIdentifier name then
    descend p anchor missing
  else (p, anchor)

/-- The diagnostic about an orphan that went under a symbol. -/
def orphanDiagnostic (orphan home : Symbol) (memberof : String) : Diagnostic :=
  let place := if home.longname = "" then "the top level" else home.longname
  orphan.diagnostic .unresolvedParent
    s!"Parent {memberof} of {orphan.longname} not found, attached under {place}"

/-- Links an orphan to its home. -/
def attachOrphan (p : Planting) (o : Orphan) : Run Planting := do
  let (p, home) := homeOf p o.memberof
  let p := p.modifyAt o.id fun s => { s with unresolvedParent := some o.memberof }
  let p := p.link home o.id
  Run.report (orphanDiagnostic (p.symbolAt o.id) (p.symbolAt home) o.memberof)
  return p

/-- Symbols whose parent is missing find a place. -/
def attachOrphans : Planting → List Orphan → Run Planting
  | p, [] => return p
  | p, o :: rest => do
    let p ← attachOrphan p o
    attachOrphans p rest

/-- The value that a member of an enumeration stands for. -/
def enumValueOfMember (s : Symbol) : EnumValue :=
  ⟨s.name, (s.doclet?.map fun d => initializer? d.defaultValue).getD none, s.description⟩

/-- Values and those of further members whose names are new. -/
def addMemberValues (values : List EnumValue) : List Symbol → List EnumValue
  | [] => values
  | s :: rest =>
    if values.any fun v => v.name == s.name then addMemberValues values rest
    else addMemberValues (values ++ [enumValueOfMember s]) rest

/-- The first members of new names, after values of the names `known`. -/
def newMembers (known : List String) : List Symbol → List Symbol
  | [] => []
  | s :: rest =>
    if known.contains s.name then newMembers known rest
    else s :: newMembers (s.name :: known) rest

/-- The values that are written when the members of an enumeration are folded. -/
def memberTasks (t : SymbolTree) : List Task :=
  if t.kind = .enumDecl then
    let members := (t.children.filter fun c => c.kind = .memberDecl).map SymbolTree.symbol
    ((newMembers (t.symbol.enumValues.map EnumValue.name) members).filterMap Symbol.doclet?).map
      fun d => .writing d.defaultValue
  else []

mutual

/-- Folds the members of enumerations into their values. -/
def absorbEnumMembers : SymbolTree → SymbolTree
  | .node id s children =>
    let absorbed := absorbAll children
    if s.kind = .enumDecl then
      let members := absorbed.filter fun t => t.kind = .memberDecl
      .node id { s with enumValues := addMemberValues s.enumValues (members.map SymbolTree.symbol) }
        (absorbed.filter fun t => t.kind ≠ .memberDecl)
    else .node id s absorbed

/-- Members of enumerations become their values. -/
def absorbAll : List SymbolTree → List SymbolTree
  | [] => []
  | t :: rest => absorbEnumMembers t :: absorbAll rest

end

/-- Whether the members of a symbol are folded: it is an enumeration, and the planted tree holds
it. -/
def foldsMembers (p : Planting) (id : Nat) : Bool :=
  (p.symbolAt id).kind = .enumDecl && (p.tree.walk.map SymbolTree.id).contains id

/-- A symbol after the members of enumerations were folded. -/
def symbolLeft (p : Planting) (id : Nat) : Symbol :=
  let s := p.symbolAt id
  if foldsMembers p id then
    let members := (p.childrenOf id).filter fun c => (p.symbolAt c).kind = .memberDecl
    { s with enumValues := addMemberValues s.enumValues (members.map p.symbolAt) }
  else s

/-- The numbers of the children that a symbol has left after the members of enumerations were
folded. -/
def childrenLeft (p : Planting) (id : Nat) : List Nat :=
  if foldsMembers p id then (p.childrenOf id).filter fun c => (p.symbolAt c).kind ≠ .memberDecl
  else p.childrenOf id

/-- The symbols of a planting that a tree does not hold. -/
def straysOf (p : Planting) (tree : SymbolTree) : List Stray :=
  let placed := tree.walk.map SymbolTree.id
  (List.range p.symbols.length).filterMap fun i =>
    if placed.contains (i + 1) then none
    else some ⟨i + 1, symbolLeft p (i + 1), (p.links.find? fun l => l.2 == i + 1).map (·.1),
      childrenLeft p (i + 1)⟩

/-- The first stage: doclets become symbols, and symbols a tree. -/
def buildForest (filter : Option DocletFilter) (doclets : List Doclet) : Run Forest := do
  let census ← Census.ofDoclets filter doclets
  census.checkCycles
  Run.attemptAll (census.chainTasks [] census.symbols)
  let (planting, orphans) ← plantResolved census
  let planting ← attachOrphans planting
    (orphans.mergeSort fun a b => decide (a.memberof ≤ b.memberof))
  Run.reach (.forestBuilt doclets.length census.symbols.length census.leftOut.length)
  Run.attemptAll (planting.tree.walk.flatMap memberTasks)
  let root := absorbEnumMembers planting.tree
  return ⟨root, planting.index, planting.symbols.length + 1, straysOf planting root⟩

end AmbientDecl

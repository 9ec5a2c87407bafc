import AmbientDecl.Symbol.Basic

/-!
# Trees and forests of symbols

A tree of symbols, each with a number that tells it apart from every other symbol of a run. The
number is what the index of longnames points to, and it stays the same when a symbol changes.

All symbols of a run: a tree below a root that stands for the top level, and the index that finds a
symbol by its longname. The index also knows symbols that are not in the tree, the strays.
-/

namespace AmbientDecl

/-- A symbol with its children. -/
inductive SymbolTree where
  | node (id : Nat) (symbol : Symbol) (children : List SymbolTree)
deriving Repr

namespace SymbolTree

def id : SymbolTree → Nat
  | .node id _ _ => id

def symbol : SymbolTree → Symbol
  | .node _ symbol _ => symbol

/-- The children in their order. -/
def children : SymbolTree → List SymbolTree
  | .node _ _ children => children

def kind (t : SymbolTree) : SymbolKind := t.symbol.kind

def name (t : SymbolTree) : String := t.symbol.name

def longname (t : SymbolTree) : String := t.symbol.longname

mutual

/-- The subtrees depth first, each before its children. -/
def walk : SymbolTree → List SymbolTree
  | .node id symbol children => .node id symbol children :: walkAll children

def walkAll : List SymbolTree → List SymbolTree
  | [] => []
  | t :: rest => walk t ++ walkAll rest

end

/-- The subtrees without the tree itself. -/
def nodes (t : SymbolTree) : List SymbolTree := walkAll t.children

mutual

/-- The number of symbols on the longest way down the tree. -/
def height : SymbolTree → Nat
  | .node _ _ children => heightAll children + 1

def heightAll : List SymbolTree → Nat
  | [] => 0
  | t :: rest => max (height t) (heightAll rest)

end

def child? (t : SymbolTree) (name : String) : Option SymbolTree :=
  t.children.find? fun c => c.name == name

/-- A descendant by its longname. -/
def find? (t : SymbolTree) (longname : String) : Option SymbolTree :=
  t.walk.find? fun s => s.longname == longname

def get? (t : SymbolTree) (id : Nat) : Option SymbolTree :=
  t.walk.find? fun s => s.id == id

/-- A list with an item put in before the item at `index`; a negative index counts from the end, and
an index outside the list is moved to its nearer end. -/
def insertAt {α : Type} (index : Int) (a : α) (l : List α) : List α :=
  let place := if index < 0 then (l.length + index).toNat else index.toNat
  l.take place ++ a :: l.drop place

mutual

/-- Changes every symbol in the order of `walk`. -/
def traverse {m : Type → Type} [Monad m] (f : Symbol → m Symbol) : SymbolTree → m SymbolTree
  | .node id symbol children => do
    let symbol ← f symbol
    let children ← traverseAll f children
    return .node id symbol children

def traverseAll {m : Type → Type} [Monad m] (f : Symbol → m Symbol) :
    List SymbolTree → m (List SymbolTree)
  | [] => return []
  | t :: rest => do
    let t ← traverse f t
    let rest ← traverseAll f rest
    return t :: rest

end

end SymbolTree

/-- A symbol that the index knows and that is not in the tree: it was left out, or it was folded
into another symbol. -/
structure Stray where
  id : Nat
  symbol : Symbol
  /-- The number of the symbol it belongs to, if there is one. -/
  parent : Option Nat
  /-- The numbers of the symbols that belong to it, which are strays as well. -/
  children : List Nat
deriving Repr

/-- The tree with the index of longnames. -/
structure Forest where
  root : SymbolTree
  /-- The longnames in the order of their registration, with the numbers of their symbols. -/
  index : List (String × Nat)
  nextId : Nat
  strays : List Stray
deriving Repr

namespace Forest

def empty : Forest := ⟨.node 0 Symbol.root [], [], 1, []⟩

def idOf? (f : Forest) (longname : String) : Option Nat :=
  f.index.lookup longname

/-- Enters a longname into an index, unless it is there. -/
def registerIn (index : List (String × Nat)) (longname : String) (id : Nat) : List (String × Nat) :=
  if (index.lookup longname).isSome then index else index ++ [(longname, id)]

/-- Enters a longname; its first entry stays. -/
def register (f : Forest) (longname : String) (id : Nat) : Forest :=
  { f with index := registerIn f.index longname id }

/-- The subtrees below the root, depth first. -/
def nodes (f : Forest) : List SymbolTree := f.root.nodes

end Forest

end AmbientDecl

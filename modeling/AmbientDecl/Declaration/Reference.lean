import AmbientDecl.Declaration.TypeText
import AmbientDecl.Longname
import AmbientDecl.Run
import AmbientDecl.Settings.Basic
import AmbientDecl.Symbol.Tree

/-!
# Places, names and references

Where a symbol stands in its forest: the symbol and its ancestors. What is declared inside a class
and what beside it follows from the symbol and its parent.

A symbol is declared under its own name if that is an identifier, is not reserved and is not taken
in the same scope; otherwise under a name made from it. Namespaces take no name, because they merge
with each other and with declarations of their name.

A type name refers to a primitive type, to a type parameter, to a documented symbol, or to a global
type that the settings know. A documented symbol is found by its longname, or by its simple name if
only one type has it, and is printed as the path of the names under which it and its ancestors are
declared; a symbol of another module is printed with an import.
-/

namespace AmbientDecl

/-- A symbol with its ancestors. -/
structure Place where
  tree : SymbolTree
  ancestors : List SymbolTree
deriving Repr

namespace Place

def symbol (p : Place) : Symbol := p.tree.symbol

/-- The symbol and its ancestors, the nearest first. -/
def lineage (p : Place) : List SymbolTree := p.tree :: p.ancestors

def child (p : Place) (t : SymbolTree) : Place := ⟨t, p.lineage⟩

/-- The way from the top level to the symbol. -/
def path (p : Place) : List SymbolTree :=
  (p.lineage.takeWhile fun t => t.kind ≠ .root).reverse

/-- The module that the symbol is in. -/
def module? (p : Place) : Option SymbolTree :=
  p.path.head?.filter fun t => t.kind = .moduleDecl

/-- The names of the type parameters of the symbol and its ancestors. -/
def typeParameterNames (p : Place) : List String :=
  p.lineage.flatMap fun t => t.symbol.typeParameters.map TypeParameter.name

end Place

mutual

/-- The places in a tree below ancestors. -/
def placesIn (ancestors : List SymbolTree) : SymbolTree → List Place
  | .node id symbol children =>
    ⟨.node id symbol children, ancestors⟩ ::
      placesInAll (.node id symbol children :: ancestors) children

def placesInAll (ancestors : List SymbolTree) : List SymbolTree → List Place
  | [] => []
  | t :: rest => placesIn ancestors t ++ placesInAll ancestors rest

end

namespace Forest

def places (f : Forest) : List Place := placesIn [] f.root

def place? (f : Forest) (id : Nat) : Option Place :=
  f.places.find? fun p => p.tree.id == id

/-- The place of a symbol that may be a stray, which belongs to other symbols through at most
`steps` strays. -/
def anyPlace? (f : Forest) : (steps : Nat) → (id : Nat) → Option Place
  | 0, id => f.place? id
  | steps + 1, id =>
    (f.place? id).or <| (f.strays.find? fun s => s.id == id).map fun s =>
      ⟨.node s.id s.symbol [], ((s.parent.bind (anyPlace? f steps)).map Place.lineage).getD []⟩

/-- The place of the symbol of a longname, also of a stray. -/
def placeOf? (f : Forest) (longname : String) : Option Place :=
  (f.idOf? longname).bind (f.anyPlace? f.strays.length)

/-- The top level as a place. -/
def top (f : Forest) : Place := ⟨f.root, []⟩

end Forest

namespace SymbolTree

/-- Whether a child is declared in the body of its parent, a class or an interface. -/
def isInlineIn (parent t : SymbolTree) : Bool :=
  (parent.kind = .classDecl || parent.kind = .interfaceDecl) &&
    (t.kind = .functionDecl || t.kind = .memberDecl) && t.symbol.scope ≠ some .innerScope

def isTopModuleIn (parent t : SymbolTree) : Bool :=
  t.kind = .moduleDecl && parent.kind = .root

/-- Tells the symbols of which only a namespace is declared. -/
def isNamespaceIn (parent t : SymbolTree) : Bool :=
  match t.kind with
  | .namespaceDecl => true
  | .moduleDecl => parent.kind ≠ .root
  | .memberDecl => parent.isInlineIn t || !t.children.isEmpty
  | _ => parent.isInlineIn t

/-- The children that are declared in a namespace of the symbol's name. Members in the body are
among them if they have children themselves. -/
def companions (t : SymbolTree) : List SymbolTree :=
  t.children.filter fun c => !t.isInlineIn c || !c.children.isEmpty

end SymbolTree

open Text

/-- Why a declaration has its name. -/
inductive NameReason where
  /-- It is the name of the symbol. -/
  | own
  /-- The name of the symbol is no identifier. -/
  | sanitized
  | reserved
  | collided
deriving DecidableEq, Repr

/-- The name of a declaration and why it is that name. -/
structure NameChoice where
  id : Nat
  symbol : Symbol
  name : String
  reason : NameReason
deriving Repr

/-- Whether a declaration of a kind cannot have a name. -/
def isReservedFor (kind : SymbolKind) (name : String) : Bool :=
  reservedWords.contains name || (kind.isType && predefinedTypeNames.contains name)

/-- The identifier from which the name of a declaration is made. -/
def baseName (name : String) : String :=
  if isIdentifier name then name else toIdentifier name

/-- Whether the declaration of a child takes its name away from later ones. -/
def claimsName (parent t : SymbolTree) : Bool :=
  !parent.isTopModuleIn t && !parent.isNamespaceIn t

/-- Whether a child cannot be declared under a name in a scope where others are taken. -/
def isUnusable (parent : SymbolTree) (taken : List String) (t : SymbolTree) (name : String) :
    Bool :=
  isReservedFor t.kind name || (claimsName parent t && taken.contains name)

/-- The first usable name of a child. -/
def declaredName (parent : SymbolTree) (taken : List String) (t : SymbolTree) : String :=
  firstFree (isUnusable parent taken t) (numberedFrom 1 (baseName t.name))
    (reservedWords.length + predefinedTypeNames.length + taken.length)

def nameReason (parent : SymbolTree) (taken : List String) (t : SymbolTree) : NameReason :=
  if isReservedFor t.kind (baseName t.name) then .reserved
  else if claimsName parent t && taken.contains (baseName t.name) then .collided
  else if declaredName parent taken t = t.name then .own
  else .sanitized

/-- The choice for a child; a module at the top level has its path. -/
def nameChoice (parent : SymbolTree) (taken : List String) (t : SymbolTree) : NameChoice :=
  if parent.isTopModuleIn t then ⟨t.id, t.symbol, t.name, .own⟩
  else ⟨t.id, t.symbol, declaredName parent taken t, nameReason parent taken t⟩

/-- Chooses the names of one scope. -/
def nameChoices (parent : SymbolTree) (taken : List String) : List SymbolTree → List NameChoice
  | [] => []
  | t :: rest =>
    let choice := nameChoice parent taken t
    choice :: nameChoices parent (if claimsName parent t then choice.name :: taken else taken) rest

/-- Chooses the names of a whole tree. -/
def allNameChoices (root : SymbolTree) : List NameChoice :=
  root.walk.flatMap fun t => nameChoices t [] t.companions

/-- What the journal says about a choice. -/
def NameChoice.entry? (c : NameChoice) : Option Entry :=
  let s := c.symbol
  match c.reason with
  | .own => none
  | .sanitized => some (.milestone (.nameSanitized s.longname c.name))
  | .reserved => some (.diagnostic (s.diagnostic .reservedName
      s!"{s.name} is a reserved word, declared as {c.name}"))
  | .collided => some (.diagnostic (s.diagnostic .nameCollision
      s!"{s.name} is declared twice in one scope, {s.longname} is declared as {c.name}"))

open Text

/-- What there is to refer to. -/
structure Directory where
  index : List (String × Nat)
  places : List Place
  /-- The names under which symbols are declared, by number. -/
  names : List (Nat × String)
  knownTypes : List String
  policy : UnresolvedPolicy

namespace Directory

/-- The name under which a symbol is declared; one that has not been given a name has its own. -/
def nameOf (dir : Directory) (t : SymbolTree) : String :=
  (dir.names.lookup t.id).getD t.name

/-- The types of a simple name. -/
def named (dir : Directory) (name : String) : List Place :=
  dir.places.filter fun p => p.tree.kind.isType && p.tree.name == name

/-- Finds the symbol of a name. -/
def lookup? (dir : Directory) (name : String) : Option Place :=
  match dir.index.lookup name with
  | some id => dir.places.find? fun p => p.tree.id == id && p.tree.kind.isType
  | none =>
    if Longname.isModule name then none
    else match dir.named name with
      | [p] => some p
      | _ => none

/-- A module as the first part of a reference. -/
def importText (path : String) : String :=
  "import(\"" ++ path ++ "\")"

/-- Prints the way to a symbol. -/
def qualified (dir : Directory) (target owner : Place) : String :=
  match target.path with
  | [] => ""
  | top :: rest =>
    if top.kind ≠ .moduleDecl then joined "." ((top :: rest).map dir.nameOf)
    else
      let names := rest.map dir.nameOf
      if (owner.module?.map SymbolTree.id) = some top.id then joined "." names
      else importText top.name ++ joined "" (names.map ("." ++ ·))

/-- Puts all rules together. -/
def resolve (dir : Directory) (owner : Place) (typeParams : List String) (name : String) :
    Option String :=
  if primitiveNames.contains name || typeParams.contains name then some name
  else match dir.lookup? name with
    | some target => some (dir.qualified target owner)
    | none => if dir.knownTypes.contains name then some name else none

/-- A name that refers to nothing, as it would be written. -/
def verbatim (name : String) : String :=
  let steps := Longname.split name
  match steps with
  | [] => name
  | first :: rest =>
    if Longname.isModule first.segment then
      importText (Longname.pathOfSegment first.segment) ++
        joined "" (rest.map fun step => "." ++ step.segment)
    else joined "." (steps.map Longname.Step.segment)

def scope (dir : Directory) (owner : Place) (typeParams : List String) : TypeScope where
  resolve := dir.resolve owner typeParams
  fallback := match dir.policy with
    | .any => fun _ => "any"
    | .keep => verbatim

end Directory

end AmbientDecl

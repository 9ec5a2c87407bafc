import AmbientDecl.Doclet.Basic

/-!
# Symbols

A symbol is what the declarations are about: a module, a class, a function and so on, with
everything that its doclets say about it. Symbols form a tree; the links of the tree are not part of
a symbol but of `SymbolTree`.
-/

namespace AmbientDecl

/-- What a symbol declares. -/
inductive SymbolKind where
  /-- The root of the tree, which is declared nowhere. -/
  | root
  | moduleDecl
  | namespaceDecl
  | classDecl
  | interfaceDecl
  | functionDecl
  | memberDecl
  | typedefDecl
  | enumDecl
deriving DecidableEq, Repr

namespace SymbolKind

def name : SymbolKind → String
  | .root => "root"
  | .moduleDecl => "module"
  | .namespaceDecl => "namespace"
  | .classDecl => "class"
  | .interfaceDecl => "interface"
  | .functionDecl => "function"
  | .memberDecl => "member"
  | .typedefDecl => "typedef"
  | .enumDecl => "enum"

def table : List (String × SymbolKind) :=
  [root, moduleDecl, namespaceDecl, classDecl, interfaceDecl, functionDecl, memberDecl, typedefDecl,
   enumDecl].map fun kind => (kind.name, kind)

/-- The kinds whose children are declarations, as opposed to members of a class. -/
def isContainer : SymbolKind → Bool
  | .root | .moduleDecl | .namespaceDecl => true
  | _ => false

def isType : SymbolKind → Bool
  | .classDecl | .interfaceDecl | .typedefDecl | .enumDecl => true
  | _ => false

end SymbolKind

/-- A type parameter and its bound. -/
structure TypeParameter where
  name : String
  constraint : Option String
deriving DecidableEq, Repr

/-- A documented parameter or property of one. -/
structure Parameter where
  name : String
  type : TypeNode
  optional : Bool
  nullable : Bool
  variadic : Bool
  defaultValue : Option String
  description : Option String
deriving DecidableEq, Repr

def Parameter.bare (name : String) (type : TypeNode) : Parameter :=
  ⟨name, type, false, false, false, none, none⟩

/-- One way to call a function. -/
structure Signature where
  longname : String
  kind : SymbolKind
  params : List Parameter
  /-- The type of the result; constructors have none. -/
  returns : Option TypeNode
  returnsDescription : Option String
  typeParameters : List TypeParameter
  description : Option String
  deprecated : Option String
  since : Option String
  /-- The parameters as the comment lists them. -/
  documented : List Doclet.Param
deriving Repr

/-- A value of an enumeration. -/
structure EnumValue where
  name : String
  /-- The written form of the value, if it has one. -/
  value : Option String
  description : Option String
deriving DecidableEq, Repr

/-- A documented thing. -/
structure Symbol where
  kind : SymbolKind
  name : String
  longname : String
  signatures : List Signature
  /-- The type of a member or the meaning of a typedef. -/
  type : Option TypeNode
  enumValues : List EnumValue
  typeParameters : List TypeParameter
  augments : List String
  implements : List String
  mixes : List String
  scope : Option Scope
  access : Option Access
  readonly : Bool
  constant : Bool
  isAbstract : Bool
  hideConstructor : Bool
  description : Option String
  deprecated : Option String
  since : Option String
  /-- Whether the library made the symbol up. -/
  synthesized : Bool
  /-- The parent that the comment names and that does not exist. -/
  unresolvedParent : Option String
  /-- The doclets of the longname, in their order. -/
  doclets : List Doclet
deriving Repr

namespace Symbol

def bare (kind : SymbolKind) (name longname : String) : Symbol :=
  { kind, name, longname
    signatures := [], type := none, enumValues := [], typeParameters := []
    augments := [], implements := [], mixes := []
    scope := none, access := none
    readonly := false, constant := false, isAbstract := false, hideConstructor := false
    description := none, deprecated := none, since := none
    synthesized := false, unresolvedParent := none, doclets := [] }

def root : Symbol := bare .root "" ""

/-- The doclet that the symbol was made of. -/
def doclet? (s : Symbol) : Option Doclet := s.doclets.head?

/-- The parent that the first doclet names. -/
def memberof? (s : Symbol) : Option String := s.doclet?.bind (·.memberof)

/-- Whether the symbol belongs to its parent itself and not to its instances. -/
def isStatic (s : Symbol) : Bool := s.scope == some .staticScope

/-- The place of the first doclet. -/
def location (s : Symbol) : Option SourceLocation := s.doclet?.bind (·.location)

/-- A diagnostic about the symbol, at the place of its first doclet. -/
def diagnostic (s : Symbol) (kind : DiagnosticKind) (message : String) : Diagnostic :=
  .attributed kind message (some s.longname) (some (none, s.location))

end Symbol

end AmbientDecl

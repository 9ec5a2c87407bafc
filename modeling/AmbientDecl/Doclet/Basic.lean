import AmbientDecl.Diagnostic
import AmbientDecl.Json.Value
import AmbientDecl.TypeExpr.Parser

/-!
# Doclets

A doclet is the record of one documentation comment: what it documents, under which longname, and
what it says. The fields that every doclet has are those of `Doclet`; what depends on the documented
thing is its `detail`.
-/

namespace AmbientDecl

open Json

/-- How a documented member belongs to its parent. -/
inductive Scope where
  | staticScope
  | instanceScope
  | innerScope
  | globalScope
deriving DecidableEq, Repr

def Scope.table : List (String × Scope) :=
  [("static", .staticScope), ("instance", .instanceScope), ("inner", .innerScope),
   ("global", .globalScope)]

def Scope.name : Scope → String
  | .staticScope => "static"
  | .instanceScope => "instance"
  | .innerScope => "inner"
  | .globalScope => "global"

/-- Who may use a documented member. -/
inductive Access where
  | publicAccess
  | privateAccess
  | protectedAccess
  | packageAccess
deriving DecidableEq, Repr

def Access.table : List (String × Access) :=
  [("public", .publicAccess), ("private", .privateAccess), ("protected", .protectedAccess),
   ("package", .packageAccess)]

def Access.name : Access → String
  | .publicAccess => "public"
  | .privateAccess => "private"
  | .protectedAccess => "protected"
  | .packageAccess => "package"

namespace Doclet

/-- The alternatives of a documented type. -/
structure TypeNames where
  names : List String
deriving DecidableEq, Repr

/-- The alternatives as one type expression. -/
def TypeNames.expression (t : TypeNames) : String :=
  if t.names.isEmpty then "" else joinTypeNames t.names

/-- A tag of the comment that has no field of its own; a tag without a value has null. -/
structure Tag where
  title : String
  value : Value
  text : Option String
deriving Repr

/-- A documented parameter or property. -/
structure Param where
  name : Option String
  type : Option TypeNames
  description : Option String
  optional : Bool
  nullable : Option Bool
  variable_ : Bool
  defaultValue : Value
deriving Repr

/-- A documented return value. -/
structure Return where
  type : Option TypeNames
  description : Option String
deriving DecidableEq, Repr

/-- What a comment says about deprecation: a bare flag or a text. -/
inductive Deprecation where
  | flag (b : Bool)
  | text (s : String)
deriving DecidableEq, Repr

/-- The kinds of documented things that have members of their own instances. -/
inductive ClassForm where
  | classForm
  | interfaceForm
  | mixinForm
deriving DecidableEq, Repr

def ClassForm.name : ClassForm → String
  | .classForm => "class"
  | .interfaceForm => "interface"
  | .mixinForm => "mixin"

/-- What is documented of a class, an interface or a mixin. -/
structure ClassDetail where
  form : ClassForm
  params : List Param
  augments : List String
  implements : List String
  mixes : List String
  classDescription : Option String
  hideConstructor : Bool
  isVirtual : Bool
deriving Repr

/-- What depends on the kind of documented thing. -/
inductive Detail where
  | classLike (detail : ClassDetail)
  | callable (params : List Param) (returns : List Return)
  | value (constant : Bool) (type : Option TypeNames) (isEnum : Bool)
  | container (isModule : Bool)
  | typedef (type : Option TypeNames) (params : List Param) (returns : List Return)
  | package (files : List String)
  | file
deriving Repr

end Doclet

/-- What one comment documents. -/
structure Doclet where
  name : String
  longname : String
  scope : Option Scope
  memberof : Option String
  access : Option Access
  since : Option String
  deprecated : Option Doclet.Deprecation
  description : Option String
  comment : Option String
  ignore : Bool
  undocumented : Bool
  readonly : Bool
  defaultValue : Value
  properties : List Doclet.Param
  tags : List Doclet.Tag
  location : Option SourceLocation
  detail : Doclet.Detail
deriving Repr

namespace Doclet

/-- A parameter that only has a name. -/
def Param.bare (name : String) : Param :=
  ⟨some name, none, none, false, none, false, .null⟩

/-- A doclet that only says what is documented and where it belongs. -/
def bare (longname : String) (memberof : Option String) (detail : Detail) : Doclet :=
  ⟨"", longname, none, memberof, none, none, none, none, none, false, false, false, .null, [], [],
    none, detail⟩

/-- The name of the kind of documented thing. -/
def kindName (d : Doclet) : String :=
  match d.detail with
  | .classLike detail => detail.form.name
  | .callable .. => "function"
  | .value constant .. => if constant then "constant" else "member"
  | .container isModule => if isModule then "module" else "namespace"
  | .typedef .. => "typedef"
  | .package _ => "package"
  | .file => "file"

/-- The parameters, none where the kind has none. -/
def params (d : Doclet) : List Param :=
  match d.detail with
  | .classLike detail => detail.params
  | .callable params _ | .typedef _ params _ => params
  | _ => []

def returns (d : Doclet) : List Return :=
  match d.detail with
  | .callable _ returns | .typedef _ _ returns => returns
  | _ => []

def isPackage (d : Doclet) : Bool :=
  match d.detail with
  | .package _ => true
  | _ => false

def isFile (d : Doclet) : Bool :=
  match d.detail with
  | .file => true
  | _ => false

/-- Whether the doclet describes a callback: a typedef with parameters or return values. -/
def isCallback (d : Doclet) : Bool :=
  match d.detail with
  | .typedef _ params returns => !params.isEmpty || !returns.isEmpty
  | _ => false

end Doclet

def Diagnostic.about (d : Doclet) (kind : DiagnosticKind) (message : String) : Diagnostic :=
  .attributed kind message none (some (some d.longname, d.location))

end AmbientDecl

import AmbientDecl.Symbol.OfDoclet

/-!
# Documents, comments and findings

The declarations before they are laid out: lines, comments and blocks. Nesting is a fact about the
document, and the layout makes indentation and braces out of it.

What a comment before a declaration says: the description, a line for each parameter, and what is
returned, deprecated and since when. A text cannot end the comment it stands in, because the mark
that would do so is written with a backslash.

What a printer finds out while it prints. A type name without an answer is reported once, for the
first symbol that uses it, so findings are collected first and made into diagnostics afterwards.
-/

namespace AmbientDecl

open Text

/-- A piece of a document. -/
inductive Doc where
  | line (text : String)
  | comment (body : List String)
  /-- A header and what stands between braces after it. -/
  | block (header : String) (body : List Doc)
deriving Repr

/-- What stands before a line at a depth. -/
def indentation (unit : String) (depth : Nat) : String :=
  joined "" (List.replicate depth unit)

/-- A line inside a comment. -/
def commentLine (text : String) : String :=
  strippedRight (" * " ++ text)

mutual

/-- Lays a piece out at a depth. -/
def Doc.lines (unit : String) (depth : Nat) : Doc → List String
  | .line text => [indentation unit depth ++ text]
  | .comment body =>
    (indentation unit depth ++ "/**") ::
      body.map (fun text => indentation unit depth ++ commentLine text) ++
      [indentation unit depth ++ " */"]
  | .block header body =>
    (indentation unit depth ++ header ++ " \x7b") :: Doc.allLines unit (depth + 1) body ++
      [indentation unit depth ++ "\x7d"]

def Doc.allLines (unit : String) (depth : Nat) : List Doc → List String
  | [] => []
  | d :: rest => Doc.lines unit depth d ++ Doc.allLines unit depth rest

end

/-- The text of top-level declarations, each a list of pieces: an empty line between two, and a line
feed at the end. -/
def layout (unit : String) (declarations : List (List Doc)) : String :=
  let blocks := (declarations.map (Doc.allLines unit 0)).filter fun lines => !lines.isEmpty
  let text := joined "\n\n" (blocks.map (joined "\n"))
  if text.isEmpty then "" else text ++ "\n"

/-- The characters with a backslash in every mark that would end a comment. -/
def escapeCommentEnd : List Char → List Char
  | '*' :: '/' :: rest => '*' :: '\\' :: '/' :: escapeCommentEnd rest
  | c :: rest => c :: escapeCommentEnd rest
  | [] => []

/-- What a comment says. -/
structure Remarks where
  description : Option String
  /-- The parameters with what is said about each. -/
  params : List (String × String)
  returns : Option String
  deprecated : Option String
  since : Option String
deriving DecidableEq, Repr

/-- Remarks that describe and say nothing else. -/
def Remarks.describing (description : Option String) : Remarks :=
  ⟨description, [], none, none, none⟩

def descriptionLines (description : Option String) : List String :=
  (lines (trim (description.getD "").toList)).map String.ofList

/-- The lines of a comment before they are laid out. -/
def Remarks.body (r : Remarks) : List String :=
  descriptionLines r.description ++
    r.params.map (fun (name, text) => strippedRight ("@param " ++ name ++ " " ++ text)) ++
    (nonempty? r.returns).toList.map ("@returns " ++ ·) ++
    r.deprecated.toList.map (fun text => strippedRight ("@deprecated " ++ text)) ++
    (nonempty? r.since).toList.map ("@since " ++ ·)

/-- The comment, if it says anything. -/
def Remarks.docs (wanted : Bool) (r : Remarks) : List Doc :=
  if wanted && !r.body.isEmpty then
    [.comment (r.body.map fun text => String.ofList (escapeCommentEnd text.toList))]
  else []

def Symbol.remarks (s : Symbol) : Remarks :=
  ⟨s.description, [], none, s.deprecated, s.since⟩

/-- The parameters of a signature with their descriptions: as the comment lists them, if it does. -/
def Signature.describedParams (s : Signature) : List (String × String) :=
  if s.documented.isEmpty then s.params.map fun p => (p.name, p.description.getD "")
  else s.documented.zipIdx.map fun (p, i) => (p.nameAt i, p.description.getD "")

def Signature.remarks (s : Signature) : Remarks :=
  ⟨s.description, s.describedParams, s.returnsDescription, s.deprecated, s.since⟩

/-- The remarks about a constructor, which say nothing that the class says. -/
def Signature.constructorRemarks (s : Signature) : Remarks :=
  ⟨s.description, s.describedParams, none, none, none⟩

/-- A diagnostic or a name without an answer. -/
inductive Finding where
  /-- A type name without an answer, in what is said about a symbol. -/
  | unresolvedType (name : String) (owner : Symbol)
  | diagnostic (d : Diagnostic)
deriving Repr

/-- A value with the findings made on the way to it and the tasks that came up. -/
structure Noted (α : Type) where
  value : α
  findings : List Finding
  /-- What the machine was asked to carry out. -/
  tasks : List Task
deriving Repr

namespace Noted

variable {α β : Type}

instance : Monad Noted where
  pure a := ⟨a, [], []⟩
  bind x f :=
    let y := f x.value
    ⟨y.value, x.findings ++ y.findings, x.tasks ++ y.tasks⟩

@[simp] theorem pure_def (a : α) : (pure a : Noted α) = ⟨a, [], []⟩ := rfl

theorem bind_def (x : Noted α) (f : α → Noted β) : x >>= f =
    ⟨(f x.value).value, x.findings ++ (f x.value).findings, x.tasks ++ (f x.value).tasks⟩ := rfl

instance : LawfulMonad Noted := LawfulMonad.mk' Noted
  (by rintro α ⟨a, findings, tasks⟩; simp [Functor.map])
  (by intro α β a f; simp [bind_def])
  (by intro α β γ x f g; simp [bind_def, List.append_assoc])

def note (d : Diagnostic) : Noted Unit := ⟨(), [.diagnostic d], []⟩

def attempt (t : Task) : Noted Unit := ⟨(), [], [t]⟩

end Noted

def unresolvedTypeDiagnostic (name : String) (owner : Symbol) : Diagnostic :=
  { kind := .unresolvedType
    longname := (nonempty? (some owner.longname)).or (owner.doclet?.map Doclet.longname)
    message := s!"Type {name} matches no documented symbol, emitted as any"
    source := owner.location }

/-- The diagnostics of findings, where the names `reported` have been reported before. -/
def reportFindings (reported : List String) : List Finding → List Diagnostic
  | [] => []
  | .diagnostic d :: rest => d :: reportFindings reported rest
  | .unresolvedType name owner :: rest =>
    if reported.contains name then reportFindings reported rest
    else unresolvedTypeDiagnostic name owner :: reportFindings (name :: reported) rest

/-- The names without an answer among findings. -/
def unresolvedIn (findings : List Finding) : List String :=
  findings.filterMap fun
    | .unresolvedType name _ => some name
    | .diagnostic _ => none

end AmbientDecl

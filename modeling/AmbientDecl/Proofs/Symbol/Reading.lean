import AmbientDecl.Proofs.Run
import AmbientDecl.Symbol.OfDoclet

/-!
# What reading a doclet gives

Reading the types of a doclet is a run, because a type that cannot be read is reported. It never
ends there, so what is read is a function of the doclet.

* `result_readTypeOf` and `exists_withDetail`: reading goes on whatever the types are.
* `Parameter.readFrom`, `TypeNode.ofReturns` and `Signature.read` are what the runs give.
-/

namespace AmbientDecl

variable (d : Doclet)

/-- A type is read whether or not it is reported. -/
lemma result_readTypeOf (expression : Option String) :
    (readTypeOf d expression).result = .ok (readType expression).expression := by
  simp only [readTypeOf]
  split
  · rfl
  · rfl

/-- The value of an enumeration that a property documents. -/
def Symbol.enumValueOf? (p : Doclet.Param) : Option EnumValue :=
  (nonempty? p.name).map fun name => ⟨name, initializer? p.defaultValue, p.description⟩

lemma Symbol.result_enumValuesOf (properties : List Doclet.Param) :
    (enumValuesOf properties).result = .ok (properties.filterMap enumValueOf?) := by
  induction properties with
  | nil => rfl
  | cons p rest ih =>
    rw [enumValuesOf]
    cases hname : nonempty? p.name with
    | none => simpa [enumValueOf?, hname] using ih
    | some name =>
      refine Run.result_bind.mpr ⟨_, rfl, Run.result_bind.mpr ⟨_, ih, ?_⟩⟩
      simp [enumValueOf?, hname]

lemma Symbol.exists_withDetail (s : Symbol) : ∃ t, (withDetail d s).result = .ok t := by
  unfold withDetail
  split
  · exact ⟨_, rfl⟩
  · split
    · exact ⟨_, Run.result_bind.mpr ⟨_, result_enumValuesOf d.properties, rfl⟩⟩
    · exact ⟨_, Run.result_bind.mpr ⟨_, result_readTypeOf d _, rfl⟩⟩
  · exact ⟨_, Run.result_bind.mpr ⟨_, result_readTypeOf d _, rfl⟩⟩
  · exact ⟨_, rfl⟩

/-- The parameter that is documented at a position. -/
def Parameter.read (position : Nat) (p : Doclet.Param) : Parameter :=
  let e := (readType (p.type.map Doclet.TypeNames.expression)).expression
  { name := p.nameAt position
    type := e.type
    optional := p.optional || e.optional
    nullable := p.nullable.getD false || e.nullable.getD false
    variadic := p.variable_ || e.variadic
    defaultValue := valueText? p.defaultValue
    description := p.description }

/-- The parameters that are documented from a position on. -/
def Parameter.readFrom (position : Nat) : List Doclet.Param → List Parameter
  | [] => []
  | p :: rest => Parameter.read position p :: readFrom (position + 1) rest

def TypeNode.ofReturn (r : Doclet.Return) : TypeNode :=
  match r.type with
  | none => .any
  | some t => if t.names.isEmpty then .any else (readType (some t.expression)).expression.type

def TypeNode.ofReturns (returns : List Doclet.Return) : TypeNode :=
  if returns.isEmpty then .void else .unionOf (returns.map TypeNode.ofReturn)

/-- The signature that a doclet documents for a symbol of a kind. -/
def Signature.read (d : Doclet) (kind : SymbolKind) : Signature where
  longname := d.longname
  kind := kind
  params := Parameter.readFrom 0 d.params
  returns := if kind = .classDecl then none else some (TypeNode.ofReturns d.returns)
  returnsDescription := d.returns.findSome? fun r => nonempty? r.description
  typeParameters := if kind = .classDecl then [] else typeParametersOf d
  description := d.description
  deprecated := d.signatureDeprecation
  since := d.since
  documented := d.params

lemma result_parameterOf (position : Nat) (p : Doclet.Param) :
    (parameterOf d position p).result = .ok (Parameter.read position p) :=
  Run.result_bind.mpr ⟨_, result_readTypeOf d _, rfl⟩

lemma result_parametersFrom (params : List Doclet.Param) : ∀ position,
    (parametersFrom d position params).result = .ok (Parameter.readFrom position params) := by
  induction params with
  | nil => intro position; rfl
  | cons p rest ih =>
    intro position
    refine Run.result_bind.mpr ⟨_, result_parameterOf d position p, ?_⟩
    exact Run.result_bind.mpr ⟨_, ih (position + 1), rfl⟩

lemma result_returnType (r : Doclet.Return) :
    (returnType d r).result = .ok (TypeNode.ofReturn r) := by
  unfold returnType TypeNode.ofReturn
  cases r.type with
  | none => rfl
  | some t =>
    by_cases hnames : t.names.isEmpty = true
    · simp only [if_pos hnames, Run.result_pure]
    · simp only [if_neg hnames]
      exact Run.result_bind.mpr ⟨_, result_readTypeOf d _, rfl⟩

lemma result_returnTypes (returns : List Doclet.Return) :
    (returnTypes d returns).result = .ok (returns.map TypeNode.ofReturn) := by
  induction returns with
  | nil => rfl
  | cons r rest ih =>
    refine Run.result_bind.mpr ⟨_, result_returnType d r, ?_⟩
    exact Run.result_bind.mpr ⟨_, ih, rfl⟩

lemma result_returnTypeOf : (returnTypeOf d).result = .ok (TypeNode.ofReturns d.returns) := by
  unfold returnTypeOf TypeNode.ofReturns
  split
  · rfl
  · exact Run.result_bind.mpr ⟨_, result_returnTypes d d.returns, rfl⟩

lemma result_ofDoclet (kind : SymbolKind) :
    (Signature.ofDoclet d kind).result = .ok (Signature.read d kind) := by
  refine Run.result_bind.mpr ⟨_, result_parametersFrom d d.params 0, ?_⟩
  unfold Signature.read
  split
  · exact Run.result_bind.mpr ⟨none, rfl, rfl⟩
  · refine Run.result_bind.mpr ⟨some (TypeNode.ofReturns d.returns), ?_, rfl⟩
    rw [map_eq_pure_bind]
    exact Run.result_bind.mpr ⟨_, result_returnTypeOf d, rfl⟩

lemma result_ofDoclets (kind : SymbolKind) (doclets : List Doclet) :
    (Signature.ofDoclets kind doclets).result =
      .ok (doclets.map fun d => Signature.read d kind) := by
  induction doclets with
  | nil => rfl
  | cons d rest ih =>
    refine Run.result_bind.mpr ⟨_, result_ofDoclet d kind, ?_⟩
    exact Run.result_bind.mpr ⟨_, ih, rfl⟩

end AmbientDecl

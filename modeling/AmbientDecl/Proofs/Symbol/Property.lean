import AmbientDecl.Forest.Expansion
import Mathlib.Data.List.Infix
import Mathlib.Tactic.Common

/-!
# Where described properties end up

The names of described properties are paths in a tree of shapes.

**Shapes.** `Shape.at?` is the level at the end of a path. Adding a description changes the levels
on its own path and no other (`at?_insert_elsewhere`), and at the end of its path it puts itself in
the place of an earlier one (`at?_insert_self`). So the last description of a path stands there
(`at?_described`).

**Records.** `FieldAt` finds a field of nested records by a path; the level at the end of a path
makes such a field (`fieldAt_fields`).

**Parameters.** A plain parameter without described properties stays as it is when the others are
put together (`mem_substituted_of_plain`).
-/

namespace AmbientDecl

open List Parameter

variable {params : List Parameter} {n : String}

def stepNames (path : List PropertyStep) : List String := path.map PropertyStep.name

def Parameter.propertyNames (p : Parameter) : List String := stepNames p.propertyPath

lemma Parameter.propertyNames_ne_nil (p : Parameter) : p.propertyNames ≠ [] := by
  rw [propertyNames, propertyPath]
  split <;> simp [stepNames]

namespace Shape

variable {name : String} {names : List String} {path : List PropertyStep} {p q : Parameter}
  {shape : Shape}

/-- The level at the end of a path. -/
def at? : List String → Shape → Option Shape
  | [], shape => some shape
  | name :: names, shape => (shape.children.lookup name).bind (at? names)

lemma lookup_cons_ite (n m : String) (s : Shape) (l : List (String × Shape)) :
    ((m, s) :: l).lookup n = if n = m then some s else l.lookup n := by
  by_cases h : n = m
  · simp [h]
  · simp [lookup_cons, beq_false_of_ne h, h]

lemma lookup_alter (name : String) (f : Shape → Shape) (l : List (String × Shape)) (n : String) :
    (alter name f l).lookup n =
      if n = name then some (f ((l.lookup name).getD empty)) else l.lookup n := by
  induction l with
  | nil => rw [alter, lookup_cons_ite]; rfl
  | cons entry rest ih =>
    obtain ⟨m, s⟩ := entry
    by_cases hm : m = name
    · subst hm
      rw [alter, if_pos rfl, lookup_cons_ite, lookup_cons_ite, lookup_cons_ite, if_pos rfl]
      split <;> rfl
    · rw [alter, if_neg hm, lookup_cons_ite, lookup_cons_ite, lookup_cons_ite, ih,
        if_neg (Ne.symm hm)]
      by_cases hn : n = m
      · rw [if_pos hn, if_pos hn, if_neg (hn ▸ hm)]
      · rw [if_neg hn, if_neg hn]

lemma at?_congr {s s' : Shape} (h : s.children = s'.children) (hnames : names ≠ []) :
    s.at? names = s'.at? names := by
  cases names with
  | nil => exact absurd rfl hnames
  | cons name names => rw [at?, at?, h]

@[simp] lemma children_markArray (mark : Bool) (s : Shape) :
    (s.markArray mark).children = s.children := by
  cases s; rfl

@[simp] lemma children_withParam (param : Option Parameter) (s : Shape) :
    (s.withParam param).children = s.children := by
  cases s; rfl

lemma at?_insert_cons (step : PropertyStep) (path : List PropertyStep) (name : String)
    (names : List String) (shape : Shape) :
    (shape.insert (step :: path) p).at? (name :: names) = if name = step.name then
        (insert path p (((shape.children.lookup step.name).getD empty).markArray step.isArray)).at?
          names
      else shape.at? (name :: names) := by
  obtain ⟨param, isArray, children⟩ := shape
  rw [insert, at?, Shape.children, lookup_alter]
  split <;> simp [at?, Shape.children]

/-- **A description changes no level that is not on its path.** -/
lemma at?_insert_elsewhere : ∀ {path : List PropertyStep} {names : List String} {shape : Shape},
    ¬ names <+: stepNames path → (shape.insert path p).at? names = shape.at? names := by
  intro path
  induction path with
  | nil =>
    intro names shape h
    have hne : names ≠ [] := by
      rintro rfl
      exact h nil_prefix
    rw [insert]
    exact at?_congr (children_withParam _ _) hne
  | cons step path ih =>
    intro names shape h
    cases names with
    | nil => exact absurd nil_prefix h
    | cons name names =>
      rw [at?_insert_cons]
      split
      · rename_i hname
        subst hname
        have hrest : ¬ names <+: stepNames path := by
          intro hstarts
          exact h (cons_prefix_cons.mpr ⟨rfl, hstarts⟩)
        have hne : names ≠ [] := by
          rintro rfl
          exact hrest nil_prefix
        rw [ih hrest, at?_congr (children_markArray _ _) hne, at?]
        cases shape.children.lookup step.name with
        | none =>
          cases names with
          | nil => exact absurd rfl hne
          | cons name names => rfl
        | some s => rfl
      · rfl

def propertiesAt (names : List String) (shape : Shape) : List (String × Shape) :=
  ((shape.at? names).map children).getD []

lemma propertiesAt_congr {s s' : Shape} (h : s.children = s'.children) (names : List String) :
    s.propertiesAt names = s'.propertiesAt names := by
  cases names with
  | nil => exact h
  | cons name names => rw [propertiesAt, propertiesAt, at?, at?, h]

lemma propertiesAt_empty (names : List String) : empty.propertiesAt names = [] := by
  cases names <;> rfl

lemma propertiesAt_cons (name : String) (names : List String) (shape : Shape) :
    shape.propertiesAt (name :: names) =
      ((shape.children.lookup name).getD empty).propertiesAt names := by
  rw [propertiesAt, at?]
  cases shape.children.lookup name with
  | none => exact (propertiesAt_empty names).symm
  | some s => rfl

/-- **At the end of its path a description takes the place of an earlier one.** -/
lemma at?_insert_self (path : List PropertyStep) : ∀ shape : Shape,
    ∃ isArray, (shape.insert path p).at? (stepNames path) =
      some (.node (some p) isArray (shape.propertiesAt (stepNames path))) := by
  induction path with
  | nil =>
    rintro ⟨param, isArray, children⟩
    exact ⟨isArray, rfl⟩
  | cons step path ih =>
    intro shape
    obtain ⟨isArray, h⟩ := ih (((shape.children.lookup step.name).getD empty).markArray
      step.isArray)
    refine ⟨isArray, ?_⟩
    rw [stepNames, map_cons, ← stepNames, at?_insert_cons, if_pos rfl, h, propertiesAt_cons,
      propertiesAt_congr (children_markArray _ _)]

/-- Other descriptions than those of properties of a level give it none. -/
lemma propertiesAt_insert (h : names <+: stepNames path → stepNames path = names) :
    (shape.insert path p).propertiesAt names = shape.propertiesAt names := by
  by_cases hstarts : names <+: stepNames path
  · obtain rfl := h hstarts
    obtain ⟨isArray, hat⟩ := at?_insert_self path shape
    rw [propertiesAt, hat]
    rfl
  · rw [propertiesAt, at?_insert_elsewhere hstarts, propertiesAt]

/-- The shape with descriptions added one by one. -/
def describe (shape : Shape) (params : List Parameter) : Shape :=
  params.foldl (fun shape p => shape.insert p.propertyPath p) shape

lemma describe_cons (shape : Shape) (p : Parameter) (params : List Parameter) :
    shape.describe (p :: params) = (shape.insert p.propertyPath p).describe params := rfl

lemma propertiesAt_describe
    (h : ∀ q ∈ params, names <+: q.propertyNames → q.propertyNames = names) :
    (shape.describe params).propertiesAt names = shape.propertiesAt names := by
  induction params generalizing shape with
  | nil => rfl
  | cons q rest ih =>
    obtain ⟨hq, hrest⟩ := forall_mem_cons.mp h
    exact (ih hrest).trans (propertiesAt_insert hq)

lemma at?_describe (h : ∀ q ∈ params, ¬ names <+: q.propertyNames) :
    (shape.describe params).at? names = shape.at? names := by
  induction params generalizing shape with
  | nil => rfl
  | cons q rest ih =>
    obtain ⟨hq, hrest⟩ := forall_mem_cons.mp h
    exact (ih hrest).trans (at?_insert_elsewhere hq)

/-- **The last description of a path stands at its end**, alone if none goes on from there. -/
lemma at?_described {before after : List Parameter}
    (hbefore : ∀ q ∈ before, p.propertyNames <+: q.propertyNames → q.propertyNames =
      p.propertyNames)
    (hafter : ∀ q ∈ after, ¬ p.propertyNames <+: q.propertyNames) :
    ∃ isArray, (empty.describe (before ++ p :: after)).at? p.propertyNames =
      some (.node (some p) isArray []) := by
  obtain ⟨isArray, hself⟩ := at?_insert_self p.propertyPath (empty.describe before)
  refine ⟨isArray, ?_⟩
  have hsplit : empty.describe (before ++ p :: after) =
      ((empty.describe before).insert p.propertyPath p).describe after := by
    simp [describe]
  rw [hsplit, at?_describe hafter, propertyNames, hself, ← propertyNames,
    propertiesAt_describe hbefore, propertiesAt_empty]

end Shape

/-- A type that is a record, or an array of records, null added or not. -/
def TypeNode.HoldsRecord (t : TypeNode) (fields : List (RecordField TypeNode)) : Prop :=
  ∃ base, (base = .record fields ∨ base = .array (.record fields)) ∧ (t = base ∨ t = base.orNull)

/-- The field at the end of a path through nested records. -/
inductive FieldAt : List String → RecordField TypeNode → List (RecordField TypeNode) → Prop
  | here {f : RecordField TypeNode} {fields : List (RecordField TypeNode)} (mem : f ∈ fields) :
      FieldAt [f.name] f fields
  | deeper {outer f : RecordField TypeNode} {fields inner : List (RecordField TypeNode)}
      {names : List String} (mem : outer ∈ fields) (holds : outer.type.HoldsRecord inner)
      (inside : FieldAt names f inner) : FieldAt (outer.name :: names) f fields

lemma FieldAt.ne_nil {names : List String} {f : RecordField TypeNode}
    {fields : List (RecordField TypeNode)} (h : FieldAt names f fields) : fields ≠ [] := by
  cases h with
  | here mem => exact ne_nil_of_mem mem
  | deeper mem => exact ne_nil_of_mem mem

namespace Shape

def field (name : String) (shape : Shape) : RecordField TypeNode :=
  fieldOf name shape.param shape.isArray (fields shape.children)

lemma fields_eq (l : List (String × Shape)) : fields l = l.map fun e => field e.1 e.2 := by
  induction l with
  | nil => simp [fields]
  | cons entry rest ih =>
    obtain ⟨name, ⟨param, isArray, children⟩⟩ := entry
    rw [fields, ih, map_cons]
    rfl

lemma mem_fields {l : List (String × Shape)} {name : String} {shape : Shape}
    (h : l.lookup name = some shape) : field name shape ∈ fields l := by
  rw [fields_eq]
  obtain ⟨front, back, rfl, _⟩ := lookup_eq_some_iff.mp h
  simp

/-- A level with properties makes a field that holds their record. -/
lemma holdsRecord_field (name : String) {shape : Shape} (h : fields shape.children ≠ []) :
    (field name shape).type.HoldsRecord (fields shape.children) := by
  have hempty : (fields shape.children).isEmpty = false := by simpa using h
  simp only [field, fieldOf, hempty, Bool.false_eq_true, if_false]
  cases (Shape.node shape.param shape.isArray []).holdsArray <;>
    cases shape.param.any (·.nullable)
  · exact ⟨_, .inl rfl, .inl rfl⟩
  · exact ⟨_, .inl rfl, .inr rfl⟩
  · exact ⟨_, .inr rfl, .inl rfl⟩
  · exact ⟨_, .inr rfl, .inr rfl⟩

/-- **The level at the end of a path makes the field at the end of the path.** -/
lemma fieldAt_fields : ∀ {names : List String} {shape leaf : Shape} (hnames : names ≠ []),
    shape.at? names = some leaf →
      FieldAt names (field (names.getLast hnames) leaf) (fields shape.children) := by
  intro names
  induction names with
  | nil => intro _ _ h; exact absurd rfl h
  | cons name names ih =>
    intro shape leaf hnames h
    rw [at?, Option.bind_eq_some_iff] at h
    obtain ⟨child, hchild, hleaf⟩ := h
    cases names with
    | nil =>
      obtain rfl := Option.some.inj hleaf
      exact .here (mem_fields hchild)
    | cons next names =>
      have hinside := ih (cons_ne_nil next names) hleaf
      exact .deeper (mem_fields hchild) (holdsRecord_field name hinside.ne_nil) hinside

end Shape

/-- **The record of described properties has a field for the last description of a path.** -/
lemma fieldAt_recordOfProperties {p : Parameter} {before after : List Parameter}
    (hsplit : params = before ++ p :: after)
    (hbefore : ∀ q ∈ before, p.propertyNames <+: q.propertyNames → q.propertyNames =
      p.propertyNames)
    (hafter : ∀ q ∈ after, ¬ p.propertyNames <+: q.propertyNames) :
    ∃ fields f, recordOfProperties params = .record fields ∧ FieldAt p.propertyNames f fields ∧
      f.type = (if p.nullable then p.type.orNull else p.type) ∧ f.optional = p.optional := by
  obtain ⟨isArray, hleaf⟩ := Shape.at?_described hbefore hafter
  subst hsplit
  refine ⟨_, _, rfl, Shape.fieldAt_fields p.propertyNames_ne_nil hleaf, ?_, ?_⟩
  · simp [Shape.field, Shape.fieldOf, Shape.fields, Shape.param, Shape.children]
  · simp [Shape.field, Shape.fieldOf, Shape.param]

namespace Shape

lemma mem_alter {name : String} {f : Shape → Shape} {l : List (String × Shape)}
    (h : n ∈ (alter name f l).map Prod.fst) : n = name ∨ n ∈ l.map Prod.fst := by
  induction l with
  | nil => simpa [alter] using h
  | cons entry rest ih =>
    obtain ⟨m, s⟩ := entry
    rw [alter] at h
    split at h
    · exact .inr h
    · rcases mem_cons.mp h with rfl | h
      · exact .inr mem_cons_self
      · exact (ih h).imp_right (mem_cons_of_mem _)

/-- The properties of the first level are those that descriptions begin with. -/
lemma mem_children_describe {shape : Shape}
    (h : n ∈ (shape.describe params).children.map Prod.fst) :
    n ∈ shape.children.map Prod.fst ∨ ∃ q ∈ params, q.propertyNames.head? = some n := by
  induction params generalizing shape with
  | nil => exact .inl h
  | cons q rest ih =>
    rw [describe_cons] at h
    rcases ih h with h | ⟨r, hr, hhead⟩
    · obtain ⟨step, path, hpath⟩ : ∃ step path, q.propertyPath = step :: path := by
        rw [propertyPath]
        split
        · exact ⟨_, _, rfl⟩
        · exact ⟨_, _, rfl⟩
      obtain ⟨param, isArray, children⟩ := shape
      rw [hpath, insert] at h
      rcases mem_alter h with rfl | h
      · exact .inr ⟨q, mem_cons_self, by rw [propertyNames, hpath]; rfl⟩
      · exact .inl h
    · exact .inr ⟨r, mem_cons_of_mem _ hr, hhead⟩

end Shape

/-- A group has the name of a parameter that has described properties. -/
lemma mem_propertyGroups (h : n ∈ (propertyGroups params).map Prod.fst) :
    ∃ q ∈ params, q.isProperty = true ∧ q.rootName = n := by
  rcases Shape.mem_children_describe h with h | ⟨q, hq, hhead⟩
  · simp [Shape.empty, Shape.children] at h
  · obtain ⟨hmem, hproperty⟩ := mem_filter.mp hq
    refine ⟨q, hmem, hproperty, ?_⟩
    rw [isProperty, Option.isSome_iff_exists] at hproperty
    obtain ⟨path, hpath⟩ := hproperty
    simp only [propertyNames, propertyPath, hpath, stepNames, map_cons,
      head?_cons, Option.some.injEq] at hhead
    simp only [rootName, hpath, hhead]

lemma mem_substituted {groups : List (String × Parameter)} {p : Parameter}
    (hp : groups.lookup p.rootName = none) : ∀ {params : List Parameter} {seen : List String},
      p ∈ params → p ∈ substituted groups seen params := by
  intro params
  induction params with
  | nil => intro seen h; cases h
  | cons q rest ih =>
    intro seen h
    rcases mem_cons.mp h with rfl | h
    · rw [substituted, hp]
      exact mem_cons_self
    · rw [substituted]
      split
      · exact mem_cons_of_mem _ (ih h)
      · split
        · exact ih h
        · exact mem_cons_of_mem _ (ih h)

/-- **A plain parameter without described properties stays as it is.** -/
lemma mem_substituted_of_plain {groups : List (String × Parameter)} {p : Parameter}
    (hgroups : groups.map Prod.fst = (propertyGroups params).map Prod.fst) (hp : p ∈ params)
    (hplain : p.isProperty = false)
    (hnone : ∀ q ∈ params, q.isProperty = true → q.rootName ≠ p.name) :
    p ∈ substituted groups [] params := by
  refine mem_substituted ?_ hp
  have hroot : p.rootName = p.name := by
    rw [isProperty, Option.isSome_eq_false_iff, Option.isNone_iff_eq_none] at hplain
    rw [rootName, hplain]
  rw [hroot, lookup_eq_none_iff]
  intro group hgroup
  obtain ⟨q, hq, hproperty, hname⟩ :=
    mem_propertyGroups (hgroups ▸ mem_map_of_mem (f := Prod.fst) hgroup)
  simpa [← hname] using (hnone q hq hproperty).symm

end AmbientDecl

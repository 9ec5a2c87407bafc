import AmbientDecl.Proofs.Identifier
import AmbientDecl.Proofs.Symbol.Property
import AmbientDecl.Proofs.TypeExpr.Union

/-!
# Described properties as a trie

The record of described properties, said by the list of descriptions alone. A path of names leads to
a level of nested records, and the level is made of the descriptions whose paths go on from there.

**Descriptions.** `nameAfter` is the name with which a path goes on, `namesAfter` lists those of all
descriptions in the order of their first appearance. `lastAt` is the last description of a path, and
`MarksArray` tells that a description writes the end of a path as the elements of an array.

**One insertion.** `keysAt_insert`, `paramAt_insert` and `arrayAt_insert` say what adding one
description does to the level at any path. So the levels of a whole list are known
(`keysAt_describe`, `paramAt_describe`, `arrayAt_describe`).

**Records.** `IsTrie` says of a family of field lists, one for each path, that it is the trie of the
descriptions. `recordOfProperties_trie` is that the record is the first list of such a family.
-/

namespace AmbientDecl

open List Shape

variable {names : List String} {name : String} {params : List Parameter}

/-- The name with which a path goes on. -/
def nameAfter (path names : List String) : Option String :=
  if path <+: names then names[path.length]? else none

/-- The names with which described properties go on from a path, in the order of their first
appearance. -/
def namesAfter (params : List Parameter) (path : List String) : List String :=
  (params.filterMap fun p => nameAfter path p.propertyNames).eraseDups

/-- The last description of the property at a path. -/
def lastAt (params : List Parameter) (path : List String) : Option Parameter :=
  params.reverse.find? fun p => p.propertyNames == path

/-- The path of the description goes on from `path`. -/
def Parameter.GoesOn (p : Parameter) (path : List String) : Prop :=
  path <+: p.propertyNames ∧ p.propertyNames ≠ path

/-- A path of steps goes through `path` and writes its end as the elements of an array. -/
def MarksArray (path : List String) (steps : List PropertyStep) : Prop :=
  path <+: stepNames steps ∧ ∃ step, (steps.take path.length).getLast? = some step ∧
    step.isArray = true

lemma nameAfter_nil (names : List String) : nameAfter [] names = names.head? := by
  simp [nameAfter, head?_eq_getElem?]

lemma nameAfter_cons (name n : String) (path names : List String) :
    nameAfter (name :: path) (n :: names) = if name = n then nameAfter path names else none := by
  by_cases h : name = n <;> simp [nameAfter, cons_prefix_cons, h]

lemma nameAfter_eq_some {path : List String} :
    nameAfter path names = some name ↔ path ++ [name] <+: names := by
  induction path generalizing names with
  | nil => cases names <;> simp [nameAfter_nil, eq_comm]
  | cons first path ih =>
    cases names with
    | nil => simp [nameAfter]
    | cons n names =>
      rw [nameAfter_cons, cons_append, cons_prefix_cons]
      split
      · rename_i h
        simp [h, ih]
      · rename_i h
        simp [h]

lemma mem_namesAfter {path : List String} :
    name ∈ namesAfter params path ↔ ∃ p ∈ params, path ++ [name] <+: p.propertyNames := by
  simp [namesAfter, nameAfter_eq_some]

/-- No name comes after a path exactly if no description goes on from it. -/
lemma namesAfter_eq_nil {path : List String} :
    namesAfter params path = [] ↔ ∀ p ∈ params, ¬ p.GoesOn path := by
  rw [eq_nil_iff_forall_not_mem]
  simp only [mem_namesAfter, not_exists, not_and]
  constructor
  · rintro h p hp ⟨⟨rest, hrest⟩, hne⟩
    cases rest with
    | nil => exact hne (by rw [← hrest, append_nil])
    | cons name rest => exact h name p hp ⟨rest, by rw [← hrest]; simp⟩
  · rintro h name p hp hstarts
    refine h p hp ⟨(prefix_append path [name]).trans hstarts, ?_⟩
    intro hsame
    have hlen := hstarts.length_le
    rw [hsame, length_append, length_singleton] at hlen
    omega

/-- Where a description goes through a path and none goes on from it, there is a last one of it. -/
lemma exists_lastAt {path : List String} (h : ∃ p ∈ params, path <+: p.propertyNames)
    (hlast : ∀ p ∈ params, ¬ p.GoesOn path) : ∃ p, lastAt params path = some p := by
  obtain ⟨p, hp, hstarts⟩ := h
  have hsame : p.propertyNames = path := by
    by_contra hne
    exact hlast p hp ⟨hstarts, hne⟩
  rw [← Option.isSome_iff_exists, lastAt, find?_isSome]
  exact ⟨p, mem_reverse.mpr hp, by simp [hsame]⟩

namespace Shape

variable {path : List PropertyStep} {p : Parameter} {shape : Shape}

def keysAt (names : List String) (shape : Shape) : List String :=
  (shape.propertiesAt names).map Prod.fst

def paramAt (names : List String) (shape : Shape) : Option Parameter :=
  (shape.at? names).bind param

/-- Whether a name marks the level at a path as the elements of an array. -/
def arrayAt (names : List String) (shape : Shape) : Bool :=
  (shape.at? names).any isArray

/-- The level below a level, which may not exist yet. -/
def levelBelow (name : String) (shape : Shape) : Shape := (shape.children.lookup name).getD empty

lemma at?_empty (h : names ≠ []) : empty.at? names = none := by
  cases names with
  | nil => exact absurd rfl h
  | cons name names => rfl

lemma keysAt_cons (name : String) (names : List String) (shape : Shape) :
    shape.keysAt (name :: names) = (shape.levelBelow name).keysAt names := by
  rw [keysAt, propertiesAt_cons, keysAt, levelBelow]

lemma paramAt_cons (name : String) (names : List String) (shape : Shape) :
    shape.paramAt (name :: names) = (shape.levelBelow name).paramAt names := by
  rw [paramAt, at?, levelBelow]
  cases shape.children.lookup name with
  | none => cases names <;> rfl
  | some s => rfl

lemma arrayAt_cons (name : String) (names : List String) (shape : Shape) :
    shape.arrayAt (name :: names) = (shape.levelBelow name).arrayAt names := by
  rw [arrayAt, at?, levelBelow]
  cases shape.children.lookup name with
  | none => cases names <;> rfl
  | some s => rfl

lemma levelBelow_insert (step : PropertyStep) (path : List PropertyStep) (name : String)
    (shape : Shape) :
    (shape.insert (step :: path) p).levelBelow name =
      if name = step.name then insert path p ((shape.levelBelow step.name).markArray step.isArray)
      else shape.levelBelow name := by
  obtain ⟨param, isArray, children⟩ := shape
  rw [insert, levelBelow, Shape.children, lookup_alter]
  split <;> rfl

/-- A further key goes to the end, unless it is there. -/
lemma keys_alter (name : String) (f : Shape → Shape) (l : List (String × Shape)) :
    (alter name f l).map Prod.fst =
      if name ∈ l.map Prod.fst then l.map Prod.fst else l.map Prod.fst ++ [name] := by
  induction l with
  | nil => rfl
  | cons entry rest ih =>
    obtain ⟨m, s⟩ := entry
    by_cases hm : m = name
    · simp [alter, hm]
    · rw [alter, if_neg hm, map_cons, ih, map_cons]
      by_cases hrest : name ∈ rest.map Prod.fst
      · rw [if_pos hrest, if_pos (mem_cons_of_mem _ hrest)]
      · rw [if_neg hrest, if_neg (by simp [hrest, Ne.symm hm]), cons_append]

/-- The names of a level after a description was added that goes on with `next`. -/
def withKey (next : Option String) (keys : List String) : List String :=
  match next with
  | some name => if name ∈ keys then keys else keys ++ [name]
  | none => keys

lemma keysAt_congr {s s' : Shape} (h : s.children = s'.children) (names : List String) :
    s.keysAt names = s'.keysAt names := by
  rw [keysAt, propertiesAt_congr h, keysAt]

/-- **A description adds a name to the levels on its path**, if it is new there. -/
lemma keysAt_insert : ∀ (path : List PropertyStep) (names : List String) (shape : Shape),
    (shape.insert path p).keysAt names =
      withKey (nameAfter names (stepNames path)) (shape.keysAt names) := by
  intro path
  induction path with
  | nil =>
    intro names shape
    have hnone : nameAfter names (stepNames []) = none := by
      cases names <;> simp [nameAfter, stepNames]
    rw [insert, keysAt_congr (children_withParam _ _), hnone]
    rfl
  | cons step path ih =>
    intro names shape
    cases names with
    | nil =>
      obtain ⟨param, isArray, children⟩ := shape
      exact keys_alter _ _ _
    | cons name names =>
      have hafter : nameAfter (name :: names) (stepNames (step :: path)) =
          if name = step.name then nameAfter names (stepNames path) else none :=
        nameAfter_cons _ _ _ _
      rw [keysAt_cons, levelBelow_insert, keysAt_cons, hafter]
      split
      · rename_i hname
        rw [ih, keysAt_congr (children_markArray _ _), hname]
      · rfl

lemma param_markArray (mark : Bool) (s : Shape) : (s.markArray mark).param = s.param := by
  cases s; rfl

lemma isArray_markArray (mark : Bool) (s : Shape) :
    (s.markArray mark).isArray = (s.isArray || mark) := by
  cases s; rfl

/-- Only the level itself is marked. -/
lemma paramAt_markArray (mark : Bool) (names : List String) (s : Shape) :
    (s.markArray mark).paramAt names = s.paramAt names := by
  cases names with
  | nil => exact param_markArray mark s
  | cons name names => rw [paramAt, paramAt, at?, at?, children_markArray]

/-- **A description stands at the end of its path.** -/
lemma paramAt_insert : ∀ (path : List PropertyStep) (names : List String) (shape : Shape),
    (shape.insert path p).paramAt names =
      if names = stepNames path then some p else shape.paramAt names := by
  intro path
  induction path with
  | nil =>
    rintro (_ | ⟨name, names⟩) ⟨param, isArray, children⟩
    · rfl
    · rfl
  | cons step path ih =>
    intro names shape
    cases names with
    | nil =>
      obtain ⟨param, isArray, children⟩ := shape
      rfl
    | cons name names =>
      have hsame : name :: names = stepNames (step :: path) ↔
          name = step.name ∧ names = stepNames path := cons_eq_cons
      rw [paramAt_cons, levelBelow_insert, paramAt_cons]
      by_cases hname : name = step.name
      · rw [if_pos hname, ih, paramAt_markArray, hname]
        exact if_congr ⟨fun h => hname ▸ hsame.mpr ⟨hname, h⟩, fun h => (List.cons.inj h).2⟩ rfl rfl
      · rw [if_neg hname, if_neg fun h => hname (hsame.mp h).1]

lemma not_marksArray_nil (steps : List PropertyStep) : ¬ MarksArray [] steps := by
  simp [MarksArray]

lemma marksArray_cons (step : PropertyStep) (path : List PropertyStep) (name : String)
    (names : List String) : MarksArray (name :: names) (step :: path) ↔
      name = step.name ∧ (names = [] ∧ step.isArray = true ∨ MarksArray names path) := by
  cases names with
  | nil => simp [MarksArray, stepNames, cons_prefix_cons]
  | cons next names =>
    cases path with
    | nil => simp [MarksArray, stepNames, cons_prefix_cons]
    | cons second path => simp [MarksArray, stepNames, cons_prefix_cons, and_assoc]

/-- **A description marks the levels where it writes the elements of an array.** -/
lemma arrayAt_insert : ∀ (path : List PropertyStep) (names : List String) (shape : Shape),
    (shape.insert path p).arrayAt names = true ↔
      shape.arrayAt names = true ∨ MarksArray names path := by
  intro path
  induction path with
  | nil =>
    rintro (_ | ⟨name, names⟩) ⟨param, isArray, children⟩
    · simp [insert, withParam, arrayAt, at?, Shape.isArray, not_marksArray_nil]
    · simp [insert, withParam, arrayAt, at?, Shape.children, MarksArray, stepNames]
  | cons step path ih =>
    intro names shape
    cases names with
    | nil =>
      obtain ⟨param, isArray, children⟩ := shape
      simp [insert, arrayAt, at?, Shape.isArray, not_marksArray_nil]
    | cons name names =>
      rw [arrayAt_cons, levelBelow_insert, arrayAt_cons, marksArray_cons]
      by_cases hname : name = step.name
      · rw [if_pos hname, ih, hname]
        cases names with
        | nil => simp [not_marksArray_nil, arrayAt, at?, isArray_markArray]
        | cons next names => simp [arrayAt, at?, children_markArray]
      · simp [hname]

lemma describe_append (shape : Shape) (front back : List Parameter) :
    shape.describe (front ++ back) = (shape.describe front).describe back := by
  simp [describe]

/-- The last description is added to what the others make. -/
lemma describe_concat (params : List Parameter) (p : Parameter) :
    empty.describe (params ++ [p]) = (empty.describe params).insert p.propertyPath p := by
  rw [describe_append, describe_cons]
  rfl

/-- **The names of a level** are those with which descriptions go on, in their order. -/
lemma keysAt_describe (params : List Parameter) (names : List String) :
    (empty.describe params).keysAt names = namesAfter params names := by
  induction params using reverseRecOn with
  | nil =>
    have hnone := propertiesAt_empty names
    simp [describe, keysAt, hnone, namesAfter]
  | append_singleton params p ih =>
    rw [describe_concat, keysAt_insert, ih, ← Parameter.propertyNames]
    simp only [namesAfter, filterMap_append]
    cases hnext : nameAfter names p.propertyNames with
    | none => simp [withKey, hnext]
    | some name =>
      simp only [filterMap_cons, hnext, filterMap_nil, eraseDups_concat, withKey, mem_eraseDups]

lemma paramAt_describe (params : List Parameter) (h : names ≠ []) :
    (empty.describe params).paramAt names = lastAt params names := by
  induction params using reverseRecOn with
  | nil => simp [describe, paramAt, at?_empty h, lastAt]
  | append_singleton params p ih =>
    rw [describe_concat, paramAt_insert, ih, lastAt, lastAt, reverse_append,
      reverse_singleton, singleton_append, find?_cons, ← Parameter.propertyNames]
    by_cases hsame : p.propertyNames = names
    · simp [hsame]
    · simp [beq_false_of_ne hsame, Ne.symm hsame]

lemma arrayAt_describe (params : List Parameter) (h : names ≠ []) :
    (empty.describe params).arrayAt names = true ↔
      ∃ p ∈ params, MarksArray names p.propertyPath := by
  induction params using reverseRecOn with
  | nil => simp [describe, arrayAt, at?_empty h]
  | append_singleton params p ih =>
    rw [describe_concat, arrayAt_insert, ih]
    simp [or_and_right, exists_or]

lemma at?_append (names : List String) (name : String) : ∀ shape : Shape,
    shape.at? (names ++ [name]) = (shape.at? names).bind fun s => s.children.lookup name := by
  induction names with
  | nil =>
    intro shape
    rw [nil_append, at?, at?, Option.bind_some]
    cases shape.children.lookup name <;> rfl
  | cons first names ih =>
    intro shape
    rw [cons_append, at?, at?, Option.bind_assoc]
    cases shape.children.lookup first with
    | none => rfl
    | some s => exact ih s

/-- A property of a level is the level at the longer path. -/
lemma at?_of_mem {s : Shape} (hnd : (shape.keysAt names).Nodup)
    (h : (name, s) ∈ shape.propertiesAt names) : shape.at? (names ++ [name]) = some s := by
  rw [at?_append]
  rw [keysAt] at hnd
  have hlookup := lookup_eq_some_of_nodup hnd h
  rw [propertiesAt] at hlookup
  cases hat : shape.at? names with
  | none => simp [hat] at hlookup
  | some level => simpa [hat] using hlookup

lemma name_fields (l : List (String × Shape)) :
    (fields l).map RecordField.name = l.map Prod.fst := by
  rw [fields_eq, map_map]
  rfl

lemma holdsArray_iff (shape : Shape) : shape.holdsArray = true ↔
    shape.isArray = true ∨ ∃ p t, shape.param = some p ∧ p.type = .array t := by
  rw [holdsArray, Bool.or_eq_true]
  refine or_congr Iff.rfl ?_
  cases shape.param with
  | none => simp
  | some p => cases hp : p.type <;> simp [hp]

end Shape

/-- The property at a path is an array: a description writes it so, or its last description has an
array as its type. -/
def HoldsElements (params : List Parameter) (path : List String) : Prop :=
  (∃ p ∈ params, MarksArray path p.propertyPath) ∨
    ∃ p t, lastAt params path = some p ∧ p.type = .array t

/-- A field of the record at a path is as the descriptions say. `records` are the fields of the
records at all paths. -/
structure DescribedField (params : List Parameter)
    (records : List String → List (RecordField TypeNode))
    (path : List String) (f : RecordField TypeNode) : Prop where
  optional : f.optional = (lastAt params path).any Parameter.optional
  description : f.description = (lastAt params path).bind Parameter.description
  type : ∃ base : TypeNode,
    f.type = (if (lastAt params path).any Parameter.nullable then .unionOf [base, .null]
      else base) ∧
    -- where no description goes on, the type is the described one, else the record of those that do
    ((∀ p ∈ params, ¬ p.GoesOn path) → ∃ p, lastAt params path = some p ∧ base = p.type) ∧
    ((∃ p ∈ params, p.GoesOn path) →
      (HoldsElements params path → base = .array (.record (records path))) ∧
      (¬ HoldsElements params path → base = .record (records path)))

/-- The fields of the records at all paths are those of the trie of the descriptions. -/
structure IsTrie (params : List Parameter) (records : List String → List (RecordField TypeNode)) :
    Prop where
  /-- A field exists where a description goes through. -/
  exists_iff : ∀ path name, (∃ f ∈ records path, f.name = name) ↔
    ∃ p ∈ params, path ++ [name] <+: p.propertyNames
  distinct : ∀ path, ((records path).map RecordField.name).Nodup
  /-- Fields stand in the order in which the descriptions first name them. -/
  order : ∀ path, (records path).map RecordField.name = namesAfter params path
  field : ∀ path, ∀ f ∈ records path, DescribedField params records (path ++ [f.name]) f

/-- The fields of the record that descriptions make at a path. -/
def recordAt (params : List Parameter) (path : List String) : List (RecordField TypeNode) :=
  fields ((empty.describe params).propertiesAt path)

lemma name_recordAt (params : List Parameter) (path : List String) :
    (recordAt params path).map RecordField.name = namesAfter params path := by
  rw [recordAt, name_fields, ← keysAt_describe, keysAt]

/-- A field is made by the level at its path. -/
lemma mem_recordAt {path : List String} {f : RecordField TypeNode} (hf : f ∈ recordAt params path) :
    ∃ s : Shape, f = s.field f.name ∧ (empty.describe params).at? (path ++ [f.name]) = some s := by
  rw [recordAt, fields_eq] at hf
  obtain ⟨e, he, rfl⟩ := mem_map.mp hf
  have hnd : ((empty.describe params).keysAt path).Nodup := by
    rw [keysAt_describe]
    exact nodup_eraseDups _
  exact ⟨e.2, rfl, at?_of_mem hnd he⟩

/-- **A field is as the descriptions say.** -/
lemma describedField_recordAt {path : List String} {f : RecordField TypeNode}
    (hf : f ∈ recordAt params path) :
    DescribedField params (recordAt params) (path ++ [f.name]) f := by
  obtain ⟨s, hfield, hat⟩ := mem_recordAt hf
  have hne : path ++ [f.name] ≠ [] := by simp
  -- what the level knows, said by the descriptions
  have hparam : s.param = lastAt params (path ++ [f.name]) := by
    rw [← paramAt_describe params hne, paramAt, hat, Option.bind_some]
  have harray : s.isArray = true ↔ ∃ p ∈ params, MarksArray (path ++ [f.name]) p.propertyPath := by
    rw [← arrayAt_describe params hne, arrayAt, hat, Option.any_some]
  have hrecord : fields s.children = recordAt params (path ++ [f.name]) := by
    rw [recordAt, propertiesAt, hat]
    rfl
  have hends : recordAt params (path ++ [f.name]) = [] ↔
      ∀ p ∈ params, ¬ p.GoesOn (path ++ [f.name]) := by
    rw [← namesAfter_eq_nil, ← name_recordAt, map_eq_nil_iff]
  have hholds : (node s.param s.isArray []).holdsArray = true ↔
      HoldsElements params (path ++ [f.name]) := by
    rw [holdsArray_iff, HoldsElements, ← harray, ← hparam]
    rfl
  rw [field, hrecord] at hfield
  refine ⟨?_, ?_, ?_⟩
  · rw [← hparam]
    exact congrArg RecordField.optional hfield
  · rw [← hparam]
    exact congrArg RecordField.description hfield
  · refine ⟨_, by rw [← hparam]; exact congrArg RecordField.type hfield, ?_, ?_⟩
    · intro hlast
      obtain ⟨p, hp⟩ := exists_lastAt (mem_namesAfter.mp (name_recordAt params path ▸
        mem_map_of_mem hf)) hlast
      refine ⟨p, hp, ?_⟩
      simp [hends.mpr hlast, hparam, hp]
    · rintro ⟨p, hp, hon⟩
      have hmore : (recordAt params (path ++ [f.name])).isEmpty = false := by
        rw [isEmpty_eq_false_iff, Ne, hends]
        exact fun hlast => hlast p hp hon
      simp only [hmore, Bool.false_eq_true, if_false]
      exact ⟨fun h => if_pos (hholds.mpr h), fun h => if_neg (mt hholds.mp h)⟩

/-- The record of described properties is the trie of their paths. -/
theorem recordOfProperties_trie (params : List Parameter) : ∃ records,
    recordOfProperties params = .record (records []) ∧ IsTrie params records := by
  refine ⟨recordAt params, rfl, ?_, ?_, name_recordAt params, ?_⟩
  · intro path name
    rw [← mem_namesAfter, ← name_recordAt, mem_map]
  · intro path
    rw [name_recordAt]
    exact nodup_eraseDups _
  · exact fun path f hf => describedField_recordAt hf

end AmbientDecl

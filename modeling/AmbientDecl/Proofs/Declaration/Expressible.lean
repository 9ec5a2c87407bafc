import AmbientDecl.Proofs.Declaration.Parameter
import AmbientDecl.Proofs.Declaration.Rescoping
import AmbientDecl.Proofs.TypeExpr.Lexeme

/-!
# Types that are printed in full

A declaration can say less than a comment, so most types lose something when they are printed. Those
that do not are called expressible here, and their text is written down part by part.

**Parameters.** Parameters that a declaration allows as they are (`Declarable`) keep their names and
forms, so each is an item of a name with marks and a type (`FunctionParam.item`, `paramsText_eq`).

**Types.** `TypeNode.Expressible` lists the forms. `TypeNode.chars` is the text of a type, and
`TypeNode.headChars` its text where brackets or a bar may follow. There is one equation for every
form.
-/

namespace AmbientDecl

open Text TypeExpr List

variable {name : String} {params : List (FunctionParam TypeNode)}

/-- Parameters that can be declared as they are: their names can, none that can be left out comes
before a required one, and only the last may take the rest of the arguments. -/
structure Declarable (params : List (FunctionParam TypeNode)) : Prop where
  named : ∀ p ∈ params, ∃ name, p.name = some name ∧ isIdentifierChars name.toList = true ∧
    name ∉ reservedWords
  distinct : (params.map FunctionParam.name).Nodup
  requiredFirst : params.Pairwise fun p later => p.optional = true → later.isRequired = false
  restLast : ∀ p ∈ params.dropLast, p.variadic = false
  restGiven : ∀ p ∈ params, p.variadic = true → p.optional = false

lemma toIdentifier_of_isIdentifierChars (h : isIdentifierChars name.toList = true) :
    toIdentifier name = name := by
  have hchars := identChar_of_isIdentifierChars h
  cases hname : name.toList with
  | nil => simp [isIdentifierChars, hname] at h
  | cons first rest =>
    rw [hname] at h hchars
    have hstart : isIdentStart first = true := by
      simp only [isIdentifierChars, Bool.and_eq_true] at h
      exact h.1
    have hquote : ¬ (first = '"' ∨ first = '\'') := by
      rintro (rfl | rfl)
      · revert hstart
        decide
      · revert hstart
        decide
    have hunquoted : unquoteChars (first :: rest) = first :: rest := by
      unfold unquoteChars
      split
      · rename_i c d ds heq
        obtain ⟨rfl, rfl⟩ := List.cons.inj heq
        rw [if_neg (fun hquoted => hquote hquoted.1)]
      · rfl
    have hclean : identifierChars (first :: rest) = first :: rest := by
      have hkept : ∀ c ∈ first :: rest, (if isIdentRest c then c else '_') = c := fun c hc =>
        if_pos (hchars c hc)
      rw [identifierChars, map_congr_left hkept, map_id']
    rw [toIdentifier, hname, hunquoted, hclean, needsUnderscore,
      not_isDigitLike_of_isIdentStart hstart, if_neg (by simp), ← hname, String.ofList_toList]

/-- A parameter keeps its name if that is free. -/
lemma paramName_of_free (hname : isIdentifierChars name.toList = true)
    (hreserved : name ∉ reservedWords) {seen : List String} (hseen : name ∉ seen) (position : Nat) :
    paramName (some name) position seen = name := by
  have hne : name ≠ "" := by
    rintro rfl
    simp [isIdentifierChars] at hname
  have hbase : nonempty? (some name) = some name := by simp [nonempty?, hne]
  obtain ⟨n, hn, _, htaken⟩ := endsAt_paramName (some name) position seen
  simp only [paramBase, hbase, toIdentifier_of_isIdentifierChars hname] at hn htaken
  cases n with
  | zero => exact hn
  | succ n =>
    have hfirst := htaken 0 (Nat.succ_pos n)
    simp [numberedFrom, hreserved, hseen] at hfirst

/-- The form in which a parameter is declared if it can be. -/
def FunctionParam.form (p : FunctionParam TypeNode) : ParamForm :=
  if p.variadic then .rest else if p.optional then .optional else .required

lemma declaredFrom_of_declarable (h : Declarable params) {seen : List String}
    (hseen : ∀ p ∈ params, ∀ name ∈ p.name, name ∉ seen) (position : Nat) :
    declaredFrom position seen params = params.map fun p => ⟨p.name.getD "", p.form, p.type⟩ := by
  induction params generalizing seen position with
  | nil => rfl
  | cons p later ih =>
    obtain ⟨name, hname, hidentifier, hreserved⟩ := h.named p mem_cons_self
    have hfree : paramName p.name position seen = name := by
      rw [hname]
      exact paramName_of_free hidentifier hreserved (hseen p mem_cons_self name hname) position
    obtain ⟨hrequired, hordered⟩ := pairwise_cons.mp h.requiredFirst
    obtain ⟨hnew, hdistinct⟩ := nodup_cons.mp h.distinct
    have hform : paramForm p later = p.form := by
      unfold paramForm FunctionParam.form
      cases hvariadic : p.variadic with
      | true =>
        have hlast : later = [] := by
          by_contra hlater
          have hmem : p ∈ (p :: later).dropLast := by simp [dropLast_cons_of_ne_nil hlater]
          simp [h.restLast p hmem] at hvariadic
        simp [hlast]
      | false =>
        cases hoptional : p.optional with
        | true =>
          have hnone : later.any FunctionParam.isRequired = false := by
            rw [any_eq_false]
            intro q hq
            simp [hrequired q hq hoptional]
          simp [hnone]
        | false => rfl
    have hlater : Declarable later :=
      { named := fun q hq => h.named q (mem_cons_of_mem _ hq)
        distinct := hdistinct
        requiredFirst := hordered
        restLast := fun q hq => h.restLast q (by
          rw [dropLast_cons_of_ne_nil (ne_nil_of_mem (mem_of_mem_dropLast hq))]
          exact mem_cons_of_mem _ hq)
        restGiven := fun q hq => h.restGiven q (mem_cons_of_mem _ hq) }
    have hrest : ∀ q ∈ later, ∀ other ∈ q.name, other ∉ name :: seen := by
      intro q hq other hother hmem
      rcases mem_cons.mp hmem with rfl | hmem
      · exact hnew (mem_map.mpr ⟨q, hq, by rw [hname]; exact hother⟩)
      · exact hseen q (mem_cons_of_mem _ hq) other hother hmem
    rw [declaredFrom, hfree, hform, ih hlater hrest, map_cons, hname]
    rfl

/-- What stands before the colon of a parameter, and the type behind it. -/
def FunctionParam.item (p : FunctionParam TypeNode) : String × TypeNode :=
  let name := p.name.getD ""
  if p.variadic then ("..." ++ name, .array p.type)
  else if p.optional then (name ++ "?", p.type)
  else (name, p.type)

def itemText (scope : TypeScope) (item : String × TypeNode) : String :=
  item.1 ++ ": " ++ typeText scope item.2

/-- Parameters are printed as items. -/
lemma paramsText_eq (scope : TypeScope) (h : Declarable params) :
    paramsText (shownParams scope params) =
      joined ", " ((params.map FunctionParam.item).map (itemText scope)) := by
  rw [shownParams_eq, paramsText, declaredParams, declaredFrom_map,
    declaredFrom_of_declarable h (by simp), map_map, map_map, map_map]
  refine congrArg (joined ", ") (map_congr_left fun p hp => ?_)
  have hnode : (shownType scope p.type).node = p.type := by
    cases p.type <;> simp [shownType, ShownType.single]
  have htext : (shownType scope p.type).text = typeText scope p.type := rfl
  have harray : typeText scope (.array p.type) = arrayText p.type (typeText scope p.type) := by
    simp [typeText, shownType, ShownType.single]
  simp only [Function.comp_apply, DeclaredParam.text, FunctionParam.form,
    FunctionParam.item, itemText]
  cases p.variadic with
  | true => simp [hnode, harray, htext, String.append_assoc]
  | false => cases p.optional <;> simp [htext, String.append_assoc]

/-- The names that are printed as they are, whatever is declared. -/
def printableNames : List String := primitiveNames ++ standardKnownTypes

/-- The types that a declaration can express. -/
inductive TypeNode.Expressible : TypeNode → Prop
  | named {name : String} (known : name ∈ printableNames) : Expressible (.named name)
  | truth {text : String} (isTruth : text = "true" ∨ text = "false") : Expressible (.literal text)
  | string {text : String} (token : string? text.toList = some (text.toList, [])) :
      Expressible (.literal text)
  | number {text : String} (token : number? text.toList = some (text.toList, [])) :
      Expressible (.literal text)
  | array {element : TypeNode} (expressible : Expressible element) : Expressible (.array element)
  | union {members : List TypeNode} (several : 2 ≤ members.length)
      (flat : ∀ t ∈ members, ∀ inner, t ≠ .union inner)
        (expressible : ∀ t ∈ members, Expressible t) :
      Expressible (.union members)
  | generic {base : String} {args : List TypeNode} (known : base ∈ printableNames)
      (notObject : base ≠ "Object") (given : args ≠ []) (expressible : ∀ t ∈ args, Expressible t) :
      Expressible (.generic base args)
  | dictionary {key : String} {value : TypeNode} (isKey : key ∈ ["string", "number", "symbol"])
      (expressible : Expressible value) : Expressible (.generic "Object" [.named key, value])
  | record {fields : List (RecordField TypeNode)} (undescribed : ∀ f ∈ fields, f.description = none)
      (expressible : ∀ f ∈ fields, Expressible f.type) : Expressible (.record fields)
  | function {params : List (FunctionParam TypeNode)}
      {returns thisType constructs : Option TypeNode}
      (declarable : Declarable params) (one : returns.isSome ≠ constructs.isSome)
      (expressible : ∀ p ∈ params, Expressible p.type) (result : ∀ t ∈ returns, Expressible t)
      (self : ∀ t ∈ thisType, Expressible t) (made : ∀ t ∈ constructs, Expressible t) :
      Expressible (.function params returns thisType constructs)

/-- A scope that has answers for the names that are printed as they are. -/
def TypeScope.Plain (scope : TypeScope) : Prop :=
  ∀ name ∈ printableNames, scope.resolve name = some name

/-- The element type of an array of arrays, however deep; any other type itself. -/
def TypeNode.core : TypeNode → TypeNode
  | .array element => element.core
  | t => t

/-- How deep arrays are nested. -/
def TypeNode.rank : TypeNode → Nat
  | .array element => element.rank + 1
  | _ => 0

def TypeNode.chars (scope : TypeScope) (t : TypeNode) : List Char := (typeText scope t).toList

/-- The text of a type where brackets or a bar may follow. -/
def TypeNode.headChars (scope : TypeScope) (t : TypeNode) : List Char :=
  match t with
  | .function .. | .union _ => '(' :: t.chars scope ++ [')']
  | t => t.chars scope

def brackets : Nat → List Char
  | 0 => []
  | n + 1 => '[' :: ']' :: brackets n

lemma brackets_succ (n : Nat) : brackets (n + 1) = brackets n ++ ['[', ']'] := by
  induction n with
  | zero => rfl
  | succ n ih =>
    show '[' :: ']' :: brackets (n + 1) = '[' :: ']' :: (brackets n ++ ['[', ']'])
    rw [ih]

def fieldChars (scope : TypeScope) (f : RecordField TypeNode) : List Char :=
  (label f.name).toList ++ ((if f.optional then ['?'] else []) ++ ':' :: ' ' :: f.type.chars scope)

/-- The type of `this` and the parameters as items. -/
def signatureItems (params : List (FunctionParam TypeNode)) (thisType : Option TypeNode) :
    List (String × TypeNode) :=
  (thisType.map fun t => ("this", t)).toList ++ params.map FunctionParam.item

def itemChars (scope : TypeScope) (item : String × TypeNode) : List Char :=
  item.1.toList ++ ':' :: ' ' :: item.2.chars scope

namespace TypeNode

variable {scope : TypeScope}

lemma chars_named (h : scope.Plain) (known : name ∈ printableNames) :
    (named name).chars scope = name.toList := by
  simp [chars, typeText, shownType, ShownType.single, TypeScope.nameText, h name known]

lemma chars_literal (text : String) : (literal text).chars scope = text.toList := by
  simp [chars, typeText, shownType, ShownType.single]

lemma chars_array (element : TypeNode) :
    (array element).chars scope = element.headChars scope ++ ['[', ']'] := by
  rw [chars, typeText, shownType]
  cases element <;> simp [ShownType.single, arrayText, parenthesized, headChars, chars, typeText]

/-- The brackets of arrays stand behind what is no array. -/
lemma headChars_eq (t : TypeNode) :
    t.headChars scope = t.core.headChars scope ++ brackets t.rank := by
  induction t using TypeNode.core.induct with
  | case1 element ih =>
    rw [core, rank, brackets_succ, ← append_assoc, ← ih]
    exact chars_array element
  | case2 t hne =>
    rw [core, rank, brackets, append_nil]
    · exact hne
    · exact hne

lemma chars_union {members : List TypeNode} (flat : ∀ t ∈ members, ∀ inner, t ≠ .union inner) :
    (union members).chars scope = " | ".toList.intercalate (members.map (headChars scope)) := by
  rw [chars, typeText_union, joined, String.toList_intercalate, map_map]
  refine congrArg _ (map_congr_left fun t ht => ?_)
  cases t with
  | union inner => exact absurd rfl (flat _ ht inner)
  | _ => simp [alternativeText, parenthesized, headChars, chars]

lemma chars_generic (h : scope.Plain) {base : String} (known : base ∈ printableNames)
    (notObject : base ≠ "Object") (args : List TypeNode) : (generic base args).chars scope =
      base.toList ++ '<' :: (", ".toList.intercalate (args.map (chars scope)) ++ ['>']) := by
  have happlied : ∀ texts, appliedText scope base texts = base ++ argumentsText texts := by
    intro texts
    unfold appliedText
    split <;> simp [notObject, genericText, h base known]
  rw [chars, typeText, shownType, shownTexts_eq, ShownType.single, happlied]
  simp only [argumentsText, joined, String.toList_append, String.toList_intercalate, map_map,
    append_assoc]
  rfl

lemma chars_dictionary (h : scope.Plain) {key : String}
    (isKey : key ∈ ["string", "number", "symbol"])
    (value : TypeNode) : (generic "Object" [.named key, value]).chars scope =
      "\x7b [key: ".toList ++ (key.toList ++
        ("]: ".toList ++ (value.chars scope ++ " \x7d".toList))) := by
  have hkey : typeText scope (.named key) = key := by
    have known : key ∈ printableNames := by
      simp only [mem_cons, not_mem_nil, or_false] at isKey
      rcases isKey with rfl | rfl | rfl <;> decide
    exact String.toList_injective (chars_named h known)
  have hkind : (key == "string" || key == "number" || key == "symbol") = true := by
    simpa [or_assoc] using isKey
  rw [chars, typeText, shownType, shownTexts_eq, ShownType.single]
  simp [appliedText, dictionaryText, hkey, hkind, chars]

lemma chars_record_nil : (record []).chars scope = "\x7b\x7d".toList := by
  simp [chars, typeText, shownType, shownFields, recordText, ShownType.single]

lemma chars_record {fields : List (RecordField TypeNode)} (hne : fields ≠ []) :
    (record fields).chars scope =
      "\x7b ".toList ++ ("; ".toList.intercalate (fields.map (fieldChars scope)) ++
        " \x7d".toList) := by
  have hfield : ∀ f : RecordField TypeNode,
      (fieldText ⟨f.name, typeText scope f.type, f.optional, f.description⟩).toList =
          fieldChars scope f := by
    intro f
    cases hoptional : f.optional <;> simp [fieldText, fieldChars, chars, hoptional]
  rw [chars, typeText, shownType, shownFields_eq, ShownType.single, recordText]
  simp only [isEmpty_map, List.isEmpty_iff, hne, if_false, joined, String.toList_append,
    String.toList_intercalate, map_map, append_assoc]
  congr 3
  exact map_congr_left fun f _ => hfield f

/-- What stands between the parentheses of a function. -/
lemma functionText_eq (h : Declarable params) (returns thisType constructs : Option TypeNode) :
    (function params returns thisType constructs).chars scope =
      (functionText (joined ", " ((signatureItems params thisType).map (itemText scope)))
        (returns.map (typeText scope)) none (constructs.map (typeText scope))).toList := by
  rw [chars, typeText, shownType, ShownType.single, paramsText_eq scope h]
  simp only [shownOption_eq]
  cases thisType with
  | none => simp [signatureItems]
  | some self =>
    have hempty : (joined ", " ((params.map FunctionParam.item).map (itemText scope))).isEmpty =
        params.isEmpty := by
      rw [← paramsText_eq scope h, isEmpty_paramsText, shownParams_eq, isEmpty_map]
    have hitems : (signatureItems params (some self)).map (itemText scope) =
        ("this: " ++ typeText scope self) :: (params.map FunctionParam.item).map (itemText scope) :=
          rfl
    simp only [functionText, hitems, Option.map_some, hempty]
    cases params with
    | nil => rfl
    | cons p later =>
      simp only [map_cons, joined, String.intercalate_cons_cons, isEmpty_cons,
        Bool.false_eq_true, if_false]

lemma toList_joined_items (items : List (String × TypeNode)) :
    (joined ", " (items.map (itemText scope))).toList =
      ", ".toList.intercalate (items.map (itemChars scope)) := by
  rw [joined, String.toList_intercalate, map_map]
  refine congrArg _ (map_congr_left fun item _ => ?_)
  simp [itemText, itemChars, chars]

/-- A function is printed as its items and the type that it gives. -/
lemma chars_function (h : Declarable params) (thisType : Option TypeNode) (result : TypeNode) :
    (function params (some result) thisType none).chars scope =
        '(' :: (", ".toList.intercalate ((signatureItems params thisType).map (itemChars scope)) ++
          (") => ".toList ++ result.chars scope)) ∧
      (function params none thisType (some result)).chars scope =
        "new (".toList ++ (", ".toList.intercalate
          ((signatureItems params thisType).map (itemChars scope)) ++
          (") => ".toList ++ result.chars scope)) := by
  rw [functionText_eq h, functionText_eq h]
  simp [functionText, toList_joined_items, chars]

end TypeNode

end AmbientDecl

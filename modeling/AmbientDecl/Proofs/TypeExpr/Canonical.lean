import AmbientDecl.Proofs.Run
import AmbientDecl.Proofs.TypeExpr.Composition
import AmbientDecl.Symbol.OfDoclet

/-!
# Canonical types

Reading an expression always ends with a type. Either the expression is kept as it was written and
reported once, or nothing is reported and the type is canonical at every depth.

**Canonical types.** `TypeNode.Canonical` says which of several spellings of a type is used, one
condition for each kind of type. There is no case for an expression that could not be read.

**Construction.** The functions that build types keep them canonical (`TypeNode.canonical_unionOf`,
`TypeNode.canonical_ofName`, `TypeNode.canonical_applied`), so every type that is read is canonical
(`TypeExpr.closed_canonical`).

**Small stacks.** Two equal arrays of arrays are compared down to their elements, so for every stack
there is a text that exhausts it (`TypeExpr.ofTextOn_twins`).
-/

namespace AmbientDecl

open Text List TypeNode

namespace TypeNode

variable {t : TypeNode} {l : List TypeNode} {name : String}

/-- A type in its one spelling, at every depth. -/
inductive Canonical : TypeNode → Prop
  /-- No other spelling of a name, no array without an element type and no truth value. -/
  | named {name : String} (notSpelling : spellings.lookup name = none)
      (notArray : name ≠ "Array" ∧ name ≠ "array") (notTruth : name ≠ "true" ∧ name ≠ "false") :
      Canonical (.named name)
  /-- Two or more alternatives that differ and are no unions. -/
  | union {members : List TypeNode} (several : 2 ≤ members.length) (distinct : members.Nodup)
      (notUnions : ∀ t ∈ members, ∀ parts, t ≠ .union parts)
      (canonical : ∀ t ∈ members, Canonical t) : Canonical (.union members)
  | array {element : TypeNode} (canonical : Canonical element) : Canonical (.array element)
  /-- An object has a key type and a value type; what has one argument is no array. -/
  | generic {base : String} {args : List TypeNode} (notSpelling : spellings.lookup base = none)
      (object : base = "Object" → args.length = 2) (notObject : base ≠ "object")
      (notArray : base = "Array" ∨ base = "array" → args.length ≠ 1)
      (canonical : ∀ t ∈ args, Canonical t) : Canonical (.generic base args)
  | function {params : List (FunctionParam TypeNode)}
      {returns thisType constructs : Option TypeNode}
      (params_canonical : ∀ p ∈ params, Canonical p.type)
      (returns_canonical : ∀ t ∈ returns, Canonical t)
      (this_canonical : ∀ t ∈ thisType, Canonical t)
      (constructs_canonical : ∀ t ∈ constructs, Canonical t) :
      Canonical (.function params returns thisType constructs)
  | record {fields : List (RecordField TypeNode)} (canonical : ∀ f ∈ fields, Canonical f.type) :
      Canonical (.record fields)
  | literal (text : String) : Canonical (.literal text)

/-- A name is replaced by one that stands in the table, or it is no other spelling of a name. -/
lemma canonicalName_cases (name : String) :
    canonicalName name ∈ spellings.map Prod.snd ∨
      spellings.lookup name = none ∧ canonicalName name = name := by
  cases h : spellings.lookup name with
  | none => exact .inr ⟨rfl, by simp [canonicalName, h]⟩
  | some canonical =>
    obtain ⟨front, back, htable, _⟩ := lookup_eq_some_iff.mp h
    left
    rw [canonicalName, h, htable]
    simp

/-- Names are replaced once. -/
lemma lookup_canonicalName (name : String) : spellings.lookup (canonicalName name) = none := by
  have htable : ∀ canonical ∈ spellings.map Prod.snd, spellings.lookup canonical = none := by decide
  rcases canonicalName_cases name with h | ⟨hnone, hsame⟩
  · exact htable _ h
  · rw [hsame, hnone]

/-- A word that the table does not use only stands for itself. -/
lemma canonicalName_ne {word : String} (hword : word ∉ spellings.map Prod.snd) (h : name ≠ word) :
    canonicalName name ≠ word := by
  rintro rfl
  rcases canonicalName_cases name with hmem | ⟨_, hsame⟩
  · exact hword hmem
  · exact h hsame.symm

lemma canonical_any : any.Canonical :=
  .named rfl (by decide) (by decide)

lemma canonical_ofName (h : name ≠ "true" ∧ name ≠ "false") : (ofName name).Canonical := by
  unfold ofName
  dsimp only
  split
  · exact .array canonical_any
  · rename_i harray
    refine .named (lookup_canonicalName name) (by simpa [isArrayName] using harray) ⟨?_, ?_⟩
    · exact canonicalName_ne (by decide) h.1
    · exact canonicalName_ne (by decide) h.2

lemma canonical_object {key value : TypeNode} (hkey : key.Canonical) (hvalue : value.Canonical) :
    (generic "Object" [key, value]).Canonical :=
  .generic rfl (fun _ => rfl) (by decide) (by simp) (by simpa using ⟨hkey, hvalue⟩)

/-- An application is canonical if its arguments are; of an object only the first two count. -/
lemma canonical_applied {first : TypeNode} {others : List TypeNode} (hfirst : first.Canonical)
    (hothers : ∀ t ∈ others, t.Canonical) : (applied name first others).Canonical := by
  unfold applied
  dsimp only
  split
  · exact .array hfirst
  · rename_i harray
    split
    · cases others with
      | nil => exact canonical_object (.named rfl (by decide) (by decide)) hfirst
      | cons second _ => exact canonical_object hfirst (hothers second mem_cons_self)
    · rename_i hobject
      simp only [isObjectName, Bool.or_eq_true, beq_iff_eq, not_or] at hobject
      refine .generic (lookup_canonicalName name) (fun h => absurd h hobject.1) hobject.2 ?_
        (forall_mem_cons.mpr ⟨hfirst, hothers⟩)
      intro h hone
      simp_all [isArrayName]

lemma Canonical.alternatives_ne_nil (h : t.Canonical) : t.alternatives ≠ [] := by
  cases h with
  | @union members several => rintro rfl; simp at several
  | _ => simp [alternatives]

/-- The alternatives of a canonical type are canonical and no unions. -/
lemma Canonical.of_mem_alternatives (h : t.Canonical) {a : TypeNode} (ha : a ∈ t.alternatives) :
    a.Canonical ∧ ∀ parts, a ≠ .union parts := by
  cases t with
  | union members =>
    cases h with
    | union _ _ notUnions canonical => exact ⟨canonical a ha, notUnions a ha⟩
  | _ =>
    obtain rfl := mem_singleton.mp ha
    exact ⟨h, by simp⟩

/-- **A union of canonical types is canonical.** -/
lemma canonical_unionOf (hne : l ≠ []) (h : ∀ t ∈ l, t.Canonical) : (unionOf l).Canonical := by
  have hpart : ∀ a ∈ (l.flatMap alternatives).eraseDups, a.Canonical ∧
      ∀ parts, a ≠ .union parts := by
    intro a ha
    obtain ⟨t, ht, hat⟩ := mem_flatMap.mp (mem_eraseDups.mp ha)
    exact (h t ht).of_mem_alternatives hat
  have hnonempty : (l.flatMap alternatives).eraseDups ≠ [] := by
    obtain ⟨t, rest, rfl⟩ := exists_cons_of_ne_nil hne
    obtain ⟨a, as, ha⟩ := exists_cons_of_ne_nil (h t mem_cons_self).alternatives_ne_nil
    simp [ha, eraseDups_cons]
  unfold unionOf
  split
  · rename_i a ha
    exact (hpart a (ha ▸ mem_singleton_self a)).1
  · rename_i hmany
    refine .union ?_ (nodup_eraseDups _) (fun a ha => (hpart a ha).2) fun a ha => (hpart a ha).1
    match hmembers : (l.flatMap alternatives).eraseDups with
    | [] => exact absurd hmembers hnonempty
    | [a] => exact absurd hmembers (hmany a)
    | a :: b :: rest => simp

end TypeNode

namespace TypeExpr

/-- The functions that build types keep them canonical. -/
lemma closed_canonical : Closed (fun _ => True) TypeNode.Canonical where
  any := canonical_any
  null := .named rfl (by decide) (by decide)
  literal := .literal
  name _ _ isName := canonical_ofName isName
  applied _ _ _ _ hfirst hothers := canonical_applied hfirst hothers
  array _ h := .array h
  union _ hne h := canonical_unionOf hne h
  record _ h := .record h
  function _ _ _ _ hparams hreturns hthis hconstructs :=
    .function hparams hreturns hthis hconstructs

/-- **What is read without a fault is canonical.** -/
lemma canonical_of_expression {ts : List Token} {e : TypeExpression} (h : expression ts = .ok e) :
    e.type.Canonical :=
  closed_canonical.expression h fun _ _ => trivial

end TypeExpr

lemma readTypeOf_eq (d : Doclet) (expression : Option String) : readTypeOf d expression =
    ⟨.task (.read (stripped (expression.getD ""))) ::
        ((readType expression).complaint.map fun message =>
          Entry.diagnostic (.about d .malformedType message)).toList,
      .ok (readType expression).expression⟩ := by
  simp only [readTypeOf]
  cases (readType expression).complaint <;> rfl

namespace TypeExpr

open Grammar

/-- Pairs of brackets. -/
def bracketText (pairs : Nat) : List Char := (List.replicate pairs ['[', ']']).flatten

/-- A type in so many pairs of brackets twice, and once without them. -/
def twins (pairs : Nat) : List Char :=
  '*' :: (bracketText pairs ++ '|' :: '*' :: bracketText pairs ++ ['|']) ++ ['*']

def twinTokens (pairs : Nat) : List Token :=
  .punct .star :: (bracketPairs pairs ++
    .punct .bar :: .punct .star :: (bracketPairs pairs ++ [.punct .bar, .punct .star]))

lemma tokens_bracketText {ts : List Token} {cs : List Char} (pairs : Nat)
    (htokens : tokens cs = .ok ts) :
    tokens (bracketText pairs ++ cs) = .ok (bracketPairs pairs ++ ts) := by
  induction pairs with
  | zero => exact htokens
  | succ n ih => exact tokens_mark (fun _ => rfl) (tokens_mark (fun _ => rfl) ih)

lemma tokens_twins (pairs : Nat) : tokens (twins pairs) = .ok (twinTokens pairs) := by
  have hlast : tokens ['|', '*'] = .ok [.punct .bar, .punct .star] := by decide +kernel
  have hsecond := tokens_bracketText pairs hlast
  have hbar := tokens_mark (c := '|') (fun _ => rfl) (tokens_mark (c := '*') (fun _ => rfl) hsecond)
  have hall := tokens_mark (c := '*') (fun _ => rfl) (tokens_bracketText pairs hbar)
  simpa [twins, twinTokens] using hall

lemma yields_starred (unite : List TypeNode → Except SyntaxError TypeNode) (pairs : Nat)
    {rest : List Token} (hrest : ¬ bracketPairs 1 <+: rest) :
    Yields (suffixed (primaryBy unite maxNesting) (.punct .star :: (bracketPairs pairs ++ rest)))
      (TypeNode.array^[pairs] .any) rest := by
  have hstar : Yields (term (primaryBy unite (maxNesting - 1))
    (.punct .star :: (bracketPairs pairs ++ rest)))
      .any (bracketPairs pairs ++ rest) := yields_term_star.mpr ⟨rfl, rfl⟩
  exact yields_suffixed.mpr ⟨.any, _, hstar, arrayMarks_bracketPairs _ _ hrest⟩

lemma comparing_arrays (pairs : Nat) :
    TypeNode.comparing (TypeNode.array^[pairs] .any) (TypeNode.array^[pairs] .any) = 3 * pairs := by
  induction pairs with
  | zero => simp [TypeNode.any, comparing]
  | succ n ih =>
    rw [Function.iterate_succ_apply', comparing, ih]
    omega

/-- **Equal types can be too deep to be compared.** -/
lemma ofTextOn_twins {calls pairs : Nat} (hdeep : calls < 3 * pairs) :
    ofTextOn calls (twins pairs) = .error .exhausted := by
  have hunite : uniteWithin calls [array^[pairs] .any, array^[pairs] .any, .any] =
      .error .exhausted := by
    have halone : (array^[pairs] .any).alternatives = [array^[pairs] .any] := by
      cases pairs with
      | zero => rfl
      | succ n => rw [Function.iterate_succ_apply']; rfl
    simp [uniteWithin, unitesWithin, collectsWithin, seeksWithin, halone,
      comparing_arrays, Nat.not_le.mpr hdeep]
  have hyields : Yields (alternatives (primaryBy (uniteWithin calls) maxNesting) (twinTokens pairs))
      [array^[pairs] .any, array^[pairs] .any, .any] [] := by
    have hbar : ∀ after, ¬ bracketPairs 1 <+: .punct .bar :: after := by simp [bracketPairs]
    have hnil : ¬ bracketPairs 1 <+: [] := by simp [bracketPairs]
    have hlast := yields_starred (uniteWithin calls) 0 hnil
    refine yields_alternatives.mpr (.inr ⟨_, _, yields_starred _ pairs (hbar _), _, ?_, rfl⟩)
    refine yields_alternatives.mpr (.inr ⟨_, _, yields_starred _ pairs (hbar _), _, ?_, rfl⟩)
    exact yields_alternatives.mpr (.inl ⟨_, hlast, by simp, rfl⟩)
  obtain ⟨members, hmembers, hvalue, -⟩ := hyields
  have hunion : union (primaryBy (uniteWithin calls) maxNesting) (twinTokens pairs) =
      .error .exhausted := by
    have hsame : (primaryBy (uniteWithin calls) maxNesting).unite = uniteWithin calls := rfl
    rw [union, hmembers]
    simp only [bind, Except.bind, hsame, hvalue, hunite]
  rw [ofTextOn, ofTextBy, tokens_twins]
  simp [expressionBy, markedType, twinTokens, accept, nullMarker, atTypeEnd, endsType] at hunion ⊢
  simp [hunion, bind, Except.bind]

end TypeExpr

/-- **No machine reads every expression**: two equal types can be too deep to be compared. -/
lemma on_readTypeOf_twins {c : Capacity} {pairs : Nat} (d : Doclet) (hdeep : c.calls < 3 * pairs) :
    let run := (readTypeOf d (some (String.ofList (TypeExpr.twins pairs)))).on c
    run.diagnostics = [] ∧ run.result = .error (.refused .comparisonTooDeep) := by
  have htrim : trim (TypeExpr.twins pairs) = TypeExpr.twins pairs := trim_of_ends rfl rfl
  have hrefused :
      (Entry.task (.read (stripped (String.ofList (TypeExpr.twins pairs))))).refusal? c =
        some .comparisonTooDeep := by
    simp [Entry.refusal?, Entry.tasks, Capacity.refusal?, stripped, htrim,
      TypeExpr.ofTextOn_twins hdeep]
  rw [readTypeOf_eq, Option.getD_some, Run.on_refused hrefused]
  exact ⟨rfl, rfl⟩

/-- The function `f` with its type in a thousand pairs of brackets twice, on the usual machine. -/
def deepReading : Run TypeExpression :=
  (readTypeOf (.bare "f" none (.callable [] [])) (some (String.ofList (TypeExpr.twins 1000)))).on
    .standard

end AmbientDecl

import AmbientDecl.Proofs.TypeExpr.Recognition

/-!
# What holds of every type that is read

A property of types holds of all that is read if the functions that build types keep it.

**Building types.** `Graded` lists them, for a property of types that may also depend on the tokens
of a phrase and on a grade, which grows with each step. `Closed` is the case without a grade, where
a property of tokens is all that there is to start from.

**Phrases.** A level of nesting makes the grade two larger (`Graded.term`), one for a union around a
type and one for the type itself, and a whole expression has one more union around it
(`Graded.expression`).
-/

namespace AmbientDecl.TypeExpr

open Grammar List

/-- A property that reading keeps, with the grade and the tokens of a type. -/
structure Graded (Q : Nat → List Token → TypeNode → Prop) : Prop where
  mono : ∀ {m n ps qs t}, m ≤ n → ps.Sublist qs → Q m ps t → Q n qs t
  any : Q 1 [] .any
  null : Q 1 [] .null
  literal : ∀ text, Q 1 [] (.literal text)
  name : ∀ name, name ≠ "true" ∧ name ≠ "false" → Q 2 [.name name] (.ofName name)
  applied : ∀ n ps name first others, Token.name name ∈ ps → (∀ t ∈ first :: others, Q n ps t) →
    Q (n + 1) ps (.applied name first others)
  arrays : ∀ n ps t pairs, Q n ps t → Q n (ps ++ bracketPairs pairs) (TypeNode.array^[pairs] t)
  union : ∀ n ps l, l ≠ [] → (∀ t ∈ l, Q n ps t) → Q (n + 1) ps (.unionOf l)
  record : ∀ n ps (fields : List (RecordField TypeNode)), (∀ f ∈ fields, Q n ps f.type) →
    Q (n + 1) ps (.record fields)
  function : ∀ n ps (params : List (FunctionParam TypeNode))
    (returns thisType constructs : Option TypeNode),
    (∀ p ∈ params, Q n ps p.type) → (∀ t ∈ returns, Q n ps t) → (∀ t ∈ thisType, Q n ps t) →
      (∀ t ∈ constructs, Q n ps t) → Q (n + 1) ps (.function params returns thisType constructs)

def FunctionItem.type : FunctionItem → TypeNode
  | .thisType t | .constructs t => t
  | .param p => p.type

/-- Each item of a list has a phrase of its own in the phrase of the list. -/
lemma exists_phrase_of_separated {α : Type} {mark : Punct} {L : Phrases α}
    {ps after : List Token} {as : List α}
    (h : Separated mark L ps after as) : ∀ a ∈ as, ∃ qs rest, qs.Sublist ps ∧ L qs rest a := by
  induction h with
  | single phrase =>
    intro a ha
    rw [mem_singleton.mp ha]
    exact ⟨_, _, Sublist.refl _, phrase⟩
  | cons phrase _ ih =>
    intro a ha
    rcases mem_cons.mp ha with rfl | ha
    · exact ⟨_, _, sublist_append_left _ _, phrase⟩
    · obtain ⟨us, rest, hus, hL⟩ := ih a ha
      exact ⟨us, rest, (hus.cons _).trans (sublist_append_right _ _), hL⟩

lemma exists_phrase_of_fields {P : Phrases TypeNode} {ps after : List Token}
    {fs : List (RecordField TypeNode)}
    (h : Fields P ps after fs) : ∀ f ∈ fs, ∃ qs rest, qs.Sublist ps ∧ Field P qs rest f := by
  induction h with
  | single field =>
    intro f hf
    rw [mem_singleton.mp hf]
    exact ⟨_, _, Sublist.refl _, field⟩
  | trailing _ field =>
    intro f hf
    rw [mem_singleton.mp hf]
    exact ⟨_, _, sublist_append_left _ _, field⟩
  | cons _ field _ ih =>
    intro f hf
    rcases mem_cons.mp hf with rfl | hf
    · exact ⟨_, _, sublist_append_left _ _, field⟩
    · obtain ⟨us, rest, hus, hfield⟩ := ih f hf
      exact ⟨us, rest, (hus.cons _).trans (sublist_append_right _ _), hfield⟩

/-- What holds of the types of all items holds of those that are picked. -/
lemma forall_mem_picked {α : Type} {R : TypeNode → Prop} {pick : FunctionItem → Option α}
    {g : α → TypeNode}
    {items : List FunctionItem} (hitems : ∀ item ∈ items, R item.type)
    (hpick : ∀ item, ∀ a ∈ pick item, item.type = g a) : ∀ a ∈ items.filterMap pick, R (g a) := by
  intro a ha
  obtain ⟨item, hitem, hpicked⟩ := mem_filterMap.mp ha
  rw [← hpick item a hpicked]
  exact hitems item hitem

namespace Graded

variable {Q : Nat → List Token → TypeNode → Prop} (hQ : Graded Q)

include hQ

lemma functionOf {n : Nat} {ps : List Token} {items : List FunctionItem} {returns : Option TypeNode}
    (hitems : ∀ item ∈ items, Q n ps item.type) (hreturns : ∀ t ∈ returns, Q n ps t) :
    Q (n + 1) ps (functionOf items returns) := by
  refine hQ.function _ _ _ _ _ _ (forall_mem_picked hitems ?_) hreturns
    (fun t ht => forall_mem_picked (g := id) hitems ?_ t (mem_of_getLast? ht))
    (fun t ht => forall_mem_picked (g := id) hitems ?_ t (mem_of_getLast? ht)) <;>
  · rintro (_ | _ | _) _ ⟨⟩
    rfl

lemma anything (n : Nat) (ps : List Token) : Q (n + 1) ps .any :=
  hQ.mono (Nat.le_add_left 1 n) (nil_sublist _) hQ.any

section Phrases

variable {P : Phrases TypeNode} {n : Nat} {ps qs after : List Token} {t : TypeNode}
  (hP : ∀ ⦃ps after t⦄, P ps after t → Q n ps t)

include hP

lemma suffixed (h : Postfix P qs after t) (hqs : qs.Sublist ps) : Q n ps t := by
  obtain ⟨pairs, head, _⟩ := h
  exact hQ.mono (Nat.le_refl _) hqs (hQ.arrays _ _ _ pairs (hP head))

lemma unionPhrase (h : Union P qs after t) (hqs : qs.Sublist ps) : Q (n + 1) ps t := by
  obtain ⟨list⟩ := h
  refine hQ.union _ _ _ (by cases list <;> simp) fun s hs => ?_
  obtain ⟨us, rest, hus, phrase⟩ := exists_phrase_of_separated list s hs
  exact hQ.suffixed hP phrase (hus.trans hqs)

lemma item {item : FunctionItem} (h : Item P qs after item) (hqs : qs.Sublist ps) :
    Q (n + 1) ps item.type := by
  cases h with
  | thisType type | constructs type =>
    exact hQ.unionPhrase hP type (((sublist_cons_self _ _).trans (sublist_cons_self _ _)).trans hqs)
  | param _ _ type =>
    cases type with
    | omitted => exact hQ.anything _ _
    | given type =>
      exact hQ.unionPhrase hP type
        (((sublist_append_right _ _).trans (sublist_append_left _ _)).trans hqs)

lemma items {items : List FunctionItem} (h : Items P qs after items) (hqs : qs.Sublist ps) :
    ∀ item ∈ items, Q (n + 1) ps item.type := by
  cases h with
  | none => simp
  | some list _ =>
    intro item hitem
    obtain ⟨us, rest, hus, phrase⟩ := exists_phrase_of_separated list item hitem
    exact hQ.item hP phrase (hus.trans hqs)

lemma fields {fields : List (RecordField TypeNode)} (h : Fields P qs after fields)
    (hqs : qs.Sublist ps) :
    ∀ f ∈ fields, Q (n + 1) ps f.type := by
  intro f hf
  obtain ⟨us, rest, hus, field⟩ := exists_phrase_of_fields h f hf
  cases field with
  | untyped => exact hQ.anything _ _
  | typed _ type =>
    exact hQ.unionPhrase hP type ((((sublist_cons_self _ _).trans (sublist_append_right _ _)).trans
      (sublist_append_left _ _)).trans (hus.trans hqs))

/-- **A level of nesting makes the grade two larger.** -/
lemma term (h : Term P ps after t) : Q (n + 2) ps t := by
  have hatom : ∀ {t}, Q 1 [] t → Q (n + 2) ps t :=
    hQ.mono (Nat.le_add_left 1 (n + 1)) (nil_sublist _)
  have hmore : ∀ {m t}, m ≤ n + 2 → Q m ps t → Q (n + 2) ps t := fun hm => hQ.mono hm (.refl _)
  cases h with
  | parenthesized type =>
    exact hmore (by omega) (hQ.unionPhrase hP type ((sublist_append_left _ _).cons _))
  | emptyRecord => exact hatom (hQ.record 0 [] [] (by simp))
  | record list => exact hQ.record _ _ _ (hQ.fields hP list ((sublist_append_left _ _).cons _))
  | star | unknown => exact hatom hQ.any
  | nullable type =>
    refine hQ.union _ _ _ (by simp) (forall_mem_cons.mpr ⟨?_, forall_mem_singleton.mpr ?_⟩)
    · exact hQ.mono (Nat.le_succ n) (.refl _) (hQ.suffixed hP type (sublist_cons_self _ _))
    · exact hQ.mono (Nat.le_add_left 1 n) (nil_sublist _) hQ.null
  | nonNull type => exact hmore (by omega) (hQ.suffixed hP type (sublist_cons_self _ _))
  | string | number | truth => exact hatom (hQ.literal _)
  | function list =>
    exact hQ.functionOf (hQ.items hP list (((sublist_append_left _ _).cons _).cons _)) (by simp)
  | functionReturning list returns =>
    refine hQ.functionOf (hQ.items hP list (((sublist_append_left _ _).cons _).cons _)) ?_
    rintro r ⟨⟩
    refine hQ.mono (Nat.le_succ n) (.refl _) (hQ.suffixed hP returns ?_)
    exact ((sublist_cons_self _ _).cons _).trans (sublist_append_right _ _)
  | name isName => exact hmore (by omega) (hQ.name _ isName)
  | applied _ _ list =>
    refine hQ.applied _ _ _ _ _ mem_cons_self fun t ht => ?_
    obtain ⟨us, rest, hus, phrase⟩ := exists_phrase_of_separated list t ht
    exact hQ.unionPhrase hP phrase (hus.trans (((sublist_append_left _ _).cons _).cons _))

end Phrases

lemma primary (levels : Nat) : ∀ ⦃ps after t⦄, Primary levels ps after t → Q (2 * levels) ps t := by
  induction levels with
  | zero => intro _ _ _ h; exact h.elim
  | succ levels ih => intro _ _ _ h; exact hQ.term ih h

/-- **What is read without a fault has the property.** -/
lemma expression {ts : List Token} {e : TypeExpression} (h : expression ts = .ok e) :
    Q (2 * maxNesting + 1) ts e.type := by
  cases sound_expression h with
  | typed type _ =>
    exact hQ.unionPhrase (hQ.primary maxNesting) type (((sublist_append_right _ _).trans
      (sublist_append_left _ _)).trans (sublist_append_left _ _))
  | untyped => exact hQ.anything _ _

end Graded

/-- A property that reading keeps, where the tokens that are read are good. -/
structure Closed (good : Token → Prop) (Q : TypeNode → Prop) : Prop where
  any : Q .any
  null : Q .null
  literal : ∀ text, Q (.literal text)
  name : ∀ name, good (.name name) → name ≠ "true" ∧ name ≠ "false" → Q (.ofName name)
  applied : ∀ name first others, good (.name name) → Q first → (∀ t ∈ others, Q t) →
    Q (.applied name first others)
  array : ∀ t, Q t → Q (.array t)
  union : ∀ l, l ≠ [] → (∀ t ∈ l, Q t) → Q (.unionOf l)
  record : ∀ fields : List (RecordField TypeNode), (∀ f ∈ fields, Q f.type) → Q (.record fields)
  function : ∀ (params : List (FunctionParam TypeNode))
    (returns thisType constructs : Option TypeNode),
    (∀ p ∈ params, Q p.type) → (∀ t ∈ returns, Q t) → (∀ t ∈ thisType, Q t) →
      (∀ t ∈ constructs, Q t) → Q (.function params returns thisType constructs)

lemma Closed.graded {good : Token → Prop} {Q : TypeNode → Prop} (hQ : Closed good Q) :
    Graded fun _ ps t => (∀ k ∈ ps, good k) → Q t where
  mono _ hps h hqs := h fun k hk => hqs k (hps.mem hk)
  any _ := hQ.any
  null _ := hQ.null
  literal text _ := hQ.literal text
  name name isName hgood := hQ.name name (hgood _ mem_cons_self) isName
  applied _ _ name first others hname h hgood :=
    hQ.applied name first others (hgood _ hname) (h first mem_cons_self hgood)
      fun t ht => h t (mem_cons_of_mem _ ht) hgood
  arrays _ ps t pairs h hgood := by
    have ht := h fun k hk => hgood k (mem_append_left _ hk)
    induction pairs with
    | zero => exact ht
    | succ n ih =>
      rw [Function.iterate_succ_apply']
      refine hQ.array _ (ih fun k hk => hgood k ?_)
      exact (mem_append.mp hk).elim (mem_append_left _) fun hk =>
        mem_append_right _ (by simp [bracketPairs, hk])
  union _ _ l hne h hgood := hQ.union l hne fun t ht => h t ht hgood
  record _ _ fields h hgood := hQ.record fields fun f hf => h f hf hgood
  function _ _ params returns thisType constructs hparams hreturns hthis hconstructs hgood :=
    hQ.function params returns thisType constructs (fun p hp => hparams p hp hgood)
      (fun t ht => hreturns t ht hgood) (fun t ht => hthis t ht hgood) fun t ht =>
        hconstructs t ht hgood

lemma Closed.expression {good : Token → Prop} {Q : TypeNode → Prop} (hQ : Closed good Q)
    {ts : List Token}
    {e : TypeExpression} (h : expression ts = .ok e) (hts : ∀ k ∈ ts, good k) : Q e.type :=
  hQ.graded.expression h hts

end AmbientDecl.TypeExpr

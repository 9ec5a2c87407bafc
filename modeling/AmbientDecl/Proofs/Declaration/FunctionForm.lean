import AmbientDecl.Proofs.Declaration.TypeForm

/-!
# Functions among printed types

The text of a function is told from that of any other type.

**Parentheses.** They open a function, or a function or a union inside an array or a union. Behind
the first kind a parameter starts or the parenthesis closes, behind the second kind neither
(`startsItem`), so a function is not taken for another type (`Expressible.chars_ne_function`).

**Items.** The marks of its item show the form of a parameter, and none looks like the type of
`this`, so the items of a function and what it gives make one type (`FunctionForm.unique`).
-/

namespace AmbientDecl

open Text TypeExpr List FunctionParam

variable {p : FunctionParam TypeNode} {name : String} {params : List (FunctionParam TypeNode)}

/-- Whether something starts that can stand behind the parenthesis of a function: its end, a
parameter with three points, or a name before a colon or a question mark. -/
def startsItem (cs : List Char) : Bool :=
  (cs.head?.any fun c => c == ')' || c == '.') ||
    ((cs.dropWhile isIdentRest).head?.any fun c => c == ':' || c == '?')

/-- A character that is no part of a name tells. -/
lemma startsItem_cons {c : Char} (h : isIdentRest c = false) (cs : List Char) :
    startsItem (c :: cs) = (c == ')' || c == '.' || (c == ':' || c == '?')) := by
  simp [startsItem, h]

lemma startsItem_append {word r : List Char}
    (hword : ∀ c ∈ word, c ≠ ':' ∧ c ≠ '?') (hfirst : ∀ c ∈ word.head?, c ≠ ')' ∧ c ≠ '.')
    (hne : word ≠ []) (hr : Stops isIdentRest r) (hmark : Stops (fun c => c == ':' || c == '?') r) :
    startsItem (word ++ r) = false := by
  have hdrop : ∀ {word : List Char}, (∀ c ∈ word, c ≠ ':' ∧ c ≠ '?') →
      (((word ++ r).dropWhile isIdentRest).head?.any fun c => c == ':' || c == '?') = false := by
    intro word hword
    induction word with
    | nil =>
      rw [nil_append, (takeWhile_of_stops hr).2]
      cases hhead : r.head? with
      | none => rfl
      | some c => exact hmark c hhead
    | cons c word ih =>
      obtain ⟨hc, hword⟩ := forall_mem_cons.mp hword
      cases hrest : isIdentRest c with
      | true => simpa [hrest] using ih hword
      | false => simp [hrest, hc]
  obtain ⟨first, more, rfl⟩ := exists_cons_of_ne_nil hne
  have hstart := hfirst first rfl
  simp only [startsItem, hdrop hword, Bool.or_false]
  simp [hstart]

/-- What can stand before the colon of an item. -/
def IsItemKey (key : String) : Prop :=
  ∃ name : String, (∀ c ∈ name.toList, isIdentRest c = true) ∧
    (key = "..." ++ name ∨ key = name ++ "?" ∨ key = name)

/-- An item of a function that a declaration can express. -/
def IsItem (item : String × TypeNode) : Prop := IsItemKey item.1 ∧ item.2.Expressible

lemma isItem_item (hname : p.name = some name)
    (hidentifier : isIdentifierChars name.toList = true) (htype : p.type.Expressible) :
    IsItem p.item := by
  have hchars := identChar_of_isIdentifierChars hidentifier
  unfold item
  simp only [hname, Option.getD_some]
  split
  · exact ⟨⟨name, hchars, Or.inl rfl⟩, .array htype⟩
  · split
    · exact ⟨⟨name, hchars, Or.inr (Or.inl rfl)⟩, htype⟩
    · exact ⟨⟨name, hchars, Or.inr (Or.inr rfl)⟩, htype⟩

lemma isItem_signatureItems {thisType : Option TypeNode}
    (h : Declarable params) (hparams : ∀ p ∈ params, p.type.Expressible)
    (hself : ∀ t ∈ thisType, t.Expressible) :
    ∀ item ∈ signatureItems params thisType, IsItem item := by
  intro item hitem
  rcases mem_append.mp hitem with hitem | hitem
  · obtain ⟨t, ht, rfl⟩ := Option.map_eq_some_iff.mp (Option.mem_toList.mp hitem)
    have hchars : "this".toList.all isIdentRest = true := by decide
    exact ⟨⟨"this", all_eq_true.mp hchars, Or.inr (Or.inr rfl)⟩, hself t ht⟩
  · obtain ⟨p, hp, rfl⟩ := mem_map.mp hitem
    obtain ⟨name, hname, hidentifier, _⟩ := h.named p hp
    exact isItem_item hname hidentifier (hparams p hp)

lemma startsItem_items {scope : TypeScope} {items : List (String × TypeNode)}
    (h : ∀ item ∈ items, IsItem item) (r : List Char) :
    startsItem (", ".toList.intercalate (items.map (itemChars scope)) ++ ')' :: r) = true := by
  cases items with
  | nil => rfl
  | cons item items =>
    obtain ⟨⟨name, hname, hkey⟩, _⟩ := h item mem_cons_self
    have hdrop : ∀ {c : Char} {cs : List Char}, isIdentRest c = false →
        (name.toList ++ c :: cs).dropWhile isIdentRest = c :: cs := by
      intro c cs hc
      rw [(takeWhile_append_of_stops (stops_cons hc) _).2, dropWhile_eq_nil_iff.mpr hname,
        nil_append]
    rw [intercalate_map_cons, itemChars]
    simp only [append_assoc, cons_append]
    rcases hkey with hkey | hkey | hkey
    · simp [hkey, startsItem]
    · simp [hkey, startsItem, hdrop (by decide : isIdentRest '?' = false)]
    · simp [hkey, startsItem, hdrop (by decide : isIdentRest ':' = false)]

namespace TypeNode

variable {scope : TypeScope} {t t' : TypeNode} {o o' : Opening} {r r' : List Char}

/-- No item starts where a head does. -/
lemma HeadForm.not_startsItem (hscope : scope.Plain) (h : HeadForm scope t o)
    (hr : Before headEnds r) :
    startsItem (t.headChars scope ++ r) = false := by
  have hrest : Stops isIdentRest r := hr.stops (by decide)
  have hmark : Stops (fun c => c == ':' || c == '?') r := hr.stops (by decide)
  -- the other first characters are no part of a name, so they decide alone
  have hpunct : o ≠ .digit → o ≠ .word → startsItem (t.headChars scope ++ r) = false := by
    intro hdigit hword
    obtain ⟨first, rest, htext, rfl⟩ := h.opens hscope
    have hall : (['(', '\x7b', '"', '\''].all fun c => !isIdentRest c &&
        !(c == ')' || c == '.' || (c == ':' || c == '?'))) = true := by decide
    have hfirst := all_eq_true.mp hall first (Opening.mem_of_ofChar hdigit hword)
    rw [Bool.and_eq_true, Bool.not_eq_true', Bool.not_eq_true'] at hfirst
    rw [htext, cons_append, startsItem_cons hfirst.1, hfirst.2]
  cases o with
  | digit =>
    cases h with
    | @number text token =>
      obtain ⟨hchars, first, more, htext, hfirst⟩ := chars_of_number? token
      have hheads : (literal text).headChars scope = text.toList := chars_literal text
      rw [hheads]
      refine startsItem_append (fun c hc => ?_) ?_ (by simp [htext]) hrest hmark
      · have hnumber := hchars c hc
        constructor <;>
        · rintro rfl
          revert hnumber
          decide
      · intro c hc
        obtain rfl : first = c := by simpa [htext] using hc
        constructor <;>
        · rintro rfl
          revert hfirst
          decide
  | word =>
    obtain ⟨word, args, hform⟩ := h.wordForm
    obtain ⟨hchars, ⟨first, more, hfirst, _⟩, _⟩ := spelling_of_isPrintedWord hform.isPrintedWord
    have hne : ∀ c ∈ word.toList, c ≠ ':' ∧ c ≠ '?' ∧ c ≠ ')' ∧ c ≠ '.' := by
      intro c hc
      have hident := hchars c hc
      refine ⟨?_, ?_, ?_, ?_⟩ <;>
      · rintro rfl
        revert hident
        decide
    rw [hform.chars_eq hscope, append_assoc]
    refine startsItem_append (fun c hc => ⟨(hne c hc).1, (hne c hc).2.1⟩) ?_ (by simp [hfirst])
      (stops_argumentChars args (by decide) hrest) (stops_argumentChars args (by decide) hmark)
    intro c hc
    exact (hne c (mem_of_mem_head? hc)).2.2
  | paren | brace | quote => exact hpunct (by decide) (by decide)

def functionOpening (new : Bool) : List Char := if new then "new (".toList else ['(']

/-- The forms of functions: whether they make an object, their items, and what they give. -/
inductive FunctionForm : TypeNode → Bool → List (String × TypeNode) → TypeNode → Prop
  | returns {params : List (FunctionParam TypeNode)} {thisType : Option TypeNode}
      {result : TypeNode}
      (declarable : Declarable params)
        (items : ∀ item ∈ signatureItems params thisType, IsItem item)
      (expressible : result.Expressible) :
      FunctionForm (.function params (some result) thisType none) false
        (signatureItems params thisType)
        result
  | constructs {params : List (FunctionParam TypeNode)} {thisType : Option TypeNode}
      {result : TypeNode}
      (declarable : Declarable params)
        (items : ∀ item ∈ signatureItems params thisType, IsItem item)
      (expressible : result.Expressible) :
      FunctionForm (.function params none thisType (some result)) true
        (signatureItems params thisType)
        result

variable {new new' : Bool} {items items' : List (String × TypeNode)} {result result' : TypeNode}

lemma Expressible.functionForm (h : t.Expressible) (hfunction : t.IsFunction) :
    ∃ new items result, FunctionForm t new items result := by
  cases h with
  | @function params returns thisType constructs declarable one expressible hresult self made =>
    have hitems := isItem_signatureItems declarable expressible self
    cases returns with
    | some result =>
      cases constructs with
      | some _ => simp at one
      | none => exact ⟨_, _, _, .returns declarable hitems (hresult result rfl)⟩
    | none =>
      cases constructs with
      | some result => exact ⟨_, _, _, .constructs declarable hitems (made result rfl)⟩
      | none => simp at one
  | _ => exact hfunction.elim

lemma FunctionForm.isItem (h : FunctionForm t new items result) : ∀ item ∈ items, IsItem item := by
  cases h with
  | returns _ isItem => exact isItem
  | constructs _ isItem => exact isItem

lemma FunctionForm.expressible (h : FunctionForm t new items result) : result.Expressible := by
  cases h with
  | returns _ _ expressible => exact expressible
  | constructs _ _ expressible => exact expressible

lemma FunctionForm.chars_eq (h : FunctionForm t new items result) : t.chars scope =
    functionOpening new ++ (", ".toList.intercalate (items.map (itemChars scope)) ++
      (") => ".toList ++ result.chars scope)) := by
  cases h with
  | returns declarable => exact (chars_function declarable _ _).1
  | constructs declarable => exact (chars_function declarable _ _).2

/-- No item starts where a type does. -/
lemma Expressible.not_startsItem (hscope : scope.Plain) (h : t.Expressible)
    (hr : Before typeEnds r) :
    startsItem (t.chars scope ++ r) = false := by
  by_cases hfunction : t.IsFunction
  · obtain ⟨new, items, result, hform⟩ := h.functionForm hfunction
    rw [hform.chars_eq, append_assoc]
    cases new <;> rfl
  · obtain ⟨c, o, s, hform, _, hs, htext⟩ : ∃ c o s, HeadForm scope c o ∧ c.Expressible ∧
        Before headEnds s ∧ t.chars scope ++ r = c.headChars scope ++ s :=
          h.exists_head hfunction hr
    rw [htext]
    exact hform.not_startsItem hscope hs

/-- **A function is not taken for another type.** -/
lemma Expressible.chars_ne_function (hscope : scope.Plain) (h : t.Expressible)
    (hfunction : ¬ t.IsFunction)
    (hr : Before typeEnds r) (hform : FunctionForm t' new items result) :
    t.chars scope ++ r ≠ t'.chars scope ++ r' := by
  obtain ⟨c, o, s, hhead, hc, hs, htext⟩ : ∃ c o s, HeadForm scope c o ∧ c.Expressible ∧
    Before headEnds s ∧ t.chars scope ++ r = c.headChars scope ++ s := h.exists_head hfunction hr
  rw [htext, hform.chars_eq]
  intro heq
  obtain ⟨first, rest, hfirst, rfl⟩ := hhead.opens hscope
  cases new with
  | true =>
    -- only a word starts with a letter, and none is the one before a constructor
    have hn : first = 'n' := (List.cons.inj (hfirst ▸ heq)).1
    rw [hn] at hhead
    obtain ⟨word, args, hword⟩ := HeadForm.wordForm (show HeadForm scope c .word from hhead)
    obtain ⟨hchars, _, hnew⟩ := spelling_of_isPrintedWord hword.isPrintedWord
    rw [hword.chars_eq hscope, append_assoc] at heq
    have hall : "new".toList.all isIdentRest = true := by decide
    have hopening : functionOpening true = "new".toList ++ [' ', '('] := rfl
    rw [hopening, append_assoc, append_assoc] at heq
    have hrun := run_append_inj hchars (all_eq_true.mp hall)
      (stops_argumentChars args (by decide) (hs.stops (by decide))) (stops_cons (by decide)) heq
    exact hnew (String.toList_injective hrun.1)
  | false =>
    -- behind the parenthesis an item starts in one text and a type in the other
    have hparen : first = '(' := (List.cons.inj (hfirst ▸ heq)).1
    rw [hparen] at hhead
    cases (show HeadForm scope c .paren from hhead) with
    | parenthesized text =>
      have hclosed : Before typeEnds (")".toList ++ s) := before_append ")" (by decide) s
      have hbody : c.chars scope ++ (")".toList ++ s) =
          ", ".toList.intercalate (items.map (itemChars scope)) ++
            ')' :: (" => ".toList ++ (result.chars scope ++ r')) := by
        simpa [text, functionOpening] using heq
      have htype := hc.not_startsItem hscope hclosed
      rw [hbody, startsItem_items hform.isItem] at htype
      simp at htype

end TypeNode

/-- The form of a parameter shows in the marks of its item. -/
lemma FunctionParam.marks_item (hname : p.name = some name)
    (hchars : ∀ c ∈ name.toList, isIdentRest c = true) :
    ('.' ∈ p.item.1.toList ↔ p.variadic = true) ∧
      ('?' ∈ p.item.1.toList ↔ p.variadic = false ∧ p.optional = true) := by
  have hpoint : '.' ∉ name.toList := fun h => absurd (hchars _ h) (by decide)
  have hquestion : '?' ∉ name.toList := fun h => absurd (hchars _ h) (by decide)
  simp only [item, hname, Option.getD_some]
  cases p.variadic <;> cases p.optional <;> simp [hpoint, hquestion]

lemma FunctionParam.item_inj {q : FunctionParam TypeNode} {other : String} (hp : p.name = some name)
    (hq : q.name = some other) (hname : ∀ c ∈ name.toList, isIdentRest c = true)
    (hother : ∀ c ∈ other.toList, isIdentRest c = true)
    (hpgiven : p.variadic = true → p.optional = false)
    (hqgiven : q.variadic = true → q.optional = false) (h : p.item = q.item) : p = q := by
  obtain ⟨hvariadic, hoptional⟩ := marks_item hp hname
  obtain ⟨hvariadic', hoptional'⟩ := marks_item hq hother
  rw [h, hvariadic'] at hvariadic
  rw [h, hoptional'] at hoptional
  obtain ⟨_, type, optional, variadic⟩ := p
  obtain ⟨_, type', optional', variadic'⟩ := q
  obtain rfl : variadic' = variadic := Bool.eq_iff_iff.mpr hvariadic
  subst hp hq
  cases variadic' with
  | true =>
    obtain rfl : optional = false := hpgiven rfl
    obtain rfl : optional' = false := hqgiven rfl
    simpa [item] using h
  | false =>
    obtain rfl : optional' = optional := Bool.eq_iff_iff.mpr (by simpa using hoptional)
    cases optional' <;> simpa [item] using h

lemma map_item_inj {params' : List (FunctionParam TypeNode)} (h : Declarable params)
    (h' : Declarable params') (heq : params.map FunctionParam.item =
      params'.map FunctionParam.item) :
    params = params' := by
  refine ext_getElem (by simpa using congrArg List.length heq) fun i hi hi' => ?_
  have hitem : params[i].item = params'[i].item := by
    simpa [hi, hi'] using congrArg (fun l => l[i]?) heq
  obtain ⟨name, hname, hchars, _⟩ := h.named _ (getElem_mem hi)
  obtain ⟨other, hother, hchars', _⟩ := h'.named _ (getElem_mem hi')
  exact item_inj hname hother (identChar_of_isIdentifierChars hchars)
    (identChar_of_isIdentifierChars hchars') (h.restGiven _ (getElem_mem hi))
    (h'.restGiven _ (getElem_mem hi')) hitem

/-- No parameter looks like the type of `this`. -/
lemma item_ne_this (h : Declarable params)
    (hp : p ∈ params) (t : TypeNode) : p.item ≠ ("this", t) := by
  obtain ⟨name, hname, hchars, hreserved⟩ := h.named p hp
  intro heq
  obtain ⟨hvariadic, hoptional⟩ := marks_item hname (identChar_of_isIdentifierChars hchars)
  rw [heq] at hvariadic hoptional
  have hrequired : p.variadic = false := by simpa using hvariadic
  have hgiven : p.optional = false := by simpa [hrequired] using hoptional
  simp only [item, hname, hrequired, hgiven, Option.getD_some] at heq
  have hthis : name = "this" := by simpa using (Prod.mk.inj heq).1
  exact hreserved (hthis ▸ by decide)

lemma signatureItems_inj {params' : List (FunctionParam TypeNode)}
    {thisType thisType' : Option TypeNode}
    (h : Declarable params) (h' : Declarable params')
    (heq : signatureItems params thisType = signatureItems params' thisType') :
    params = params' ∧ thisType = thisType' := by
  have hthis : ∀ {params : List (FunctionParam TypeNode)} (t : TypeNode)
    (rest : List (String × TypeNode)),
      Declarable params → params.map item ≠ ("this", t) :: rest := by
    intro params t rest hparams heq
    obtain ⟨p, later, rfl, hitem, _⟩ := map_eq_cons_iff.mp heq
    exact item_ne_this hparams mem_cons_self t hitem
  cases thisType with
  | none =>
    cases thisType' with
    | none => exact ⟨map_item_inj h h' heq, rfl⟩
    | some t => exact absurd heq (hthis t _ h)
  | some t =>
    cases thisType' with
    | none => exact absurd heq.symm (hthis t _ h')
    | some t' =>
      obtain ⟨hself, hitems⟩ := List.cons.inj heq
      rw [(Prod.mk.inj hself).2]
      exact ⟨map_item_inj h h' hitems, rfl⟩

namespace TypeNode

variable {scope : TypeScope} {t t' : TypeNode} {r r' : List Char} {new new' : Bool}
  {items items' : List (String × TypeNode)} {result : TypeNode}

/-- Items and what they give make one function. -/
lemma FunctionForm.unique (h : FunctionForm t new items result)
    (h' : FunctionForm t' new items' result)
    (heq : items = items') : t = t' := by
  cases h with
  | returns declarable =>
    cases h' with
    | returns declarable' =>
      obtain ⟨rfl, rfl⟩ := signatureItems_inj declarable declarable' heq
      rfl
  | constructs declarable =>
    cases h' with
    | constructs declarable' =>
      obtain ⟨rfl, rfl⟩ := signatureItems_inj declarable declarable' heq
      rfl

end TypeNode

end AmbientDecl

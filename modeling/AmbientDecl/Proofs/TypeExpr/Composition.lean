import AmbientDecl.Proofs.TypeExpr.Lexeme

/-!
# Types made out of the texts of types

A type in parentheses or between the marks of a generic array is read as it is alone, and so are the
types that a comment lists.

**Contexts.** What stands behind a phrase matters only up to the marks that close what it stands in:
a phrase of a language with one bound on nesting is one with a higher bound and with another closing
mark behind it (`Carries`).

**Nesting.** `expressionWithin` reads an expression with a bound on nesting of its own. A type is
`Plain` if it is read without markers and one level is left for what is put around it.
-/

namespace AmbientDecl

open Text List

variable {mark : Punct} {levels : Nat} {names : List String}

namespace TypeExpr

open Grammar

variable {α : Type} {P P' : Phrases TypeNode} {ts ps after after' : List Token} {t : TypeNode}

/-- Nothing follows, or a mark that closes what a type stands in. -/
def Closing (ts : List Token) : Prop :=
  ∀ token ∈ ts.head?, token = .punct .closeParen ∨ token = .punct .greater

/-- The tokens are the same up to closing marks. -/
inductive Alike : List Token → List Token → Prop
  | closing {after after' : List Token} : Closing after → Closing after' → Alike after after'
  | cons {after after' : List Token} (token : Token) :
      Alike after after' → Alike (token :: after) (token :: after')

lemma Alike.append (ps : List Token) (h : Alike after after') :
    Alike (ps ++ after) (ps ++ after') := by
  induction ps with
  | nil => exact h
  | cons token ps ih => exact .cons token ih

lemma Alike.refl (ts : List Token) : Alike ts ts := by
  induction ts with
  | nil => exact .closing (by simp [Closing]) (by simp [Closing])
  | cons token ts ih => exact .cons token ih

lemma Closing.atTypeEnd (h : Closing ts) : atTypeEnd ts = true := by
  cases ts with
  | nil => rfl
  | cons token ts => rcases h token rfl with rfl | rfl <;> rfl

lemma Alike.atTypeEnd (h : Alike after after') : atTypeEnd after = atTypeEnd after' := by
  cases h with
  | closing h h' => rw [h.atTypeEnd, h'.atTypeEnd]
  | cons token _ => cases token <;> rfl

lemma Closing.not_bracket (h : Closing ts)
    (hmark : mark = .openBracket ∨ mark = .closeBracket) {rest : List Token} :
    ts ≠ .punct mark :: rest := by
  rintro rfl
  rcases hmark with rfl | rfl <;> simp [Closing] at h

lemma Alike.brackets (h : Alike after after') (hnone : ¬ bracketPairs 1 <+: after) :
    ¬ bracketPairs 1 <+: after' := by
  rintro ⟨rest, hrest⟩
  cases h with
  | closing _ h' => exact h'.not_bracket (Or.inl rfl) hrest.symm
  | cons first h =>
    obtain ⟨rfl, hbehind⟩ := List.cons.inj hrest
    cases h with
    | closing _ h' => exact h'.not_bracket (Or.inr rfl) hbehind.symm
    | cons second h =>
      obtain ⟨rfl, _⟩ := List.cons.inj hbehind
      exact hnone ⟨_, rfl⟩

/-- Phrases of a language are phrases of another one, in any context that is alike. -/
def Carries (L L' : Phrases α) : Prop :=
  ∀ ⦃ps after after' a⦄, Alike after after' → L ps after a → L' ps after' a

lemma Carries.separated {L L' : Phrases α} (h : Carries L L') (mark : Punct) :
    Carries (Separated mark L) (Separated mark L') := by
  intro ps after after' as halike hps
  induction hps with
  | single phrase => exact .single (h halike phrase)
  | cons phrase _ ih => exact .cons (h (halike.append _) phrase) (ih halike)

namespace Carries

variable (h : Carries P P')
include h

lemma suffixed : Carries (Postfix P) (Postfix P') := by
  rintro ps after after' t halike ⟨pairs, head, all⟩
  exact .intro pairs (h (halike.append _) head) (halike.brackets all)

lemma union : Carries (Union P) (Union P') := by
  rintro ps after after' t halike ⟨list⟩
  exact .intro (h.suffixed.separated .bar halike list)

lemma optionalUnion : Carries (OptionalUnion P) (OptionalUnion P') := by
  intro ps after after' t halike hps
  cases hps with
  | omitted => exact .omitted
  | given type => exact .given (h.union halike type)

lemma item : Carries (Item P) (Item P') := by
  intro ps after after' item halike hps
  cases hps with
  | thisType type => exact .thisType (h.union halike type)
  | constructs type => exact .constructs (h.union halike type)
  | param hthis hnew type => exact .param hthis hnew (h.optionalUnion (halike.append _) type)

lemma items : Carries (Items P) (Items P') := by
  intro ps after after' items halike hps
  cases hps with
  | none => exact .none
  | some list tokens => exact .some (h.item.separated .comma halike list) tokens

lemma field : Carries (Field P) (Field P') := by
  intro ps after after' f halike hps
  cases hps with
  | untyped named => exact .untyped named
  | typed named type => exact .typed named (h.union (halike.append _) type)

lemma fields : Carries (Fields P) (Fields P') := by
  intro ps after after' fs halike hps
  induction hps with
  | single field => exact .single (h.field halike field)
  | trailing separates field => exact .trailing separates (h.field (halike.cons _) field)
  | cons separates field _ ih =>
    exact .cons separates (h.field (halike.append _) field) (ih halike)

/-- **What carries over for the parts of a type carries over for the type.** -/
lemma term : Carries (Term P) (Term P') := by
  intro ps after after' t halike hps
  cases hps with
  | parenthesized type => exact .parenthesized (h.union (halike.cons _) type)
  | emptyRecord => exact .emptyRecord
  | record list => exact .record (h.fields (halike.cons _) list)
  | star => exact .star
  | unknown ends => exact .unknown (halike.atTypeEnd ▸ ends)
  | nullable type => exact .nullable (h.suffixed halike type)
  | nonNull type => exact .nonNull (h.suffixed halike type)
  | string text => exact .string text
  | number text => exact .number text
  | truth isTruth => exact .truth isTruth
  | function list => exact .function (h.items (halike.cons _) list)
  | functionReturning list returns =>
    exact .functionReturning (h.items ((halike.append _).cons _ |>.cons _) list)
      (h.suffixed halike returns)
  | name isName => exact .name isName
  | applied isName opens list =>
    exact .applied isName opens (h.union.separated .comma (halike.cons _) list)

end Carries

/-- **A type is the same with more levels, and in a context that is alike.** -/
lemma carries_primary {levels' : Nat} (h : levels ≤ levels') :
    Carries (Primary levels) (Primary levels') := by
  induction levels generalizing levels' with
  | zero => exact fun _ _ _ _ _ hps => hps.elim
  | succ n ih =>
    cases levels' with
    | zero => simp at h
    | succ m => exact (ih (Nat.le_of_succ_le_succ h)).term

lemma Yields.unique {outcome : Outcome α ts} {a b : α} {rest rest' : List Token}
    (h : Yields outcome a rest) (h' : Yields outcome b rest') : a = b ∧ rest = rest' := by
  obtain ⟨p, hp, rfl, rfl⟩ := h
  obtain ⟨q, hq, rfl, rfl⟩ := h'
  obtain rfl := Except.ok.inj (hp.symm.trans hq)
  exact ⟨rfl, rfl⟩

lemma eq_trailing {mid : List Token} (h : (accept .question (accept .equals mid).2).2 = []) :
    ∃ optional again, mid = optionally .equals optional ++ optionally .question again := by
  have hequals := optionally_accept .equals mid
  have hquestion := optionally_accept .question (accept .equals mid).2
  rw [h, append_nil] at hquestion
  rw [← hquestion] at hequals
  exact ⟨_, _, hequals.symm⟩

lemma markers_of_unmarked (hstarts : typeStarts ts = true) (hunmarked : Unmarked ts) :
    accept .ellipsis ts = (false, ts) ∧ nullMarker ts = (none, ts) :=
  ⟨@accept_optionally .ellipsis false ts (head?_of_typeStarts hstarts rfl),
    @nullMarker_nullTokens none ts fun _ => hunmarked⟩

/-- An expression without markers is read as its type. -/
lemma expressionWithin_of_union (hunion : Union (Primary levels) ts [] t)
    (hunmarked : Unmarked ts) :
    expressionWithin levels ts = .ok (.plain t) := by
  have hread := complete_union (recognizes_primary levels) hunion rfl (by simp)
  rw [append_nil] at hread
  have hstarts := starts_union (recognizes_primary levels) hread
  obtain ⟨hellipsis, hmarker⟩ := markers_of_unmarked hstarts hunmarked
  refine expressionWithin_eq_ok.mpr ⟨t, none, [], ?_, rfl, by rw [hellipsis]; rfl⟩
  rw [hellipsis, hmarker]
  exact markedType_eq_ok.mpr (.inr ⟨atTypeEnd_of_typeStarts hstarts, hread, rfl⟩)

/-- A type that is read with fewer levels is read as the same type with more. -/
lemma union_of_expressionWithin (hlevels : levels ≤ maxNesting) {e : TypeExpression}
    (hwithin : expressionWithin levels ts = .ok e) (hunmarked : Unmarked ts)
    (hunion : Union (Primary maxNesting) ts [] t) : Union (Primary levels) ts [] t := by
  have hread := complete_union (recognizes_primary maxNesting) hunion rfl (by simp)
  rw [append_nil] at hread
  have hstarts := starts_union (recognizes_primary maxNesting) hread
  obtain ⟨hellipsis, hmarker⟩ := markers_of_unmarked hstarts hunmarked
  obtain ⟨s, nullable, mid, htype, hrest, -⟩ := expressionWithin_eq_ok.mp hwithin
  rw [hellipsis, hmarker] at htype
  obtain ⟨optional, again, rfl⟩ := eq_trailing hrest
  rcases markedType_eq_ok.mp htype with ⟨_, hmarked, _⟩ | ⟨_, hfewer, _⟩
  · simp at hmarked
  · obtain ⟨ps, rfl, hps⟩ := sound_union (recognizes_primary levels) hfewer
    have hmore := (carries_primary hlevels).union (Alike.refl _) hps
    have hreadMore := complete_union (recognizes_primary maxNesting) hmore
      (goesOn_trailing optional again) (head?_trailing optional again (by decide) (by decide))
    obtain ⟨rfl, hend⟩ := hread.unique hreadMore
    rw [← hend] at hps ⊢
    rwa [append_nil]

/-- How deep a type may be nested so that a level is left for what is put around it. -/
def innerNesting : Nat := maxNesting - 1

lemma closing_nil : Closing [] := by simp [Closing]

lemma closing_closeParen (ts : List Token) : Closing (.punct .closeParen :: ts) := by simp [Closing]

lemma closing_greater (ts : List Token) : Closing (.punct .greater :: ts) := by simp [Closing]

/-- **A type without markers is a union, also before closing marks.** -/
lemma union_of_plain (h : expression ts = .ok (.plain t)) {e : TypeExpression}
    (hwithin : expressionWithin innerNesting ts = .ok e) (hafter : Closing after) :
    Union (Primary innerNesting) ts after t := by
  suffices hunion : Union (Primary innerNesting) ts [] t from
    (carries_primary (Nat.le_refl _)).union (.closing closing_nil hafter) hunion
  rcases union_or_question_of_plain h with ⟨hunion, hunmarked⟩ | ⟨rfl, rfl⟩
  · exact union_of_expressionWithin (by decide) hwithin hunmarked hunion
  · have hterm : Primary innerNesting [.punct .question] (bracketPairs 0 ++ []) .any :=
      Term.unknown rfl
    have hunion := Union.intro (.single (Postfix.intro 0 hterm (by decide)))
    rwa [Function.iterate_zero, id, (TypeNode.flat_of_alternatives rfl).joined] at hunion

/-- The tokens are a type with a level left, whatever closes what it stands in. -/
def Inner (ts : List Token) (t : TypeNode) : Prop :=
  ∀ after, Closing after → Union (Primary innerNesting) ts after t

lemma Inner.parenthesized (h : Inner ts t) (after : List Token) :
    Primary maxNesting (.punct .openParen :: ts ++ [.punct .closeParen]) after t :=
  Term.parenthesized (h _ (closing_closeParen _))

/-- In parentheses a type can be an alternative. -/
lemma Inner.alternative (h : Inner ts t) (hafter : ¬ bracketPairs 1 <+: after) :
    Postfix (Primary maxNesting) (.punct .openParen :: ts ++ [.punct .closeParen]) after t := by
  have hphrase := Postfix.intro 0 (h.parenthesized (bracketPairs 0 ++ after)) hafter
  rwa [bracketPairs, append_nil, Function.iterate_zero, id] at hphrase

lemma Inner.arrayOf (h : Inner ts t) (hmark : mark = .less ∨ mark = .dotLess) (after : List Token) :
    Primary maxNesting (.name "Array" :: .punct mark :: ts ++ [.punct .greater]) after (.array t) :=
  Term.applied (by decide) hmark (.single (h _ (closing_greater _)))

/-- A term with brackets behind it is read as a whole expression. -/
lemma expression_of_primary (pairs : Nat) (h : ∀ after, Primary maxNesting ps after t)
    (hunmarked : Unmarked (ps ++ bracketPairs pairs)) (hflat : (TypeNode.array^[pairs] t).Flat) :
    expression (ps ++ bracketPairs pairs) = .ok (.plain (TypeNode.array^[pairs] t)) := by
  have hunion := Union.intro
    (.single (Postfix.intro pairs (h (bracketPairs pairs ++ [])) (by decide)))
  rw [hflat.joined] at hunion
  exact expressionWithin_of_union hunion hunmarked

variable {c : Char} {cs r : List Char} {us : List Token}

lemma tokens_mark (hcut : ∀ cs, lexemeCut? (c :: cs) = some (.token (.punct mark), cs))
    (h : tokens cs = .ok ts) : tokens (c :: cs) = .ok (.punct mark :: ts) :=
  tokens_of_cut (hcut cs) (by simp) h

lemma tokens_parenthesized (hts : tokens (trim cs) = .ok ts) (hus : tokens r = .ok us) :
    tokens ('(' :: cs ++ ')' :: r) =
      .ok ((.punct .openParen :: ts ++ [.punct .closeParen]) ++ us) := by
  have hclose : tokens (')' :: r) = .ok (.punct .closeParen :: us) := tokens_mark (fun _ => rfl) hus
  have hbounded : Bounded (')' :: r) := by
    intro c hc
    obtain rfl : ')' = c := by simpa using hc
    rfl
  simpa using tokens_mark (fun _ => rfl) (tokens_append_of_trim hbounded hts hclose)

/-- The name of the array type, before a mark that does not go on with it. -/
lemma tokens_array (hword : Stops isIdentRest r) (hsteps : pathSteps r = ([], r))
    (hus : tokens r = .ok us) :
    tokens ("Array".toList ++ r) = .ok (.name "Array" :: us) := by
  have hname : name? ("Array".toList ++ r) = some ("Array".toList, r) := by
    have hmodule : moduleName? ("Array".toList ++ r) = none :=
      moduleName?_of_unmarked fun hmark => absurd (cons_prefix_cons.mp hmark).1 (by decide)
    have hidentifier : identifier? "Array".toList = some ("Array".toList, []) := rfl
    rw [name?, hmodule, identifier?_append hword, hidentifier]
    simp [Cut.before, hsteps]
  have hcut : lexemeCut? ("Array".toList ++ r) = some (.token (.name "Array"), r) := by
    have hblank : run? isBlank ("Array".toList ++ r) = none := rfl
    have hstring : string? ("Array".toList ++ r) = none := rfl
    have hnumber : number? ("Array".toList ++ r) = none := rfl
    simp only [lexemeCut?, hblank, hstring, hnumber, hname]
    rfl
  exact tokens_of_cut hcut (by simp; omega) hus

lemma tokens_arrayOf (hts : tokens (trim cs) = .ok ts) :
    tokens ("Array".toList ++ '<' :: cs ++ ['>']) =
        .ok (.name "Array" :: .punct .less :: ts ++ [.punct .greater]) ∧
      tokens ("Array".toList ++ '.' :: '<' :: cs ++ ['>']) =
        .ok (.name "Array" :: .punct .dotLess :: ts ++ [.punct .greater]) := by
  have hclose : tokens ['>'] = .ok [.punct .greater] := tokens_mark (fun _ => rfl) tokens_nil
  have hbounded : Bounded ['>'] := by
    intro c hc
    obtain rfl : '>' = c := by simpa using hc
    rfl
  have hinside := tokens_append_of_trim hbounded hts hclose
  constructor
  · have hmark : tokens ('<' :: (cs ++ ['>'])) = .ok (.punct .less :: (ts ++ [.punct .greater])) :=
      tokens_mark (fun _ => rfl) hinside
    have hsteps : pathSteps ('<' :: (cs ++ ['>'])) = ([], '<' :: (cs ++ ['>'])) :=
      pathSteps_of_none fun hpath => absurd hpath (by decide)
    exact tokens_array (stops_cons (by decide)) hsteps hmark
  · have hcut : lexemeCut? ('.' :: '<' :: (cs ++ ['>'])) =
      some (.token (.punct .dotLess), cs ++ ['>']) := rfl
    have hmark : tokens ('.' :: '<' :: (cs ++ ['>'])) =
        .ok (.punct .dotLess :: (ts ++ [.punct .greater])) :=
      tokens_of_cut hcut (by simp) hinside
    have hsteps : pathSteps ('.' :: '<' :: (cs ++ ['>'])) = ([], '.' :: '<' :: (cs ++ ['>'])) :=
      pathSteps_of_none fun _ => rfl
    exact tokens_array (stops_cons (by decide)) hsteps hmark

end TypeExpr

/-- A text that is read as a type without markers and leaves a level of nesting. -/
structure Plain (text : String) : Prop where
  notBlank : stripped text ≠ ""
  unmarked : readType (some text) = ⟨.plain (typeOfExpression (some text)), none⟩
  shallow : (TypeExpr.ofTextWithin TypeExpr.innerNesting (stripped text).toList).isOk = true

open TypeExpr Grammar

instance (text : String) : Decidable (Plain text) :=
  decidable_of_iff (stripped text ≠ "" ∧
      readType (some text) = ⟨.plain (typeOfExpression (some text)), none⟩ ∧
      (ofTextWithin innerNesting (stripped text).toList).isOk = true)
    ⟨fun h => ⟨h.1, h.2.1, h.2.2⟩, fun h => ⟨h.notBlank, h.unmarked, h.shallow⟩⟩

variable {text : String} {t : TypeNode} {ts : List Token}

lemma ofText_of_readType (hblank : stripped text ≠ "")
    (h : readType (some text) = ⟨.plain t, none⟩) :
    ofText (stripped text).toList = .ok (.plain t) := by
  simp only [readType, Option.getD_some, if_neg hblank] at h
  cases htext : ofText (stripped text).toList with
  | error fault => simp [htext] at h
  | ok e => simpa [htext] using h

/-- The tokens of a plain text are a type that can stand inside another one. -/
lemma Plain.inner (h : Plain text) : ∃ ts, tokens (trim text.toList) = .ok ts ∧
    Inner ts (typeOfExpression (some text)) ∧ (typeOfExpression (some text)).Flat := by
  have htext := ofText_of_readType h.notBlank h.unmarked
  obtain ⟨ts, htokens, hread⟩ := exists_tokens_of_ofText htext
  have hshallow := h.shallow
  rw [ofTextWithin_of_tokens htokens] at hshallow
  obtain ⟨e, hwithin⟩ : ∃ e, expressionWithin innerNesting ts = .ok e := by
    cases hexpression : expressionWithin innerNesting ts with
    | error fault => simp [hexpression, Except.isOk, Except.toBool] at hshallow
    | ok e => exact ⟨e, rfl⟩
  rw [stripped, String.toList_ofList] at htokens
  generalize typeOfExpression (some text) = t at hread
  exact ⟨ts, htokens, fun after hafter => union_of_plain hread hwithin hafter,
    flat_of_expression hread⟩

lemma trim_sublist (cs : List Char) : (trim cs).Sublist cs := by
  have hright : (trimRight (trimLeft cs)).Sublist (trimLeft cs) := by
    rw [trimRight, ← reverse_sublist, reverse_reverse]
    exact dropWhile_sublist _
  exact hright.trans (dropWhile_sublist _)

lemma trim_of_ends {c d : Char} {cs : List Char} (hc : isBlank c = false) (hd : isBlank d = false) :
    trim (c :: cs ++ [d]) = c :: cs ++ [d] := by
  simp [trim, trimLeft, trimRight, hc, hd]

/-- Text with no white space around it is read through its tokens. -/
lemma readType_of_tokens {c d : Char} {cs : List Char} (htext : text.toList = c :: cs ++ [d])
    (hc : isBlank c = false) (hd : isBlank d = false) (htokens : tokens text.toList = .ok ts)
    (hread : expression ts = .ok (.plain t)) : readType (some text) = ⟨.plain t, none⟩ := by
  have hstripped : stripped text = text := by
    rw [stripped, htext, trim_of_ends hc hd, ← htext, String.ofList_toList]
  have hne : text ≠ "" := by
    rintro rfl
    simp at htext
  have hall := (ofTextWithin_of_tokens htokens).trans hread
  simp only [readType, Option.getD_some, hstripped, if_neg hne, ofText, hall]

lemma Plain.readType_parenthesized (h : Plain text) :
    readType (some ("(" ++ text ++ ")")) = ⟨.plain (typeOfExpression (some text)), none⟩ := by
  obtain ⟨ts, htokens, hinner, hflat⟩ := h.inner
  have hchars : ("(" ++ text ++ ")").toList = '(' :: text.toList ++ [')'] := by simp
  have hall := tokens_parenthesized htokens tokens_nil
  refine readType_of_tokens hchars rfl rfl (hchars ▸ hall) ?_
  exact expression_of_primary 0 hinner.parenthesized (by simp [Unmarked]) hflat

lemma flat_array (t : TypeNode) : (TypeNode.array t).Flat := TypeNode.flat_of_alternatives rfl

lemma Plain.readType_brackets (h : Plain text) :
    readType (some ("(" ++ text ++ ")[]")) =
      ⟨.plain (.array (typeOfExpression (some text))), none⟩ := by
  obtain ⟨ts, htokens, hinner, hflat⟩ := h.inner
  have hchars : ("(" ++ text ++ ")[]").toList = '(' :: (text.toList ++ [')', '[']) ++
    [']'] := by simp
  have hbrackets : tokens ['[', ']'] = .ok (bracketPairs 1) :=
    tokens_mark (fun _ => rfl) (tokens_mark (fun _ => rfl) tokens_nil)
  have hall := tokens_parenthesized htokens hbrackets
  refine readType_of_tokens hchars rfl rfl ?_
    (expression_of_primary 1 hinner.parenthesized (by simp [Unmarked]) (flat_array _))
  rw [hchars]
  simpa using hall

lemma Plain.readType_arrayOf (h : Plain text) :
    readType (some ("Array<" ++ text ++ ">")) =
      ⟨.plain (.array (typeOfExpression (some text))), none⟩ ∧
      readType (some ("Array.<" ++ text ++ ">")) =
        ⟨.plain (.array (typeOfExpression (some text))), none⟩ := by
  obtain ⟨ts, htokens, hinner, hflat⟩ := h.inner
  obtain ⟨hless, hdotLess⟩ := tokens_arrayOf htokens
  have hread : ∀ {mark : Punct} {text' : String} {mid : List Char}, mark = .less ∨ mark = .dotLess →
      text'.toList = "Array".toList ++ mid ++ ['>'] →
      tokens ("Array".toList ++ mid ++ ['>']) =
        .ok (.name "Array" :: .punct mark :: ts ++ [.punct .greater]) →
      readType (some text') = ⟨.plain (.array (typeOfExpression (some text))), none⟩ := by
    intro mark text' mid hmark hchars hall
    have hexpression := expression_of_primary 0 (hinner.arrayOf hmark)
      (by simp [Unmarked]) (flat_array _)
    rw [bracketPairs, append_nil] at hexpression
    exact readType_of_tokens hchars rfl rfl (hchars ▸ hall) hexpression
  constructor
  · exact hread (Or.inl rfl) (by simp) hless
  · exact hread (Or.inr rfl) (by simp) hdotLess

lemma joinTypeNames_eq (h : 2 ≤ names.length) :
    joinTypeNames names = joined "|" (names.map parenthesized) := by
  rcases names with _ | ⟨first, _ | ⟨second, names⟩⟩
  · simp at h
  · simp at h
  · rfl

/-- The names that a comment lists are read as alternatives. -/
lemma exists_alternatives (hne : names ≠ []) (hplain : ∀ name ∈ names, Plain name) :
    ∃ ts cs, (joined "|" (names.map parenthesized)).toList = '(' :: cs ++ [')'] ∧
      tokens ('(' :: cs ++ [')']) = .ok (.punct .openParen :: ts) ∧
      Separated .bar (Postfix (Primary maxNesting)) (.punct .openParen :: ts) []
        (names.map fun name => typeOfExpression (some name)) := by
  induction names with
  | nil => exact absurd rfl hne
  | cons first names ih =>
    obtain ⟨hfirst, hnames⟩ := forall_mem_cons.mp hplain
    obtain ⟨ts, htokens, hinner, -⟩ := hfirst.inner
    cases names with
    | nil =>
      refine ⟨ts ++ [.punct .closeParen], first.toList, by simp [parenthesized, joined], ?_, ?_⟩
      · simpa using tokens_parenthesized htokens tokens_nil
      · exact .single (hinner.alternative (by decide))
    | cons second names =>
      obtain ⟨us, cs, hchars, hus, hothers⟩ := ih (by simp) hnames
      have hbar : tokens ('|' :: ('(' :: cs ++ [')'])) =
          .ok (.punct .bar :: .punct .openParen :: us) :=
        tokens_mark (fun _ => rfl) hus
      refine ⟨ts ++ .punct .closeParen :: .punct .bar :: .punct .openParen :: us,
        first.toList ++ ')' :: '|' :: '(' :: cs, ?_, ?_, ?_⟩
      · rw [joined, map_cons, map_cons, String.intercalate_cons_cons, ← map_cons,
          ← joined, String.toList_append, hchars]
        simp [parenthesized]
      · simpa using tokens_parenthesized htokens hbar
      · have hall : Separated .bar (Postfix (Primary maxNesting)) _ [] _ :=
          .cons (hinner.alternative (by simp [bracketPairs])) hothers
        simpa using hall

lemma readType_joinTypeNames (h : 2 ≤ names.length)
    (hplain : ∀ name ∈ names, Plain name) : readType (some (joinTypeNames names)) =
      ⟨.plain (.unionOf (names.map fun name => typeOfExpression (some name))), none⟩ := by
  obtain ⟨ts, cs, hchars, htokens, hlist⟩ :=
    exists_alternatives (ne_nil_of_length_pos (by omega)) hplain
  rw [joinTypeNames_eq h]
  exact readType_of_tokens hchars rfl rfl (hchars ▸ htokens)
    (expressionWithin_of_union (.intro hlist) (by simp [Unmarked]))

/-- **Types are read from text in parts.** Around a plain text, parentheses change nothing, and the
marks of an array make an array of its type. Plain texts that a comment lists are read as the union
of their types. -/
theorem readType_compositional : (∀ text, Plain text → readType (some ("Array<" ++ text ++ ">")) =
        ⟨.plain (.array (typeOfExpression (some text))), none⟩ ∧
      readType (some ("Array.<" ++ text ++ ">")) =
        ⟨.plain (.array (typeOfExpression (some text))), none⟩ ∧
      readType (some ("(" ++ text ++ ")[]")) =
        ⟨.plain (.array (typeOfExpression (some text))), none⟩ ∧
      readType (some ("(" ++ text ++ ")")) = ⟨.plain (typeOfExpression (some text)), none⟩) ∧
    ∀ names : List String, 2 ≤ names.length → (∀ name ∈ names, Plain name) →
      readType (some (joinTypeNames names)) =
        ⟨.plain (.unionOf (names.map fun name => typeOfExpression (some name))), none⟩ := by
  constructor
  · intro text h
    exact ⟨h.readType_arrayOf.1, h.readType_arrayOf.2, h.readType_brackets,
      h.readType_parenthesized⟩
  · intro names hlength hplain
    exact readType_joinTypeNames hlength hplain

/-- Types whose texts could run into what stands around them: a lone question mark, a module's path
with white space around it, and a function whose result is a record. -/
def awkwardNames : List String :=
  ["?", " module:a/b.C\t", "function(new: T, ...number): \x7bx: (A|null)[]\x7d"]

/-- The types that they are read as. -/
def awkwardTypes : List TypeNode :=
  [.any, .named "module:a/b.C", .function [⟨none, .named "number", false, true⟩]
      (some (.record [⟨"x", .array (.union [.named "A", .null]), false, none⟩])) none
        (some (.named "T"))]

theorem readType_awkwardNames :
    Plain " module:a/b.C\t" ∧
    readType (some "Array< module:a/b.C\t>") = ⟨.plain (.array (.named "module:a/b.C")), none⟩ ∧
    2 ≤ awkwardNames.length ∧ (∀ name ∈ awkwardNames, Plain name) ∧
    readType (some (joinTypeNames awkwardNames)) = ⟨.plain (.union awkwardTypes), none⟩ := by
  have hplain : ∀ name ∈ awkwardNames, Plain name := by
    have hall : awkwardNames.all (fun name => decide (Plain name)) = true := by decide +kernel
    intro name hname
    exact of_decide_eq_true (all_eq_true.mp hall name hname)
  have hmodule : Plain " module:a/b.C\t" := hplain _ (by simp [awkwardNames])
  have htype : typeOfExpression (some " module:a/b.C\t") =
    .named "module:a/b.C" := by decide +kernel
  have htypes : TypeNode.unionOf (awkwardNames.map fun name => typeOfExpression (some name)) =
      .union awkwardTypes := by decide +kernel
  refine ⟨hmodule, ?_, by decide, hplain, ?_⟩
  · rw [← htype]
    exact (readType_compositional.1 _ hmodule).1
  · rw [← htypes]
    exact readType_compositional.2 awkwardNames (by decide) hplain

end AmbientDecl

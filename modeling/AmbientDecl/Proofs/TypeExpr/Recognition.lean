import AmbientDecl.Proofs.TypeExpr.Grammar

/-!
# Reading a sentence

The reader of type expressions accepts exactly the sentences of the grammar.

**Recognition.** `Recognizes` ties a reader to a language: what it reads is a phrase, and it reads
every phrase that nothing goes on with. The second half needs the condition, since a name before `<`
or a function before `:` is only the front of a longer phrase. Two more facts about the first tokens
of a type let the reader tell at a glance what stands before it: what a type can start with
(`typeStarts`), and that a name before a colon is a label and not a type that goes on.

**Levels.** For each nonterminal there is a lemma in either direction over any reader that
recognizes primary types, and `recognizes_primary` ties the knot by induction on the levels of
nesting. A whole expression adds the markers around a type, which are taken one by one;
`expressionWithin` has the bound on nesting as a parameter.
-/

namespace AmbientDecl.TypeExpr

open Grammar List

variable {mark : Punct} {name : String} {optional variadic : Bool} {item : FunctionItem}
  {items : List FunctionItem} {f : RecordField TypeNode} {fs : List (RecordField TypeNode)}
  {nullable nullable' : Option Bool} {e : TypeExpression}

variable {reader : Reader} {P : Phrases TypeNode} {ts ps rest after : List Token} {t : TypeNode}

/-- Whether a mark follows that would go on with the type before it. -/
def goesOn : List Token → Bool
  | .punct .less :: _ | .punct .dotLess :: _ | .punct .openParen :: _ | .punct .colon :: _ => true
  | _ => false

/-- Whether something stands at the front that a type can start with. -/
def typeStarts : List Token → Bool
  | [] => false
  | .punct mark :: _ => startsType mark
  | _ :: _ => true

lemma atTypeEnd_of_typeStarts (h : typeStarts ts = true) : atTypeEnd ts = false := by
  unfold atTypeEnd
  split
  · simp [typeStarts] at h
  · rename_i mark _
    cases mark <;> simp_all [typeStarts, startsType, endsType]
  · rfl

lemma head?_of_typeStarts (h : typeStarts ts = true) (hmark : startsType mark = false) :
    ts.head? ≠ some (.punct mark) := by
  intro hhead
  obtain ⟨after, rfl⟩ := head?_eq_some_iff.mp hhead
  simp [typeStarts, hmark] at h

/-- A reader that knows a language of types. -/
structure Recognizes (reader : Reader) (P : Phrases TypeNode) : Prop where
  /-- What it reads is a phrase. -/
  sound : ∀ {ts t rest}, Yields (reader.read ts) t rest → ∃ ps, ts = ps ++ rest ∧ P ps rest t
  /-- It reads every phrase that nothing goes on with. -/
  complete : ∀ {ps after t}, P ps after t → goesOn after = false →
    Yields (reader.read (ps ++ after)) t after
  /-- What it reads starts as a type can. -/
  starts : ∀ {ts t rest}, Yields (reader.read ts) t rest → typeStarts ts = true
  /-- A name before a colon is a type that ends there. -/
  stops : ∀ {name ts t rest}, Yields (reader.read (.name name :: .punct .colon :: ts)) t rest →
    rest = .punct .colon :: ts
  /-- It can join all alternatives. -/
  unites : ∀ types, reader.unite types = .ok (.unionOf types)

/-! ## Lists

Alternatives, arguments and items are read by loops of one shape: `E` reads a member, and `R` goes
on behind a mark and leaves `stop`. -/

section Lists

variable {α : Type} {L : Phrases α} {E : List Token → α → List Token → Prop}
  {R : List Token → List α → Prop} {stop : List Token} {l : List α}
  (hloop : ∀ {ts l}, R ts l ↔ (∃ a, E ts a stop ∧ stop.head? ≠ some (.punct mark) ∧ l = [a]) ∨
    ∃ a mid, E ts a (.punct mark :: mid) ∧ ∃ l', R mid l' ∧ l = a :: l')

include hloop

lemma sound_separated (hsound : ∀ {ts a rest}, E ts a rest → ∃ ps, ts = ps ++ rest ∧ L ps rest a)
    (h : R ts l) : ∃ ps, ts = ps ++ stop ∧ Separated mark L ps stop l := by
  induction l generalizing ts with
  | nil => rcases hloop.mp h with ⟨_, _, _, hl⟩ | ⟨_, _, _, _, _, hl⟩ <;> simp at hl
  | cons a l ih =>
    rcases hloop.mp h with ⟨a, ha, _, hl⟩ | ⟨a, mid, ha, l', hmore, hl⟩
    · obtain ⟨rfl, rfl⟩ := List.cons.inj hl
      obtain ⟨ps, hts, hps⟩ := hsound ha
      exact ⟨ps, hts, .single hps⟩
    · obtain ⟨rfl, rfl⟩ := List.cons.inj hl
      obtain ⟨ps, rfl, hps⟩ := hsound ha
      obtain ⟨qs, rfl, hqs⟩ := ih hmore
      exact ⟨ps ++ .punct mark :: qs, by simp, .cons hps hqs⟩

lemma complete_separated (hcomplete : ∀ {ps after a}, L ps after a →
      (after = stop ∨ ∃ mid, after = .punct mark :: mid) → E (ps ++ after) a after)
    (hstop : stop.head? ≠ some (.punct mark)) (h : Separated mark L ps stop l) :
    R (ps ++ stop) l := by
  induction h with
  | single phrase => exact hloop.mpr (.inl ⟨_, hcomplete phrase (.inl rfl), hstop, rfl⟩)
  | cons phrase _ ih =>
    have hfirst := hcomplete phrase (.inr ⟨_, rfl⟩)
    rw [append_assoc, cons_append]
    exact hloop.mpr (.inr ⟨_, _, hfirst, _, ih hloop hcomplete hstop, rfl⟩)

end Lists

/-! ## Tokens

What the tokens alone decide, whatever language of types the reader knows. -/

lemma arrayMarks_bracketPairs (t : TypeNode) (pairs : Nat) (hafter : ¬ bracketPairs 1 <+: after) :
    arrayMarks t (bracketPairs pairs ++ after) = (TypeNode.array^[pairs] t, after) := by
  induction pairs generalizing t with
  | zero =>
    simp only [bracketPairs, nil_append, Function.iterate_zero, id_eq]
    unfold arrayMarks
    split
    · rename_i rest
      exact absurd ⟨rest, rfl⟩ hafter
    · rfl
  | succ n ih => rw [bracketPairs, cons_append, cons_append, arrayMarks, ih]; rfl

lemma exists_bracketPairs (t : TypeNode) (ts : List Token) :
    ∃ pairs, ts = bracketPairs pairs ++ (arrayMarks t ts).2 ∧
      (arrayMarks t ts).1 = TypeNode.array^[pairs] t ∧
        ¬ bracketPairs 1 <+: (arrayMarks t ts).2 := by
  fun_induction arrayMarks t ts with
  | case1 t rest ih =>
    obtain ⟨pairs, hts, ht, hall⟩ := ih
    exact ⟨pairs + 1, by rw [bracketPairs, cons_append, cons_append, ← hts], ht, hall⟩
  | case2 t ts hne =>
    refine ⟨0, rfl, rfl, ?_⟩
    rintro ⟨rest, hrest⟩
    exact hne rest hrest.symm

/-- The tokens that can stand behind an item, or behind its type. -/
def endsItem : List Token → Bool
  | .punct .comma :: _ | .punct .closeParen :: _ | .punct .equals :: _ => true
  | _ => false

lemma goesOn_of_endsItem (h : endsItem ts = true) : goesOn ts = false := by
  unfold endsItem at h
  split at h <;> first | rfl | simp at h

lemma head?_of_endsItem (h : endsItem ts = true)
    (hmark : mark ≠ .comma ∧ mark ≠ .closeParen ∧ mark ≠ .equals) :
    ts.head? ≠ some (.punct mark) := by
  intro hhead
  obtain ⟨rest, rfl⟩ := head?_eq_some_iff.mp hhead
  cases mark <;> simp_all [endsItem]

lemma endsItem_optionally (h : endsItem ts = true) :
    endsItem (optionally .equals optional ++ ts) = true := by
  cases optional
  · exact h
  · rfl

/-- Before a closing parenthesis there is an item without tokens. -/
lemma functionItem_closeParen
    (hread : Scans (functionItem reader (.punct .closeParen :: ts)) item rest) :
    rest = .punct .closeParen :: ts := by
  rw [functionItem_eq rfl] at hread
  obtain ⟨t, mid, htype, _, rfl⟩ := scans_parameter.mp hread
  rcases scans_parameterType.mp htype with ⟨_, _, rfl⟩ | ⟨hends, _⟩
  · rfl
  · simp [accept, atTypeEnd, endsType] at hends

def endsField : List Token → Bool
  | .punct .comma :: _ | .punct .semicolon :: _ | .punct .closeBrace :: _ => true
  | _ => false

lemma endsField_of_separates (h : Separates mark) : endsField (.punct mark :: ts) = true := by
  rcases h with rfl | rfl <;> rfl

lemma goesOn_of_endsField (h : endsField ts = true) : goesOn ts = false := by
  unfold endsField at h
  split at h <;> first | rfl | simp at h

lemma head?_of_endsField (h : endsField ts = true)
    (hmark : mark ≠ .comma ∧ mark ≠ .semicolon ∧ mark ≠ .closeBrace) :
    ts.head? ≠ some (.punct mark) := by
  intro hhead
  obtain ⟨rest, rfl⟩ := head?_eq_some_iff.mp hhead
  cases mark <;> simp_all [endsField]

lemma head?_of_field (hread : Yields (field reader ts) f rest) : ts.head? ≠ some (.punct mark) := by
  obtain ⟨name, mid, hname, _⟩ := yields_field.mp hread
  obtain ⟨key, rfl, hkey⟩ := yields_fieldName.mp hname
  cases hkey <;> simp

lemma term_bareName (P : Phrases TypeNode) (name : String) (after : List Token) :
    Term P [.name name] after (bareName name) := by
  unfold bareName
  split
  · rename_i htruth
    exact .truth htruth
  · rename_i htruth
    exact .name (not_or.mp htruth)

lemma nameGoesOn_of_goesOn (name : String) (h : goesOn ts = false) :
    nameGoesOn name ts = false := by
  unfold nameGoesOn
  split
  · rename_i mark _
    cases mark <;> simp_all [goesOn]
  · rfl

lemma complete_name (reader : Reader) (name : String) (hafter : goesOn after = false) :
    Yields (term reader ([.name name] ++ after)) (bareName name) after :=
  (yields_term_bareName (nameGoesOn_of_goesOn name hafter)).mpr ⟨rfl, rfl⟩

section Reading

variable (h : Recognizes reader P)

include h

lemma sound_suffixed (hread : Yields (suffixed reader ts) t rest) :
    ∃ ps, ts = ps ++ rest ∧ Postfix P ps rest t := by
  obtain ⟨s, mid, hread, hmarks⟩ := yields_suffixed.mp hread
  obtain ⟨ps, rfl, hps⟩ := h.sound hread
  obtain ⟨pairs, hmid, ht, hall⟩ := exists_bracketPairs s mid
  rw [hmarks] at hmid ht hall
  simp only at hmid ht hall
  subst hmid ht
  exact ⟨ps ++ bracketPairs pairs, by rw [append_assoc], .intro pairs hps hall⟩

lemma complete_suffixed (hps : Postfix P ps after t)
    (hafter : goesOn after = false) : Yields (suffixed reader (ps ++ after)) t after := by
  obtain ⟨pairs, head, all⟩ := hps
  have hbrackets : goesOn (bracketPairs pairs ++ after) = false := by
    cases pairs with
    | zero => exact hafter
    | succ n => rfl
  rw [append_assoc]
  exact yields_suffixed.mpr ⟨_, _, h.complete head hbrackets, arrayMarks_bracketPairs _ pairs all⟩

lemma starts_suffixed (hread : Yields (suffixed reader ts) t rest) : typeStarts ts = true := by
  obtain ⟨s, mid, hread, _⟩ := yields_suffixed.mp hread
  exact h.starts hread

lemma stops_suffixed (hread : Yields (suffixed reader (.name name :: .punct .colon :: ts)) t rest) :
    rest = .punct .colon :: ts := by
  obtain ⟨s, mid, hread, hmarks⟩ := yields_suffixed.mp hread
  rw [h.stops hread] at hmarks
  exact (Prod.mk.inj hmarks).2.symm

lemma sound_union (hread : Yields (union reader ts) t rest) :
    ∃ ps, ts = ps ++ rest ∧ Union P ps rest t := by
  obtain ⟨l, hlist, hunite⟩ := yields_union.mp hread
  obtain rfl := Except.ok.inj ((h.unites l).symm.trans hunite)
  obtain ⟨ps, hts, hps⟩ := sound_separated (E := fun ts t rest =>
    Yields (suffixed reader ts) t rest)
    (R := fun ts l => Yields (alternatives reader ts) l rest) yields_alternatives
      (sound_suffixed h) hlist
  exact ⟨ps, hts, .intro hps⟩

lemma complete_union (hps : Union P ps after t)
    (hafter : goesOn after = false) (hbar : after.head? ≠ some (.punct .bar)) :
    Yields (union reader (ps ++ after)) t after := by
  obtain ⟨list⟩ := hps
  refine yields_union.mpr ⟨_,
    complete_separated (E := fun ts t rest => Yields (suffixed reader ts) t rest)
    (R := fun ts l => Yields (alternatives reader ts) l after) yields_alternatives
    (fun phrase hend => ?_) hbar list, h.unites _⟩
  rcases hend with rfl | ⟨mid, rfl⟩
  · exact complete_suffixed h phrase hafter
  · exact complete_suffixed h phrase rfl

lemma starts_union (hread : Yields (union reader ts) t rest) : typeStarts ts = true := by
  obtain ⟨l, hread, _⟩ := yields_union.mp hread
  rcases yields_alternatives.mp hread with ⟨_, hs, _⟩ | ⟨_, _, hs, _⟩
  · exact starts_suffixed h hs
  · exact starts_suffixed h hs

lemma stops_union (hread : Yields (union reader (.name name :: .punct .colon :: ts)) t rest) :
    rest = .punct .colon :: ts := by
  obtain ⟨l, hread, _⟩ := yields_union.mp hread
  rcases yields_alternatives.mp hread with ⟨_, hs, _⟩ | ⟨_, _, hs, _⟩
  · exact stops_suffixed h hs
  · exact absurd (stops_suffixed h hs) (by simp)

lemma sound_arguments {args : TypeNode × List TypeNode}
    (hread : Yields (arguments reader ts) args rest) :
    ∃ ps, ts = ps ++ .punct .greater :: rest ∧
      Separated .comma (Union P) ps (.punct .greater :: rest) (args.1 :: args.2) :=
  sound_separated (E := fun ts t rest => Yields (union reader ts) t rest) yields_arguments
    (sound_union h)
    ⟨args, hread, rfl⟩

lemma complete_arguments {first : TypeNode} {others : List TypeNode}
    (hps : Separated .comma (Union P) ps (.punct .greater :: after) (first :: others)) :
    Yields (arguments reader (ps ++ .punct .greater :: after)) (first, others) after := by
  have hread := complete_separated (E := fun ts t rest => Yields (union reader ts) t rest)
    yields_arguments (fun phrase hend => ?_) (by simp) hps
  · obtain ⟨args, hread, hargs⟩ := hread
    obtain ⟨rfl, rfl⟩ := List.cons.inj hargs
    exact hread
  · rcases hend with rfl | ⟨mid, rfl⟩
    · exact complete_union h phrase rfl (by simp)
    · exact complete_union h phrase rfl (by simp)

lemma sound_parameterType (hread : Scans (parameterType reader ts) t rest) :
    ∃ ps, ts = ps ++ rest ∧ OptionalUnion P ps rest t := by
  rcases scans_parameterType.mp hread with ⟨_, rfl, rfl⟩ | ⟨_, hunion⟩
  · exact ⟨[], rfl, .omitted⟩
  · obtain ⟨ps, hts, hps⟩ := sound_union h hunion
    exact ⟨ps, hts, .given hps⟩

/-- Where an item ends behind its type, the type is read, and what is read starts neither with an
ellipsis nor with a name and a colon. -/
lemma complete_parameterType (hps : OptionalUnion P ps after t)
    (hafter : endsItem after = true) : Scans (parameterType reader (ps ++ after)) t after ∧
      (ps ++ after).head? ≠ some (.punct .ellipsis) ∧ isLabelled (ps ++ after) = false := by
  have hgoes := goesOn_of_endsItem hafter
  cases hps with
  | omitted =>
    have hends : atTypeEnd after = true := by
      unfold endsItem at hafter
      split at hafter <;> first | rfl | simp at hafter
    refine ⟨scans_parameterType.mpr (Or.inl ⟨hends, rfl, rfl⟩), ?_, ?_⟩
    · exact head?_of_endsItem hafter (by decide)
    · rw [nil_append]
      unfold isLabelled
      split
      · simp [endsItem] at hafter
      · rfl
  | given type =>
    have hunion := complete_union h type hgoes (head?_of_endsItem hafter (by decide))
    have hstarts := starts_union h hunion
    refine ⟨scans_parameterType.mpr (Or.inr ⟨atTypeEnd_of_typeStarts hstarts, hunion⟩), ?_, ?_⟩
    · exact head?_of_typeStarts hstarts rfl
    · by_contra hlabel
      unfold isLabelled at hlabel
      split at hlabel
      · rename_i name rest heq
        rw [heq] at hunion
        rw [stops_union h hunion] at hafter
        simp [endsItem] at hafter
      · simp at hlabel

lemma sound_parameter {name : Option String} (hthis : name ≠ some "this")
    (hnew : name ≠ some "new") (hread : Scans (parameter reader name ts) item rest) :
    ∃ ps, labelTokens name ++ ts = ps ++ rest ∧ Item P ps rest item := by
  obtain ⟨t, mid, htype, rfl, rfl⟩ := scans_parameter.mp hread
  obtain ⟨ps, hps, htype⟩ := sound_parameterType h htype
  rw [← optionally_accept .equals mid] at hps htype
  have hitem : Item P (labelTokens name ++ optionally .ellipsis (accept .ellipsis ts).1 ++ ps ++
      optionally .equals (accept .equals mid).1) _ _ := .param hthis hnew htype
  refine ⟨_, ?_, hitem⟩
  conv_lhs => rw [← optionally_accept .ellipsis ts, hps]
  simp only [append_assoc]

lemma complete_parameter {name : Option String}
    (htype : OptionalUnion P ps (optionally .equals optional ++ after) t)
    (hafter : endsItem after = true) (hequals : after.head? ≠ some (.punct .equals)) :
    Scans (parameter reader name
      (optionally .ellipsis variadic ++ (ps ++ (optionally .equals optional ++ after))))
      (.param ⟨name, t, optional, variadic⟩) after := by
  obtain ⟨hread, hellipsis, _⟩ := complete_parameterType h htype (endsItem_optionally hafter)
  refine scans_parameter.mpr ⟨t, optionally .equals optional ++ after, ?_, ?_, ?_⟩
  · rwa [accept_optionally hellipsis]
  · rw [accept_optionally hellipsis, accept_optionally hequals]
  · rw [accept_optionally hequals]

lemma sound_functionItem (hread : Scans (functionItem reader ts) item rest) :
    ∃ ps, ts = ps ++ rest ∧ Item P ps rest item := by
  by_cases hlabel : isLabelled ts = true
  · unfold isLabelled at hlabel
    split at hlabel
    · rename_i name ts
      rcases scans_functionItem_labelled.mp hread with
        ⟨rfl, t, hunion, rfl⟩ | ⟨rfl, t, hunion, rfl⟩ | ⟨hthis, hnew, hparam⟩
      · obtain ⟨ps, rfl, hps⟩ := sound_union h hunion
        exact ⟨_, rfl, .thisType hps⟩
      · obtain ⟨ps, rfl, hps⟩ := sound_union h hunion
        exact ⟨_, rfl, .constructs hps⟩
      · exact sound_parameter h (by simpa using hthis) (by simpa using hnew) hparam
    · simp at hlabel
  · rw [Bool.not_eq_true] at hlabel
    rw [functionItem_eq hlabel] at hread
    exact sound_parameter h (by simp) (by simp) hread

lemma complete_functionItem (hps : Item P ps after item)
    (hafter : endsItem after = true) (hequals : after.head? ≠ some (.punct .equals)) :
    Scans (functionItem reader (ps ++ after)) item after := by
  have hgoes := goesOn_of_endsItem hafter
  have hbar : after.head? ≠ some (.punct .bar) := head?_of_endsItem hafter (by decide)
  cases hps with
  | thisType type =>
    exact scans_functionItem_labelled.mpr (Or.inl ⟨rfl, _, complete_union h type hgoes hbar, rfl⟩)
  | constructs type =>
    exact scans_functionItem_labelled.mpr
      (Or.inr (Or.inl ⟨rfl, _, complete_union h type hgoes hbar, rfl⟩))
  | param hthis hnew type =>
    rename_i qs t name variadic optional
    have hparam : Scans (parameter reader name (optionally .ellipsis variadic ++
        (qs ++ (optionally .equals optional ++ after)))) _ after :=
      complete_parameter h type hafter hequals
    rw [append_assoc, append_assoc, append_assoc]
    cases name with
    | some name =>
      refine scans_functionItem_labelled.mpr (Or.inr (Or.inr ⟨?_, ?_, hparam⟩))
      · simpa using hthis
      · simpa using hnew
    | none =>
      have hlabel : isLabelled (optionally .ellipsis variadic ++
          (qs ++ (optionally .equals optional ++ after))) = false := by
        cases variadic with
        | true => rfl
        | false => exact (complete_parameterType h type (endsItem_optionally hafter)).2.2
      rw [labelTokens, nil_append, functionItem_eq hlabel]
      exact hparam

lemma sound_yieldsItems (hread : YieldsItems reader ts rest items) :
    ∃ ps, ts = ps ++ .punct .closeParen :: rest ∧
      Separated .comma (Item P) ps (.punct .closeParen :: rest) items :=
  sound_separated (E := fun ts item rest => Scans (functionItem reader ts) item rest)
    yieldsItems_iff (sound_functionItem h) hread

lemma complete_yieldsItems
    (hps : Separated .comma (Item P) ps (.punct .closeParen :: after) items) :
    YieldsItems reader (ps ++ .punct .closeParen :: after) after items := by
  refine complete_separated (E := fun ts item rest => Scans (functionItem reader ts) item rest)
    (R := fun ts items => YieldsItems reader ts after items) yieldsItems_iff
      (fun phrase hend => ?_) (by simp) hps
  rcases hend with rfl | ⟨mid, rfl⟩
  · exact complete_functionItem h phrase rfl (by simp)
  · exact complete_functionItem h phrase rfl (by simp)

lemma sound_functionItems (hread : Yields (functionItems reader ts) items rest) :
    ∃ ps, ts = ps ++ .punct .closeParen :: rest ∧
      Items P ps (.punct .closeParen :: rest) items := by
  rcases yields_functionItems.mp hread with ⟨rfl, rfl⟩ | ⟨hhead, hitems⟩
  · exact ⟨[], rfl, .none⟩
  · obtain ⟨ps, rfl, hps⟩ := sound_yieldsItems h hitems
    refine ⟨ps, rfl, .some hps ?_⟩
    rintro rfl
    exact hhead rfl

lemma head?_of_items
    (hps : Separated .comma (Item P) ps (.punct .closeParen :: after) items) (htokens : ps ≠ []) :
    (ps ++ .punct .closeParen :: after).head? ≠ some (.punct .closeParen) := by
  intro hhead
  obtain ⟨ts, hts⟩ := head?_eq_some_iff.mp hhead
  cases hps with
  | single phrase =>
    have hread := complete_functionItem h phrase rfl (by simp)
    rw [hts] at hread
    rw [← functionItem_closeParen hread] at hts
    exact htokens (by simpa using hts)
  | cons phrase _ =>
    have hread := complete_functionItem h phrase rfl (by simp)
    rw [append_assoc, cons_append] at hts
    rw [cons_append, hts] at hread
    exact absurd (functionItem_closeParen hread) (by simp)

lemma complete_functionItems (hps : Items P ps (.punct .closeParen :: after) items) :
    Yields (functionItems reader (ps ++ .punct .closeParen :: after)) items after := by
  cases hps with
  | none => exact yields_functionItems.mpr (Or.inl ⟨rfl, rfl⟩)
  | some list htokens =>
    exact yields_functionItems.mpr
      (.inr ⟨head?_of_items h list htokens, complete_yieldsItems h list⟩)

lemma sound_field (hread : Yields (field reader ts) f rest) :
    ∃ ps, ts = ps ++ rest ∧ Field P ps rest f := by
  obtain ⟨name, mid, hname, value, htype, rfl⟩ := yields_field.mp hread
  obtain ⟨key, rfl, hkey⟩ := yields_fieldName.mp hname
  have hmid := optionally_accept .question mid
  rcases scans_fieldType.mp htype with ⟨_, rfl, rfl⟩ | ⟨next, hnext, t, end', hunion, rfl, rfl⟩
  · refine ⟨_, ?_, .untyped hkey⟩
    rw [cons_append, hmid]
  · obtain ⟨ps, rfl, hps⟩ := sound_union h hunion
    rw [← optionally_accept .equals end'] at hps
    refine ⟨_, ?_, .typed hkey hps⟩
    conv_lhs => rw [← hmid, hnext, ← optionally_accept .equals end']
    simp only [append_assoc, cons_append]

lemma complete_field (hps : Field P ps after f)
    (hafter : endsField after = true) : Yields (field reader (ps ++ after)) f after := by
  have hcolon : after.head? ≠ some (.punct .colon) := head?_of_endsField hafter (by decide)
  have hquestion : after.head? ≠ some (.punct .question) := head?_of_endsField hafter (by decide)
  cases hps with
  | untyped hkey =>
    rw [cons_append]
    refine yields_field.mpr ⟨_, _, yields_fieldName.mpr ⟨_, rfl, hkey⟩, (.any, _), ?_, rfl⟩
    rw [accept_optionally hquestion]
    exact scans_fieldType.mpr (Or.inl ⟨hcolon, rfl, rfl⟩)
  | typed hkey type =>
    rename_i qs key name t question optional
    have hequals : after.head? ≠ some (.punct .equals) := head?_of_endsField hafter (by decide)
    have hgoes : goesOn (optionally .equals optional ++ after) = false := by
      cases optional with
      | true => rfl
      | false => exact goesOn_of_endsField hafter
    have hbar : (optionally .equals optional ++ after).head? ≠ some (.punct .bar) := by
      cases optional with
      | true => simp [optionally]
      | false => exact head?_of_endsField hafter (by decide)
    have hunion := complete_union h type hgoes hbar
    rw [cons_append, append_assoc, cons_append, append_assoc, cons_append]
    refine yields_field.mpr ⟨_, _, yields_fieldName.mpr ⟨_, rfl, hkey⟩,
      (t, optional || question), ?_, rfl⟩
    rw [accept_optionally (by simp)]
    refine scans_fieldType.mpr (Or.inr ⟨_, rfl, _, _, hunion, ?_, ?_⟩)
    · rw [accept_optionally hequals]
    · rw [accept_optionally hequals]

/-- The fields from one on, up to the closing brace. -/
lemma sound_moreFields {mid : List Token}
    (hfield : Yields (field reader ts) f mid) (hmore : Yields (moreFields reader mid) fs rest) :
    ∃ ps, ts = ps ++ .punct .closeBrace :: rest ∧
      Fields P ps (.punct .closeBrace :: rest) (f :: fs) := by
  induction fs generalizing ts f mid with
  | nil =>
    obtain ⟨ps, rfl, hps⟩ := sound_field h hfield
    rcases yields_moreFields.mp hmore with ⟨rfl, _⟩ | ⟨mark, hmark, rfl, _⟩ | ⟨_, _, _, _, _, _,
      _, _, _, _, hfs⟩
    · exact ⟨ps, rfl, .single hps⟩
    · exact ⟨ps ++ [.punct mark], by simp, .trailing hmark hps⟩
    · simp at hfs
  | cons second fs ih =>
    obtain ⟨ps, rfl, hps⟩ := sound_field h hfield
    rcases yields_moreFields.mp hmore with
      ⟨_, hfs⟩ | ⟨_, _, _, hfs⟩ | ⟨mark, next, hmark, rfl, _, _, _, hsecond, _, hmore, hfs⟩
    · simp at hfs
    · simp at hfs
    · obtain ⟨rfl, rfl⟩ := List.cons.inj hfs
      obtain ⟨qs, rfl, hqs⟩ := ih hsecond hmore
      exact ⟨ps ++ .punct mark :: qs, by simp, .cons hmark hps hqs⟩

lemma complete_moreFields (hps : Fields P ps (.punct .closeBrace :: after) fs) :
    ∃ f mid, Yields (field reader (ps ++ .punct .closeBrace :: after)) f mid ∧
      ∃ fs', Yields (moreFields reader mid) fs' after ∧ fs = f :: fs' := by
  generalize hrest : Token.punct .closeBrace :: after = rest at hps
  induction hps with
  | single field =>
    subst hrest
    refine ⟨_, _, complete_field h field rfl, [], ?_, rfl⟩
    exact yields_moreFields.mpr (Or.inl ⟨rfl, rfl⟩)
  | trailing hmark field =>
    subst hrest
    rw [append_assoc]
    refine ⟨_, _, complete_field h field (endsField_of_separates hmark), [], ?_, rfl⟩
    exact yields_moreFields.mpr (Or.inr (Or.inl ⟨_, hmark, rfl, rfl⟩))
  | cons hmark field _ ih =>
    subst hrest
    obtain ⟨second, mid, hsecond, hmore⟩ := ih rfl
    have hfirst := complete_field h field (endsField_of_separates hmark)
    rw [append_assoc, cons_append]
    refine ⟨_, _, hfirst, _, ?_, rfl⟩
    exact yields_moreFields.mpr (.inr (.inr
      ⟨_, _, hmark, rfl, head?_of_field hsecond, _, _, hsecond, hmore⟩))

lemma complete_fields (hps : Fields P ps (.punct .closeBrace :: after) fs) :
    Yields (fields reader (ps ++ .punct .closeBrace :: after)) fs after := by
  obtain ⟨f, mid, hfirst, hmore⟩ := complete_moreFields h hps
  exact yields_fields.mpr (.inr ⟨head?_of_field hfirst, _, _, hfirst, hmore⟩)

lemma sound_marked (hread : Yields (term reader (.punct mark :: ts)) t rest) :
    ∃ ps, .punct mark :: ts = ps ++ rest ∧ Term P ps rest t := by
  cases hmark : startsType mark with
  | false => exact absurd hread (not_yields_term hmark)
  | true =>
    cases mark <;> simp [startsType] at hmark
    case openParen =>
      obtain ⟨ps, rfl, hps⟩ := sound_union h (yields_term_openParen.mp hread)
      exact ⟨_, by simp, .parenthesized hps⟩
    case openBrace =>
      obtain ⟨fs, hfields, rfl⟩ := yields_term_openBrace.mp hread
      rcases yields_fields.mp hfields with ⟨rfl, rfl⟩ | ⟨_, f, mid, hfirst, fs, hmore, rfl⟩
      · exact ⟨_, rfl, .emptyRecord⟩
      · obtain ⟨ps, rfl, hps⟩ := sound_moreFields h hfirst hmore
        exact ⟨_, by simp, .record hps⟩
    case star =>
      obtain ⟨rfl, rfl⟩ := yields_term_star.mp hread
      exact ⟨_, rfl, .star⟩
    case question =>
      rcases yields_term_question.mp hread with ⟨hends, rfl, rfl⟩ | ⟨_, s, hs, hunite⟩
      · exact ⟨_, rfl, .unknown hends⟩
      · obtain rfl := Except.ok.inj ((h.unites _).symm.trans hunite)
        obtain ⟨ps, rfl, hps⟩ := sound_suffixed h hs
        exact ⟨_, rfl, .nullable hps⟩
    case bang =>
      obtain ⟨ps, rfl, hps⟩ := sound_suffixed h (yields_term_bang.mp hread)
      exact ⟨_, rfl, .nonNull hps⟩

lemma sound_named (hread : Yields (term reader (.name name :: ts)) t rest) :
    ∃ ps, .name name :: ts = ps ++ rest ∧ Term P ps rest t := by
  cases hgoes : nameGoesOn name ts with
  | false =>
    obtain ⟨rfl, rfl⟩ := (yields_term_bareName hgoes).mp hread
    exact ⟨_, rfl, term_bareName P name _⟩
  | true =>
    unfold nameGoesOn at hgoes
    split at hgoes
    · rename_i mark ts
      simp only [Bool.or_eq_true, Bool.and_eq_true, decide_eq_true_eq] at hgoes
      rcases hgoes with ⟨rfl, rfl⟩ | ⟨⟨hmark, htrue⟩, hfalse⟩
      · rcases yields_function.mp (yields_term_function.mp hread) with
          ⟨items, hitems, _, rfl⟩ | ⟨items, mid, hitems, r, hreturns, rfl⟩
        · obtain ⟨ps, rfl, hps⟩ := sound_functionItems h hitems
          exact ⟨_, by simp, .function hps⟩
        · obtain ⟨ps, rfl, hps⟩ := sound_functionItems h hitems
          obtain ⟨qs, rfl, hqs⟩ := sound_suffixed h hreturns
          exact ⟨_, by simp, .functionReturning hps hqs⟩
      · obtain ⟨args, hargs, rfl⟩ := (yields_term_applied hmark ⟨htrue, hfalse⟩).mp hread
        obtain ⟨ps, rfl, hps⟩ := sound_arguments h hargs
        exact ⟨_, by simp, .applied ⟨htrue, hfalse⟩ hmark hps⟩
    · simp at hgoes

lemma sound_term (hread : Yields (term reader ts) t rest) :
    ∃ ps, ts = ps ++ rest ∧ Term P ps rest t := by
  cases ts with
  | nil => exact absurd hread yields_error
  | cons token ts =>
    cases token with
    | string text =>
      obtain ⟨rfl, rfl⟩ := yields_ok.mp hread
      exact ⟨_, rfl, .string text⟩
    | number text =>
      obtain ⟨rfl, rfl⟩ := yields_ok.mp hread
      exact ⟨_, rfl, .number text⟩
    | name name => exact sound_named h hread
    | punct mark => exact sound_marked h hread

lemma complete_term (hps : Term P ps after t)
    (hafter : goesOn after = false) : Yields (term reader (ps ++ after)) t after := by
  cases hps with
  | parenthesized type =>
    rw [cons_append, cons_append, append_assoc]
    exact yields_term_openParen.mpr (complete_union h type rfl (by simp))
  | emptyRecord =>
    exact yields_term_openBrace.mpr ⟨[], yields_fields.mpr (Or.inl ⟨rfl, rfl⟩), rfl⟩
  | record list =>
    rw [cons_append, cons_append, append_assoc]
    exact yields_term_openBrace.mpr ⟨_, complete_fields h list, rfl⟩
  | star => exact yields_term_star.mpr ⟨rfl, rfl⟩
  | unknown ends => exact yields_term_question.mpr (Or.inl ⟨ends, rfl, rfl⟩)
  | nullable type =>
    have hs := complete_suffixed h type hafter
    have hends := atTypeEnd_of_typeStarts (starts_suffixed h hs)
    exact yields_term_question.mpr (Or.inr ⟨hends, _, hs, h.unites _⟩)
  | nonNull type => exact yields_term_bang.mpr (complete_suffixed h type hafter)
  | string text => exact yields_ok.mpr ⟨rfl, rfl⟩
  | number text => exact yields_ok.mpr ⟨rfl, rfl⟩
  | @truth _ name isTruth =>
    have hread := complete_name reader name hafter
    rwa [bareName, if_pos isTruth] at hread
  | function list =>
    rw [cons_append, cons_append, append_assoc]
    refine yields_term_function.mpr
      (yields_function.mpr (Or.inl ⟨_, complete_functionItems h list, ?_, rfl⟩))
    intro hcolon
    obtain ⟨rest, rfl⟩ := head?_eq_some_iff.mp hcolon
    simp [goesOn] at hafter
  | functionReturning list returns =>
    have hreturns := complete_suffixed h returns hafter
    rw [cons_append, cons_append, append_assoc]
    exact yields_term_function.mpr (yields_function.mpr
      (Or.inr ⟨_, _, complete_functionItems h list, _, hreturns, rfl⟩))
  | @name _ name isName =>
    have hread := complete_name reader name hafter
    rwa [bareName, if_neg (not_or.mpr isName)] at hread
  | applied isName opens list =>
    rw [cons_append, cons_append, append_assoc]
    exact (yields_term_applied opens isName).mpr ⟨_, complete_arguments h list, rfl⟩

end Reading

lemma starts_term (hread : Yields (term reader ts) t rest) : typeStarts ts = true := by
  cases ts with
  | nil => exact absurd hread yields_error
  | cons token ts =>
    cases token with
    | punct mark =>
      by_contra hmark
      exact not_yields_term (by simpa [typeStarts] using hmark) hread
    | string _ => rfl
    | number _ => rfl
    | name _ => rfl

/-- **At every level the reader knows the language of that level.** -/
lemma recognizes_primary (levels : Nat) : Recognizes (primary levels) (Primary levels) := by
  induction levels with
  | zero =>
    exact ⟨fun h => absurd h yields_error, fun h => h.elim, fun h => absurd h yields_error,
      fun h => absurd h yields_error, fun _ => rfl⟩
  | succ n ih =>
    refine ⟨sound_term ih, complete_term ih, starts_term, ?_, fun _ => rfl⟩
    intro name ts t rest hread
    have hterm : Yields (term (primary n) (.name name :: .punct .colon :: ts)) t rest := hread
    have hgoes : nameGoesOn name (.punct .colon :: ts) = false := by simp [nameGoesOn]
    exact ((yields_term_bareName hgoes).mp hterm).2

lemma ofTextWithin_of_tokens {levels : Nat} {cs : List Char} (h : tokens cs = .ok ts) :
    ofTextWithin levels cs = expressionWithin levels ts := by
  rw [ofTextWithin, ofTextBy, h]
  rfl

/-- A text that is read is cut into tokens, which are read. -/
lemma exists_tokens_of_ofText {cs : List Char} (h : ofText cs = .ok e) :
    ∃ ts, tokens cs = .ok ts ∧ expression ts = .ok e := by
  cases htokens : tokens cs with
  | error stray => simp [ofText, ofTextWithin, ofTextBy, htokens] at h
  | ok ts => exact ⟨ts, rfl, (ofTextWithin_of_tokens htokens).symm.trans h⟩

lemma markedType_eq_ok {levels : Nat} :
    markedType (primary levels) variadic nullable ts = .ok (t, nullable', rest) ↔
      (atTypeEnd ts = true ∧ (variadic = true ∨ nullable = some true) ∧ nullable ≠ some false ∧
        t = .any ∧ nullable' = none ∧ rest = ts) ∨
      (atTypeEnd ts = false ∧ Yields (union (primary levels) ts) t rest ∧
        nullable' = nullable) := by
  unfold markedType
  by_cases hends : atTypeEnd ts = true
  · rcases nullable with _ | _ | _ <;> cases variadic <;> simp [hends, eq_comm]
  · simp only [hends, Bool.false_eq_true, ↓reduceIte, bind_eq_ok, pure, Except.pure,
      Except.ok.injEq, Prod.mk.injEq, false_and, true_and, false_or]
    constructor
    · rintro ⟨p, hp, rfl, rfl, rfl⟩
      exact ⟨⟨p, hp, rfl, rfl⟩, rfl⟩
    · rintro ⟨⟨p, hp, rfl, rfl⟩, rfl⟩
      exact ⟨p, hp, rfl, rfl, rfl⟩

lemma nullTokens_nullMarker (ts : List Token) :
    nullTokens (nullMarker ts).1 ++ (nullMarker ts).2 = ts := by
  unfold nullMarker
  split <;> rfl

lemma unmarked_nullMarker (h : (nullMarker ts).1 = none) : Unmarked (nullMarker ts).2 := by
  unfold nullMarker at h ⊢
  split at h
  · simp at h
  · simp at h
  · rename_i hquestion hbang
    exact ⟨head?_ne hquestion, head?_ne hbang⟩

lemma nullMarker_nullTokens (h : nullable = none → Unmarked after) :
    nullMarker (nullTokens nullable ++ after) = (nullable, after) := by
  rcases nullable with _ | _ | _
  · obtain ⟨hquestion, hbang⟩ := h rfl
    rw [nullTokens, nil_append]
    unfold nullMarker
    split
    · simp at hquestion
    · simp at hbang
    · rfl
  · rfl
  · rfl

lemma unmarked_append (hps : ps ≠ []) : Unmarked (ps ++ after) ↔ Unmarked ps := by
  obtain ⟨token, ps, rfl⟩ := exists_cons_of_ne_nil hps
  rfl

lemma ne_nil_of_union (hread : Yields (union reader (ps ++ rest)) t rest) : ps ≠ [] := by
  rintro rfl
  exact Nat.lt_irrefl _ hread.shorter

lemma expressionWithin_eq_ok {levels : Nat} : expressionWithin levels ts = .ok e ↔
    ∃ t nullable mid, markedType (primary levels) (accept .ellipsis ts).1
      (nullMarker (accept .ellipsis ts).2).1 (nullMarker (accept .ellipsis ts).2).2 =
        .ok (t, nullable, mid) ∧
        (accept .question (accept .equals mid).2).2 = [] ∧ e = ⟨t, (accept .equals mid).1,
            if (accept .question (accept .equals mid).2).1 then some true else nullable,
            (accept .ellipsis ts).1⟩ := by
  simp only [expressionWithin, expressionBy, bind_eq_ok]
  constructor
  · rintro ⟨⟨t, nullable, mid⟩, htype, h⟩
    refine ⟨t, nullable, mid, htype, ?_⟩
    split at h
    · simp [throw, throwThe, MonadExceptOf.throw] at h
    · rename_i hrest
      exact ⟨hrest, (Except.ok.inj h).symm⟩
  · rintro ⟨t, nullable, mid, htype, hrest, rfl⟩
    refine ⟨(t, nullable, mid), htype, ?_⟩
    simp only [hrest]
    rfl

lemma sound_expression (h : expression ts = .ok e) : Sentence ts e := by
  obtain ⟨t, nullable, mid, htype, hrest, rfl⟩ := (@expressionWithin_eq_ok e ts maxNesting).mp h
  clear h
  have hellipsis := optionally_accept .ellipsis ts
  have hmarker := nullTokens_nullMarker (accept .ellipsis ts).2
  have hunmarked := @unmarked_nullMarker (accept .ellipsis ts).2
  have hequals := optionally_accept .equals mid
  have hquestion := optionally_accept .question (accept .equals mid).2
  rw [hrest, append_nil] at hquestion
  rw [← hquestion] at hequals
  -- From here on only what the markers are matters, not how they were taken.
  generalize (accept .question (accept .equals mid).2).1 = again at *
  generalize (accept .equals mid).1 = optional at *
  generalize nullMarker (accept .ellipsis ts).2 = marker at *
  obtain ⟨first, start⟩ := marker
  simp only at hmarker hunmarked htype
  rw [← hmarker] at hellipsis
  generalize (accept .ellipsis ts).1 = variadic at *
  rw [← hellipsis]
  rcases markedType_eq_ok.mp htype with ⟨hends, hmarked, hbang, rfl, rfl, rfl⟩ | ⟨_, hunion, rfl⟩
  · subst hequals
    simpa only [append_assoc] using Sentence.untyped hends hmarked hbang
  · subst hequals
    obtain ⟨ps, rfl, hps⟩ := sound_union (recognizes_primary maxNesting) hunion
    have htokens := ne_nil_of_union hunion
    have hsentence : Sentence _ ⟨t, optional, if again then some true else nullable, variadic⟩ :=
      .typed hps fun hnone => (unmarked_append htokens).mp (hunmarked hnone)
    simpa only [append_assoc] using hsentence

/-- Behind the type of a whole expression nothing goes on with it. -/
lemma goesOn_trailing (optional again : Bool) :
    goesOn (optionally .equals optional ++ optionally .question again) = false := by
  cases optional <;> cases again <;> rfl

lemma head?_trailing (optional again : Bool) (hequals : mark ≠ .equals)
    (hquestion : mark ≠ .question) :
    (optionally .equals optional ++ optionally .question again).head? ≠ some (.punct mark) := by
  cases optional <;> cases again <;> simp [optionally, hequals.symm, hquestion.symm]

lemma accept_trailing (optional again : Bool) :
    accept .equals (optionally .equals optional ++ optionally .question again) =
        (optional, optionally .question again) ∧
      accept .question (optionally .question again) = (again, []) := by
  cases optional <;> cases again <;> exact ⟨rfl, rfl⟩

/-- The markers around a type are taken one by one. -/
lemma expression_of_markedType {again : Bool} (hellipsis : ts.head? ≠ some (.punct .ellipsis))
    (hunmarked : nullable = none → Unmarked ts)
    (htype : markedType (primary maxNesting) variadic nullable ts =
      .ok (t, nullable', optionally .equals optional ++ optionally .question again)) :
    expression (optionally .ellipsis variadic ++ (nullTokens nullable ++ ts)) =
      .ok ⟨t, optional, if again then some true else nullable', variadic⟩ := by
  have hvariadic : accept .ellipsis (optionally .ellipsis variadic ++ (nullTokens nullable ++ ts)) =
      (variadic, nullTokens nullable ++ ts) := by
    refine accept_optionally ?_
    rcases nullable with _ | _ | _
    · exact hellipsis
    · simp [nullTokens]
    · simp [nullTokens]
  obtain ⟨hoptional, hagain⟩ := accept_trailing optional again
  refine (@expressionWithin_eq_ok _ _ maxNesting).mpr
    ⟨t, nullable', optionally .equals optional ++ optionally .question again, ?_, ?_, ?_⟩
  · rw [hvariadic, nullMarker_nullTokens hunmarked]
    exact htype
  · rw [hoptional, hagain]
  · rw [hoptional, hagain, hvariadic]

lemma complete_expression (h : Sentence ts e) : expression ts = .ok e := by
  cases h with
  | @typed ps t nullable variadic optional again type unmarked =>
    have hunion := complete_union (recognizes_primary maxNesting) type
      (goesOn_trailing optional again)
      (head?_trailing optional again (by decide) (by decide))
    have hstarts := starts_union (recognizes_primary maxNesting) hunion
    have hends := atTypeEnd_of_typeStarts hstarts
    simp only [append_assoc]
    exact expression_of_markedType (head?_of_typeStarts hstarts rfl)
      (fun hnone => (unmarked_append (ne_nil_of_union hunion)).mpr (unmarked hnone))
      (markedType_eq_ok.mpr (Or.inr ⟨hends, hunion, rfl⟩))
  | @untyped nullable variadic optional again ends marked notBang =>
    have hunmarked : Unmarked (optionally .equals optional ++ optionally .question again) := by
      cases optional <;> cases again <;> simp_all [optionally, atTypeEnd, endsType, Unmarked]
    simp only [append_assoc]
    exact expression_of_markedType (head?_trailing optional again (by decide) (by decide))
      (fun _ => hunmarked) (markedType_eq_ok.mpr (Or.inl ⟨ends, marked, notBang, rfl, rfl, rfl⟩))

/-- **The reader accepts exactly the sentences of the grammar, and a sentence has one meaning.** -/
theorem expression_eq_ok_iff (ts : List Token) (e : TypeExpression) :
    (expression ts = .ok e ↔ Sentence ts e) ∧ (Sentence ts e → ∀ e', Sentence ts e' → e' = e) := by
  refine ⟨⟨sound_expression, complete_expression⟩, ?_⟩
  intro h e' h'
  exact Except.ok.inj ((complete_expression h').symm.trans (complete_expression h))

end AmbientDecl.TypeExpr

import AmbientDecl.Proofs.Identifier
import AmbientDecl.Proofs.TypeExpr.Union
import Mathlib.Data.List.TakeWhile

/-!
# Names in types

What the names in a type look like. Every name in a type that is read was a token, and tokens are
cut out of the text by the classes of their characters.

**Names.** `IsTypeName` is an identifier, identifiers joined by marks, or something that starts with
the mark of a module; the tokens for names are such (`isTypeName_of_tokens`).

**Types.** `TypeNode.Over` says that all names in a type have a property, and those of a type that
is read are names (`over_readType`).
-/

namespace AmbientDecl

open Text TypeExpr List TypeNode

/-- A character of identifiers that are joined by marks. -/
def PathChar (c : Char) : Prop := IdentChar c ∨ isPathMark c = true

/-- The name of a type as it can be written in an expression. -/
inductive IsTypeName : String → Prop
  | word {cs : List Char} (nonempty : cs ≠ []) (ident : ∀ c ∈ cs, IdentChar c) :
      IsTypeName (String.ofList cs)
  /-- A mark never ends a name. -/
  | path {cs rest : List Char} {mark first : Char} (nonempty : cs ≠ [])
      (ident : ∀ c ∈ cs, IdentChar c)
      (isMark : isPathMark mark = true) (isFirst : IdentChar first)
        (steps : ∀ c ∈ rest, PathChar c) :
      IsTypeName (String.ofList (cs ++ mark :: first :: rest))
  | module (rest : List Char) : IsTypeName (String.ofList (moduleMark ++ rest))

lemma isTypeName_of_word {word : String} (hne : word.toList ≠ [])
    (h : word.toList.all isIdentRest = true) :
    IsTypeName word := by
  have hname := IsTypeName.word hne (all_eq_true.mp h)
  rwa [String.ofList_toList] at hname

lemma identifier?_eq_some {cs word after : List Char} (h : identifier? cs = some (word, after)) :
    ∃ first rest, word = first :: rest ∧ ∀ c ∈ word, IdentChar c := by
  cases cs with
  | nil => simp [identifier?] at h
  | cons c rest =>
    simp only [identifier?, Option.ite_none_right_eq_some, Option.some.injEq, Prod.mk.injEq] at h
    obtain ⟨hstart, rfl, _⟩ := h
    refine ⟨_, _, rfl, forall_mem_cons.mpr ⟨identChar_of_isIdentStart hstart, ?_⟩⟩
    exact fun c hc => mem_takeWhile_imp hc

/-- Behind an identifier stands nothing, or a mark and a character of an identifier. -/
lemma pathSteps_cases (cs : List Char) : (∀ c ∈ (pathSteps cs).1, PathChar c) ∧
    ((pathSteps cs).1 = [] ∨ ∃ mark first rest, (pathSteps cs).1 = mark :: first :: rest ∧
      isPathMark mark = true ∧ IdentChar first) := by
  fun_induction pathSteps cs with
  | case1 => simp
  | case2 c rest hmark word after hword taken rest' htaken ih =>
    obtain ⟨first, others, rfl, hident⟩ := identifier?_eq_some hword
    rw [htaken] at ih
    refine ⟨?_, .inr ⟨c, first, others ++ taken, rfl, hmark, hident _ mem_cons_self⟩⟩
    intro d hd
    rcases mem_cons.mp hd with rfl | hd
    · exact .inr hmark
    · rcases mem_append.mp hd with hd | hd
      · exact .inl (hident d hd)
      · exact ih.1 d hd
  | case3 => simp
  | case4 => simp

lemma isTypeName_of_name? {cs taken after : List Char} (h : name? cs = some (taken, after)) :
    IsTypeName (String.ofList taken) := by
  unfold name? at h
  split at h
  · rename_i cut hmodule
    obtain rfl := Option.some.inj h
    unfold moduleName? at hmodule
    split at hmodule
    · simp only [Option.bind_eq_bind, Option.bind_eq_some_iff, Option.some.injEq, Prod.mk.injEq]
        at hmodule
      obtain ⟨⟨path, rest⟩, _, rfl, _⟩ := hmodule
      rw [append_assoc]
      exact .module _
    · cases hmodule
  · simp only [Option.bind_eq_bind, Option.bind_eq_some_iff, Option.some.injEq, Prod.mk.injEq] at h
    obtain ⟨⟨word, rest⟩, hword, rfl, _⟩ := h
    obtain ⟨first, others, rfl, hident⟩ := identifier?_eq_some hword
    obtain ⟨hsteps, hnone | ⟨mark, next, more, hmore, hmark, hnext⟩⟩ := pathSteps_cases rest
    · simp only [hnone, append_nil]
      exact .word (by simp) hident
    · simp only [hmore] at hsteps ⊢
      exact .path (by simp) hident hmark hnext fun c hc =>
        hsteps c (mem_cons_of_mem _ (mem_cons_of_mem _ hc))

lemma isTypeName_of_lexemeCut? {cs rest : List Char} {name : String}
    (h : lexemeCut? cs = some (.token (.name name), rest)) : IsTypeName name := by
  unfold lexemeCut? at h
  split at h
  · simp at h
  split at h
  · simp at h
  split at h
  · simp at h
  split at h
  · rename_i taken _ hname
    simp only [Option.some.injEq, Prod.mk.injEq, Lexeme.token.injEq, Token.name.injEq] at h
    exact h.1 ▸ isTypeName_of_name? hname
  split at h <;> simp at h

lemma isTypeName_of_lexemes {cs : List Char} {ls : List Lexeme} (h : lexemes cs = .ok ls) :
    ∀ name, .token (.name name) ∈ ls → IsTypeName name := by
  fun_induction lexemes cs generalizing ls with
  | case1 => simp_all
  | case2 => simp at h
  | case3 c rest p hp ih =>
    obtain ⟨⟨l, after⟩, hcut, hrest⟩ := Option.bind_eq_some_iff.mp hp
    have hvalue : p.value = l := by
      simp only [Parsed.ofRest?, Option.dite_none_right_eq_some, Option.some.injEq] at hrest
      obtain ⟨_, rfl⟩ := hrest
      rfl
    cases hmore : lexemes p.rest with
    | error stray => simp [hmore, bind, Except.bind] at h
    | ok more =>
      simp only [hmore, bind, Except.bind, pure, Except.pure, Except.ok.injEq] at h
      subst h
      intro name hname
      rcases mem_cons.mp hname with hfirst | hname
      · rw [← hvalue, ← hfirst] at hcut
        exact isTypeName_of_lexemeCut? hcut
      · exact ih hmore name hname

/-- **The tokens for names are names.** -/
lemma isTypeName_of_tokens {cs : List Char} {ts : List Token} (h : tokens cs = .ok ts) :
    ∀ k ∈ ts, ∀ name, k = .name name → IsTypeName name := by
  obtain ⟨ls, hls, rfl⟩ := tokens_eq_ok.mp h
  rintro k hk name rfl
  obtain ⟨l, hl, hname⟩ := mem_filterMap.mp hk
  cases l with
  | blank => simp [Lexeme.token?] at hname
  | token k =>
    obtain rfl : k = .name name := by simpa [Lexeme.token?] using hname
    exact isTypeName_of_lexemes hls name hl

/-- All names in a type have a property. -/
inductive TypeNode.Over (P : String → Prop) : TypeNode → Prop
  | named {name : String} (isName : P name) : Over P (.named name)
  | union {members : List TypeNode} (members_over : ∀ t ∈ members, Over P t) :
      Over P (.union members)
  | array {element : TypeNode} (element_over : Over P element) : Over P (.array element)
  | generic {base : String} {args : List TypeNode} (isName : P base)
      (args_over : ∀ t ∈ args, Over P t) :
      Over P (.generic base args)
  | function {params : List (FunctionParam TypeNode)}
      {returns thisType constructs : Option TypeNode}
      (params_over : ∀ p ∈ params, Over P p.type) (returns_over : ∀ t ∈ returns, Over P t)
      (this_over : ∀ t ∈ thisType, Over P t) (constructs_over : ∀ t ∈ constructs, Over P t) :
      Over P (.function params returns thisType constructs)
  | record {fields : List (RecordField TypeNode)} (fields_over : ∀ f ∈ fields, Over P f.type) :
      Over P (.record fields)
  | literal (text : String) : Over P (.literal text)
  | unreadable (raw : String) : Over P (.unreadable raw)

namespace TypeNode

variable {P : String → Prop}

/-- Every type is over a property that all names have. -/
lemma over_of_forall (h : ∀ name, P name) : ∀ t : TypeNode, t.Over P
  | .named name => .named (h name)
  | .union members => .union fun t _ => over_of_forall h t
  | .array element => .array (over_of_forall h element)
  | .generic base args => .generic (h base) fun t _ => over_of_forall h t
  | .function params returns thisType constructs =>
    .function (fun p _ => over_of_forall h p.type) (fun t _ => over_of_forall h t)
      (fun t _ => over_of_forall h t) fun t _ => over_of_forall h t
  | .record fields => .record fun f _ => over_of_forall h f.type
  | .literal text => .literal text
  | .unreadable raw => .unreadable raw
decreasing_by
  all_goals try decreasing_tactic
  -- the type in a parameter or in a field is smaller than that
  · have hlt := List.sizeOf_lt_of_mem ‹p ∈ params›
    cases p
    simp at hlt ⊢
    omega
  · have hlt := List.sizeOf_lt_of_mem ‹f ∈ fields›
    cases f
    simp at hlt ⊢
    omega

/-- The words of the library are names. -/
lemma isTypeName_canonicalName {name : String} (h : IsTypeName name) :
    IsTypeName (canonicalName name) := by
  have htable : ∀ word ∈ spellings.map Prod.snd, word.toList ≠ [] ∧
      word.toList.all isIdentRest = true := by
    decide
  cases hlookup : spellings.lookup name with
  | none => simpa [canonicalName, hlookup] using h
  | some word =>
    obtain ⟨front, back, hspellings, _⟩ := lookup_eq_some_iff.mp hlookup
    obtain ⟨hne, hident⟩ := htable word (by simp [hspellings])
    simpa [canonicalName, hlookup] using isTypeName_of_word hne hident

/-- All alternatives of a type are over what the type is over. -/
lemma Over.of_mem_alternatives {t a : TypeNode} (h : t.Over P) (ha : a ∈ t.alternatives) :
    a.Over P := by
  cases h with
  | union members_over => exact members_over a ha
  | _ =>
    obtain rfl := mem_singleton.mp ha
    constructor <;> assumption

lemma over_unionOf {l : List TypeNode} (h : ∀ t ∈ l, t.Over P) : (unionOf l).Over P := by
  have hpart : ∀ a ∈ (l.flatMap alternatives).eraseDups, a.Over P := by
    intro a ha
    obtain ⟨t, ht, hat⟩ := mem_flatMap.mp (mem_eraseDups.mp ha)
    exact (h t ht).of_mem_alternatives hat
  unfold unionOf
  split
  · rename_i a ha
    exact hpart a (ha ▸ mem_singleton_self a)
  · exact .union hpart

lemma over_any : any.Over IsTypeName := .named (isTypeName_of_word (by decide) (by decide))

lemma over_null : null.Over IsTypeName := .named (isTypeName_of_word (by decide) (by decide))

end TypeNode

/-- The functions that build types out of names build them over names. -/
lemma TypeExpr.closed_over : Closed (fun k => ∀ name, k = .name name → IsTypeName name)
    (TypeNode.Over IsTypeName) where
  any := over_any
  null := over_null
  literal := .literal
  name name hname _ := by
    unfold ofName
    dsimp only
    split
    · exact .array over_any
    · exact .named (isTypeName_canonicalName (hname name rfl))
  applied name first others hname hfirst hothers := by
    have hobject : IsTypeName "Object" := isTypeName_of_word (by decide) (by decide)
    have hstring : IsTypeName "string" := isTypeName_of_word (by decide) (by decide)
    unfold applied
    dsimp only
    split
    · exact .array hfirst
    · split
      · cases others with
        | nil => exact .generic hobject (by simpa using ⟨.named hstring, hfirst⟩)
        | cons second _ =>
          exact .generic hobject (by simpa using ⟨hfirst, hothers second mem_cons_self⟩)
      · exact .generic (isTypeName_canonicalName (hname name rfl))
          (forall_mem_cons.mpr ⟨hfirst, hothers⟩)
  array _ h := .array h
  union _ _ h := over_unionOf h
  record _ h := .record h
  function _ _ _ _ hparams hreturns hthis hconstructs :=
    .function hparams hreturns hthis hconstructs

/-- **All names in a type that is read are names.** -/
lemma over_readType (expression : Option String) :
    (readType expression).expression.type.Over IsTypeName := by
  unfold readType
  dsimp only
  split
  · exact over_any
  · split
    · rename_i e hread
      obtain ⟨ts, htokens, hts⟩ := exists_tokens_of_ofText hread
      exact closed_over.expression hts (isTypeName_of_tokens htokens)
    · exact .unreadable _

end AmbientDecl

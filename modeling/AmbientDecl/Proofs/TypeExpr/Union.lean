import AmbientDecl.Proofs.TypeExpr.Closure
import Mathlib.Data.List.Basic
import Mathlib.Data.List.Induction

/-!
# Unions and null

Unions are put together piece by piece, and how the pieces are grouped does not matter.

**Repetitions.** What is left of a list without repetitions stands in the order in which it first
comes (`pairwise_idxOf_eraseDups`). For two lists in a row it depends only on what is left of each
(`eraseDups_append_filter`).

**Grouping.** The alternatives of a union are those of its types if these hold no unions of unions
(`alternatives_unionOf`). So a union among the types of a union can be replaced by its own types
(`unionOf_nested`), and a type whose alternatives have come before adds nothing (`unionOf_readd`).

A question mark before a type without markers says that the value may be null, and changes nothing
else about the type.

**Normal form.** `TypeNode.Flat` is what unions are in every type that is read: no alternative is a
union, and none is repeated (`closed_flat`). Adding null to such a type changes it exactly if null
is no alternative yet (`TypeNode.Flat.orNull_eq_iff`).

**Reading.** The marker is a token of its own, and white space around the type does not matter, so
the type behind it is read as it is without it (`readType_question`).
-/

namespace AmbientDecl

open List

section Dups

variable {α : Type} [DecidableEq α]

lemma eraseDups_concat (l : List α) (a : α) :
    (l ++ [a]).eraseDups = if a ∈ l then l.eraseDups else l.eraseDups ++ [a] := by
  rw [eraseDups_append, removeAll]
  by_cases h : a ∈ l <;> simp [h, eraseDups_cons]

lemma eraseDups_filter (p : α → Bool) (l : List α) :
    (l.filter p).eraseDups = l.eraseDups.filter p := by
  induction l using reverseRecOn with
  | nil => rfl
  | append_singleton l a ih =>
    rw [filter_append, eraseDups_concat]
    by_cases hp : p a = true
    · have hkept : [a].filter p = [a] := by simp [hp]
      rw [hkept, eraseDups_concat, ih]
      simp only [mem_filter, hp, and_true]
      split
      · rfl
      · rw [filter_append, hkept]
    · split <;> simp [hp, ih]

lemma eraseDups_append_filter (a b : List α) :
    (a ++ b).eraseDups = a.eraseDups ++ b.eraseDups.filter (· ∉ a.eraseDups) := by
  rw [eraseDups_append, removeAll, eraseDups_filter]
  simp

lemma eraseDups_of_nodup {l : List α} (h : l.Nodup) : l.eraseDups = l := by
  induction l using reverseRecOn with
  | nil => rfl
  | append_singleton l a ih =>
    obtain ⟨hl, _, hne⟩ := nodup_append.mp h
    rw [eraseDups_concat, if_neg fun ha => hne a ha a mem_cons_self rfl, ih hl]

/-- What is left of a list comes in the order of first occurrences. -/
lemma pairwise_idxOf_eraseDups (l : List α) :
    l.eraseDups.Pairwise fun a b => l.idxOf a < l.idxOf b := by
  induction l using reverseRecOn with
  | nil => exact .nil
  | append_singleton l a ih =>
    have hkept : l.eraseDups.Pairwise fun b c => (l ++ [a]).idxOf b < (l ++ [a]).idxOf c := by
      refine ih.imp_of_mem fun hb hc h => ?_
      rw [mem_eraseDups] at hb hc
      rwa [idxOf_append_of_mem hb, idxOf_append_of_mem hc]
    rw [eraseDups_concat]
    split
    · exact hkept
    · rename_i hnew
      refine pairwise_append.mpr ⟨hkept, pairwise_singleton _ _, fun b hb c hc => ?_⟩
      rw [mem_eraseDups] at hb
      rw [mem_singleton.mp hc, idxOf_append_of_mem hb, idxOf_append_of_notMem hnew]
      exact Nat.lt_add_right _ (idxOf_lt_length_of_mem hb)

lemma nodup_eraseDups (l : List α) : l.eraseDups.Nodup := by
  refine (pairwise_idxOf_eraseDups l).imp ?_
  rintro a _ h rfl
  exact Nat.lt_irrefl _ h

end Dups

namespace TypeNode

variable {t u : TypeNode} {l m : List TypeNode}

/-- The alternatives of the type are no unions. -/
def Single (t : TypeNode) : Prop := ∀ a ∈ t.alternatives, a.alternatives = [a]

/-- The alternatives of a union are those of its types. -/
lemma alternatives_unionOf (h : ∀ t ∈ l, t.Single) :
    (unionOf l).alternatives = (l.flatMap alternatives).eraseDups := by
  have hsingle : ∀ a ∈ (l.flatMap alternatives).eraseDups, a.alternatives = [a] := by
    intro a ha
    obtain ⟨t, ht, hat⟩ := mem_flatMap.mp (mem_eraseDups.mp ha)
    exact h t ht a hat
  rw [unionOf]
  split
  · rename_i a ha
    exact hsingle a (ha ▸ mem_singleton_self a) |>.trans ha.symm
  · rfl

lemma unionOf_congr (h : (l.flatMap alternatives).eraseDups = (m.flatMap alternatives).eraseDups) :
    unionOf l = unionOf m := by
  rw [unionOf, h, ← unionOf]

/-- **A union among the types of a union can be replaced by its own types.** -/
lemma unionOf_nested (h : ∀ t ∈ m, t.Single) (l r : List TypeNode) :
    unionOf (l ++ unionOf m :: r) = unionOf (l ++ (m ++ r)) := by
  have htwice : (m.flatMap alternatives).eraseDups.eraseDups = (m.flatMap alternatives).eraseDups :=
    eraseDups_of_nodup (nodup_eraseDups _)
  apply unionOf_congr
  rw [flatMap_append, flatMap_append, flatMap_cons, flatMap_append,
    alternatives_unionOf h, eraseDups_append_filter, eraseDups_append_filter (eraseDups _), htwice,
    ← eraseDups_append_filter (m.flatMap alternatives), ← eraseDups_append_filter]

/-- A type whose alternatives have come before adds nothing. -/
lemma unionOf_readd (h : ∀ a ∈ t.alternatives, ∃ s ∈ l, a ∈ s.alternatives) (r : List TypeNode) :
    unionOf (l ++ t :: r) = unionOf (l ++ r) := by
  have hnone : t.alternatives.eraseDups.filter (· ∉ (l.flatMap alternatives).eraseDups) = [] := by
    simpa using h
  apply unionOf_congr
  rw [flatMap_append, flatMap_append, flatMap_cons, ← append_assoc,
    eraseDups_append_filter, eraseDups_append_filter _ t.alternatives, hnone, append_nil,
    ← eraseDups_append_filter]

lemma unionOf_map_unionOf {ls : List (List TypeNode)} (h : ∀ l ∈ ls, ∀ t ∈ l, t.Single) :
    ∀ l, unionOf (l ++ ls.map unionOf) = unionOf (l ++ ls.flatten) := by
  induction ls with
  | nil => intro l; rfl
  | cons m rest ih =>
    obtain ⟨hm, hrest⟩ := forall_mem_cons.mp h
    intro l
    rw [map_cons, unionOf_nested hm, ← append_assoc, ih hrest, flatten_cons, append_assoc]

/-- No member of the type is a union if the type is one. -/
def Shallow (t : TypeNode) : Prop :=
  ∀ members, t = .union members → ∀ a ∈ members, ∀ inner, a ≠ .union inner

lemma Shallow.single (h : t.Shallow) : t.Single := by
  intro a ha
  cases t with
  | union members =>
    cases a with
    | union inner => exact absurd rfl (h members rfl _ ha inner)
    | _ => rfl
  | _ =>
    obtain rfl := mem_singleton.mp ha
    rfl

/-- The type has the alternatives of others, in the order in which they first come there; a single
alternative is the type itself. -/
structure Collects (u : TypeNode) (l : List TypeNode) : Prop where
  mem : ∀ a, a ∈ u.alternatives ↔ ∃ t ∈ l, a ∈ t.alternatives
  order : u.alternatives.Pairwise fun a b =>
    (l.flatMap alternatives).idxOf a < (l.flatMap alternatives).idxOf b
  unwrapped : ∀ a, u ≠ .union [a]

lemma collects_unionOf (h : ∀ t ∈ l, t.Single) : (unionOf l).Collects l where
  mem := by simp [alternatives_unionOf h]
  order := by
    rw [alternatives_unionOf h]
    exact pairwise_idxOf_eraseDups _
  unwrapped := by
    intro a hunion
    have hall : [a] = (l.flatMap alternatives).eraseDups := by
      rw [← alternatives_unionOf h, hunion]
      rfl
    rw [unionOf, ← hall] at hunion
    have hsize := congrArg sizeOf hunion
    simp only [TypeNode.union.sizeOf_spec, List.cons.sizeOf_spec] at hsize
    omega

/-- **Unions can be grouped at will.** Making unions of groups first changes nothing, so it does not
matter how often or in which order pieces are put together. -/
theorem unionOf_laws :
    (∀ ls : List (List TypeNode), (∀ l ∈ ls, ∀ t ∈ l, t.Shallow) →
      unionOf ls.flatten = unionOf (ls.map unionOf)) ∧
    (∀ l : List TypeNode, (∀ t ∈ l, t.Shallow) →
      unionOf [unionOf l] = unionOf l ∧ (unionOf l).Collects l) ∧
    (∀ a b c : TypeNode, a.Shallow → b.Shallow → c.Shallow →
      unionOf [unionOf [a, b], c] = unionOf [a, unionOf [b, c]]) ∧
    ∀ (l r : List TypeNode) (t : TypeNode), (∀ a ∈ t.alternatives, ∃ s ∈ l, a ∈ s.alternatives) →
      unionOf (l ++ t :: r) = unionOf (l ++ r) := by
  refine ⟨?_, ?_, ?_, fun l r t h => unionOf_readd h r⟩
  · intro ls h
    exact (unionOf_map_unionOf (fun l hl t ht => (h l hl t ht).single) []).symm
  · intro l h
    have hsingle : ∀ t ∈ l, t.Single := fun t ht => (h t ht).single
    exact ⟨by simpa using unionOf_nested hsingle [] [], collects_unionOf hsingle⟩
  · intro a b c ha hb hc
    have hleft : ∀ t ∈ [a, b], t.Single := by simp [ha.single, hb.single]
    have hright : ∀ t ∈ [b, c], t.Single := by simp [hb.single, hc.single]
    exact (unionOf_nested hleft [] [c]).trans (unionOf_nested hright [a] []).symm

/-- Groups that share types, one of them with a union in it. -/
def overlappingGroups : List (List TypeNode) := [[string, .union [string, null]], [null, any]]

theorem unionOf_overlappingGroups : (∀ l ∈ overlappingGroups, ∀ t ∈ l, t.Shallow) ∧
    overlappingGroups.map unionOf = [.union [string, null], .union [null, any]] ∧
    unionOf overlappingGroups.flatten = unionOf (overlappingGroups.map unionOf) := by
  have hshallow : ∀ l ∈ overlappingGroups, ∀ t ∈ l, t.Shallow := by
    simp [overlappingGroups, Shallow, string, null, any]
  exact ⟨hshallow, by decide +kernel, unionOf_laws.1 _ hshallow⟩

end TypeNode

open Text List TypeNode

variable {ts : List Token} {e : TypeExpression} {cs : List Char}

namespace TypeNode

variable {t : TypeNode} {l : List TypeNode}

/-- A type whose alternatives are no unions and differ; a union of one type is that type. -/
structure Flat (t : TypeNode) : Prop where
  single : ∀ a ∈ t.alternatives, a.alternatives = [a]
  joined : unionOf [t] = t

lemma flat_of_alternatives (h : t.alternatives = [t]) : t.Flat where
  single := by
    intro a ha
    rw [h, mem_singleton] at ha
    rw [ha, h]
  joined := by simp [unionOf, h, eraseDups_cons]

/-- **A union of flat types is flat.** -/
lemma flat_unionOf (h : ∀ t ∈ l, t.Flat) : (unionOf l).Flat where
  single := by
    intro a ha
    rw [alternatives_unionOf fun t ht => (h t ht).single, mem_eraseDups] at ha
    obtain ⟨t, ht, hat⟩ := mem_flatMap.mp ha
    exact (h t ht).single a hat
  joined := by simpa using unionOf_nested (fun t ht => (h t ht).single) [] []

lemma flat_null : null.Flat := flat_of_alternatives rfl

/-- **Null is added exactly if it is no alternative yet.** -/
lemma Flat.orNull_eq_iff (h : t.Flat) : t.orNull = t ↔ null ∈ t.alternatives := by
  have hsingle : ∀ s ∈ [t, null], s.Single := by simpa using ⟨h.single, flat_null.single⟩
  constructor
  · intro heq
    rw [← heq, orNull, alternatives_unionOf hsingle, mem_eraseDups]
    simp [alternatives, null]
  · intro hmem
    have hpresent : ∀ a ∈ null.alternatives, ∃ s ∈ [t], a ∈ s.alternatives := by
      simpa [null, alternatives] using hmem
    exact (unionOf_readd hpresent []).trans h.joined

end TypeNode

namespace TypeExpr

open Grammar

variable {P : Phrases TypeNode} {ps after : List Token} {t : TypeNode}

lemma alternatives_ofName (name : String) :
    (TypeNode.ofName name).alternatives = [TypeNode.ofName name] := by
  unfold ofName
  dsimp only
  split <;> rfl

lemma alternatives_applied (name : String) (first : TypeNode) (others : List TypeNode) :
    (TypeNode.applied name first others).alternatives = [TypeNode.applied name first others] := by
  unfold applied
  dsimp only
  split
  · rfl
  · split
    · cases others <;> rfl
    · rfl

/-- The functions that build types give types in normal form. -/
lemma closed_flat : Closed (fun _ => True) TypeNode.Flat where
  any := flat_of_alternatives rfl
  null := flat_null
  literal _ := flat_of_alternatives rfl
  name _ _ _ := flat_of_alternatives (alternatives_ofName _)
  applied _ _ _ _ _ _ := flat_of_alternatives (alternatives_applied _ _ _)
  array _ _ := flat_of_alternatives rfl
  union _ _ h := flat_unionOf h
  record _ _ := flat_of_alternatives rfl
  function _ _ _ _ _ _ _ _ := flat_of_alternatives rfl

/-- **A type that is read is in normal form.** -/
lemma flat_of_expression (h : expression ts = .ok e) : e.type.Flat :=
  closed_flat.expression h fun _ _ => trivial

/-- Behind the marker a union is read with nothing else said. -/
lemma expression_nullable (type : Union (Primary maxNesting) ps [] t) :
    expression (.punct .question :: ps) = .ok ⟨t, false, some true, false⟩ := by
  have hsentence : Sentence (optionally .ellipsis false ++ nullTokens (some true) ++ ps ++
      optionally .equals false ++ optionally .question false)
      ⟨t, false, if false then some true else some true, false⟩ := .typed type (by simp)
  simpa [optionally, nullTokens] using complete_expression hsentence

/-- A lone question mark is a type. -/
lemma union_question : Union (Primary maxNesting) [.punct .question] [] .any := by
  have hterm : Primary maxNesting [.punct .question] (bracketPairs 0 ++ []) .any := Term.unknown rfl
  have hunion := Union.intro (.single (Postfix.intro 0 hterm (by decide)))
  rwa [Function.iterate_zero, id, (flat_of_alternatives rfl).joined] at hunion

/-- A whole expression without markers is a union, or one question mark, which is no marker then. -/
lemma union_or_question_of_plain (h : expression ts = .ok (.plain t)) :
    Union (Primary maxNesting) ts [] t ∧ Unmarked ts ∨ ts = [.punct .question] ∧ t = .any := by
  generalize he : TypeExpression.plain t = e at h
  cases sound_expression h with
  | @typed ps s nullable variadic optional again type unmarked =>
    cases again <;> simp only [TypeExpression.plain, TypeExpression.mk.injEq] at he
    · obtain ⟨rfl, rfl, rfl, rfl⟩ := he
      exact Or.inl (by simpa [optionally, nullTokens] using ⟨type, unmarked rfl⟩)
    · simp at he
  | @untyped nullable variadic optional again _ marked _ =>
    cases again <;> simp only [TypeExpression.plain, TypeExpression.mk.injEq] at he
    · obtain ⟨rfl, rfl, _, rfl⟩ := he
      obtain rfl : nullable = some true := by simpa using marked
      exact Or.inr ⟨rfl, rfl⟩
    · simp at he

/-- **Behind the marker a type without markers is read as it is without it.** -/
lemma expression_question (h : expression ts = .ok (.plain t)) :
    expression (.punct .question :: ts) = .ok ⟨t, false, some true, false⟩ := by
  rcases union_or_question_of_plain h with ⟨hunion, _⟩ | ⟨rfl, rfl⟩
  · exact expression_nullable hunion
  · exact expression_nullable union_question

lemma tokens_eq_ok :
    tokens cs = .ok ts ↔ ∃ ls, lexemes cs = .ok ls ∧ ls.filterMap Lexeme.token? = ts := by
  rw [tokens]
  cases lexemes cs <;> simp [bind, Except.bind, pure, Except.pure]

/-- The lexeme at the front, then the others. -/
lemma lexemes_of_cut {rest : List Char} {l : Lexeme} {ls : List Lexeme}
    (hcut : lexemeCut? cs = some (l, rest)) (hshorter : rest.length < cs.length)
    (h : lexemes rest = .ok ls) : lexemes cs = .ok (l :: ls) := by
  cases cs with
  | nil => simp at hshorter
  | cons c cs =>
    have hlexeme : lexeme? (c :: cs) = some ⟨l, rest, hshorter⟩ := by
      rw [lexeme?, hcut, Option.bind_some]
      exact dif_pos hshorter
    rw [lexemes, hlexeme]
    simp only [h]
    rfl

lemma tokens_question (h : tokens cs = .ok ts) :
    tokens ('?' :: cs) = .ok (.punct .question :: ts) := by
  obtain ⟨ls, hls, rfl⟩ := tokens_eq_ok.mp h
  have hcut : lexemeCut? ('?' :: cs) = some (.token (.punct .question), cs) := rfl
  exact tokens_eq_ok.mpr ⟨_, lexemes_of_cut hcut (by simp) hls, rfl⟩

lemma tokens_trimLeft (h : tokens (trimLeft cs) = .ok ts) : tokens cs = .ok ts := by
  cases hblank : cs.takeWhile isBlank with
  | nil =>
    have hsame : trimLeft cs = cs := by
      rw [trimLeft, ← nil_append (cs.dropWhile isBlank), ← hblank, takeWhile_append_dropWhile]
    rwa [hsame] at h
  | cons c blanks =>
    obtain ⟨ls, hls, rfl⟩ := tokens_eq_ok.mp h
    have hcut : lexemeCut? cs = some (.blank (c :: blanks), trimLeft cs) := by
      simp only [lexemeCut?, run?, hblank]
      rfl
    have hshorter : (trimLeft cs).length < cs.length := by
      conv_rhs => rw [← takeWhile_append_dropWhile (p := isBlank) (l := cs), hblank]
      simp only [cons_append, length_cons, length_append, trimLeft]
      omega
    exact tokens_eq_ok.mpr ⟨_, lexemes_of_cut hcut hshorter hls, rfl⟩

end TypeExpr

lemma trimRight_cons (c : Char) (cs : List Char) : trimRight (c :: cs) =
    if isBlank c && (trimRight cs).isEmpty then [] else c :: trimRight cs := by
  rw [trimRight, reverse_cons, dropWhile_append]
  cases hrest : cs.reverse.dropWhile isBlank with
  | nil => cases hc : isBlank c <;> simp [trimRight, hrest, hc]
  | cons d ds => simp [trimRight, hrest]

/-- It does not matter which end is trimmed first. -/
lemma trimLeft_trimRight (cs : List Char) : trimLeft (trimRight cs) = trim cs := by
  induction cs with
  | nil => rfl
  | cons c cs ih =>
    rw [trim, trimRight_cons, trimLeft, trimLeft]
    cases hc : isBlank c with
    | false => simp [hc, trimRight_cons]
    | true =>
      rw [dropWhile_cons, if_pos hc]
      cases hrest : (trimRight cs).isEmpty with
      | true =>
        rw [List.isEmpty_iff] at hrest
        simpa [hrest, trim, trimLeft] using ih
      | false => simpa [dropWhile_cons, hc, trimLeft, trim] using ih

/-- **A question mark before a type without markers only says that the value may be null.** -/
lemma readType_question {text : String} {t : TypeNode}
    (h : TypeExpr.ofText (stripped text).toList = .ok (.plain t)) :
    readType (some ("?" ++ text)) = ⟨⟨t, false, some true, false⟩, none⟩ := by
  have hstripped : (stripped ("?" ++ text)).toList = '?' :: trimRight text.toList := by
    have hmark : trim ('?' :: text.toList) = trimRight ('?' :: text.toList) := rfl
    simp only [stripped, String.toList_ofList, String.toList_append]
    exact hmark.trans (trimRight_cons '?' text.toList)
  have hne : stripped ("?" ++ text) ≠ "" := by
    intro hempty
    rw [hempty] at hstripped
    cases hstripped
  have htext : TypeExpr.ofText (stripped ("?" ++ text)).toList =
      .ok ⟨t, false, some true, false⟩ := by
    rw [stripped, String.toList_ofList] at h
    obtain ⟨ts, htokens, hts⟩ := TypeExpr.exists_tokens_of_ofText h
    rw [← trimLeft_trimRight] at htokens
    rw [hstripped, TypeExpr.ofText, TypeExpr.ofTextWithin_of_tokens
      (TypeExpr.tokens_question (TypeExpr.tokens_trimLeft htokens))]
    exact TypeExpr.expression_question hts
  simp only [readType, Option.getD_some, if_neg hne, htext]

/-- A type without markers that can be read is in normal form. -/
lemma flat_of_ofText (h : TypeExpr.ofText cs = .ok e) : e.type.Flat := by
  obtain ⟨_, _, hts⟩ := TypeExpr.exists_tokens_of_ofText h
  exact TypeExpr.flat_of_expression hts

end AmbientDecl

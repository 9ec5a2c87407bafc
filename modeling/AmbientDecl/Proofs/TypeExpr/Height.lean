import AmbientDecl.Proofs.TypeExpr.Composition
import AmbientDecl.Proofs.TypeExpr.Spacing

/-!
# Heights of types

How high the types are that are read from texts.

**Height.** `TypeNode.height` counts the types on the longest way into a type. Everything about it
comes from the parts of a type: a type is one higher than its highest part
(`TypeNode.height_le_iff`).

**Phrases.** The height is a grade of the types that are read (`graded_height`), so a level of
nesting makes a type at most two higher. Pairs of brackets are read one after the other at the same
level, and each of them adds one more. So the bound on nesting bounds the height up to the number of
brackets.

**Tall types.** `tall` is a text whose type is as high as this bound allows, for each number of
brackets.
-/

namespace AmbientDecl

open List TypeNode

variable {levels : Nat} (pairs : Nat)

namespace TypeNode

/-- The types that a type is made of. -/
def parts : TypeNode → List TypeNode
  | .named _ | .literal _ | .unreadable _ => []
  | .array element => [element]
  | .union members => members
  | .generic _ args => args
  | .function params returns thisType constructs =>
    params.map FunctionParam.type ++ (returns.toList ++ (thisType.toList ++ constructs.toList))
  | .record fields => fields.map RecordField.type

variable {n : Nat} {t : TypeNode} {l : List TypeNode}

lemma heightAll_le_iff : heightAll l ≤ n ↔ ∀ t ∈ l, t.height ≤ n := by
  induction l with
  | nil => simp
  | cons t l ih => rw [heightAll, Nat.max_le, ih, forall_mem_cons]

lemma heightOption_le_iff {o : Option TypeNode} : heightOption o ≤ n ↔
    ∀ t ∈ o.toList, t.height ≤ n := by
  cases o <;> simp

lemma heightParams_le_iff {ps : List (FunctionParam TypeNode)} :
    heightParams ps ≤ n ↔ ∀ t ∈ ps.map FunctionParam.type, t.height ≤ n := by
  induction ps with
  | nil => simp
  | cons p ps ih =>
    rw [heightParams, Nat.max_le, ih, map_cons, forall_mem_cons]

lemma heightFields_le_iff {fs : List (RecordField TypeNode)} :
    heightFields fs ≤ n ↔ ∀ t ∈ fs.map RecordField.type, t.height ≤ n := by
  induction fs with
  | nil => simp
  | cons f fs ih =>
    rw [heightFields, Nat.max_le, ih, map_cons, forall_mem_cons]

/-- **A type is one higher than its highest part.** -/
lemma height_le_iff : t.height ≤ n + 1 ↔ ∀ s ∈ t.parts, s.height ≤ n := by
  cases t with
  | named | literal | unreadable => simp [parts]
  | array element => simp [parts]
  | union members => simp [parts, heightAll_le_iff]
  | generic base args => simp [parts, heightAll_le_iff]
  | function params returns thisType constructs =>
    simp only [height, parts, Nat.add_le_add_iff_right, Nat.max_le, forall_mem_append,
      heightParams_le_iff, heightOption_le_iff]
  | record fields => simp only [height, parts, Nat.add_le_add_iff_right, heightFields_le_iff]

lemma height_pos (t : TypeNode) : 1 ≤ t.height := by
  cases t <;> simp

lemma height_of_mem_alternatives {s : TypeNode} (h : s ∈ t.alternatives) : s.height ≤ t.height := by
  cases t with
  | union members =>
    have hle : (TypeNode.union members).height ≤ heightAll members + 1 := by rw [height]
    have hs := height_le_iff.mp hle s h
    rw [height]
    omega
  | _ => rw [mem_singleton.mp h]

lemma height_unionOf_le (h : ∀ t ∈ l, t.height ≤ n) : (unionOf l).height ≤ n + 1 := by
  have hall : ∀ s ∈ (l.flatMap alternatives).eraseDups, s.height ≤ n := by
    intro s hs
    obtain ⟨t, ht, hst⟩ := mem_flatMap.mp (mem_eraseDups.mp hs)
    exact Nat.le_trans (height_of_mem_alternatives hst) (h t ht)
  unfold unionOf
  split
  · rename_i s hsingle
    have hs := hall s (by rw [hsingle]; exact mem_singleton_self s)
    omega
  · exact height_le_iff.mpr hall

lemma height_ofName_le (name : String) : (ofName name).height ≤ 2 := by
  simp only [ofName]
  split <;> simp [any]

lemma height_applied_le {base : String} {first : TypeNode} {others : List TypeNode}
    (h : ∀ t ∈ first :: others, t.height ≤ n) : (applied base first others).height ≤ n + 1 := by
  obtain ⟨hfirst, hothers⟩ := forall_mem_cons.mp h
  have hpos := Nat.le_trans (height_pos first) hfirst
  rw [height_le_iff]
  simp only [applied]
  by_cases harray : (isArrayName (canonicalName base) && others.isEmpty) = true
  · simpa [harray, parts] using hfirst
  rw [if_neg harray]
  by_cases hobject : isObjectName (canonicalName base) = true
  · rw [if_pos hobject]
    cases others with
    | nil => simpa [parts, string] using ⟨hpos, hfirst⟩
    | cons second others => simpa [parts] using ⟨hfirst, hothers second mem_cons_self⟩
  · rw [if_neg hobject]
    exact h

lemma height_arrays (t : TypeNode) : (array^[pairs] t).height = t.height + pairs := by
  induction pairs with
  | zero => rfl
  | succ n ih => rw [Function.iterate_succ_apply', height, ih, Nat.add_assoc]

end TypeNode

namespace TypeExpr

open Grammar

def brackets (ts : List Token) : Nat := ts.count (.punct .openBracket)

lemma brackets_append (ps qs : List Token) : brackets (ps ++ qs) = brackets ps + brackets qs :=
  count_append

lemma brackets_bracketPairs : brackets (bracketPairs pairs) = pairs := by
  induction pairs with
  | zero => rfl
  | succ n ih => simpa [brackets, bracketPairs] using ih

/-- **Each step adds one to the height, and each pair of brackets one more.** -/
lemma graded_height : Graded fun n ps t => t.height ≤ n + brackets ps where
  mono hmn hps h := Nat.le_trans h (Nat.add_le_add hmn (hps.count_le _))
  any := by simp [TypeNode.any]
  null := by simp [null]
  literal text := by simp
  name name _ := Nat.le_trans (height_ofName_le name) (Nat.le_add_right _ _)
  applied n ps name first others _ h := by
    rw [Nat.add_right_comm]
    exact height_applied_le h
  arrays n ps t pairs h := by
    rw [height_arrays, brackets_append, brackets_bracketPairs]
    omega
  union n ps l _ h := by
    rw [Nat.add_right_comm]
    exact height_unionOf_le h
  record n ps fields h := by
    rw [Nat.add_right_comm]
    exact TypeNode.height_le_iff.mpr (by simpa [parts] using h)
  function n ps params returns thisType constructs hparams hreturns hthis hconstructs := by
    rw [Nat.add_right_comm]
    refine TypeNode.height_le_iff.mpr ?_
    simp only [parts, forall_mem_append, forall_mem_map, Option.mem_toList]
    exact ⟨hparams, hreturns, hthis, hconstructs⟩

/-- How high a type can be, brackets not counted. -/
def maxHeight : Nat := 2 * maxNesting + 1

open Text

/-- The brackets among the tokens of a text stand in the text. -/
lemma brackets_le_count {cs : List Char} {ts : List Token} (h : tokens cs = .ok ts) :
    brackets ts ≤ cs.count '[' := by
  obtain ⟨l, rfl, rfl⟩ := exists_layout h
  rw [Layout.text, count_append, Layout.tokens]
  refine Nat.le_trans ?_ (Nat.le_add_left _ _)
  induction l.pieces with
  | nil => simp [brackets]
  | cons piece pieces ih =>
    obtain ⟨t, gap⟩ := piece
    have hhead : brackets [t] ≤ t.text.toList.count '[' := by
      by_cases ht : t = .punct .openBracket
      · subst ht
        decide
      · simp [brackets, ht]
    have htail : brackets (t :: pieces.map Prod.fst) =
        brackets [t] + brackets (pieces.map Prod.fst) := by
      rw [brackets, ← singleton_append, count_append]
      rfl
    rw [written_cons, count_append, count_append, map_cons, htail]
    omega

lemma height_typeOfExpression_le (text : String) :
    (typeOfExpression (some text)).height ≤ maxHeight + text.toList.count '[' := by
  have hleaf : ∀ t : TypeNode, t.height = 1 → t.height ≤ maxHeight + text.toList.count '[' := by
    intro t ht
    rw [ht, maxHeight]
    omega
  simp only [typeOfExpression, readType, Option.getD_some]
  split
  · exact hleaf _ rfl
  · cases hread : ofText (stripped text).toList with
    | error fault => exact hleaf _ rfl
    | ok e =>
      obtain ⟨ts, htokens, hts⟩ := exists_tokens_of_ofText hread
      have hbrackets := brackets_le_count htokens
      rw [stripped, String.toList_ofList] at hbrackets
      exact Nat.le_trans (graded_height.expression hts) (Nat.add_le_add_left
        (Nat.le_trans hbrackets ((trim_sublist _).count_le _)) _)

/-- An expression is read alike with more levels. -/
lemma expressionWithin_mono {levels' : Nat} (hle : levels ≤ levels') {ts : List Token}
    {e : TypeExpression}
    (h : expressionWithin levels ts = .ok e) : expressionWithin levels' ts = .ok e := by
  obtain ⟨t, nullable, mid, htype, hrest, rfl⟩ := expressionWithin_eq_ok.mp h
  refine expressionWithin_eq_ok.mpr ⟨t, nullable, mid, ?_, hrest, rfl⟩
  obtain ⟨optional, again, rfl⟩ := eq_trailing hrest
  refine markedType_eq_ok.mpr ((markedType_eq_ok.mp htype).imp_right ?_)
  rintro ⟨hstarts, hread, hnullable⟩
  obtain ⟨ps, hps, hunion⟩ := sound_union (recognizes_primary levels) hread
  refine ⟨hstarts, ?_, hnullable⟩
  rw [hps]
  exact complete_union (recognizes_primary levels') ((carries_primary hle).union (.refl _) hunion)
    (goesOn_trailing optional again) (head?_trailing optional again (by decide) (by decide))

/-- **A text whose type would be higher is rejected.** -/
lemma readType_of_height {text : String} {e : TypeExpression}
    (hread : ofTextWithin levels (stripped text).toList = .ok e)
    (hheight : maxHeight + text.toList.count '[' < e.type.height) :
    (readType (some text)).complaint ≠ none ∧ typeOfExpression (some text) =
      .unreadable (stripped text) := by
  have hbound := height_typeOfExpression_le text
  simp only [typeOfExpression, readType, Option.getD_some] at hbound ⊢
  have hne : stripped text ≠ "" := by
    intro hempty
    have hnil : "".toList = [] := rfl
    rw [hempty, hnil, ofTextWithin_of_tokens tokens_nil] at hread
    cases hread
  rw [if_neg hne] at hbound ⊢
  cases hsame : ofText (stripped text).toList with
  | error fault => simp [TypeExpression.plain]
  | ok e' =>
    obtain ⟨ts, htokens, hts⟩ := exists_tokens_of_ofText hsame
    rw [ofTextWithin_of_tokens htokens] at hread
    have hmore := expressionWithin_mono (Nat.le_max_left levels maxNesting) hread
    rw [expressionWithin_mono (Nat.le_max_right levels maxNesting) hts] at hmore
    obtain rfl := Except.ok.inj hmore
    rw [hsame] at hbound
    simp only at hbound
    omega

/-- A text of nested records, each of them in a union, with pairs of brackets at the innermost
one. -/
def tall (pairs : Nat) : (levels : Nat) → List Char
  | 0 => [' ', '*', '|', '{', '\'', '\'', '}'] ++ (List.replicate pairs [' ', '[', ']']).flatten
  | levels + 1 => [' ', '*', '|', '{', '\'', '\'', ':'] ++ (tall pairs levels ++ [' ', '}'])

def tallTokens (pairs : Nat) : (levels : Nat) → List Token
  | 0 => [.punct .star, .punct .bar, .punct .openBrace, .string "''", .punct .closeBrace] ++
      bracketPairs pairs
  | levels + 1 =>
    [.punct .star, .punct .bar, .punct .openBrace, .string "''", .punct .colon] ++
      (tallTokens pairs levels ++ [.punct .closeBrace])

def tallType (pairs : Nat) : (levels : Nat) → TypeNode
  | 0 => .union [.any, TypeNode.array^[pairs] (.record [⟨"", .any, false, none⟩])]
  | levels + 1 => .union [.any, .record [⟨"", tallType pairs levels, false, none⟩]]

lemma count_tall (levels : Nat) : (tall pairs levels).count '[' = pairs := by
  induction levels with
  | zero => simp [tall, count_flatten]
  | succ n ih => simp [tall, ih]

lemma height_tallType (levels : Nat) :
    (tallType pairs levels).height = 2 * (levels + 1) + 1 + pairs := by
  induction levels with
  | zero =>
    simp only [tallType, height, heightAll, TypeNode.any, height_arrays, heightFields]
    omega
  | succ n ih =>
    simp only [tallType, height, heightAll, TypeNode.any, heightFields, ih]
    omega

lemma bounded_blank (cs : List Char) : Bounded (' ' :: cs) := by
  intro c hc
  obtain rfl : ' ' = c := by simpa using hc
  rfl

lemma tokens_marks : tokens (List.replicate pairs [' ', '[', ']']).flatten =
    .ok (bracketPairs pairs) := by
  induction pairs with
  | zero => exact tokens_nil
  | succ n ih =>
    have hbounded : Bounded (replicate n [' ', '[', ']']).flatten := by
      cases n with
      | zero => simp [Bounded]
      | succ n => exact bounded_blank _
    rw [replicate_succ, flatten_cons]
    exact tokens_append hbounded
      (by decide +kernel : tokens [' ', '[', ']'] = .ok (bracketPairs 1)) ih

lemma tokens_tall (levels : Nat) : tokens (tall pairs levels) = .ok (tallTokens pairs levels) := by
  induction levels with
  | zero =>
    have hbounded : Bounded (replicate pairs [' ', '[', ']']).flatten := by
      cases pairs with
      | zero => simp [Bounded]
      | succ n => exact bounded_blank _
    exact tokens_append hbounded (by decide +kernel) (tokens_marks pairs)
  | succ n ih =>
    have hclose := tokens_append (bounded_blank ['}']) ih
      (by decide +kernel : tokens [' ', '}'] = .ok [.punct .closeBrace])
    have hbounded : Bounded (tall pairs n ++ [' ', '}']) := by
      cases n <;> exact bounded_blank _
    exact tokens_append hbounded (by decide +kernel) hclose

lemma unionOf_any {t : TypeNode} (hany : TypeNode.any ≠ t) (halone : t.alternatives = [t]) :
    TypeNode.unionOf [.any, t] = .union [.any, t] := by
  have hall : [TypeNode.any, t].flatMap TypeNode.alternatives = [.any, t] := by
    rw [flatMap_cons, flatMap_singleton, halone]
    rfl
  rw [unionOf, hall, eraseDups_of_nodup (by simpa using hany)]

/-- A record in a union is one level deeper than its fields. -/
lemma union_record {ps after : List Token} {fs : List (RecordField TypeNode)}
    (hfields : Fields (Primary levels) ps (.punct .closeBrace :: (bracketPairs pairs ++ after)) fs)
    (hafter : ¬ bracketPairs 1 <+: after) :
    Union (Primary (levels + 1)) ([.punct .star] ++ .punct .bar ::
        ((.punct .openBrace :: ps ++ [.punct .closeBrace]) ++ bracketPairs pairs)) after
      (.union [.any, TypeNode.array^[pairs] (.record fs)]) := by
  have hrecord : Postfix (Primary (levels + 1)) _ after _ :=
    .intro pairs (Term.record hfields) hafter
  have hstar : ∀ qs, Postfix (Primary (levels + 1)) [.punct .star] (.punct .bar :: qs) .any :=
      fun qs =>
    .intro 0 Term.star (by simp [bracketPairs])
  have halone : (array^[pairs] (.record fs)).alternatives = [array^[pairs] (.record fs)] ∧
      TypeNode.any ≠ array^[pairs] (.record fs) := by
    cases pairs with
    | zero => exact ⟨rfl, by simp [TypeNode.any]⟩
    | succ n =>
      rw [Function.iterate_succ_apply']
      exact ⟨rfl, by simp [TypeNode.any]⟩
  rw [← unionOf_any halone.2 halone.1]
  exact .intro (.cons (hstar _) (.single hrecord))

lemma union_tall (levels : Nat) {after : List Token} (hafter : ¬ bracketPairs 1 <+: after) :
    Union (Primary (levels + 1)) (tallTokens pairs levels) after (tallType pairs levels) := by
  have hname : NamesField (.string "''") "" := NamesField.string "''"
  induction levels generalizing after with
  | zero =>
    have hfield : Field (Primary 0) [.string "''"]
        (.punct .closeBrace :: (bracketPairs pairs ++ after)) _ :=
      @Field.untyped _ _ _ _ false hname
    exact union_record pairs (.single hfield) hafter
  | succ n ih =>
    have hfield : Field (Primary (n + 1))
      (.string "''" :: .punct .colon :: tallTokens pairs n ++ [])
        (.punct .closeBrace :: (bracketPairs 0 ++ after)) _ :=
      @Field.typed _ _ _ _ _ _ false false hname (ih (by simp [bracketPairs, optionally]))
    have hunion := union_record 0 (.single hfield) hafter
    rw [append_nil] at hunion
    simpa [tallTokens, tallType, bracketPairs] using hunion

lemma bracketPairs_concat (n : Nat) : bracketPairs (n + 1) = bracketPairs n ++ bracketPairs 1 := by
  induction n with
  | zero => rfl
  | succ n ih => exact congrArg (.punct .openBracket :: .punct .closeBracket :: ·) ih

lemma trim_tall (levels : Nat) : trim (tall pairs levels) ≠ [] ∧
    tokens (trim (tall pairs levels)) = .ok (tallTokens pairs levels) := by
  have hlast : ∃ ts mark, tallTokens pairs levels = ts ++ [.punct mark] ∧
      Stops isBlank (Token.punct mark).text.toList.reverse := by
    rcases levels with _ | n
    · rcases pairs with _ | n
      · exact ⟨[.punct .star, .punct .bar, .punct .openBrace, .string "''"], .closeBrace,
          rfl, stops_cons rfl⟩
      · rw [tallTokens, bracketPairs_concat, ← append_assoc, bracketPairs, append_cons]
        exact ⟨_, .closeBracket, rfl, stops_cons rfl⟩
    · exact ⟨_, .closeBrace, (append_assoc _ _ _).symm, stops_cons rfl⟩
  obtain ⟨ts, mark, hts, hmark⟩ := hlast
  have htokens := tokens_tall pairs levels
  rw [hts] at htokens ⊢
  exact tokens_trim htokens hmark

/-- **Types of every height are read, with pairs of brackets or with more levels.** -/
lemma expressionWithin_tall (levels : Nat) :
    expressionWithin (levels + 1) (tallTokens pairs levels) =
      .ok (.plain (tallType pairs levels)) := by
  have hunmarked : Unmarked (tallTokens pairs levels) := by cases levels <;>
    simp [tallTokens, Unmarked]
  exact expressionWithin_of_union (union_tall pairs levels (by simp [bracketPairs])) hunmarked

def tallText (pairs levels : Nat) : String := String.ofList (tall pairs levels)

lemma readType_tallText : readType (some (tallText pairs 63)) =
    ⟨.plain (tallType pairs 63), none⟩ := by
  have htrim := trim_tall pairs 63
  rw [← String.toList_ofList (l := tall pairs 63)] at htrim
  exact readType_of_trim htrim.1 htrim.2 (expressionWithin_tall pairs 63)

/-- **Heights are bounded up to brackets.** The type of a text is at most as high as the bound on
nesting allows and its opening brackets add, whatever the text is. For each number of brackets there
is a text whose type is that high. An expression that would be higher, if types could be nested
deeper, is rejected. -/
theorem height_readType (text : String) (n : Nat) :
    (typeOfExpression (some text)).height ≤ maxHeight + text.toList.count '[' ∧
    (∃ tallest, tallest.toList.count '[' = n ∧ (readType (some tallest)).complaint = none ∧
      (typeOfExpression (some tallest)).height = maxHeight + n) ∧
    ∀ levels e, ofTextWithin levels (stripped text).toList = .ok e →
      maxHeight + text.toList.count '[' < e.type.height →
        (readType (some text)).complaint ≠ none ∧ typeOfExpression (some text) =
          .unreadable (stripped text) := by
  refine ⟨height_typeOfExpression_le text, ⟨tallText n 63, ?_, ?_, ?_⟩,
    fun _ _ => readType_of_height⟩
  · rw [tallText, String.toList_ofList, count_tall]
  · rw [readType_tallText]
  · rw [typeOfExpression, readType_tallText]
    exact height_tallType n 63

/-- A type that is nested one level too deep, with two brackets. -/
theorem height_readType_tooDeep :
    ofTextWithin 65 (stripped (tallText 2 64)).toList = .ok (.plain (tallType 2 64)) ∧
    maxHeight + (tallText 2 64).toList.count '[' < (tallType 2 64).height ∧
    typeOfExpression (some (tallText 2 64)) = .unreadable (stripped (tallText 2 64)) := by
  have hread : ofTextWithin 65 (stripped (tallText 2 64)).toList =
      .ok (.plain (tallType 2 64)) := by
    rw [stripped, tallText, String.toList_ofList, String.toList_ofList,
      ofTextWithin_of_tokens (trim_tall 2 64).2]
    exact expressionWithin_tall 2 64
  have hheight : maxHeight + (tallText 2 64).toList.count '[' < (tallType 2 64).height := by
    rw [tallText, String.toList_ofList, count_tall, height_tallType]
    decide
  exact ⟨hread, hheight, ((height_readType _ 2).2.2 _ _ hread hheight).2⟩

/-- **No height bounds the types of all texts.** -/
theorem height_unbounded : ¬ ∃ h, ∀ text, (typeOfExpression (some text)).height ≤ h := by
  rintro ⟨h, hbound⟩
  have htall := hbound (tallText h 63)
  rw [typeOfExpression, readType_tallText, TypeExpression.plain, height_tallType] at htall
  omega

end TypeExpr

end AmbientDecl

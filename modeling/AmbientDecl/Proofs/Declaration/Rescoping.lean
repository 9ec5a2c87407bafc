import AmbientDecl.Proofs.Declaration.Sheet

/-!
# One type in two scopes

A type is printed in two scopes, of which the second has lost type parameters of the first. The
texts are equal exactly if every type parameter that is printed in the first is printed as its name
in the second (`typeText_eq_iff`).

**What follows a name.** Behind the text of a name stands a delimiter or nothing. So texts that are
told apart alone are told apart in any surroundings (`ToldApart`), and the names are found again in
the text.

**Pieces.** `Tracks` relates the marked text of a type in the first scope to its text in the second.
It is kept when pieces are put together, as long as a delimiter comes behind each of them
(`composes_tracks`).

**Keys.** Of the key of an object only its kind is printed, and that does not depend on the scope
(`keyText_eq`).
-/

namespace AmbientDecl

open Text List

variable {name : String} {f : TypeNode → List Mark} {g : TypeNode → String}

/-- A text that is empty or starts with a delimiter. -/
def Delimited (text : String) : Prop := ∀ c ∈ text.toList.head?, c ∈ delimiters

/-- Texts that are equal if they are with delimiters behind them. -/
def ToldApart (a b : String) : Prop :=
  ∀ rest rest', Delimited rest → Delimited rest' → a ++ rest = b ++ rest' → a = b

lemma Delimits.delimited {text : String} (h : Delimits text) (rest : String) :
    Delimited (text ++ rest) := by
  intro c hc
  cases hhead : text.toList.head? with
  | none => simp [Delimits, hhead] at h
  | some d =>
    rw [String.toList_append, head?_append, hhead] at hc
    obtain rfl : d = c := by simpa using hc
    simpa [Delimits, hhead] using h

/-- A scope that differs from another by type parameters of it. What it prints them as is told apart
from their names, and is no kind of key. -/
structure Rescoped (inner outer : TypeScope) (params : List String) : Prop where
  knows : inner.Knows params
  fallback : outer.fallback = inner.fallback
  same : ∀ name, name ∉ params ∨ name ∈ primitiveNames → outer.resolve name = inner.resolve name
  toldApart : ∀ name ∈ params, name ∉ primitiveNames → IsTypeName name →
    ToldApart name (outer.nameText name)
  notKey : ∀ name ∈ params, name ∉ primitiveNames → IsTypeName name →
    outer.nameText name ≠ "number" ∧ outer.nameText name ≠ "symbol"

lemma Rescoped.nameText_eq {inner outer : TypeScope} {params : List String}
    (h : Rescoped inner outer params) (hname : name ∉ params ∨ name ∈ primitiveNames) :
    outer.nameText name = inner.nameText name := by
  rw [TypeScope.nameText, TypeScope.nameText, h.same name hname, h.fallback]

/-- Marked pieces and the text in the other scope: they are equal if the type parameters are printed
as their names, and only then, whatever stands behind them. -/
structure Tracks (outer : TypeScope) (marks : List Mark) (text : String) : Prop where
  same : (∀ name ∈ usedIn marks, outer.nameText name = name) → textOf marks = text
  names : ∀ rest rest', Delimited rest → Delimited rest' → textOf marks ++ rest = text ++ rest' →
    ∀ name ∈ usedIn marks, outer.nameText name = name

section Pieces

variable {outer : TypeScope} {marks : List Mark} {text : String}

@[simp] lemma usedIn_append (marks others : List Mark) :
    usedIn (marks ++ others) = usedIn marks ++ usedIn others := by
  simp [usedIn]

@[simp] lemma usedIn_words (text : String) (marks : List Mark) :
    usedIn (.words text :: marks) = usedIn marks := rfl

@[simp] lemma usedIn_nil : usedIn [] = [] := rfl

@[simp] lemma usedIn_typeParameter (name : String) (marks : List Mark) :
    usedIn (.typeParameter name :: marks) = name :: usedIn marks := rfl

lemma Tracks.after (h : Tracks outer marks text) (words : String) :
    Tracks outer (.words words :: marks) (words ++ text) where
  same hnames := by rw [textOf_cons, text_words, h.same hnames]
  names rest rest' hrest hrest' heq := by
    rw [textOf_cons, text_words, String.append_assoc, String.append_assoc, String.append_right_inj]
      at heq
    exact h.names rest rest' hrest hrest' heq

/-- **Pieces can be put together if a delimiter stands between them.** -/
lemma composes_tracks : Composes (Tracks outer) where
  nil := ⟨fun _ => rfl, by simp⟩
  after := Tracks.after
  before {marks others text words more} h hwords hmore :=
    { same := fun hnames => by
        rw [usedIn_append, forall_mem_append] at hnames
        rw [textOf_append, h.same hnames.1, (hmore.after words).same hnames.2]
      names := fun rest rest' hrest hrest' heq => by
        simp only [textOf_append, textOf_cons, text_words, String.append_assoc] at heq
        have hfirst := h.names _ _ (hwords.delimited _) (hwords.delimited _) heq
        rw [h.same hfirst, String.append_right_inj, String.append_right_inj] at heq
        rw [usedIn_append, forall_mem_append]
        exact ⟨hfirst, hmore.names rest rest' hrest hrest' heq⟩ }

end Pieces

section Keys

variable {scope inner outer : TypeScope} {params : List String} {text : String} {t : TypeNode}

lemma keyText_of_ne (hnumber : text ≠ "number") (hsymbol : text ≠ "symbol") :
    keyText text = "string" := by
  unfold keyText
  split
  · simp_all
  · rfl

/-- A kind of key is a word. -/
lemma ne_key_of_mem {c : Char} (hc : c ∈ text.toList) (h : c.isAlpha = false) :
    text ≠ "number" ∧ text ≠ "symbol" := by
  have hnumber : "number".toList.all Char.isAlpha = true := by decide
  have hsymbol : "symbol".toList.all Char.isAlpha = true := by decide
  constructor
  · rintro rfl
    simp [all_eq_true.mp hnumber c hc] at h
  · rintro rfl
    simp [all_eq_true.mp hsymbol c hc] at h

lemma ne_key_of_not_primitive (h : text ∉ primitiveNames) : text ≠ "number" ∧ text ≠ "symbol" := by
  constructor <;>
  · rintro rfl
    exact h (by decide)

lemma keyText_of_mem {c : Char} (hc : c ∈ text.toList) (h : c.isAlpha = false) :
    keyText text = "string" :=
  keyText_of_ne (ne_key_of_mem hc h).1 (ne_key_of_mem hc h).2

lemma keyText_appliedText (base : String) (args : List String) :
    keyText (appliedText scope base args) = "string" := by
  have hgeneric : ∀ args, keyText (genericText scope base args) = "string" := by
    intro args
    unfold genericText
    split
    · exact keyText_of_mem (c := '<') (by simp [argumentsText]) (by decide)
    · split
      · rfl
      · exact keyText_of_mem (c := '<') (by simp [argumentsText]) (by decide)
  unfold appliedText
  split
  · split
    · exact keyText_of_mem (c := '[') (by simp [dictionaryText]) (by decide)
    · exact hgeneric _
  · exact hgeneric _

lemma keyText_functionText (ps : String) (returns thisType constructs : Option String) :
    keyText (functionText ps returns thisType constructs) = "string" := by
  refine keyText_of_mem (c := '(') ?_ (by decide)
  unfold functionText
  cases constructs <;> simp

lemma keyText_recordText (fields : List (RecordField String)) :
    keyText (recordText fields) = "string" := by
  unfold recordText
  split
  · rfl
  · exact keyText_of_mem (c := ' ') (by simp) (by decide)

lemma keyText_named (h : Rescoped inner outer params) (hname : IsTypeName name) :
    keyText (inner.nameText name) = keyText (outer.nameText name) := by
  by_cases hhidden : name ∈ params ∧ name ∉ primitiveNames
  · have hinner : inner.nameText name = name := by simp [TypeScope.nameText, h.knows name hhidden.1]
    obtain ⟨hnumber, hsymbol⟩ := h.notKey name hhidden.1 hhidden.2 hname
    obtain ⟨hnameNumber, hnameSymbol⟩ := ne_key_of_not_primitive hhidden.2
    rw [hinner, keyText_of_ne hnumber hsymbol, keyText_of_ne hnameNumber hnameSymbol]
  · rw [h.nameText_eq (by tauto)]

/-- **The kind of a key does not depend on the scope.** -/
lemma keyText_eq (h : Rescoped inner outer params) (ht : t.Over IsTypeName) :
    keyText (typeText inner t) = keyText (typeText outer t) := by
  induction ht with
  | named isName => exact keyText_named h isName
  | @union members _ ih =>
    rw [typeText_union, typeText_union]
    rcases members with _ | ⟨t, _ | ⟨u, rest⟩⟩
    · rfl
    · have hfirst := ih t mem_cons_self
      cases t with
      | function =>
        have hparens : ∀ text, keyText (parenthesized text) = "string" := fun text =>
          keyText_of_mem (c := '(') (by simp [parenthesized]) (by decide)
        exact (hparens _).trans (hparens _).symm
      | _ => exact hfirst
    · have hspace : ∀ g : TypeNode → String,
          keyText (joined " | " ((t :: u :: rest).map g)) = "string" := fun g =>
        keyText_of_mem (c := ' ') (by simp [joined, String.intercalate_cons_cons]) (by decide)
      rw [hspace, hspace]
  | array =>
    have harray : ∀ t text, keyText (arrayText t text) = "string" := fun t text =>
      keyText_of_mem (c := '[') (by simp [arrayText]) (by decide)
    simp only [typeText, shownType, ShownType.single, harray]
  | generic => simp only [typeText, shownType, ShownType.single, keyText_appliedText]
  | function => simp only [typeText, shownType, ShownType.single, keyText_functionText]
  | record => simp only [typeText, shownType, ShownType.single, keyText_recordText]
  | literal | unreadable => simp [typeText, shownType, ShownType.single]

end Keys

section Types

variable {inner outer : TypeScope} {params : List String} {t : TypeNode}

lemma tracks_named (h : Rescoped inner outer params) (hname : IsTypeName name) :
    Tracks outer (nameMarks params name (inner.nameText name)) (outer.nameText name) := by
  by_cases hhidden : name ∈ params ∧ name ∉ primitiveNames
  · rw [nameMarks, if_pos hhidden]
    constructor
    · intro hnames
      simpa [Mark.text] using (hnames name (by simp)).symm
    · intro rest rest' hrest hrest' heq
      have hsame := h.toldApart name hhidden.1 hhidden.2 hname rest rest' hrest hrest'
      simpa using (hsame (by simpa [Mark.text] using heq)).symm
  · rw [nameMarks, if_neg hhidden, h.nameText_eq (by tauto)]
    exact composes_tracks.words _

lemma tracks_genericMarks (h : Rescoped inner outer params) {base : String}
    (hbase : IsTypeName base) {args : List TypeNode}
    (hargs : ∀ t ∈ args, Tracks outer (f t) (g t)) :
    Tracks outer (genericMarks inner params base (args.map f))
      (genericText outer base (args.map g)) := by
  have happlied := composes_tracks.arguments (tracks_named h hbase) hargs
  rw [genericText_eq, genericMarks_eq h.knows]
  by_cases hhidden : base ∈ params ∧ base ∉ primitiveNames
  · rw [if_neg (by simp [h.knows base hhidden.1])]
    by_cases hany : outer.resolve base = none ∧ outer.fallback base = "any"
    · -- No type parameter is called `any`, so this one is not printed as its name.
      have htext : outer.nameText base = "any" := by simp [TypeScope.nameText, hany]
      have hne : base ≠ "any" := fun heq => hhidden.2 (by simp [heq, primitiveNames])
      rw [if_pos hany, nameMarks, if_pos hhidden]
      constructor
      · intro hnames
        exact absurd (htext ▸ hnames base (by simp)) hne.symm
      · intro rest rest' hrest hrest' heq
        have hdelimited : Delimited (textOf (argumentsMarks (args.map f)) ++ rest) := by
          rw [argumentsMarks, cons_append, textOf_cons, text_words, String.append_assoc]
          exact Delimits.delimited (by decide) _
        have hbehind := h.toldApart base hhidden.1 hhidden.2 hbase _ rest' hdelimited hrest'
        rw [htext] at hbehind
        refine absurd (hbehind ?_) hne
        simpa [Mark.text, String.append_assoc] using heq
    · rwa [if_neg hany]
  · have hsame := h.same base (by tauto)
    rw [hsame, h.fallback]
    split
    · exact composes_tracks.words _
    · exact happlied

lemma isEmpty_paramsText (l : List (FunctionParam ShownType)) :
    (paramsText l).isEmpty = l.isEmpty := by
  cases l with
  | nil => rfl
  | cons p later =>
    have hfirst : ∀ d : DeclaredParam ShownType, ':' ∈ d.text.toList := by
      intro d
      unfold DeclaredParam.text
      cases d.form <;> simp
    have hmem : ':' ∈ (paramsText (p :: later)).toList := by
      simp only [paramsText, declaredParams, declaredFrom, map_cons, joined]
      cases (declaredFrom 1 [paramName p.name 0 []] later).map DeclaredParam.text <;> simp [hfirst]
    rw [isEmpty_cons, Bool.eq_false_iff, ne_eq, String.isEmpty_iff]
    intro hempty
    simp [hempty] at hmem

lemma relates_tracks (h : Rescoped inner outer params) :
    Relates inner outer params IsTypeName (Tracks outer) :=
  { composes_tracks with
    named := tracks_named h
    generic := fun {_} hbase {_} hargs => tracks_genericMarks h hbase hargs
    key := fun {t} ht _ => by rw [(spells_markedType h.knows t).text, keyText_eq h ht]
    empty := fun {ps} _ => by
      rw [(spells_paramsMarks h.knows ps).text, isEmpty_paramsText, isEmpty_paramsText,
        shownParams_eq, shownParams_eq, isEmpty_map, isEmpty_map] }

/-- **A type is printed alike in the two scopes exactly if its type parameters are.** -/
lemma typeText_eq_iff (h : Rescoped inner outer params) (ht : t.Over IsTypeName) :
    typeText outer t = typeText inner t ↔
      ∀ name ∈ usedIn (markedType inner params t).marks, outer.nameText name = name := by
  have htracks := ((relates_tracks h).type ht).marks
  have hend : Delimited "" := by simp [Delimited]
  rw [← (spells_markedType h.knows t).text]
  constructor
  · intro heq
    exact htracks.names "" "" hend hend (by rw [heq])
  · intro hnames
    exact (htracks.same hnames).symm

end Types

end AmbientDecl

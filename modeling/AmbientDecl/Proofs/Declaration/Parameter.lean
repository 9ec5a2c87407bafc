import AmbientDecl.Proofs.Identifier

/-!
# Parameter lists as they are printed

A declaration allows a parameter to be left out only if every one behind it can be left out too, and
it allows only the last parameter to take the rest of the arguments.

**Reading.** `ShowsOptional` and `ShowsRest` read the marks off the text of a parameter. Names hold
neither marks nor colons, so they tell how the parameter is declared (`showsOptional_text`,
`showsRest_text`).

**Forms.** How a parameter is declared depends on those behind it, and `paramForms` lists it for
all. The rest of the arguments is taken by the last parameter only (`pairwise_rest`). Required
parameters never come after optional ones, but arrays in the place of a rest may
(`pairwise_optional_iff`).
-/

namespace AmbientDecl

open Text TypeExpr List DeclaredParam

/-- What stands before the type in the text of a parameter. -/
def beforeType (text : String) : List Char := text.toList.takeWhile fun c => c ≠ ':'

/-- The parameter is printed with a question mark. -/
def ShowsOptional (text : String) : Prop := (beforeType text).getLast? = some '?'

/-- The parameter is printed with three points. -/
def ShowsRest (text : String) : Prop := "...".toList <+: text.toList

instance (text : String) : Decidable (ShowsOptional text) := inferInstanceAs (Decidable (_ = _))

instance (text : String) : Decidable (ShowsRest text) := inferInstanceAs (Decidable (_ <+: _))

section Reading

variable {p : DeclaredParam ShownType}

/-- The name of a parameter with its marks. -/
def DeclaredParam.markedName (p : DeclaredParam ShownType) : List Char :=
  match p.form with
  | .rest => "...".toList ++ p.name.toList
  | .optional => p.name.toList ++ ['?']
  | _ => p.name.toList

lemma toList_text (p : DeclaredParam ShownType) :
    ∃ type : List Char, p.text.toList = p.markedName ++ ':' :: type := by
  rw [text, markedName]
  cases p.form <;> simp

lemma beforeType_text (hname : MadeOf IdentChar p.name) : beforeType p.text = p.markedName := by
  obtain ⟨type, htext⟩ := toList_text p
  have hcolon : ':' ∉ p.markedName := by
    have hcolon : ':' ∉ p.name.toList := hname.not_mem (by decide)
    rw [markedName]
    cases p.form <;> simp [hcolon]
  rw [beforeType, htext, takeWhile_append_of_pos]
  · simp
  · intro c hc
    have hne : c ≠ ':' := fun h => hcolon (h ▸ hc)
    simpa using hne

lemma showsOptional_text (hname : MadeOf IdentChar p.name) : ShowsOptional p.text ↔
    p.form = .optional := by
  have hquestion : '?' ∉ p.name.toList := hname.not_mem (by decide)
  rw [ShowsOptional, beforeType_text hname, markedName]
  constructor
  · intro hlast
    have hmem := mem_of_getLast? hlast
    cases hform : p.form <;> simp_all
  · intro hform
    simp [hform]

lemma showsRest_text (hname : MadeOf IdentChar p.name) : ShowsRest p.text ↔ p.form = .rest := by
  obtain ⟨type, htext⟩ := toList_text p
  rw [ShowsRest, htext, markedName]
  constructor
  · -- without the points, the first character is one of the name or the colon
    rintro ⟨after, hpoints⟩
    have hpoint : '.' ∉ p.name.toList := hname.not_mem (by decide)
    have hdots : "...".toList = ['.', '.', '.'] := rfl
    rw [hdots] at hpoints
    cases hchars : p.name.toList <;> cases hform : p.form <;> simp_all
  · intro hform
    simp [hform]

/-- The name of a parameter as it is printed: what stands before the type, without the marks. -/
def shownName (text : String) : String :=
  let marked := if ShowsRest text then (beforeType text).drop 3 else beforeType text
  String.ofList (if ShowsOptional text then marked.dropLast else marked)

lemma shownName_text (hname : MadeOf IdentChar p.name) : shownName p.text = p.name := by
  simp only [shownName, showsRest_text hname, showsOptional_text hname, beforeType_text hname,
    markedName]
  cases p.form <;> simp

end Reading

section Forms

variable {τ : Type} {p : FunctionParam τ} {later : List (FunctionParam τ)}

def paramForms : List (FunctionParam τ) → List ParamForm
  | [] => []
  | p :: later => paramForm p later :: paramForms later

lemma form_declaredFrom (l : List (FunctionParam τ)) : ∀ (position : Nat) (seen : List String),
    (declaredFrom position seen l).map form = paramForms l := by
  induction l with
  | nil => intro position seen; rfl
  | cons p later ih =>
    intro position seen
    rw [declaredFrom, map_cons, ih, paramForms]

lemma length_paramForms (l : List (FunctionParam τ)) : (paramForms l).length = l.length := by
  induction l with
  | nil => rfl
  | cons p later ih => rw [paramForms, length_cons, ih, length_cons]

lemma name_declaredFrom (l : List (FunctionParam τ)) : ∀ (position : Nat) (seen : List String),
    ∀ d ∈ declaredFrom position seen l, MadeOf IdentChar d.name := by
  induction l with
  | nil => simp [declaredFrom]
  | cons p later ih =>
    intro position seen
    rw [declaredFrom, forall_mem_cons]
    exact ⟨identChar_paramName _ _ _, ih _ _⟩

lemma paramForm_eq_rest : paramForm p later = .rest ↔ p.variadic = true ∧ later = [] := by
  rw [paramForm]
  split_ifs <;> simp_all

lemma paramForm_eq_optional : paramForm p later = .optional ↔
    p.optional = true ∧ p.variadic = false ∧ ∀ q ∈ later, q.isRequired = false := by
  rw [paramForm]
  split_ifs <;> simp_all

/-- The rest of the arguments is taken by the last parameter. -/
lemma pairwise_rest (l : List (FunctionParam τ)) :
    (paramForms l).Pairwise fun form _ => form ≠ .rest := by
  induction l with
  | nil => exact .nil
  | cons p later ih =>
    rw [paramForms, pairwise_cons]
    refine ⟨fun form hform hrest => ?_, ih⟩
    obtain ⟨_, rfl⟩ := paramForm_eq_rest.mp hrest
    simp [paramForms] at hform

/-- An argument can be left out where a parameter is declared so. -/
def ParamForm.CanBeLeftOut (form : ParamForm) : Prop := form = .optional ∨ form = .rest

/-- Where nothing is required, every argument can be left out, unless a parameter that is not the
last would take the rest of them. -/
lemma canBeLeftOut_paramForms (h : ∀ q ∈ later, q.isRequired = false) :
    (∀ form ∈ paramForms later, form.CanBeLeftOut) ↔ ∀ q ∈ later.dropLast, q.variadic = false := by
  induction later with
  | nil => simp [paramForms]
  | cons q rest ih =>
    rw [forall_mem_cons] at h
    rw [paramForms, forall_mem_cons, ih h.2]
    have hfirst : (paramForm q rest).CanBeLeftOut ↔ q.variadic = false ∨ rest = [] := by
      have hrequired := h.1
      rw [ParamForm.CanBeLeftOut, paramForm_eq_rest, paramForm_eq_optional]
      cases hv : q.variadic <;> cases ho : q.optional <;> simp_all [FunctionParam.isRequired]
    rw [hfirst]
    cases rest with
    | nil => simp
    | cons next rest => simp [dropLast_cons_of_ne_nil]

/-- Behind an optional parameter, and no required one after it, stands one that would take the rest
of the arguments and is not the last. -/
def StrandsArray (params : List (FunctionParam τ)) : Prop :=
  ∃ front p later, params = front ++ p :: later ∧ p.optional = true ∧ p.variadic = false ∧
    (∀ q ∈ later, q.isRequired = false) ∧ ∃ q ∈ later.dropLast, q.variadic = true

lemma strandsArray_cons : StrandsArray (p :: later) ↔
    (paramForm p later = .optional ∧ ∃ q ∈ later.dropLast, q.variadic = true) ∨
      StrandsArray later := by
  constructor
  · rintro ⟨front, q, rest, heq, hoptional, hvariadic, hrequired, hstranded⟩
    cases front with
    | nil =>
      obtain ⟨rfl, rfl⟩ := List.cons.inj heq
      exact .inl ⟨paramForm_eq_optional.mpr ⟨hoptional, hvariadic, hrequired⟩, hstranded⟩
    | cons first front =>
      obtain ⟨rfl, rfl⟩ := List.cons.inj heq
      exact .inr ⟨front, q, rest, rfl, hoptional, hvariadic, hrequired, hstranded⟩
  · rintro (⟨hform, hstranded⟩ | ⟨front, q, rest, rfl, h⟩)
    · obtain ⟨hoptional, hvariadic, hrequired⟩ := paramForm_eq_optional.mp hform
      exact ⟨[], p, later, rfl, hoptional, hvariadic, hrequired, hstranded⟩
    · exact ⟨p :: front, q, rest, rfl, h⟩

/-- **What can be left out comes last, unless an array is stranded behind it.** -/
lemma pairwise_optional_iff (l : List (FunctionParam τ)) :
    ((paramForms l).Pairwise fun a b => a = .optional → b.CanBeLeftOut) ↔ ¬ StrandsArray l := by
  induction l with
  | nil => simp [paramForms, StrandsArray]
  | cons p later ih =>
    rw [paramForms, pairwise_cons, ih, strandsArray_cons, not_or, not_and]
    refine and_congr ?_ Iff.rfl
    constructor
    · rintro h hform ⟨q, hq, hvariadic⟩
      have hlater := (paramForm_eq_optional.mp hform).2.2
      have hplain := (canBeLeftOut_paramForms hlater).mp (fun form hmem => h form hmem hform) q hq
      simp [hplain] at hvariadic
    · intro h form hmem hform
      have hlater := (paramForm_eq_optional.mp hform).2.2
      refine (canBeLeftOut_paramForms hlater).mpr (fun q hq => ?_) form hmem
      simpa using fun hvariadic => h hform ⟨q, hq, hvariadic⟩

end Forms

/-- **Each name of a list is searched for among those that are neither reserved nor before it.** -/
lemma endsAt_declaredFrom {τ : Type} (l : List (FunctionParam τ)) (position : Nat)
    (seen : List String) :
    let names := (declaredFrom position seen l).map name
    ∀ i, ∀ p ∈ l[i]?, ∃ name ∈ names[i]?, EndsAt
      (fun x => x ∈ reservedWords ∨ x ∈ seen ∨ x ∈ names.take i)
      (paramBase p.name (position + i)) name := by
  induction l generalizing position seen with
  | nil => simp
  | cons p later ih =>
    intro names i q hq
    cases i with
    | zero =>
      obtain rfl : p = q := by simpa using hq
      exact ⟨_, rfl, by simpa using endsAt_paramName p.name position seen⟩
    | succ i =>
      obtain ⟨name, hname, hends⟩ :=
        ih (position + 1) (paramName p.name position seen :: seen) i q hq
      refine ⟨name, hname, ?_⟩
      simpa [names, declaredFrom, or_assoc, or_left_comm, Nat.add_assoc, Nat.add_comm 1] using hends

def paramTexts (params : List (FunctionParam ShownType)) : List String :=
  (declaredParams params).map text

/-- **Printed parameter lists.** Only the last parameter is printed with three points. Behind one
that is printed with a question mark stand only such and one with three points, if and only if no
array is stranded there. -/
theorem pairwise_paramTexts_iff (params : List (FunctionParam ShownType)) :
    paramsText params = joined ", " (paramTexts params) ∧
    (paramTexts params).length = params.length ∧
    ((paramTexts params).Pairwise fun text _ => ¬ ShowsRest text) ∧
    (((paramTexts params).Pairwise fun a b => ShowsOptional a → ShowsOptional b ∨ ShowsRest b) ↔
      ¬ StrandsArray params) := by
  have hnames := name_declaredFrom params 0 []
  have hforms : (declaredParams params).map form = paramForms params :=
    form_declaredFrom params 0 []
  refine ⟨rfl, ?_, ?_, ?_⟩
  · rw [paramTexts, length_map, ← length_map form, hforms, length_paramForms]
  · rw [paramTexts, pairwise_map]
    have hrest := pairwise_rest params
    rw [← hforms, pairwise_map] at hrest
    refine hrest.imp_of_mem fun ha _ h => ?_
    rwa [showsRest_text (hnames _ ha)]
  · rw [← pairwise_optional_iff, ← hforms, paramTexts, pairwise_map, pairwise_map]
    refine List.Pairwise.iff_of_mem fun ha hb => ?_
    rw [showsOptional_text (hnames _ ha), showsOptional_text (hnames _ hb),
      showsRest_text (hnames _ hb)]
    rfl

/-- An optional parameter, one that would take the rest of the arguments, and another optional
one. -/
def strandedArray : List (FunctionParam ShownType) :=
  [⟨some "a", .single (.named "string") "string", true, false⟩,
   ⟨some "b", .single (.named "number") "number", false, true⟩,
   ⟨some "c", .single (.named "boolean") "boolean", true, false⟩]

/-- The second parameter is printed like a required one behind an optional one. -/
theorem misplaced_strandedArray :
    paramsText strandedArray = "a?: string, b: number[], c?: boolean" ∧
    ¬ (paramTexts strandedArray).Pairwise fun a b => ShowsOptional a →
      ShowsOptional b ∨ ShowsRest b := by
  decide +kernel

/-- **Printed names of parameters.** They differ, none is reserved, and all are legal: the search
for each ends at a candidate that is neither reserved nor a name before it. -/
theorem shownNames_legal (params : List (FunctionParam ShownType)) :
    let names := (paramTexts params).map shownName
    paramsText params = joined ", " (paramTexts params) ∧ names.length =
      params.length ∧ names.Nodup ∧
    (∀ name ∈ names, Legal name ∧ name ∉ reservedWords) ∧
    ∀ i, ∀ p ∈ params[i]?, ∃ name ∈ names[i]?,
      EndsAt (fun x => x ∈ reservedWords ∨ x ∈ names.take i) (paramBase p.name i) name := by
  intro names
  have hnames : names = (declaredFrom 0 [] params).map name := by
    rw [show names = ((declaredFrom 0 [] params).map text).map shownName from rfl, map_map]
    exact map_congr_left fun p hp => shownName_text (name_declaredFrom params 0 [] p hp)
  have hlength : names.length = params.length := by
    rw [hnames, length_map, ← length_map form, form_declaredFrom, length_paramForms]
  have hends : ∀ i, ∀ p ∈ params[i]?, ∃ name ∈ names[i]?,
      EndsAt (fun x => x ∈ reservedWords ∨ x ∈ names.take i) (paramBase p.name i) name := by
    simpa [hnames] using endsAt_declaredFrom params 0 []
  have hfound : ∀ i, ∀ name ∈ names[i]?, ∃ p : FunctionParam ShownType,
      EndsAt (fun x => x ∈ reservedWords ∨ x ∈ names.take i) (paramBase p.name i) name := by
    intro i name hname
    have hi : i < params.length := hlength ▸ (List.getElem?_eq_some_iff.mp hname).1
    obtain ⟨other, hother, hend⟩ := hends i _ (getElem?_eq_getElem hi)
    obtain rfl : other = name := Option.some.inj (hother.symm.trans hname)
    exact ⟨_, hend⟩
  refine ⟨rfl, hlength, ?_, ?_, hends⟩
  · rw [nodup_iff_getElem?_ne_getElem?]
    intro i j hij hj heq
    obtain ⟨p, n, _, hfree, _⟩ := hfound j _ (getElem?_eq_getElem hj)
    rw [getElem?_eq_getElem hj, ← getElem?_take_of_lt hij] at heq
    exact hfree (.inr (mem_of_getElem? heq))
  · intro name hname
    obtain ⟨i, hi⟩ := getElem?_of_mem hname
    obtain ⟨p, hend⟩ := hfound i name hi
    refine ⟨(legal_paramBase p.name i).of_endsAt hend, fun hreserved => ?_⟩
    obtain ⟨n, _, hfree, _⟩ := hend
    exact hfree (.inl hreserved)

/-- Names that come to one identifier, a reserved word, no name and one like it, and a digit. -/
def crowdedNames : List (FunctionParam ShownType) :=
  [some "a b", some "a_b", some "class", none, some "arg3", some "1"].map fun name =>
    ⟨name, .single (.named "any") "any", false, false⟩

theorem shownNames_crowdedNames :
    (paramTexts crowdedNames).map shownName = ["a_b", "a_b_1", "class_1", "arg3", "arg3_1", "_1"] ∧
    ((paramTexts crowdedNames).map shownName).Nodup :=
  ⟨by decide +kernel, (shownNames_legal crowdedNames).2.2.1⟩

end AmbientDecl

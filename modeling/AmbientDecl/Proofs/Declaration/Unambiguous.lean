import AmbientDecl.Proofs.Declaration.FunctionForm
import AmbientDecl.Proofs.Declaration.Label

/-!
# The text of a type says what it is

Two types that a declaration can express are equal if they are printed alike
(`Expressible.eq_of_chars_eq`).

**Recovering.** Something is recovered from what is written if nothing else could be written there,
where it is known what can follow (`Recoverable`). Lists are recovered from their items if their
separator can follow an item and not the list (`recoverable_intercalate`).

**Levels.** A type is recovered before a mark that closes what it stands in (`ReadsBack`), and what
stands before the brackets of an array also before brackets and bars (`HeadReadsBack`). Each level
is recovered from the one inside it, and one induction goes through the forms
(`Expressible.recovered`).
-/

namespace AmbientDecl

open Text TypeExpr List

section Recovering

variable {α : Type} {D : α → Prop} {S T : List Char → Prop} {f : α → List Char}
  {sep r r' : List Char}
  {l l' : List α}

/-- What is written before a text of the class `S` is found again, among everything with the
property `D`. -/
def Recoverable (D : α → Prop) (S : List Char → Prop) (f : α → List Char) (a : α) : Prop :=
  ∀ ⦃b⦄, D b → ∀ ⦃r r'⦄, S r → S r' → f a ++ r = f b ++ r' → a = b ∧ r = r'

/-- A separator can follow an item, and so can what follows a list, which the separator does not
start. -/
structure Divides (sep : List Char) (S T : List Char → Prop) : Prop where
  inner : ∀ r, S (sep ++ r)
  outer : ∀ r, T r → S r
  apart : ∀ r, T r → ¬ sep <+: r

lemma Divides.more (h : Divides sep S T) (l : List α) (hr : T r) : S (moreChars sep f l ++ r) := by
  cases l with
  | nil => exact h.outer r hr
  | cons a l =>
    rw [moreChars, flatMap_cons, append_assoc, append_assoc]
    exact h.inner _

lemma recoverable_more (h : Divides sep S T) (hl : ∀ a ∈ l, Recoverable D S f a)
    (hl' : ∀ b ∈ l', D b)
    (hr : T r) (hr' : T r') (heq : moreChars sep f l ++ r = moreChars sep f l' ++ r') :
    l = l' ∧ r = r' := by
  have hapart : ∀ {b : α} {l : List α} {r r' : List Char}, T r →
      moreChars sep f (b :: l) ++ r' ≠ r := by
    rintro b l r r' hr rfl
    refine h.apart _ hr ?_
    rw [moreChars, flatMap_cons, append_assoc, append_assoc]
    exact prefix_append _ _
  induction l generalizing l' with
  | nil =>
    cases l' with
    | nil => exact ⟨rfl, heq⟩
    | cons b l' => exact absurd heq.symm (hapart hr)
  | cons a l ih =>
    cases l' with
    | nil => exact absurd heq (hapart hr')
    | cons b l' =>
      simp only [moreChars, flatMap_cons, append_assoc, append_cancel_left_eq] at heq
      obtain ⟨ha, hl⟩ := forall_mem_cons.mp hl
      obtain ⟨hb, hmore⟩ := forall_mem_cons.mp hl'
      obtain ⟨rfl, hrest⟩ := ha hb (h.more l hr) (h.more l' hr') heq
      obtain ⟨rfl, hend⟩ := ih hl hmore hrest
      exact ⟨rfl, hend⟩

/-- **A list is recovered from its items.** -/
lemma recoverable_intercalate (h : Divides sep S T) (hne : l ≠ [])
    (hl : ∀ a ∈ l, Recoverable D S f a) :
    Recoverable (fun l => l ≠ [] ∧ ∀ b ∈ l, D b) T (fun l => sep.intercalate (l.map f)) l := by
  rintro l' ⟨hne', hl'⟩ r r' hr hr' heq
  obtain ⟨a, l, rfl⟩ := exists_cons_of_ne_nil hne
  obtain ⟨b, l', rfl⟩ := exists_cons_of_ne_nil hne'
  simp only [intercalate_map_cons, append_assoc] at heq
  obtain ⟨ha, hl⟩ := forall_mem_cons.mp hl
  obtain ⟨hb, hmore⟩ := forall_mem_cons.mp hl'
  obtain ⟨rfl, hrest⟩ := ha hb (h.more l hr) (h.more l' hr') heq
  obtain ⟨rfl, hend⟩ := recoverable_more h hl hmore hr hr' hrest
  exact ⟨rfl, hend⟩

/-- A list that may be empty is recovered if the empty one is told from others. -/
lemma recoverable_of_ne_nil {g : List α → List Char} (hl : ∀ a ∈ l, D a)
    (hempty : ∀ {l r r'}, (∀ a ∈ l, D a) → l ≠ [] → T r' → g l ++ r ≠ g [] ++ r')
    (h : l ≠ [] → Recoverable (fun l => l ≠ [] ∧ ∀ a ∈ l, D a) T g l) :
    Recoverable (fun l => ∀ a ∈ l, D a) T g l := by
  intro l' hl' r r' hr hr' heq
  by_cases hne : l = []
  · subst hne
    by_cases hne' : l' = []
    · subst hne'
      exact ⟨rfl, append_cancel_left heq⟩
    · exact absurd heq.symm (hempty hl' hne' hr)
  · by_cases hne' : l' = []
    · subst hne'
      exact absurd heq (hempty hl hne hr')
    · exact h hne ⟨hne', hl'⟩ hr hr' heq

/-- A separator divides a list if it starts with a mark that can follow an item, and nothing that
can follow the list starts with it. -/
lemma Divides.ofMarks {sep : String} {marks marks' : List String}
    (hstart : (marks.any fun m => m.toList.isPrefixOf sep.toList) = true)
    (hmarks : marks' ⊆ marks) (hsep : sep ≠ "") (hall : (marks'.all fun m =>
      !m.toList.isPrefixOf sep.toList && !sep.toList.isPrefixOf m.toList) = true) :
    Divides sep.toList (Before marks) (Before marks') where
  inner r := by
    obtain ⟨m, hm, hstart⟩ := any_eq_true.mp hstart
    exact Or.inr ⟨m, hm, (List.isPrefixOf_iff_prefix.mp hstart).trans (prefix_append _ _)⟩
  outer _ hr := hr.mono hmarks
  apart _ hr := hr.not_starts hsep hall

end Recovering

namespace TypeNode

variable {scope : TypeScope} {t t' : TypeNode} {r r' : List Char} {new new' : Bool}
  {items items' : List (String × TypeNode)} {result : TypeNode}

/-- A type is recovered from its text. -/
def ReadsBack (scope : TypeScope) (t : TypeNode) : Prop :=
  Recoverable Expressible (Before typeEnds) (chars scope) t

/-- A type that is no array is recovered from its text in an array or a union. -/
def HeadReadsBack (scope : TypeScope) (t : TypeNode) : Prop :=
  Recoverable (fun t => t.Expressible ∧ t.rank = 0) (Before headEnds) (headChars scope) t

lemma iterate_core (t : TypeNode) : array^[t.rank] t.core = t := by
  induction t using TypeNode.core.induct with
  | case1 element ih => rw [core, rank, Function.iterate_succ_apply', ih]
  | case2 t hne =>
    rw [core, rank]
    · rfl
    · exact hne
    · exact hne

lemma brackets_append_inj {m n : Nat} (hr : ¬ "[]".toList <+: r) (hr' : ¬ "[]".toList <+: r')
    (heq : brackets m ++ r = brackets n ++ r') : m = n ∧ r = r' := by
  induction m generalizing n with
  | zero =>
    cases n with
    | zero => exact ⟨rfl, heq⟩
    | succ n => exact absurd ⟨_, heq.symm⟩ hr
  | succ m ih =>
    cases n with
    | zero => exact absurd ⟨_, heq⟩ hr'
    | succ n =>
      simp only [brackets, cons_append, List.cons.injEq, true_and] at heq
      obtain ⟨rfl, hrest⟩ := ih heq
      exact ⟨rfl, hrest⟩

/-- **A type is recovered as an alternative if what its brackets stand behind is.** -/
lemma HeadReadsBack.alternative (h : HeadReadsBack scope t.core) :
    Recoverable Expressible (Before alternativeEnds) (headChars scope) t := by
  intro b hb r r' hr hr' heq
  have hnone : ∀ {r}, Before alternativeEnds r → ¬ "[]".toList <+: r :=
    fun h => h.not_starts (by decide) (by decide)
  rw [headChars_eq t, headChars_eq b, append_assoc, append_assoc] at heq
  obtain ⟨hcore, hbrackets⟩ := h hb.core (before_brackets _ hr) (before_brackets _ hr') heq
  obtain ⟨hrank, hrest⟩ := brackets_append_inj (hnone hr) (hnone hr') hbrackets
  exact ⟨by rw [← iterate_core t, ← iterate_core b, hcore, hrank], hrest⟩

/-- What stands before the colon of an item has neither a colon nor a parenthesis. -/
lemma ne_of_isItemKey {key : String} (h : IsItemKey key) : ∀ c ∈ key.toList, c ≠ ':' ∧ c ≠ ')' := by
  obtain ⟨name, hname, hkey⟩ := h
  have hchars : ∀ c ∈ name.toList, c ≠ ':' ∧ c ≠ ')' := by
    intro c hc
    have hident := hname c hc
    constructor <;>
    · rintro rfl
      revert hident
      decide
  rcases hkey with rfl | rfl | rfl
  · simpa using hchars
  · simpa [or_imp, forall_and] using hchars
  · exact hchars

lemma recoverable_item {item : String × TypeNode} (hitem : IsItem item)
    (h : ReadsBack scope item.2) :
    Recoverable IsItem (Before typeEnds) (itemChars scope) item := by
  intro other hother r r' hr hr' heq
  simp only [itemChars, append_assoc, cons_append] at heq
  obtain ⟨hkey, hrest⟩ := run_append_inj (p := fun c => c != ':')
    (fun c hc => by simpa using (ne_of_isItemKey hitem.1 c hc).1)
    (fun c hc => by simpa using (ne_of_isItemKey hother.1 c hc).1) (stops_cons (by decide))
    (stops_cons (by decide)) heq
  simp only [List.cons.injEq, true_and] at hrest
  obtain ⟨htype, hend⟩ := h hother.2 hr hr' hrest
  exact ⟨Prod.ext (String.toList_injective hkey) htype, hend⟩

/-- The items of a function are recovered, also if there are none. -/
lemma recoverable_items (hitems : ∀ item ∈ items, IsItem item)
    (h : ∀ item ∈ items, ReadsBack scope item.2) :
    Recoverable (fun items => ∀ item ∈ items, IsItem item) (Before [")"])
      (fun items => ", ".toList.intercalate (items.map (itemChars scope))) items := by
  have hdivides : Divides ", ".toList (Before typeEnds) (Before [")"]) :=
    Divides.ofMarks (by decide) (by decide) (by decide) (by decide)
  refine recoverable_of_ne_nil hitems (fun {items r r'} hitems hne hr' heq => ?_) fun hne =>
    recoverable_intercalate hdivides hne fun item hitem =>
      recoverable_item (hitems item hitem) (h item hitem)
  -- what follows starts with a parenthesis, and no item does
  obtain ⟨item, more, rfl⟩ := exists_cons_of_ne_nil hne
  have hkey := ne_of_isItemKey (hitems item mem_cons_self).1
  have hstops : Stops (fun c => c != ')') r' := hr'.stops (by decide)
  simp only [intercalate_map_cons, itemChars, map_nil, intercalate_nil, nil_append] at heq
  rw [← heq] at hstops
  cases hchars : item.1.toList with
  | nil => simp [Stops, hchars] at hstops
  | cons c cs =>
    rw [hchars] at hkey hstops
    exact (hkey c mem_cons_self).2 (by simpa [Stops] using hstops)

variable (hscope : scope.Plain)

include hscope

/-- **A function is recovered if its items and what it gives are.** -/
lemma FunctionForm.readsBack (hform : FunctionForm t new items result)
    (hitems : ∀ item ∈ items, ReadsBack scope item.2) (hresult : ReadsBack scope result) :
    ReadsBack scope t := by
  intro b hb r r' hr hr' heq
  by_cases hfunction : b.IsFunction
  · obtain ⟨new', items', result', hform'⟩ := hb.functionForm hfunction
    rw [hform.chars_eq, hform'.chars_eq] at heq
    -- one letter tells the two kinds of functions apart
    have hnew : new = new' := by
      cases new <;> cases new' <;> simp [functionOpening] at heq ⊢
    subst hnew
    have hclose : ") => ".toList = ")".toList ++ " => ".toList := rfl
    simp only [hclose, append_assoc, append_cancel_left_eq] at heq
    obtain ⟨hsame, hrest⟩ := recoverable_items hform.isItem hitems hform'.isItem
      (before_append ")" (by decide) _) (before_append ")" (by decide) _) heq
    simp only [append_cancel_left_eq] at hrest
    obtain ⟨rfl, hend⟩ := hresult hform'.expressible hr hr' hrest
    exact ⟨hform.unique hform' hsame, hend⟩
  · exact absurd heq.symm (hb.chars_ne_function hscope hfunction hr' hform)

/-- **A type that is no function is recovered if its alternatives are.** -/
lemma Expressible.readsBack (ht : t.Expressible) (hfunction : ¬ t.IsFunction)
    (h : ∀ a ∈ t.alternatives, HeadReadsBack scope a.core) : ReadsBack scope t := by
  intro b hb r r' hr hr' heq
  have hdivides : Divides " | ".toList (Before alternativeEnds) (Before typeEnds) :=
    Divides.ofMarks (by decide) (by decide) (by decide) (by decide)
  by_cases hfunction' : b.IsFunction
  · obtain ⟨new, items, result, hform⟩ := hb.functionForm hfunction'
    exact absurd heq (ht.chars_ne_function hscope hfunction hr hform)
  · rw [ht.chars_alternatives hfunction, hb.chars_alternatives hfunction'] at heq
    obtain ⟨hsame, hend⟩ := recoverable_intercalate hdivides ht.alternatives.1
      (fun a ha => (h a ha).alternative) hb.alternatives hr hr' heq
    exact ⟨ht.eq_of_alternatives hb hsame, hend⟩

/-- A head is compared with those of its own form only. -/
lemma HeadForm.headReadsBack {o : Opening} (h : HeadForm scope t o)
    (hread : Recoverable (fun b => b.Expressible ∧ HeadForm scope b o) (Before headEnds)
      (headChars scope) t) :
    HeadReadsBack scope t := by
  rintro b ⟨hb, hrank⟩ r r' hr hr' heq
  obtain ⟨o', hform⟩ : ∃ o, HeadForm scope b o := hb.headForm hrank
  obtain rfl := h.opening_eq hscope hform heq
  exact hread ⟨hb, hform⟩ hr hr' heq

/-- A type is recovered behind a parenthesis if it is recovered alone. -/
lemma ReadsBack.parenthesized (h : ReadsBack scope t)
    (text : t.headChars scope = '(' :: t.chars scope ++ [')']) : HeadReadsBack scope t := by
  refine HeadForm.headReadsBack hscope (.parenthesized text) ?_
  rintro b ⟨hb, hform⟩ r r' _ _ heq
  cases hform with
  | parenthesized text' =>
    have hbody : t.chars scope ++ (")".toList ++ r) = b.chars scope ++ (")".toList ++ r') := by
      simpa [text, text'] using heq
    obtain ⟨hsame, hend⟩ := h hb (before_append ")" (by decide) r)
      (before_append ")" (by decide) r') hbody
    exact ⟨hsame, append_cancel_left hend⟩

lemma headReadsBack_string {text : String}
    (token : string? text.toList = some (text.toList, [])) :
    HeadReadsBack scope (.literal text) := by
  refine HeadForm.headReadsBack hscope (.string token) ?_
  rintro b ⟨hb, hform⟩ r r' _ _ heq
  cases hform with
  | @string text' token' =>
    have htexts : text.toList ++ r = text'.toList ++ r' := by
      simpa only [headChars, chars_literal] using heq
    obtain ⟨hsame, hend⟩ := string?_append_inj token token' htexts
    exact ⟨congrArg _ (String.toList_injective hsame), hend⟩

lemma headReadsBack_number {text : String}
    (token : number? text.toList = some (text.toList, [])) :
    HeadReadsBack scope (.literal text) := by
  refine HeadForm.headReadsBack hscope (.number token) ?_
  rintro b ⟨hb, hform⟩ r r' hr hr' heq
  cases hform with
  | @number text' token' =>
    have htexts : text.toList ++ r = text'.toList ++ r' := by
      simpa only [headChars, chars_literal] using heq
    obtain ⟨hsame, hend⟩ := run_append_inj (chars_of_number? token).1 (chars_of_number? token').1
      (hr.stops (by decide)) (hr'.stops (by decide)) htexts
    exact ⟨congrArg _ (String.toList_injective hsame), hend⟩

omit hscope in
/-- Arguments are recovered, also if there are none. -/
lemma recoverable_arguments {args : List TypeNode} (hargs : ∀ t ∈ args, t.Expressible)
    (h : ∀ t ∈ args, ReadsBack scope t) : Recoverable (fun args => ∀ t ∈ args, t.Expressible)
      (Stops (· == '<')) (argumentChars scope) args := by
  have hdivides : Divides ", ".toList (Before typeEnds) (Before [">"]) :=
    Divides.ofMarks (by decide) (by decide) (by decide) (by decide)
  refine recoverable_of_ne_nil hargs (fun _ hne hr' heq => ?_) fun hne args' hargs' r r' _ _ heq =>
    ?_
  · rw [argumentChars, nil_append, argumentChars_of_ne_nil hne] at heq
    rw [← heq] at hr'
    simp [Stops] at hr'
  · rw [argumentChars_of_ne_nil hne, argumentChars_of_ne_nil hargs'.1] at heq
    simp only [cons_append, append_assoc, List.cons.injEq, true_and] at heq
    obtain ⟨hsame, hend⟩ := recoverable_intercalate hdivides hne h hargs'
      (before_append ">" (by decide) r) (before_append ">" (by decide) r') heq
    exact ⟨hsame, append_cancel_left hend⟩

/-- A word is recovered if its arguments are. -/
lemma WordForm.headReadsBack {word : String} {args : List TypeNode}
    (hword : WordForm t word args) (hform : HeadForm scope t .word)
    (h : ∀ t ∈ args, ReadsBack scope t) :
    HeadReadsBack scope t := by
  refine hform.headReadsBack hscope ?_
  rintro b ⟨_, hform'⟩ r r' hr hr' heq
  obtain ⟨word', args', hword'⟩ := hform'.wordForm
  rw [hword.chars_eq hscope, hword'.chars_eq hscope, append_assoc, append_assoc] at heq
  obtain ⟨hwords, hrest⟩ := run_append_inj (spelling_of_isPrintedWord hword.isPrintedWord).1
    (spelling_of_isPrintedWord hword'.isPrintedWord).1
    (stops_argumentChars args (by decide) (hr.stops (by decide)))
    (stops_argumentChars args' (by decide) (hr'.stops (by decide))) heq
  obtain ⟨rfl, hend⟩ := recoverable_arguments hword.expressible h hword'.expressible
    (hr.stops (by decide))
    (hr'.stops (by decide)) hrest
  obtain rfl := String.toList_injective hwords
  exact ⟨hword.unique hword', hend⟩

omit hscope in
/-- No field starts like the key of a dictionary. -/
lemma stops_fieldChars (f : RecordField TypeNode) (r : List Char) :
    Stops (· == '[') (fieldChars scope f ++ r) := by
  have hbracket : ¬ NameChar '[' := by decide
  rw [fieldChars, label]
  split
  · rename_i hname
    cases hchars : f.name.toList with
    | nil => cases f.optional <;> exact stops_cons (by decide)
    | cons c cs =>
      refine stops_cons (beq_eq_false_iff_ne.mpr ?_)
      rintro rfl
      exact hbracket (nameChar_of_isIdentifier hname _ (hchars ▸ mem_cons_self))
  · rw [stringLiteral, String.toList_ofList]
    exact stops_cons (by decide)

/-- A field without a description whose type can be expressed. -/
def IsField (f : RecordField TypeNode) : Prop := f.description = none ∧ f.type.Expressible

omit hscope in
lemma recoverable_field {f : RecordField TypeNode} (hf : f.description = none)
    (h : ReadsBack scope f.type) : Recoverable IsField (Before typeEnds) (fieldChars scope) f := by
  rintro g ⟨hg, htype⟩ r r' hr hr' heq
  have hstops : ∀ (optional : Bool) (r : List Char),
      Stops isLabelChar ((if optional then ['?'] else []) ++ ':' :: r) := by
    intro optional r
    cases optional <;> exact stops_cons (by decide)
  simp only [fieldChars, append_assoc, cons_append] at heq
  obtain ⟨hname, hrest⟩ := label_append_inj (hstops _ _) (hstops _ _) heq
  have hoptional : f.optional = g.optional := by
    cases hf : f.optional <;> cases hg : g.optional <;> simp [hf, hg] at hrest ⊢
  rw [hoptional] at hrest
  obtain ⟨hsame, hend⟩ := h htype hr hr' (by simpa using hrest)
  obtain ⟨name, type, optional, description⟩ := f
  obtain ⟨name', type', optional', description'⟩ := g
  simp only at hname hoptional hsame hf hg
  subst hname hoptional hsame hf hg
  exact ⟨rfl, hend⟩

omit hscope in
/-- The fields of a record are recovered, also if there are none. -/
lemma recoverable_fields {fields : List (RecordField TypeNode)} (hfields : ∀ f ∈ fields, IsField f)
    (h : ∀ f ∈ fields, ReadsBack scope f.type) : Recoverable (fun fields => ∀ f ∈ fields, IsField f)
      (Before headEnds) (fun fields => (record fields).chars scope) fields := by
  have hdivides : Divides "; ".toList (Before typeEnds) (Before [" \x7d"]) :=
    Divides.ofMarks (by decide) (by decide) (by decide) (by decide)
  refine recoverable_of_ne_nil hfields (fun _ hne _ heq => ?_)
    fun hne fields' hfields' r r' _ _ heq => ?_
  · simp [chars_record_nil, chars_record hne] at heq
  · simp only [chars_record hne, chars_record hfields'.1, append_assoc, append_cancel_left_eq]
      at heq
    obtain ⟨hsame, hend⟩ := recoverable_intercalate hdivides hne
      (fun f hf => recoverable_field (hfields f hf).1 (h f hf)) hfields'
      (before_append " \x7d" (by decide) r) (before_append " \x7d" (by decide) r') heq
    exact ⟨hsame, append_cancel_left hend⟩

lemma dictionary_ne_record {key : String} (isKey : key ∈ ["string", "number", "symbol"])
    (value : TypeNode) (fields : List (RecordField TypeNode)) :
    (generic "Object" [.named key, value]).chars scope ++ r ≠ (record fields).chars scope ++
      r' := by
  rw [chars_dictionary hscope isKey]
  cases fields with
  | nil => simp [chars_record_nil]
  | cons f fields =>
    have hstops : Stops (· == '[') (fieldChars scope f ++
        (moreChars "; ".toList (fieldChars scope) fields ++ (" \x7d".toList ++ r'))) :=
          stops_fieldChars f _
    rw [chars_record (cons_ne_nil _ _), intercalate_map_cons]
    have hkey : "\x7b [key: ".toList = "\x7b ".toList ++ "[key: ".toList := rfl
    intro heq
    simp only [hkey, append_assoc, append_cancel_left_eq] at heq
    rw [← heq] at hstops
    simp [Stops] at hstops

lemma headReadsBack_dictionary {key : String}
    (isKey : key ∈ ["string", "number", "symbol"]) {value : TypeNode} (hvalue : value.Expressible)
    (h : ReadsBack scope value) : HeadReadsBack scope (.generic "Object" [.named key, value]) := by
  have hkeys : ∀ {key : String}, key ∈ ["string", "number", "symbol"] →
      ∀ c ∈ key.toList, isIdentRest c = true := by
    intro key hkey
    have hall : (["string", "number", "symbol"].all fun key => key.toList.all isIdentRest) =
      true := by decide
    exact all_eq_true.mp (all_eq_true.mp hall key hkey)
  refine HeadForm.headReadsBack hscope (.dictionary isKey hvalue) ?_
  rintro b ⟨hb, hform⟩ r r' hr hr' heq
  cases hform with
  | @dictionary key' value' isKey' hvalue' =>
    simp only [headChars, chars_dictionary hscope isKey, chars_dictionary hscope isKey',
      append_assoc, append_cancel_left_eq] at heq
    have hstops : ∀ r, Stops isIdentRest ("]: ".toList ++ r) := fun _ => stops_cons (by decide)
    obtain ⟨hkey, hrest⟩ := run_append_inj (hkeys isKey) (hkeys isKey') (hstops _) (hstops _) heq
    obtain ⟨rfl, hend⟩ := h hvalue' (before_append " \x7d" (by decide) r)
      (before_append " \x7d" (by decide) r') (append_cancel_left hrest)
    obtain rfl := String.toList_injective hkey
    exact ⟨rfl, append_cancel_left hend⟩
  | @record fields => exact absurd heq (dictionary_ne_record hscope isKey value fields)

lemma headReadsBack_record {fields : List (RecordField TypeNode)}
    (undescribed : ∀ f ∈ fields, f.description = none)
    (expressible : ∀ f ∈ fields, f.type.Expressible)
    (h : ∀ f ∈ fields, ReadsBack scope f.type) : HeadReadsBack scope (.record fields) := by
  refine HeadForm.headReadsBack hscope (.record undescribed expressible) ?_
  rintro b ⟨hb, hform⟩ r r' hr hr' heq
  cases hform with
  | @dictionary key value isKey =>
    exact absurd heq.symm (dictionary_ne_record hscope isKey value fields)
  | @record fields' undescribed' expressible' =>
    obtain ⟨rfl, hend⟩ := recoverable_fields (fun f hf => ⟨undescribed f hf, expressible f hf⟩) h
      (fun f hf => ⟨undescribed' f hf, expressible' f hf⟩) hr hr' heq
    exact ⟨rfl, hend⟩

/-- A type with one alternative that is no function is recovered if its head is. -/
lemma HeadReadsBack.readsBack (h : HeadReadsBack scope t.core) (ht : t.Expressible)
    (hfunction : ¬ t.IsFunction) (hsingle : t.alternatives = [t]) : ReadsBack scope t := by
  refine ht.readsBack hscope hfunction fun a ha => ?_
  obtain rfl : a = t := by simpa [hsingle] using ha
  exact h

/-- The types of items are recovered if those of the parameters are. -/
lemma readsBack_signatureItems {params : List (FunctionParam TypeNode)}
    {thisType : Option TypeNode} (expressible : ∀ p ∈ params, p.type.Expressible)
    (h : ∀ p ∈ params, ReadsBack scope p.type ∧ HeadReadsBack scope p.type.core)
    (hself : ∀ t ∈ thisType, ReadsBack scope t) :
    ∀ item ∈ signatureItems params thisType, ReadsBack scope item.2 := by
  intro item hitem
  rcases mem_append.mp hitem with hitem | hitem
  · obtain ⟨t, ht, rfl⟩ := Option.map_eq_some_iff.mp (Option.mem_toList.mp hitem)
    exact hself t ht
  · obtain ⟨p, hp, rfl⟩ := mem_map.mp hitem
    have harray : ReadsBack scope (.array p.type) :=
      HeadReadsBack.readsBack hscope (h p hp).2 (.array (expressible p hp)) id rfl
    unfold FunctionParam.item
    cases p.variadic with
    | true => exact harray
    | false => cases p.optional <;> exact (h p hp).1

/-- **Every type that can be expressed is recovered from its text.** -/
lemma Expressible.recovered (h : t.Expressible) :
    ReadsBack scope t ∧ HeadReadsBack scope t.core := by
  -- both levels at once: a union needs the heads of its members, and parentheses need the whole
  -- type
  induction h with
  | @named name known =>
    have hhead : HeadReadsBack scope (.named name) :=
      (WordForm.named known).headReadsBack hscope (.named known) (by simp)
    exact ⟨HeadReadsBack.readsBack hscope hhead (.named known) id rfl, hhead⟩
  | @truth text isTruth =>
    have hhead : HeadReadsBack scope (.literal text) :=
      (WordForm.truth isTruth).headReadsBack hscope (.truth isTruth) (by simp)
    exact ⟨HeadReadsBack.readsBack hscope hhead (.truth isTruth) id rfl, hhead⟩
  | @string text token =>
    have hhead := headReadsBack_string hscope token
    exact ⟨HeadReadsBack.readsBack hscope hhead (.string token) id rfl, hhead⟩
  | @number text token =>
    have hhead := headReadsBack_number hscope token
    exact ⟨HeadReadsBack.readsBack hscope hhead (.number token) id rfl, hhead⟩
  | @array element expressible ih =>
    exact ⟨HeadReadsBack.readsBack hscope ih.2 (.array expressible) id rfl, ih.2⟩
  | @union members several flat expressible ih =>
    have hread : ReadsBack scope (.union members) :=
      Expressible.readsBack hscope (.union several flat expressible) id fun t ht => (ih t ht).2
    exact ⟨hread, hread.parenthesized hscope rfl⟩
  | @generic base args known notObject given expressible ih =>
    have hhead : HeadReadsBack scope (.generic base args) :=
      (WordForm.generic known notObject given expressible).headReadsBack hscope
        (.generic known notObject given expressible) fun t ht => (ih t ht).1
    exact ⟨HeadReadsBack.readsBack hscope hhead (.generic known notObject given expressible) id rfl,
      hhead⟩
  | @dictionary key value isKey expressible ih =>
    have hhead := headReadsBack_dictionary hscope isKey expressible ih.1
    exact ⟨HeadReadsBack.readsBack hscope hhead (.dictionary isKey expressible) id rfl, hhead⟩
  | @record fields undescribed expressible ih =>
    have hhead := headReadsBack_record hscope undescribed expressible fun f hf => (ih f hf).1
    exact ⟨HeadReadsBack.readsBack hscope hhead (.record undescribed expressible) id rfl, hhead⟩
  | @function params returns thisType constructs declarable one expressible result self
      made ih ihresult
      ihself ihmade =>
      have hitems := readsBack_signatureItems hscope expressible ih fun t ht => (ihself t ht).1
      have hread : ReadsBack scope (.function params returns thisType constructs) := by
        obtain ⟨new, items, given, hform⟩ :=
          (Expressible.function declarable one expressible result self made).functionForm trivial
        cases hform with
        | returns hparams hall hgiven =>
          exact (FunctionForm.returns hparams hall hgiven).readsBack hscope hitems
            (ihresult given rfl).1
        | constructs hparams hall hgiven =>
          exact (FunctionForm.constructs hparams hall hgiven).readsBack hscope hitems
            (ihmade given rfl).1
      exact ⟨hread, hread.parenthesized hscope rfl⟩

/-- Types that are printed alike are equal. -/
lemma Expressible.eq_of_chars_eq (h : t.Expressible) (h' : t'.Expressible)
    (heq : t.chars scope = t'.chars scope) : t = t' :=
  ((h.recovered hscope).1 h' (Or.inl rfl) (Or.inl rfl) (congrArg (· ++ []) heq)).1

end TypeNode

/-- Where nothing is declared, the known names are printed as they are. -/
lemma plain_scope_of_empty {e : Emitter} (hforest : e.forest = Forest.empty)
    (hknown : e.settings.knownTypes = standardKnownTypes) (owner : Place)
    (typeParams : List String) :
    (e.printer.directory.scope owner typeParams).Plain := by
  intro name hname
  have hlookup : e.printer.directory.lookup? name = none := by
    have hindex : e.printer.directory.index = [] := by rw [Emitter.printer, hforest]; rfl
    have hnamed : e.printer.directory.named name = [] := by
      rw [Directory.named, Emitter.printer, hforest]
      rfl
    simp [Directory.lookup?, hindex, hnamed]
  have hresolve : e.printer.directory.resolve owner typeParams name = some name := by
    rw [Directory.resolve, hlookup]
    rcases mem_append.mp hname with hprimitive | hstandard
    · simp [hprimitive]
    · simp [Emitter.printer, hknown, hstandard]
  exact hresolve

/-- **Printed types are unambiguous.** Where nothing is declared and the known types are the
standard ones, types that can be expressed are equal if they have the same text. -/
theorem eq_of_showType_eq (e : Emitter) (hforest : e.forest = Forest.empty)
    (hknown : e.settings.knownTypes = standardKnownTypes) (owner : Place) (typeParams : List String)
    {a b : TypeNode} (ha : a.Expressible) (hb : b.Expressible)
    (htext : (e.printer.showType owner typeParams a).value =
      (e.printer.showType owner typeParams b).value) :
    a = b :=
  TypeNode.Expressible.eq_of_chars_eq (plain_scope_of_empty hforest hknown owner typeParams) ha hb
    (congrArg String.toList htext)

/-- A function that gives one of two types. -/
def choosing : TypeNode := .function [] (some (.union [.named "string", .named "number"])) none none

/-- A function or another type. -/
def chosen : TypeNode := .union [.function [] (some (.named "string")) none none, .named "number"]

lemma declarable_nil : Declarable [] where
  named := by simp
  distinct := by simp
  requiredFirst := by simp
  restLast := by simp
  restGiven := by simp

lemma expressible_choosing_chosen : choosing.Expressible ∧ chosen.Expressible := by
  have hstring : (TypeNode.named "string").Expressible := .named (by decide)
  have hnumber : (TypeNode.named "number").Expressible := .named (by decide)
  have hfunction : ∀ {t : TypeNode}, t.Expressible →
      (TypeNode.function [] (some t) none none).Expressible :=
    fun ht => .function declarable_nil (by simp) (by simp) (by simpa using ht) (by simp) (by simp)
  constructor
  · exact hfunction (.union (by simp) (by simp) (by simpa using ⟨hstring, hnumber⟩))
  · exact .union (by simp) (by simp) (by simpa using ⟨hfunction hstring, hnumber⟩)

/-- The two have the same words and differ in parentheses only. -/
theorem showType_choosing_ne_chosen :
    (Emitter.start .standard Forest.empty).settings.knownTypes = standardKnownTypes ∧
      choosing.Expressible ∧ chosen.Expressible ∧
      ((Emitter.start .standard Forest.empty).printer.showType Forest.empty.top [] choosing).value =
        "() => string | number" ∧
      ((Emitter.start .standard Forest.empty).printer.showType Forest.empty.top [] choosing).value ≠
        ((Emitter.start .standard Forest.empty).printer.showType Forest.empty.top
          [] chosen).value := by
  obtain ⟨hchoosing, hchosen⟩ := expressible_choosing_chosen
  refine ⟨rfl, hchoosing, hchosen, by decide +kernel, fun htext => ?_⟩
  have heq := eq_of_showType_eq (Emitter.start .standard Forest.empty) rfl rfl Forest.empty.top []
    hchoosing hchosen htext
  simp [choosing, chosen] at heq

end AmbientDecl

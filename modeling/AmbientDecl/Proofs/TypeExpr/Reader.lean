import AmbientDecl.TypeExpr.Parser
import Mathlib.Tactic.Common

/-!
# What the readers of type expressions do

A reader gives a value with the tokens that it leaves, and the proof that it took some. Here the
proofs are put aside: `Yields` and `Scans` relate the outcome of a reader to the value and the rest,
and for every reader one lemma says in terms of its parts what it yields. Later proofs use these
lemmas and do not look into the readers.

* `Yields` is for readers that take at least one token, `Scans` for those that may take none.
* `yields_bind` is the step from a reader to the next.
* `yields_alternatives`, `yields_arguments`, `yieldsItems_iff` and `yields_moreFields` are
  the four loops: one more round, or the end.
-/

namespace AmbientDecl.TypeExpr

variable {mark : Punct} {name : String} {items : List FunctionItem}

variable {α γ : Type} {ts rest : List Token} {a : α} {primary : Reader} {t : TypeNode}

/-- The reader has read `a` and left `rest`. -/
def Yields (outcome : Outcome α ts) (a : α) (rest : List Token) : Prop :=
  ∃ p, outcome = .ok p ∧ p.value = a ∧ p.rest = rest

/-- The reader, which may take nothing, has read `a` and left `rest`. -/
def Scans (outcome : Except SyntaxError (Scanned Token α ts)) (a : α) (rest : List Token) : Prop :=
  ∃ p, outcome = .ok p ∧ p.value = a ∧ p.rest = rest

lemma bind_eq_ok {δ : Type} {x : Except SyntaxError γ} {f : γ → Except SyntaxError δ} {d : δ} :
    x >>= f = .ok d ↔ ∃ c, x = .ok c ∧ f c = .ok d := by
  cases x <;> simp [bind, Except.bind]

/-- A reader goes on where another one has succeeded. -/
lemma yields_bind {x : Except SyntaxError γ} {f : γ → Outcome α ts} :
    Yields (x >>= f) a rest ↔ ∃ c, x = .ok c ∧ Yields (f c) a rest := by
  simp only [Yields, bind_eq_ok]
  constructor
  · rintro ⟨p, ⟨c, hc, hp⟩, ha⟩
    exact ⟨c, hc, p, hp, ha⟩
  · rintro ⟨c, hc, p, hp, ha⟩
    exact ⟨p, ⟨c, hc, hp⟩, ha⟩

lemma scans_bind {x : Except SyntaxError γ} {f : γ → Except SyntaxError (Scanned Token α ts)} :
    Scans (x >>= f) a rest ↔ ∃ c, x = .ok c ∧ Scans (f c) a rest := by
  simp only [Scans, bind_eq_ok]
  constructor
  · rintro ⟨p, ⟨c, hc, hp⟩, ha⟩
    exact ⟨c, hc, p, hp, ha⟩
  · rintro ⟨c, hc, p, hp, ha⟩
    exact ⟨p, ⟨c, hc, hp⟩, ha⟩

@[simp] lemma yields_ok {p : Parsed Token α ts} : Yields (.ok p) a rest ↔
    p.value = a ∧ p.rest = rest := by
  simp [Yields]

@[simp] lemma yields_pure {p : Parsed Token α ts} :
    Yields (pure p) a rest ↔ p.value = a ∧ p.rest = rest := yields_ok

@[simp] lemma yields_error {e : SyntaxError} : ¬ Yields (.error e : Outcome α ts) a rest := by
  simp [Yields]

@[simp] lemma scans_ok {p : Scanned Token α ts} : Scans (.ok p) a rest ↔
    p.value = a ∧ p.rest = rest := by
  simp [Scans]

@[simp] lemma scans_pure {p : Scanned Token α ts} :
    Scans (pure p) a rest ↔ p.value = a ∧ p.rest = rest := scans_ok

lemma Yields.shorter {outcome : Outcome α ts} (h : Yields outcome a rest) :
    rest.length < ts.length := by
  obtain ⟨p, _, _, rfl⟩ := h
  exact p.shorter

/-! What comes of an outcome that is looked at only for its value and its rest. Both `Yields` and
`Scans` are of the form that is written out here. -/

section Looking

variable {σ : Type} {x : Except SyntaxError σ} {v : σ → γ} {r : σ → List Token} {Q : σ → Prop}

lemma exists_ok_iff {R : γ → List Token → Prop} (h : ∀ p, Q p ↔ R (v p) (r p)) :
    (∃ p, x = .ok p ∧ Q p) ↔ ∃ c mid, (∃ p, x = .ok p ∧ v p = c ∧ r p = mid) ∧ R c mid := by
  simp only [h]
  constructor
  · rintro ⟨p, hp, h⟩
    exact ⟨_, _, ⟨p, hp, rfl, rfl⟩, h⟩
  · rintro ⟨_, _, ⟨p, hp, rfl, rfl⟩, h⟩
    exact ⟨p, hp, h⟩

lemma exists_ok_rest_iff {R : γ → Prop} (h : ∀ p, Q p ↔ R (v p) ∧ r p = rest) :
    (∃ p, x = .ok p ∧ Q p) ↔ ∃ c, (∃ p, x = .ok p ∧ v p = c ∧ r p = rest) ∧ R c := by
  simp only [h]
  constructor
  · rintro ⟨p, hp, hr, rfl⟩
    exact ⟨_, ⟨p, hp, rfl, rfl⟩, hr⟩
  · rintro ⟨_, ⟨p, hp, rfl, rfl⟩, hr⟩
    exact ⟨p, hp, hr, rfl⟩

lemma exists_ok_and_iff {q : List Token} {c : γ} {y : Except SyntaxError γ} :
    (∃ t, y = .ok t ∧ t = c ∧ q = rest) ↔ y = .ok c ∧ q = rest := by
  constructor
  · rintro ⟨t, ht, rfl, hq⟩
    exact ⟨ht, hq⟩
  · rintro ⟨ht, hq⟩
    exact ⟨c, ht, rfl, hq⟩

/-- A mark behind the value decides what comes next. -/
lemma exists_ok_mark_iff {A : γ → List Token → Prop} {B : γ → Prop}
    (hmark : ∀ p mid, r p = .punct mark :: mid → (Q p ↔ A (v p) mid))
    (hother : ∀ p, (∀ mid, r p ≠ .punct mark :: mid) → (Q p ↔ B (v p) ∧ r p = rest)) :
    (∃ p, x = .ok p ∧ Q p) ↔
      (∃ c, (∃ p, x = .ok p ∧ v p = c ∧ r p = rest) ∧ rest.head? ≠ some (.punct mark) ∧ B c) ∨
        ∃ c mid, (∃ p, x = .ok p ∧ v p = c ∧ r p = .punct mark :: mid) ∧ A c mid := by
  constructor
  · rintro ⟨p, hp, h⟩
    by_cases hrest : ∃ mid, r p = .punct mark :: mid
    · obtain ⟨mid, hmid⟩ := hrest
      exact .inr ⟨_, mid, ⟨p, hp, rfl, hmid⟩, (hmark p mid hmid).mp h⟩
    · obtain ⟨hb, rfl⟩ := (hother p (not_exists.mp hrest)).mp h
      refine .inl ⟨_, ⟨p, hp, rfl, rfl⟩, fun hhead => hrest ?_, hb⟩
      exact List.head?_eq_some_iff.mp hhead
  · rintro (⟨_, ⟨p, hp, rfl, rfl⟩, hhead, hb⟩ | ⟨_, mid, ⟨p, hp, rfl, hmid⟩, ha⟩)
    · refine ⟨p, hp, (hother p fun mid hmid => hhead ?_).mpr ⟨hb, rfl⟩⟩
      rw [hmid]
      rfl
    · exact ⟨p, hp, (hmark p mid hmid).mpr ha⟩

end Looking

lemma head?_ne (h : ∀ next, ts ≠ .punct mark :: next) : ts.head? ≠ some (.punct mark) := by
  intro hhead
  obtain ⟨next, rfl⟩ := List.head?_eq_some_iff.mp hhead
  exact h next rfl

/-- A mark that may be missing. -/
def optionally (mark : Punct) (present : Bool) : List Token :=
  if present then [.punct mark] else []

lemma optionally_accept (mark : Punct) (ts : List Token) :
    optionally mark (accept mark ts).1 ++ (accept mark ts).2 = ts := by
  unfold accept
  split
  · rename_i m rest
    by_cases h : m = mark <;> simp [h, optionally]
  · rfl

lemma accept_optionally {present : Bool} {after : List Token}
    (hafter : after.head? ≠ some (.punct mark)) :
    accept mark (optionally mark present ++ after) = (present, after) := by
  cases present with
  | true => simp [optionally, accept]
  | false =>
    simp only [optionally, Bool.false_eq_true, ↓reduceIte, List.nil_append]
    unfold accept
    split
    · rename_i m rest
      have hm : m ≠ mark := by simpa using hafter
      rw [if_neg hm]
    · rfl

lemma yields_expect : Yields (expect mark ts) () rest ↔ ts = .punct mark :: rest := by
  unfold expect
  split
  · rename_i m after
    by_cases h : m = mark <;> simp [h]
  · simp
  · rename_i head tail hne
    simp only [yields_error, List.cons.injEq, false_iff, not_and]
    rintro rfl
    exact absurd rfl (hne mark)

lemma exists_expect_iff {Q : Parsed Token Unit ts → Prop} {B : Prop}
    (h : ∀ p, Q p ↔ B ∧ p.rest = rest) :
    (∃ p, expect mark ts = .ok p ∧ Q p) ↔ B ∧ ts = .punct mark :: rest := by
  simp only [h, ← yields_expect]
  constructor
  · rintro ⟨p, hp, hb, hrest⟩
    exact ⟨hb, p, hp, rfl, hrest⟩
  · rintro ⟨hb, p, hp, -, hrest⟩
    exact ⟨p, hp, hb, hrest⟩

lemma yields_suffixed : Yields (suffixed primary ts) t rest ↔
    ∃ s mid, Yields (primary.read ts) s mid ∧ arrayMarks s mid = (t, rest) := by
  simp only [suffixed, yields_bind, yields_pure]
  exact exists_ok_iff fun p => by rw [Prod.ext_iff]

lemma yields_alternatives {l : List TypeNode} : Yields (alternatives primary ts) l rest ↔
    (∃ t, Yields (suffixed primary ts) t rest ∧ rest.head? ≠ some (.punct .bar) ∧ l = [t]) ∨
    ∃ t mid, Yields (suffixed primary ts) t (.punct .bar :: mid) ∧
      ∃ l', Yields (alternatives primary mid) l' rest ∧ l = t :: l' := by
  conv_lhs => rw [alternatives]
  rw [yields_bind]
  refine exists_ok_mark_iff (fun p mid hmid => ?_) (fun p hne => ?_)
  · obtain ⟨value, _, _⟩ := p
    cases hmid
    simp only [yields_bind, yields_pure]
    exact exists_ok_rest_iff fun q => and_congr_left' eq_comm
  · split
    · rename_i mid hmid
      exact absurd hmid (hne mid)
    · simp [eq_comm]

lemma yields_union : Yields (union primary ts) t rest ↔
    ∃ l, Yields (alternatives primary ts) l rest ∧ primary.unite l = .ok t := by
  simp only [union, yields_bind, yields_pure]
  exact exists_ok_rest_iff fun p => exists_ok_and_iff

/-- One round of the loop over arguments, of which there is at least one. -/
lemma yields_arguments {l : List TypeNode} :
    (∃ args, Yields (arguments primary ts) args rest ∧ l = args.1 :: args.2) ↔
      (∃ t, Yields (union primary ts) t (.punct .greater :: rest) ∧
        (Token.punct .greater :: rest).head? ≠ some (.punct .comma) ∧ l = [t]) ∨
      ∃ t mid, Yields (union primary ts) t (.punct .comma :: mid) ∧
        ∃ l', (∃ args, Yields (arguments primary mid) args rest ∧ l' = args.1 :: args.2) ∧
          l = t :: l' := by
  conv_lhs => enter [1, args]; rw [arguments, yields_bind, ← exists_and_right]
  rw [exists_comm]
  simp only [and_assoc, exists_and_left]
  refine exists_ok_mark_iff (fun p mid hmid => ?_) (fun p hne => ?_)
  · obtain ⟨value, _, _⟩ := p
    cases hmid
    simp only [yields_bind, yields_pure]
    constructor
    · rintro ⟨_, ⟨q, hq, rfl, hrest⟩, rfl⟩
      exact ⟨_, ⟨_, ⟨q, hq, rfl, hrest⟩, rfl⟩, rfl⟩
    · rintro ⟨_, ⟨_, ⟨q, hq, rfl, hrest⟩, rfl⟩, rfl⟩
      exact ⟨_, ⟨q, hq, rfl, hrest⟩, rfl⟩
  · split
    · rename_i mid hmid
      exact absurd hmid (hne mid)
    · simp only [yields_bind, yields_pure, ← exists_and_right]
      rw [exists_comm]
      simp only [and_assoc, exists_and_left]
      exact exists_expect_iff fun q => by simp [and_comm]

lemma scans_parameterType : Scans (parameterType primary ts) t rest ↔
    (atTypeEnd ts = true ∧ t = .any ∧ rest = ts) ∨
      (atTypeEnd ts = false ∧ Yields (union primary ts) t rest) := by
  unfold parameterType
  by_cases h : atTypeEnd ts = true
  · simp [h, eq_comm]
  · simp only [h, Bool.false_eq_true, ↓reduceIte, scans_bind, scans_pure, false_and, true_and,
      false_or]
    rfl

lemma scans_parameter {name : Option String} {item : FunctionItem} :
    Scans (parameter primary name ts) item rest ↔
      ∃ t mid, Scans (parameterType primary (accept .ellipsis ts).2) t mid ∧
        item = .param ⟨name, t, (accept .equals mid).1, (accept .ellipsis ts).1⟩ ∧
          rest = (accept .equals mid).2 := by
  simp only [parameter, scans_bind, scans_pure]
  exact exists_ok_iff fun p => and_congr eq_comm eq_comm

/-- Whether a name and a colon stand at the front. -/
def isLabelled : List Token → Bool
  | .name _ :: .punct .colon :: _ => true
  | _ => false

lemma scans_functionItem_labelled {item : FunctionItem} :
    Scans (functionItem primary (.name name :: .punct .colon :: ts)) item rest ↔
      (name = "this" ∧ ∃ t, Yields (union primary ts) t rest ∧ item = .thisType t) ∨
      (name = "new" ∧ ∃ t, Yields (union primary ts) t rest ∧ item = .constructs t) ∨
      (name ≠ "this" ∧ name ≠ "new" ∧ Scans (parameter primary (some name) ts) item rest) := by
  unfold functionItem
  by_cases hthis : name = "this"
  · subst hthis
    simp only [↓reduceIte, scans_bind, scans_pure, true_and, ne_eq, not_true_eq_false, false_and,
      or_false, show ¬ ("this" = "new") by decide]
    exact exists_ok_rest_iff fun p => and_congr_left' eq_comm
  by_cases hnew : name = "new"
  · subst hnew
    simp only [↓reduceIte, scans_bind, scans_pure, true_and, ne_eq, not_true_eq_false, false_and,
      and_false, or_false, false_or, show ¬ ("new" = "this") by decide]
    exact exists_ok_rest_iff fun p => and_congr_left' eq_comm
  · simp only [hthis, hnew, ↓reduceIte, scans_bind, scans_pure, false_and, ne_eq, not_false_eq_true,
      true_and, false_or]
    rfl

lemma functionItem_eq (h : isLabelled ts = false) :
    functionItem primary ts = parameter primary none ts := by
  unfold functionItem
  split
  · simp [isLabelled] at h
  · rfl

lemma yields_moreFunctionItems :
    Yields (moreFunctionItems primary ts) items rest ↔
      (ts = .punct .closeParen :: rest ∧ items = []) ∨
      ∃ next, ts = .punct .comma :: next ∧ ∃ item mid, Scans (functionItem primary next) item mid ∧
        ∃ items', Yields (moreFunctionItems primary mid) items' rest ∧ items = item :: items' := by
  conv_lhs => rw [moreFunctionItems.eq_def]
  split
  · simp [eq_comm, and_comm]
  · simp only [yields_bind, yields_pure, List.cons.injEq, Token.punct.injEq, reduceCtorEq,
      false_and, true_and, false_or, exists_eq_left']
    exact exists_ok_iff fun item => exists_ok_rest_iff fun more => and_congr_left' eq_comm
  · rename_i hclose hcomma
    refine iff_of_false yields_error ?_
    rintro (⟨rfl, _⟩ | ⟨next, rfl, _⟩)
    · exact hclose _ rfl
    · exact hcomma _ rfl

/-- The reader has read the items from one on, up to the closing parenthesis. -/
def YieldsItems (primary : Reader) (ts rest : List Token) (items : List FunctionItem) : Prop :=
  ∃ item mid, Scans (functionItem primary ts) item mid ∧
    ∃ items', Yields (moreFunctionItems primary mid) items' rest ∧ items = item :: items'

lemma yieldsItems_iff : YieldsItems primary ts rest items ↔
    (∃ item, Scans (functionItem primary ts) item (.punct .closeParen :: rest) ∧
      (Token.punct .closeParen :: rest).head? ≠ some (.punct .comma) ∧ items = [item]) ∨
    ∃ item mid, Scans (functionItem primary ts) item (.punct .comma :: mid) ∧
      ∃ items', YieldsItems primary mid rest items' ∧ items = item :: items' := by
  constructor
  · rintro ⟨item, mid, hitem, items, hmore, rfl⟩
    rcases yields_moreFunctionItems.mp hmore with ⟨rfl, rfl⟩ | ⟨next, rfl, hnext⟩
    · exact .inl ⟨item, hitem, by simp, rfl⟩
    · exact .inr ⟨item, next, hitem, items, hnext, rfl⟩
  · rintro (⟨item, hitem, -, rfl⟩ | ⟨item, mid, hitem, items, hnext, rfl⟩)
    · exact ⟨item, _, hitem, [], yields_moreFunctionItems.mpr (.inl ⟨rfl, rfl⟩), rfl⟩
    · exact ⟨item, _, hitem, items, yields_moreFunctionItems.mpr (.inr ⟨mid, rfl, hnext⟩), rfl⟩

lemma yields_functionItems :
    Yields (functionItems primary ts) items rest ↔ (ts = .punct .closeParen :: rest ∧ items = []) ∨
      (ts.head? ≠ some (.punct .closeParen) ∧ YieldsItems primary ts rest items) := by
  unfold functionItems
  split
  · simp [eq_comm, and_comm]
  · rename_i hne
    have hnot : ts ≠ .punct .closeParen :: rest := hne rest
    simp only [yields_bind, yields_pure, head?_ne hne, hnot, false_and, ne_eq, not_false_eq_true,
      true_and, false_or]
    exact exists_ok_iff fun item => exists_ok_rest_iff fun more => and_congr_left' eq_comm

lemma yields_function : Yields (function primary ts) t rest ↔
    (∃ items, Yields (functionItems primary ts) items rest ∧
      rest.head? ≠ some (.punct .colon) ∧ t = functionOf items none) ∨
    ∃ items mid, Yields (functionItems primary ts) items (.punct .colon :: mid) ∧
      ∃ r, Yields (suffixed primary mid) r rest ∧ t = functionOf items (some r) := by
  rw [function, yields_bind]
  refine exists_ok_mark_iff (fun p mid hmid => ?_) (fun p hne => ?_)
  · obtain ⟨value, _, _⟩ := p
    cases hmid
    simp only [yields_bind, yields_pure]
    exact exists_ok_rest_iff fun q => and_congr_left' eq_comm
  · split
    · rename_i mid hmid
      exact absurd hmid (hne mid)
    · simp [eq_comm]

/-- The name that a token gives to a field. -/
inductive NamesField : Token → String → Prop
  | string (text : String) :
      NamesField (.string text) (String.ofList (text.toList.drop 1).dropLast)
  | name (text : String) : NamesField (.name text) text
  | number (text : String) : NamesField (.number text) text

lemma yields_fieldName : Yields (fieldName ts) name rest ↔
    ∃ key, ts = key :: rest ∧ NamesField key name := by
  constructor
  · intro h
    unfold fieldName at h
    split at h
    · exact absurd h yields_error
    · obtain ⟨rfl, rfl⟩ := yields_ok.mp h
      exact ⟨_, rfl, .string _⟩
    · obtain ⟨rfl, rfl⟩ := yields_ok.mp h
      exact ⟨_, rfl, .name _⟩
    · obtain ⟨rfl, rfl⟩ := yields_ok.mp h
      exact ⟨_, rfl, .number _⟩
    · exact absurd h yields_error
  · rintro ⟨key, rfl, hkey⟩
    cases hkey <;> simp [fieldName]

lemma scans_fieldType {optional : Bool} {value : TypeNode × Bool} :
    Scans (fieldType primary optional ts) value rest ↔
      (ts.head? ≠ some (.punct .colon) ∧ value = (.any, optional) ∧ rest = ts) ∨
      ∃ next, ts = .punct .colon :: next ∧ ∃ t mid, Yields (union primary next) t mid ∧
        value = (t, (accept .equals mid).1 || optional) ∧ rest = (accept .equals mid).2 := by
  unfold fieldType
  split
  · rename_i next
    simp only [scans_bind, scans_pure, List.head?_cons, ne_eq, not_true_eq_false, false_and,
      false_or, List.cons.injEq, true_and, exists_eq_left']
    exact exists_ok_iff fun p => and_congr eq_comm eq_comm
  · rename_i hne
    simp only [scans_ok, ne_eq, head?_ne hne, not_false_eq_true, true_and]
    constructor
    · rintro ⟨rfl, rfl⟩
      exact Or.inl ⟨rfl, rfl⟩
    · rintro (⟨rfl, rfl⟩ | ⟨next, hts, _⟩)
      · exact ⟨rfl, rfl⟩
      · exact absurd hts (hne next)

lemma yields_field {f : RecordField TypeNode} : Yields (field primary ts) f rest ↔
    ∃ name mid, Yields (fieldName ts) name mid ∧
      ∃ value, Scans (fieldType primary (accept .question mid).1 (accept .question mid).2) value
        rest ∧
        f = ⟨name, value.1, value.2, none⟩ := by
  simp only [field, yields_bind, yields_pure]
  exact exists_ok_iff fun name => exists_ok_rest_iff fun p => and_congr_left' eq_comm

def Separates (mark : Punct) : Prop := mark = .comma ∨ mark = .semicolon

lemma yields_moreFields {fs : List (RecordField TypeNode)} :
    Yields (moreFields primary ts) fs rest ↔ (ts = .punct .closeBrace :: rest ∧ fs = []) ∨
      (∃ mark, Separates mark ∧ ts = .punct mark :: .punct .closeBrace :: rest ∧ fs = []) ∨
      ∃ mark next, Separates mark ∧ ts = .punct mark :: next ∧
        next.head? ≠ some (.punct .closeBrace) ∧ ∃ f mid, Yields (field primary next) f mid ∧
          ∃ fs', Yields (moreFields primary mid) fs' rest ∧ fs = f :: fs' := by
  conv_lhs => rw [moreFields.eq_def]
  split
  · simp [Separates, eq_comm, and_comm]
  · rename_i mark after hbrace
    have hclose : mark ≠ .closeBrace := fun h => hbrace (by rw [h])
    split_ifs with hmark
    · simp [show Separates mark from hmark, hclose, eq_comm, and_comm]
    · simp [show ¬ Separates mark from hmark, hclose]
  · rename_i mark next hbrace hne
    have hclose : mark ≠ .closeBrace := fun h => hbrace (by rw [h])
    have hnot : next ≠ .punct .closeBrace :: rest := hne rest
    split_ifs with hmark
    · simp only [yields_bind, yields_pure, List.cons.injEq, Token.punct.injEq, hclose, hnot,
        and_false, false_and, false_or, exists_false, exists_and_left, existsAndEq,
          and_true, true_and,
        show Separates mark from hmark, head?_ne hne, ne_eq, not_false_eq_true]
      exact exists_ok_iff fun first => exists_ok_rest_iff fun more => and_congr_left' eq_comm
    · simp [show ¬ Separates mark from hmark, hclose]
  · simp_all

lemma yields_fields {fs : List (RecordField TypeNode)} :
    Yields (fields primary ts) fs rest ↔ (ts = .punct .closeBrace :: rest ∧ fs = []) ∨
      (ts.head? ≠ some (.punct .closeBrace) ∧ ∃ f mid, Yields (field primary ts) f mid ∧
        ∃ fs', Yields (moreFields primary mid) fs' rest ∧ fs = f :: fs') := by
  unfold fields
  split
  · simp [eq_comm, and_comm]
  · rename_i hne
    have hnot : ts ≠ .punct .closeBrace :: rest := hne rest
    simp only [yields_bind, yields_pure, head?_ne hne, hnot, false_and, ne_eq, not_false_eq_true,
      true_and, false_or]
    exact exists_ok_iff fun first => exists_ok_rest_iff fun more => and_congr_left' eq_comm

lemma yields_term_openParen : Yields (term primary (.punct .openParen :: ts)) t rest ↔
    Yields (union primary ts) t (.punct .closeParen :: rest) := by
  simp only [term, markedTerm, yields_bind, yields_pure]
  exact exists_congr fun p => and_congr_right fun _ => exists_expect_iff fun q => Iff.rfl

lemma yields_term_openBrace : Yields (term primary (.punct .openBrace :: ts)) t rest ↔
    ∃ fs, Yields (fields primary ts) fs rest ∧ t = .record fs := by
  simp only [term, markedTerm, yields_bind, yields_pure]
  exact exists_ok_rest_iff fun p => and_congr_left' eq_comm

lemma yields_term_star : Yields (term primary (.punct .star :: ts)) t rest ↔
    t = .any ∧ rest = ts := by
  simp [term, markedTerm, eq_comm]

lemma yields_term_question : Yields (term primary (.punct .question :: ts)) t rest ↔
    (atTypeEnd ts = true ∧ t = .any ∧ rest = ts) ∨
      (atTypeEnd ts = false ∧ ∃ s, Yields (suffixed primary ts) s rest ∧
        primary.unite [s, .null] = .ok t) := by
  simp only [term, markedTerm]
  by_cases h : atTypeEnd ts = true
  · simp [h, eq_comm]
  · simp only [h, Bool.false_eq_true, ↓reduceIte, yields_bind, yields_pure, false_and, true_and,
      false_or]
    exact exists_ok_rest_iff fun p => exists_ok_and_iff

lemma yields_term_bang : Yields (term primary (.punct .bang :: ts)) t rest ↔
    Yields (suffixed primary ts) t rest := by
  simp only [term, markedTerm, yields_bind, yields_pure]
  rfl

def startsType : Punct → Bool
  | .openParen | .openBrace | .star | .question | .bang => true
  | _ => false

lemma not_yields_term (h : startsType mark = false) :
    ¬ Yields (term primary (.punct mark :: ts)) t rest := by
  cases mark <;> simp_all [startsType, term, markedTerm]

lemma yields_term_function :
    Yields (term primary (.name "function" :: .punct .openParen :: ts)) t rest ↔
    Yields (function primary ts) t rest := by
  simp only [term, namedTerm, and_self, ↓reduceIte, yields_bind, yields_pure]
  rfl

lemma yields_term_applied (hmark : mark = .less ∨ mark = .dotLess)
    (hname : name ≠ "true" ∧ name ≠ "false") :
    Yields (term primary (.name name :: .punct mark :: ts)) t rest ↔
      ∃ args, Yields (arguments primary ts) args rest ∧
        t = TypeNode.applied name args.1 args.2 := by
  have hparen : ¬ (mark = .openParen ∧ name = "function") := by
    rintro ⟨rfl, -⟩
    simp at hmark
  simp only [term, namedTerm]
  rw [if_neg hparen, if_pos ⟨hmark, hname⟩]
  simp only [yields_bind, yields_pure]
  exact exists_ok_rest_iff fun p => and_congr_left' eq_comm

/-- Whether a name goes on with a list of parameters or arguments. -/
def nameGoesOn (name : String) : List Token → Bool
  | .punct mark :: _ => (mark = .openParen && name = "function") ||
      ((mark = .less || mark = .dotLess) && name ≠ "true" && name ≠ "false")
  | _ => false

lemma yields_term_bareName (h : nameGoesOn name ts = false) :
    Yields (term primary (.name name :: ts)) t rest ↔ t = bareName name ∧ rest = ts := by
  simp only [term, namedTerm]
  split
  · rename_i mark after
    have hparen : ¬ (mark = .openParen ∧ name = "function") := by
      rintro ⟨rfl, rfl⟩
      simp [nameGoesOn] at h
    have hless : ¬ ((mark = .less ∨ mark = .dotLess) ∧ name ≠ "true" ∧ name ≠ "false") := by
      rintro ⟨hmark, htrue, hfalse⟩
      rcases hmark with rfl | rfl <;> simp [nameGoesOn, htrue, hfalse] at h
    rw [if_neg hparen, if_neg hless]
    simp [eq_comm]
  · simp [eq_comm]

end AmbientDecl.TypeExpr

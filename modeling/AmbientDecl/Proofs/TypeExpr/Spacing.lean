import AmbientDecl.Proofs.TypeExpr.Lexeme

/-!
# White space between tokens

A text that can be cut into tokens consists of them and of the white space around them, and more
white space at the places between them makes no difference.

**Classes of lexemes.** What a class takes from a text is the front of it, and the class takes the
same from every beginning of the text that reaches so far (`Local`). So does the choice between the
classes (`local_lexemeCut?`): where an earlier class takes nothing from a text, it takes nothing
from a beginning.

**Layouts.** A `Layout` is tokens with white space before, between and behind them. A text with
tokens has one (`exists_layout`), and its tokens up to any place between two of them are the tokens
of the text up to there (`tokens_upTo`). So white space can be put there (`tokens_widen`), one gap
after the other.
-/

namespace AmbientDecl.TypeExpr

open Text List Option Prod Lexeme

variable {p : Char → Bool} {c : Char} {cs b taken rest : List Char} {cut : Cut} {ts us : List Token}

/-- A reader of the front of a text that looks at what it takes and at where the text goes on. -/
structure Local {α : Type} (text : α → List Char) (f : List Char → Option (α × List Char)) :
    Prop where
  whole : ∀ {cs a rest}, f cs = some (a, rest) → text a ≠ [] ∧ cs = text a ++ rest
  /-- What is taken from a text is taken from a beginning of it. -/
  shorter : ∀ {a rest b}, f (text a ++ rest ++ b) = some (a, rest ++ b) →
    f (text a ++ rest) = some (a, rest)
  /-- If nothing is taken from a text, then nothing is taken from a beginning of it. -/
  none : ∀ {cs b}, f (cs ++ b) = none → f cs = none

/-- A local reader of characters. -/
abbrev LocalCut (f : List Char → Option Cut) : Prop := Local (fun cs => cs) f

/-- A local reader that may also take nothing. -/
structure LocalTail (g : List Char → Cut) : Prop where
  whole : ∀ cs, (g cs).1 ++ (g cs).2 = cs
  shorter : ∀ {taken rest b}, g (taken ++ rest ++ b) = (taken, rest ++ b) →
    g (taken ++ rest) = (taken, rest)

/-- A character of a class. -/
def charOf? (p : Char → Bool) : List Char → Option Cut
  | [] => none
  | c :: cs => if p c then some ([c], cs) else none

/-- What one reader takes, and what another takes behind it. -/
def followed (f : List Char → Option Cut) (g : List Char → Cut) (cs : List Char) : Option Cut :=
  (f cs).map fun cut => (cut.1 ++ (g cut.2).1, (g cut.2).2)

/-- What a reader takes behind a word. -/
def after? (word : List Char) (f : List Char → Option Cut) (cs : List Char) : Option Cut :=
  if word <+: cs then (f (cs.drop word.length)).map fun cut => (word ++ cut.1, cut.2) else none

lemma after?_append (word : List Char) (f : List Char → Option Cut) (cs : List Char) :
    after? word f (word ++ cs) = (f cs).map fun cut => (word ++ cut.1, cut.2) := by
  rw [after?, if_pos (prefix_append _ _), drop_left]

lemma Stops.of_append (h : Stops p (cs ++ b)) : Stops p cs := by
  cases cs with
  | nil => simp [Stops]
  | cons c cs => exact h

lemma stops_dropWhile (p : Char → Bool) (cs : List Char) : Stops p (cs.dropWhile p) := by
  induction cs with
  | nil => simp [Stops]
  | cons c cs ih =>
    cases hc : p c with
    | true => rwa [dropWhile_cons_of_pos hc]
    | false =>
      rw [dropWhile_cons_of_neg (by simp [hc])]
      exact stops_cons hc

section Combinators

variable {α β : Type} {text : α → List Char} {f g : List Char → Option (α × List Char)}
  {r q : List Char → Option Cut} {tail : List Char → Cut}

lemma Local.or (hf : Local text f) (hg : Local text g) : Local text fun cs => (f cs).or (g cs) where
  whole h := by
    rcases or_eq_some_iff.mp h with h | ⟨-, h⟩
    · exact hf.whole h
    · exact hg.whole h
  shorter h := by
    rw [or_eq_some_iff]
    rcases or_eq_some_iff.mp h with h | ⟨hnone, h⟩
    · exact .inl (hf.shorter h)
    · exact .inr ⟨hf.none hnone, hg.shorter h⟩
  none h := by
    rw [or_eq_none_iff] at h ⊢
    exact ⟨hf.none h.1, hg.none h.2⟩

lemma Local.map {text' : β → List Char} {k : α → β} (hf : Local text f)
    (hk : ∀ a, text' (k a) = text a) :
    Local text' fun cs => (f cs).map fun cut => (k cut.1, cut.2) where
  whole h := by
    obtain ⟨⟨a, rest⟩, ha, heq⟩ := map_eq_some_iff.mp h
    obtain ⟨rfl, rfl⟩ := mk.inj heq
    rw [hk]
    exact hf.whole ha
  shorter h := by
    obtain ⟨⟨a, rest⟩, ha, heq⟩ := map_eq_some_iff.mp h
    obtain ⟨rfl, rfl⟩ := mk.inj heq
    rw [hk] at ha ⊢
    rw [hf.shorter ha]
    rfl
  none h := by
    rw [map_eq_none_iff] at h ⊢
    exact hf.none h

/-- A reader is local if it takes the same whatever stands behind. -/
lemma Local.of_append (hwhole : ∀ {cs a rest}, f cs = some (a, rest) →
      text a ≠ [] ∧ cs = text a ++ rest ∧ f (text a) = some (a, []))
    (happend : ∀ {cs a rest}, f cs = some (a, rest) → ∀ b, f (cs ++ b) = some (a, rest ++ b)) :
    Local text f where
  whole h := ⟨(hwhole h).1, (hwhole h).2.1⟩
  shorter h := happend (hwhole h).2.2 _
  none {cs b} h := by
    cases hcs : f cs with
    | none => rfl
    | some cut => rw [happend hcs b] at h; cases h

lemma local_charOf? (p : Char → Bool) : LocalCut (charOf? p) := by
  refine .of_append (fun {cs taken rest} h => ?_) (fun {cs taken rest} h b => ?_) <;>
    · rcases cs with _ | ⟨c, cs⟩
      · cases h
      obtain ⟨hc, heq⟩ := ite_none_right_eq_some.mp h
      obtain ⟨rfl, rfl⟩ := mk.inj (some.inj heq)
      simp [charOf?, hc]

lemma localTail_takeWhile (p : Char → Bool) :
    LocalTail fun cs => (cs.takeWhile p, cs.dropWhile p) where
  whole _ := takeWhile_append_dropWhile
  shorter {taken rest b} h := by
    obtain ⟨htake, hdrop⟩ := mk.inj h
    have hall : ∀ c ∈ taken, p c = true := fun c hc => mem_takeWhile_imp (htake ▸ hc)
    have hstops := stops_dropWhile p (taken ++ rest ++ b)
    rw [hdrop] at hstops
    obtain ⟨htake', hdrop'⟩ := takeWhile_append_of_stops hstops.of_append taken
    rw [htake', hdrop', takeWhile_eq_self_iff.mpr hall, dropWhile_eq_nil_iff.mpr hall, nil_append]

lemma Local.optional (hr : LocalCut r) : LocalTail fun cs => (r cs).getD ([], cs) where
  whole cs := by
    cases h : r cs with
    | none => rfl
    | some cut => exact (hr.whole h).2.symm
  shorter {taken rest b} h := by
    cases hcut : r (taken ++ rest ++ b) with
    | none =>
      rw [hcut] at h
      obtain ⟨rfl, -⟩ := mk.inj h
      rw [hr.none hcut]
      rfl
    | some cut =>
      rw [hcut, getD_some] at h
      simp [hr.shorter (h ▸ hcut)]

lemma Local.followed (hr : LocalCut r) (htail : LocalTail tail) : LocalCut (followed r tail) where
  whole h := by
    obtain ⟨⟨word, behind⟩, hword, heq⟩ := map_eq_some_iff.mp h
    obtain ⟨rfl, rfl⟩ := mk.inj heq
    exact ⟨by simp [(hr.whole hword).1], by rw [append_assoc, htail.whole, (hr.whole hword).2]⟩
  shorter {taken rest b} h := by
    obtain ⟨⟨word, behind⟩, hword, heq⟩ := map_eq_some_iff.mp h
    obtain ⟨rfl, hrest⟩ := mk.inj heq
    obtain ⟨steps, hsteps⟩ : ∃ steps, tail behind = (steps, rest ++ b) := ⟨_, Prod.ext rfl hrest⟩
    have hbehind := htail.whole behind
    simp only [hsteps] at hbehind hword ⊢
    rw [← hbehind, ← append_assoc] at hword hsteps
    rw [append_assoc word] at hword ⊢
    rw [AmbientDecl.TypeExpr.followed, hr.shorter hword, map_some, htail.shorter hsteps]
  none h := by
    rw [AmbientDecl.TypeExpr.followed, map_eq_none_iff] at h ⊢
    exact hr.none h

lemma Local.after (hr : LocalCut r) (word : List Char) : LocalCut (after? word r) where
  whole {cs taken rest} h := by
    obtain ⟨⟨behind, rfl⟩, h⟩ := ite_none_right_eq_some.mp h
    rw [drop_left] at h
    obtain ⟨⟨inner, last⟩, hinner, heq⟩ := map_eq_some_iff.mp h
    obtain ⟨rfl, rfl⟩ := mk.inj heq
    exact ⟨by simp [(hr.whole hinner).1], by rw [(hr.whole hinner).2, append_assoc]⟩
  shorter {taken rest b} h := by
    obtain ⟨⟨behind, hbehind⟩, h⟩ := ite_none_right_eq_some.mp h
    rw [← hbehind, drop_left] at h
    obtain ⟨⟨inner, last⟩, hinner, heq⟩ := map_eq_some_iff.mp h
    obtain ⟨rfl, rfl⟩ := mk.inj heq
    rw [append_assoc, append_assoc, append_cancel_left_eq, ← append_assoc] at hbehind
    rw [hbehind] at hinner
    rw [append_assoc, after?_append, hr.shorter hinner, map_some]
  none {cs b} h := by
    by_cases hword : word <+: cs
    · obtain ⟨cs, rfl⟩ := hword
      rw [append_assoc, after?_append, map_eq_none_iff] at h
      rw [after?_append, hr.none h, map_none]
    · rw [after?, if_neg hword]

end Combinators

lemma run?_eq (p : Char → Bool) (cs : List Char) :
    run? p cs = followed (charOf? p) (fun cs => (cs.takeWhile p, cs.dropWhile p)) cs := by
  cases cs with
  | nil => rfl
  | cons c cs => cases hc : p c <;> simp [run?, followed, charOf?, hc]

lemma local_run? (p : Char → Bool) : LocalCut (run? p) := by
  rw [funext (run?_eq p)]
  exact (local_charOf? p).followed (localTail_takeWhile p)

lemma stringTail?_whole {quote : Char} (h : stringTail? quote cs = some (taken, rest)) :
    taken ≠ [] ∧ cs = taken ++ rest ∧ stringTail? quote taken = some (taken, []) := by
  fun_induction stringTail? quote cs generalizing taken rest with
  | case1 => simp at h
  | case2 cs =>
    obtain ⟨rfl, rfl⟩ := mk.inj (some.inj h)
    exact ⟨by simp, rfl, by simp [stringTail?]⟩
  | case3 => simp at h
  | case4 => simp at h
  | case5 d cs hd hquote ih =>
    obtain ⟨inner, hinner, heq⟩ := map_eq_some_iff.mp h
    obtain ⟨rfl, rfl⟩ := mk.inj heq
    obtain ⟨-, hcs, hagain⟩ := ih hinner
    refine ⟨by simp, by rw [hcs]; rfl, ?_⟩
    rw [stringTail?, if_neg hquote, if_pos rfl]
    simp [hd, hagain]
  | case6 c cs hquote hescape ih =>
    obtain ⟨inner, hinner, heq⟩ := map_eq_some_iff.mp h
    obtain ⟨rfl, rfl⟩ := mk.inj heq
    obtain ⟨-, hcs, hagain⟩ := ih hinner
    refine ⟨by simp, by rw [hcs]; rfl, ?_⟩
    rw [stringTail?.eq_def]
    simp [hquote, hescape, hagain]

lemma local_stringTail? (quote : Char) : LocalCut (stringTail? quote) :=
  .of_append stringTail?_whole stringTail?_append

lemma string?_eq (cs : List Char) :
    string? cs = (after? ['"'] (stringTail? '"') cs).or (after? ['\''] (stringTail? '\'') cs) := by
  cases cs with
  | nil => rfl
  | cons c cs =>
    by_cases hdouble : c = '"'
    · subst hdouble
      simp [string?, after?]
    · by_cases hsingle : c = '\'' <;> simp [string?, after?, hdouble, hsingle, Ne.symm]

lemma local_string? : LocalCut string? := by
  rw [funext string?_eq]
  exact ((local_stringTail? _).after _).or ((local_stringTail? _).after _)

lemma unsignedNumber?_eq (cs : List Char) : unsignedNumber? cs =
    followed (run? isDecimal) (fun cs => (after? ['.'] (run? isDecimal) cs).getD ([], cs)) cs := by
  unfold unsignedNumber? followed
  cases run? isDecimal cs with
  | none => rfl
  | some whole =>
    obtain ⟨digits, rest⟩ := whole
    simp only [bind_eq_bind, bind_some, map_some]
    split
    · rename_i after
      cases hfraction : run? isDecimal after <;> simp [after?, hfraction]
    · rename_i hpoint
      have hnone : ¬ ['.'] <+: rest := fun ⟨after, hafter⟩ => hpoint after hafter.symm
      simp [after?, hnone]

lemma local_unsignedNumber? : LocalCut unsignedNumber? := by
  rw [funext unsignedNumber?_eq]
  exact (local_run? _).followed ((local_run? _).after _).optional

lemma number?_eq (cs : List Char) :
    number? cs = (after? ['-'] unsignedNumber? cs).or (unsignedNumber? cs) := by
  unfold number?
  split
  · rename_i rest
    have hnone : unsignedNumber? ('-' :: rest) = none := by
      have hminus : isDecimal '-' = false := by decide
      simp [unsignedNumber?, run?, hminus]
    rw [hnone, or_none]
    simp [after?]
  · rename_i hminus
    have hnone : ¬ ['-'] <+: cs := by
      rintro ⟨rest, hrest⟩
      exact hminus rest hrest.symm
    rw [after?, if_neg hnone, none_or]

lemma local_number? : LocalCut number? := by
  rw [funext number?_eq]
  exact (local_unsignedNumber?.after _).or local_unsignedNumber?

lemma identifier?_eq (cs : List Char) : identifier? cs = followed (charOf? isIdentStart)
      (fun cs => (cs.takeWhile isIdentRest, cs.dropWhile isIdentRest)) cs := by
  cases cs with
  | nil => rfl
  | cons c cs => cases hc : isIdentStart c <;> simp [identifier?, followed, charOf?, hc]

lemma local_identifier? : LocalCut identifier? := by
  rw [funext identifier?_eq]
  exact (local_charOf? _).followed (localTail_takeWhile _)

lemma pathSteps_whole (cs : List Char) : (pathSteps cs).1 ++ (pathSteps cs).2 = cs := by
  fun_induction pathSteps cs with
  | case1 => rfl
  | case2 c rest hc word after hfound taken behind hsteps ih =>
    rw [hsteps] at ih
    rw [(local_identifier?.whole hfound).2, ← ih]
    simp
  | case3 => rfl
  | case4 => rfl

lemma pathSteps_shorter : ∀ {taken rest : List Char}, pathSteps (taken ++ rest ++ b) =
    (taken, rest ++ b) →
    pathSteps (taken ++ rest) = (taken, rest) := by
  intro taken
  induction hlength : taken.length using Nat.strong_induction_on generalizing taken with
  | _ n ih =>
    subst hlength
    intro rest h
    cases hcs : taken ++ rest with
    | nil =>
      obtain ⟨rfl, rfl⟩ := append_eq_nil_iff.mp hcs
      rw [pathSteps]
    | cons c cs =>
      rw [hcs, cons_append] at h
      by_cases hfound : isPathMark c = true ∧ ∃ word after, identifier? (cs ++ b) =
        some (word, after)
      · -- one step, and then the others
        obtain ⟨hc, word, after, hword⟩ := hfound
        rw [pathSteps_of_identifier? hc hword] at h
        obtain ⟨rfl, hrest⟩ := mk.inj h
        have hwhole := pathSteps_whole after
        rw [hrest] at hwhole
        have hcs : word ++ ((pathSteps after).1 ++ rest) = cs := by simpa using hcs
        rw [← hcs, append_assoc, append_assoc, hwhole] at hword
        have hafter : pathSteps ((pathSteps after).1 ++ rest ++ b) =
            ((pathSteps after).1, rest ++ b) := by
          rw [append_assoc, hwhole, ← hrest]
        have hagain := ih _ (by simp only [cons_append, length_cons, length_append]; omega)
          rfl hafter
        have hshort : identifier? cs = some (word, (pathSteps after).1 ++ rest) := by
          rw [← hcs]
          refine local_identifier?.shorter (b := b) ?_
          rw [append_assoc, append_assoc, hwhole, hword]
        rw [pathSteps_of_identifier? hc hshort, hagain]
      · have hnone : isPathMark c = true → identifier? (cs ++ b) = none := by
          intro hc
          cases hword : identifier? (cs ++ b) with
          | none => rfl
          | some cut => exact absurd ⟨hc, cut.1, cut.2, hword⟩ hfound
        rw [pathSteps_of_none hnone] at h
        obtain ⟨rfl, hrest⟩ := mk.inj h
        rw [nil_append] at hcs
        rw [pathSteps_of_none fun hc => local_identifier?.none (hnone hc), hcs]

lemma localTail_pathSteps : LocalTail pathSteps := ⟨pathSteps_whole, pathSteps_shorter⟩

/-- The characters up to a mark, and the mark. -/
def upTo? (mark : Char) (cs : List Char) : Option Cut :=
  match cs.dropWhile (· != mark) with
  | [] => none
  | c :: rest => some (cs.takeWhile (· != mark) ++ [c], rest)

lemma local_upTo? (mark : Char) : LocalCut (upTo? mark) := by
  refine .of_append (fun {cs taken rest} h => ?_) (fun {cs taken rest} h b => ?_)
  · unfold upTo? at h
    split at h
    · cases h
    rename_i c rest hdrop
    obtain ⟨rfl, rfl⟩ := mk.inj (some.inj h)
    have hwhole := takeWhile_append_dropWhile (p := (· != mark)) (l := cs)
    have hstops := stops_dropWhile (· != mark) cs
    rw [hdrop] at hwhole hstops
    have hmark : Stops (· != mark) [c] := stops_cons (hstops c rfl)
    refine ⟨by simp, by simpa using hwhole.symm, ?_⟩
    have hall : ∀ d ∈ cs.takeWhile (· != mark), (d != mark) = true := fun d hd =>
      mem_takeWhile_imp (p := (· != mark)) hd
    obtain ⟨htake, hdrop⟩ := takeWhile_append_of_stops hmark (cs.takeWhile (· != mark))
    rw [upTo?, htake, hdrop, takeWhile_eq_self_iff.mpr hall, dropWhile_eq_nil_iff.mpr hall,
      nil_append]
  · unfold upTo? at h ⊢
    split at h
    · cases h
    rename_i c rest hdrop
    obtain ⟨rfl, rfl⟩ := mk.inj (some.inj h)
    obtain ⟨htake, hdrop'⟩ := takeWhile_append_of_dropWhile hdrop b
    rw [htake, hdrop', cons_append]

lemma modulePath?_eq (cs : List Char) : modulePath? cs =
    (after? ['"'] (upTo? '"') cs).or (run? (fun c => !endsModulePath c) cs) := by
  cases cs with
  | nil => rfl
  | cons c cs =>
    by_cases hc : c = '"'
    · subst hc
      have hquote : endsModulePath '"' = true := by decide
      have hnone : run? (fun c => !endsModulePath c) ('"' :: cs) = none := by simp [run?, hquote]
      rw [hnone, or_none]
      cases hdrop : cs.dropWhile (· != '"') <;> simp [modulePath?, after?, upTo?, hdrop]
    · rw [modulePath?, if_neg hc, after?, if_neg (by simpa using Ne.symm hc), none_or]

lemma local_modulePath? : LocalCut modulePath? := by
  rw [funext modulePath?_eq]
  exact ((local_upTo? _).after _).or (local_run? _)

lemma moduleName?_eq (cs : List Char) :
    moduleName? cs = after? moduleMark (followed modulePath? pathSteps) cs := by
  by_cases hmark : moduleMark <+: cs
  · obtain ⟨cs, rfl⟩ := hmark
    rw [moduleName?_mark, after?_append, followed, Option.map_map]
    simp only [append_assoc, Function.comp_def]
  · rw [moduleName?_of_unmarked hmark, after?, if_neg hmark]

lemma name?_eq (cs : List Char) :
    name? cs = (moduleName? cs).or (followed identifier? pathSteps cs) := by
  unfold name? followed
  cases moduleName? cs with
  | some cut => rfl
  | none => cases identifier? cs <;> rfl

lemma local_name? : LocalCut name? := by
  rw [funext name?_eq, funext moduleName?_eq]
  exact ((local_modulePath?.followed localTail_pathSteps).after _).or
    (local_identifier?.followed localTail_pathSteps)

lemma punct?_text (mark : Punct) (rest : List Char) :
    punct? (mark.text.toList ++ rest) = some (mark, rest) := by
  cases mark <;> rfl

lemma local_punct? : Local (fun mark : Punct => mark.text.toList) punct? := by
  refine .of_append (fun {cs mark rest} h => ?_) punct?_append
  have hne : mark.text.toList ≠ [] := by cases mark <;> simp [Punct.text]
  refine ⟨hne, ?_, by simpa using punct?_text mark []⟩
  unfold punct? at h
  split at h
  · obtain ⟨rfl, rfl⟩ := mk.inj (some.inj h)
    rfl
  · obtain ⟨rfl, rfl⟩ := mk.inj (some.inj h)
    rfl
  · obtain ⟨single, hsingle, heq⟩ := map_eq_some_iff.mp h
    obtain ⟨rfl, rfl⟩ := mk.inj heq
    have hchar := find?_some hsingle
    rw [beq_iff_eq] at hchar
    rw [hchar]
    rfl
  · cases h

/-- The classes in the order in which they are tried. -/
lemma lexemeCut?_eq (cs : List Char) : lexemeCut? cs =
    ((run? isBlank cs).map fun cut => (blank cut.1, cut.2)).or
      (((string? cs).map fun cut => (token (.string (String.ofList cut.1)), cut.2)).or
        (((number? cs).map fun cut => (token (.number (String.ofList cut.1)), cut.2)).or
          (((name? cs).map fun cut => (token (.name (String.ofList cut.1)), cut.2)).or
            ((punct? cs).map fun cut => (token (.punct cut.1), cut.2))))) := by
  unfold lexemeCut?
  cases run? isBlank cs <;> cases string? cs <;> cases number? cs <;> cases name? cs <;>
    cases punct? cs <;> rfl

/-- **A lexeme is the front of a text, and that of every beginning of the text that holds it.** -/
lemma local_lexemeCut? : Local text lexemeCut? := by
  rw [funext lexemeCut?_eq]
  have hwritten : ∀ kind : String → Token, (∀ text, (kind text).text = text) → ∀ cs,
      (token (kind (String.ofList cs))).text = cs := by
    intro kind hkind cs
    rw [text, hkind, String.toList_ofList]
  have hblank := (local_run? isBlank).map fun cs => (rfl : (blank cs).text = cs)
  have hstring := local_string?.map (hwritten .string fun _ => rfl)
  have hnumber := local_number?.map (hwritten .number fun _ => rfl)
  have hname := local_name?.map (hwritten .name fun _ => rfl)
  have hpunct := local_punct?.map fun mark => (rfl : (token (.punct mark)).text = mark.text.toList)
  exact hblank.or (hstring.or (hnumber.or (hname.or hpunct)))

/-- White space, or nothing. -/
@[ext] structure Gap where
  chars : List Char
  blank : ∀ c ∈ chars, isBlank c = true

/-- There is white space in the second gap if there is some in the first. -/
def Gap.Within (gap wider : Gap) : Prop := wider.chars = [] → gap.chars = []

def Gap.none : Gap := ⟨[], List.forall_mem_nil _⟩

/-- Tokens with white space before, between and behind them. -/
structure Layout where
  before : Gap
  /-- The tokens, each with the white space behind it. -/
  pieces : List (Token × Gap)

/-- Tokens with the white space behind them, as they are written. -/
def written (pieces : List (Token × Gap)) : List Char :=
  pieces.flatMap fun piece => piece.1.text.toList ++ piece.2.chars

namespace Layout

def text (l : Layout) : List Char := l.before.chars ++ written l.pieces

def tokens (l : Layout) : List Token := l.pieces.map fst

def gaps (l : Layout) : List Gap := l.before :: l.pieces.map snd

/-- The same tokens, with white space wherever there was some before. -/
def Widens (l wide : Layout) : Prop :=
  wide.tokens = l.tokens ∧ List.Forall₂ Gap.Within l.gaps wide.gaps

end Layout

lemma written_cons (t : Token) (gap : Gap) (pieces : List (Token × Gap)) :
    written ((t, gap) :: pieces) = t.text.toList ++ (gap.chars ++ written pieces) := by
  simp [written]

/-- A token that is cut off from some text. -/
def Cuttable (t : Token) : Prop :=
  ∃ rest, lexemeCut? (t.text.toList ++ rest) = some (.token t, rest)

lemma cuttable_of_tokens (h : tokens cs = .ok ts) : ∀ t ∈ ts, Cuttable t := by
  induction hlength : cs.length using Nat.strong_induction_on generalizing cs ts with
  | _ n ih =>
    subst hlength
    rcases cs with _ | ⟨c, cs⟩
    · rw [tokens_nil, Except.ok.injEq] at h
      simp [← h]
    · obtain ⟨l, rest, us, hcut, hshorter, hus, rfl⟩ := exists_cut_of_tokens h
      have hothers := ih _ hshorter hus rfl
      cases l with
      | blank blanks => simpa [token?] using hothers
      | token t =>
        have hwhole := (local_lexemeCut?.whole hcut).2
        rw [hwhole] at hcut
        simpa [token?] using ⟨⟨rest, hcut⟩, hothers⟩

lemma Cuttable.head {t : Token} (h : Cuttable t) :
    ∃ c cs, t.text.toList = c :: cs ∧ isBlank c = false := by
  obtain ⟨rest, hcut⟩ := h
  cases htext : t.text.toList with
  | nil => exact absurd htext (local_lexemeCut?.whole hcut).1
  | cons c cs =>
    refine ⟨c, cs, rfl, ?_⟩
    by_contra hblank
    rw [htext, cons_append, lexemeCut?, run?, takeWhile_cons_of_pos (by simpa using hblank)] at hcut
    simp at hcut

/-- The first token is cut off where it ends, and the others are those of the rest. -/
lemma cut_of_tokens {t : Token} (h : tokens (t.text.toList ++ cs) = .ok (t :: ts)) :
    lexemeCut? (t.text.toList ++ cs) = some (.token t, cs) ∧ tokens cs = .ok ts := by
  obtain ⟨c, word, htext, hblank⟩ := (cuttable_of_tokens h t mem_cons_self).head
  rw [htext, cons_append] at h
  obtain ⟨l, rest, us, hcut, -, hus, heq⟩ := exists_cut_of_tokens h
  rw [← cons_append, ← htext] at hcut
  cases l with
  | blank blanks =>
    rw [lexemeCut?_eq, htext, cons_append] at hcut
    simp [run?, hblank, or_eq_some_iff] at hcut
  | token k =>
    simp only [token?, toList_some, singleton_append, List.cons.injEq] at heq
    obtain ⟨rfl, rfl⟩ := heq
    obtain rfl := append_cancel_left (local_lexemeCut?.whole hcut).2
    exact ⟨hcut, hus⟩

lemma tokens_gap (gap : Gap) : tokens (gap.chars ++ cs) = .ok ts ↔ tokens cs = .ok ts :=
  tokens_blank_append gap.blank

/-- **A text with tokens consists of them and of white space.** -/
lemma exists_layout (h : tokens cs = .ok ts) : ∃ l : Layout, l.tokens = ts ∧ l.text = cs := by
  induction hlength : cs.length using Nat.strong_induction_on generalizing cs ts with
  | _ n ih =>
    subst hlength
    rcases cs with _ | ⟨c, cs⟩
    · rw [tokens_nil, Except.ok.injEq] at h
      exact ⟨⟨.none, []⟩, h, rfl⟩
    cases hc : isBlank c with
    | true =>
      obtain ⟨l, htokens, htext⟩ := ih _ (by simp) ((tokens_blank_cons hc).mp h) rfl
      have hblank : ∀ d ∈ c :: l.before.chars, isBlank d = true :=
        forall_mem_cons.mpr ⟨hc, l.before.blank⟩
      exact ⟨⟨⟨c :: l.before.chars, hblank⟩, l.pieces⟩, htokens, congrArg (c :: ·) htext⟩
    | false =>
      obtain ⟨lexeme, rest, us, hcut, hshorter, hus, rfl⟩ := exists_cut_of_tokens h
      obtain ⟨l, htokens, htext⟩ := ih _ hshorter hus rfl
      cases lexeme with
      | blank blanks =>
        rw [lexemeCut?_eq] at hcut
        simp [run?, hc, or_eq_some_iff] at hcut
      | token t =>
        refine ⟨⟨.none, (t, l.before) :: l.pieces⟩, by simp [Layout.tokens, ← htokens, token?], ?_⟩
        rw [(local_lexemeCut?.whole hcut).2, ← htext, Layout.text, written_cons]
        rfl

/-- **The tokens up to a place between two of them are the tokens of the text up to there.** -/
lemma tokens_upTo {pieces : List (Token × Gap)}
    (h : tokens (written pieces ++ b) = .ok (pieces.map fst ++ us)) :
    tokens (written pieces) = .ok (pieces.map fst) ∧ tokens b = .ok us := by
  induction pieces with
  | nil => exact ⟨tokens_nil, h⟩
  | cons piece pieces ih =>
    obtain ⟨t, gap⟩ := piece
    rw [written_cons, append_assoc, append_assoc, map_cons, cons_append] at h
    obtain ⟨hcut, hrest⟩ := cut_of_tokens h
    obtain ⟨hpieces, hb⟩ := ih ((tokens_gap gap).mp hrest)
    have hne := (local_lexemeCut?.whole hcut).1
    rw [← append_assoc gap.chars, ← append_assoc] at hcut
    have hshort := local_lexemeCut?.shorter (a := .token t) hcut
    refine ⟨?_, hb⟩
    rw [written_cons, map_cons]
    refine tokens_of_cut hshort ?_ ((tokens_gap gap).mpr hpieces)
    have hpos := length_pos_iff.mpr hne
    simp only [text, length_append] at hpos ⊢
    omega

/-- The text before a gap ends a token, so white space can be put there. -/
lemma tokens_widen {front pieces : List (Token × Gap)} {t : Token} {gap wider : Gap}
    (hwider : gap.Within wider)
    (h : tokens (written (front ++ (t, gap) :: pieces)) =
      .ok (front.map fst ++ t :: pieces.map fst)) :
    tokens (written (front ++ (t, wider) :: pieces)) =
      .ok (front.map fst ++ t :: pieces.map fst) := by
  by_cases hnone : wider.chars = []
  · have hsame : wider = gap := Gap.ext (by rw [hnone, hwider hnone])
    rwa [hsame]
  · have hsplit : ∀ gap : Gap, written (front ++ (t, gap) :: pieces) =
        written (front ++ [(t, .none)]) ++ (gap.chars ++ written pieces) := by
      intro gap
      simp [written, Gap.none]
    have htokens : front.map fst ++ t :: pieces.map fst =
        (front ++ [(t, Gap.none)]).map fst ++ pieces.map fst := by simp
    rw [hsplit, htokens] at h ⊢
    obtain ⟨hfront, hbehind⟩ := tokens_upTo h
    refine tokens_append ?_ hfront ((tokens_gap wider).mpr ((tokens_gap gap).mp hbehind))
    intro c hc
    obtain ⟨blank, blanks, hblanks⟩ := exists_cons_of_ne_nil hnone
    obtain rfl : blank = c := by simpa [hblanks] using hc
    simp [isBoundary, wider.blank blank (by simp [hblanks])]

/-- The gaps in front are wide already, and the others are taken one after the other. -/
lemma tokens_widen_pieces (front : List (Token × Gap)) {pieces wide : List (Token × Gap)}
    (htokens : wide.map fst = pieces.map fst)
    (hgaps : List.Forall₂ Gap.Within (pieces.map snd) (wide.map snd))
    (h : tokens (written (front ++ pieces)) = .ok (front.map fst ++ pieces.map fst)) :
    tokens (written (front ++ wide)) = .ok (front.map fst ++ pieces.map fst) := by
  induction pieces generalizing front wide with
  | nil =>
    obtain rfl : wide = [] := by simpa using htokens
    exact h
  | cons piece pieces ih =>
    obtain ⟨t, gap⟩ := piece
    rcases wide with _ | ⟨⟨t', wider⟩, wide⟩
    · simp at htokens
    obtain ⟨hsame, hothers⟩ := List.cons.inj htokens
    obtain rfl : t' = t := hsame
    obtain ⟨hwider, hgaps⟩ := forall₂_cons.mp hgaps
    have hnext := ih (front ++ [(t', wider)]) hothers hgaps (by simpa using tokens_widen hwider h)
    simpa using hnext

/-- **More white space between the tokens of a text makes no difference to them.** -/
lemma tokens_widens {l wide : Layout} (hwide : l.Widens wide) (h : tokens l.text = .ok l.tokens) :
    tokens wide.text = .ok l.tokens := by
  obtain ⟨htokens, hgaps⟩ := hwide
  obtain ⟨-, hgaps⟩ := forall₂_cons.mp hgaps
  rw [Layout.text, tokens_gap] at h ⊢
  exact tokens_widen_pieces [] htokens hgaps h

lemma dropWhile_blanks {blanks : List Char} (hblanks : ∀ c ∈ blanks, isBlank c = true)
    (h : Stops isBlank cs) :
    (blanks ++ cs).dropWhile isBlank = cs := by
  rw [(takeWhile_append_of_stops h blanks).2, dropWhile_eq_nil_iff.mpr hblanks, nil_append]

/-- White space around a text that neither starts nor ends with some is trimmed. -/
lemma trim_gaps (before behind : Gap) (hne : cs ≠ []) (hfirst : Stops isBlank cs)
    (hlast : Stops isBlank cs.reverse) :
    trim (before.chars ++ (cs ++ behind.chars)) = cs := by
  have hstart : Stops isBlank (cs ++ behind.chars) := by
    cases cs with
    | nil => exact absurd rfl hne
    | cons c cs => exact hfirst
  have hbehind : ∀ c ∈ behind.chars.reverse, isBlank c = true :=
    fun c hc => behind.blank c (mem_reverse.mp hc)
  rw [trim, trimLeft, dropWhile_blanks before.blank hstart, trimRight, reverse_append,
    dropWhile_blanks hbehind hlast, reverse_reverse]

/-- The last token of a trimmed text does not end with white space. -/
lemma stops_reverse_of_tokens {t : Token} (h : tokens (trim cs) = .ok (ts ++ [t])) :
    Stops isBlank t.text.toList.reverse := by
  obtain ⟨l, htokens, htext⟩ := exists_layout h
  obtain ⟨pieces, last, hpieces, -, hlast⟩ := map_eq_append_iff.mp htokens
  obtain ⟨⟨t', gap⟩, rfl, rfl⟩ := map_eq_singleton_iff.mp hlast
  have hend : Stops isBlank (trim cs).reverse := by
    rw [trim, trimRight, reverse_reverse]
    exact stops_dropWhile _ _
  have hwritten : (trim cs).reverse = gap.chars.reverse ++ t'.text.toList.reverse ++
          (l.before.chars ++ written pieces).reverse := by
    rw [← htext, Layout.text, hpieces]
    simp [written]
  rw [hwritten] at hend
  -- white space behind the token would end the text
  cases hgap : gap.chars.reverse with
  | nil =>
    rw [hgap, nil_append] at hend
    exact hend.of_append
  | cons c blanks =>
    rw [hgap] at hend
    have hblank := gap.blank c (mem_reverse.mp (by rw [hgap]; simp))
    simp [hend c rfl] at hblank

/-- A text without the white space around it has the same tokens. -/
lemma tokens_trim {t : Token} (h : tokens cs = .ok (ts ++ [t]))
    (hlast : Stops isBlank t.text.toList.reverse) :
    trim cs ≠ [] ∧ tokens (trim cs) = .ok (ts ++ [t]) := by
  obtain ⟨l, hl, rfl⟩ := exists_layout h
  rw [← hl] at h
  obtain ⟨pieces, last, hpieces, rfl, hend⟩ := map_eq_append_iff.mp hl
  obtain ⟨⟨t', gap⟩, rfl, rfl⟩ := map_eq_singleton_iff.mp hend
  have htext : l.text = l.before.chars ++ (written (pieces ++ [(t', .none)]) ++ gap.chars) := by
    rw [Layout.text, hpieces]
    simp [written, Gap.none]
  have htokens : l.tokens = (pieces ++ [(t', Gap.none)]).map fst ++ [] := by
    rw [Layout.tokens, hpieces]
    simp
  have hcuttable := cuttable_of_tokens h
  rw [htext, tokens_gap, htokens] at h
  obtain ⟨hinner, -⟩ := tokens_upTo h
  have hfirst : written (pieces ++ [(t', .none)]) ≠ [] ∧
      Stops isBlank (written (pieces ++ [(t', .none)])) := by
    cases hall : pieces ++ [(t', Gap.none)] with
    | nil => simp at hall
    | cons piece others =>
      have hmem : piece.1 ∈ l.tokens := by
        rw [htokens, hall]
        simp
      obtain ⟨c, cs, hc, hblank⟩ := (hcuttable _ hmem).head
      rw [written_cons, hc]
      exact ⟨by simp, stops_cons hblank⟩
  have hend : Stops isBlank (written (pieces ++ [(t', .none)])).reverse := by
    obtain ⟨c, cs, hc, -⟩ := (hcuttable t' (by rw [hl]; simp)).head
    cases hreverse : t'.text.toList.reverse with
    | nil => simp [hc] at hreverse
    | cons d ds =>
      rw [hreverse] at hlast
      simpa [written, Gap.none, hreverse, Stops] using hlast
  have htrim : trim l.text = written (pieces ++ [(t', .none)]) := by
    rw [htext]
    exact trim_gaps l.before gap hfirst.1 hfirst.2 hend
  rw [htrim]
  exact ⟨hfirst.1, by simpa using hinner⟩

lemma readType_of_trim {text : String} {e : TypeExpression} (hne : trim text.toList ≠ [])
    (hts : tokens (trim text.toList) = .ok ts) (he : expression ts = .ok e) :
    readType (some text) = ⟨e, none⟩ := by
  have hstripped : stripped text ≠ "" := by
    intro h
    exact hne (by
      rw [← String.toList_ofList (l := trim text.toList)]
      exact congrArg String.toList h)
  simp only [readType, getD_some, if_neg hstripped]
  have htext := (ofTextWithin_of_tokens hts).trans he
  simp only [stripped, String.toList_ofList, ofText, htext]

/-- A text is read without a complaint if it is blank or if its tokens are an expression. -/
lemma readType_complaint {text : String} (h : (readType (some text)).complaint = none) :
    trim text.toList = [] ∨ ∃ ts e, tokens (trim text.toList) = .ok ts ∧ expression ts = .ok e := by
  by_cases hstripped : stripped text = ""
  · left
    rw [← String.toList_ofList (l := trim text.toList)]
    exact congrArg String.toList hstripped
  · right
    simp only [readType, getD_some, if_neg hstripped] at h
    cases hread : ofText (stripped text).toList with
    | error fault => simp [hread] at h
    | ok e =>
      obtain ⟨ts, htokens, hts⟩ := exists_tokens_of_ofText hread
      rw [stripped, String.toList_ofList] at htokens
      exact ⟨ts, e, htokens, hts⟩

lemma readType_of_blank {text : String} (h : trim text.toList = []) :
    readType (some text) = ⟨.plain .any, none⟩ := by
  have hstripped : stripped text = "" := by rw [stripped, h, String.ofList_nil]
  rw [readType, getD_some, if_pos hstripped]

lemma tokens_of_tokens_trim (h : tokens (trim cs) = .ok ts) : tokens cs = .ok ts := by
  simpa using tokens_append_of_trim (r := []) (by simp [Bounded]) h tokens_nil

/-- **A text that is read without a complaint is read as its tokens are.** -/
lemma readType_of_layout {text : String} {l : Layout} (hts : tokens text.toList = .ok l.tokens)
    (hl : tokens l.text = .ok l.tokens) (h : (readType (some text)).complaint = none) :
    readType (some (String.ofList l.text)) = readType (some text) := by
  rcases readType_complaint h with hblank | ⟨ts, e, htrim, he⟩
  · have hnone : l.tokens = [] := by
      have hempty : tokens text.toList = .ok [] :=
        tokens_of_tokens_trim (by rw [hblank, tokens_nil])
      rw [hempty] at hts
      exact (Except.ok.inj hts).symm
    have hpieces : l.pieces = [] := map_eq_nil_iff.mp hnone
    have htext : trim l.text = [] := by
      rw [Layout.text, hpieces, trim, trimLeft,
        dropWhile_blanks l.before.blank (by simp [written, Stops])]
      rfl
    rw [readType_of_blank hblank, readType_of_blank (by rwa [String.toList_ofList])]
  · obtain rfl : ts = l.tokens := Except.ok.inj ((tokens_of_tokens_trim htrim).symm.trans hts)
    have hne : trim text.toList ≠ [] := by
      intro hblank
      rw [hblank, tokens_nil, Except.ok.injEq] at htrim
      rw [← htrim] at he
      cases he
    rcases eq_nil_or_concat l.tokens with hnone | ⟨ts, last, hlast⟩
    · rw [hnone] at he
      cases he
    · rw [concat_eq_append] at hlast
      rw [hlast] at htrim
      rw [hlast] at hl
      obtain ⟨hwide, htokens⟩ := tokens_trim hl (stops_reverse_of_tokens htrim)
      rw [← hlast] at htokens htrim
      rw [readType_of_trim hne htrim he, readType_of_trim (by rwa [String.toList_ofList])
        (by rwa [String.toList_ofList]) he]

/-- **Tokens lose nothing, and white space between them is ignored.** A text with tokens is the
tokens in their order, with white space before, between and behind them. With any other white space
in these places, as long as none of it is taken away altogether, the tokens are the same, and so is
the type with its marks if the text can be read. -/
theorem readType_respaced (text : String) (ts : List Token) (h : tokens text.toList = .ok ts) :
    (∃ l : Layout, l.tokens = ts ∧ l.text = text.toList) ∧
      ∀ l wide : Layout, l.tokens = ts → l.text = text.toList → l.Widens wide →
        tokens wide.text = .ok ts ∧ ((readType (some text)).complaint = none →
            readType (some (String.ofList wide.text)) = readType (some text)) := by
  refine ⟨exists_layout h, ?_⟩
  rintro l wide rfl htext hwide
  have htokens : tokens wide.text = .ok l.tokens := tokens_widens hwide (htext ▸ h)
  refine ⟨htokens, ?_⟩
  rw [← hwide.1] at h htokens
  exact readType_of_layout h htokens

/-- Tokens that are close to running into each other: dots that could be read as an ellipsis, as
part of a path or of a number, and a path of a module between quotes. -/
def crowded : List Token :=
  [.punct .ellipsis, .name "Array", .punct .dotLess, .name "module:\"a b\".C", .punct .bar,
    .number "-1.5", .punct .greater, .punct .openBracket, .punct .closeBracket]

/-- The same gap behind each token. -/
def evenly (gap : Gap) : Layout := ⟨.none, crowded.map fun t => (t, gap)⟩

def Gap.space : Gap := ⟨[' '], List.forall_mem_singleton.mpr rfl⟩

theorem readType_respaced_crowded :
    tokens "...Array.<module:\"a b\".C|-1.5>[]".toList = .ok crowded ∧
    tokens "... Array .< module:\"a b\".C | -1.5 > [ ] ".toList = .ok crowded ∧
    readType (some "... Array .< module:\"a b\".C | -1.5 > [ ] ") =
      readType (some "...Array.<module:\"a b\".C|-1.5>[]") := by
  have htokens : tokens "...Array.<module:\"a b\".C|-1.5>[]".toList =
    .ok crowded := by decide +kernel
  have hwide : (evenly .none).Widens (evenly .space) :=
    ⟨rfl, by simp [Layout.gaps, evenly, crowded, Gap.Within, Gap.none]⟩
  obtain ⟨-, hrespaced⟩ := readType_respaced _ crowded htokens
  obtain ⟨hspaced, hread⟩ := hrespaced (evenly .none) (evenly .space) rfl rfl hwide
  exact ⟨htokens, hspaced, hread (by decide +kernel)⟩

end AmbientDecl.TypeExpr

import AmbientDecl.Proofs.Identifier
import AmbientDecl.Proofs.TypeExpr.Union
import Mathlib.Data.List.Infix
import Mathlib.Data.List.TakeWhile

/-!
# Lexemes in front of a longer text

A text that is cut into tokens is cut into the same tokens if more text stands behind it, as long as
that text does not go on with the last lexeme.

**Classes of lexemes.** What a class takes from the front of a text it also takes from a longer one
(`run?_append` to `punct?_append`). Each lemma asks only for what its class needs to know about the
character behind (`Stops`); a string literal needs nothing, since its quote ends it.

**Whole texts.** White space and the closing marks of types end every lexeme (`Bounded`), so the
tokens of a text and of a bounded text behind it are the tokens of both (`tokens_append`). Whether
`module:` opens the name of a module can depend on a quote far behind it, but a text with a quote
that is not closed has no tokens.
-/

namespace AmbientDecl

open Text List Option

namespace TypeExpr

variable {p : Char → Bool} {c : Char} {cs r taken rest : List Char} {cut : Cut} {ts us : List Token}

/-- A text does not start with a character of a class. -/
def Stops (p : Char → Bool) (r : List Char) : Prop := ∀ c ∈ r.head?, p c = false

lemma stops_cons (h : p c = false) : Stops p (c :: r) := by
  simpa [Stops] using h

/-- A cut with more text behind it. -/
def Cut.before (cut : Cut) (r : List Char) : Cut := (cut.1, cut.2 ++ r)

@[simp] lemma Cut.before_mk (taken rest r : List Char) :
    Cut.before (taken, rest) r = (taken, rest ++ r) :=
  rfl

lemma takeWhile_of_stops (h : Stops p r) : r.takeWhile p = [] ∧ r.dropWhile p = r := by
  cases r with
  | nil => exact ⟨rfl, rfl⟩
  | cons c r => simp [h c rfl]

lemma takeWhile_append_of_stops (h : Stops p r) (cs : List Char) :
    (cs ++ r).takeWhile p = cs.takeWhile p ∧ (cs ++ r).dropWhile p = cs.dropWhile p ++ r := by
  induction cs with
  | nil => exact takeWhile_of_stops h
  | cons c cs ih => cases hc : p c <;> simp [hc, ih]

/-- Where a run ends inside a text, it does not matter what stands behind the text. -/
lemma takeWhile_append_of_dropWhile {d : Char} {ds : List Char} (h : cs.dropWhile p = d :: ds)
    (r : List Char) :
    (cs ++ r).takeWhile p = cs.takeWhile p ∧ (cs ++ r).dropWhile p = d :: ds ++ r := by
  induction cs with
  | nil => simp at h
  | cons c cs ih => cases hc : p c <;> simp_all

/-- A run of a class is found again in front of a text that does not go on with it. -/
lemma run_append_inj {a b r' : List Char} (ha : ∀ c ∈ a, p c = true) (hb : ∀ c ∈ b, p c = true)
    (hr : Stops p r) (hr' : Stops p r') (h : a ++ r = b ++ r') : a = b ∧ r = r' := by
  have htake := congrArg (takeWhile p) h
  rw [(takeWhile_append_of_stops hr a).1, (takeWhile_append_of_stops hr' b).1,
    takeWhile_eq_self_iff.mpr ha, takeWhile_eq_self_iff.mpr hb] at htake
  subst htake
  exact ⟨rfl, append_cancel_left h⟩

lemma run?_append (h : Stops p r) (cs : List Char) :
    run? p (cs ++ r) = (run? p cs).map fun cut => cut.before r := by
  obtain ⟨htake, hdrop⟩ := takeWhile_append_of_stops h cs
  rw [run?, run?, htake, hdrop]
  cases cs.takeWhile p <;> rfl

lemma stringTail?_append {quote : Char} (h : stringTail? quote cs = some cut) (r : List Char) :
    stringTail? quote (cs ++ r) = some (cut.before r) := by
  fun_induction stringTail? quote cs generalizing cut with
  | case1 => simp at h
  | case2 rest =>
    obtain rfl := Option.some.inj h
    rw [cons_append, stringTail?.eq_def]
    simp
  | case3 => simp at h
  | case4 => simp at h
  | case5 d rest hd hquote ih =>
    obtain ⟨inner, hinner, rfl⟩ := Option.map_eq_some_iff.mp h
    rw [cons_append, cons_append, stringTail?, if_neg hquote, if_pos rfl]
    simp [hd, ih hinner, Cut.before]
  | case6 c rest hquote hescape ih =>
    obtain ⟨inner, hinner, rfl⟩ := Option.map_eq_some_iff.mp h
    rw [cons_append, stringTail?.eq_def]
    simp [hquote, hescape, ih hinner, Cut.before]

lemma mem_of_stringTail? {quote : Char} (h : stringTail? quote cs = some cut) : quote ∈ cs := by
  fun_induction stringTail? quote cs generalizing cut with
  | case1 => simp at h
  | case2 rest => exact mem_cons_self
  | case3 => simp at h
  | case4 => simp at h
  | case5 d rest hd hquote ih =>
    obtain ⟨inner, hinner, _⟩ := Option.map_eq_some_iff.mp h
    exact mem_cons_of_mem _ (mem_cons_of_mem _ (ih hinner))
  | case6 c rest hquote hescape ih =>
    obtain ⟨inner, hinner, _⟩ := Option.map_eq_some_iff.mp h
    exact mem_cons_of_mem _ (ih hinner)

lemma string?_append (h : string? cs = some cut) (r : List Char) :
    string? (cs ++ r) = some (cut.before r) := by
  cases cs with
  | nil => simp [string?] at h
  | cons c cs =>
    simp only [string?] at h
    split at h
    · rename_i hquote
      obtain ⟨inner, hinner, rfl⟩ := Option.map_eq_some_iff.mp h
      simp [string?, hquote, stringTail?_append hinner r, Cut.before]
    · simp at h

/-- A string token is found again in front of any text. -/
lemma string?_append_inj {a b r' : List Char} (ha : string? a = some (a, []))
    (hb : string? b = some (b, []))
    (h : a ++ r = b ++ r') : a = b ∧ r = r' := by
  have hcut := string?_append hb r'
  rw [← h, string?_append ha r] at hcut
  exact Prod.mk.inj (Option.some.inj hcut)

lemma unsignedNumber?_append (hdecimal : Stops isDecimal r) (hpoint : Stops (· == '.') r)
    (cs : List Char) : unsignedNumber? (cs ++ r) = (unsignedNumber? cs).map
      fun cut => cut.before r := by
  simp only [unsignedNumber?, run?_append hdecimal]
  cases run? isDecimal cs with
  | none => rfl
  | some whole =>
    obtain ⟨digits, rest⟩ := whole
    simp only [map_some, Cut.before_mk, bind_eq_bind, bind_some]
    rcases rest with _ | ⟨c, after⟩
    · rcases r with _ | ⟨c, r⟩
      · rfl
      · have hc : c ≠ '.' := by simpa using hpoint c rfl
        simp [hc]
    · by_cases hc : c = '.'
      · subst hc
        simp only [cons_append, run?_append hdecimal]
        cases run? isDecimal after <;> rfl
      · simp [hc]

lemma number?_append (hdecimal : Stops isDecimal r) (hpoint : Stops (· == '.') r) (c : Char)
    (cs : List Char) :
    number? (c :: cs ++ r) = (number? (c :: cs)).map fun cut => cut.before r := by
  by_cases hc : c = '-'
  · subst hc
    simp only [number?, cons_append, unsignedNumber?_append hdecimal hpoint, Option.map_map]
    rfl
  · have hplain : ∀ cs, number? (c :: cs) = unsignedNumber? (c :: cs) :=
      fun cs => by simp [number?, hc]
    rw [cons_append, hplain, hplain]
    exact unsignedNumber?_append hdecimal hpoint (c :: cs)

/-- Characters of a class, at least one. -/
def IsRun (p : Char → Bool) (cs : List Char) : Prop := cs ≠ [] ∧ ∀ c ∈ cs, p c = true

/-- A point and digits, or nothing. -/
def IsFraction (p : Char → Bool) (cs : List Char) : Prop :=
  cs = [] ∨ ∃ digits, IsRun p digits ∧ cs = '.' :: digits

lemma isRun_of_run? {taken : List Char} (h : run? p cs = some (taken, rest)) : IsRun p taken := by
  unfold run? at h
  split at h
  · simp at h
  · rename_i hne
    obtain ⟨rfl, _⟩ := Prod.mk.inj (Option.some.inj h)
    exact ⟨fun hnil => hne hnil, fun c hc => mem_takeWhile_imp hc⟩

/-- A number is a sign, digits and maybe a fraction. -/
lemma parts_of_number? {taken : List Char} (h : number? cs = some (taken, rest)) :
    ∃ (negative : Bool) (whole fraction : List Char), IsRun isDecimal whole ∧
      IsFraction isDecimal fraction ∧
      taken = if negative then '-' :: (whole ++ fraction) else whole ++ fraction := by
  have hunsigned : ∀ {cs taken rest}, unsignedNumber? cs = some (taken, rest) →
      ∃ whole fraction, IsRun isDecimal whole ∧ IsFraction isDecimal fraction ∧
          taken = whole ++ fraction := by
    intro cs taken rest h
    obtain ⟨⟨whole, behind⟩, hwhole, h⟩ := Option.bind_eq_some_iff.mp h
    have hplain : taken = whole → ∃ whole fraction, IsRun isDecimal whole ∧
      IsFraction isDecimal fraction ∧ taken = whole ++ fraction :=
          fun heq => ⟨whole, [], isRun_of_run? hwhole, .inl rfl, by simp [heq]⟩
    simp only at h
    split at h
    · split at h
      · rename_i hfraction
        exact ⟨whole, _, isRun_of_run? hwhole, .inr ⟨_, isRun_of_run? hfraction, rfl⟩,
          (Prod.mk.inj (Option.some.inj h)).1.symm⟩
      · exact hplain (Prod.mk.inj (Option.some.inj h)).1.symm
    · exact hplain (Prod.mk.inj (Option.some.inj h)).1.symm
  unfold number? at h
  split at h
  · obtain ⟨⟨digits, behind⟩, hdigits, heq⟩ := Option.map_eq_some_iff.mp h
    obtain ⟨whole, fraction, hwhole, hfraction, rfl⟩ := hunsigned hdigits
    exact ⟨true, whole, fraction, hwhole, hfraction, (Prod.mk.inj heq).1.symm⟩
  · obtain ⟨whole, fraction, hparts⟩ := hunsigned h
    exact ⟨false, whole, fraction, hparts⟩

lemma identifier?_of_stops (h : Stops isIdentRest r) : identifier? r = none := by
  cases r with
  | nil => rfl
  | cons c r =>
    have hstart : isIdentStart c = false := by
      by_contra hc
      exact absurd (identChar_of_isIdentStart (by simpa using hc)) (by simp [IdentChar, h c rfl])
    simp [identifier?, hstart]

lemma identifier?_append (h : Stops isIdentRest r) (cs : List Char) :
    identifier? (cs ++ r) = (identifier? cs).map fun cut => cut.before r := by
  cases cs with
  | nil => exact identifier?_of_stops h
  | cons c cs =>
    obtain ⟨htake, hdrop⟩ := takeWhile_append_of_stops h cs
    simp only [identifier?, cons_append, htake, hdrop]
    split <;> rfl

lemma pathSteps_of_identifier? (hc : isPathMark c = true) {word after : List Char}
    (h : identifier? cs = some (word, after)) :
    pathSteps (c :: cs) = (c :: word ++ (pathSteps after).1, (pathSteps after).2) := by
  rw [pathSteps, if_pos hc]
  split
  · rename_i found
    obtain ⟨rfl, rfl⟩ := Prod.mk.inj (Option.some.inj (h.symm.trans found))
    rfl
  · rename_i found
    simp [h] at found

lemma pathSteps_of_none (h : isPathMark c = true → identifier? cs = none) :
    pathSteps (c :: cs) = ([], c :: cs) := by
  rw [pathSteps]
  split
  · rename_i hc
    split
    · rename_i found
      simp [h hc] at found
    · rfl
  · rfl

lemma pathSteps_of_stops (h : Stops isPathMark r) : pathSteps r = ([], r) := by
  cases r with
  | nil => rw [pathSteps]
  | cons c r => exact pathSteps_of_none fun hc => by simp [h c rfl] at hc

lemma pathSteps_append (hword : Stops isIdentRest r) (hmark : Stops isPathMark r) (cs : List Char) :
    pathSteps (cs ++ r) = (pathSteps cs).before r := by
  fun_induction pathSteps cs with
  | case1 => exact pathSteps_of_stops hmark
  | case2 c rest hc word after hfound _ _ hsteps ih =>
    have hlonger := identifier?_append hword rest
    rw [hfound, map_some] at hlonger
    rw [cons_append, pathSteps_of_identifier? hc hlonger, ih, hsteps]
    rfl
  | case3 c rest hc hfound =>
    have hlonger := identifier?_append hword rest
    rw [hfound, map_none] at hlonger
    exact pathSteps_of_none fun _ => hlonger
  | case4 c rest hc => exact pathSteps_of_none fun h => absurd h hc

lemma modulePath?_append (hpath : Stops (fun c => !endsModulePath c) r)
    (h : modulePath? cs = some cut) :
    modulePath? (cs ++ r) = some (cut.before r) := by
  cases cs with
  | nil => simp [modulePath?] at h
  | cons c cs =>
    simp only [modulePath?, cons_append] at h ⊢
    split at h
    · rename_i hquote
      rw [if_pos hquote]
      cases hdrop : cs.dropWhile (· != '"') with
      | nil => simp [hdrop] at h
      | cons quote after =>
        obtain ⟨htake, hlonger⟩ := takeWhile_append_of_dropWhile hdrop r
        rw [hdrop] at h
        rw [htake, hlonger, ← Option.some.inj h]
        rfl
    · rename_i hquote
      rw [if_neg hquote, ← cons_append, run?_append hpath, h, map_some]

/-- The path of a module is missing for good, unless it starts with a quote that is not closed. -/
lemma modulePath?_append_of_none (hpath : Stops (fun c => !endsModulePath c) r)
    (hquote : Stops (· == '"') r)
    (h : modulePath? cs = none) :
    modulePath? (cs ++ r) = none ∨ ∃ inner, cs = '"' :: inner ∧ '"' ∉ inner := by
  cases cs with
  | nil =>
    cases r with
    | nil => exact Or.inl rfl
    | cons c r =>
      have hc : c ≠ '"' := by simpa using hquote c rfl
      exact Or.inl (by simp [modulePath?, hc, run?, takeWhile_of_stops hpath])
  | cons c cs =>
    simp only [modulePath?, cons_append] at h ⊢
    split at h
    · rename_i hc
      right
      refine ⟨cs, by rw [hc], fun hmem => ?_⟩
      cases hdrop : cs.dropWhile (· != '"') with
      | nil => exact absurd (dropWhile_eq_nil_iff.mp hdrop _ hmem) (by simp)
      | cons quote after => simp [hdrop] at h
    · rename_i hc
      left
      rw [if_neg hc, ← cons_append, run?_append hpath, h, map_none]

lemma moduleName?_of_unmarked (h : ¬ moduleMark <+: cs) : moduleName? cs = none := by
  unfold moduleName?
  split
  · rename_i rest
    exact absurd ⟨rest, rfl⟩ h
  · rfl

lemma moduleName?_mark (cs : List Char) : moduleName? (moduleMark ++ cs) =
    (modulePath? cs).map fun path => (moduleMark ++ path.1 ++ (pathSteps path.2).1,
      (pathSteps path.2).2) := by
  have hmark : moduleMark ++ cs = 'm' :: 'o' :: 'd' :: 'u' :: 'l' :: 'e' :: ':' :: cs := rfl
  rw [hmark, moduleName?]
  cases modulePath? cs <;> rfl

/-- The punctuation mark at the front is the same, for a single point is none. -/
lemma punct?_append {mark : Punct} (h : punct? cs = some (mark, rest)) (r : List Char) :
    punct? (cs ++ r) = some (mark, rest ++ r) := by
  unfold punct? at h
  split at h
  · cases h
    rfl
  · cases h
    rfl
  · rename_i c cs _ _
    obtain ⟨single, hsingle, heq⟩ := Option.map_eq_some_iff.mp h
    obtain ⟨rfl, rfl⟩ := Prod.mk.inj heq
    have hpoint : Punct.ofChar? '.' = none := by decide
    have hc : c ≠ '.' := by
      rintro rfl
      simp [hpoint] at hsingle
    simp [punct?, hc, hsingle]
  · simp at h

/-- The characters that end every lexeme before them: white space and the marks that close a
type. -/
def isBoundary (c : Char) : Bool := isBlank c || c == ')' || c == '>'

/-- Nothing goes on with a lexeme here. -/
def Bounded (r : List Char) : Prop := ∀ c ∈ r.head?, isBoundary c = true

/-- A character that is part of a lexeme of more than one character, other than a string. -/
def isInner (c : Char) : Bool :=
  isIdentRest c || isPathMark c || isDecimal c || !endsModulePath c || c == '"' ||
    moduleMark.contains c

lemma not_isInner_of_isBoundary (h : isBoundary c = true) : isInner c = false := by
  have hall : (blankRanges.chars ++ [')', '>']).all (fun c => !isInner c) = true := by
    decide +kernel
  have hmem : c ∈ blankRanges.chars ++ [')', '>'] := by
    simp only [isBoundary, Bool.or_eq_true, beq_iff_eq] at h
    rcases h with (h | rfl) | rfl
    · exact mem_append_left _ (CharRanges.mem_chars h)
    · simp
    · simp
  simpa using all_eq_true.mp hall c hmem

lemma Bounded.stops (h : Bounded r) (hp : ∀ c, p c = true → isInner c = true) : Stops p r := by
  intro c hc
  by_contra hin
  have hinner := hp c (by simpa using hin)
  rw [not_isInner_of_isBoundary (h c hc)] at hinner
  simp at hinner

section Bounded

variable (h : Bounded r)
include h

lemma Bounded.identRest : Stops isIdentRest r := h.stops fun c hc => by simp [isInner, hc]

lemma Bounded.pathMark : Stops isPathMark r := h.stops fun c hc => by simp [isInner, hc]

lemma Bounded.decimal : Stops isDecimal r := h.stops fun c hc => by simp [isInner, hc]

lemma Bounded.point : Stops (· == '.') r := h.stops fun c hc => by simp_all [isInner, isPathMark]

lemma Bounded.modulePath : Stops (fun c => !endsModulePath c) r :=
  h.stops fun c hc => by simp_all [isInner]

lemma Bounded.quote : Stops (· == '"') r := h.stops fun c hc => by simp_all [isInner]

/-- The mark of a module's name does not start in a text and end behind it. -/
lemma Bounded.moduleMark_of_append (hlong : moduleMark <+: cs ++ r) : moduleMark <+: cs := by
  rcases prefix_or_prefix_of_prefix hlong (prefix_append cs r) with hmark | ⟨s, hs⟩
  · exact hmark
  obtain ⟨after, hafter⟩ := hlong
  rw [← hs, append_assoc, append_cancel_left_eq] at hafter
  rcases s with _ | ⟨c, s⟩
  · rw [← hs, append_nil]
  · have hstop : Stops moduleMark.contains r := h.stops fun c hc => by simp_all [isInner]
    rw [← hafter] at hstop
    have hin := hstop c rfl
    rw [← hs] at hin
    simp at hin

end Bounded

lemma moduleName?_append (h : Bounded r) (hname : moduleName? cs = some cut) :
    moduleName? (cs ++ r) = some (cut.before r) := by
  by_cases hmark : moduleMark <+: cs
  · obtain ⟨cs, rfl⟩ := hmark
    rw [moduleName?_mark] at hname
    obtain ⟨path, hpath, rfl⟩ := Option.map_eq_some_iff.mp hname
    rw [append_assoc, moduleName?_mark, modulePath?_append h.modulePath hpath, map_some,
      Cut.before, pathSteps_append h.identRest h.pathMark]
    rfl
  · rw [moduleName?_of_unmarked hmark] at hname
    simp at hname

/-- No name of a module starts here if there is none without the text behind, unless a quote is not
closed. -/
lemma moduleName?_append_of_none (h : Bounded r) (hname : moduleName? cs = none) :
    moduleName? (cs ++ r) = none ∨ ∃ inner, cs = moduleMark ++ '"' :: inner ∧ '"' ∉ inner := by
  by_cases hmark : moduleMark <+: cs
  · obtain ⟨cs, rfl⟩ := hmark
    rw [moduleName?_mark, map_eq_none_iff] at hname
    rcases modulePath?_append_of_none h.modulePath h.quote hname with hnone | ⟨inner, rfl, hinner⟩
    · left
      rw [append_assoc, moduleName?_mark, hnone, map_none]
    · exact Or.inr ⟨inner, rfl, hinner⟩
  · exact Or.inl (moduleName?_of_unmarked fun hlong => hmark (h.moduleMark_of_append hlong))

lemma name?_append (h : Bounded r)
    (hmodule : moduleName? cs = none → moduleName? (cs ++ r) = none) :
    name? (cs ++ r) = (name? cs).map fun cut => cut.before r := by
  rw [name?, name?]
  cases hname : moduleName? cs with
  | some cut => rw [moduleName?_append h hname]; rfl
  | none =>
    rw [hmodule hname, identifier?_append h.identRest]
    cases identifier? cs with
    | none => rfl
    | some word =>
      simp only [map_some, bind_eq_bind, bind_some, Cut.before,
        pathSteps_append h.identRest h.pathMark]

lemma lexemeCut?_of_unclosed (hc : c = '"' ∨ c = '\'') (h : string? (c :: cs) = none) :
    lexemeCut? (c :: cs) = none := by
  obtain ⟨hblank, hdecimal, hminus, hstart, hpunct, hpoint⟩ :
    isBlank c = false ∧ isDecimal c = false ∧
      c ≠ '-' ∧ isIdentStart c = false ∧ Punct.ofChar? c = none ∧ c ≠ '.' := by
    rcases hc with rfl | rfl <;> decide
  have hmodule : moduleName? (c :: cs) = none := by
    refine moduleName?_of_unmarked fun hmark => ?_
    have hm : c = 'm' := (cons_prefix_cons.mp hmark).1.symm
    subst hm
    simp at hc
  simp [lexemeCut?, run?, hblank, h, number?, hminus, unsignedNumber?, hdecimal, name?, hmodule,
    identifier?, hstart, punct?, hpoint, hpunct]

/-- **The lexeme at the front of a text is the same if a bounded text follows.** -/
lemma lexemeCut?_append {l : Lexeme} (h : Bounded r) (hblank : isBlank c = false)
    (hmodule : moduleName? (c :: cs) = none → moduleName? (c :: cs ++ r) = none)
    (hcut : lexemeCut? (c :: cs) = some (l, rest)) :
    lexemeCut? (c :: cs ++ r) = some (l, rest ++ r) := by
  have hrun : ∀ cs, run? isBlank (c :: cs) = none := fun cs => by simp [run?, hblank]
  cases hstring : string? (c :: cs) with
  | some cut =>
    have hlonger := string?_append hstring r
    rw [cons_append] at hlonger ⊢
    simp only [lexemeCut?, hrun, hstring, hlonger, Option.some.injEq, Prod.mk.injEq] at hcut ⊢
    exact ⟨hcut.1, by rw [Cut.before, hcut.2]⟩
  | none =>
    have hnone : string? (c :: cs ++ r) = none := by
      have hquote : ¬ (c = '"' ∨ c = '\'') := fun hc => by
        simp [lexemeCut?_of_unclosed hc hstring] at hcut
      simp [string?, hquote]
    unfold lexemeCut? at hcut ⊢
    rw [hrun, hstring] at hcut
    rw [number?_append h.decimal h.point, name?_append h hmodule, hnone, cons_append, hrun]
    simp only at hcut ⊢
    cases hnumber : number? (c :: cs) with
    | some cut => simp_all [Cut.before]
    | none =>
      cases hname : name? (c :: cs) with
      | some cut => simp_all [Cut.before]
      | none =>
        simp only [hnumber, hname] at hcut
        cases hpunct : punct? (c :: cs) with
        | none => simp [hpunct] at hcut
        | some mark =>
          have hlonger := punct?_append hpunct r
          simp_all

lemma tokens_nil : tokens [] = .ok [] := tokens_eq_ok.mpr ⟨[], by rw [lexemes], rfl⟩

/-- The token at the front, if there is one, then the others. -/
lemma tokens_of_cut {l : Lexeme} (hcut : lexemeCut? cs = some (l, rest))
    (hshorter : rest.length < cs.length)
    (h : tokens rest = .ok ts) : tokens cs = .ok (l.token?.toList ++ ts) := by
  obtain ⟨ls, hls, rfl⟩ := tokens_eq_ok.mp h
  refine tokens_eq_ok.mpr ⟨_, lexemes_of_cut hcut hshorter hls, ?_⟩
  cases l <;> rfl

lemma exists_cut_of_tokens (h : tokens (c :: cs) = .ok ts) : ∃ l rest us,
    lexemeCut? (c :: cs) = some (l, rest) ∧ rest.length < (c :: cs).length ∧ tokens rest = .ok us ∧
      ts = l.token?.toList ++ us := by
  obtain ⟨ls, hls, rfl⟩ := tokens_eq_ok.mp h
  rw [lexemes] at hls
  split at hls
  · simp at hls
  · rename_i found hfound
    obtain ⟨⟨l, rest⟩, hcut, hrest⟩ := Option.bind_eq_some_iff.mp hfound
    simp only [Parsed.ofRest?] at hrest
    split at hrest
    · rename_i hshorter
      obtain rfl := Option.some.inj hrest
      cases hmore : lexemes rest with
      | error stray => simp [hmore, bind, Except.bind] at hls
      | ok more =>
        simp only [hmore, bind, Except.bind, pure, Except.pure, Except.ok.injEq] at hls
        refine ⟨l, rest, _, hcut, hshorter, tokens_eq_ok.mpr ⟨more, hmore, rfl⟩, ?_⟩
        rw [← hls]
        cases l <;> rfl
    · simp at hrest

lemma tokens_trimLeft_iff : tokens (trimLeft cs) = .ok ts ↔ tokens cs = .ok ts := by
  refine ⟨tokens_trimLeft, fun h => ?_⟩
  rcases cs with _ | ⟨c, cs⟩
  · exact h
  cases hc : isBlank c with
  | false => rwa [trimLeft, dropWhile_cons_of_neg (by simp [hc])]
  | true =>
    obtain ⟨l, rest, us, hcut, -, hus, rfl⟩ := exists_cut_of_tokens h
    simp only [lexemeCut?, run?, takeWhile_cons_of_pos hc, Option.some.injEq, Prod.mk.injEq] at hcut
    obtain ⟨rfl, rfl⟩ := hcut
    exact hus

lemma tokens_blank_cons (hc : isBlank c = true) : tokens (c :: cs) = .ok ts ↔
    tokens cs = .ok ts := by
  rw [← tokens_trimLeft_iff, trimLeft, dropWhile_cons_of_pos hc]
  exact tokens_trimLeft_iff

lemma tokens_blank_append {blanks : List Char} (h : ∀ c ∈ blanks, isBlank c = true) :
    tokens (blanks ++ cs) = .ok ts ↔ tokens cs = .ok ts := by
  induction blanks with
  | nil => rfl
  | cons c blanks ih =>
    obtain ⟨hc, hblanks⟩ := forall_mem_cons.mp h
    rw [cons_append, tokens_blank_cons hc, ih hblanks]

lemma tokens_of_unclosed {inner : List Char} (h : '"' ∉ inner) (ts : List Token) :
    tokens (moduleMark ++ '"' :: inner) ≠ .ok ts := by
  intro hts
  have hmodule : moduleName? (moduleMark ++ '"' :: inner) = none := by
    have hdrop : inner.dropWhile (· != '"') = [] := by
      rw [dropWhile_eq_nil_iff]
      intro c hc
      simpa using fun heq : c = '"' => h (heq ▸ hc)
    simp [moduleName?_mark, modulePath?, hdrop]
  have hstring : string? ('"' :: inner) = none := by
    rw [eq_none_iff_forall_ne_some]
    intro cut hcut
    simp only [string?, true_or, if_true] at hcut
    obtain ⟨tail, htail, _⟩ := Option.map_eq_some_iff.mp hcut
    exact h (mem_of_stringTail? htail)
  -- the word, the colon, and then the quote
  have hword : lexemeCut? (moduleMark ++ '"' :: inner) =
      some (.token (.name "module"), ':' :: '"' :: inner) := by
    have hname : name? (moduleMark ++ '"' :: inner) =
        some ("module".toList, ':' :: '"' :: inner) := by
      have hsteps : pathSteps (':' :: '"' :: inner) = ([], ':' :: '"' :: inner) :=
        pathSteps_of_none fun hmark => absurd hmark (by decide)
      have hidentifier : identifier? (moduleMark ++ '"' :: inner) =
          some ("module".toList, ':' :: '"' :: inner) := rfl
      rw [name?, hmodule, hidentifier]
      simp [hsteps]
    have hblank : run? isBlank (moduleMark ++ '"' :: inner) = none := rfl
    have hstring : string? (moduleMark ++ '"' :: inner) = none := rfl
    have hnumber : number? (moduleMark ++ '"' :: inner) = none := rfl
    simp only [lexemeCut?, hblank, hstring, hnumber, hname]
    rfl
  have hcolon : lexemeCut? (':' :: '"' :: inner) = some (.token (.punct .colon), '"' :: inner) :=
    rfl
  obtain ⟨_, _, _, hcut, -, hrest, -⟩ := exists_cut_of_tokens hts
  obtain ⟨-, rfl⟩ := Prod.mk.inj (Option.some.inj (hword.symm.trans hcut))
  obtain ⟨_, _, _, hcut, -, hrest, -⟩ := exists_cut_of_tokens hrest
  obtain ⟨-, rfl⟩ := Prod.mk.inj (Option.some.inj (hcolon.symm.trans hcut))
  obtain ⟨_, _, _, hcut, -⟩ := exists_cut_of_tokens hrest
  simp [lexemeCut?_of_unclosed (Or.inl rfl) hstring] at hcut

/-- **The tokens of a text and of a bounded text behind it are the tokens of both.** -/
lemma tokens_append (h : Bounded r) (hts : tokens cs = .ok ts) (hus : tokens r = .ok us) :
    tokens (cs ++ r) = .ok (ts ++ us) := by
  induction hlength : cs.length using Nat.strong_induction_on generalizing cs ts with
  | _ n ih =>
    subst hlength
    rcases cs with _ | ⟨c, cs⟩
    · rw [tokens_nil, Except.ok.injEq] at hts
      subst hts
      exact hus
    cases hc : isBlank c with
    | true =>
      rw [tokens_blank_cons hc] at hts
      rw [cons_append, tokens_blank_cons hc]
      exact ih _ (by simp) hts rfl
    | false =>
      obtain ⟨l, rest, more, hcut, hshorter, hmore, rfl⟩ := exists_cut_of_tokens hts
      have hmodule : moduleName? (c :: cs) = none → moduleName? (c :: cs ++ r) = none := by
        intro hnone
        rcases moduleName?_append_of_none h hnone with hlonger | ⟨inner, hquote, hinner⟩
        · exact hlonger
        · exact absurd (hquote ▸ hts) (tokens_of_unclosed hinner _)
      have hlonger := lexemeCut?_append h hc hmodule hcut
      have hless : (rest ++ r).length < (c :: cs ++ r).length := by
        simp only [length_append]
        omega
      rw [append_assoc]
      exact tokens_of_cut hlonger hless (ih _ hshorter hmore rfl)

/-- White space around a text makes no difference to its tokens. -/
lemma tokens_append_of_trim (h : Bounded r) (hts : tokens (trim cs) = .ok ts)
    (hus : tokens r = .ok us) :
    tokens (cs ++ r) = .ok (ts ++ us) := by
  set before := cs.takeWhile isBlank with hbefore
  set behind := ((trimLeft cs).reverse.takeWhile isBlank).reverse with hbehind
  have hcs : cs = before ++ (trim cs ++ behind) := by
    rw [hbehind, trim, trimRight, ← reverse_append, takeWhile_append_dropWhile,
      reverse_reverse, trimLeft, takeWhile_append_dropWhile]
  have hblank : ∀ c ∈ behind, isBlank c = true := fun c hc =>
    mem_takeWhile_imp (mem_reverse.mp hc)
  have hbounded : Bounded (behind ++ r) := by
    cases hb : behind with
    | nil => exact h
    | cons c blanks =>
      intro d hd
      obtain rfl : c = d := by simpa using hd
      simp [isBoundary, hblank c (by simp [hb])]
  have hbehindTokens := (tokens_blank_append hblank).mpr hus
  rw [hcs, append_assoc, append_assoc, tokens_blank_append fun c hc => mem_takeWhile_imp hc]
  exact tokens_append hbounded hts hbehindTokens

end TypeExpr

end AmbientDecl

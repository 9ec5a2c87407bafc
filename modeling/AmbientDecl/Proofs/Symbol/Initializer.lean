import AmbientDecl.Proofs.Run
import AmbientDecl.Proofs.Text.Literal
import AmbientDecl.Proofs.TypeExpr.Spacing
import AmbientDecl.Symbol.OfDoclet

/-!
# Initial values as literals

The value of an enumeration member is printed as a literal: a number or a text between quotes, as
JSON writes them. Which values are not is said here, too.

**Numerals.** `IsNumeral` is the grammar of JSON for numbers. Digits of all scripts count as decimal
digits, but JSON has the ASCII ones only and no zero in front (`isSpelled_iff`).

**Numbers.** Integers and floats are spelled so (`isNumeral_toString`, `isNumeral_text`): the
shortest digits of a float are no zeros, whether they are written out or with an exponent.

**Texts.** A text that reads as a number is left alone, whether JSON has that number or not
(`isNumberText_spec`); any other text is quoted and read back (`isQuoted_stringLiteral`).

**Machines.** `Capacity.Writes` tells which values a machine with limits writes
(`on_writeInitializer`).
-/

namespace AmbientDecl

open Text Json Decimal TypeExpr List

/-- The end of a number: a mark, a sign that may be missing, and digits, or nothing. -/
def IsExponent (cs : List Char) : Prop :=
  cs = [] ∨ ∃ mark sign digits, (mark = 'e' ∨ mark = 'E') ∧
    (sign = [] ∨ sign = ['+'] ∨ sign = ['-']) ∧
    IsRun Char.isDigit digits ∧ cs = mark :: (sign ++ digits)

/-- A number as JSON writes it, but for its sign: with ASCII digits, and no zero in front of another
digit. -/
def IsSpelled (cs : List Char) : Prop :=
  ∃ whole fraction exponent, cs = whole ++ (fraction ++ exponent) ∧ IsRun Char.isDigit whole ∧
    (whole.head? = some '0' → whole = ['0']) ∧ IsFraction Char.isDigit fraction ∧
      IsExponent exponent

/-- What stands behind the sign of a number. -/
def unsigned : List Char → List Char
  | '-' :: cs => cs
  | cs => cs

/-- A number as JSON writes it. -/
def IsNumeral (cs : List Char) : Prop := IsSpelled (unsigned cs)

section Numerals

variable {c : Char} {cs whole fraction : List Char}

lemma unsigned_signed (negative : Bool) (h : cs.head? ≠ some '-') :
    unsigned (if negative then '-' :: cs else cs) = cs := by
  cases negative with
  | true => rfl
  | false =>
    change unsigned cs = cs
    unfold unsigned
    split
    · simp at h
    · rfl

lemma IsSpelled.head? (h : IsSpelled cs) : cs.head?.any Char.isDigit = true := by
  obtain ⟨whole, fraction, exponent, rfl, ⟨hne, hdigits⟩, -⟩ := h
  obtain ⟨c, more, rfl⟩ := exists_cons_of_ne_nil hne
  exact hdigits c mem_cons_self

lemma IsSpelled.isNumeral (h : IsSpelled cs) (negative : Bool) :
    IsNumeral (if negative then '-' :: cs else cs) := by
  rw [IsNumeral, unsigned_signed negative]
  · exact h
  · intro hsign
    have hdigit := h.head?
    rw [hsign] at hdigit
    cases hdigit

lemma lt_of_isDigit (h : c.isDigit = true) : c.toNat < 128 := by
  have hle : c.toNat ≤ 57 := by
    simp only [Char.isDigit, Bool.and_eq_true, decide_eq_true_eq] at h
    exact h.2
  omega

lemma isDigit_of_isDecimal (h : isDecimal c = true) (hascii : c.toNat < 128) :
    c.isDigit = true := by
  simp only [isDecimal, Bool.or_eq_true, CharRanges.contains, any_eq_true] at h
  refine h.resolve_right fun ⟨range, hrange, hc⟩ => ?_
  have hall : (decimalRanges.all fun range => 128 ≤ range.1) = true := by decide
  have hlow := all_eq_true.mp hall range hrange
  simp only [Bool.and_eq_true, decide_eq_true_eq] at hlow hc
  omega

/-- A decimal digit is no mark of a number. -/
lemma ne_of_isDecimal (h : isDecimal c = true) : c ≠ '.' ∧ c ≠ 'e' ∧ c ≠ 'E' ∧ c ≠ '-' := by
  have hmarks : (['.', 'e', 'E', '-'].all fun c => !isDecimal c) = true := by decide
  refine ⟨?_, ?_, ?_, ?_⟩ <;> rintro rfl <;> simp [h] at hmarks

lemma lt_of_isSpelled (h : IsSpelled cs) : ∀ c ∈ cs, c.toNat < 128 := by
  obtain ⟨whole, fraction, exponent, rfl, hwhole, -, hfraction, hexponent⟩ := h
  have hrun : ∀ {digits}, IsRun Char.isDigit digits → ∀ c ∈ digits, c.toNat < 128 :=
    fun h c hc => lt_of_isDigit (h.2 c hc)
  simp only [forall_mem_append]
  refine ⟨hrun hwhole, ?_, ?_⟩
  · rcases hfraction with rfl | ⟨digits, hdigits, rfl⟩
    · simp
    · exact forall_mem_cons.mpr ⟨by decide, hrun hdigits⟩
  · rcases hexponent with rfl | ⟨mark, sign, digits, hmark, hsign, hdigits, rfl⟩
    · simp
    · have hfront : ∀ c ∈ mark :: sign, c.toNat < 128 := by
        rcases hmark with rfl | rfl <;> rcases hsign with rfl | rfl | rfl <;> simp
      exact forall_mem_append.mpr ⟨hfront, hrun hdigits⟩

/-- **A decimal number is one of JSON if it is written with ASCII digits and without a zero in
front.** -/
lemma isSpelled_iff (hwhole : IsRun isDecimal whole) (hfraction : IsFraction isDecimal fraction) :
    IsSpelled (whole ++ fraction) ↔
      (∀ c ∈ whole ++ fraction, c.toNat < 128) ∧ (whole.head? = some '0' → whole = ['0']) := by
  constructor
  · refine fun h => ⟨lt_of_isSpelled h, fun hhead => ?_⟩
    obtain ⟨more, rfl⟩ := head?_eq_some_iff.mp hhead
    rcases more with _ | ⟨d, more⟩
    · rfl
    -- What the numeral has behind the zero is the point or the mark of the exponent.
    obtain ⟨hpoint, he, hE, -⟩ := ne_of_isDecimal (hwhole.2 d (by simp))
    obtain ⟨whole', fraction', exponent, hcs, ⟨hne, -⟩, hzero, hfraction', hexponent⟩ := h
    obtain ⟨c, more', rfl⟩ := exists_cons_of_ne_nil hne
    obtain ⟨rfl, hcs⟩ := List.cons.inj hcs
    obtain rfl : more' = [] := by simpa using hzero rfl
    rcases hfraction' with rfl | ⟨digits, -, rfl⟩
    · rcases hexponent with rfl | ⟨mark, sign, digits, hmark, -, -, rfl⟩
      · cases hcs
      · rcases hmark with rfl | rfl <;> simp_all
    · simp_all
  · rintro ⟨hascii, hzero⟩
    have hrun : ∀ {digits}, IsRun isDecimal digits → (∀ c ∈ digits, c ∈ whole ++ fraction) →
        IsRun Char.isDigit digits :=
      fun h hsub => ⟨h.1, fun c hc => isDigit_of_isDecimal (h.2 c hc) (hascii c (hsub c hc))⟩
    refine ⟨whole, fraction, [], by simp, hrun hwhole (by simp +contextual), hzero, ?_, .inl rfl⟩
    exact hfraction.imp_right fun ⟨digits, hdigits, h⟩ =>
      ⟨digits, hrun hdigits (by simp +contextual [h]), h⟩

end Numerals

/-- A number is written with digits, and only zero with a zero in front. -/
lemma toDigits_spec (n : Nat) : IsRun Char.isDigit (Nat.toDigits 10 n) ∧
    ((Nat.toDigits 10 n).head? = some '0' → n = 0) := by
  refine ⟨⟨Nat.toDigits_ne_nil, fun c => Nat.isDigit_of_mem_toDigits (by decide) (by decide)⟩, ?_⟩
  induction n using Nat.strong_induction_on with
  | _ n ih =>
    rw [Nat.toDigits_eq_if (by decide)]
    split
    · rename_i hlt
      have hall : ∀ a : Fin 10, some (Nat.digitChar a) = some '0' → a.val = 0 := by decide
      exact hall ⟨n, hlt⟩
    · intro h
      rw [head?_append_of_ne_nil _ Nat.toDigits_ne_nil] at h
      have := ih (n / 10) (by omega) h
      omega

lemma isSpelled_toDigits (n : Nat) : IsSpelled (Nat.toDigits 10 n) := by
  obtain ⟨hrun, hzero⟩ := toDigits_spec n
  exact ⟨_, [], [], by simp, hrun, fun h => by rw [hzero h]; rfl, .inl rfl, .inl rfl⟩

lemma isNumeral_toString (n : Int) : IsNumeral (toString n).toList := by
  cases n with
  | ofNat n =>
    change IsNumeral (Nat.repr n).toList
    simpa [Nat.repr_eq_ofList_toDigits] using (isSpelled_toDigits n).isNumeral false
  | negSucc n =>
    change IsNumeral ("-" ++ Nat.repr (n + 1)).toList
    simpa [Nat.repr_eq_ofList_toDigits] using (isSpelled_toDigits (n + 1)).isNumeral true

section Floats

variable {m n : Nat} {q k : Int} {d : Digits} {x : Decimal.Fraction}

lemma num_ofBinary (h : 0 < m) : 0 < (Decimal.Fraction.ofBinary m q).num := by
  unfold Decimal.Fraction.ofBinary
  split
  · exact Nat.mul_pos h (Nat.two_pow_pos _)
  · exact h

lemma num_perPowerOfTen (h : 0 < x.num) : 0 < (x.perPowerOfTen k).num := by
  unfold Decimal.Fraction.perPowerOfTen
  split
  · exact h
  · exact Nat.mul_pos h (Nat.pow_pos (by decide))

lemma ne_zero_of_below (h : 0 < x.num) {closed : Bool} (hn : x.below n closed = true) : n ≠ 0 := by
  rintro rfl
  cases closed <;> simp [Decimal.Fraction.below] at hn
  omega

lemma digits_onGrid (hm : 0 < m) (h : onGrid m q n = some d) : d.digits ≠ 0 := by
  unfold onGrid at h
  extract_lets value k narrow low high closed scaled down up remainder fits upIsNearer at h
  have hlow : 0 < low.num := num_perPowerOfTen (num_ofBinary (by split <;> omega))
  split at h
  · rename_i hfits
    rw [← Option.some.inj h]
    exact ne_zero_of_below hlow (Bool.and_eq_true_iff.mp (Bool.and_eq_true_iff.mp hfits).1).1
  · split at h
    · rw [← Option.some.inj h]
      exact Nat.succ_ne_zero down
    · cases h

lemma digits_trimmed (fuel : Nat) (h : d.digits ≠ 0) : (d.trimmed fuel).digits ≠ 0 := by
  induction fuel generalizing d with
  | zero => exact h
  | succ fuel ih =>
    unfold Digits.trimmed
    split
    · exact ih (by simp only; omega)
    · exact h

lemma digits_shortest (hm : 0 < m) : (shortest m q).digits ≠ 0 := by
  unfold shortest
  split
  · rename_i d hd
    obtain ⟨n, -, hn⟩ := exists_of_findSome?_eq_some hd
    exact digits_trimmed 20 (digits_onGrid hm hn)
  · exact Nat.pos_iff_ne_zero.mp hm

lemma isDigit_of_mem_zeros : ∀ c ∈ List.replicate n '0', c.isDigit = true := by
  intro c hc
  rw [eq_of_mem_replicate hc]
  rfl

lemma isRun_zero : IsRun Char.isDigit ['0'] := ⟨by simp, by simp⟩

variable {digits : List Char} (hdigits : IsRun Char.isDigit digits)

include hdigits

lemma isRun_zeros_append (n : Nat) : IsRun Char.isDigit (List.replicate n '0' ++ digits) :=
  ⟨by simp [hdigits.1], forall_mem_append.mpr ⟨isDigit_of_mem_zeros, hdigits.2⟩⟩

lemma isSpelled_positional (hzero : digits.head? ≠ some '0') (e : Int) :
    IsSpelled (positional digits e) := by
  unfold positional
  split
  · exact ⟨['0'], _, [], by simp, isRun_zero, fun _ => rfl,
      .inr ⟨_, isRun_zeros_append hdigits (-e - 1).toNat, rfl⟩, .inl rfl⟩
  · obtain ⟨first, more, rfl⟩ := exists_cons_of_ne_nil hdigits.1
    extract_lets whole before after
    have hafter : IsRun Char.isDigit (if after.isEmpty then ['0'] else after) := by
      split
      · exact isRun_zero
      · rename_i hne
        exact ⟨by simpa using hne, fun c hc => hdigits.2 c (mem_of_mem_drop hc)⟩
    have hbefore : IsRun Char.isDigit before :=
      ⟨by simp [before, whole], fun c hc => hdigits.2 c (mem_of_mem_take hc)⟩
    refine ⟨before ++ replicate (whole - before.length) '0', _, [], by simp, ?_, ?_,
      .inr ⟨_, hafter, rfl⟩, .inl rfl⟩
    · exact ⟨by simp [hbefore.1], forall_mem_append.mpr ⟨hbefore.2, isDigit_of_mem_zeros⟩⟩
    · intro h
      simp [before, whole] at h hzero
      exact absurd h hzero

lemma isSpelled_scientific (style : NumberStyle) (e : Int) :
    IsSpelled (scientific style digits e) := by
  unfold scientific
  extract_lets mantissa sign
  have hexponent : IsExponent
      ('e' :: sign :: padLeft style.exponentWidth (Nat.toDigits 10 e.natAbs)) := by
    refine .inr ⟨'e', [sign], _, .inl rfl, .inr ?_, isRun_zeros_append (toDigits_spec e.natAbs).1 _,
      rfl⟩
    by_cases he : e < 0 <;> simp [sign, he]
  rcases digits with _ | ⟨first, _ | ⟨second, more⟩⟩
  · exact absurd rfl hdigits.1
  · exact ⟨[first], [], _, rfl, ⟨by simp, hdigits.2⟩, by simp, .inl rfl, hexponent⟩
  · obtain ⟨hfirst, hmore⟩ := forall_mem_cons.mp hdigits.2
    exact ⟨[first], '.' :: second :: more, _, rfl, ⟨by simp, by simpa using hfirst⟩, by simp,
      .inr ⟨_, ⟨by simp, hmore⟩, rfl⟩, hexponent⟩

omit hdigits in
lemma isNumeral_text {x : Binary64} (h : x.isFinite = true) : IsNumeral x.text.toList := by
  cases x with
  | finite negative mantissa exponent =>
    rw [Binary64.text, Binary64.textIn, String.toList_ofList]
    refine IsSpelled.isNumeral ?_ negative
    split
    · exact ⟨['0'], ['.', '0'], [], rfl, isRun_zero, fun _ => rfl,
        .inr ⟨_, isRun_zero, rfl⟩, .inl rfl⟩
    · rename_i hmantissa
      obtain ⟨hrun, hfirst⟩ := toDigits_spec (shortest mantissa exponent).digits
      have hzero := mt hfirst (digits_shortest (Nat.pos_of_ne_zero hmantissa))
      dsimp only
      split
      · exact isSpelled_positional hrun hzero _
      · exact isSpelled_scientific hrun _ _
  | infinite | notANumber => cases h

end Floats

/-- Whether a number is not written as in JSON: with a digit of another script, or with a zero in
front. -/
def isMisspelt (cs : List Char) : Bool :=
  cs.any (fun c => 128 ≤ c.toNat) || match unsigned cs with
    | '0' :: d :: _ => d != '.'
    | _ => false

/-- A text that writes a number is one of JSON unless it is misspelt, and is never quoted. -/
lemma isNumberText_spec {cs : List Char} (h : isNumberText cs = true) :
    (IsNumeral cs ↔ isMisspelt cs = false) ∧ cs.head? ≠ some '"' := by
  unfold isNumberText at h
  split at h
  · rename_i taken rest hnumber
    obtain rfl : rest = [] := by simpa using h
    obtain rfl : cs = taken := by simpa using (local_number?.whole hnumber).2
    obtain ⟨negative, whole, fraction, hwhole, hfraction, rfl⟩ := parts_of_number? hnumber
    obtain ⟨c, more, rfl⟩ := exists_cons_of_ne_nil hwhole.1
    have hc : isDecimal c = true := hwhole.2 c mem_cons_self
    have hunsigned := @unsigned_signed (c :: more ++ fraction) negative
      (by simpa using (ne_of_isDecimal hc).2.2.2)
    rw [IsNumeral, isMisspelt, hunsigned, isSpelled_iff hwhole hfraction, Bool.or_eq_false_iff]
    refine ⟨and_congr ?_ ?_, ?_⟩
    · cases negative <;> simp [or_imp, forall_and]
    · by_cases hzero : c = '0'
      · subst hzero
        rcases more with _ | ⟨d, more⟩
        · rcases hfraction with rfl | ⟨digits, -, rfl⟩ <;> simp
        · simp [(ne_of_isDecimal (hwhole.2 d (by simp))).1]
      · simp [hzero]
    · cases negative with
      | true => simp
      | false =>
        rintro ⟨⟩
        exact absurd hc (by decide)
  · cases h

/-- Whether the written form of a value is none of JSON: that of an infinity or of no number, and
that of a text that writes a number with a digit of another script or a zero in front. -/
def Json.Value.isMisspelt : Value → Bool
  | .null | .bool _ | .int _ => false
  | .float x => !x.isFinite
  | v => isNumberText (stripped v.text).toList && AmbientDecl.isMisspelt (stripped v.text).toList

lemma isLiteral_textInitializer (text : String) :
    (IsNumeral (textInitializer text).toList ∨ ∃ s, IsQuoted (textInitializer text) s) ↔
      (isNumberText (stripped text).toList && isMisspelt (stripped text).toList) = false := by
  unfold textInitializer
  by_cases h : isNumberText (stripped text).toList = true
  · obtain ⟨hnumeral, hhead⟩ := isNumberText_spec h
    simp [h, hnumeral, IsQuoted, hhead]
  · simp only [h, Bool.false_eq_true, ↓reduceIte, Bool.false_and, iff_true]
    exact .inr ⟨_, isQuoted_stringLiteral _⟩

lemma not_isLiteral_text {x : Binary64} (h : x.isFinite = false) :
    ¬ (IsNumeral x.text.toList ∨ ∃ s, IsQuoted x.text s) := by
  have hword : ∀ word : String, (unsigned word.toList).head?.any Char.isDigit = false →
      word.toList.head? ≠ some '"' → ¬ (IsNumeral word.toList ∨ ∃ s, IsQuoted word s) := by
    intro word hdigit hhead hliteral
    rcases hliteral with hnumeral | ⟨s, hquote, -⟩
    · exact absurd (hdigit.symm.trans (IsSpelled.head? hnumeral)) (by simp)
    · exact hhead hquote
  rcases x with _ | negative | _
  · cases h
  · cases negative <;> exact hword _ (by decide +kernel) (by decide +kernel)
  · exact hword _ (by decide +kernel) (by decide +kernel)

/-- The value is written on a machine: it is not nested too deep, and no integer in it is too
long. -/
def Capacity.Writes (c : Capacity) (v : Value) : Prop :=
  v.depth - 1 ≤ c.calls ∧ v.digits ≤ c.digits

lemma Capacity.refusal?_writing {c : Capacity} {v : Value} :
    c.refusal? (.writing v) = none ↔ c.Writes v := by
  simp only [Capacity.refusal?, Task.writing, Capacity.Writes]
  split
  · rename_i hdeep
    simp [Nat.not_le.mpr hdeep]
  · rename_i hdeep
    split
    · rename_i hlong
      simp [Nat.not_le.mpr hlong]
    · rename_i hlong
      simp [Nat.not_lt.mp hdeep, Nat.not_lt.mp hlong]

lemma Capacity.writes_string (c : Capacity) (s : String) : c.Writes (.string s) :=
  ⟨Nat.zero_le _, Nat.zero_le _⟩

/-- An initial value is written as it is, or the machine refuses to write the value. -/
lemma on_writeInitializer (c : Capacity) (v : Value) :
    (c.Writes v ∧ ((writeInitializer v).on c).result = .ok (initializer? v)) ∨
      ¬ c.Writes v ∧ ∃ r, ((writeInitializer v).on c).result = .error (.refused r) := by
  have hrun : writeInitializer v = ⟨[.task (.writing v)], .ok (initializer? v)⟩ := rfl
  have hentry : (Entry.task (.writing v)).refusal? c = c.refusal? (.writing v) := by
    simp [Entry.refusal?, Entry.tasks]
  rw [← Capacity.refusal?_writing, ← hentry, hrun]
  cases hrefusal : (Entry.task (.writing v)).refusal? c with
  | none => exact .inl ⟨rfl, by rw [Run.on_carried hrefusal, Run.on_nil]⟩
  | some r => exact .inr ⟨by simp, r, by rw [Run.on_refused hrefusal]⟩

lemma isLiteral_of_initializer? {v : Value} {t : String} (ht : initializer? v = some t) :
    (IsNumeral t.toList ∨ ∃ s, IsQuoted t s) ↔ v.isMisspelt = false := by
  cases v with
  | null | bool => cases ht
  | int n =>
    obtain rfl := Option.some.inj ht
    exact iff_of_true (.inl (isNumeral_toString n)) rfl
  | float x =>
    obtain rfl := Option.some.inj ht
    cases hx : x.isFinite with
    | true => exact iff_of_true (.inl (isNumeral_text hx)) (by simp [Value.isMisspelt, hx])
    | false => exact iff_of_false (not_isLiteral_text hx) (by simp [Value.isMisspelt, hx])
  | string | array | object =>
    obtain rfl := Option.some.inj ht
    exact isLiteral_textInitializer _

/-- **Initial values are literals.** A machine writes them for the values that it can write. Null
and the truth values have none. What all others have is a number or a string of JSON unless the
value is misspelt, and a text that is no number is read back from its string, without the blanks
around it and one pair of quotes. -/
theorem isLiteral_initializer? (c : Capacity) (v : Value) :
    (c.Writes v → ∃ written, ((writeInitializer v).on c).result = .ok written) ∧
    (¬ c.Writes v → ∃ r, ((writeInitializer v).on c).result = .error (.refused r)) ∧
    (((writeInitializer v).on c).result = .ok none ↔ v = .null ∨ ∃ b, v = .bool b) ∧
    (∀ t, ((writeInitializer v).on c).result = .ok (some t) →
      ((IsNumeral t.toList ∨ ∃ s, IsQuoted t s) ↔ v.isMisspelt = false)) ∧
    ∀ s, v = .string s → isNumberText (stripped s).toList = false →
      ∃ t, ((writeInitializer v).on c).result = .ok (some t) ∧
        IsQuoted t (unquote (stripped s)) := by
  rcases on_writeInitializer c v with ⟨hwrites, hresult⟩ | ⟨hwrites, r, hresult⟩
  · rw [hresult]
    refine ⟨fun _ => ⟨_, rfl⟩, fun hnot => absurd hwrites hnot, ?_, ?_, ?_⟩
    · cases v <;> simp [initializer?]
    · intro t ht
      exact isLiteral_of_initializer? (Except.ok.inj ht)
    · rintro s rfl hs
      refine ⟨_, rfl, ?_⟩
      simp only [textInitializer, Value.text, hs, Bool.false_eq_true, ↓reduceIte]
      exact isQuoted_stringLiteral _
  · rw [hresult]
    refine ⟨fun h => absurd h hwrites, fun _ => ⟨r, rfl⟩, iff_of_false (by simp) ?_, by simp, ?_⟩
    · rintro (rfl | ⟨b, rfl⟩) <;> exact hwrites ⟨Nat.zero_le _, Nat.zero_le _⟩
    · rintro s rfl
      exact absurd (c.writes_string s) hwrites

/-- A text between quotes loses them. -/
theorem isLiteral_initializer?_quoted : isNumberText (stripped " 'a\"b' ").toList = false ∧
    ∃ t, ((writeInitializer (.string " 'a\"b' ")).on .standard).result = .ok (some t) ∧
      IsQuoted t "a\"b" := by
  have hs : isNumberText (stripped " 'a\"b' ").toList = false := by decide +kernel
  have hunquote : unquote (stripped " 'a\"b' ") = "a\"b" := by decide +kernel
  exact ⟨hs, hunquote ▸ (isLiteral_initializer? .standard (.string " 'a\"b' ")).2.2.2.2 _ rfl hs⟩

/-- A number with zeros in front is written as it is, and that is no literal. -/
theorem not_isLiteral_zeros :
    ((writeInitializer (.string "007")).on .standard).result = .ok (some "007") ∧
      ¬ (IsNumeral "007".toList ∨ ∃ s, IsQuoted "007" s) := by
  constructor
  · have htext : initializer? (.string "007") = some "007" := by decide +kernel
    rcases on_writeInitializer .standard (.string "007") with ⟨-, hresult⟩ | ⟨hnot, -⟩
    · rw [hresult, htext]
    · exact absurd (Capacity.writes_string _ _) hnot
  · have hzeros : isNumberText "007".toList = true := by decide +kernel
    obtain ⟨hnumeral, hhead⟩ := isNumberText_spec hzeros
    rintro (h | ⟨s, h, -⟩)
    · exact absurd (hnumeral.mp h) (by decide +kernel)
    · exact hhead h

end AmbientDecl

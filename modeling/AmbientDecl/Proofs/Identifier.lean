import AmbientDecl.Declaration.Reference
import Mathlib.Data.List.Nodup
import Mathlib.Data.List.Perm.Subperm
import Mathlib.Tactic.Common

/-!
# Searches and names

**By a key.** Symbols, links and places are kept in lists and found by a number or a longname. Where
the keys differ, the search finds exactly the item that has the key.

**For a free name.** `firstFree` looks at finitely many candidates, and its last one is given
without a look. That is right because the candidates differ: where at most `bound` of them are
taken, one of the first `bound + 1` is free (`isTaken_firstFree`). The candidates before it are
taken (`exists_firstFree`).

Names of declarations and of parameters are made out of identifiers and numbers, so only word
characters and dollar signs are in them. A name that is an identifier already may end with a line
feed, which is kept.

**Legal names.** What is made out of any name can be declared: it does not start with a digit
(`legal_toIdentifier`). The name of a parameter is the first of its candidates that is neither
reserved nor taken, and one of them is free (`endsAt_paramName`).
-/

namespace AmbientDecl

open List

variable {c : Char} (name : Option String)

section Keys

variable {α κ : Type} [DecidableEq κ]

/-- Where the keys differ, an item is found by its key. -/
lemma find?_eq_some_of_nodup (key : α → κ) {l : List α} (hnd : (l.map key).Nodup) {a : α}
    (ha : a ∈ l) {k : κ} (hk : key a = k) : (l.find? fun b => key b == k) = some a := by
  cases hfind : l.find? fun b => key b == k with
  | none =>
    have hne := find?_eq_none.mp hfind a ha
    exact absurd hk (by simpa using hne)
  | some b =>
    have hb := mem_of_find?_eq_some hfind
    have hkey : key b = k := by simpa using find?_some hfind
    rw [inj_on_of_nodup_map hnd hb ha (hkey.trans hk.symm)]

/-- Where the keys differ, the value of an entry is found by its key. -/
lemma lookup_eq_some_of_nodup {l : List (κ × α)} (hnd : (l.map Prod.fst).Nodup) {e : κ × α}
    (he : e ∈ l) : l.lookup e.1 = some e.2 := by
  obtain ⟨front, back, rfl⟩ := append_of_mem he
  refine lookup_eq_some_iff.mpr ⟨front, back, rfl, ?_⟩
  intro e' he'
  rw [map_append, nodup_append] at hnd
  have hne := hnd.2.2 e'.1 (mem_map_of_mem he') e.1 (by simp)
  simpa using Ne.symm hne

end Keys

namespace Text

/-- Numbers are told apart by their texts. -/
lemma toString_nat_injective : Function.Injective fun n : Nat => toString n := by
  intro m n h
  have hrepr : m.repr = n.repr := h
  rw [Nat.repr_eq_ofList_toDigits, Nat.repr_eq_ofList_toDigits, String.ofList_inj] at hrepr
  calc m = Nat.ofDigitChars 10 (Nat.toDigits 10 m) 0 :=
        (Nat.ofDigitChars_toDigits (by decide) (by decide)).symm
    _ = Nat.ofDigitChars 10 (Nat.toDigits 10 n) 0 := by rw [hrepr]
    _ = n := Nat.ofDigitChars_toDigits (by decide) (by decide)

/-- The usual candidates for a name differ from each other. -/
lemma numberedFrom_injective (first : Nat) (base : String) :
    Function.Injective (numberedFrom first base) := by
  have hlonger : ∀ k, base ≠ numberedFrom first base (k + 1) := by
    intro k h
    have hlen := congrArg String.length h
    simp only [numberedFrom, String.length_append] at hlen
    have : "_".length = 1 := rfl
    omega
  intro i j h
  cases i with
  | zero =>
    cases j with
    | zero => rfl
    | succ j => exact absurd h (hlonger j)
  | succ i =>
    cases j with
    | zero => exact absurd h.symm (hlonger i)
    | succ j =>
      simp only [numberedFrom, String.append_right_inj] at h
      have := toString_nat_injective h
      omega

/-- **The name that is given is free.** `key` tells the candidates apart, and `used` holds the keys
of those that are taken. -/
lemma isTaken_firstFree {β : Type} {isTaken : String → Bool} {candidate : Nat → String}
    {bound : Nat} {key : Nat → β} (hkey : Function.Injective key) {used : List β}
    (hlen : used.length ≤ bound) (hused : ∀ n, isTaken (candidate n) = true → key n ∈ used) :
    isTaken (firstFree isTaken candidate bound) = false := by
  unfold firstFree
  split
  · rename_i n hfind
    simpa using find?_some hfind
  · rename_i hnone
    rw [find?_eq_none] at hnone
    by_contra htaken
    have hall : ∀ n ∈ range (bound + 1), key n ∈ used := by
      intro n hn
      apply hused
      rcases Nat.lt_succ_iff_lt_or_eq.mp (mem_range.mp hn) with hlt | rfl
      · simpa using hnone n (mem_range.mpr hlt)
      · simpa using htaken
    have hnodup : ((range (bound + 1)).map key).Nodup := nodup_range.map hkey
    have hsubset : (range (bound + 1)).map key ⊆ used := by
      intro k hk
      obtain ⟨n, hn, rfl⟩ := mem_map.mp hk
      exact hall n hn
    have hle := (hnodup.subperm hsubset).length_le
    simp only [length_map, length_range] at hle
    omega

/-- The name that is given is a candidate, and those before it are taken. -/
lemma exists_firstFree (isTaken : String → Bool) (candidate : Nat → String) (bound : Nat) :
    ∃ n, firstFree isTaken candidate bound = candidate n ∧
      ∀ m < n, isTaken (candidate m) = true := by
  unfold firstFree
  split
  · rename_i n hfind
    have hbefore := (find?_range_eq_some.mp hfind).2.2
    exact ⟨n, rfl, fun m hm => by simpa using hbefore m hm⟩
  · rename_i hnone
    rw [find?_eq_none] at hnone
    exact ⟨bound, rfl, fun m hm => by simpa using hnone m (mem_range.mpr hm)⟩

end Text

open Text TypeExpr List Bool

namespace Text

/-- All characters of a class. -/
def CharRanges.chars (ranges : CharRanges) : List Char :=
  ranges.flatMap fun range => (List.range' range.1 (range.2 + 1 - range.1)).map Char.ofNat

lemma CharRanges.mem_chars {ranges : CharRanges} (h : ranges.contains c = true) :
    c ∈ ranges.chars := by
  obtain ⟨range, hrange, hin⟩ := any_eq_true.mp h
  simp only [and_eq_true, decide_eq_true_eq] at hin
  refine mem_flatMap.mpr ⟨range, hrange, mem_map.mpr ⟨c.toNat, ?_, Char.ofNat_toNat c⟩⟩
  rw [mem_range'_1]
  omega

end Text

/-- All characters of a text have a property. -/
def MadeOf (p : Char → Prop) (text : String) : Prop := ∀ c ∈ text.toList, p c

def IdentChar (c : Char) : Prop := isIdentRest c = true

instance (c : Char) : Decidable (IdentChar c) := inferInstanceAs (Decidable (_ = _))

section MadeOf

variable {p q : Char → Prop} {a b : String}

lemma MadeOf.mono (h : MadeOf p a) (hpq : ∀ c, p c → q c) : MadeOf q a := fun c hc => hpq c (h c hc)

lemma MadeOf.append (ha : MadeOf p a) (hb : MadeOf p b) : MadeOf p (a ++ b) := by
  intro c hc
  rw [String.toList_append] at hc
  exact (mem_append.mp hc).elim (ha c) (hb c)

lemma MadeOf.not_mem (h : MadeOf p a) (hc : ¬ p c) : c ∉ a.toList := fun hmem => hc (h c hmem)

end MadeOf

lemma identChar_of_isDigit (h : c.isDigit = true) : IdentChar c := by
  simp [IdentChar, isIdentRest, isWord, Char.isAlphanum, h]

lemma identChar_of_isIdentStart (h : isIdentStart c = true) : IdentChar c := by
  simp only [isIdentStart, or_eq_true] at h
  rcases h with (h | h) | h <;> simp [IdentChar, isIdentRest, isWord, Char.isAlphanum, h]

/-- The characters that an identifier can start with. -/
def identStartRanges : CharRanges := [(0x24, 0x24), (0x41, 0x5a), (0x5f, 0x5f), (0x61, 0x7a)]

lemma contains_identStartRanges (h : isIdentStart c = true) :
    identStartRanges.contains c = true := by
  change (decide (c.val ≥ 'A'.val ∧ c.val ≤ 'Z'.val) ||
    (decide (c.val ≥ 'a'.val) && decide (c.val ≤ 'z'.val)) ||
    c == '_' || c == '$') = true at h
  simp only [or_eq_true, and_eq_true, decide_eq_true_eq, beq_iff_eq, UInt32.le_iff_toNat_le,
    ge_iff_le] at h
  change ((65 ≤ c.toNat ∧ c.toNat ≤ 90 ∨ 97 ≤ c.toNat ∧ c.toNat ≤ 122) ∨ c = '_') ∨ c = '$' at h
  rcases h with (h | rfl) | rfl
  · simp only [identStartRanges, CharRanges.contains_cons, CharRanges.contains_nil, or_eq_true,
      and_eq_true, decide_eq_true_eq]
    omega
  · decide
  · decide

lemma not_isDigitLike_of_isIdentStart (h : isIdentStart c = true) : isDigitLike c = false := by
  have hall : identStartRanges.chars.all (fun c => !isDigitLike c) = true := by decide +kernel
  simpa using all_eq_true.mp hall c (CharRanges.mem_chars (contains_identStartRanges h))

lemma identChar_toString (n : Nat) : MadeOf IdentChar (toString n) := by
  intro c hc
  have hdigits : (toString n).toList = Nat.toDigits 10 n := by
    rw [show toString n = n.repr from rfl, Nat.repr_eq_ofList_toDigits, String.toList_ofList]
  rw [hdigits] at hc
  exact identChar_of_isDigit (Nat.isDigit_of_mem_toDigits (by decide) (by decide) hc)

lemma identChar_of_isIdentifierChars {cs : List Char} (h : isIdentifierChars cs = true) :
    ∀ c ∈ cs, IdentChar c := by
  cases cs with
  | nil => simp
  | cons first rest =>
    simp only [isIdentifierChars, and_eq_true, all_eq_true] at h
    rw [forall_mem_cons]
    exact ⟨identChar_of_isIdentStart h.1, h.2⟩

/-- The candidates for a name have the characters of its base, and digits. -/
lemma madeOf_numberedFrom {p : Char → Prop} (hp : ∀ c, IdentChar c → p c) {base : String}
    (h : MadeOf p base) (first k : Nat) : MadeOf p (numberedFrom first base k) := by
  cases k with
  | zero => exact h
  | succ k =>
    have hmark : "_".toList.all isIdentRest = true := by decide
    exact (h.append (MadeOf.mono (all_eq_true.mp hmark) hp)).append ((identChar_toString _).mono hp)

/-- A name that can be declared: word characters and dollar signs, at least one, the first no
digit. -/
structure Legal (name : String) : Prop where
  nonempty : name ≠ ""
  chars : MadeOf IdentChar name
  first : ∀ c ∈ name.toList.head?, isDigitLike c = false

lemma legal_ofList {cs : List Char} (hfirst : isDigitLike c = false)
    (hchars : ∀ d ∈ c :: cs, IdentChar d) : Legal (String.ofList (c :: cs)) where
  nonempty := by simp [← String.toList_inj]
  chars := by simpa [MadeOf] using hchars
  first := by simpa using hfirst

lemma Legal.append {a b : String} (ha : Legal a) (hb : MadeOf IdentChar b) : Legal (a ++ b) where
  nonempty := by simp [ha.nonempty]
  chars := ha.chars.append hb
  first := by
    have hne : a.toList ≠ [] := by simpa using ha.nonempty
    simpa [head?_append_of_ne_nil _ hne] using ha.first

lemma legal_toIdentifier (name : String) : Legal (toIdentifier name) := by
  have hclean : ∀ c ∈ identifierChars (unquoteChars name.toList), IdentChar c := by
    intro c hc
    obtain ⟨d, _, rfl⟩ := mem_map.mp hc
    split
    · assumption
    · decide
  rw [toIdentifier]
  cases hcs : identifierChars (unquoteChars name.toList) with
  | nil => exact legal_ofList (by decide +kernel) (by simpa using by decide)
  | cons c cs =>
    rw [hcs] at hclean
    split
    · exact legal_ofList (by decide +kernel) (forall_mem_cons.mpr ⟨by decide, hclean⟩)
    · rename_i hdigit
      exact legal_ofList (by simpa [needsUnderscore] using hdigit) hclean

/-- What the name of a parameter is made from. -/
def paramBase (name : Option String) (position : Nat) : String :=
  match nonempty? name with
  | some name => toIdentifier name
  | none => s!"arg{position}"

lemma legal_paramBase (position : Nat) : Legal (paramBase name position) := by
  unfold paramBase
  split
  · exact legal_toIdentifier _
  · have harg : Legal (String.ofList ['a', 'r', 'g']) :=
      legal_ofList (by decide +kernel) (by simpa using by decide)
    exact harg.append (identChar_toString position)

/-- A search among the candidates for a name ends: one is free, and those before it are taken. -/
def EndsAt (taken : String → Prop) (base name : String) : Prop :=
  ∃ n, name = numberedFrom 1 base n ∧ ¬ taken name ∧ ∀ m < n, taken (numberedFrom 1 base m)

lemma Legal.of_endsAt {taken : String → Prop} {base name : String} (hbase : Legal base)
    (h : EndsAt taken base name) : Legal name := by
  obtain ⟨_ | n, rfl, _⟩ := h
  · exact hbase
  · exact (hbase.append (all_eq_true.mp (by decide))).append (identChar_toString _)

/-- **The name of a parameter is the first candidate that is neither reserved nor taken.** -/
lemma endsAt_paramName (position : Nat) (seen : List String) :
    EndsAt (fun x => x ∈ reservedWords ∨ x ∈ seen) (paramBase name position)
      (paramName name position seen) := by
  let isTaken := fun x => reservedWords.contains x || seen.contains x
  let candidate := numberedFrom 1 (paramBase name position)
  have hname : paramName name position seen =
      firstFree isTaken candidate (reservedWords.length + seen.length) := rfl
  have hused : ∀ n, isTaken (candidate n) = true →
    candidate n ∈ reservedWords ++ seen := by simp [isTaken]
  have hfree := isTaken_firstFree (numberedFrom_injective 1 _) (Nat.le_of_eq length_append) hused
  obtain ⟨n, hn, htaken⟩ := exists_firstFree isTaken candidate (reservedWords.length + seen.length)
  rw [← hname] at hfree hn
  exact ⟨n, hn, by simpa [isTaken] using hfree, fun m hm => by simpa [isTaken] using htaken m hm⟩

/-- A character of a declared name. -/
def NameChar (c : Char) : Prop := IdentChar c ∨ c = '\n'

instance (c : Char) : Decidable (NameChar c) := inferInstanceAs (Decidable (_ ∨ _))

lemma nameChar_of_isIdentifier {name : String} (h : isIdentifier name = true) :
    MadeOf NameChar name := by
  simp only [isIdentifier, or_eq_true, and_eq_true, beq_iff_eq] at h
  rcases h with h | ⟨hlast, h⟩
  · exact fun c hc => .inl (identChar_of_isIdentifierChars h c hc)
  · -- the line feed that may follow the identifier
    intro c hc
    rw [← dropLast_append_getLast? _ hlast, mem_append, mem_singleton] at hc
    exact hc.imp_left (identChar_of_isIdentifierChars h c)

lemma nameChar_baseName (name : String) : MadeOf NameChar (baseName name) := by
  unfold baseName
  split
  · rename_i h
    exact nameChar_of_isIdentifier h
  · exact (legal_toIdentifier name).chars.mono fun _ => .inl

lemma nameChar_declaredName (parent : SymbolTree) (taken : List String) (t : SymbolTree) :
    MadeOf NameChar (declaredName parent taken t) := by
  obtain ⟨n, hn, _⟩ := exists_firstFree (isUnusable parent taken t)
    (numberedFrom 1 (baseName t.name))
    (reservedWords.length + predefinedTypeNames.length + taken.length)
  rw [declaredName, hn]
  exact madeOf_numberedFrom (fun _ => .inl) (nameChar_baseName t.name) 1 n

lemma identChar_paramName (position : Nat) (seen : List String) :
    MadeOf IdentChar (paramName name position seen) :=
  ((legal_paramBase name position).of_endsAt (endsAt_paramName name position seen)).chars

end AmbientDecl

import Mathlib.Data.List.DropRight
import AmbientDecl.Proofs.Declaration.Expressible
import AmbientDecl.Proofs.Forest.Substitution
import AmbientDecl.Proofs.TypeExpr.Composition

/-!
# Type parameters between declarations and comments

A declaration writes its type parameters between angle brackets, a comment in a `template` tag. The
texts have one form, names with commas between them and `extends` before a constraint, so the list
that a declaration shows can be put into a comment.

**Pieces.** A text is split at every comma (`splitAt_intercalate`), and a piece is cut at the first
`extends` (`cutWord_append`), which no identifier holds.

**Reading back.** What the reader finds is always `Legible`: there is no white space around names
and constraints and no comma in them (`legible_of_typeParameter?`). A legible parameter is read as
it was written (`TypeParameter.Legible.typeParameter?_of_trim`). So
`typeParametersOf_eq_iff_legible` is an equivalence, and a constraint with a comma in it, such as a
generic type with two arguments, is what breaks it.
-/

namespace AmbientDecl

open Text TypeExpr List TypeParameter

section Trimming

variable {a b cs : List Char}

lemma trim_trim (cs : List Char) : trim (trim cs) = trim cs := by
  have hleft : trimLeft (trimLeft cs) = trimLeft cs := dropWhile_idempotent isBlank cs
  have hright : ∀ ds, trimRight (trimRight ds) = trimRight ds := rdropWhile_idempotent isBlank
  calc trim (trim cs) = trimRight (trimLeft (trimRight (trimLeft cs))) := rfl
    _ = trimRight (trimRight (trimLeft cs)) := by rw [trimLeft_trimRight, trim, hleft]
    _ = trim cs := hright _

lemma trim_space (cs : List Char) : trim (' ' :: cs) = trim cs := rfl

lemma trimLeft_eq_self (h : trim cs = cs) : trimLeft cs = cs := by
  refine (dropWhile_sublist isBlank).eq_of_length_le ?_
  conv_lhs => rw [← h]
  exact (List.rdropWhile_prefix isBlank _).sublist.length_le

lemma trimRight_eq_self (h : trim cs = cs) : trimRight cs = cs := by
  rwa [trim, trimLeft_eq_self h] at h

/-- White space inside a text is no white space around it. -/
lemma trim_between (ha : trim a = a) (hne : a ≠ []) (hb : trim b = b) (hne' : b ≠ [])
    (cs : List Char) :
    trim (a ++ cs ++ b) = a ++ cs ++ b := by
  obtain ⟨c, as, rfl⟩ := exists_cons_of_ne_nil hne
  obtain ⟨bs, d, rfl⟩ := (eq_nil_or_concat' b).resolve_left hne'
  have hc : isBlank c = false := by
    by_contra hblank
    have hshorter : (trimLeft (c :: as)).length ≤ as.length := by
      rw [trimLeft, dropWhile_cons, if_pos (by simpa using hblank)]
      exact (dropWhile_sublist isBlank).length_le
    rw [trimLeft_eq_self ha, length_cons] at hshorter
    omega
  have hd : isBlank d = false := by
    have : rdropWhile isBlank (bs ++ [d]) = bs ++ [d] := trimRight_eq_self hb
    rw [rdropWhile_eq_self_iff] at this
    simpa using this (by simp)
  have hends : trim (c :: (as ++ cs ++ bs) ++ [d]) = c :: (as ++ cs ++ bs) ++ [d] :=
    trim_of_ends hc hd
  simpa using hends

end Trimming

section Pieces

variable {sep w : Char} {a b word cs before after : List Char}

lemma splitAt_append (h : sep ∉ a) (b : List Char) :
    Text.splitAt sep (a ++ sep :: b) = a :: Text.splitAt sep b := by
  induction a with
  | nil => simp [Text.splitAt]
  | cons c a ih =>
    rw [mem_cons, not_or] at h
    rw [cons_append, Text.splitAt, if_neg (Ne.symm h.1), ih h.2]

/-- Splitting undoes joining, but for the space behind each comma. -/
lemma splitAt_intercalate {l : List (List Char)} (ha : ',' ∉ a) (hl : ∀ b ∈ l, ',' ∉ b) :
    Text.splitAt ',' (", ".toList.intercalate (a :: l)) = a :: l.map (' ' :: ·) := by
  induction l generalizing a with
  | nil => simpa using splitAt_of_not_mem ha
  | cons b l ih =>
    rw [forall_mem_cons] at hl
    have hsep : a ++ ", ".toList ++ ", ".toList.intercalate (b :: l) =
        a ++ ',' :: ' ' :: ", ".toList.intercalate (b :: l) := by simp
    rw [intercalate_cons_cons, hsep, splitAt_append ha, Text.splitAt,
      if_neg (by decide), ih hl.1 hl.2]
    rfl

lemma dropWord_append (word after : List Char) : dropWord word (word ++ after) = some after := by
  induction word with
  | nil => rfl
  | cons w word ih => simpa [dropWord] using ih

lemma dropWord_eq_some (h : dropWord word cs = some after) : cs = word ++ after := by
  fun_induction dropWord word cs <;> simp_all

/-- A word is found where it stands, if its first letter does not stand before it. -/
lemma cutWord_append (h : w ∉ before) (word after : List Char) :
    cutWord (w :: word) (before ++ (w :: word) ++ after) = some (before, after) := by
  induction before with
  | nil =>
    have hdrop := dropWord_append (w :: word) after
    rw [cons_append] at hdrop
    rw [nil_append, cons_append, cutWord, hdrop]
  | cons c before ih =>
    rw [mem_cons, not_or] at h
    rw [cons_append, cons_append, cutWord, dropWord, if_neg h.1, ih h.2]
    rfl

lemma cutWord_of_not_mem (h : w ∉ cs) (word : List Char) : cutWord (w :: word) cs = none := by
  induction cs with
  | nil => rfl
  | cons c cs ih =>
    rw [mem_cons, not_or] at h
    rw [cutWord, dropWord, if_neg h.1, ih h.2]
    rfl

lemma cutWord_eq_some (h : cutWord word cs = some (before, after)) :
    cs = before ++ word ++ after := by
  induction cs generalizing before with
  | nil =>
    obtain ⟨rest, hrest, heq⟩ := Option.map_eq_some_iff.mp h
    obtain ⟨rfl, rfl⟩ := Prod.mk.inj heq
    simpa using dropWord_eq_some hrest
  | cons c cs ih =>
    rw [cutWord] at h
    split at h
    · rename_i rest hrest
      obtain ⟨rfl, rfl⟩ := Prod.mk.inj (Option.some.inj h)
      simpa using dropWord_eq_some hrest
    · obtain ⟨cut, hcut, heq⟩ := Option.map_eq_some_iff.mp h
      obtain ⟨rfl, rfl⟩ := Prod.mk.inj heq
      rw [ih hcut]
      rfl

end Pieces

/-- A type parameter as a declaration writes it. -/
def TypeParameter.chars (p : TypeParameter) : List Char :=
  p.name.toList ++ (nonempty? p.constraint).elim [] fun c => " extends ".toList ++ c.toList

/-- A type parameter that a text can hold between commas: no white space stands around its name and
its constraint, and the constraint says something and has no comma in it. -/
structure TypeParameter.Legible (p : TypeParameter) : Prop where
  name : trim p.name.toList = p.name.toList
  constraint : ∀ c ∈ p.constraint, c ≠ "" ∧ trim c.toList = c.toList ∧ ',' ∉ c.toList

instance (p : TypeParameter) : Decidable p.Legible :=
  decidable_of_iff (trim p.name.toList = p.name.toList ∧
      ∀ c ∈ p.constraint, c ≠ "" ∧ trim c.toList = c.toList ∧ ',' ∉ c.toList)
    ⟨fun h => ⟨h.1, h.2⟩, fun h => ⟨h.name, h.constraint⟩⟩

section Reading

variable {p : TypeParameter} {piece cs : List Char} {text : String}

lemma present?_eq_some : present? cs = some text ↔ cs ≠ [] ∧ text = String.ofList cs := by
  unfold present?
  cases cs <;> simp [eq_comm]

lemma present?_toList {text : String} (h : text ≠ "") : present? text.toList = some text := by
  rw [present?_eq_some, String.ofList_toList]
  exact ⟨by simpa using h, rfl⟩

lemma nonempty?_eq_some {o : Option String} : nonempty? o = some text ↔
    o = some text ∧ text ≠ "" := by
  simp [nonempty?, Option.filter_eq_some_iff]

/-- **What is read from a piece is legible.** -/
lemma legible_of_typeParameter? (h : typeParameter? none piece = some p) (hcomma : ',' ∉ piece) :
    p.Legible := by
  have hpiece : ',' ∉ trim piece := fun hmem => hcomma ((trim_sublist piece).subset hmem)
  simp only [typeParameter?, Option.map_eq_some_iff] at h
  obtain ⟨name, hname, rfl⟩ := h
  rw [present?_eq_some] at hname
  refine ⟨?_, ?_⟩
  · rw [hname.2, String.toList_ofList, trim_trim]
  · intro c hc
    cases hcut : cutWord " extends ".toList (trim piece) with
    | none => simp only [hcut, Option.none_or, Option.mem_def, reduceCtorEq] at hc
    | some cut =>
      simp only [hcut, Option.or_none, Option.mem_def, present?_eq_some] at hc
      obtain ⟨hne, rfl⟩ := hc
      rw [cutWord_eq_some hcut] at hpiece
      rw [String.toList_ofList, trim_trim]
      refine ⟨by simpa using hne, rfl, fun hmem => hpiece ?_⟩
      exact mem_append_right _ ((trim_sublist _).subset hmem)

section Legible

variable (hp : p.Legible)
include hp

lemma TypeParameter.Legible.chars_eq : p.chars =
    p.name.toList ++ p.constraint.elim [] fun c => " extends ".toList ++ c.toList := by
  have hsays : nonempty? p.constraint = p.constraint := by
    cases hc : p.constraint with
    | none => rfl
    | some c => exact nonempty?_eq_some.mpr ⟨rfl, (hp.constraint c hc).1⟩
  rw [chars, hsays]

lemma TypeParameter.Legible.comma_not_mem_chars (hname : ',' ∉ p.name.toList) : ',' ∉ p.chars := by
  rw [hp.chars_eq, mem_append, not_or]
  refine ⟨hname, ?_⟩
  cases hc : p.constraint with
  | none => simp
  | some c => simpa using (hp.constraint c hc).2.2

lemma TypeParameter.Legible.trim_chars (hname : p.name ≠ "") : trim p.chars = p.chars := by
  rw [hp.chars_eq]
  cases hc : p.constraint with
  | none => simpa using hp.name
  | some c =>
    obtain ⟨hne, htrim, -⟩ := hp.constraint c hc
    rw [Option.elim_some, ← append_assoc]
    exact trim_between hp.name (by simpa using hname) htrim (by simpa using hne) _

/-- **A legible parameter is read as it is written.** -/
lemma TypeParameter.Legible.typeParameter?_of_trim (hname : p.name ≠ "")
    (hblank : ' ' ∉ p.name.toList)
    (hpiece : trim piece = p.chars) : typeParameter? none piece = some p := by
  rw [hp.chars_eq] at hpiece
  obtain ⟨name, constraint⟩ := p
  cases constraint with
  | none =>
    rw [Option.elim_none, append_nil] at hpiece
    have hcut : cutWord " extends ".toList name.toList = none := cutWord_of_not_mem hblank _
    simp only [typeParameter?, hpiece, hcut, hp.name, present?_toList hname]
    rfl
  | some c =>
    obtain ⟨hc, htrim, -⟩ := hp.constraint c rfl
    rw [Option.elim_some, ← append_assoc] at hpiece
    have hcut : cutWord " extends ".toList (name.toList ++ " extends ".toList ++ c.toList) =
        some (name.toList, c.toList) := cutWord_append hblank _ _
    simp only [typeParameter?, hpiece, hcut, hp.name, htrim, present?_toList hname,
      present?_toList hc]
    rfl

end Legible

end Reading

section Lists

variable {p : TypeParameter} {params : List TypeParameter} {text : String}

lemma typeParametersText_eq (hne : params ≠ []) :
    Printer.typeParametersText params =
      "<" ++ joined ", " (params.map fun p => String.ofList p.chars) ++ ">" := by
  rw [Printer.typeParametersText, if_neg (by simpa using hne), argumentsText]
  refine congrArg (fun texts => "<" ++ joined ", " texts ++ ">") (map_congr_left fun p _ => ?_)
  apply String.toList_injective
  rw [String.toList_ofList, chars]
  cases nonempty? p.constraint <;> simp

/-- The characters between the angle brackets. -/
lemma toList_of_printed (hne : params ≠ [])
    (htext : Printer.typeParametersText params = "<" ++ text ++ ">") :
    text.toList = ", ".toList.intercalate (params.map chars) := by
  rw [typeParametersText_eq hne] at htext
  have hchars := congrArg String.toList htext
  simpa [joined, String.toList_intercalate, Function.comp_def] using hchars.symm

lemma not_isBlank_of_isIdentStart {c : Char} (h : isIdentStart c = true) : isBlank c = false := by
  have hall : identStartRanges.chars.all (fun c => !isBlank c) = true := by decide +kernel
  simpa using all_eq_true.mp hall c (CharRanges.mem_chars (contains_identStartRanges h))

/-- An identifier starts with what is neither white space nor a brace. -/
lemma exists_start_of_isIdentifier {name : String} (h : isIdentifier name = true) :
    ∃ c rest, name.toList = c :: rest ∧ isIdentStart c = true := by
  simp only [isIdentifier, Bool.or_eq_true, Bool.and_eq_true] at h
  cases hname : name.toList with
  | nil => simp [hname, isIdentifierChars] at h
  | cons c rest =>
    refine ⟨c, rest, rfl, ?_⟩
    rw [hname] at h
    rcases h with h | ⟨-, h⟩
    · simp only [isIdentifierChars, Bool.and_eq_true] at h
      exact h.1
    · cases rest with
      | nil => simp [isIdentifierChars] at h
      | cons d rest =>
        simp only [dropLast_cons_cons, isIdentifierChars, Bool.and_eq_true] at h
        exact h.1

/-- No type stands between braces before the names. -/
lemma splitConstraint_printed (hname : isIdentifier p.name = true) (pieces : List (List Char)) :
    splitConstraint (trim (", ".toList.intercalate (p.chars :: pieces))) =
      (none, trim (", ".toList.intercalate (p.chars :: pieces))) := by
  obtain ⟨c, rest, hc, hstart⟩ := exists_start_of_isIdentifier hname
  obtain ⟨cs, hcs⟩ : ∃ cs, ", ".toList.intercalate (p.chars :: pieces) = c :: cs := by
    cases pieces <;> exact ⟨_, by simp [chars, hc]; rfl⟩
  have htrim : trim (c :: cs) = c :: trimRight cs := by
    simp [trim, trimLeft, trimRight_cons, not_isBlank_of_isIdentStart hstart]
  rw [hcs, htrim]
  unfold splitConstraint
  split
  · rename_i heq
    obtain ⟨rfl, -⟩ := List.cons.inj heq
    exact absurd hstart (by decide)
  · rfl

lemma trim_intercalate {a : List Char} {l : List (List Char)} (ha : trim a = a ∧ a ≠ [])
    (hl : ∀ b ∈ l, trim b = b ∧ b ≠ []) (sep : List Char) :
    trim (sep.intercalate (a :: l)) = sep.intercalate (a :: l) := by
  induction l generalizing a with
  | nil => simpa using ha.1
  | cons b l ih =>
    rw [forall_mem_cons] at hl
    have hne : sep.intercalate (b :: l) ≠ [] := by
      cases l <;> simp [hl.1.2]
    rw [intercalate_cons_cons]
    exact trim_between ha.1 ha.2 (ih hl.1 hl.2) hne sep

/-- Legible parameters are read from the pieces, but for the first one behind the space that follows
a comma. -/
lemma filterMap_pieces_of_legible (hnames : ∀ q ∈ p :: params, isIdentifier q.name = true)
    (hlegible : ∀ q ∈ p :: params, q.Legible) :
    (splitAt ',' (trim (", ".toList.intercalate ((p :: params).map chars)))).filterMap
      (typeParameter? none) = p :: params := by
  have hname : ∀ q ∈ p :: params, q.name ≠ "" := by
    intro q hq hempty
    have hidentifier := hnames q hq
    rw [hempty] at hidentifier
    exact absurd hidentifier (by decide)
  have hchar : ∀ {c : Char}, ¬ NameChar c → ∀ q ∈ p :: params, c ∉ q.name.toList := fun hc q hq =>
    (nameChar_of_isIdentifier (hnames q hq)).not_mem hc
  have hcomma : ∀ q ∈ p :: params, ',' ∉ q.chars := fun q hq =>
    (hlegible q hq).comma_not_mem_chars (hchar (by decide) q hq)
  have htrim : ∀ q ∈ p :: params, trim q.chars = q.chars ∧ q.chars ≠ [] := fun q hq =>
    ⟨(hlegible q hq).trim_chars (hname q hq), by simp [chars, hname q hq]⟩
  have hread : ∀ q ∈ p :: params, ∀ piece, trim piece = q.chars →
      typeParameter? none piece = some q :=
    fun q hq piece => (hlegible q hq).typeParameter?_of_trim (hname q hq) (hchar (by decide) q hq)
  rw [forall_mem_cons] at hcomma htrim hread
  have hspace : ∀ q ∈ params, (typeParameter? none ∘ (' ' :: ·) ∘ chars) q = some q := by
    intro q hq
    rw [Function.comp_apply, Function.comp_apply]
    exact hread.2 q hq _ ((trim_space _).trans (htrim.2 q hq).1)
  rw [map_cons, trim_intercalate htrim.1 (by simpa using htrim.2),
    splitAt_intercalate hcomma.1 (by simpa using hcomma.2),
    filterMap_cons_some (hread.1 _ htrim.1.1), map_map, filterMap_map,
    filterMap_congr hspace, filterMap_some]

/-- **A list of type parameters that a declaration shows is read back from a comment exactly if all
of them are legible.** -/
theorem typeParametersOf_eq_iff_legible {d : Doclet} {tag : Doclet.Tag} (hne : params ≠ [])
    (hnames : ∀ p ∈ params, isIdentifier p.name = true)
    (htext : Printer.typeParametersText params = "<" ++ text ++ ">")
    (htags : (d.tags.filter fun tag => tag.title == "template") = [tag])
    (hvalue : tag.value = .string text) :
    typeParametersOf d = params ↔ ∀ p ∈ params, p.Legible := by
  have hcontent : tag.content = text := by rw [Doclet.Tag.content, hvalue]; rfl
  have hread : typeParametersOf d = typeParametersOfText text := by
    rw [typeParametersOf, htags, flatMap_singleton, hcontent]
  obtain ⟨p, ps, rfl⟩ := exists_cons_of_ne_nil hne
  have hpieces : typeParametersOfText text =
      (splitAt ',' (trim text.toList)).filterMap (typeParameter? none) := by
    rw [typeParametersOfText, toList_of_printed hne htext, map_cons,
      splitConstraint_printed (hnames p mem_cons_self)]
  rw [hread, hpieces]
  constructor
  · intro heq q hq
    rw [← heq, mem_filterMap] at hq
    obtain ⟨piece, hpiece, hq⟩ := hq
    exact legible_of_typeParameter? hq (not_mem_splitAt hpiece)
  · intro hlegible
    rw [toList_of_printed hne htext]
    exact filterMap_pieces_of_legible hnames hlegible

end Lists

/-- A doclet whose one tag lists type parameters. -/
def listing (text : String) : Doclet :=
  { Doclet.bare "store" none (.callable [] []) with tags := [⟨"template", .string text, none⟩] }

/-- A type parameter without a constraint, and one whose constraint has braces, bars and
brackets. -/
def boundedKeys : List TypeParameter :=
  [⟨"T", none⟩, ⟨"K", some "\x7bname: string\x7d|Array.<T>"⟩]

theorem typeParametersOf_boundedKeys :
    Printer.typeParametersText boundedKeys =
      "<" ++ "T, K extends \x7bname: string\x7d|Array.<T>" ++ ">" ∧
      typeParametersOf (listing "T, K extends \x7bname: string\x7d|Array.<T>") = boundedKeys := by
  have hnames : ∀ p ∈ boundedKeys, isIdentifier p.name = true := by decide +kernel
  have hlegible : ∀ p ∈ boundedKeys, p.Legible := by decide +kernel
  have htext : Printer.typeParametersText boundedKeys =
      "<" ++ "T, K extends \x7bname: string\x7d|Array.<T>" ++ ">" := by decide +kernel
  exact ⟨htext, (typeParametersOf_eq_iff_legible (by decide) hnames htext rfl rfl).mpr hlegible⟩

/-- A constraint that is a type with two arguments is cut in two. -/
theorem typeParametersOf_mapConstraint_ne :
    readType (some "Map<string, number>") =
        ⟨.plain (.generic "Map" [.named "string", .named "number"]), none⟩ ∧
      Printer.typeParametersText [⟨"K", some "Map<string, number>"⟩] =
        "<K extends Map<string, number>>" ∧
        typeParametersOf (listing "K extends Map<string, number>") =
          [⟨"K", some "Map<string"⟩, ⟨"number>", none⟩] := by
  decide +kernel

end AmbientDecl

import AmbientDecl.Proofs.Declaration.Capture
import AmbientDecl.Proofs.Declaration.Rescoping
import AmbientDecl.Proofs.Declaration.Scope
import AmbientDecl.Proofs.Longname

/-!
# What references look like

What is printed for a name that is no type parameter, and how that is told from a type parameter of
the same name.

**Two forms.** `IsReference` is a path of names, or something that starts with an import. It is
never a kind of key. Names that refer to nothing are written as such (`isReference_verbatim`), and
so is the way to a type (`isReference_qualified`).

**Two places.** A name of a type is told from a reference (`toldApart_of_isReference`), and is
printed as it is or as a reference (`nameText_scope`). So the scope of a place in the same module
that lacks type parameters differs in nothing but them (`rescoped_scope`).
-/

namespace AmbientDecl

open Text TypeExpr List Directory

/-- A character of a path of names. -/
def isReferenceChar (c : Char) : Bool := isIdentRest c || isPathMark c || c == '\n'

/-- Something that is printed for a name, and that is no kind of key. -/
structure IsReference (text : String) : Prop where
  form : MadeOf (isReferenceChar · = true) text ∨ ∃ path, text = "import(" ++ path
  notKey : text ≠ "number" ∧ text ≠ "symbol"

section Forms

variable {text : String} {names : List String}

lemma isReferenceChar_of_path {c : Char} (h : PathChar c) : isReferenceChar c = true := by
  rcases h with h | h
  · simp [isReferenceChar, show isIdentRest c = true from h]
  · simp [isReferenceChar, h]

lemma isReferenceChar_of_name {c : Char} (h : NameChar c) : isReferenceChar c = true := by
  rcases h with h | h
  · simp [isReferenceChar, show isIdentRest c = true from h]
  · simp [isReferenceChar, h]

lemma pathChar_of_path {cs rest : List Char} {mark first : Char} (hcs : ∀ c ∈ cs, IdentChar c)
    (hmark : isPathMark mark = true) (hfirst : IdentChar first) (hrest : ∀ c ∈ rest, PathChar c) :
    ∀ c ∈ cs ++ mark :: first :: rest, PathChar c := by
  intro c hc
  simp only [mem_append, mem_cons] at hc
  rcases hc with hc | rfl | rfl | hc
  · exact .inl (hcs c hc)
  · exact .inr hmark
  · exact .inl hfirst
  · exact hrest c hc

lemma isReference_any : IsReference "any" := by
  have hchars : "any".toList.all isReferenceChar = true := by decide
  exact ⟨.inl (all_eq_true.mp hchars), by decide⟩

lemma isReference_importText (path after : String) : IsReference (importText path ++ after) := by
  rw [importText, show "import(\"" = "import(" ++ "\"" from rfl]
  simp only [String.append_assoc]
  exact ⟨.inr ⟨_, rfl⟩, ne_key_of_mem (c := '(') (by simp) (by decide)⟩

/-- A path of names is a reference: if there are two or more, it has a dot in it and is no kind of
key. -/
lemma isReference_joined (hnames : ∀ name ∈ names, MadeOf (isReferenceChar · = true) name)
    (hsingle : ∀ name, names = [name] → name ≠ "number" ∧ name ≠ "symbol") :
    IsReference (joined "." names) := by
  constructor
  · refine .inl ?_
    clear hsingle
    induction names with
    | nil => simp [joined, MadeOf]
    | cons name rest ih =>
      rw [forall_mem_cons] at hnames
      cases rest with
      | nil => simpa [joined] using hnames.1
      | cons next rest =>
        have hdot : MadeOf (isReferenceChar · = true) "." := by
          simp [MadeOf, isReferenceChar, isPathMark]
        rw [joined, String.intercalate_cons_cons]
        exact (hnames.1.append hdot).append (ih hnames.2)
  · rcases names with _ | ⟨name, _ | ⟨next, rest⟩⟩
    · decide
    · simpa [joined] using hsingle name rfl
    · have hdot : '.' ∈ (joined "." (name :: next :: rest)).toList := by
        simp [joined, String.intercalate_cons_cons]
      exact ne_key_of_mem hdot (by decide)

end Forms

section Verbatim

open Longname

lemma inside_of_identChars {cs : List Char} (h : ∀ c ∈ cs, IdentChar c) :
    inside false cs = some false := by
  induction cs with
  | nil => rfl
  | cons c cs ih =>
    rw [forall_mem_cons] at h
    have hquote : c ≠ '"' := by
      rintro rfl
      exact absurd h.1 (by decide)
    have hmark : isPathMark c = false := by
      rw [Bool.eq_false_iff]
      intro hmark
      simp only [isPathMark, Bool.or_eq_true, beq_iff_eq] at hmark
      rcases hmark with (rfl | rfl) | rfl <;> exact absurd h.1 (by decide)
    rw [inside, if_neg hquote, hmark, if_neg (by simp)]
    exact ih h.2

lemma split_word {cs : List Char} (hne : cs ≠ []) (h : ∀ c ∈ cs, IdentChar c) :
    split (String.ofList cs) = [⟨none, String.ofList cs⟩] := by
  have hread : splitFrom none [] false (cs ++ []) = splitFrom none (cs.reverse ++ []) false [] :=
    splitFrom_append [] (inside_of_identChars h)
  rw [append_nil, append_nil] at hread
  rw [split, String.toList_ofList, hread, splitFrom, stepOf_of_ne_nil (by simpa using hne),
    reverse_reverse]

/-- A name with a mark in it is cut there. -/
lemma split_path {cs : List Char} (rest : List Char) {mark first : Char} (hne : cs ≠ [])
    (h : ∀ c ∈ cs, IdentChar c) (hmark : isPathMark mark = true) (hfirst : IdentChar first) :
    ∃ second steps, split (String.ofList (cs ++ mark :: first :: rest)) =
        ⟨none, String.ofList cs⟩ :: second :: steps := by
  have hquote : mark ≠ '"' := by
    rintro rfl
    exact absurd hmark (by decide)
  have hnext : splitFrom (some mark) [] false ([first] ++ rest) =
      splitFrom (some mark) [first] false rest :=
    splitFrom_append rest (inside_of_identChars (by simpa using hfirst))
  obtain ⟨more, steps, hsteps⟩ := splitFrom_of_ne_nil (some mark) rest false (cons_ne_nil first [])
  refine ⟨⟨some mark, String.ofList ([first].reverse ++ more)⟩, steps, ?_⟩
  rw [split, String.toList_ofList, splitFrom_append _ (inside_of_identChars h),
    append_nil, splitFrom,
    if_neg hquote, if_pos (by simpa using hmark), stepOf_of_ne_nil (by simpa using hne),
      reverse_reverse]
  exact congrArg _ (hnext.trans hsteps)

/-- A name without a module is written as its segments. -/
lemma verbatim_of_pathChars {name : String} (h : MadeOf PathChar name) (hne : split name ≠ []) :
    verbatim name = joined "." ((split name).map Step.segment) := by
  unfold verbatim
  cases hsplit : split name with
  | nil => exact absurd hsplit hne
  | cons first rest =>
    have hmodule : isModule first.segment = false := by
      rw [Bool.eq_false_iff]
      intro hmodule
      have hcolon : ':' ∈ first.segment.toList :=
        (List.isPrefixOf_iff_prefix.mp hmodule).subset (by decide)
      have hmem := mem_segment hcolon name.toList (hsplit ▸ mem_cons_self : first ∈ split name)
      exact absurd (h ':' (by simpa using hmem)) (by simp [PathChar, IdentChar, isPathMark]; decide)
    simp [hmodule]

lemma madeOf_segment {name : String} (h : MadeOf PathChar name) :
    ∀ segment ∈ (split name).map Step.segment, MadeOf (isReferenceChar · = true) segment := by
  intro segment hsegment c hc
  obtain ⟨step, hstep, rfl⟩ := mem_map.mp hsegment
  have hmem := mem_segment hc name.toList hstep
  exact isReferenceChar_of_path (h c (by simpa using hmem))

/-- A name that starts with a module is written as an import. -/
lemma verbatim_module (rest : List Char) :
    ∃ path after, verbatim (String.ofList (moduleMark ++ rest)) = importText path ++ after := by
  have hinside : inside false moduleMark = some false := by decide
  have hread : splitFrom none [] false (moduleMark ++ rest) =
      splitFrom none moduleMark.reverse false rest :=
    splitFrom_append rest hinside
  have hne : moduleMark.reverse ≠ [] := by decide
  obtain ⟨more, steps, hsteps⟩ := splitFrom_of_ne_nil none rest false hne
  have hmodule : isModule (String.ofList (moduleMark ++ more)) = true := by
    simp [isModule]
  have hsplit : split (String.ofList (moduleMark ++ rest)) =
      ⟨none, String.ofList (moduleMark ++ more)⟩ :: steps := by
    rw [split, String.toList_ofList, hread, hsteps, reverse_reverse]
  rw [verbatim, hsplit]
  exact ⟨_, _, if_pos hmodule⟩

/-- **A name that refers to nothing is written as a reference.** -/
lemma isReference_verbatim {name : String} (hname : IsTypeName name)
    (hprimitive : name ∉ primitiveNames) :
    IsReference (verbatim name) := by
  cases hname with
  | @word cs nonempty ident =>
    have hsplit := split_word nonempty ident
    have hchars : MadeOf PathChar (String.ofList cs) := by
      intro c hc
      exact .inl (ident c (by simpa using hc))
    rw [verbatim_of_pathChars hchars (by simp [hsplit])]
    refine isReference_joined (madeOf_segment hchars) ?_
    rintro name hsingle
    obtain rfl : String.ofList cs = name := by simpa [hsplit] using hsingle
    exact ne_key_of_not_primitive hprimitive
  | @path cs rest mark first nonempty ident isMark isFirst steps =>
    obtain ⟨second, others, hsplit⟩ := split_path rest nonempty ident isMark isFirst
    have hchars : MadeOf PathChar (String.ofList (cs ++ mark :: first :: rest)) := by
      intro c hc
      exact pathChar_of_path ident isMark isFirst steps c (by simpa using hc)
    rw [verbatim_of_pathChars hchars (by rw [hsplit]; exact cons_ne_nil _ _)]
    refine isReference_joined (madeOf_segment hchars) ?_
    rw [hsplit]
    simp
  | module rest =>
    obtain ⟨path, after, hpath⟩ := verbatim_module rest
    rw [hpath]
    exact isReference_importText path after

end Verbatim

section References

variable {f : Forest} {owner target : Place}

/-- The way to a type of one name is a name that no primitive type has. -/
lemma not_mem_predefined (hf : f.Printable) (hids : f.root.ids.Nodup) (settings : Settings)
    (htarget : target ∈ f.places) (htype : target.tree.kind.isType = true) {name : String}
    (h : (Emitter.named settings f).printer.directory.namesTo target = [name]) :
    name ∉ predefinedTypeNames := by
  obtain ⟨q, hq, c, hc, rfl⟩ := exists_parent hf htarget htype
  have hkind : c.kind.isType = true := htype
  have htop : q.tree.isTopModuleIn c = false := by
    cases hk : c.kind <;> simp_all [SymbolTree.isTopModuleIn, SymbolKind.isType]
  obtain ⟨_, taken, hname⟩ := nameOf_eq hids settings hq (mem_companions_of_isType hc htype)
  rw [namesTo_child _ (hf.roots c (child_mem_nodes hq hc)) htop] at h
  have hlast : (Emitter.named settings f).printer.directory.nameOf c = name := by
    simpa using congrArg getLast? h
  have husable := isUnusable_declaredName q.tree taken c
  simp only [isUnusable, isReservedFor, hkind, Bool.true_and, Bool.or_eq_false_iff] at husable
  rw [← hlast, hname, nameChoice, htop]
  simpa using husable.1.2

/-- **The way to a type is a reference.** -/
lemma isReference_qualified (hf : f.Printable) (hids : f.root.ids.Nodup) (settings : Settings)
    (howner : owner ∈ f.places) (htarget : target ∈ f.places)
    (htype : target.tree.kind.isType = true) :
    IsReference ((Emitter.named settings f).printer.directory.qualified target owner) := by
  by_cases hnear : target.module? = none ∨ owner.module? = target.module?
  · rw [qualified_near _ hnear]
    refine isReference_joined ?_ ?_
    · intro name hname
      exact (nameChar_namesTo hf hids settings htarget (.inr htype) name hname).mono
        fun _ => isReferenceChar_of_name
    · intro name hsingle
      have hmem := not_mem_predefined hf hids settings htarget htype hsingle
      constructor <;>
      · rintro rfl
        exact hmem (by decide)
  · obtain ⟨hsome, hfar⟩ := not_or.mp hnear
    obtain ⟨m, hm⟩ := Option.ne_none_iff_exists'.mp hsome
    rw [qualified_far hids _ howner htarget hm (hm ▸ hfar)]
    exact isReference_importText _ _

end References

section Places

variable {name text : String}

lemma eq_of_append_eq {p : Char → Bool} {w w' x x' : List Char} (hw : ∀ c ∈ w, p c = true)
    (hw' : ∀ c ∈ w', p c = true) (hx : ∀ c ∈ x.head?, p c = false)
    (hx' : ∀ c ∈ x'.head?, p c = false)
    (h : w ++ x = w' ++ x') : w = w' ∧ x = x' := by
  have hcut : ∀ {w x : List Char}, (∀ c ∈ w, p c = true) → (∀ c ∈ x.head?, p c = false) →
      (w ++ x).takeWhile p = w := by
    intro w x hw hx
    rw [takeWhile_append_of_pos hw]
    cases x with
    | nil => simp
    | cons c x => simp [hx c rfl]
  have hsame : w = w' := by rw [← hcut hw hx, h, hcut hw' hx']
  subst hsame
  exact ⟨rfl, append_cancel_left h⟩

/-- A name of a type up to the first character that cannot stand in a reference. -/
lemma IsTypeName.cut (h : IsTypeName name) : ∃ word after, name.toList = word ++ after ∧
    (∀ c ∈ word, isReferenceChar c = true) ∧ (after = [] ∨ after.head? = some ':') := by
  cases h with
  | @word cs nonempty ident =>
    exact ⟨cs, [], by simp, fun c hc => isReferenceChar_of_path (.inl (ident c hc)), .inl rfl⟩
  | @path cs rest mark first nonempty ident isMark isFirst steps =>
    exact ⟨cs ++ mark :: first :: rest, [], by simp, fun c hc =>
      isReferenceChar_of_path (pathChar_of_path ident isMark isFirst steps c hc), .inl rfl⟩
  | module rest =>
    have hmark : moduleMark = "module".toList ++ [':'] := by decide
    have hword : "module".toList.all isReferenceChar = true := by decide
    refine ⟨"module".toList, ':' :: rest, ?_, all_eq_true.mp hword, .inr rfl⟩
    rw [String.toList_ofList, hmark, append_assoc]
    rfl

lemma IsReference.cut (h : IsReference text) : ∃ word after, text.toList = word ++ after ∧
    (∀ c ∈ word, isReferenceChar c = true) ∧ (after = [] ∨ after.head? = some '(') := by
  rcases h.form with hmade | ⟨path, rfl⟩
  · exact ⟨text.toList, [], by simp, hmade, .inl rfl⟩
  · have hword : "import".toList.all isReferenceChar = true := by decide
    exact ⟨"import".toList, '(' :: path.toList, by simp, all_eq_true.mp hword, .inr rfl⟩

/-- **A name of a type is told from a reference.** -/
lemma toldApart_of_isReference (hname : IsTypeName name) (htext : IsReference text) :
    ToldApart name text := by
  intro rest rest' hrest hrest' heq
  obtain ⟨word, after, hcut, hword, hafter⟩ := hname.cut
  obtain ⟨word', after', hcut', hword', hafter'⟩ := htext.cut
  have hdelimiters : (delimiters.all fun c => !isReferenceChar c) = true := by decide
  have hlists := congrArg String.toList heq
  rw [String.toList_append, String.toList_append, hcut, hcut', append_assoc, append_assoc] at hlists
  have hhead : ∀ {stop after} {rest : String}, isReferenceChar stop = false → Delimited rest →
      (after = [] ∨ after.head? = some stop) →
        ∀ c ∈ (after ++ rest.toList).head?, isReferenceChar c = false := by
    rintro stop after rest hstop hrest (rfl | hhead) c hc
    · simpa using all_eq_true.mp hdelimiters c (hrest c hc)
    · rw [head?_append, hhead] at hc
      obtain rfl : stop = c := by simpa using hc
      exact hstop
  obtain ⟨rfl, hbehind⟩ := eq_of_append_eq hword hword' (hhead (by decide) hrest hafter)
    (hhead (by decide) hrest' hafter') hlists
  have hheads := congrArg List.head? hbehind
  -- Behind the common word stands a delimiter, a colon or a parenthesis, and it is the same in
  -- both.
  rcases hafter with rfl | hcolon <;> rcases hafter' with rfl | hparen
  · exact String.toList_inj.mp (hcut.trans hcut'.symm)
  · rw [nil_append, head?_append, hparen] at hheads
    have hmem : '(' ∈ delimiters := hrest _ (by simpa using hheads)
    exact absurd hmem (by decide)
  · rw [nil_append, head?_append, hcolon] at hheads
    have hmem : ':' ∈ delimiters := hrest' _ (by simpa using hheads.symm)
    exact absurd hmem (by decide)
  · rw [head?_append, head?_append, hcolon, hparen] at hheads
    simp at hheads

/-- In the scope of a place, a name that is not primitive is printed as it is or as a reference. -/
lemma nameText_scope {f : Forest} {q : Place} (params : List String) (hf : f.Printable)
    (hids : f.root.ids.Nodup) (settings : Settings) (hq : q ∈ f.places) (hname : IsTypeName name)
    (hprimitive : name ∉ primitiveNames) :
    let dir := (Emitter.named settings f).printer.directory
    (dir.scope q params).nameText name = name ∨
      IsReference ((dir.scope q params).nameText name) := by
  intro dir
  have hfallback : IsReference ((dir.scope q params).fallback name) := by
    unfold scope
    cases dir.policy with
    | any => exact isReference_any
    | keep => exact isReference_verbatim hname hprimitive
  by_cases hparam : name ∈ params
  · exact .inl (by simp [TypeScope.nameText, Printer.knows_scope dir q params name hparam])
  · cases hlookup : dir.lookup? name with
    | some target =>
      obtain ⟨htarget, htype⟩ := mem_places_of_lookup? hlookup
      have hresolve : (dir.scope q params).resolve name = some (dir.qualified target q) :=
        resolve_of_lookup? hprimitive hparam hlookup
      refine .inr ?_
      rw [TypeScope.nameText, hresolve]
      exact isReference_qualified hf hids settings hq htarget htype
    | none =>
      by_cases hknown : name ∈ dir.knownTypes
      · refine .inl ?_
        simp [TypeScope.nameText, scope, resolve, hprimitive, hparam, hlookup, hknown]
      · refine .inr ?_
        have hresolve : (dir.scope q params).resolve name = none := by
          simp [scope, resolve, hprimitive, hparam, hlookup, hknown]
        rwa [TypeScope.nameText, hresolve]

/-- **The scope of a place in the same module that lacks type parameters differs in nothing but
them.** -/
lemma rescoped_scope {f : Forest} {owner other : Place} {params others : List String}
    (hf : f.Printable)
    (hids : f.root.ids.Nodup) (settings : Settings) (hother : other ∈ f.places)
    (hmodule : other.module? = owner.module?) (hsub : others ⊆ params) :
    let dir := (Emitter.named settings f).printer.directory
    Rescoped (dir.scope owner params) (dir.scope other others) params := by
  intro dir
  exact {
    knows := Printer.knows_scope dir owner params
    fallback := rfl
    same := by
      intro name hname
      have hqualified : ∀ target, dir.qualified target other = dir.qualified target owner := by
        intro target
        simp only [qualified, hmodule]
      rcases hname with hparam | hprimitive
      · have hother : name ∉ others := fun hmem => hparam (hsub hmem)
        simp [scope, resolve, hparam, hother, hqualified]
      · simp [scope, resolve, hprimitive]
    toldApart := by
      intro name _ hprimitive hname
      rcases nameText_scope others hf hids settings hother hname hprimitive with hself | href
      · intro rest rest' _ _ _
        exact hself.symm
      · exact toldApart_of_isReference hname href
    notKey := by
      intro name _ hprimitive hname
      rcases nameText_scope others hf hids settings hother hname hprimitive with hself | href
      · rw [hself]
        exact ne_key_of_not_primitive hprimitive
      · exact href.notKey }

end Places

end AmbientDecl

import AmbientDecl.Proofs.Arrival.Census
import AmbientDecl.Proofs.Forest.Origin

/-!
# The census as a function of the doclets

The census goes through the doclets one by one, but what it knows at the end can be said about the
list as a whole.

* `Census.has_ofDoclets`: the longnames with a symbol are those of the doclets that take part.
* `Census.mem_leftOut_ofDoclets`: the longnames left out are those of rejected doclets without a
  symbol.
* `Census.first_ofDoclets`: every symbol was made of one of the doclets that take part.
* `Census.queued_ofDoclets`: on a symbol are queued all doclets that document it, in their order.
* `Census.ordered_ofDoclets`: symbols stand in the order of their first doclets.
-/

namespace AmbientDecl.Census

open Run List AmbientDecl.Symbol

variable {d : Doclet} {longname : String} {s : Symbol}

variable {filter : Option DocletFilter} {c c' : Census} {doclets : List Doclet}

/-- A doclet that takes part is queued on the symbol of its longname or makes a new one. -/
lemma symbols_add_cases (h : (c.add filter d).result = .ok c') :
    takesPart filter d = false ∧ c'.symbols = c.symbols ∨
    takesPart filter d = true ∧ c.has d.longname = true ∧ c'.symbols = queue d c.symbols ∨
    takesPart filter d = true ∧ c.has d.longname = false ∧
      ∃ s : Symbol, s.longname = d.longname ∧ s.doclets = [d] ∧ c'.symbols = c.symbols ++ [s] := by
  rcases add_cases h with ⟨hrejected, rfl⟩ | ⟨_, hpackage, rfl⟩ | ⟨_, _, hfile, rfl⟩ |
    ⟨hkept, hloud, hhas, rfl⟩ | ⟨hkept, hloud, hhas, base, hbase, rfl⟩
  · exact .inl ⟨by simp [takesPart, hrejected], rfl⟩
  · exact .inl ⟨by simp [takesPart, isMute, hpackage], rfl⟩
  · exact .inl ⟨by simp [takesPart, isMute, hfile], rfl⟩
  · exact .inr (.inl ⟨by simp [takesPart, hkept, hloud], hhas, rfl⟩)
  · exact .inr (.inr ⟨by simp [takesPart, hkept, hloud], hhas, { base with doclets := [d] },
      (ofDoclet_keeps hbase).1, rfl, rfl⟩)

/-- A longname is known after a doclet if it was before, or if the doclet takes part and has it. -/
lemma has_add (h : (c.add filter d).result = .ok c') (longname : String) : c'.has longname = true ↔
      c.has longname = true ∨ takesPart filter d = true ∧ d.longname = longname := by
  rw [has_iff, has_iff]
  rcases symbols_add_cases h with ⟨hmute, hsame⟩ | ⟨htakes, hhas, hqueue⟩ |
    ⟨htakes, _, new, hnew, _, happend⟩
  · simp [hsame, hmute]
  · rw [hqueue, longname_queue]
    refine ⟨Or.inl, ?_⟩
    rintro (hknown | ⟨_, rfl⟩)
    · exact hknown
    · exact has_iff.mp hhas
  · simp [happend, hnew, htakes, eq_comm]

lemma has_ofDoclets (h : (ofDoclets filter doclets).result = .ok c) (longname : String) :
    c.has longname = true ↔ ∃ d ∈ doclets, takesPart filter d = true ∧ d.longname = longname := by
  refine ofDoclets_induct (P := fun doclets c => c.has longname = true ↔
    ∃ d ∈ doclets, takesPart filter d = true ∧ d.longname = longname)
      (by simp [has, find?, empty]) ?_ h
  intro doclets d c c' _ hc h
  rw [has_add h, hc]
  simp [or_and_right, exists_or]

/-- Whether a doclet documents the symbol of a longname. -/
def documents (filter : Option DocletFilter) (longname : String) (d : Doclet) : Bool :=
  takesPart filter d && d.longname == longname

/-- The doclets that document the symbol of a longname, in their order. -/
def docletsOf (filter : Option DocletFilter) (doclets : List Doclet) (longname : String) :
    List Doclet :=
  doclets.filter (documents filter longname)

/-- The place of the first doclet that documents the symbol of a longname. -/
def firstPlace (filter : Option DocletFilter) (doclets : List Doclet) (longname : String) : Nat :=
  doclets.findIdx (documents filter longname)

lemma has_ofDoclets_iff_docletsOf (h : (ofDoclets filter doclets).result = .ok c)
    (longname : String) :
    c.has longname = true ↔ docletsOf filter doclets longname ≠ [] := by
  rw [has_ofDoclets h, docletsOf, Ne, filter_eq_nil_iff]
  simp [documents]

lemma docletsOf_eq_nil (h : (ofDoclets filter doclets).result = .ok c)
    (hnone : c.has longname = false) : docletsOf filter doclets longname = [] := by
  by_contra hne
  rw [(has_ofDoclets_iff_docletsOf h longname).mpr hne] at hnone
  cases hnone

lemma rejected_ofDoclets (h : (ofDoclets filter doclets).result = .ok c) :
    c.rejected = (doclets.filter (isRejected filter)).map Doclet.longname := by
  refine ofDoclets_induct (P := fun doclets c =>
    c.rejected = (doclets.filter (isRejected filter)).map Doclet.longname) rfl ?_ h
  intro doclets d c c' _ hc h
  obtain ⟨new, rfl⟩ := exists_enter h
  cases hd : isRejected filter d <;> simp [enter, hc, hd]

lemma mem_leftOut_ofDoclets (h : (ofDoclets filter doclets).result = .ok c) : longname ∈ c.leftOut ↔
      (∃ d ∈ doclets, isRejected filter d = true ∧ d.longname = longname) ∧
        c.has longname = false := by
  rw [leftOut, mem_eraseDups, mem_filter, rejected_ofDoclets h]
  simp [and_assoc]

/-- A doclet is queued on the symbol that it documents, and on no other. -/
lemma queued_add (hknown : (ofDoclets filter doclets).result = .ok c)
    (hc : ∀ s ∈ c.symbols, s.doclets = docletsOf filter doclets s.longname)
    (h : (c.add filter d).result = .ok c') :
    ∀ s ∈ c'.symbols, s.doclets = docletsOf filter (doclets ++ [d]) s.longname := by
  have hother : ∀ s ∈ c.symbols, documents filter s.longname d = false →
      s.doclets = docletsOf filter (doclets ++ [d]) s.longname := by
    intro s hs hd
    rw [hc s hs]
    simp [docletsOf, hd]
  rcases symbols_add_cases h with ⟨hmute, hsame⟩ | ⟨htakes, _, hqueue⟩ |
    ⟨htakes, hhas, new, hnew, hdoclets, happend⟩
  · rw [hsame]
    exact fun s hs => hother s hs (by simp [documents, hmute])
  · rw [hqueue]
    intro s' hs'
    obtain ⟨s, hs, rfl⟩ := mem_map.mp hs'
    split
    case isTrue hlongname => simp [docletsOf, documents, htakes, hlongname, hc s hs]
    case isFalse hlongname => exact hother s hs (by simp [documents, Ne.symm hlongname])
  · rw [happend]
    intro s hs
    have hnone := docletsOf_eq_nil hknown hhas
    rcases mem_append.mp hs with hs | hs
    · refine hother s hs ?_
      have hlongname : d.longname ≠ s.longname := by
        intro hsame
        rw [hsame, has_iff.mpr (mem_map_of_mem hs)] at hhas
        cases hhas
      simp [documents, hlongname]
    · obtain rfl := mem_singleton.mp hs
      rw [hdoclets, hnew, docletsOf, filter_append, ← docletsOf, hnone]
      simp [documents, htakes]

/-- **On a symbol are queued all doclets that document it, in their order.** -/
lemma queued_ofDoclets (h : (ofDoclets filter doclets).result = .ok c) :
    ∀ s ∈ c.symbols, s.doclets = docletsOf filter doclets s.longname :=
  ofDoclets_induct (P := fun doclets c =>
    ∀ s ∈ c.symbols, s.doclets = docletsOf filter doclets s.longname) (by simp [empty]) queued_add h

lemma longname_of_find? (h : c.find? longname = some s) : s ∈ c.symbols ∧ s.longname = longname :=
  ⟨mem_of_find?_eq_some h, by simpa using find?_some h⟩

section

variable (h : (ofDoclets filter doclets).result = .ok c)

include h

lemma find?_of_mem (hs : s ∈ c.symbols) : c.find? s.longname = some s :=
  find?_eq_some_of_nodup longname (nodup_ofDoclets h) hs rfl

/-- The doclet that a symbol was made of is the first that documents it. -/
lemma doclet?_of_find?
    (hs : c.find? longname = some s) : s.doclet? = doclets.find? (documents filter longname) := by
  obtain ⟨hmem, rfl⟩ := longname_of_find? hs
  rw [doclet?, queued_ofDoclets h s hmem, docletsOf, head?_filter]

/-- A longname has a symbol exactly if there is a first doclet that documents it. -/
lemma has_iff_first :
    c.has longname = true ↔ ∃ first, doclets.find? (documents filter longname) = some first := by
  rw [has_ofDoclets h, ← Option.isSome_iff_exists, find?_isSome]
  simp [documents]

lemma exists_symbol {first : Doclet}
    (hfirst : doclets.find? (documents filter longname) = some first) :
    ∃ s, c.find? longname = some s :=
  Option.isSome_iff_exists.mp ((has_iff_first h).mpr ⟨first, hfirst⟩)

/-- The first doclet of a symbol says where it belongs. -/
lemma memberof?_of_first {first : Doclet} (hs : c.find? longname = some s)
    (hfirst : doclets.find? (documents filter longname) = some first) :
    s.memberof? = first.memberof := by
  rw [memberof?, doclet?_of_find? h hs, hfirst]
  rfl

lemma exists_first (hs : c.find? longname = some s) :
    ∃ first, doclets.find? (documents filter longname) = some first ∧
      s.memberof? = first.memberof := by
  obtain ⟨first, hfirst⟩ := (has_iff_first h).mp (Option.isSome_of_eq_some hs)
  exact ⟨first, hfirst, memberof?_of_first h hs hfirst⟩

/-- **Every symbol was made of one of the doclets**, which says where it belongs. -/
lemma first_ofDoclets (hs : s ∈ c.symbols) :
    ∃ d ∈ doclets, takesPart filter d = true ∧ d.longname = s.longname ∧
      s.memberof? = d.memberof := by
  obtain ⟨first, hfirst, hmemberof⟩ := exists_first h (find?_of_mem h hs)
  obtain ⟨htakes, hlongname⟩ : takesPart filter first = true ∧ first.longname = s.longname := by
    simpa [documents] using find?_some hfirst
  exact ⟨first, mem_of_find?_eq_some hfirst, htakes, hlongname, hmemberof⟩

end

lemma firstPlace_lt_iff :
    firstPlace filter doclets longname < doclets.length ↔
      docletsOf filter doclets longname ≠ [] := by
  rw [firstPlace, findIdx_lt_length, docletsOf, Ne, filter_eq_nil_iff]
  simp

/-- A further doclet does not change the place of a first one. -/
lemma firstPlace_append (h : docletsOf filter doclets longname ≠ []) (rest : List Doclet) :
    firstPlace filter (doclets ++ rest) longname = firstPlace filter doclets longname := by
  rw [firstPlace, findIdx_append]
  exact if_pos (firstPlace_lt_iff.mpr h)

/-- A longname without doclets so far gets its first one later. -/
lemma le_firstPlace_append (h : docletsOf filter doclets longname = []) (rest : List Doclet) :
    doclets.length ≤ firstPlace filter (doclets ++ rest) longname := by
  have hnone : ¬ firstPlace filter doclets longname < doclets.length := by
    rw [firstPlace_lt_iff, h]
    exact fun hne => hne rfl
  rw [firstPlace] at hnone ⊢
  rw [findIdx_append, if_neg hnone]
  exact Nat.le_add_left _ _

lemma ordered_add (hknown : (ofDoclets filter doclets).result = .ok c)
    (hc : (c.symbols.map Symbol.longname).Pairwise fun a b =>
      firstPlace filter doclets a < firstPlace filter doclets b)
    (h : (c.add filter d).result = .ok c') : (c'.symbols.map Symbol.longname).Pairwise fun a b =>
      firstPlace filter (doclets ++ [d]) a < firstPlace filter (doclets ++ [d]) b := by
  have hdocumented : ∀ a ∈ c.symbols.map longname, docletsOf filter doclets a ≠ [] :=
    fun a ha => (has_ofDoclets_iff_docletsOf hknown a).mp (has_iff.mpr ha)
  have hplace : ∀ a ∈ c.symbols.map longname,
      firstPlace filter (doclets ++ [d]) a = firstPlace filter doclets a :=
    fun a ha => firstPlace_append (hdocumented a ha) [d]
  have hold : (c.symbols.map longname).Pairwise fun a b =>
      firstPlace filter (doclets ++ [d]) a < firstPlace filter (doclets ++ [d]) b := by
    refine hc.imp_of_mem fun ha hb hlt => ?_
    rwa [hplace _ ha, hplace _ hb]
  rcases symbols_add_cases h with ⟨_, hsame⟩ | ⟨_, _, hqueue⟩ | ⟨_, hhas, new, hnew, _, happend⟩
  · rwa [hsame]
  · rwa [hqueue, longname_queue]
  · rw [happend, map_append, pairwise_append]
    refine ⟨hold, pairwise_singleton _ _, fun a ha b hb => ?_⟩
    obtain rfl : b = new.longname := by simpa using hb
    have hnone : docletsOf filter doclets new.longname = [] := by
      rw [hnew]
      exact docletsOf_eq_nil hknown hhas
    rw [hplace a ha]
    exact Nat.lt_of_lt_of_le (firstPlace_lt_iff.mpr (hdocumented a ha))
      (le_firstPlace_append hnone [d])

/-- **Symbols stand in the order of their first doclets.** -/
lemma ordered_ofDoclets (h : (ofDoclets filter doclets).result = .ok c) :
    (c.symbols.map Symbol.longname).Pairwise fun a b =>
      firstPlace filter doclets a < firstPlace filter doclets b :=
  ofDoclets_induct (P := fun doclets c => (c.symbols.map longname).Pairwise fun a b =>
    firstPlace filter doclets a < firstPlace filter doclets b) List.Pairwise.nil ordered_add h

end AmbientDecl.Census

import AmbientDecl.Proofs.Declaration.Name

/-!
# Names in one scope

The symbols that are declared in one block get their names one after another.

**One name.** A name is the first candidate that can be used (`declaredName_eq_iff`): it is not
reserved for the kind of the symbol, and no earlier declaration has it, namespaces aside.

**One scope.** `takenAfter` are the names that are gone after some members of a scope, which are the
names of those of them that are no namespaces (`mem_takenAfter`). So what is known about one name is
known about every member of a scope (`NamedScope`).
-/

namespace AmbientDecl

open Text List

section Name

variable {parent : SymbolTree} {taken : List String} {t : SymbolTree} {name : String}

lemma isUnusable_iff : isUnusable parent taken t name = true ↔
    isReservedFor t.kind name = true ∨ claimsName parent t = true ∧ name ∈ taken := by
  simp [isUnusable]

lemma isUnusable_declaredName (parent : SymbolTree) (taken : List String) (t : SymbolTree) :
    isUnusable parent taken t (declaredName parent taken t) = false := by
  have hused : ∀ n, isUnusable parent taken t (numberedFrom 1 (baseName t.name) n) = true →
      numberedFrom 1 (baseName t.name) n ∈ reservedWords ++ predefinedTypeNames ++ taken := by
    intro n hn
    rcases isUnusable_iff.mp hn with hreserved | ⟨_, htaken⟩
    · have hwords : numberedFrom 1 (baseName t.name) n ∈ reservedWords ∨
          t.kind.isType = true ∧ numberedFrom 1 (baseName t.name) n ∈ predefinedTypeNames := by
        simpa [isReservedFor] using hreserved
      rcases hwords with h | ⟨_, h⟩
      · exact mem_append_left _ (mem_append_left _ h)
      · exact mem_append_left _ (mem_append_right _ h)
    · exact mem_append_right _ htaken
  exact isTaken_firstFree (numberedFrom_injective 1 (baseName t.name))
    (by simp [Nat.add_assoc]) hused

/-- **A symbol gets the first candidate that can be used.** -/
lemma declaredName_eq_iff : declaredName parent taken t = name ↔
    ∃ n, name = numberedFrom 1 (baseName t.name) n ∧ isUnusable parent taken t name = false ∧
      ∀ m < n, isUnusable parent taken t (numberedFrom 1 (baseName t.name) m) = true := by
  obtain ⟨n, hn, hbefore⟩ := exists_firstFree (isUnusable parent taken t)
    (numberedFrom 1 (baseName t.name))
    (reservedWords.length + predefinedTypeNames.length + taken.length)
  have husable := isUnusable_declaredName parent taken t
  rw [← declaredName] at hn
  constructor
  · rintro rfl
    exact ⟨n, hn, husable, hbefore⟩
  · rintro ⟨m, rfl, hm, hm_before⟩
    -- two candidates that come first are the same
    rcases Nat.lt_trichotomy n m with hlt | rfl | hlt
    · have := hm_before n hlt
      rw [← hn, husable] at this
      cases this
    · exact hn
    · have := hbefore m hlt
      rw [hm] at this
      cases this

end Name

/-- The names that are gone after members of a scope. -/
def takenAfter (parent : SymbolTree) (taken : List String) : List SymbolTree → List String
  | [] => taken
  | t :: rest =>
    takenAfter parent (if claimsName parent t then (nameChoice parent taken t).name :: taken
      else taken) rest

def withNames (parent : SymbolTree) (taken : List String) (l : List SymbolTree) :
    List (SymbolTree × NameChoice) :=
  l.zip (nameChoices parent taken l)

/-- The symbols that are declared in the block of another, with their names. -/
def SymbolTree.scope (t : SymbolTree) : List (SymbolTree × NameChoice) :=
  withNames t [] t.companions

/-- A declaration among members of a scope has a name; namespaces do not count. -/
def TakenIn (parent : SymbolTree) (members : List (SymbolTree × NameChoice)) (name : String) :
    Prop :=
  ∃ m ∈ members, claimsName parent m.1 = true ∧ m.2.name = name

section Scope

variable {parent : SymbolTree} {taken : List String}

lemma withNames_cons (parent : SymbolTree) (taken : List String) (t : SymbolTree)
    (rest : List SymbolTree) :
    withNames parent taken (t :: rest) = (t, nameChoice parent taken t) ::
      withNames parent (takenAfter parent taken [t]) rest := rfl

lemma takenAfter_append (parent : SymbolTree) (front back : List SymbolTree) : ∀ taken,
    takenAfter parent taken (front ++ back) =
      takenAfter parent (takenAfter parent taken front) back := by
  induction front with
  | nil => intro taken; rfl
  | cons t rest ih => intro taken; exact ih _

lemma withNames_append (front back : List SymbolTree) : ∀ taken,
    withNames parent taken (front ++ back) =
      withNames parent taken front ++ withNames parent (takenAfter parent taken front) back := by
  induction front with
  | nil => intro taken; rfl
  | cons t rest ih =>
    intro taken
    rw [cons_append, withNames_cons, withNames_cons, ih, cons_append]
    rfl

lemma length_nameChoices (parent : SymbolTree) (l : List SymbolTree) (taken : List String) :
    (nameChoices parent taken l).length = l.length := by
  simpa using congrArg List.length (ids_nameChoices parent taken l)

lemma fst_withNames (parent : SymbolTree) (l : List SymbolTree) (taken : List String) :
    (withNames parent taken l).map Prod.fst = l :=
  map_fst_zip (length_nameChoices parent l taken).ge

lemma snd_withNames (parent : SymbolTree) (l : List SymbolTree) (taken : List String) :
    (withNames parent taken l).map Prod.snd = nameChoices parent taken l :=
  map_snd_zip (length_nameChoices parent l taken).le

/-- **The names that are gone** are those of earlier declarations. -/
lemma mem_takenAfter {name : String} (l : List SymbolTree) : ∀ taken,
    name ∈ takenAfter parent taken l ↔
      name ∈ taken ∨ TakenIn parent (withNames parent taken l) name := by
  induction l with
  | nil => intro taken; simp [takenAfter, TakenIn, withNames]
  | cons t rest ih =>
    intro taken
    have hfirst : name ∈ takenAfter parent taken [t] ↔
        claimsName parent t = true ∧ (nameChoice parent taken t).name = name ∨ name ∈ taken := by
      rw [takenAfter, takenAfter]
      split
      case isTrue h => simp [h, eq_comm (a := name)]
      case isFalse h => simp [h]
    have hsplit := takenAfter_append parent [t] rest taken
    rw [singleton_append] at hsplit
    rw [hsplit, ih, hfirst, withNames_cons]
    simp only [TakenIn, mem_cons, exists_eq_or_imp]
    tauto

/-- A member of a scope gets its name after those before it have theirs. -/
lemma nameChoice_of_split {l : List SymbolTree} {front back : List (SymbolTree × NameChoice)}
    {t : SymbolTree} {c : NameChoice} (h : withNames parent taken l = front ++ (t, c) :: back) :
    front = withNames parent taken (front.map Prod.fst) ∧
      c = nameChoice parent (takenAfter parent taken (front.map Prod.fst)) t := by
  have hl : l = front.map Prod.fst ++ t :: back.map Prod.fst := by
    rw [← fst_withNames parent l taken, h, map_append, map_cons]
  rw [hl, withNames_append, withNames_cons] at h
  have hlength : (withNames parent taken (front.map Prod.fst)).length = front.length := by
    simpa using congrArg List.length (fst_withNames parent (front.map Prod.fst) taken)
  obtain ⟨hfront, hback⟩ := append_inj h hlength
  exact ⟨hfront.symm, (Prod.mk.inj (List.cons.inj hback).1).2.symm⟩

end Scope

def NameChoice.report? (c : NameChoice) : Option Diagnostic := c.entry?.bind Entry.diagnostic?

/-- The name of a member of a scope is right, given the members before it: it is the first candidate
that can be used, and it is reported exactly if the first of all candidates cannot. -/
structure NamedAfter (parent : SymbolTree) (earlier : List (SymbolTree × NameChoice))
    (t : SymbolTree)
    (c : NameChoice) : Prop where
  named : c.id = t.id ∧ c.symbol = t.symbol
  not_word : c.name ∉ reservedWords
  not_predefined : t.kind.isType = true → c.name ∉ predefinedTypeNames
  fresh : parent.isNamespaceIn t = false → ¬TakenIn parent earlier c.name
  first : ∃ n, c.name = numberedFrom 1 (baseName t.name) n ∧
    ∀ m < n, isReservedFor t.kind (numberedFrom 1 (baseName t.name) m) = true ∨
      parent.isNamespaceIn t = false ∧ TakenIn parent earlier (numberedFrom 1 (baseName t.name) m)
  kept : isReservedFor t.kind (baseName t.name) = false →
    (parent.isNamespaceIn t = true ∨ ¬TakenIn parent earlier (baseName t.name)) →
      c.name = baseName t.name
  reserved : (∃ d ∈ c.report?, d.kind = .reservedName) ↔
    isReservedFor t.kind (baseName t.name) = true
  collided : (∃ d ∈ c.report?, d.kind = .nameCollision) ↔
    isReservedFor t.kind (baseName t.name) = false ∧ parent.isNamespaceIn t = false ∧
      TakenIn parent earlier (baseName t.name)
  reported : ∀ d ∈ c.report?, (d.kind = .reservedName ∨ d.kind = .nameCollision) ∧
    d.longname = some t.longname

/-- The names of a whole scope are right. Modules at the top level have their paths for names. -/
structure NamedScope (parent : SymbolTree) (members : List (SymbolTree × NameChoice)) : Prop where
  complete : members.map Prod.fst = parent.companions
  named : ∀ earlier t c later, members = earlier ++ (t, c) :: later →
    parent.isTopModuleIn t = false →
    NamedAfter parent earlier t c
  distinct : members.Pairwise fun a b =>
    claimsName parent a.1 = true → claimsName parent b.1 = true → a.2.name ≠ b.2.name

section NamedScope

variable {parent : SymbolTree} {taken : List String} {t : SymbolTree}

lemma claimsName_eq (h : parent.isTopModuleIn t = false) :
    claimsName parent t = !parent.isNamespaceIn t := by
  simp [claimsName, h]

lemma nameReason_eq_reserved :
    nameReason parent taken t = .reserved ↔ isReservedFor t.kind (baseName t.name) = true := by
  unfold nameReason
  split_ifs <;> simp_all

lemma nameReason_eq_collided : nameReason parent taken t = .collided ↔
    isReservedFor t.kind (baseName t.name) = false ∧ claimsName parent t = true ∧
      baseName t.name ∈ taken := by
  unfold nameReason
  split_ifs <;> simp_all

lemma exists_report_reserved {c : NameChoice} :
    (∃ d ∈ c.report?, d.kind = .reservedName) ↔ c.reason = .reserved := by
  cases h : c.reason <;> simp [NameChoice.report?, NameChoice.entry?, h, Entry.diagnostic?,
    Symbol.diagnostic]

lemma exists_report_collided {c : NameChoice} :
    (∃ d ∈ c.report?, d.kind = .nameCollision) ↔ c.reason = .collided := by
  cases h : c.reason <;> simp [NameChoice.report?, NameChoice.entry?, h, Entry.diagnostic?,
    Symbol.diagnostic]

lemma kind_of_mem_report {c : NameChoice} : ∀ d ∈ c.report?,
    (d.kind = .reservedName ∨ d.kind = .nameCollision) ∧ d.longname = some c.symbol.longname := by
  cases h : c.reason <;> simp [NameChoice.report?, NameChoice.entry?, h, Entry.diagnostic?,
    Symbol.diagnostic]

/-- **A symbol gets its name from the members of the scope before it.** -/
lemma namedAfter_nameChoice (earlier : List SymbolTree) (h : parent.isTopModuleIn t = false) :
    NamedAfter parent (withNames parent [] earlier) t
      (nameChoice parent (takenAfter parent [] earlier) t) := by
  have htaken : ∀ name, claimsName parent t = true ∧ name ∈ takenAfter parent [] earlier ↔
      parent.isNamespaceIn t = false ∧ TakenIn parent (withNames parent [] earlier) name := by
    intro name
    simp [claimsName_eq h, mem_takenAfter]
  have hchoice : nameChoice parent (takenAfter parent [] earlier) t =
      ⟨t.id, t.symbol, declaredName parent (takenAfter parent [] earlier) t,
        nameReason parent (takenAfter parent [] earlier) t⟩ := by
    rw [nameChoice, h]
    rfl
  obtain ⟨n, hn, husable, hbefore⟩ :=
    declaredName_eq_iff.mp (rfl : declaredName parent (takenAfter parent [] earlier) t = _)
  have hfree := mt isUnusable_iff.mpr (Bool.eq_false_iff.mp husable)
  rw [htaken, not_or, not_and] at hfree
  have hwords := hfree.1
  simp only [isReservedFor, Bool.or_eq_true, Bool.and_eq_true, contains_iff_mem, not_or,
    not_and] at hwords
  rw [hchoice]
  exact
    { named := ⟨rfl, rfl⟩
      not_word := hwords.1
      not_predefined := hwords.2
      fresh := hfree.2
      first := ⟨n, hn, fun m hm => by simpa only [isUnusable_iff, htaken] using hbefore m hm⟩
      kept := by
        intro hreserved hfirst
        refine declaredName_eq_iff.mpr ⟨0, rfl, ?_, by simp⟩
        rw [Bool.eq_false_iff, Ne, isUnusable_iff, htaken, hreserved]
        rcases hfirst with hspace | hnot
        · simp [hspace]
        · simp [hnot]
      reserved := exists_report_reserved.trans nameReason_eq_reserved
      collided := exists_report_collided.trans (by rw [nameReason_eq_collided, htaken])
      reported := kind_of_mem_report }

/-- **All names of a scope are right.** -/
lemma namedScope_scope (parent : SymbolTree) : NamedScope parent parent.scope := by
  have hnamed : ∀ earlier t c later, parent.scope = earlier ++ (t, c) :: later →
      parent.isTopModuleIn t = false → NamedAfter parent earlier t c := by
    intro earlier t c later hsplit htop
    obtain ⟨hearlier, hchoice⟩ := nameChoice_of_split hsplit
    rw [hearlier, hchoice]
    exact namedAfter_nameChoice _ htop
  refine ⟨fst_withNames _ _ _, hnamed, ?_⟩
  rw [pairwise_iff_getElem]
  intro i j hi hj hij ha hb hsame
  have hsplit : parent.scope =
      parent.scope.take j ++ parent.scope[j] :: parent.scope.drop (j + 1) := by
    rw [getElem_cons_drop, take_append_drop]
  have hmem : parent.scope[i] ∈ parent.scope.take j :=
    mem_take_iff_getElem.mpr ⟨i, by omega, rfl⟩
  have hkind := hb
  simp only [claimsName, Bool.and_eq_true, Bool.not_eq_true'] at hkind
  exact (hnamed _ _ _ _ hsplit hkind.1).fresh hkind.2 ⟨_, hmem, ha, hsame⟩

/-- What is chosen in all scopes, member by member. -/
lemma allNameChoices_eq (root : SymbolTree) :
    allNameChoices root = root.walk.flatMap fun t => t.scope.map Prod.snd :=
  flatMap_congr fun t _ => (snd_withNames t t.companions []).symm

lemma id_snd_scope {m : SymbolTree × NameChoice} (h : m ∈ parent.scope) : m.2.id = m.1.id := by
  obtain ⟨front, back, hsplit⟩ := append_of_mem h
  obtain ⟨-, hchoice⟩ := nameChoice_of_split hsplit
  rw [hchoice, id_nameChoice]

/-- **Names are unique in their scope.** The names of all declarations are chosen, whatever the
forest is. In every scope each name can be used, declarations that are no namespaces have different
ones, a name that can be kept is kept, and those that cannot are what is reported. -/
theorem chooseNames_namedScope (e : Emitter) :
    let names := e.forest.root.walk.flatMap fun t => t.scope.map fun m => (m.1.id, m.2.name)
    let reports := e.forest.root.walk.flatMap fun t => t.scope.filterMap fun m => m.2.report?
    e.chooseNames.result = .ok { e with names } ∧ e.chooseNames.diagnostics = reports ∧
      ∀ t : SymbolTree, NamedScope t t.scope := by
  intro names reports
  have hnames : (allNameChoices e.forest.root).map (fun c => (c.id, c.name)) = names := by
    rw [allNameChoices_eq, map_flatMap]
    refine flatMap_congr fun t _ => ?_
    rw [map_map]
    exact map_congr_left fun m hm => by rw [Function.comp_apply, id_snd_scope hm]
  have hreports : diagnosticsOf ((allNameChoices e.forest.root).filterMap NameChoice.entry?) =
      reports := by
    rw [diagnosticsOf, filterMap_filterMap, allNameChoices_eq, filterMap_flatMap]
    refine flatMap_congr fun t _ => ?_
    rw [filterMap_map]
    rfl
  have hrun : e.chooseNames = ⟨(allNameChoices e.forest.root).filterMap NameChoice.entry?,
      .ok { e with names := (allNameChoices e.forest.root).map fun c => (c.id, c.name) }⟩ := by
    simp [Emitter.chooseNames, Run.noteAll]
  rw [hrun, Run.diagnostics, hnames, hreports]
  exact ⟨rfl, rfl, namedScope_scope⟩

end NamedScope

end AmbientDecl

import AmbientDecl.Proofs.Forest.Placement
import AmbientDecl.Proofs.Forest.Typing

/-!
# One signature for each doclet

What all doclets of a longname together say about their symbol, and when they contradict each other.

**What doclets say.** `signing` are the doclets that give a symbol its signatures, and
`joinedReferences` are the references of a class: those of its first doclet, then those of later
ones that are new. `Symbol.DocumentedBy` says that a symbol has both.

**Built symbols.** A symbol of the forest that is built has the doclets of its longname queued on it
(`doclets_of_buildForest`), and a class has from its first doclet what `Symbol.Built.class` says.

**Merging.** Merging makes a symbol that is documented by its doclets (`documentedBy_mergeSymbol`).
It fails exactly where a doclet documents another kind of thing (`error_mergeSymbol`), and a
traversal fails exactly where it fails at a symbol.
-/

namespace AmbientDecl

open List SymbolTree Census AmbientDecl.Symbol Doclet.ClassDetail Doclet

/-- The references of a doclet in one of the lists that classes have. -/
def Doclet.references (list : Doclet.ClassDetail → List String) (d : Doclet) : List String :=
  match d.detail with
  | .classLike detail => list detail
  | _ => []

/-- Whether a doclet hides the constructor of its class. -/
def Doclet.hidesConstructor (d : Doclet) : Bool :=
  match d.detail with
  | .classLike detail => detail.hideConstructor
  | _ => false

/-- The references of the first doclet, then those of the later ones that it does not have, each
where it first appears. -/
def joinedReferences (list : Doclet.ClassDetail → List String) : List Doclet → List String
  | [] => []
  | first :: later =>
    first.references list ++
      ((later.flatMap (references list)).filter (· ∉ first.references list)).eraseDups

/-- The doclets that give a symbol of a kind its signatures. -/
def signing (kind : SymbolKind) (doclets : List Doclet) : List Doclet :=
  match kind with
  | .functionDecl => doclets
  | .classDecl => if doclets.head?.any hidesConstructor then [] else doclets
  | .typedefDecl =>
    if doclets.head?.any Doclet.isCallback then doclets.filter Doclet.isCallback else []
  | _ => []

/-- A symbol says what its doclets say together. -/
structure Symbol.DocumentedBy (doclets : List Doclet) (s : Symbol) : Prop where
  /-- One signature for each doclet that gives one, in their order. -/
  signatures : List.Forall₂ (fun d signature => (Signature.ofDoclet d s.kind).result =
    .ok signature)
    (signing s.kind doclets) s.signatures
  augments : s.kind = .classDecl → s.augments = joinedReferences Doclet.ClassDetail.augments doclets
  implements : s.kind = .classDecl →
    s.implements = joinedReferences Doclet.ClassDetail.implements doclets
  mixes : s.kind = .classDecl → s.mixes = joinedReferences Doclet.ClassDetail.mixes doclets

/-- **References are added where they are new.** -/
lemma addReferences_eq (references : List String) : ∀ known,
    addReferences known references = known ++ (references.filter (· ∉ known)).eraseDups := by
  induction references with
  | nil => intro known; simp [addReferences]
  | cons r rest ih =>
    intro known
    rw [addReferences]
    by_cases hknown : r ∈ known
    · rw [if_pos (by simpa using hknown), ih, filter_cons_of_neg (by simpa using hknown)]
    · rw [if_neg (by simpa using hknown), ih, filter_cons_of_pos (by simpa using hknown),
        eraseDups_cons, filter_filter, append_assoc]
      refine congrArg (fun new => known ++ r :: new.eraseDups) (filter_congr fun a _ => ?_)
      simp [and_comm, Bool.beq_eq_decide_eq]

lemma addReferences_append (front back : List String) : ∀ known,
    addReferences known (front ++ back) = addReferences (addReferences known front) back := by
  induction front with
  | nil => intro known; rfl
  | cons r rest ih =>
    intro known
    rw [cons_append, addReferences, addReferences]
    split
    · exact ih known
    · exact ih (known ++ [r])

/-- The lists of a class after a further doclet. -/
lemma joinClass_references (s : Symbol) (d : Doclet) :
    (joinClass s d).augments = addReferences s.augments (d.references augments) ∧
    (joinClass s d).implements = addReferences s.implements (d.references implements) ∧
    (joinClass s d).mixes = addReferences s.mixes (d.references mixes) ∧
    (joinClass s d).signatures = s.signatures := by
  cases hd : d.detail <;> simp [joinClass, references, hd, addReferences]

/-- The lists of a class after all further doclets. -/
lemma foldl_joinClass_references (later : List Doclet) : ∀ s : Symbol,
    (later.foldl joinClass s).augments =
      addReferences s.augments (later.flatMap (references augments)) ∧
    (later.foldl joinClass s).implements =
      addReferences s.implements (later.flatMap (references implements)) ∧
    (later.foldl joinClass s).mixes = addReferences s.mixes (later.flatMap (references mixes)) ∧
    (later.foldl joinClass s).signatures = s.signatures := by
  induction later with
  | nil => intro s; exact ⟨rfl, rfl, rfl, rfl⟩
  | cons d rest ih =>
    intro s
    obtain ⟨haugments, himplements, hmixes, hsignatures⟩ := joinClass_references s d
    obtain ⟨haugments', himplements', hmixes', hsignatures'⟩ := ih (joinClass s d)
    simp only [foldl_cons, flatMap_cons, addReferences_append]
    rw [haugments', himplements', hmixes', hsignatures', haugments, himplements, hmixes]
    exact ⟨rfl, rfl, rfl, hsignatures⟩

section Built

variable {s : Symbol} {d : Doclet}

/-- What the first doclet of a class says about it. -/
lemma Symbol.Built.class (h : s.Built) (hd : s.doclet? = some d) (hkind : s.kind = .classDecl) :
    s.hideConstructor = d.hidesConstructor ∧ s.augments = d.references Doclet.ClassDetail.augments ∧
      s.implements = d.references Doclet.ClassDetail.implements ∧
      s.mixes = d.references Doclet.ClassDetail.mixes := by
  have hclass : d.symbolKind = .classDecl := (h.type hd).1.symm.trans hkind
  obtain ⟨detail, hdetail⟩ : ∃ detail, d.detail = .classLike detail := by
    cases hdetail : d.detail with
    | classLike detail => exact ⟨detail, rfl⟩
    | value constant type isEnum => cases isEnum <;> simp [symbolKind, hdetail] at hclass
    | container isModule => cases isModule <;> simp [symbolKind, hdetail] at hclass
    | _ => simp [symbolKind, hdetail] at hclass
  obtain ⟨seed, values, missing, hseed | ⟨name, longname, _, rfl⟩, rfl⟩ := h
  · obtain ⟨first, rest, base, hbase, _, _, rfl⟩ := hseed
    obtain rfl : first = d := by simpa [doclet?] using hd
    obtain ⟨before, _, hbase⟩ := Run.result_bind.mp hbase
    simp only [withDetail, hdetail, Run.result_pure] at hbase
    subst hbase
    simp [hidesConstructor, references, hdetail]
  · simp [doclet?, Symbol.bare] at hd

end Built

section Queued

variable {filter : Option DocletFilter} {doclets : List Doclet} {f : Forest}

/-- What planting notes does not change the doclets of a symbol. -/
lemma lasting_queued : Planting.Lasting fun s =>
    s.doclets = [] ∨ s.doclets = Census.docletsOf filter doclets s.longname where
  made := by
    rintro s ⟨name, longname, _, rfl⟩
    exact .inl rfl
  missing := fun _ h => h

/-- **On a symbol of the forest are queued all doclets that document it, in their order.** -/
lemma doclets_of_buildForest (h : (buildForest filter doclets).result = .ok f) :
    ∀ t ∈ f.nodes, t.symbol.doclets = Census.docletsOf filter doclets t.longname := by
  obtain ⟨c, hc, hcycles, rfl⟩ := result_buildForest.mp h
  obtain ⟨htidy, _⟩ := tidy_planting (nodup_ofDoclets hc)
  intro t ht
  obtain ⟨s, hs, values, hsymbol⟩ := Planting.symbol_of_mem_forest htidy ht
  have hqueued : s.doclets = [] ∨ s.doclets = docletsOf filter doclets s.longname :=
    Planting.all_attachAll lasting_queued (fun s hs => .inr (queued_ofDoclets hc s hs)) s hs
  have hlongname : t.longname = s.longname := by rw [SymbolTree.longname, hsymbol]
  by_cases hnone : docletsOf filter doclets t.longname = []
  · rw [hnone, hsymbol]
    rw [hlongname] at hnone
    exact hqueued.elim id fun hsame => hsame.trans hnone
  · -- the symbol is the one that the census has for the longname
    obtain ⟨first, hfirst⟩ := (has_iff_first hc).mp
      ((has_ofDoclets_iff_docletsOf hc _).mpr hnone)
    obtain ⟨q, hq⟩ := exists_symbol hc hfirst
    obtain ⟨hmem, hq⟩ := longname_of_find? hq
    obtain ⟨i, hi⟩ := mem_iff_getElem?.mp hmem
    have hplaced := placed_of_mem hc hcycles hi (hq.symm ▸ hfirst)
    have hid : t.id = i + 1 := by
      have hindexed := hplaced.indexed
      rw [hq, (Planting.idOf?_of_mem_forest htidy ht), Option.some.injEq] at hindexed
      exact hindexed
    have hholds : c.planting.forest.Holds t.id t.symbol (t.children.map SymbolTree.id) := by
      exact .inl ⟨t, mem_walk_of_mem_nodes ht, rfl, rfl, rfl⟩
    rw [((Planting.holds_forest htidy).mp hholds).2.1, hid, hplaced.queued, hq]

end Queued

section Merging

variable {s s' : Symbol}

/-- A symbol without doclets is a namespace that says nothing. -/
lemma Symbol.Built.bare (h : s.Built) (hdoclets : s.doclets = []) :
    s.kind = .namespaceDecl ∧ s.signatures = [] := by
  obtain ⟨seed, values, missing, hseed | ⟨name, longname, _, rfl⟩, rfl⟩ := h
  · obtain ⟨_, _, _, _, _, _, rfl⟩ := hseed
    cases hdoclets
  · exact ⟨rfl, rfl⟩

/-- The doclets that are worked in give the signatures. -/
lemma signatures_worked {first : Doclet} (hs : s.Built) (hd : s.doclet? = some first) :
    s.worked.signatures = (signing s.kind s.doclets).map (Signature.read · s.kind) := by
  have hnone := (hs.type hd).2.2
  have hhead : s.doclets.head? = some first := hd
  have hclass := hs.class hd
  have hcallback : s.isCallback = first.isCallback := by rw [Symbol.isCallback, hd, Option.any_some]
  unfold worked signing
  cases hkind : s.kind with
  | classDecl =>
    simp only [reduceCtorEq, if_false, if_true, (foldl_joinClass_references _ _).2.2.2, hhead,
      Option.any_some, (hclass hkind).1]
    split <;> rfl
  | typedefDecl =>
    simp only [reduceCtorEq, if_false, true_and, hhead, Option.any_some, hcallback]
    split
    · rfl
    · exact hnone
  | functionDecl => simp
  | _ => simp [hnone]

/-- The references of a class with its doclets worked in. -/
lemma references_worked {first : Doclet} {later : List Doclet} (hs : s.Built)
    (hdoclets : s.doclets = first :: later) (hkind : s.kind = .classDecl) :
    s.worked.augments = joinedReferences augments s.doclets ∧
      s.worked.implements = joinedReferences implements s.doclets ∧
      s.worked.mixes = joinedReferences Doclet.ClassDetail.mixes s.doclets := by
  have hd : s.doclet? = some first := by rw [doclet?, hdoclets, head?_cons]
  obtain ⟨_, haugments, himplements, hmixes⟩ := hs.class hd hkind
  obtain ⟨haugments', himplements', hmixes', _⟩ := foldl_joinClass_references s.doclets.tail
    { s with
      signatures := if s.hideConstructor then [] else s.doclets.map (Signature.read · s.kind) }
  rw [worked, if_neg (by simp [hkind]), if_pos hkind, haugments', himplements', hmixes']
  simp only [hdoclets, tail_cons, addReferences_eq, haugments, himplements, hmixes,
    joinedReferences, and_self]

/-- **Merging makes a symbol that says what its doclets say.** -/
lemma documentedBy_mergeSymbol (hs : s.Built) (h : (mergeSymbol s).result = .ok s') :
    s'.DocumentedBy s.doclets := by
  obtain ⟨_, hkind⟩ := mergeSymbol_keeps h
  have hmerged := mergeSymbol_eq h
  cases hdoclets : s.doclets with
  | nil =>
    rw [if_pos hdoclets] at hmerged
    obtain ⟨hnamespace, hnone⟩ := hs.bare hdoclets
    rw [hmerged]
    refine ⟨?_, ?_, ?_, ?_⟩
    · rw [hnamespace, hnone]
      exact .nil
    all_goals
      intro hclass
      simp [hnamespace] at hclass
  | cons first later =>
    have hd : s.doclet? = some first := by rw [doclet?, hdoclets, head?_cons]
    rw [if_neg (by simp [hdoclets])] at hmerged
    have hreferences := references_worked hs hdoclets
    rw [← hdoclets, hmerged]
    rw [hmerged] at hkind
    refine ⟨?_, fun hclass => (hreferences (hkind ▸ hclass)).1,
      fun hclass => (hreferences (hkind ▸ hclass)).2.1,
        fun hclass => (hreferences (hkind ▸ hclass)).2.2⟩
    rw [signatures_worked hs hd, hkind, forall₂_map_right_iff]
    exact forall₂_same.mpr fun d _ => result_ofDoclet d s.kind

/-- **Merging fails exactly where doclets contradict each other.** -/
lemma error_mergeSymbol {failure : Failure} :
    (mergeSymbol s).result = .error failure ↔
      ∃ d, s.conflict? = some d ∧ failure = .fatal (conflictDiagnostic s d) := by
  rw [result_mergeSymbol]
  by_cases hdoclets : s.doclets = []
  · simp [hdoclets, conflict?]
  · rw [if_neg hdoclets]
    cases s.conflict? with
    | none => simp
    | some d => simp [eq_comm]

/-- The first doclet of a symbol does not contradict it. -/
lemma Symbol.Built.conflict_iff (hs : s.Built) :
    (∃ d, s.conflict? = some d) ↔ ∃ d ∈ s.doclets, d.symbolKind ≠ s.kind := by
  rw [← Option.isSome_iff_exists, conflict?, find?_isSome]
  constructor
  · rintro ⟨d, hd, hkind⟩
    exact ⟨d, mem_of_mem_tail hd, by simpa using hkind⟩
  · rintro ⟨d, hd, hkind⟩
    cases hdoclets : s.doclets with
    | nil => simp [hdoclets] at hd
    | cons first later =>
      rw [hdoclets] at hd
      rcases mem_cons.mp hd with rfl | hd
      · refine absurd (hs.type ?_).1.symm hkind
        rw [doclet?, hdoclets, head?_cons]
      · exact ⟨d, hd, by simpa using hkind⟩

end Merging

namespace SymbolTree

variable {f : Symbol → Run Symbol} {failure : Failure}

lemma error_traverseAll_of {cs : List SymbolTree}
    (hcs : ∀ c ∈ cs, ∀ failure, (traverse f c).result = .error failure →
      ∃ u ∈ c.walk, (f u.symbol).result = .error failure)
    (h : (traverseAll f cs).result = .error failure) :
    ∃ u ∈ cs.flatMap walk, (f u.symbol).result = .error failure := by
  induction cs with
  | nil => cases h
  | cons c rest ih =>
    rw [flatMap_cons]
    rcases Run.result_bind_eq_error.mp h with h | ⟨_, _, h⟩
    · obtain ⟨u, hu, hfails⟩ := hcs c mem_cons_self failure h
      exact ⟨u, mem_append_left _ hu, hfails⟩
    · rcases Run.result_bind_eq_error.mp h with h | ⟨_, _, h⟩
      · obtain ⟨u, hu, hfails⟩ := ih (fun d hd => hcs d (mem_cons_of_mem _ hd)) h
        exact ⟨u, mem_append_right _ hu, hfails⟩
      · cases h

lemma error_traverse {t : SymbolTree} (h : (traverse f t).result = .error failure) :
    ∃ u ∈ t.walk, (f u.symbol).result = .error failure := by
  induction t using induct generalizing failure with
  | node i s cs ih =>
    rw [walk_node]
    rw [traverse] at h
    rcases Run.result_bind_eq_error.mp h with h | ⟨_, _, h⟩
    · exact ⟨_, mem_cons_self, h⟩
    · rcases Run.result_bind_eq_error.mp h with h | ⟨_, _, h⟩
      · obtain ⟨u, hu, hfails⟩ := error_traverseAll_of (fun c hc failure => ih c hc) h
        exact ⟨u, mem_cons_of_mem _ hu, hfails⟩
      · cases h

end SymbolTree

section Forest

variable {f : Forest}

/-- **Where merging a forest fails, it fails at a symbol.** -/
lemma error_mergeOverloads {failure : Failure} (h : (mergeOverloads f).result = .error failure) :
    ∃ t ∈ f.nodes, (mergeSymbol t.symbol).result = .error failure := by
  rw [Forest.nodes, nodes_eq]
  rcases Run.result_bind_eq_error.mp h with h | ⟨_, _, h⟩
  · exact error_traverseAll_of (fun c _ _ => error_traverse) h
  · cases h

lemma ok_mergeOverloads {g : Forest} (h : (mergeOverloads f).result = .ok g) :
    ∀ t ∈ f.nodes, ∃ s', (mergeSymbol t.symbol).result = .ok s' := by
  intro t ht
  obtain ⟨i, hi, rfl⟩ := mem_iff_getElem.mp ht
  have hsame := forall₂_mergeOverloads h
  exact ⟨_, hsame.get hi (hsame.length_eq ▸ hi)⟩

/-- A later forest with the same tree, index and strays, up to what doclets say about the
symbols. -/
structure Forest.SameOutline (f g : Forest) : Prop where
  /-- Symbols have the same numbers, names, kinds, types and children. -/
  tree : g.root.mapSymbols Symbol.outline = f.root.mapSymbols Symbol.outline
  index : g.index = f.index
  nextId : g.nextId = f.nextId
  strays : g.strays = f.strays
  parent : ∀ id, g.parentOf? id = f.parentOf? id

lemma sameOutline_mergeOverloads {g : Forest} (h : (mergeOverloads f).result = .ok g) :
    f.SameOutline g := by
  have htree := outline_mergeOverloads h
  have hstrays : g.strays = f.strays := by
    obtain ⟨cs, _, rfl⟩ := result_mergeOverloads.mp h
    rfl
  refine ⟨htree, ?_, ?_, hstrays, Forest.parentOf?_congr htree hstrays⟩
  all_goals
    obtain ⟨cs, _, rfl⟩ := result_mergeOverloads.mp h
    rfl

end Forest

/-- **The symbols of the merged forest say what the doclets of their longnames say.** -/
lemma documentedBy_mergeOverloads {filter : Option DocletFilter} {doclets : List Doclet}
    {built merged : Forest} (hbuilt : (buildForest filter doclets).result = .ok built)
    (h : (mergeOverloads built).result = .ok merged) :
    ∀ t ∈ merged.root.walk, t.symbol.DocumentedBy (Census.docletsOf filter doclets t.longname) := by
  rw [walk_eq, forall_mem_cons]
  constructor
  · have hroot := (consistent_mergeOverloads (consistent_buildForest hbuilt) h).root_symbol
    rw [hroot]
    exact ⟨.nil, by simp [root, Symbol.bare], by simp [root, Symbol.bare],
      by simp [root, Symbol.bare]⟩
  · intro t ht
    obtain ⟨u, hu, hmerge⟩ := mem_mergeOverloads h t ht
    have hlongname : t.longname = u.longname := (mergeSymbol_keeps hmerge).1
    rw [hlongname, ← doclets_of_buildForest hbuilt u hu]
    exact documentedBy_mergeSymbol (built_of_buildForest hbuilt u hu) hmerge

/-- Merging after building. It leaves every symbol as the doclets of its longname document it and
changes nothing about the forest otherwise. It fails exactly if a symbol has a doclet of another
kind of thing, and never because a function has no signature. -/
theorem mergeOverloads_documentedBy {filter : Option DocletFilter} {doclets : List Doclet}
    {built : Forest} (hbuilt : (buildForest filter doclets).result = .ok built) :
    (∀ merged, (mergeOverloads built).result = .ok merged → built.SameOutline merged ∧
      ∀ t ∈ merged.root.walk, t.symbol.DocumentedBy (Census.docletsOf filter doclets t.longname)) ∧
    ((∃ failure, (mergeOverloads built).result = .error failure) ↔
      ∃ t ∈ built.nodes, ∃ d ∈ Census.docletsOf filter doclets t.longname, d.symbolKind ≠ t.kind) ∧
    (∀ failure, (mergeOverloads built).result = .error failure →
      ∃ d, failure = .fatal d ∧ d.kind = .conflictingKinds) ∧
    ∀ d ∈ (mergeOverloads built).diagnostics, d.kind ≠ .emptySignatures := by
  have hsymbols := built_of_buildForest hbuilt
  have hqueued := doclets_of_buildForest hbuilt
  refine ⟨?_, ⟨?_, ?_⟩, ?_, ?_⟩
  · intro merged hmerged
    exact ⟨sameOutline_mergeOverloads hmerged, documentedBy_mergeOverloads hbuilt hmerged⟩
  · rintro ⟨failure, h⟩
    obtain ⟨t, ht, hfails⟩ := error_mergeOverloads h
    obtain ⟨d, hd, _⟩ := error_mergeSymbol.mp hfails
    exact ⟨t, ht, hqueued t ht ▸ (hsymbols t ht).conflict_iff.mp ⟨d, hd⟩⟩
  · rintro ⟨t, ht, hconflict⟩
    cases hresult : (mergeOverloads built).result with
    | error failure => exact ⟨failure, rfl⟩
    | ok merged =>
      -- merging would have succeeded at the symbol
      obtain ⟨s', hs'⟩ := ok_mergeOverloads hresult t ht
      rw [← hqueued t ht] at hconflict
      obtain ⟨d, hd⟩ := (hsymbols t ht).conflict_iff.mpr hconflict
      rw [error_mergeSymbol.mpr ⟨d, hd, rfl⟩] at hs'
      cases hs'
  · intro failure h
    obtain ⟨t, _, hfails⟩ := error_mergeOverloads h
    obtain ⟨d, _, rfl⟩ := error_mergeSymbol.mp hfails
    exact ⟨_, rfl, rfl⟩
  · have horderly : Run.Orderly (fun d => d.kind ≠ .emptySignatures) (fun _ => True)
        (mergeOverloads built) :=
      orderly_mergeOverloads fun t _ d _ kind message hkind => hkind
    exact horderly.reports

/-- Two doclets of a function, two of a class that extend different classes, and a callback with
another doclet that is none. -/
def severalTimes : List Doclet :=
  [.bare "f" none (.callable [.bare "a"] []),
   .bare "C" none (.classLike ⟨.classForm, [], ["A", "A"], [], [], none, false, false⟩),
   .bare "f" none (.callable [] []),
   .bare "T" none (.typedef none [.bare "x"] []),
   .bare "C" none (.classLike ⟨.classForm, [], ["B", "A", "B"], [], [], none, true, false⟩),
   .bare "T" none (.typedef none [] [])]

/-- Each doclet of the function and of the class gives a signature, and one doclet of the
callback. -/
theorem mergeOverloads_documentedBy_severalTimes : ∃ built merged,
    (buildForest none severalTimes).result = .ok built ∧
      (mergeOverloads built).result = .ok merged ∧
      (merged.nodes.map fun t => (t.longname, t.symbol.signatures.length, t.symbol.augments)) =
        [("f", 2, []), ("C", 2, ["A", "A", "B"]), ("T", 1, [])] ∧
      built.SameOutline merged ∧
      ∀ t ∈ merged.root.walk, t.symbol.DocumentedBy
        (Census.docletsOf none severalTimes t.longname) := by
  have hrun : ((buildForest none severalTimes >>= mergeOverloads).result.toOption.map fun f =>
      f.nodes.map fun t => (t.longname, t.symbol.signatures.length, t.symbol.augments)) =
        some [("f", 2, []), ("C", 2, ["A", "A", "B"]), ("T", 1, [])] := by
    decide +kernel
  obtain ⟨merged, hok, hnodes⟩ := Run.toOption_map.mp hrun
  obtain ⟨built, hbuilt, hmerged⟩ := Run.result_bind.mp hok
  obtain ⟨hsame, hdocumented⟩ := (mergeOverloads_documentedBy hbuilt).1 merged hmerged
  exact ⟨built, merged, hbuilt, hmerged, hnodes, hsame, hdocumented⟩

end AmbientDecl

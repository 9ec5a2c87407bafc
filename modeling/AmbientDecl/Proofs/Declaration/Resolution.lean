import AmbientDecl.Proofs.Declaration.Agreement
import AmbientDecl.Proofs.Forest.Placement

/-!
# Which type a name refers to

A name in a comment refers to the type of that longname, or to the only type of that simple name.

**What the index knows.** The index has exactly the symbols below the root and the strays, each
under its longname (`Forest.Accounted`). Every stage keeps this (`accounted_symbolForest`), so a
longname leads to at most one symbol, and one that is found by it has it.

**References.** `Forest.Refers` says what a name refers to by looking at the types of the tree
alone. The search of the directory asks the index first, and what it knows by the name need not be a
type: then a type of that simple name is not looked for (`resolve_eq_some_iff_refers`,
`hidden_functionOfSameName`).
-/

namespace AmbientDecl

open List SymbolTree Planting

namespace Forest

variable {f : Forest}

/-- A symbol below the root or a stray has this longname. -/
def Has (f : Forest) (longname : String) : Prop :=
  (∃ t ∈ f.nodes, t.longname = longname) ∨ ∃ s ∈ f.strays, s.symbol.longname = longname

/-- The index has exactly the symbols of the forest, under their longnames. -/
structure Accounted (f : Forest) : Prop where
  known : ∀ longname id, f.idOf? longname = some id →
    (longname, id) ∈ f.nodes.map SymbolTree.entry ∨
    ∃ s ∈ f.strays, s.symbol.longname = longname ∧ s.id = id
  strays : ∀ s ∈ f.strays, f.idOf? s.symbol.longname = some s.id

/-- The index knows a longname exactly if something has it. -/
lemma idOf?_eq_none_iff (hf : f.Consistent) (h : f.Accounted) {longname : String} :
    f.idOf? longname = none ↔ ¬ f.Has longname := by
  rw [← not_iff_not, not_not, ← ne_eq, Option.ne_none_iff_exists']
  constructor
  · rintro ⟨id, hid⟩
    rcases h.known longname id hid with hnode | ⟨s, hs, hlongname, _⟩
    · obtain ⟨t, ht, hentry⟩ := mem_map.mp hnode
      exact .inl ⟨t, ht, (Prod.mk.inj hentry).1⟩
    · exact .inr ⟨s, hs, hlongname⟩
  · rintro (⟨t, ht, rfl⟩ | ⟨s, hs, rfl⟩)
    · exact ⟨t.id, hf.indexed t ht⟩
    · exact ⟨s.id, h.strays s hs⟩

/-- A symbol of the tree that is found by a longname has it. -/
lemma longname_of_idOf? (hf : f.Consistent) (h : f.Accounted) {t : SymbolTree}
    (ht : t ∈ f.root.walk)
    {longname : String} (hid : f.idOf? longname = some t.id) : t.longname = longname := by
  rcases h.known longname t.id hid with hnode | ⟨s, hs, _, hstray⟩
  · obtain ⟨u, hu, hentry⟩ := mem_map.mp hnode
    obtain ⟨hlongname, huid⟩ := Prod.mk.inj hentry
    have hwalk := mem_walk_of_mem_nodes hu
    rw [inj_on_of_nodup_map hf.ids_nodup ht hwalk huid.symm]
    exact hlongname
  · refine absurd (SymbolTree.mem_ids.mpr ⟨t, ht, rfl⟩) ?_
    rw [← hstray]
    exact hf.apart s hs

/-- A later forest whose index has nothing but the new entries besides the old ones. -/
lemma Extends.accounted {g : Forest} (h : Extends f g) (hf : f.Accounted)
    (new : List (String × Nat))
    (hperm : g.root.entries.Perm (f.root.entries ++ new))
    (hindex : ∀ longname id, g.idOf? longname = some id →
      f.idOf? longname = some id ∨ (longname, id) ∈ new) : g.Accounted where
  known := by
    intro longname id hid
    rw [(h.entry_nodes hperm).mem_iff, mem_append, h.strays]
    rcases hindex longname id hid with hold | hnew
    · rcases hf.known longname id hold with hnode | hstray
      · exact .inl (.inl hnode)
      · exact .inr hstray
    · exact .inl (.inr hnew)
  strays := by
    intro s hs
    rw [h.strays] at hs
    exact h.index _ _ (hf.strays s hs)

end Forest

section Stages

variable {filter : Option DocletFilter} {doclets : List Doclet} {f g : Forest}

lemma Planting.accounted_forest {p : Planting} (hp : p.Tidy) : p.forest.Accounted where
  known := by
    intro longname id hid
    obtain ⟨hpos, hle, hget⟩ := idOf?_eq_some ((p.lookup_index longname).symm.trans hid)
    have hlongname : (p.symbolAt id).longname = longname := by
      obtain ⟨i, rfl⟩ := Nat.exists_eq_succ_of_ne_zero (Nat.pos_iff_ne_zero.mp hpos)
      rw [Nat.succ_sub_one, longnames, getElem?_map,
        getElem?_eq_getElem hle, Option.map_some, Option.some.injEq] at hget
      rw [symbolAt, getElem?_eq_getElem hle]
      exact hget
    by_cases htree : id ∈ p.forest.root.ids
    · obtain ⟨t, ht, rfl⟩ := SymbolTree.mem_ids.mp htree
      rw [walk_eq, mem_cons] at ht
      rcases ht with rfl | ht
      · -- The root has the number zero.
        have hroot : p.forest.root.id = 0 := id_absorb _
        omega
      · refine .inl (mem_map.mpr ⟨t, ht, ?_⟩)
        have hwalk := mem_walk_of_mem_nodes ht
        rw [entry, longname_of_mem_forest hp hwalk, hlongname]
    · refine .inr ⟨⟨id, symbolLeft p id, p.parent? id, p.folded.childrenOf id⟩,
        Planting.mem_straysOf.mpr ⟨htree, hpos, hle, rfl, rfl, rfl⟩, ?_, rfl⟩
      obtain ⟨values, hsymbol⟩ := symbolLeft_eq p id
      rw [hsymbol]
      exact hlongname
  strays := by
    intro s hs
    obtain ⟨_, hpos, hle, hsymbol, _, _⟩ := Planting.mem_straysOf.mp hs
    obtain ⟨values, hleft⟩ := symbolLeft_eq p s.id
    rw [hsymbol, hleft]
    exact idOf?_symbolAt hp hpos hle

lemma accounted_mergeOverloads (hf : f.Accounted) (h : (mergeOverloads f).result = .ok g) :
    g.Accounted := by
  refine (extends_mergeOverloads h).accounted hf []
    (by rw [entries_mergeOverloads h, append_nil]) ?_
  intro longname id hid
  obtain ⟨cs, _, rfl⟩ := result_mergeOverloads.mp h
  exact .inl hid

lemma accounted_expandForest (hroot : f.root.symbol = Symbol.root) (hf : f.Accounted)
    (h : (expandForest f).result = .ok g) : g.Accounted := by
  have hextends := extends_expandForest hroot h
  obtain ⟨t, e, ht, rfl⟩ := result_expandForest.mp h
  obtain ⟨new, hnew, hperm⟩ := moves_expandTree ht
  have hdone := (expandTree_root hroot rfl ht).2
  refine hextends.accounted hf new (by simpa [Expansion.waiting, hdone] using hperm) ?_
  intro longname id hid
  rw [Forest.idOf?, hnew.index, lookup_append, Option.or_eq_some_iff] at hid
  rcases hid with hold | ⟨_, hmade⟩
  · exact .inl hold
  · obtain ⟨front, back, hsplit, _⟩ := lookup_eq_some_iff.mp hmade
    exact .inr (by simp [hsplit])

/-- **The index of a finished forest has exactly its symbols.** -/
lemma accounted_symbolForest (h : (symbolForest filter doclets).result = .ok f) : f.Accounted := by
  obtain ⟨built, hbuilt, merged, hmerged, hexpanded⟩ := result_symbolForest.mp h
  have hmergedConsistent := consistent_mergeOverloads (consistent_buildForest hbuilt) hmerged
  have hbuiltAccounted : built.Accounted := by
    obtain ⟨c, hc, _, rfl⟩ := result_buildForest.mp hbuilt
    exact accounted_forest (tidy_of_census hc)
  exact accounted_expandForest hmergedConsistent.root_symbol
    (accounted_mergeOverloads hbuiltAccounted hmerged) hexpanded

end Stages

/-- What a name refers to: the type of that longname; else, unless the name is in a module, the only
type of that simple name. -/
inductive Forest.Refers (f : Forest) (name : String) : Place → Prop
  | longname {target : Place} (placed : target ∈ f.places) (isType : target.tree.kind.isType = true)
      (longname : target.tree.longname = name) : Refers f name target
  | simpleName {target : Place} (placed : target ∈ f.places)
      (isType : target.tree.kind.isType = true)
      (noLongname : ∀ q ∈ f.places, q.tree.kind.isType = true → q.tree.longname ≠ name)
      (notModule : Longname.isModule name = false) (simpleName : target.tree.name = name)
      (only : ∀ q ∈ f.places, q.tree.kind.isType = true → q.tree.name = name → q = target) :
      Refers f name target

section References

variable {f : Forest} {e : Emitter} {name : String} {target : Place}

lemma nodup_places (hf : f.root.ids.Nodup) : f.places.Nodup :=
  Nodup.of_map _ (f.ids_places ▸ hf)

lemma mem_nodes_of_isType (hroot : f.root.symbol = Symbol.root) (hplace : target ∈ f.places)
    (h : target.tree.kind.isType = true) : target.tree ∈ f.nodes := by
  have hwalk := tree_mem_walk hplace
  rw [walk_eq, mem_cons] at hwalk
  rcases hwalk with heq | hnode
  · rw [heq, kind, hroot] at h
    exact absurd h (by decide)
  · exact hnode

/-- The types of a simple name are one exactly if a type has the name and no other one does. -/
lemma named_eq_singleton_iff (hf : e.forest.root.ids.Nodup) :
    e.printer.directory.named name = [target] ↔
      target ∈ e.forest.places ∧ target.tree.kind.isType = true ∧ target.tree.name = name ∧
        ∀ q ∈ e.forest.places, q.tree.kind.isType = true → q.tree.name = name → q = target := by
  have hmem : ∀ q, q ∈ e.printer.directory.named name ↔
      q ∈ e.forest.places ∧ q.tree.kind.isType = true ∧ q.tree.name = name := by
    intro q
    rw [Directory.named, mem_filter, Bool.and_eq_true, beq_iff_eq]
    rfl
  constructor
  · intro hone
    obtain ⟨hplace, htype, hname⟩ := (hmem target).mp (by rw [hone]; exact mem_singleton.mpr rfl)
    refine ⟨hplace, htype, hname, fun q hq hqtype hqname => ?_⟩
    have hq := (hmem q).mpr ⟨hq, hqtype, hqname⟩
    rw [hone] at hq
    exact mem_singleton.mp hq
  · rintro ⟨hplace, htype, hname, honly⟩
    have hnodup : (e.printer.directory.named name).Nodup := (nodup_places hf).filter _
    refine perm_singleton.mp ((perm_ext_iff_of_nodup hnodup (nodup_singleton _)).mpr ?_)
    intro q
    rw [hmem, mem_singleton]
    constructor
    · rintro ⟨hq, hqtype, hqname⟩
      exact honly q hq hqtype hqname
    · rintro rfl
      exact ⟨hplace, htype, hname⟩

/-- A name that the index knows leads to the type of that longname, or nowhere. -/
lemma lookup?_of_idOf? (hf : e.forest.Consistent) (h : e.forest.Accounted) {id : Nat}
    (hid : e.forest.idOf? name = some id) : e.printer.directory.lookup? name = some target ↔
      target ∈ e.forest.places ∧ target.tree.kind.isType = true ∧ target.tree.longname = name := by
  have hfind : e.printer.directory.lookup? name =
      e.forest.places.find? fun p => p.tree.id == id && p.tree.kind.isType := by
    have hlookup : e.printer.directory.index.lookup name = some id := hid
    rw [Directory.lookup?, hlookup]
    rfl
  rw [hfind]
  constructor
  · intro hfound
    have htest := find?_some hfound
    have hplace := mem_of_find?_eq_some hfound
    simp only [Bool.and_eq_true, beq_iff_eq] at htest
    have hwalk := tree_mem_walk hplace
    exact ⟨hplace, htest.2, Forest.longname_of_idOf? hf h hwalk (by rw [hid, htest.1])⟩
  · rintro ⟨hplace, htype, hlongname⟩
    have hindexed := hf.indexed _ (mem_nodes_of_isType hf.root_symbol hplace htype)
    rw [hlongname, hid, Option.some.injEq] at hindexed
    cases hfound : e.forest.places.find? fun p => p.tree.id == id && p.tree.kind.isType with
    | none =>
      have htest := find?_eq_none.mp hfound target hplace
      simp [hindexed, htype] at htest
    | some q =>
      have htest := find?_some hfound
      simp only [Bool.and_eq_true, beq_iff_eq] at htest
      have hnumber := Forest.place?_eq_some hf.ids_nodup (mem_of_find?_eq_some hfound)
      rw [htest.1, hindexed, Forest.place?_eq_some hf.ids_nodup hplace] at hnumber
      exact hnumber.symm

/-- A name that the index does not know leads to the only type of that simple name. -/
lemma lookup?_of_unknown (hf : e.forest.root.ids.Nodup) (hid : e.forest.idOf? name = none) :
    e.printer.directory.lookup? name = some target ↔ Longname.isModule name = false ∧
      target ∈ e.forest.places ∧ target.tree.kind.isType = true ∧ target.tree.name = name ∧
        ∀ q ∈ e.forest.places, q.tree.kind.isType = true → q.tree.name = name → q = target := by
  have hindex : e.printer.directory.index.lookup name = none := hid
  rw [← named_eq_singleton_iff hf, Directory.lookup?, hindex]
  cases Longname.isModule name with
  | true => simp
  | false =>
    rcases e.printer.directory.named name with _ | ⟨p, _ | ⟨q, rest⟩⟩ <;> simp

/-- **The search finds what the name refers to, unless it refers by a simple name that something
else has as its longname.** -/
lemma lookup?_eq_some_iff (hf : e.forest.Consistent) (h : e.forest.Accounted) :
    e.printer.directory.lookup? name = some target ↔
      e.forest.Refers name target ∧ (target.tree.longname = name ∨ ¬ e.forest.Has name) := by
  rw [← Forest.idOf?_eq_none_iff hf h]
  cases hid : e.forest.idOf? name with
  | some id =>
    rw [lookup?_of_idOf? hf h hid]
    constructor
    · rintro ⟨hplace, htype, hlongname⟩
      exact ⟨.longname hplace htype hlongname, .inl hlongname⟩
    · rintro ⟨hrefers, hlongname | hnone⟩
      · cases hrefers with
        | longname hplace htype _ => exact ⟨hplace, htype, hlongname⟩
        | simpleName hplace htype => exact ⟨hplace, htype, hlongname⟩
      · simp at hnone
  | none =>
    have hunknown : ∀ q ∈ e.forest.places, q.tree.kind.isType = true → q.tree.longname ≠ name := by
      rintro q hq htype rfl
      simp [hf.indexed _ (mem_nodes_of_isType hf.root_symbol hq htype)] at hid
    rw [lookup?_of_unknown hf.ids_nodup hid]
    constructor
    · rintro ⟨hmodule, hplace, htype, hname, honly⟩
      exact ⟨.simpleName hplace htype hunknown hmodule hname honly, .inr rfl⟩
    · rintro ⟨hrefers, _⟩
      cases hrefers with
      | longname hplace htype hlongname => exact absurd hlongname (hunknown target hplace htype)
      | simpleName hplace htype _ hmodule hname honly =>
        exact ⟨hmodule, hplace, htype, hname, honly⟩

/-- **What a name is resolved to.** A name that is no primitive type and no type parameter leads to
what it refers to, by its longname always and by its simple name exactly if nothing that is no type
of the tree has the name as its longname. Where it leads nowhere it has to be a known type. -/
theorem resolve_eq_some_iff_refers {filter : Option DocletFilter} {doclets : List Doclet}
    (hforest : (symbolForest filter doclets).result = .ok e.forest) (owner : Place)
    {typeParams : List String} (hprimitive : name ∉ primitiveNames)
    (hparams : name ∉ typeParams) :
    let dir := e.printer.directory
    let reaches := fun target => e.forest.Refers name target ∧
      (target.tree.longname = name ∨ ¬ e.forest.Has name)
    (∀ target, dir.lookup? name = some target ↔ reaches target) ∧
      ∀ text, dir.resolve owner typeParams name = some text ↔
        (∃ target, reaches target ∧ text = dir.qualified target owner) ∨
          (∀ target, ¬ reaches target) ∧ name ∈ e.settings.knownTypes ∧ text = name := by
  intro dir reaches
  have hlookup : ∀ target, dir.lookup? name = some target ↔ reaches target := fun target =>
    lookup?_eq_some_iff (consistent_symbolForest hforest) (accounted_symbolForest hforest)
  refine ⟨hlookup, fun text => ?_⟩
  simp only [← hlookup]
  cases hfound : dir.lookup? name with
  | some target =>
    rw [resolve_of_lookup? hprimitive hparams hfound]
    simp [eq_comm]
  | none =>
    have hresolve : dir.resolve owner typeParams name =
        if e.settings.knownTypes.contains name then some name else none := by
      rw [Directory.resolve, if_neg (by simp [hprimitive, hparams]), hfound]
      rfl
    rw [hresolve]
    simp [eq_comm]

/-- The symbols of a forest as a search by simple name sees them: the types that have the name, the
longnames of all types, and the longnames of everything. -/
def Forest.sighted (f : Forest) (name : String) : List String × List String × List String :=
  let types := f.places.filter fun q => q.tree.kind.isType
  ((types.filter fun q => q.tree.name == name).map fun q => q.tree.longname,
    types.map fun q => q.tree.longname,
    f.nodes.map SymbolTree.longname ++ f.strays.map fun s => s.symbol.longname)

lemma refers_of_sighted {longname : String} {types all : List String}
    (hsighted : f.sighted name = ([longname], types, all)) (htypes : name ∉ types)
    (hmodule : Longname.isModule name = false) :
    ∃ target, f.Refers name target ∧ target.tree.longname = longname ∧
      (f.Has name ↔ name ∈ all) := by
  simp only [Forest.sighted, Prod.mk.injEq, map_eq_singleton_iff] at hsighted
  obtain ⟨⟨target, htarget, hlongname⟩, rfl, rfl⟩ := hsighted
  have hmem : ∀ q, q ∈ f.places → q.tree.kind.isType = true →
      q.tree.name = name → q ∈ [target] := by
    intro q hq htype hname
    rw [← htarget]
    simp [hq, htype, hname]
  have hone : target ∈ [target] := mem_singleton.mpr rfl
  rw [← htarget, mem_filter, mem_filter, beq_iff_eq] at hone
  refine ⟨target, .simpleName hone.1.1 hone.1.2 ?_ hmodule hone.2 ?_, hlongname, ?_⟩
  · rintro q hq htype rfl
    exact htypes (mem_map_of_mem (mem_filter.mpr ⟨hq, htype⟩))
  · exact fun q hq htype hname => mem_singleton.mp (hmem q hq htype hname)
  · simp [Forest.Has]

/-- A namespace with a class. -/
def classInNamespace : List Doclet :=
  [.bare "N" none (.container false),
   .bare "N.T" (some "N") (.classLike ⟨.classForm, [], [], [], [], none, true, false⟩)]

theorem resolve_eq_some_classInNamespace :
    ∃ f, (symbolForest none classInNamespace).result = .ok f ∧
    ∃ target, f.Refers "T" target ∧ ¬ f.Has "T" ∧
      (Emitter.named .standard f).printer.directory.lookup? "T" = some target ∧
        (Emitter.named .standard f).printer.directory.resolve f.top [] "T" = some "N.T" := by
  have hrun : ((symbolForest none classInNamespace).result.toOption.map fun f =>
      (f.sighted "T", (Emitter.named .standard f).printer.directory.resolve f.top [] "T")) =
        some ((["N.T"], ["N.T"], ["N", "N.T"]), some "N.T") := by
    decide +kernel
  obtain ⟨f, hforest, hrow⟩ := Run.toOption_map.mp hrun
  obtain ⟨hsighted, hresolve⟩ := Prod.mk.inj hrow
  obtain ⟨target, hrefers, _, hhas⟩ := refers_of_sighted hsighted (by decide) (by decide)
  have hunknown : ¬ f.Has "T" := mt hhas.mp (by decide)
  obtain ⟨hlookup, _⟩ := resolve_eq_some_iff_refers (e := Emitter.named .standard f) hforest f.top
    (by decide : "T" ∉ primitiveNames) (not_mem_nil : "T" ∉ [])
  exact ⟨f, hforest, target, hrefers, hunknown, (hlookup target).mpr ⟨hrefers, .inr hunknown⟩,
    hresolve⟩

/-- A function, and a class of the same name in a namespace. -/
def functionOfSameName : List Doclet :=
  .bare "T" none (.callable [] []) :: classInNamespace

/-- The class is the only type of its name, and is not found because the function has the
longname. -/
theorem hidden_functionOfSameName : ∃ f, (symbolForest none functionOfSameName).result = .ok f ∧
    ∃ target, f.Refers "T" target ∧ target.tree.longname = "N.T" ∧
      (Emitter.named .standard f).printer.directory.lookup? "T" = none ∧
        (Emitter.named .standard f).printer.directory.resolve f.top [] "T" = none := by
  have hrun : ((symbolForest none functionOfSameName).result.toOption.map fun f =>
      let dir := (Emitter.named .standard f).printer.directory
      (f.sighted "T", (dir.lookup? "T").isNone, dir.resolve f.top [] "T")) =
        some ((["N.T"], ["N.T"], ["T", "N", "N.T"]), true, none) := by
    decide +kernel
  obtain ⟨f, hforest, hrow⟩ := Run.toOption_map.mp hrun
  simp only [Prod.mk.injEq] at hrow
  obtain ⟨hsighted, hlookup, hresolve⟩ := hrow
  obtain ⟨target, hrefers, hlongname, _⟩ := refers_of_sighted hsighted (by decide) (by decide)
  exact ⟨f, hforest, target, hrefers, hlongname, Option.isNone_iff_eq_none.mp hlookup, hresolve⟩

end References

end AmbientDecl

import AmbientDecl.Proofs.Declaration.Binding
import AmbientDecl.Proofs.Declaration.ReferenceText
import AmbientDecl.Proofs.Forest.Hoisting
import AmbientDecl.Proofs.Forest.Signatures

/-!
# Types of described properties in their typedefs

A described property is documented with a signature, but its type is printed in a typedef that
stands beside the owner of the signature.

**Documented types.** The types of parameters are read, so all names in them are names of types
(`over_of_mem_params`).

**Rebuilt places.** `Place.rebuilt` is a place after expansion. The typedef of a group stands in the
nearest container around the owner, in the same module and with fewer type parameters in scope
(`exists_beside`).

**The result.** A type is printed in the typedef as in the signature exactly if its type parameters
are (`showType_hoisted_iff`).
-/

namespace AmbientDecl

open Text Expander Expansion List SymbolTree Parameter

section Documented

variable {s : Symbol} {doclets : List Doclet} {sig : Signature} {x : Parameter}

lemma Symbol.DocumentedBy.read (h : s.DocumentedBy doclets) (hsig : sig ∈ s.signatures) :
    ∃ d ∈ signing s.kind doclets, Signature.read d s.kind = sig := by
  have hread := h.signatures
  simp only [result_ofDoclet, Except.ok.injEq] at hread
  rw [← forall₂_map_left_iff (f := (Signature.read · s.kind)), forall₂_eq_eq_eq] at hread
  rw [← hread] at hsig
  exact mem_map.mp hsig

/-- A container has no signatures. -/
lemma Symbol.DocumentedBy.isContainer (h : s.DocumentedBy doclets) (hsig : sig ∈ s.signatures) :
    s.kind.isContainer = false := by
  obtain ⟨d, hd, _⟩ := h.read hsig
  cases hkind : s.kind <;> simp_all [signing, SymbolKind.isContainer]

lemma over_of_mem_readFrom {params : List Doclet.Param} : ∀ {position : Nat},
    x ∈ Parameter.readFrom position params → x.type.Over IsTypeName := by
  induction params with
  | nil => simp [readFrom]
  | cons p rest ih =>
    intro position h
    rcases mem_cons.mp h with rfl | h
    · exact over_readType _
    · exact ih h

/-- **All names in the types of documented parameters are names of types.** -/
lemma over_of_mem_params (h : s.DocumentedBy doclets) (hsig : sig ∈ s.signatures)
    (hx : x ∈ sig.params) :
    x.type.Over IsTypeName := by
  obtain ⟨d, _, rfl⟩ := h.read hsig
  exact over_of_mem_readFrom hx

lemma over_spec (h : x.type.Over IsTypeName) : x.spec.type.Over IsTypeName := by
  unfold spec
  dsimp only
  split
  · exact TypeNode.over_unionOf (by simp [h, TypeNode.over_null])
  · exact h

end Documented

/-- A place after expansion. -/
def Place.rebuilt (plan : Nat → ExpandedSymbol) (q : Place) : Place :=
  ⟨q.tree.rebuilt plan, q.ancestors.map (SymbolTree.rebuilt plan)⟩

section Rebuilt

variable {plan : Nat → ExpandedSymbol} {t m : SymbolTree} {p : Place}

lemma rebuilt_child (plan : Nat → ExpandedSymbol) (q : Place) (c : SymbolTree) :
    (q.child c).rebuilt plan = (q.rebuilt plan).child (c.rebuilt plan) := rfl

lemma rebuilt_mem_children (plan : Nat → ExpandedSymbol) {c : SymbolTree} (hc : c ∈ t.children) :
    c.rebuilt plan ∈ (t.rebuilt plan).children := by
  rw [children_rebuilt]
  split
  · exact mem_flatMap.mpr ⟨c, hc, mem_cons_self⟩
  · exact mem_map_of_mem hc

lemma rebuilt_mem_places (plan : Nat → ExpandedSymbol) (hp : p ∈ placesIn [] t) :
    p.rebuilt plan ∈ placesIn [] (t.rebuilt plan) := by
  refine places_induct (P := fun p => p.rebuilt plan ∈ placesIn [] (t.rebuilt plan)) ?_ ?_ p hp
  · exact mem_placesIn_top [] _
  · intro q _ ih c hc
    exact mem_placesIn_child ih (rebuilt_mem_children plan hc)

lemma Planned.kind_rebuilt {ancestors : List SymbolTree} (h : Planned plan ancestors t)
    (hp : p ∈ placesIn ancestors t) : (p.tree.rebuilt plan).kind = p.tree.kind := by
  rw [SymbolTree.kind, symbol_rebuilt]
  exact (h.outcome p hp).kind

/-- What leaves a symbol comes to the nearest container around it, which is in the same module. -/
lemma Planned.exists_beside {f : Forest} (hroot : f.root.symbol = Symbol.root)
    (h : Planned plan [] f.root) :
    ∀ p ∈ f.places, p.tree.kind.isContainer = false → ∀ m ∈ p.tree.hoisted fun i => (plan i).made,
      ∃ k ∈ f.places, (k.rebuilt plan).lineage =
          (p.rebuilt plan).ancestors.dropWhile (fun t => !t.kind.isContainer) ∧
        m ∈ (k.tree.rebuilt plan).children ∧
        (m.kind.isContainer = false → ((k.rebuilt plan).child m).module? =
          (p.rebuilt plan).module?) := by
  have hplain : ∀ {kind : SymbolKind}, kind.isContainer = false → kind ≠ .root ∧
      kind ≠ .moduleDecl := by
    intro kind hkind
    cases kind <;> simp_all [SymbolKind.isContainer]
  refine places_induct ?_ ?_
  · intro hkind
    rw [SymbolTree.kind, hroot] at hkind
    cases hkind
  · intro q hq ih c hc hkind m hm
    have hckind : (c.rebuilt plan).kind = c.kind := h.kind_rebuilt (mem_placesIn_child hq hc)
    have hqkind : (q.rebuilt plan).tree.kind = q.tree.kind := h.kind_rebuilt hq
    obtain ⟨hcroot, hcmodule⟩ := hplain hkind
    rw [rebuilt_child]
    cases hcontainer : q.tree.kind.isContainer with
    | true =>
      refine ⟨q, hq, ?_, hoisted_mem_children hcontainer hc hm, ?_⟩
      · rw [Place.child, Place.lineage, dropWhile_cons_of_neg (by simp [hqkind, hcontainer])]
      intro hmkind
      obtain ⟨hmroot, hmmodule⟩ := hplain hmkind
      by_cases htop : q.tree.kind = .root
      · rw [module?_top (hqkind.trans htop) hmroot,
          module?_top (hqkind.trans htop) (hckind ▸ hcroot), if_neg hmmodule,
            if_neg (hckind ▸ hcmodule)]
      · rw [module?_child (hqkind ▸ htop) hmroot, module?_child (hqkind ▸ htop) (hckind ▸ hcroot)]
    | false =>
      have hleaves : m ∈ q.tree.hoisted fun i => (plan i).made := by
        rw [hoisted_eq, if_neg (by simp [hcontainer])]
        exact mem_append_right _ (mem_flatMap.mpr ⟨c, hc, hm⟩)
      obtain ⟨k, hk, hlineage, hmem, hmodule⟩ := ih hcontainer m hleaves
      refine ⟨k, hk, ?_, hmem, fun hmkind => ?_⟩
      · rw [hlineage, Place.child, Place.lineage,
          dropWhile_cons_of_pos (by simp [hqkind, hcontainer])]
      rw [hmodule hmkind, module?_child (hqkind ▸ (hplain hcontainer).1) (hckind ▸ hcroot)]

end Rebuilt

/-- Described properties of the parameter `root` of a signature come to a typedef: `owner` is where
the documented symbol is in the later forest, `s'` is the signature there, and its parameter refers
to the typedef. -/
structure ComesTo (documented : Place) (s : Signature) (root : String)
    (after : Forest) (owner : Place)
    (s' : Signature) (typedef : Place) : Prop where
  owner_mem : owner ∈ after.places
  owner_id : owner.tree.id = documented.tree.id
  signature_mem : s' ∈ owner.symbol.signatures
  signature_kept : s' = { s with params := s'.params }
  typedef_mem : typedef ∈ after.places
  synthesized : typedef.symbol.synthesized = true
  /-- The typedef has no type parameters of its own. -/
  typeParameters : typedef.symbol.typeParameters = []
  /-- The typedef is in the nearest container around the owner. -/
  beside : typedef.ancestors = owner.ancestors.dropWhile fun t => !t.kind.isContainer
  sameModule : typedef.module? = owner.module?
  record : typedef.symbol.type =
    some (.record (recordAt (s.params.filter Parameter.isProperty) [root]))
  refers : ∃ q ∈ s'.params, StandsFor s.params root typedef.symbol.longname q

section Result

variable {s : Signature} {x : Parameter} {root : String}

/-- Each group of described properties has a typedef and a parameter that refers to it. -/
lemma ExpandsSignatures.exists_typedef {container : String} {befores afters : List Signature}
    {made : List SymbolTree} (h : ExpandsSignatures container befores afters made)
    (hs : s ∈ befores)
    (hroot : root ∈ propertyRoots s.params) : ∃ s' ∈ afters, s' = { s with params := s'.params } ∧
      ∃ t ∈ made, IsTypedef container
        (.record (recordAt (s.params.filter Parameter.isProperty) [root])) t ∧
        ∃ q ∈ s'.params, StandsFor s.params root t.longname q := by
  induction h with
  | nil => cases hs
  | @cons before after typedef parameter rest rest' made first others ih =>
    rcases mem_cons.mp hs with rfl | hs
    · have hparameter : parameter root ∈ after := by
        refine (mem_filter.mp (?_ : parameter root ∈ after.filter fun p => p.name == root)).1
        rw [first.once root hroot]
        exact mem_singleton_self _
      exact ⟨_, mem_cons_self, rfl, typedef root, mem_append_left _ (mem_map_of_mem hroot),
        first.typedef root hroot, _, hparameter, first.stands root hroot⟩
    · obtain ⟨s', hs', hkept, t, ht, hrest⟩ := ih hs
      exact ⟨s', mem_cons_of_mem _ hs', hkept, t, mem_append_right _ ht, hrest⟩

lemma typeParameterNames_subset {owner typedef : Place}
    (h : typedef.ancestors = owner.ancestors.dropWhile fun t => !t.kind.isContainer)
    (hnone : typedef.symbol.typeParameters = []) :
    typedef.typeParameterNames ⊆ owner.typeParameterNames := by
  intro name hname
  obtain ⟨t, ht, hname⟩ := mem_flatMap.mp hname
  rcases mem_cons.mp ht with rfl | ht
  · rw [show typedef.tree.symbol.typeParameters = [] from hnone] at hname
    simp at hname
  · exact mem_flatMap.mpr ⟨t, mem_cons_of_mem _ ((dropWhile_suffix _).subset (h ▸ ht)), hname⟩

/-- A described property without properties of its own is a field of its type. -/
lemma exists_field_of_lastAt {props : List Parameter}
    (hleaf : ∀ q ∈ props, ¬ q.GoesOn x.propertyNames)
    (hlast : lastAt props x.propertyNames = some x) : ∃ path field, field ∈ recordAt props path ∧
      path ++ [field.name] = x.propertyNames ∧ field.type = x.spec.type := by
  have hx : x ∈ props := mem_reverse.mp (mem_of_find?_eq_some hlast)
  have hsplit := dropLast_append_getLast x.propertyNames_ne_nil
  have hname : x.propertyNames.getLast x.propertyNames_ne_nil ∈
      (recordAt props x.propertyNames.dropLast).map RecordField.name := by
    rw [name_recordAt, mem_namesAfter]
    exact ⟨x, hx, by rw [hsplit]⟩
  obtain ⟨field, hfield, hname⟩ := mem_map.mp hname
  have hpath : x.propertyNames.dropLast ++ [field.name] = x.propertyNames := by rw [hname, hsplit]
  obtain ⟨base, htype, hbase, _⟩ := (describedField_recordAt hfield).type
  rw [hpath] at htype hbase
  obtain ⟨y, hy, rfl⟩ := hbase hleaf
  obtain rfl : x = y := Option.some.inj (hlast.symm.trans hy)
  refine ⟨_, field, hfield, hpath, ?_⟩
  rw [htype, hlast]
  rfl

/-- **The described properties of a parameter come to a typedef beside their owner.** -/
lemma exists_comesTo {filter : Option DocletFilter} {doclets : List Doclet}
    {built merged f : Forest}
    (hbuilt : (buildForest filter doclets).result = .ok built)
    (hmerged : (mergeOverloads built).result = .ok merged)
    (hforest : (expandForest merged).result = .ok f)
    {documented : Place} (hdocumented : documented ∈ merged.places)
    (hs : s ∈ documented.symbol.signatures) (hroot : root ∈ propertyRoots s.params) :
    ∃ owner s' typedef, ComesTo documented s root f owner s' typedef := by
  have hf := consistent_mergeOverloads (consistent_buildForest hbuilt) hmerged
  obtain ⟨plan, e', hwalked, hresult⟩ := exists_walked hf
  obtain rfl := Except.ok.inj (hforest.symm.trans hresult)
  have hplanned := hwalked.planned
  have hwalk := tree_mem_walk hdocumented
  have hcontainer := (documentedBy_mergeOverloads hbuilt hmerged _ hwalk).isContainer hs
  obtain ⟨s', hs', hkept, m, hm, hmade, hrefers⟩ :=
    (hplanned.outcome documented hdocumented).signatures.exists_typedef hs hroot
  have hkind : m.kind.isContainer = false := by
    rw [SymbolTree.kind, hmade.symbol]
    rfl
  obtain ⟨k, hk, hlineage, hchild, hmodule⟩ :=
    hplanned.exists_beside hf.root_symbol documented hdocumented
    hcontainer m (mem_hoisted_self (fun i => (plan i).made) hm)
  exact ⟨documented.rebuilt plan, s', (k.rebuilt plan).child m, {
    owner_mem := rebuilt_mem_places plan hdocumented
    owner_id := id_rebuilt plan documented.tree
    signature_mem := by
      rw [Place.symbol, Place.rebuilt, symbol_rebuilt]
      exact hs'
    signature_kept := hkept
    typedef_mem := mem_placesIn_child (rebuilt_mem_places plan hk) hchild
    synthesized := by
      rw [Place.symbol, Place.child, hmade.symbol]
      rfl
    typeParameters := by
      rw [Place.symbol, Place.child, hmade.symbol]
      rfl
    beside := hlineage
    sameModule := hmodule hkind
    record := by
      rw [Place.symbol, Place.child, hmade.symbol]
      rfl
    refers := hrefers }⟩

/-- **A described property is printed in its typedef as in the signature exactly if its type
parameters are.** The typedef has lost the type parameters of the signature and of what is between
the two. The type is that of a field of the typedef, if the property has no properties itself and no
later description of it follows. -/
theorem showType_hoisted_iff {filter : Option DocletFilter} {doclets : List Doclet}
    {built merged f : Forest}
    {settings : Settings} {text : String} (hbuilt : (buildForest filter doclets).result = .ok built)
    (hmerged : (mergeOverloads built).result = .ok merged)
    (hforest : (expandForest merged).result = .ok f)
    (htext : (emitDeclarations settings f).result = .ok text) {documented : Place}
    (hdocumented : documented ∈ merged.places) (hs : s ∈ documented.symbol.signatures)
    (hx : x ∈ s.params)
    (hproperty : x.isProperty = true) :
    let p := (Emitter.named settings f).printer
    ∃ owner s' typedef, ComesTo documented s x.rootName f owner s' typedef ∧
      ((∀ q ∈ s.params, ¬ q.GoesOn x.propertyNames) →
        lastAt (s.params.filter Parameter.isProperty) x.propertyNames = some x →
        ∃ path field, field ∈ recordAt (s.params.filter Parameter.isProperty) path ∧
          path ++ [field.name] = x.propertyNames ∧ field.type = x.spec.type) ∧
      ∀ t, t = x.type ∨ t = x.spec.type → ((p.showType typedef typedef.typeParameterNames t).value =
            (p.showType owner (Origin.scope ⟨owner, some s'⟩) t).value ↔
          ∀ name ∈ usedIn (p.typeMarks owner (Origin.scope ⟨owner, some s'⟩) t),
            (p.directory.scope typedef typedef.typeParameterNames).nameText name = name) := by
  intro p
  have hroot : x.rootName ∈ propertyRoots s.params := mem_propertyRoots.mpr ⟨x, hx, hproperty, rfl⟩
  obtain ⟨owner, s', typedef, hcomes⟩ := exists_comesTo hbuilt hmerged hforest hdocumented hs hroot
  have hconsistent :=
    consistent_symbolForest (result_symbolForest.mpr ⟨built, hbuilt, merged, hmerged, hforest⟩)
  have hprintable := printable_of_check hconsistent (result_emitDeclarations htext).1
  refine ⟨owner, s', typedef, hcomes, ?_, ?_⟩
  · intro hleaf
    exact exists_field_of_lastAt fun q hq => hleaf q (mem_of_mem_filter hq)
  · intro t ht
    have hwalk : documented.tree ∈ merged.root.walk :=
      mem_walk_of_lineage hdocumented _ mem_cons_self
    have hover := over_of_mem_params (documentedBy_mergeOverloads hbuilt hmerged _ hwalk) hs hx
    have hsub : typedef.typeParameterNames ⊆ Origin.scope ⟨owner, some s'⟩ := by
      refine List.Subset.trans ?_ (subset_append_left _ _)
      exact typeParameterNames_subset hcomes.beside hcomes.typeParameters
    have hrescoped := rescoped_scope hprintable hconsistent.ids_nodup settings hcomes.typedef_mem
      hcomes.sameModule hsub
    refine typeText_eq_iff hrescoped ?_
    rcases ht with rfl | rfl
    · exact hover
    · exact over_spec hover

/-- A namespace with a class, and with a function of which a described property has that class as
its type. -/
def describedClass : List Doclet :=
  [.bare "N" none (.container false),
   .bare "N.C" (some "N") (.classLike ⟨.classForm, [], [], [], [], none, true, false⟩),
   .templated (.bare "N.f" (some "N")
    (.callable [⟨some "o.a", some ⟨["N.C"]⟩, none, false, none, false, .null⟩] [])) "T"]

/-- No type parameter is in the type, so it is printed alike in the typedef. -/
theorem showType_hoisted_describedClass : ∃ f documented s x owner s' typedef,
    (symbolForest none describedClass).result = .ok f ∧ s.params = [x] ∧
      ComesTo documented s x.rootName f owner s' typedef ∧
      (∃ path field, field ∈ recordAt [x] path ∧ path ++ [field.name] = x.propertyNames ∧
        field.type = x.spec.type) ∧
      let p := (Emitter.named .standard f).printer
      (p.showType owner (Origin.scope ⟨owner, some s'⟩) x.type).value = "N.C" ∧
      (p.showType typedef typedef.typeParameterNames x.type).value = "N.C" := by
  have hrun : ((buildForest none describedClass).result.toOption.bind fun built =>
      (mergeOverloads built).result.toOption.bind fun merged =>
      (expandForest merged).result.toOption.bind fun f =>
      (emitDeclarations .standard f).result.toOption.bind fun _ =>
      (merged.places.find? fun q => q.tree.longname == "N.f").bind fun documented =>
      documented.symbol.signatures.head?.bind fun s => s.params.head?.map fun x =>
        let p := (Emitter.named .standard f).printer
        (s.params.length, x.isProperty, f.places.all fun q =>
          decide ((p.showType q (Origin.scope ⟨q, some s⟩) x.type).value = "N.C") &&
            (usedIn (p.typeMarks q (Origin.scope ⟨q, some s⟩) x.type)).isEmpty)) =
        some (1, true, true) := by
    decide +kernel
  obtain ⟨built, hbuilt, hrun⟩ := Run.toOption_bind.mp hrun
  obtain ⟨merged, hmerged, hrun⟩ := Run.toOption_bind.mp hrun
  obtain ⟨f, hforest, hrun⟩ := Run.toOption_bind.mp hrun
  obtain ⟨text, htext, hrun⟩ := Run.toOption_bind.mp hrun
  obtain ⟨documented, hdocumented, hrun⟩ := Option.bind_eq_some_iff.mp hrun
  obtain ⟨s, hs, hrun⟩ := Option.bind_eq_some_iff.mp hrun
  obtain ⟨x, hx, hrun⟩ := Option.map_eq_some_iff.mp hrun
  simp only [Prod.mk.injEq, all_eq_true, Bool.and_eq_true, decide_eq_true_eq] at hrun
  obtain ⟨hlength, hproperty, hplaces⟩ := hrun
  have hparams : s.params = [x] := by
    obtain ⟨y, hy⟩ := length_eq_one_iff.mp hlength
    simpa [hy] using hx
  obtain ⟨owner, s', typedef, hcomes, hfield, htypes⟩ := showType_hoisted_iff hbuilt hmerged hforest
    htext (mem_of_find?_eq_some hdocumented) (mem_of_head? hs)
    (mem_of_head? hx) hproperty
  have hprops : s.params.filter isProperty = [x] := by simp [hparams, hproperty]
  have hscope : Origin.scope ⟨owner, some s'⟩ = Origin.scope ⟨owner, some s⟩ := by
    rw [hcomes.signature_kept]
    rfl
  obtain ⟨htext, hused⟩ := hplaces owner hcomes.owner_mem
  have hsame := (htypes x.type (.inl rfl)).mpr (by simp [hscope, List.isEmpty_iff.mp hused])
  rw [hprops] at hfield
  refine ⟨f, documented, s, x, owner, s', typedef,
    result_symbolForest.mpr ⟨built, hbuilt, merged, hmerged, hforest⟩, hparams, hcomes,
      hfield ?_ ?_, ?_, ?_⟩
  · simp [hparams, GoesOn]
  · simp [lastAt]
  · rw [hscope]
    exact htext
  · rw [hsame, hscope]
    exact htext

/-- A function with a type parameter, which is the type of a described property. -/
def describedTypeParameter : List Doclet :=
  [.templated (.bare "f" none
    (.callable [⟨some "o", some ⟨["object"]⟩, none, false, none, false, .null⟩,
    ⟨some "o.a", some ⟨["T"]⟩, none, false, none, false, .null⟩] [])) "T"]

/-- The typedef has no type parameters, so the type is lost there. -/
theorem lost_describedTypeParameter : ∃ built merged f text documented s x owner s' typedef,
    (buildForest none describedTypeParameter).result = .ok built ∧
      (mergeOverloads built).result = .ok merged ∧ (expandForest merged).result = .ok f ∧
      (emitDeclarations .standard f).result = .ok text ∧
      documented ∈ merged.places ∧ s ∈ documented.symbol.signatures ∧ x ∈ s.params ∧
      x.isProperty = true ∧ (∀ q ∈ s.params, ¬ q.GoesOn x.propertyNames) ∧
      ComesTo documented s x.rootName f owner s' typedef ∧
      let p := (Emitter.named .standard f).printer
      (p.showType owner (Origin.scope ⟨owner, some s'⟩) x.type).value = "T" ∧
      (p.showType typedef typedef.typeParameterNames x.type).value = "any" := by
  have hrun : ((buildForest none describedTypeParameter).result.toOption.bind fun built =>
      (mergeOverloads built).result.toOption.bind fun merged =>
      (expandForest merged).result.toOption.bind fun f =>
      (emitDeclarations .standard f).result.toOption.bind fun _ =>
      (merged.places.find? fun q => q.tree.longname == "f").bind fun documented =>
      documented.symbol.signatures.head?.bind fun s => (s.params.find? isProperty).map fun x =>
        let p := (Emitter.named .standard f).printer
        (s.params.all fun q =>
            decide (x.propertyNames <+: q.propertyNames → q.propertyNames = x.propertyNames),
          f.places.all fun q => decide ((p.showType q (Origin.scope ⟨q, some s⟩) x.type).value =
            "T"),
          f.places.all fun q => decide (q.symbol.synthesized = true →
            (p.showType q q.typeParameterNames x.type).value = "any"))) =
                some (true, true, true) := by
    decide +kernel
  obtain ⟨built, hbuilt, hrun⟩ := Run.toOption_bind.mp hrun
  obtain ⟨merged, hmerged, hrun⟩ := Run.toOption_bind.mp hrun
  obtain ⟨f, hforest, hrun⟩ := Run.toOption_bind.mp hrun
  obtain ⟨text, htext, hrun⟩ := Run.toOption_bind.mp hrun
  obtain ⟨documented, hdocumented, hrun⟩ := Option.bind_eq_some_iff.mp hrun
  obtain ⟨s, hs, hrun⟩ := Option.bind_eq_some_iff.mp hrun
  obtain ⟨x, hx, hrun⟩ := Option.map_eq_some_iff.mp hrun
  simp only [Prod.mk.injEq, all_eq_true, decide_eq_true_eq] at hrun
  obtain ⟨hleaf, hinner, houter⟩ := hrun
  have hdocumented := mem_of_find?_eq_some hdocumented
  have hs := mem_of_head? hs
  have hproperty := find?_some hx
  have hx := mem_of_find?_eq_some hx
  obtain ⟨owner, s', typedef, hcomes⟩ := exists_comesTo hbuilt hmerged hforest hdocumented hs
    (mem_propertyRoots.mpr ⟨x, hx, hproperty, rfl⟩)
  have hscope : Origin.scope ⟨owner, some s'⟩ = Origin.scope ⟨owner, some s⟩ := by
    rw [hcomes.signature_kept]
    rfl
  refine ⟨built, merged, f, text, documented, s, x, owner, s', typedef, hbuilt, hmerged, hforest,
    htext, hdocumented, hs, hx, hproperty, ?_, hcomes, ?_, ?_⟩
  · rintro q hq ⟨hstarts, hne⟩
    exact hne (hleaf q hq hstarts)
  · rw [hscope]
    exact hinner owner hcomes.owner_mem
  · exact houter typedef hcomes.typedef_mem hcomes.synthesized

end Result

end AmbientDecl

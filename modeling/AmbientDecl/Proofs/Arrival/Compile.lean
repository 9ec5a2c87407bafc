import AmbientDecl.Proofs.Arrival.Forest
import AmbientDecl.Proofs.Declaration.Name

/-!
# Arrival order does not matter

A reference is printed with names, and numbers only tell symbols apart.

**Places.** `Place.rename` gives every symbol of a place another number. Where a symbol stands, what
is in scope there and what is declared in which block does not depend on numbers.

**Names.** The names of declarations are chosen scope by scope, so renamed symbols get the same
names (`allNameChoices_rename`).

**Directories.** `Directory.Renamed` is a directory with other numbers. It finds the same types
(`lookup?_rename`), prints the same way to them (`qualified_rename`) and so gives the same text for
every name (`resolve_rename`).

A printer asks its directory for names and reads everything else from symbols, so with a renamed
directory it prints a renamed place alike. `Printer.Renamed` are two such printers; the lemmas
follow the printer from types (`showType_rename`) over the kinds of declarations (`ownDocs_rename`)
to whole trees (`declaration_rename`).

The text of a renamed forest is the same, and so is everything that is noted on the way
(`emitDeclarations_renamed`).

Doclets are compiled in the order in which they arrive. Below one parent that order shows in the
text, and so does the order of several doclets of one longname. Any other order does not: doclets
that are rearranged across parents are compiled to the same text, with the same diagnostics in some
order (`compileDoclets_rearranged`).

The stages are compared one by one. After the first the two runs have the same forest but for the
numbers of its symbols, and nothing that comes later looks at numbers other than to tell symbols
apart.
-/

namespace AmbientDecl

open List SymbolTree Emitter

variable {σ : Nat → Nat}

def Place.rename (σ : Nat → Nat) (q : Place) : Place :=
  ⟨q.tree.rename σ, q.ancestors.map (SymbolTree.rename σ)⟩

namespace Place

@[simp] lemma tree_rename (q : Place) : (q.rename σ).tree = q.tree.rename σ := rfl

@[simp] lemma symbol_rename (q : Place) : (q.rename σ).symbol = q.symbol := by
  rw [symbol, tree_rename, SymbolTree.symbol_rename]
  rfl

lemma lineage_rename (q : Place) : (q.rename σ).lineage = q.lineage.map (SymbolTree.rename σ) := rfl

lemma child_rename (q : Place) (t : SymbolTree) :
    (q.rename σ).child (t.rename σ) = (q.child t).rename σ := rfl

lemma path_rename (q : Place) : (q.rename σ).path = q.path.map (SymbolTree.rename σ) := by
  rw [path, path, lineage_rename, takeWhile_map, map_reverse]
  simp only [Function.comp_def, kind_rename]

lemma module?_rename (q : Place) : (q.rename σ).module? = q.module?.map (SymbolTree.rename σ) := by
  rw [module?, module?, path_rename, head?_map]
  cases q.path.head? with
  | none => rfl
  | some t => by_cases ht : t.kind = .moduleDecl <;> simp [Option.filter, ht]

@[simp] lemma typeParameterNames_rename (q : Place) :
    (q.rename σ).typeParameterNames = q.typeParameterNames := by
  simp only [typeParameterNames, lineage_rename, flatMap_map, SymbolTree.symbol_rename]

end Place

lemma placesIn_rename (t : SymbolTree) : ∀ ancestors : List SymbolTree,
    placesIn (ancestors.map (SymbolTree.rename σ)) (t.rename σ)
      = (placesIn ancestors t).map (Place.rename σ) := by
  induction t using induct with
  | node i s cs ih =>
    intro ancestors
    rw [rename_node, placesIn, placesIn, placesInAll_eq, placesInAll_eq,
      ← rename_node, map_cons, flatMap_map, map_flatMap]
    congr 1
    exact flatMap_congr fun c hc => ih c hc (.node i s cs :: ancestors)

namespace SymbolTree

@[simp] lemma isInlineIn_rename (parent t : SymbolTree) :
    (parent.rename σ).isInlineIn (t.rename σ) = parent.isInlineIn t := by
  simp only [isInlineIn, kind_rename, symbol_rename]

@[simp] lemma isTopModuleIn_rename (parent t : SymbolTree) :
    (parent.rename σ).isTopModuleIn (t.rename σ) = parent.isTopModuleIn t := by
  simp only [isTopModuleIn, kind_rename]

@[simp] lemma isNamespaceIn_rename (parent t : SymbolTree) :
    (parent.rename σ).isNamespaceIn (t.rename σ) = parent.isNamespaceIn t := by
  simp only [isNamespaceIn, kind_rename, isInlineIn_rename, children_rename, isEmpty_map]

lemma companions_rename (t : SymbolTree) :
    (t.rename σ).companions = t.companions.map (rename σ) := by
  rw [companions, companions, children_rename, filter_map]
  simp only [Function.comp_def, isInlineIn_rename, children_rename, isEmpty_map]

end SymbolTree

def NameChoice.rename (σ : Nat → Nat) (c : NameChoice) : NameChoice := { c with id := σ c.id }

lemma claimsName_rename (parent t : SymbolTree) :
    claimsName (parent.rename σ) (t.rename σ) = claimsName parent t := by
  simp only [claimsName, isTopModuleIn_rename, isNamespaceIn_rename]

lemma nameChoice_rename (parent : SymbolTree) (taken : List String) (t : SymbolTree) :
    nameChoice (parent.rename σ) taken (t.rename σ) = (nameChoice parent taken t).rename σ := by
  have hunusable : isUnusable (parent.rename σ) taken (t.rename σ) = isUnusable parent taken t := by
    funext name
    simp only [isUnusable, claimsName_rename, kind_rename]
  simp only [nameChoice, declaredName, nameReason, hunusable, claimsName_rename,
    isTopModuleIn_rename, kind_rename, name_rename,
    SymbolTree.symbol_rename, id_rename]
  split <;> rfl

lemma nameChoices_rename (parent : SymbolTree) (cs : List SymbolTree) : ∀ taken,
    nameChoices (parent.rename σ) taken (cs.map (SymbolTree.rename σ))
      = (nameChoices parent taken cs).map (NameChoice.rename σ) := by
  induction cs with
  | nil => intro taken; rfl
  | cons t rest ih =>
    intro taken
    simp only [map_cons, nameChoices, nameChoice_rename, claimsName_rename, ih]
    rfl

/-- **Renamed symbols are declared under the same names.** -/
lemma allNameChoices_rename (root : SymbolTree) :
    allNameChoices (root.rename σ) = (allNameChoices root).map (NameChoice.rename σ) := by
  rw [allNameChoices, allNameChoices, walk_rename, flatMap_map, map_flatMap]
  refine flatMap_congr fun t _ => ?_
  rw [companions_rename, nameChoices_rename]

/-- The same directory with other numbers; the index may have another order. -/
structure Directory.Renamed (σ : Nat → Nat) (dir dir' : Directory) : Prop where
  injective : Function.Injective σ
  lookup : ∀ name, dir'.index.lookup name = (dir.index.lookup name).map σ
  places : dir'.places = dir.places.map (Place.rename σ)
  names : dir'.names = dir.names.map fun e => (σ e.1, e.2)
  knownTypes : dir'.knownTypes = dir.knownTypes
  policy : dir'.policy = dir.policy

/-- What is found by a number is found by the other number. -/
lemma lookup_map_rename (hσ : Function.Injective σ) (id : Nat) (names : List (Nat × String)) :
    (names.map fun e => (σ e.1, e.2)).lookup (σ id) = names.lookup id := by
  induction names with
  | nil => rfl
  | cons e rest ih =>
    obtain ⟨id', name⟩ := e
    rw [map_cons, lookup_cons, lookup_cons, ih, hσ.beq_eq]

namespace Directory

variable {dir dir' : Directory} (h : Renamed σ dir dir')

include h

lemma nameOf_rename (t : SymbolTree) : dir'.nameOf (t.rename σ) = dir.nameOf t := by
  rw [nameOf, nameOf, h.names, id_rename, lookup_map_rename h.injective, name_rename]

lemma named_rename (name : String) : dir'.named name = (dir.named name).map (Place.rename σ) := by
  rw [named, named, h.places, filter_map]
  simp only [Function.comp_def, Place.tree_rename, kind_rename, name_rename]

/-- **A name refers to the same type.** -/
lemma lookup?_rename (name : String) :
    dir'.lookup? name = (dir.lookup? name).map (Place.rename σ) := by
  rw [lookup?, lookup?, h.lookup, named_rename h]
  cases dir.index.lookup name with
  | some id =>
    simp only [Option.map_some]
    rw [h.places, find?_map]
    simp only [Function.comp_def, Place.tree_rename, id_rename, kind_rename, h.injective.beq_eq]
  | none =>
    simp only [Option.map_none]
    split
    · rfl
    · rcases dir.named name with _ | ⟨p, _ | ⟨p', rest⟩⟩ <;> rfl

/-- **The way to a type is printed alike.** -/
lemma qualified_rename (target owner : Place) :
    dir'.qualified (target.rename σ) (owner.rename σ) = dir.qualified target owner := by
  have hnames : ∀ ts : List SymbolTree, (ts.map (SymbolTree.rename σ)).map dir'.nameOf
      = ts.map dir.nameOf := by
    intro ts
    rw [map_map]
    exact map_congr_left fun t _ => nameOf_rename h t
  rw [qualified, qualified, Place.path_rename, Place.module?_rename]
  cases target.path with
  | nil => rfl
  | cons top rest =>
    have hmodule : ((owner.module?.map (SymbolTree.rename σ)).map SymbolTree.id
        = some (top.rename σ).id) = (owner.module?.map SymbolTree.id = some top.id) := by
      cases owner.module? with
      | none => simp
      | some t => simp [h.injective.eq_iff]
    simp only [map_cons, kind_rename, name_rename, hmodule, hnames, nameOf_rename h]

lemma resolve_rename (owner : Place) (typeParams : List String) (name : String) :
    dir'.resolve (owner.rename σ) typeParams name = dir.resolve owner typeParams name := by
  rw [resolve, resolve, lookup?_rename h, h.knownTypes]
  cases dir.lookup? name with
  | none => rfl
  | some target => simp only [Option.map_some, qualified_rename h]

/-- **Every name is printed alike.** -/
lemma scope_rename (owner : Place) : dir'.scope (owner.rename σ) = dir.scope owner := by
  funext typeParams
  rw [scope, scope, h.policy]
  congr 1
  funext name
  exact resolve_rename h owner typeParams name

end Directory

variable {σ : Nat → Nat}

namespace Printer

/-- Two printers that differ in the numbers of their directories. -/
structure Renamed (σ : Nat → Nat) (p p' : Printer) : Prop where
  directory : Directory.Renamed σ p.directory p'.directory
  emitComments : p'.emitComments = p.emitComments

section Renamed

variable {p p' : Printer} (h : Renamed σ p p') (q : Place)

include h

lemma showType_rename : p'.showType (q.rename σ) = p.showType q := by
  funext typeParams t
  simp only [showType, Directory.scope_rename h.directory, h.directory.policy, Place.symbol_rename]

lemma showParams_rename : p'.showParams (q.rename σ) = p.showParams q := by
  have hparam : p'.showParam (q.rename σ) = p.showParam q := by
    funext typeParams param
    simp only [showParam, showType_rename h, Directory.scope_rename h.directory]
  funext typeParams params
  simp only [showParams, hparam]

lemma showSignature_rename : p'.showSignature (q.rename σ) = p.showSignature q := by
  funext typeParams s
  simp only [showSignature, showParams_rename h, showType_rename h]

lemma showAppliedSupertype_rename :
    p'.showAppliedSupertype (q.rename σ) = p.showAppliedSupertype q := by
  have hname : p'.showSupertypeName (q.rename σ) = p.showSupertypeName q := by
    funext written name
    simp only [showSupertypeName, Directory.resolve_rename h.directory, Place.symbol_rename,
      Place.typeParameterNames_rename]
  funext written name args
  simp only [showAppliedSupertype, hname, showType_rename h, Place.typeParameterNames_rename]

lemma showClause_rename : p'.showClause (q.rename σ) = p.showClause q := by
  have hsupertype : p'.showSupertype (q.rename σ) = p.showSupertype q := by
    funext written
    simp only [showSupertype, showAppliedSupertype_rename h, showType_rename h, Place.symbol_rename,
      Place.typeParameterNames_rename]
  funext keyword written
  simp only [showClause, hsupertype]

lemma remarks_rename : p'.remarks = p.remarks := by
  funext r
  simp only [remarks, h.emitComments]

lemma signatureDocs_rename : p'.signatureDocs (q.rename σ) = p.signatureDocs q := by
  funext lead s
  simp only [signatureDocs, showSignature_rename h, remarks_rename h,
    Place.typeParameterNames_rename]

lemma memberDocs_rename (inClass : Bool) :
    p'.memberDocs inClass (q.rename σ) = p.memberDocs inClass q := by
  simp only [memberDocs, signatureDocs_rename h, showType_rename h, remarks_rename h,
    Place.symbol_rename, Place.typeParameterNames_rename]

lemma inlineDocs_rename (inClass : Bool) :
    p'.inlineDocs inClass (q.rename σ) = p.inlineDocs inClass q := by
  simp only [inlineDocs, Place.tree_rename, children_rename, filter_map,
    Function.comp_def, isInlineIn_rename, mapM_map, Place.child_rename,
    memberDocs_rename h]

lemma nameAt_rename : p'.nameAt (q.rename σ) = p.nameAt q :=
  Directory.nameOf_rename h.directory q.tree

lemma genericName_rename : p'.genericName (q.rename σ) = p.genericName q := by
  simp only [genericName, nameAt_rename h, Place.symbol_rename]

lemma classDocs_rename : p'.classDocs (q.rename σ) = p.classDocs q := by
  have hconstructor : p'.constructorDocs (q.rename σ) = p.constructorDocs q := by
    funext s
    simp only [constructorDocs, showParams_rename h, remarks_rename h,
      Place.typeParameterNames_rename]
  funext lead
  simp only [classDocs, hconstructor, showClause_rename h, inlineDocs_rename h,
    genericName_rename h, remarks_rename h, Place.symbol_rename]

lemma interfaceDocs_rename : p'.interfaceDocs (q.rename σ) = p.interfaceDocs q := by
  funext lead
  simp only [interfaceDocs, showClause_rename h, inlineDocs_rename h, genericName_rename h,
    remarks_rename h, Place.symbol_rename]

lemma functionDocs_rename : p'.functionDocs (q.rename σ) = p.functionDocs q := by
  funext lead
  simp only [functionDocs, signatureDocs_rename h, nameAt_rename h, Place.symbol_rename]

lemma variableDocs_rename : p'.variableDocs (q.rename σ) = p.variableDocs q := by
  funext lead
  simp only [variableDocs, showType_rename h, nameAt_rename h, remarks_rename h,
    Place.symbol_rename, Place.typeParameterNames_rename]

lemma enumDocs_rename : p'.enumDocs (q.rename σ) = p.enumDocs q := by
  have hvalue : p'.enumValueDocs = p.enumValueDocs := by
    funext v
    simp only [enumValueDocs, remarks_rename h]
  funext lead
  simp only [enumDocs, hvalue, nameAt_rename h, remarks_rename h, Place.symbol_rename]

lemma typedefDocs_rename : p'.typedefDocs (q.rename σ) = p.typedefDocs q := by
  have hcallback : p'.callbackDocs (q.rename σ) = p.callbackDocs q := by
    funext lead s
    simp only [callbackDocs, showParams_rename h, showType_rename h, genericName_rename h,
      remarks_rename h, Place.typeParameterNames_rename]
  have hcall : p'.callDocs (q.rename σ) = p.callDocs q := by
    funext s
    simp only [callDocs, showSignature_rename h, remarks_rename h, Place.typeParameterNames_rename]
  have hproperty : p'.propertyDocs (q.rename σ) = p.propertyDocs q := by
    funext f
    simp only [propertyDocs, showType_rename h, remarks_rename h, Place.typeParameterNames_rename]
  funext lead
  simp only [typedefDocs, hcallback, hcall, hproperty, showType_rename h, genericName_rename h,
    remarks_rename h, Place.symbol_rename, Place.typeParameterNames_rename]

/-- **A symbol is printed alike.** -/
lemma ownDocs_rename : p'.ownDocs (q.rename σ) = p.ownDocs q := by
  funext lead
  simp only [ownDocs, Place.tree_rename, kind_rename, classDocs_rename h,
    interfaceDocs_rename h, functionDocs_rename h, variableDocs_rename h, typedefDocs_rename h,
    enumDocs_rename h]

end Renamed

lemma declarations_rename {p p' : Printer} {cs : List SymbolTree}
    (hcs : ∀ t ∈ cs, ∀ (q : Place) (lead : String),
      p'.declaration (q.rename σ) lead (t.rename σ) = p.declaration q lead t)
    (q : Place) (lead : String) :
    p'.declarations (q.rename σ) lead (cs.map (SymbolTree.rename σ)) =
      p.declarations q lead cs := by
  induction cs with
  | nil => rfl
  | cons t rest ih =>
    rw [map_cons, declarations, declarations, hcs t mem_cons_self,
      ih fun t ht => hcs t (mem_cons_of_mem _ ht)]

/-- **A tree is printed alike.** -/
lemma declaration_rename {p p' : Printer} (h : Renamed σ p p') (t : SymbolTree) :
    ∀ (q : Place) (lead : String),
      p'.declaration (q.rename σ) lead (t.rename σ) = p.declaration q lead t := by
  induction t using induct with
  | node i s cs ih =>
    intro q lead
    rw [rename_node, declaration, declaration, ← rename_node, Place.child_rename]
    simp only [Place.tree_rename, isTopModuleIn_rename, isInlineIn_rename,
      isNamespaceIn_rename, companions_rename, isEmpty_map,
      nameAt_rename h, remarks_rename h, ownDocs_rename h, declarations_rename ih]

end Printer

section Emission

variable {f g : Forest} (h : Forest.Renamed σ f g)

include h

lemma check_renamed : check g = check f := by
  have hnodes : g.nodes = f.nodes.map (rename σ) := by
    rw [Forest.nodes, h.root, nodes_rename]
    rfl
  have huncallable : isUncallable ∘ rename σ = isUncallable := by
    funext t
    simp only [Function.comp_apply, isUncallable, kind_rename, symbol_rename]
  rw [check, check, hnodes, find?_map, huncallable]
  cases f.nodes.find? isUncallable with
  | some t => simp only [Option.map_some, symbol_rename, longname_rename]
  | none =>
    simp only [Option.map_none, any_map, Function.comp_def, kind_rename]

lemma printer_renamed (settings : Settings) :
    Printer.Renamed σ (named settings f).printer (named settings g).printer where
  directory :=
    { injective := h.injective
      lookup := h.idOf?
      places := by
        have hplaces := placesIn_rename (σ := σ) f.root []
        rw [← h.root, map_nil] at hplaces
        exact hplaces
      names := by
        simp only [named, printer, h.root, allNameChoices_rename, map_map]
        rfl
      knownTypes := rfl
      policy := rfl }
  emitComments := rfl

lemma topLevel_renamed (settings : Settings) :
    (named settings g).topLevel = (named settings f).topLevel := by
  have htop : g.top = f.top.rename σ := by
    rw [Forest.top, h.root]
    rfl
  have hroot : (named settings g).forest.root.children
      = f.root.children.map (rename σ) := by
    rw [← children_rename, ← h.root]
    rfl
  have hdeclaration : (fun t => (named settings g).printer.declaration g.top "declare "
      (rename σ t)) = (named settings f).printer.declaration f.top "declare " := by
    funext t
    rw [htop, Printer.declaration_rename (printer_renamed h settings)]
  rw [topLevel, hroot, mapM_map]
  exact congrArg (fun print => f.root.children.mapM print) hdeclaration

/-- **The text of a renamed forest is the same, and so is what is noted on the way.** -/
lemma emitDeclarations_renamed (settings : Settings) :
    emitDeclarations settings g = emitDeclarations settings f := by
  have hentries : (allNameChoices g.root).filterMap NameChoice.entry?
      = (allNameChoices f.root).filterMap NameChoice.entry? := by
    rw [h.root, allNameChoices_rename, filterMap_map]
    rfl
  have hlength : g.root.children.length = f.root.children.length := by
    rw [h.root, children_rename, length_map]
  have hheight : g.root.height = f.root.height := by
    rw [h.root, height_rename]
  rw [emitDeclarations_eq, emitDeclarations_eq, check_renamed h, hentries, topLevel_renamed h,
    hlength, hheight]

end Emission

/-- The finished forest of rearranged doclets is the same but for its numbers. -/
lemma agree_symbolForest {filter : Option DocletFilter} {l l' : List Doclet}
    (hgroup : Rearranged (Doclet.group (acceptedPackages filter l)) l l')
    (hlongname : Rearranged Doclet.longname l l') :
    (symbolForest filter l).Agree
      (fun f g => ∃ σ, Forest.Renamed σ f g) (symbolForest filter l') := by
  refine (agree_buildForest hgroup hlongname).bind ?_
  rintro f g _ _ ⟨σ, hbuilt⟩
  refine (agree_mergeOverloads hbuilt).bind fun f g _ _ hmerged => ?_
  exact (agree_expandForest hmerged).mono fun _ _ _ _ hexpanded => ⟨σ, hexpanded⟩

/-- The longnames of the packages that are accepted by settings. Where their comparator cannot be
used nothing is compiled, and there are none. -/
def packagesFor (settings : Settings) (comparator : Option VersionComparator)
    (doclets : List Doclet) : List String :=
  match DocletFilter.ofSettings settings comparator with
  | .ok filter => acceptedPackages (some filter) doclets
  | .error _ => []

variable {settings : Settings} {comparator : Option VersionComparator} {l l' : List Doclet}

lemma agree_compileDoclets
    (hgroup : Rearranged (Doclet.group (packagesFor settings comparator l)) l l')
    (hlongname : Rearranged Doclet.longname l l') :
    (compileDoclets settings comparator l).Agree Eq (compileDoclets settings comparator l') := by
  rw [compileDoclets, compileDoclets, compileLoaded, compileLoaded]
  simp only [pure_bind]
  refine Run.Agree.bind (R := fun a b => a.1 = b.1) ?_ fun a b _ _ hab =>
    .success rfl rfl hab (.refl _)
  rw [filterFor]
  rw [packagesFor] at hgroup
  cases hfilter : DocletFilter.ofSettings settings comparator with
  | error e => exact .failure rfl rfl
  | ok filter =>
    rw [hfilter] at hgroup
    simp only [pure_bind]
    refine (agree_symbolForest hgroup hlongname).bind ?_
    rintro f g _ _ ⟨σ, hrenamed⟩
    rw [emitDeclarations_renamed hrenamed]
    exact Run.agree_bind_same fun text _ => Run.agree_pure rfl

/-- A member of the class below and an orphan. -/
def membersOfOthers : List Doclet :=
  [.bare "A.f" (some "A") (.callable [] []), .bare "x.y" (some "x") (.value false none false)]

/-- A class, at the top level. -/
def classAtTop : Doclet :=
  .bare "A" none (.classLike ⟨.classForm, [], [], [], [], none, false, false⟩)

/-- A package and a function that names it as its parent. -/
def packageAndFunction : List Doclet :=
  [.bare "package:p" none (.package []), .bare "g" (some "package:p") (.callable [] [])]

end AmbientDecl

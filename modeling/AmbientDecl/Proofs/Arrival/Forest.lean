import AmbientDecl.Proofs.Arrival.Planting
import AmbientDecl.Proofs.Forest.Stages

/-!
# The forest of doclets in another order

**Trees.** `SymbolTree.rename` gives every symbol of a tree another number. A tree that is made of a
renamed planting is the renamed tree, also after the members of enumerations have been folded.

**Forests.** `Forest.Renamed` says the same of two forests, whose indexes may be in different
orders. Building the forest of rearranged doclets gives a renamed forest (`agree_buildForest`), and
overloads are merged symbol by symbol, so a renamed forest stays one (`agree_mergeOverloads`).

**Steps.** The walk of the expansion keeps an index, names and typedefs in mind. `Expander.Agree`
says of two steps that, starting from minds in a relation, they agree and leave minds in this
relation. Here the minds are the same but for numbers. The name of a typedef depends on which
longnames the index has, and not on their numbers or their order (`typedefName_renamed`), and a new
number is the same in both.

**The walk.** So a renamed tree is expanded to a renamed tree (`agree_expandTree`).
-/

namespace AmbientDecl

open List SymbolTree Planting Census

variable {p q : Planting} {cs : List SymbolTree} (t : SymbolTree)

namespace SymbolTree

mutual

def rename (σ : Nat → Nat) : SymbolTree → SymbolTree
  | .node id s children => .node (σ id) s (renameAll σ children)

def renameAll (σ : Nat → Nat) : List SymbolTree → List SymbolTree
  | [] => []
  | t :: rest => rename σ t :: renameAll σ rest

end

variable {σ : Nat → Nat}

lemma renameAll_eq (l : List SymbolTree) : renameAll σ l = l.map (rename σ) := by
  induction l with
  | nil => rfl
  | cons t rest ih => rw [renameAll, ih, map_cons]

lemma rename_node (i : Nat) (s : Symbol) (cs : List SymbolTree) :
    (node i s cs).rename σ = .node (σ i) s (cs.map (rename σ)) := by
  rw [rename, renameAll_eq]

@[simp] lemma id_rename : (t.rename σ).id = σ t.id := by
  cases t with
  | node i s cs => rw [rename_node]; rfl

@[simp] lemma symbol_rename : (t.rename σ).symbol = t.symbol := by
  cases t with
  | node i s cs => rw [rename_node]; rfl

@[simp] lemma children_rename : (t.rename σ).children = t.children.map (rename σ) := by
  cases t with
  | node i s cs => rw [rename_node]; rfl

@[simp] lemma kind_rename : (t.rename σ).kind = t.kind := by
  rw [kind, symbol_rename]
  rfl

@[simp] lemma name_rename : (t.rename σ).name = t.name := by
  rw [name, symbol_rename]
  rfl

@[simp] lemma longname_rename : (t.rename σ).longname = t.longname := by
  rw [longname, symbol_rename]
  rfl

lemma walk_rename : (t.rename σ).walk = t.walk.map (rename σ) := by
  induction t using induct with
  | node i s cs ih =>
    rw [rename_node, walk_node, walk_node, map_cons, rename_node, flatMap_map, map_flatMap]
    congr 1
    exact flatMap_congr ih

lemma height_rename : (t.rename σ).height = t.height := by
  induction t using induct with
  | node i s cs ih =>
    rw [rename_node, height, height]
    refine congrArg (· + 1) ?_
    induction cs with
    | nil => rfl
    | cons t rest ih' =>
      rw [map_cons, heightAll, heightAll, ih t mem_cons_self,
        ih' fun t ht => ih t (mem_cons_of_mem _ ht)]

lemma nodes_rename : (t.rename σ).nodes = t.nodes.map (rename σ) := by
  rw [nodes_eq, nodes_eq, children_rename, flatMap_map, map_flatMap]
  exact flatMap_congr fun c _ => walk_rename c

end SymbolTree

lemma treeAt_rename {σ : Nat → Nat} (h : Planting.Renamed σ p q) : ∀ depth id,
    q.treeAt depth (σ id) = (p.treeAt depth id).rename σ := by
  intro depth
  induction depth with
  | zero =>
    intro id
    rw [treeAt, treeAt, rename_node, h.symbolAt]
    rfl
  | succ depth ih =>
    intro id
    rw [treeAt, treeAt, rename_node, h.symbolAt, h.childrenOf, map_map, map_map]
    congr 1
    exact map_congr_left fun c _ => ih c

lemma tree_rename {σ : Nat → Nat} (h : Planting.Renamed σ p q) : q.tree = p.tree.rename σ := by
  rw [tree, tree, h.length, ← treeAt_rename h, h.zero]

lemma absorbEnumMembers_rename (σ : Nat → Nat) (t : SymbolTree) :
    absorbEnumMembers (t.rename σ) = (absorbEnumMembers t).rename σ := by
  induction t using induct with
  | node i s cs ih =>
    have hcs : (cs.map (rename σ)).map absorbEnumMembers
        = (cs.map absorbEnumMembers).map (rename σ) := by
      rw [map_map, map_map]
      exact map_congr_left ih
    rw [rename_node, absorbEnumMembers, absorbEnumMembers, absorbAll_eq, absorbAll_eq, hcs]
    generalize cs.map absorbEnumMembers = absorbed
    dsimp only
    split
    · simp only [rename_node, filter_map, map_map, Function.comp_def, kind_rename, symbol_rename]
    · rw [rename_node]

/-- The same forest with other numbers; the index may have another order. -/
structure Forest.Renamed (σ : Nat → Nat) (f g : Forest) : Prop where
  injective : Function.Injective σ
  /-- Numbers that have not been given out stay. -/
  fixes : ∀ id, f.nextId ≤ id → σ id = id
  root : g.root = f.root.rename σ
  idOf? : ∀ longname, g.idOf? longname = (f.idOf? longname).map σ
  index_length : g.index.length = f.index.length
  nextId : g.nextId = f.nextId

lemma renamed_forest {σ : Nat → Nat} (h : Planting.Renamed σ p q) :
    Forest.Renamed σ p.forest q.forest where
  injective := h.injective
  fixes id hid := h.fixes id hid
  root := by
    rw [forest, forest]
    simp only [tree_rename h, absorbEnumMembers_rename]
  idOf? longname := by
    simp only [Forest.idOf?, forest, lookup_index, h.idOf?]
  index_length := by simp [forest, index, h.length]
  nextId := by simp only [forest, h.length]

lemma diagnostics_plantResolved (c : Census) : (plantResolved c).diagnostics = [] := by
  have hnotes : ∀ (l : List (Symbol × Nat × Placement)), diagnosticsOf (l.filterMap fun e =>
      if e.2.2 = .dropped then some (.milestone (.leftOutWithParent e.1.longname)) else none) =
          [] := by
    intro l
    rw [diagnosticsOf, filterMap_filterMap, filterMap_eq_nil_iff]
    intro e _
    by_cases he : e.2.2 = .dropped <;> simp [he, Entry.diagnostic?]
  have hjournal : (plantResolved c).diagnostics = diagnosticsOf ((c.placed.filterMap fun e =>
      if e.2.2 = .dropped then some (.milestone (.leftOutWithParent e.1.longname))
          else none) ++ []) :=
    rfl
  rw [hjournal, append_nil, hnotes]

/-- **The forest of rearranged doclets is the same but for its numbers.** -/
lemma agree_buildForest {filter : Option DocletFilter} {l l' : List Doclet}
    (hgroup : Rearranged (Doclet.group (acceptedPackages filter l)) l l')
    (hlongname : Rearranged Doclet.longname l l') :
    (buildForest filter l).Agree
      (fun f g => ∃ σ, Forest.Renamed σ f g) (buildForest filter l') := by
  refine (agree_ofDoclets hgroup hlongname).bind fun c c' hc _ h => ?_
  rw [← packages_ofDoclets hc] at h
  have hnd := nodup_ofDoclets hc
  refine (agree_checkCycles h hnd).bind fun _ _ _ _ _ => ?_
  refine (Run.agree_attemptAll _ _).bind fun _ _ _ _ _ => ?_
  have hresolved : (plantResolved c).Agree
      (fun a b => a = (c.resolved, c.orphans) ∧ b = (c'.resolved, c'.orphans)) (plantResolved c') :=
    .success rfl rfl ⟨rfl, rfl⟩ (by rw [diagnostics_plantResolved, diagnostics_plantResolved])
  refine hresolved.bind ?_
  rintro _ _ _ _ ⟨rfl, rfl⟩
  have hawaits : Awaits c.resolved c.sortedOrphans :=
    c.awaits_orphans.perm (mergeSort_perm _ _)
  have hattach := agree_attachOrphans (renamed_resolved h hnd)
    (tidy_resolved hnd) hawaits
  rw [← sortedOrphans_renumber h hnd] at hattach
  refine hattach.bind fun p q _ _ hpq => ?_
  refine (Run.agree_reach _ _).bind fun _ _ _ _ _ => ?_
  refine (Run.agree_attemptAll _ _).bind fun _ _ _ _ _ => ?_
  exact Run.agree_pure ⟨_, renamed_forest hpq⟩

lemma agree_traverseAll {f : Symbol → Run Symbol} {σ : Nat → Nat}
    (hcs : ∀ t ∈ cs, (SymbolTree.traverse f t).Agree (fun a b => b = a.rename σ)
      (SymbolTree.traverse f (t.rename σ))) :
    (SymbolTree.traverseAll f cs).Agree (fun a b => b = a.map (SymbolTree.rename σ))
      (SymbolTree.traverseAll f (cs.map (SymbolTree.rename σ))) := by
  induction cs with
  | nil => exact Run.agree_pure rfl
  | cons t rest ih =>
    refine (hcs t mem_cons_self).bind fun a _ _ _ hb => ?_
    subst hb
    refine (ih fun t ht => hcs t (mem_cons_of_mem _ ht)).bind fun as _ _ _ hbs => ?_
    subst hbs
    exact Run.agree_pure rfl

/-- Symbols are changed one by one, whatever their numbers are. -/
lemma agree_traverse (f : Symbol → Run Symbol) (σ : Nat → Nat) (t : SymbolTree) :
    (SymbolTree.traverse f t).Agree (fun a b => b = a.rename σ)
      (SymbolTree.traverse f (t.rename σ)) := by
  induction t using induct with
  | node i s cs ih =>
    rw [rename_node, SymbolTree.traverse, SymbolTree.traverse]
    refine Run.agree_bind_same fun s' _ => ?_
    refine (agree_traverseAll ih).bind fun as _ _ _ hbs => ?_
    subst hbs
    exact Run.agree_pure (rename_node i s' as).symm

/-- **Overloads are merged alike.** -/
lemma agree_mergeOverloads {σ : Nat → Nat} {f g : Forest} (h : Forest.Renamed σ f g) :
    (mergeOverloads f).Agree (Forest.Renamed σ) (mergeOverloads g) := by
  rw [mergeOverloads, mergeOverloads, h.root, children_rename]
  refine (agree_traverseAll fun t _ => agree_traverse mergeSymbol σ t).bind fun as _ _ _ hbs => ?_
  subst hbs
  refine .success rfl rfl ?_ (Perm.refl _)
  exact ⟨h.injective, h.fixes, by simp [rename_node], h.idOf?, h.index_length, h.nextId⟩

open List SymbolTree Expander

/-- The same mind with other numbers; the index may have another order. -/
structure Expansion.Renamed (σ : Nat → Nat) (e e' : Expansion) : Prop where
  /-- Numbers that have not been given out stay. -/
  fixes : ∀ id, e.nextId ≤ id → σ id = id
  lookup : ∀ longname, e'.index.lookup longname = (e.index.lookup longname).map σ
  index_length : e'.index.length = e.index.length
  nextId : e'.nextId = e.nextId
  taken : e'.taken = e.taken
  pending : e'.pending = e.pending.map (SymbolTree.rename σ)

namespace Expander

variable {α β γ δ : Type} {M : Expansion → Expansion → Prop} {σ : Nat → Nat} {R : α → β → Prop}
  {S : γ → δ → Prop}

/-- Two steps that agree, from minds in a relation to such minds. -/
def Agree (M : Expansion → Expansion → Prop) (R : α → β → Prop) (x : Expander α) (y : Expander β) :
    Prop :=
  ∀ e e', M e e' → (x.run e).Agree (fun a b => R a.1 b.1 ∧ M a.2 b.2) (y.run e')

lemma agree_pure {a : α} {b : β} (h : R a b) : Agree M R (pure a) (pure b) :=
  fun _ _ he => Run.agree_pure ⟨h, he⟩

lemma Agree.bind {x : Expander α} {y : Expander β} (h : Agree M R x y) {f : α → Expander γ}
    {g : β → Expander δ} (hfg : ∀ a b, R a b → Agree M S (f a) (g b)) :
    Agree M S (x >>= f) (y >>= g) := by
  intro e e' he
  rw [StateT.run_bind, StateT.run_bind]
  refine (h e e' he).bind fun a b _ _ hab => ?_
  exact hfg a.1 b.1 hab.1 a.2 b.2 hab.2

lemma agree_lift (x : Run α) : Agree M Eq (liftM x : Expander α) (liftM x) := by
  intro e e' he
  have hrun : ∀ e, (liftM x : Expander α).run e = x >>= fun a => pure (a, e) := fun _ => rfl
  rw [hrun, hrun]
  exact Run.agree_bind_same fun a _ => Run.agree_pure ⟨rfl, he⟩

lemma agree_mapM {f : α → Expander β} (hf : ∀ a, Agree M Eq (f a) (f a)) (l : List α) :
    Agree M Eq (l.mapM f) (l.mapM f) := by
  induction l with
  | nil => exact agree_pure rfl
  | cons a rest ih =>
    rw [mapM_cons]
    refine (hf a).bind ?_
    rintro b _ rfl
    refine ih.bind ?_
    rintro bs _ rfl
    exact agree_pure rfl

lemma agree_takePending :
    Agree (Expansion.Renamed σ)
      (fun a b => b = a.map (SymbolTree.rename σ)) takePending takePending := by
  intro e e' he
  refine .success rfl rfl ⟨he.pending, ?_⟩ (.refl _)
  exact ⟨he.fixes, he.lookup, he.index_length, he.nextId, he.taken, rfl⟩

lemma agree_inContainer {x : Expander α} {y : Expander β} (h : Agree (Expansion.Renamed σ) R x y)
    (names : List String) :
    Agree (Expansion.Renamed σ) R (inContainer names x) (inContainer names y) := by
  intro e e' he
  have hinner : Expansion.Renamed σ { e with taken := names, pending := [] }
      { e' with taken := names, pending := [] } :=
    ⟨he.fixes, he.lookup, he.index_length, he.nextId, rfl, rfl⟩
  have hrun : ∀ {α : Type} (x : Expander α) (e : Expansion), (inContainer names x).run e =
      x.run { e with taken := names, pending := [] } >>= fun a =>
        pure (a.1, { a.2 with taken := e.taken, pending := e.pending }) := fun _ _ => rfl
  rw [hrun, hrun]
  refine (h _ _ hinner).bind fun a b _ _ hab => Run.agree_pure ⟨hab.1, ?_⟩
  exact ⟨hab.2.fixes, hab.2.lookup, hab.2.index_length, hab.2.nextId, he.taken, he.pending⟩

end Expander

section Typedefs

variable {σ : Nat → Nat} {e e' : Expansion}

/-- **The name of a typedef does not depend on numbers.** -/
lemma typedefName_renamed (h : e.Renamed σ e') (container : String) (owner : Symbol)
    (root : String) : typedefName e' container owner root = typedefName e container owner root := by
  simp only [typedefName, h.taken, h.index_length, h.lookup, Option.isSome_map]

lemma lookup_registerIn (index : List (String × Nat)) (longname : String) (id : Nat)
    (longname' : String) : (Forest.registerIn index longname id).lookup longname' =
      (index.lookup longname').or (if longname' = longname then some id else none) := by
  by_cases heq : longname' = longname
  · subst heq
    cases hfind : index.lookup longname' with
    | some i => simp [Forest.registerIn, hfind]
    | none => simp [Forest.registerIn, hfind, lookup_append]
  · rw [Forest.registerIn, if_neg heq, Option.or_none]
    split
    · rfl
    · have hne : (longname' == longname) = false := by simpa using heq
      simp [lookup_append, lookup_cons, hne]

lemma length_registerIn (index : List (String × Nat)) (longname : String) (id : Nat) :
    (Forest.registerIn index longname id).length
      = index.length + if (index.lookup longname).isSome then 0 else 1 := by
  rw [Forest.registerIn]
  split <;> simp

/-- A typedef gets the same name and the same number. -/
lemma agree_synthesize (container : String) (owner : Symbol) (root : String) (record : TypeNode) :
    Expander.Agree (Expansion.Renamed σ) Eq (synthesize container owner root record)
      (synthesize container owner root record) := by
  intro e e' he
  have hnew : σ e.nextId = e.nextId := he.fixes _ (Nat.le_refl _)
  refine .success rfl rfl ⟨?_, ?_, ?_, ?_, ?_, ?_, ?_⟩ (.refl _)
  · simp only [typedefName_renamed he]
  · exact fun id hid => he.fixes id (Nat.le_of_succ_le hid)
  · intro longname
    simp only [typedefName_renamed he]
    rw [lookup_registerIn, lookup_registerIn, he.lookup, he.nextId]
    cases e.index.lookup longname with
    | some id => rfl
    | none =>
      simp only [Option.map_none, Option.none_or]
      split <;> simp [hnew]
  · simp only [typedefName_renamed he]
    rw [length_registerIn, length_registerIn, he.index_length, he.lookup, Option.isSome_map]
  · simp only [he.nextId]
  · simp only [typedefName_renamed he, he.taken]
  · simp only [typedefName_renamed he, he.pending, he.nextId, map_append, map_cons,
      map_nil, rename_node, hnew]

end Typedefs

section Symbols

variable {M : Expansion → Expansion → Prop} (hM : ∀ container owner root record,
  Expander.Agree M Eq (synthesize container owner root record)
    (synthesize container owner root record))

include hM

lemma agree_expandSignature (container : String) (owner : Symbol) (signature : Signature) :
    Expander.Agree M Eq (expandSignature container owner signature)
      (expandSignature container owner signature) := by
  have hgroup : ∀ group, Agree M Eq (expandGroup container owner signature.params group)
      (expandGroup container owner signature.params group) := by
    intro group
    refine (hM container owner group.1 group.2.record).bind ?_
    rintro typedef _ rfl
    exact agree_pure rfl
  refine (agree_lift _).bind fun _ _ _ => ?_
  refine (agree_mapM hgroup _).bind ?_
  rintro groups _ rfl
  exact agree_pure rfl

lemma agree_expandSymbol (container : String) (s : Symbol) :
    Expander.Agree M Eq (expandSymbol container s) (expandSymbol container s) := by
  refine (agree_lift (expandTypedef s)).bind ?_
  rintro s _ rfl
  refine (agree_mapM (agree_expandSignature hM container s) _).bind ?_
  rintro signatures _ rfl
  exact agree_pure rfl

end Symbols

section Walk

variable {σ : Nat → Nat}

/-- What the walk does to a tree, it does to the tree with other numbers. -/
def ExpandsAlike (σ : Nat → Nat) (t : SymbolTree) : Prop :=
  ∀ container, Expander.Agree (Expansion.Renamed σ) (fun a b => b = a.rename σ)
    (expandTree container t)
    (expandTree container (t.rename σ))

lemma agree_expandDeclared (hcs : ∀ t ∈ cs, ExpandsAlike σ t) (container : String) :
    Expander.Agree (Expansion.Renamed σ) (fun a b => b = a.map (SymbolTree.rename σ))
      (expandDeclared container cs)
      (expandDeclared container (cs.map (SymbolTree.rename σ))) := by
  induction cs with
  | nil => exact agree_pure rfl
  | cons t rest ih =>
    refine (hcs t mem_cons_self container).bind ?_
    rintro t' _ rfl
    refine Expander.agree_takePending.bind ?_
    rintro made _ rfl
    refine (ih fun t ht => hcs t (mem_cons_of_mem _ ht)).bind ?_
    rintro rest' _ rfl
    exact agree_pure (by simp)

lemma agree_expandMembers (hcs : ∀ t ∈ cs, ExpandsAlike σ t) (container : String) :
    Expander.Agree (Expansion.Renamed σ) (fun a b => b = a.map (SymbolTree.rename σ))
      (expandMembers container cs)
      (expandMembers container (cs.map (SymbolTree.rename σ))) := by
  induction cs with
  | nil => exact agree_pure rfl
  | cons t rest ih =>
    refine (hcs t mem_cons_self container).bind ?_
    rintro t' _ rfl
    refine (ih fun t ht => hcs t (mem_cons_of_mem _ ht)).bind ?_
    rintro rest' _ rfl
    exact agree_pure rfl

/-- **A renamed tree is expanded to a renamed tree.** -/
lemma agree_expandTree : ExpandsAlike σ t := by
  induction t using induct with
  | node i s cs ih =>
    intro container
    have hnames : (cs.map (rename σ)).map name = cs.map name := by
      simp [Function.comp_def]
    rw [rename_node, expandTree, expandTree, hnames]
    refine (agree_expandSymbol agree_synthesize container s).bind ?_
    rintro s' _ rfl
    have hnode : ∀ children : List SymbolTree,
        Agree (Expansion.Renamed σ) (fun a b => b = rename σ a) (pure (.node i s' children))
          (pure (.node (σ i) s' (children.map (rename σ)))) :=
      fun children => agree_pure (rename_node i s' children).symm
    split
    · refine (agree_inContainer (agree_expandDeclared ih s'.longname) _).bind ?_
      rintro children _ rfl
      exact hnode children
    · refine (agree_expandMembers ih container).bind ?_
      rintro children _ rfl
      exact hnode children

/-- **A renamed forest is expanded to a renamed forest.** -/
lemma agree_expandForest {f g : Forest} (h : Forest.Renamed σ f g) :
    (expandForest f).Agree (Forest.Renamed σ) (expandForest g) := by
  rw [expandForest, expandForest, h.root, longname_rename]
  have hstart : Expansion.Renamed σ ⟨f.index, f.nextId, [], []⟩ ⟨g.index, g.nextId, [], []⟩ :=
    ⟨h.fixes, h.idOf?, h.index_length, h.nextId, rfl, rfl⟩
  refine (agree_expandTree f.root f.root.longname _ _ hstart).bind fun a b _ _ hab => ?_
  refine .success rfl rfl ?_ (.refl _)
  exact ⟨h.injective, hab.2.fixes, hab.1, hab.2.lookup, hab.2.index_length, hab.2.nextId⟩

end Walk

end AmbientDecl

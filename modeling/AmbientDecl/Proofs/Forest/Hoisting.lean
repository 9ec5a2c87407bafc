import AmbientDecl.Proofs.Forest.Insertion

/-!
# Where the typedefs of described properties stand

**The walk.** `Walked` is a walk that does what a plan says, and there is a plan for every walk
(`walked_expandTree`): one symbol, then its children one after another. What the plans of the
children say is put together by number.

**The result.** `Forest.Hoists` lists what follows for the forest.
-/

namespace AmbientDecl

open Text Expander Expansion List SymbolTree

variable {c m : SymbolTree}

/-- The longname of the nearest root, module or namespace among ancestors. -/
def containerName (ancestors : List SymbolTree) : String :=
  ((ancestors.find? fun a => a.kind.isContainer).map SymbolTree.longname).getD ""

/-- The names that come into a container are new there and differ from each other. -/
structure FreshNames (typedefs : Nat → List SymbolTree) (k : SymbolTree) : Prop where
  free : ∀ t ∈ k.children.flatMap (SymbolTree.hoisted typedefs),
    t.name ∉ k.children.map SymbolTree.name
  distinct : ((k.children.flatMap (SymbolTree.hoisted typedefs)).map SymbolTree.name).Nodup

/-- What a plan says about a tree below ancestors is what expansion does to each symbol, and
typedefs have names of their own. -/
structure Planned (plan : Nat → ExpandedSymbol) (ancestors : List SymbolTree) (t : SymbolTree) :
    Prop where
  outcome : ∀ p ∈ placesIn ancestors t, (plan p.tree.id).Of (containerName p.ancestors) p.symbol
  names : ∀ k ∈ t.walk, k.kind.isContainer = true → FreshNames (fun i => (plan i).made) k

/-- The walk over a tree below ancestors does what a plan says. -/
structure Walked (plan : Nat → ExpandedSymbol) (ancestors : List SymbolTree) (t : SymbolTree)
    (e e' : Expansion) : Prop where
  gives : Gives (expandTree (containerName ancestors) t) e (t.rebuilt plan) e'
  makes : Makes ((t.made fun i => (plan i).made).map SymbolTree.entry) e e'
  pending : e'.pending = e.pending ++ t.hoisted fun i => (plan i).made
  takes : Takes ((t.hoisted fun i => (plan i).made).map SymbolTree.name) e e'
  planned : Planned plan ancestors t

/-- What the walks over several trees, one after another, have in common. -/
structure WalkedAll (plan : Nat → ExpandedSymbol) (ancestors : List SymbolTree)
    (cs : List SymbolTree)
    (e e' : Expansion) : Prop where
  makes : Makes ((cs.flatMap (SymbolTree.made fun i => (plan i).made)).map SymbolTree.entry) e e'
  takes : Takes ((cs.flatMap (SymbolTree.hoisted fun i => (plan i).made)).map SymbolTree.name) e e'
  planned : ∀ c ∈ cs, Planned plan ancestors c

section Congr

variable {plan plan' : Nat → ExpandedSymbol} {ancestors : List SymbolTree} {t : SymbolTree}
  {e e' : Expansion}

lemma FreshNames.congr {typedefs typedefs' : Nat → List SymbolTree} (h : FreshNames typedefs t)
    (hsame : ∀ i ∈ t.ids, typedefs' i = typedefs i) : FreshNames typedefs' t := by
  have hhoisted : t.children.flatMap (hoisted typedefs') =
      t.children.flatMap (hoisted typedefs) := by
    refine flatMap_congr fun c hc => hoisted_congr fun i hi => hsame i ?_
    rw [ids_children]
    exact mem_cons_of_mem _ (mem_flatMap.mpr ⟨c, hc, hi⟩)
  exact ⟨hhoisted ▸ h.free, hhoisted ▸ h.distinct⟩

lemma Planned.congr (h : Planned plan ancestors t) (hsame : ∀ i ∈ t.ids, plan' i = plan i) :
    Planned plan' ancestors t where
  outcome := by
    intro p hp
    have hmem := tree_mem_walk hp
    rw [hsame _ (SymbolTree.mem_ids.mpr ⟨p.tree, hmem, rfl⟩)]
    exact h.outcome p hp
  names := by
    intro k hk hkind
    refine (h.names k hk hkind).congr fun i hi => ?_
    obtain ⟨u, hu, rfl⟩ := SymbolTree.mem_ids.mp hi
    rw [hsame _ (SymbolTree.mem_ids.mpr ⟨u, mem_walk_trans hk hu, rfl⟩)]

lemma Walked.congr (h : Walked plan ancestors t e e') (hsame : ∀ i ∈ t.ids, plan' i = plan i) :
    Walked plan' ancestors t e e' := by
  have htypedefs : ∀ i ∈ t.ids, (plan' i).made = (plan i).made := fun i hi => by rw [hsame i hi]
  refine ⟨?_, ?_, ?_, ?_, h.planned.congr hsame⟩
  · rw [rebuilt_congr hsame]
    exact h.gives
  · rw [made_congr htypedefs]
    exact h.makes
  · rw [hoisted_congr htypedefs]
    exact h.pending
  · rw [hoisted_congr htypedefs]
    exact h.takes

lemma WalkedAll.congr {cs : List SymbolTree} (h : WalkedAll plan ancestors cs e e')
    (hsame : ∀ c ∈ cs, ∀ i ∈ c.ids, plan' i = plan i) : WalkedAll plan' ancestors cs e e' := by
  have htypedefs : ∀ c ∈ cs, ∀ i ∈ c.ids, (plan' i).made = (plan i).made :=
    fun c hc i hi => by rw [hsame c hc i hi]
  refine ⟨?_, ?_, fun c hc => (h.planned c hc).congr (hsame c hc)⟩
  · rw [flatMap_congr fun c hc => made_congr (htypedefs c hc)]
    exact h.makes
  · rw [flatMap_congr fun c hc => hoisted_congr (htypedefs c hc)]
    exact h.takes

/-- One more tree in front. Between the walks only what waits may change. -/
lemma WalkedAll.cons {rest : List SymbolTree} {e₁ : Expansion}
    {pending : List SymbolTree} (hc : Walked plan ancestors c e e₁)
    (hrest : WalkedAll plan ancestors rest { e₁ with pending := pending } e') :
    WalkedAll plan ancestors (c :: rest) e e' where
  makes := by
    rw [flatMap_cons, map_append]
    exact hc.makes.trans ⟨hrest.makes.index, hrest.makes.numbers, hrest.makes.nextId,
      hrest.makes.fresh, hrest.makes.distinct⟩
  takes := by
    rw [flatMap_cons, map_append]
    exact hc.takes.trans ⟨hrest.takes.taken, hrest.takes.free, hrest.takes.distinct⟩
  planned := forall_mem_cons.mpr ⟨hc.planned, hrest.planned⟩

end Congr

section Walk

variable {ancestors cs : List SymbolTree}

/-- The plan for a tree and the plan for further trees as one. -/
def planFor (c : SymbolTree) (plan plan' : Nat → ExpandedSymbol) : Nat → ExpandedSymbol :=
  fun i => if i ∈ c.ids then plan i else plan' i

lemma planFor_first (plan plan' : Nat → ExpandedSymbol) :
    ∀ i ∈ c.ids, planFor c plan plan' i = plan i :=
  fun _ hi => if_pos hi

lemma planFor_rest {rest : List SymbolTree} (plan plan' : Nat → ExpandedSymbol)
    (h : ((c :: rest).flatMap SymbolTree.ids).Nodup) :
    ∀ d ∈ rest, ∀ i ∈ d.ids, planFor c plan plan' i = plan' i := by
  intro d hd i hi
  rw [flatMap_cons] at h
  exact if_neg fun hc => (disjoint_of_nodup_append h) hc (mem_flatMap.mpr ⟨d, hd, hi⟩)

/-- There is a plan for the walk over each of several trees. -/
def WalksPlanned (ancestors cs : List SymbolTree) : Prop :=
  ∀ c ∈ cs, c.ids.Nodup → ∀ e, ∃ plan e', Walked plan ancestors c e e'

lemma walked_expandMembers (hcs : WalksPlanned ancestors cs)
    (hnd : (cs.flatMap SymbolTree.ids).Nodup) :
    ∀ e, ∃ plan e', Gives (expandMembers (containerName ancestors) cs) e
        (SymbolTree.rebuiltMembers plan cs) e' ∧
      e'.pending = e.pending ++ cs.flatMap (SymbolTree.hoisted fun i => (plan i).made) ∧
      WalkedAll plan ancestors cs e e' := by
  induction cs with
  | nil =>
    intro e
    refine ⟨fun _ => ⟨Symbol.root, []⟩, e, by simp [expandMembers, rebuiltMembers], by simp, ?_⟩
    exact ⟨Makes.refl e, Takes.refl e, by simp⟩
  | cons c rest ih =>
    intro e
    have hsplit := hnd
    rw [flatMap_cons, nodup_append] at hsplit
    obtain ⟨plan, e₁, hc⟩ := hcs c mem_cons_self hsplit.1 e
    obtain ⟨plan', e', hgives, hpending, hrest⟩ :=
      ih (fun d hd => hcs d (mem_cons_of_mem _ hd)) hsplit.2.1 e₁
    have hagree := planFor_rest plan plan' hnd
    have hfirst := hc.congr (planFor_first plan plan')
    refine ⟨planFor c plan plan', e', ?_, ?_, .cons hfirst (hrest.congr hagree)⟩
    · simp only [expandMembers, gives_bind, gives_pure, rebuiltMembers]
      refine ⟨_, e₁, hfirst.gives, _, e', hgives, ?_, rfl⟩
      rw [rebuiltMembers_eq, rebuiltMembers_eq,
        map_congr_left fun d hd => rebuilt_congr (hagree d hd)]
    · rw [hpending, hfirst.pending, flatMap_cons, append_assoc,
        hoistedAll_congr fun d hd i hi => congrArg ExpandedSymbol.made (hagree d hd i hi)]

lemma walked_expandDeclared (hcs : WalksPlanned ancestors cs)
    (hnd : (cs.flatMap SymbolTree.ids).Nodup) :
    ∀ e, e.pending = [] → ∃ plan e', Gives (expandDeclared (containerName ancestors) cs) e
        (SymbolTree.rebuiltDeclared plan cs) e' ∧ WalkedAll plan ancestors cs e e' := by
  induction cs with
  | nil =>
    intro e hpending
    refine ⟨fun _ => ⟨Symbol.root, []⟩, e, by simp [expandDeclared, rebuiltDeclared], ?_⟩
    exact ⟨Makes.refl e, Takes.refl e, by simp⟩
  | cons c rest ih =>
    intro e hpending
    have hsplit := hnd
    rw [flatMap_cons, nodup_append] at hsplit
    obtain ⟨plan, e₁, hc⟩ := hcs c mem_cons_self hsplit.1 e
    -- what waits goes behind the child, and the rest starts with nothing that waits
    obtain ⟨plan', e', hgives, hrest⟩ :=
      ih (fun d hd => hcs d (mem_cons_of_mem _ hd)) hsplit.2.1 { e₁ with pending := [] } rfl
    have hagree := planFor_rest plan plan' hnd
    have hfirst := hc.congr (planFor_first plan plan')
    refine ⟨planFor c plan plan', e', ?_, .cons hfirst (hrest.congr hagree)⟩
    simp only [expandDeclared, gives_bind, gives_pure, gives_takePending, rebuiltDeclared]
    refine ⟨_, e₁, hfirst.gives, _, _, ⟨rfl, rfl⟩, _, e', hgives, ?_, rfl⟩
    rw [hfirst.pending, hpending, nil_append, rebuiltDeclared_congr hagree
      fun d hd => rebuilt_congr (hagree d hd)]

/-- The plan of the children does not speak of the symbol above them. -/
lemma update_below {i : Nat} (plan : Nat → ExpandedSymbol) (o : ExpandedSymbol)
    (hi : i ∉ cs.flatMap SymbolTree.ids) :
    ∀ c ∈ cs, ∀ j ∈ c.ids, Function.update plan i o j = plan j := by
  intro c hc j hj
  refine Function.update_of_ne ?_ _ _
  rintro rfl
  exact hi (mem_flatMap.mpr ⟨c, hc, hj⟩)

lemma planned_node {plan : Nat → ExpandedSymbol} {i : Nat} {s : Symbol}
    (ho : (plan i).Of (containerName ancestors) s)
    (hcs : ∀ c ∈ cs, Planned plan (.node i s cs :: ancestors) c)
    (hnames : s.kind.isContainer = true → FreshNames (fun i => (plan i).made) (.node i s cs)) :
    Planned plan ancestors (.node i s cs) where
  outcome := by
    intro p hp
    rw [placesIn_eq] at hp
    rcases mem_cons.mp hp with rfl | hp
    · exact ho
    · obtain ⟨c, hc, hp⟩ := mem_flatMap.mp hp
      exact (hcs c hc).outcome p hp
  names := by
    intro k hk hkind
    rw [walk_node] at hk
    rcases mem_cons.mp hk with rfl | hk
    · exact hnames hkind
    · obtain ⟨c, hc, hk⟩ := mem_flatMap.mp hk
      exact (hcs c hc).names k hk hkind

section Node

variable {plan : Nat → ExpandedSymbol} {i : Nat} {s : Symbol} {e e₁ e₂ e' : Expansion}

/-- A container: its children are walked with their names taken and nothing that waits. -/
lemma walked_container (hkind : s.kind.isContainer = true)
    (ho : (plan i).Of (containerName ancestors) s)
    (hsymbol : Gives (expandSymbol (containerName ancestors) s) e (plan i).symbol e₁)
    (hadds : Adds (plan i).made e e₁)
    (hgives : Gives (expandDeclared (containerName (.node i s cs :: ancestors)) cs)
      { e₁ with taken := cs.map SymbolTree.name, pending := [] }
        (SymbolTree.rebuiltDeclared plan cs) e₂)
    (hall : WalkedAll plan (.node i s cs :: ancestors) cs
      { e₁ with taken := cs.map SymbolTree.name, pending := [] } e₂) :
    Walked plan ancestors (.node i s cs) e
      { e₂ with taken := e₁.taken, pending := e₁.pending } := by
  have hhoisted : (node i s cs).hoisted (fun i => (plan i).made) = (plan i).made := by
    rw [hoisted_node, if_pos hkind, append_nil]
  have hname : containerName (.node i s cs :: ancestors) = (plan i).symbol.longname := by
    rw [ho.longname, containerName, find?_cons_of_pos (by exact hkind)]
    rfl
  refine ⟨?_, ?_, ?_, ?_, planned_node ho hall.planned ?_⟩
  · simp only [expandTree, gives_bind]
    refine ⟨_, e₁, hsymbol, ?_⟩
    rw [if_pos (ho.kind ▸ hkind), rebuilt, if_pos hkind]
    refine gives_bind.mpr ⟨_, _, gives_inContainer.mpr ⟨e₂, hname ▸ hgives, rfl⟩, ?_⟩
    exact gives_pure.mpr ⟨rfl, rfl⟩
  · rw [made_node, map_append]
    exact hadds.makes.trans ⟨hall.makes.index, hall.makes.numbers, hall.makes.nextId,
      hall.makes.fresh, hall.makes.distinct⟩
  · rw [hhoisted]
    exact hadds.pending
  · rw [hhoisted]
    exact ⟨hadds.takes.taken, hadds.takes.free, hadds.takes.distinct⟩
  · intro _
    exact ⟨fun t ht => hall.takes.free _ (mem_map_of_mem ht), hall.takes.distinct⟩

/-- Any other symbol: what its children make waits with what it makes itself. -/
lemma walked_member (hkind : s.kind.isContainer = false)
    (ho : (plan i).Of (containerName ancestors) s)
    (hsymbol : Gives (expandSymbol (containerName ancestors) s) e (plan i).symbol e₁)
    (hadds : Adds (plan i).made e e₁)
    (hgives : Gives (expandMembers (containerName (.node i s cs :: ancestors)) cs) e₁
      (SymbolTree.rebuiltMembers plan cs) e')
    (hpending : e'.pending = e₁.pending ++ cs.flatMap (SymbolTree.hoisted fun i => (plan i).made))
    (hall : WalkedAll plan (.node i s cs :: ancestors) cs e₁ e') :
    Walked plan ancestors (.node i s cs) e e' := by
  have hcontainer : ¬ s.kind.isContainer = true := by simp [hkind]
  have hhoisted : (node i s cs).hoisted (fun i => (plan i).made) =
      (plan i).made ++ cs.flatMap (hoisted fun i => (plan i).made) := by
    rw [hoisted_node, if_neg hcontainer]
  have hname : containerName (.node i s cs :: ancestors) = containerName ancestors := by
    rw [containerName, find?_cons_of_neg (by exact hcontainer), containerName]
  refine ⟨?_, ?_, ?_, ?_, planned_node ho hall.planned fun h => absurd h hcontainer⟩
  · simp only [expandTree, gives_bind]
    refine ⟨_, e₁, hsymbol, ?_⟩
    rw [if_neg (ho.kind ▸ hcontainer), rebuilt, if_neg hcontainer]
    exact gives_bind.mpr ⟨_, e', hname ▸ hgives, gives_pure.mpr ⟨rfl, rfl⟩⟩
  · rw [made_node, map_append]
    exact hadds.makes.trans hall.makes
  · rw [hpending, hadds.pending, hhoisted, append_assoc]
  · rw [hhoisted, map_append]
    exact hadds.takes.trans hall.takes

end Node

/-- **There is a plan for every walk.** -/
lemma walked_expandTree (t : SymbolTree) : ∀ ancestors, WalksPlanned ancestors [t] := by
  induction t using induct with
  | node i s cs ih =>
    intro ancestors t ht hnd e
    rw [mem_singleton.mp ht] at hnd ⊢
    rw [ids_node, nodup_cons] at hnd
    have hcs : WalksPlanned (.node i s cs :: ancestors) cs :=
      fun c hc => ih c hc _ c mem_cons_self
    obtain ⟨o, e₁, hsymbol, hadds, ho⟩ := expands_expandSymbol (containerName ancestors) s e
    have hself : ∀ plan : Nat → ExpandedSymbol, Function.update plan i o i = o :=
      fun plan => Function.update_self i o plan
    cases hkind : s.kind.isContainer with
    | true =>
      obtain ⟨plan, e₂, hgives, hall⟩ := walked_expandDeclared hcs hnd.2
        { e₁ with taken := cs.map name, pending := [] } rfl
      have hsame := update_below plan o hnd.1
      rw [← hself plan] at hsymbol hadds ho
      rw [← rebuiltDeclared_congr hsame
        fun c hc => rebuilt_congr (hsame c hc)] at hgives
      exact ⟨_, _, walked_container hkind ho hsymbol hadds hgives (hall.congr hsame)⟩
    | false =>
      obtain ⟨plan, e', hgives, hpending, hall⟩ := walked_expandMembers hcs hnd.2 e₁
      have hsame := update_below plan o hnd.1
      rw [← hself plan] at hsymbol hadds ho
      rw [rebuiltMembers_eq, ← map_congr_left fun c hc =>
        rebuilt_congr (hsame c hc), ← rebuiltMembers_eq] at hgives
      rw [← hoistedAll_congr fun c hc j hj =>
        congrArg ExpandedSymbol.made (hsame c hc j hj)] at hpending
      exact ⟨_, _, walked_member hkind ho hsymbol hadds hgives hpending (hall.congr hsame)⟩

end Walk

/-- A name cannot be given to a typedef of a container. -/
def Expansion.Occupied (e : Expansion) (container name : String) : Prop :=
  name ∈ e.taken ∨ (e.index.lookup (longnameIn container name)).isSome = true

/-- **The name of a typedef is the first candidate that is free.** -/
lemma exists_typedefName (e : Expansion) (container : String) (owner : Symbol) (root : String) :
    ∃ n, typedefName e container owner root =
        numberedFrom 2 (toIdentifier owner.name ++ "_" ++ toIdentifier root) n ∧
      ¬ e.Occupied container (typedefName e container owner root) ∧
      ∀ m < n, e.Occupied container
        (numberedFrom 2 (toIdentifier owner.name ++ "_" ++ toIdentifier root) m) := by
  obtain ⟨n, hname, hbefore⟩ := exists_firstFree
    (fun name => e.taken.contains name || (e.index.lookup (longnameIn container name)).isSome)
    (numberedFrom 2 (toIdentifier owner.name ++ "_" ++ toIdentifier root))
    (e.taken.length + e.index.length)
  obtain ⟨hfree, hnew⟩ := typedefName_free e container owner root
  refine ⟨n, hname, ?_, fun m hm => ?_⟩
  · rintro (htaken | hindexed)
    · exact hfree htaken
    · simp [hnew] at hindexed
  · simpa [Expansion.Occupied] using hbefore m hm

/-- The typedefs made for each symbol, by its number, and where they stand in a later forest. -/
structure Forest.Hoists (before after : Forest) (typedefs : Nat → List SymbolTree) : Prop where
  /-- The parameters of a symbol refer to the typedefs that are made for it. -/
  refers : ∀ p ∈ before.places, ∃ o ∈ after.root.walk, o.id = p.tree.id ∧
    ExpandsSignatures (containerName p.ancestors) p.symbol.signatures o.symbol.signatures
      (typedefs p.tree.id)
  /-- A typedef is a child of the nearest root, module or namespace around its owner, and no other
      child there has its name. -/
  child : ∀ p ∈ before.places, ∀ t ∈ typedefs p.tree.id,
    ∃ k, p.ancestors.find? (fun a => a.kind.isContainer) = some k ∧
      ∃ k' ∈ after.root.walk, k'.id = k.id ∧ t ∈ k'.children ∧
        ∀ c ∈ k'.children, c.id ≠ t.id → c.name ≠ t.name
  /-- The longname of a typedef was not in the index, and now it leads to the typedef. -/
  fresh : ∀ t ∈ before.root.made typedefs, before.idOf? t.longname = none ∧
    (after.idOf? t.longname).bind after.root.get? = some t
  /-- Typedefs have the next numbers, in the order in which they are made. -/
  numbers : (before.root.made typedefs).map SymbolTree.id =
    List.range' before.nextId (after.nextId - before.nextId)
  index : after.index = before.index ++ (before.root.made typedefs).map SymbolTree.entry
  /-- Nothing else is new. -/
  new : ∀ t ∈ after.root.walk, before.nextId ≤ t.id → t ∈ before.root.made typedefs
  /-- Without the typedefs every list of children is what it was. -/
  deleted : (after.root.pruned before.nextId).mapSymbols Symbol.unexpanded =
    before.root.mapSymbols Symbol.unexpanded
  /-- In a container, right behind each child stand the typedefs for it and for what is below it, up
      to containers inside, in the order in which they are made. -/
  runs : ∀ k ∈ before.root.walk, k.kind.isContainer = true → ∃ k' ∈ after.root.walk, k'.id = k.id ∧
    k'.children.map SymbolTree.id =
      (k.children.flatMap fun c => c.id :: (c.hoisted typedefs).map SymbolTree.id) ∧
    ∀ c ∈ k.children, ((c.hoisted typedefs).map SymbolTree.id).Pairwise (· < ·)

section Result

variable {f : Forest} {plan : Nat → ExpandedSymbol} {e e' : Expansion}

lemma Planned.expands {ancestors : List SymbolTree} {t u : SymbolTree}
    (h : Planned plan ancestors t)
    (hu : u ∈ t.walk) : ∃ container, (plan u.id).Of container u.symbol := by
  obtain ⟨p, hp, rfl⟩ := exists_place ancestors hu
  exact ⟨_, h.outcome p hp⟩

lemma Planned.children {ancestors : List SymbolTree} {t : SymbolTree} (h : Planned plan ancestors t)
    (hm : m ∈ t.made fun i => (plan i).made) : m.children = [] := by
  obtain ⟨u, hu, hm⟩ := SymbolTree.mem_made.mp hm
  obtain ⟨container, ho⟩ := h.expands hu
  exact ho.signatures.children m hm

/-- The root has no signatures, so nothing leaves the tree. -/
lemma Planned.hoisted_root (hroot : f.root.symbol = Symbol.root) (h : Planned plan [] f.root) :
    f.root.hoisted (fun i => (plan i).made) = [] := by
  have hmade : (plan f.root.id).made = [] := by
    have hsignatures := (h.outcome _ (mem_placesIn_top [] f.root)).signatures
    have hnone : f.root.symbol.signatures = [] := by rw [hroot]; rfl
    exact (hnone ▸ hsignatures).made_nil
  have hkind : f.root.kind.isContainer = true := by rw [kind, hroot]; rfl
  rw [hoisted_eq, if_pos hkind, append_nil]
  exact hmade

/-- In a container of the rebuilt tree a typedef has a name of its own. -/
lemma Planned.name_ne {ancestors : List SymbolTree} {t k d : SymbolTree}
    (h : Planned plan ancestors t) (hk : k ∈ t.walk) (hkind : k.kind.isContainer = true)
    (hc : c ∈ k.children) (hm : m ∈ c.hoisted fun i => (plan i).made)
    (hd : d ∈ (k.rebuilt plan).children) (hid : d.id ≠ m.id) : d.name ≠ m.name := by
  obtain ⟨hfree, hdistinct⟩ := h.names k hk hkind
  have hin := mem_flatMap.mpr ⟨c, hc, hm⟩
  obtain ⟨b, hb, rfl | ⟨_, hd⟩⟩ := mem_children_rebuilt hd
  · obtain ⟨container, ho⟩ := h.expands (mem_walk_of_child hk hb)
    have hname : (b.rebuilt plan).name = b.name := by
      rw [name, symbol_rebuilt, ho.name]
      rfl
    rw [hname]
    intro heq
    exact hfree m hin (heq ▸ mem_map_of_mem hb)
  · intro heq
    refine hid (congrArg SymbolTree.id ?_)
    exact inj_on_of_nodup_map hdistinct (mem_flatMap.mpr ⟨b, hb, hd⟩) hin heq

lemma Walked.numbers {ancestors : List SymbolTree} {t : SymbolTree}
    (h : Walked plan ancestors t e e') :
    (t.made fun i => (plan i).made).map SymbolTree.id =
      List.range' e.nextId (e'.nextId - e.nextId) := by
  have hnumbers := h.makes.numbers
  rw [map_map, length_map] at hnumbers
  rw [h.makes.nextId, length_map, Nat.add_sub_cancel_left]
  exact hnumbers

lemma Walked.nextId_le {ancestors : List SymbolTree} {t : SymbolTree}
    (h : Walked plan ancestors t e e')
    (hm : m ∈ t.made fun i => (plan i).made) : e.nextId ≤ m.id := by
  have hmem : m.id ∈ range' e.nextId (e'.nextId - e.nextId) := h.numbers ▸ mem_map_of_mem hm
  exact (mem_range'_1.mp hmem).1

section Top

variable (hf : f.Consistent) (h : Walked plan [] f.root ⟨f.index, f.nextId, [], []⟩ e')

include hf h

/-- What is new in the rebuilt tree is a typedef. -/
lemma Walked.new {u : SymbolTree} (hu : u ∈ (f.root.rebuilt plan).walk) (hid : f.nextId ≤ u.id) :
    u ∈ f.root.made fun i => (plan i).made := by
  rcases mem_walk_rebuilt (fun m hm => h.planned.children hm) hu with ⟨v, hv, rfl⟩ | hu
  · have hlt := hf.ids_lt v.id (SymbolTree.mem_ids.mpr ⟨v, hv, rfl⟩)
    rw [id_rebuilt] at hid
    omega
  · exact hu

/-- The typedefs for a symbol come to the nearest container around it. -/
lemma Walked.child {p : Place} (hp : p ∈ f.places) (hm : m ∈ (plan p.tree.id).made) :
    ∃ k ∈ f.root.walk, p.ancestors.find? (fun a => a.kind.isContainer) = some k ∧
      m ∈ (k.rebuilt plan).children ∧
      ∀ d ∈ (k.rebuilt plan).children, d.id ≠ m.id → d.name ≠ m.name := by
  have hleaves := mem_hoisted_self (fun i => (plan i).made) hm
  rcases hoisted_place p hp m hleaves with hroot | ⟨k, hk, hfind, c, hc, hm⟩
  · rw [h.planned.hoisted_root hf.root_symbol] at hroot
    cases hroot
  · have hkind := find?_some (p := fun a : SymbolTree => a.kind.isContainer) hfind
    exact ⟨k, hk, hfind, hoisted_mem_children hkind hc hm,
      fun d hd hid => h.planned.name_ne hk hkind hc hm hd hid⟩

/-- A typedef is what its number finds in the rebuilt tree. -/
lemma Walked.get?_made (hm : m ∈ f.root.made fun i => (plan i).made) :
    (f.root.rebuilt plan).get? m.id = some m := by
  have hmem : m ∈ (f.root.rebuilt plan).walk := by
    obtain ⟨u, hu, hmade⟩ := SymbolTree.mem_made.mp hm
    obtain ⟨p, hp, rfl⟩ := exists_place [] hu
    obtain ⟨k, hk, _, hchild, _⟩ := h.child hf hp hmade
    exact mem_walk_of_child (mem_rebuilt hk) hchild
  cases hfind : (f.root.rebuilt plan).get? m.id with
  | none => exact absurd (beq_self_eq_true m.id) (find?_eq_none.mp hfind m hmem)
  | some u =>
    -- what is found is new as well, and numbers of typedefs differ
    have hid : u.id = m.id := by
      rw [get?] at hfind
      simpa using find?_some hfind
    have hu := h.new hf (mem_of_find?_eq_some hfind) (hid ▸ h.nextId_le hm)
    have hnodup : ((f.root.made fun i => (plan i).made).map SymbolTree.id).Nodup := by
      rw [h.numbers]
      exact nodup_range'
    rw [inj_on_of_nodup_map hnodup hu hm hid]

/-- **A walk that does what a plan says hoists the typedefs of the plan.** -/
lemma Walked.hoists :
    f.Hoists { f with root := f.root.rebuilt plan, index := e'.index, nextId := e'.nextId }
      fun i => (plan i).made := by
  refine ⟨?_, ?_, ?_, h.numbers, h.makes.index, fun u hu hid => h.new hf hu hid, ?_, ?_⟩
  · intro p hp
    have hmem := tree_mem_walk hp
    refine ⟨_, mem_rebuilt hmem, id_rebuilt plan p.tree, ?_⟩
    rw [symbol_rebuilt]
    exact (h.planned.outcome p hp).signatures
  · intro p hp m hm
    obtain ⟨k, hk, hfind, hchild, hnames⟩ := h.child hf hp hm
    exact ⟨k, hfind, _, mem_rebuilt hk, id_rebuilt plan k, hchild, hnames⟩
  · intro m hm
    have hentry := mem_map_of_mem (f := entry) hm
    refine ⟨h.makes.fresh _ hentry, Option.bind_eq_some_iff.mpr ⟨m.id, ?_, h.get?_made hf hm⟩⟩
    exact h.makes.lookup_new hentry
  · refine pruned_rebuilt hf.ids_lt (fun m hm => h.nextId_le hm) fun u hu => ?_
    obtain ⟨container, ho⟩ := h.planned.expands hu
    exact ho.unexpanded
  · intro k hk hkind
    refine ⟨_, mem_rebuilt hk, id_rebuilt plan k, ?_, fun c hc => ?_⟩
    · rw [children_rebuilt, if_pos hkind, map_flatMap]
      simp only [map_cons, id_rebuilt]
    · have hsub := (hoisted_sublist (fun i => (plan i).made) c).trans
        (made_sublist (mem_walk_of_child hk hc))
      refine List.Pairwise.sublist (hsub.map SymbolTree.id) ?_
      rw [h.numbers]
      exact pairwise_lt_range'

end Top

end Result

/-- Expansion never fails, and does what some plan says. -/
lemma exists_walked {f : Forest} (hf : f.Consistent) : ∃ plan e',
    Walked plan [] f.root ⟨f.index, f.nextId, [], []⟩ e' ∧ (expandForest f).result =
      .ok { f with root := f.root.rebuilt plan, index := e'.index, nextId := e'.nextId } := by
  obtain ⟨plan, e', hwalked⟩ := walked_expandTree f.root [] f.root mem_cons_self hf.ids_nodup
    ⟨f.index, f.nextId, [], []⟩
  have hname : f.root.longname = containerName [] := by
    rw [longname, hf.root_symbol]
    rfl
  exact ⟨plan, e', hwalked, result_expandForest.mpr ⟨_, e', hname ▸ hwalked.gives, rfl⟩⟩

/-- **The typedefs of described properties are fresh and stand behind their owners.** Expansion of
what building and merging leave never fails, and gives what expansion in place gives; each typedef
is a child of the nearest container around its owner, under a name and a longname of its own;
nothing else of the tree moves; and behind each child of a container stand the typedefs for it and
below it, in the order in which they are made. Each name is the first candidate that is free, so the
search for it ends. -/
theorem expandForest_hoists {filter : Option DocletFilter} {doclets : List Doclet}
    {built merged : Forest} (hbuilt : (buildForest filter doclets).result = .ok built)
    (hmerged : (mergeOverloads built).result = .ok merged) :
    (∃ expanded typedefs, (expandForest merged).result = .ok expanded ∧
      (expandInPlace merged).result = .ok expanded ∧ merged.Hoists expanded typedefs) ∧
    ∀ (e : Expansion) (container : String) (owner : Symbol) (root : String),
      ∃ n, typedefName e container owner root =
          numberedFrom 2 (toIdentifier owner.name ++ "_" ++ toIdentifier root) n ∧
        ¬ e.Occupied container (typedefName e container owner root) ∧
        ∀ m < n, e.Occupied container
          (numberedFrom 2 (toIdentifier owner.name ++ "_" ++ toIdentifier root) m) := by
  have hf := consistent_mergeOverloads (consistent_buildForest hbuilt) hmerged
  obtain ⟨plan, e', hwalked, hresult⟩ := exists_walked hf
  exact ⟨⟨_, _, hresult, (result_expandInPlace hf).trans hresult, hwalked.hoists hf⟩,
    exists_typedefName⟩

/-- A namespace with a class, whose method has described properties of two parameters, with a member
whose name the typedef of the first would have, and with a function with described properties. -/
def describedProperties : List Doclet :=
  [.bare "N" none (.container false),
   .bare "N.C" (some "N") (.classLike ⟨.classForm, [], [], [], [], none, false, false⟩),
   .bare "N.C#m" (some "N.C") (.callable [.bare "o.a", .bare "p.b"] []),
   .bare "N.m_o" (some "N") (.value false none false),
   .bare "N.f" (some "N") (.callable [.bare "o.a"] [])]

/-- The typedefs of the method come behind the class, the first with a number behind its name, and
that of the function behind the function. -/
theorem expandForest_hoists_describedProperties : ∃ built merged expanded typedefs,
    (buildForest none describedProperties).result = .ok built ∧
      (mergeOverloads built).result = .ok merged ∧ (expandForest merged).result = .ok expanded ∧
      (expanded.nodes.map fun t => (t.longname, t.children.map SymbolTree.name)) =
        [("N", ["C", "m_o_2", "m_p", "m_o", "f", "f_o"]), ("N.C", ["m"]), ("N.C#m", []),
          ("N.m_o_2", []), ("N.m_p", []), ("N.m_o", []), ("N.f", []), ("N.f_o", [])] ∧
      merged.Hoists expanded typedefs := by
  have hrun : ((symbolForest none describedProperties).result.toOption.map fun f =>
      f.nodes.map fun t => (t.longname, t.children.map name)) =
        some [("N", ["C", "m_o_2", "m_p", "m_o", "f", "f_o"]), ("N.C", ["m"]), ("N.C#m", []),
          ("N.m_o_2", []), ("N.m_p", []), ("N.m_o", []), ("N.f", []), ("N.f_o", [])] := by
    decide +kernel
  obtain ⟨forest, hok, hnodes⟩ := Run.toOption_map.mp hrun
  obtain ⟨built, hbuilt, merged, hmerged, hforest⟩ :=
    result_symbolForest.mp hok
  obtain ⟨expanded, typedefs, hexpanded, -, hhoists⟩ := (expandForest_hoists hbuilt hmerged).1
  cases hforest.symm.trans hexpanded
  exact ⟨built, merged, forest, typedefs, hbuilt, hmerged, hforest, hnodes, hhoists⟩

end AmbientDecl

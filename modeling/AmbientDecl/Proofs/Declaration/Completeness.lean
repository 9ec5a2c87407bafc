import AmbientDecl.Proofs.Declaration.Name
import AmbientDecl.Proofs.Declaration.Parts
import AmbientDecl.Proofs.Forest.Stages

/-!
# Every symbol is declared once

The declarations of a forest can be read as parts of its symbols: everything is declared, nothing is
declared twice, and every declaration stands in the block of its parent.

**Children.** The children of a class stand in its body or in the namespace beside it, those of any
other symbol in its namespace. `perm_outside` counts them.

**The recursion.** `reads_ownDocs` is for what is printed of a symbol alone, `reads_declaration` for
a symbol with everything below it; the four cases are those of `Printer.declaration`.

**The result.** `Forest.ReadsText` is what an emission is expected to give, and
`readsText_emitDeclarations` says that it does.
-/

namespace AmbientDecl

open List SymbolTree Printer

/-- What has been checked before declarations are printed. -/
structure Forest.Printable (f : Forest) : Prop where
  callable : ∀ t ∈ f.nodes, t.kind = .functionDecl → t.symbol.signatures ≠ []
  /-- There is one top level. -/
  roots : ∀ t ∈ f.nodes, t.kind ≠ .root
  top : f.root.kind = .root

namespace SymbolTree

variable {t c : SymbolTree}

lemma isInlineIn_eq_false (hclass : t.kind ≠ .classDecl) (hinterface : t.kind ≠ .interfaceDecl) :
    t.isInlineIn c = false := by
  simp [isInlineIn, hclass, hinterface]

/-- A member in a body is a function or a member, so nothing stands in a body of its own. -/
lemma kind_of_isInlineIn (h : t.isInlineIn c = true) :
    c.kind = .functionDecl ∨ c.kind = .memberDecl := by
  simp only [isInlineIn, Bool.and_eq_true, Bool.or_eq_true, decide_eq_true_eq] at h
  exact h.1.2

lemma companions_eq_children (hclass : t.kind ≠ .classDecl) (hinterface : t.kind ≠ .interfaceDecl) :
    t.companions = t.children := by
  rw [companions, filter_eq_self]
  intro c _
  simp [isInlineIn_eq_false hclass hinterface]

lemma kind_of_isTopModuleIn (h : t.isTopModuleIn c = true) : c.kind = .moduleDecl := by
  simp only [isTopModuleIn, Bool.and_eq_true, decide_eq_true_eq] at h
  exact h.1

/-- The kinds for which only a namespace is declared. -/
lemma kind_of_isNamespaceIn (hinline : t.isInlineIn c = false) (h : t.isNamespaceIn c = true) :
    c.kind = .moduleDecl ∨ c.kind = .namespaceDecl ∨ c.kind = .memberDecl := by
  rw [isNamespaceIn] at h
  split at h <;> simp_all

/-- The other kinds, below the top level: a container is declared by its block. -/
lemma isContainer_eq_false (hroot : c.kind ≠ .root) (htop : t.isTopModuleIn c = false)
    (h : t.isNamespaceIn c = false) : c.kind.isContainer = false := by
  simp only [isTopModuleIn, Bool.and_eq_false_iff, decide_eq_false_iff_not] at htop
  rw [isNamespaceIn] at h
  split at h <;> simp_all [SymbolKind.isContainer]

end SymbolTree

section Mentions

variable {parent t : SymbolTree}

lemma mentions_of_isInlineIn (h : parent.isInlineIn t = true) :
    mentions parent t = if t.children.isEmpty then [] else [.companion t.id] := by
  have hkind := kind_of_isInlineIn h
  have hcompanions : t.companions = t.children :=
    companions_eq_children (by grind) (by grind)
  cases hempty : t.children.isEmpty <;> simp [mentions, hasCompanion, h, hcompanions, hempty]

lemma mentions_of_space (hinline : parent.isInlineIn t = false)
    (hkind : t.kind = .moduleDecl ∨ t.kind = .namespaceDecl ∨ t.kind = .memberDecl) :
    mentions parent t = [.declaration t.id] := by
  rcases hkind with hkind | hkind | hkind <;> simp [mentions, hasCompanion, hinline, hkind]

lemma mentions_of_own (hinline : parent.isInlineIn t = false)
    (hspace : parent.isNamespaceIn t = false) (hcontainer : t.kind.isContainer = false) :
    mentions parent t
      = .declaration t.id :: if t.companions.isEmpty then [] else [.companion t.id] := by
  have hmember : t.kind = .memberDecl → t.companions = [] := by
    intro hkind
    simp only [isNamespaceIn, hkind, Bool.or_eq_false_iff,
      Bool.not_eq_eq_eq_not, Bool.not_false, List.isEmpty_iff] at hspace
    simp [companions, hspace.2]
  cases hempty : t.companions.isEmpty <;> cases hkind : t.kind <;>
    simp_all [mentions, hasCompanion, SymbolKind.isContainer]

lemma outside_of_isInlineIn (h : parent.isInlineIn t = true) :
    outside parent t = t.nodes.map SymbolTree.id := by
  simp [outside, h]

lemma outside_of_not_inline (h : parent.isInlineIn t = false) :
    outside parent t = t.id :: t.nodes.map SymbolTree.id := by
  simp [outside, h]

end Mentions

/-- Counted together, what the body and the namespace of a symbol declare is everything below it. -/
lemma perm_outside (t : SymbolTree) :
    ((t.children.filter t.isInlineIn).map SymbolTree.id ++ t.children.flatMap (outside t)).Perm
      (t.nodes.map SymbolTree.id) := by
  rw [nodes_eq, map_flatMap]
  generalize t.children = cs
  induction cs with
  | nil => exact Perm.refl _
  | cons c rest ih =>
    have hwalk : c.walk.map SymbolTree.id = c.id :: c.nodes.map SymbolTree.id := by
      rw [walk_eq, map_cons]
    rw [perm_iff_count] at ih ⊢
    intro id
    have hcount := ih id
    by_cases hc : t.isInlineIn c = true
    · simp only [filter_cons, hc, ↓reduceIte, map_cons, flatMap_cons, outside,
        nil_append, hwalk, count_append, count_cons] at hcount ⊢
      omega
    · simp only [filter_cons, hc, Bool.false_eq_true, ↓reduceIte, flatMap_cons, outside,
        hwalk, count_append, count_cons, count_nil] at hcount ⊢
      omega

lemma perm_outside_of_not_class {t : SymbolTree} (hclass : t.kind ≠ .classDecl)
    (hinterface : t.kind ≠ .interfaceDecl) :
    (t.children.flatMap (outside t)).Perm (t.nodes.map SymbolTree.id) := by
  have hfilter : t.children.filter t.isInlineIn = [] := by
    simp [isInlineIn_eq_false hclass hinterface]
  simpa [hfilter] using perm_outside t

/-- Where nothing needs a namespace, a namespace would declare nothing. -/
lemma outside_eq_nil {t : SymbolTree} (h : t.companions.isEmpty = true) :
    t.children.flatMap (outside t) = [] := by
  rw [List.isEmpty_iff, companions, filter_eq_nil_iff] at h
  rw [flatMap_eq_nil_iff]
  intro c hc
  have hinline := h c hc
  simp only [Bool.or_eq_true, Bool.not_eq_eq_eq_not, Bool.not_true, isEmpty_eq_false_iff,
    not_or, Bool.not_eq_false, Decidable.not_not] at hinline
  simp [outside, hinline.1, nodes_eq, hinline.2]

section Places

variable {f : Forest} {q : Place} {c : SymbolTree}

@[simp] lemma isInline_child (q : Place) (c : SymbolTree) :
    (q.child c).isInline = q.tree.isInlineIn c := by
  simp [Place.isInline, Place.child, Place.lineage]

@[simp] lemma isTopModule_child (q : Place) (c : SymbolTree) :
    (q.child c).isTopModule = q.tree.isTopModuleIn c := by
  simp [Place.isTopModule, Place.child, Place.lineage]

lemma lead_child (hq : q.tree.kind ≠ .root) (c : SymbolTree) :
    (q.child c).lead = if q.isTopModule then "export " else "" := by
  rw [Place.lead, Place.child, Place.lineage]
  exact if_neg hq

lemma child_mem_nodes (hq : q ∈ f.places) (hc : c ∈ q.tree.children) : c ∈ f.nodes := by
  exact SymbolTree.mem_nodes_iff.mpr ⟨q.tree, tree_mem_walk hq, hc⟩

end Places

section Reading

variable {p : Printer} {f : Forest} {q : Place} {t : SymbolTree}

lemma headAt_eq_ownHead (hinline : q.isInline = false) : p.headAt q = p.ownHead q q.lead := by
  rw [headAt, hinline]
  rfl

/-- A member in the body of a class or an interface. -/
lemma reads_memberDocs (hp : p.emitComments = false) (hf : f.Printable) (hq : q ∈ f.places)
    (ht : t ∈ q.tree.children) (hinline : q.tree.isInlineIn t = true) {inClass : Bool}
    (hclass : decide (q.tree.kind = .classDecl) = inClass) :
    ∃ parts, Reads p f (p.memberDocs inClass (q.child t)).value
      [.declaration t.id] [t.id] parts := by
  have hhead : p.headAt (q.child t) = memberHead inClass (q.child t).symbol := by
    rw [headAt, isInline_child, if_pos hinline, ← hclass]
    simp [Place.child, Place.lineage]
  have hkind : (q.child t).symbol.kind = .functionDecl ∨ (q.child t).symbol.kind = .memberDecl :=
    kind_of_isInlineIn hinline
  have hcallable : (q.child t).symbol.kind = .functionDecl → (q.child t).symbol.signatures ≠ [] :=
    hf.callable t (child_mem_nodes hq ht)
  have hdeclares := declares_memberDocs hp inClass hkind hcallable
  rw [← hhead] at hdeclares
  exact ⟨_, Reads.lines ⟨q.child t, mem_placesIn_child hq ht, rfl, hdeclares⟩⟩

/-- The body of a class or an interface: what is its own, then the members in their order. -/
lemma reads_body (hp : p.emitComments = false) (hf : f.Printable) (hq : q ∈ f.places)
    (hinline : q.isInline = false) {inClass : Bool}
    (hkind : q.tree.kind = .classDecl ∨ q.tree.kind = .interfaceDecl)
    (hclass : decide (q.tree.kind = .classDecl) = inClass) {rest : String} (hrest : BreaksName rest)
    {own : List Doc} (hown : List.Forall₂ Doc.IsLine q.symbol.constructorHeads own) :
    ∃ parts, Reads p f
      [.block (p.ownHead q q.lead ++ rest) (own ++ (p.inlineDocs inClass q).value)]
      [.declaration q.tree.id]
      (q.tree.id :: (q.tree.children.filter q.tree.isInlineIn).map SymbolTree.id) parts := by
  have hmembers : ∀ t ∈ q.tree.children.filter q.tree.isInlineIn, ∃ parts,
      Reads p f (p.memberDocs inClass (q.child t)).value [.declaration t.id] [t.id] parts := by
    intro t ht
    obtain ⟨ht, hinline⟩ := mem_filter.mp ht
    exact reads_memberDocs hp hf hq ht hinline hclass
  obtain ⟨parts, hparts⟩ := Reads.flatMap hmembers
  rw [← inlineDocs_eq] at hparts
  have hfits : (Part.block q.tree.id .body (p.ownHead q q.lead ++ rest) own parts).Fits p f := by
    refine ⟨q, hq, rfl, hkind, ⟨rest, by rw [headAt_eq_ownHead hinline], hrest⟩, hown, ?_⟩
    rw [hparts.mentioned, map_eq_flatMap]
  have hblock := hparts.block hfits
  rw [← map_eq_flatMap] at hblock
  exact ⟨_, hblock⟩

/-- A kind without a body: the pieces are lines of the symbol. -/
lemma reads_bodiless (hq : q ∈ f.places) (hinline : q.isInline = false)
    (hclass : q.tree.kind ≠ .classDecl) (hinterface : q.tree.kind ≠ .interfaceDecl)
    {docs : List Doc} (hdeclares : Declares (p.ownHead q q.lead) q.symbol docs) :
    ∃ parts, Reads p f docs [.declaration q.tree.id]
      (q.tree.id :: (q.tree.children.filter q.tree.isInlineIn).map SymbolTree.id) parts := by
  have hnone : q.tree.children.filter q.tree.isInlineIn = [] := by
    simp [isInlineIn_eq_false hclass hinterface]
  rw [← headAt_eq_ownHead hinline] at hdeclares
  rw [hnone, map_nil]
  exact ⟨_, Reads.lines ⟨q, hq, rfl, hdeclares⟩⟩

/-- What is printed of a symbol alone. -/
lemma reads_ownDocs (hp : p.emitComments = false) (hf : f.Printable) (hq : q ∈ f.places)
    (ht : t ∈ q.tree.children) (hinline : q.tree.isInlineIn t = false)
    (hcontainer : t.kind.isContainer = false) :
    ∃ parts, Reads p f (p.ownDocs (q.child t) (q.child t).lead).value [.declaration t.id]
      (t.id :: (t.children.filter t.isInlineIn).map SymbolTree.id) parts := by
  have hplace : q.child t ∈ f.places := mem_placesIn_child hq ht
  have hnot : (q.child t).isInline = false := by rw [isInline_child, hinline]
  have hkind : (q.child t).symbol.kind = t.kind := rfl
  rw [ownDocs]
  cases hk : t.kind with
  | classDecl =>
    obtain ⟨rest, own, hrest, hown, heq⟩ :=
      classDocs_eq hp (hkind.trans hk) (q.child t).lead
    rw [show (q.child t).tree.kind = .classDecl from hk]
    simp only
    rw [heq]
    exact reads_body hp hf hplace hnot (Or.inl hk) (by simp [Place.child, hk]) hrest hown
  | interfaceDecl =>
    obtain ⟨rest, hrest, heq⟩ := interfaceDocs_eq hp (hkind.trans hk) (q.child t).lead
    have hnone : (q.child t).symbol.constructorHeads = [] := by
      rw [Symbol.constructorHeads, hkind.trans hk]
      rfl
    rw [show (q.child t).tree.kind = .interfaceDecl from hk]
    simp only
    rw [heq, ← nil_append (p.inlineDocs false (q.child t)).value]
    exact reads_body hp hf hplace hnot (Or.inr hk) (by simp [Place.child, hk]) hrest
      (by rw [hnone]; exact .nil)
  | functionDecl =>
    have hcallable := hf.callable t (child_mem_nodes hq ht) hk
    rw [show (q.child t).tree.kind = .functionDecl from hk]
    exact reads_bodiless hplace hnot (by simp [Place.child, hk]) (by simp [Place.child, hk])
      (declares_functionDocs hp (hkind.trans hk) hcallable _)
  | memberDecl =>
    rw [show (q.child t).tree.kind = .memberDecl from hk]
    exact reads_bodiless hplace hnot (by simp [Place.child, hk]) (by simp [Place.child, hk])
      (declares_variableDocs hp (hkind.trans hk) _)
  | typedefDecl =>
    rw [show (q.child t).tree.kind = .typedefDecl from hk]
    exact reads_bodiless hplace hnot (by simp [Place.child, hk]) (by simp [Place.child, hk])
      (declares_typedefDocs hp (hkind.trans hk) _)
  | enumDecl =>
    rw [show (q.child t).tree.kind = .enumDecl from hk]
    exact reads_bodiless hplace hnot (by simp [Place.child, hk]) (by simp [Place.child, hk])
      (declares_enumDocs hp (hkind.trans hk) _)
  | root => exact absurd hcontainer (by rw [hk]; decide)
  | moduleDecl => exact absurd hcontainer (by rw [hk]; decide)
  | namespaceDecl => exact absurd hcontainer (by rw [hk]; decide)

/-- What the induction knows about the children of a symbol. -/
def ReadsChildren (p : Printer) (f : Forest) (q : Place) : Prop :=
  ∀ c ∈ q.tree.children, ∃ parts, Reads p f (p.declaration q (q.child c).lead c).value
    (mentions q.tree c) (outside q.tree c) parts

lemma value_declarations (p : Printer) (q : Place) (lead : String) (cs : List SymbolTree) :
    (p.declarations q lead cs).value = cs.flatMap fun c => (p.declaration q lead c).value := by
  induction cs with
  | nil => rfl
  | cons c rest ih =>
    rw [declarations, Noted.value_bind, Noted.value_bind, ih]
    rfl

/-- The children of a symbol that is not the root, one after another. -/
lemma reads_declarations (hq : q.tree.kind ≠ .root) {lead : String}
    (hlead : lead = if q.isTopModule then "export " else "") (hchildren : ReadsChildren p f q) :
    ∃ parts, Reads p f (p.declarations q lead q.tree.children).value
      (q.tree.children.flatMap (mentions q.tree)) (q.tree.children.flatMap (outside q.tree))
      parts := by
  rw [value_declarations]
  refine Reads.flatMap ?_
  intro c hc
  obtain ⟨parts, hparts⟩ := hchildren c hc
  rw [lead_child hq, ← hlead] at hparts
  exact ⟨parts, hparts⟩

/-- The namespace of a symbol with all its children. -/
lemma reads_space (hq : q ∈ f.places) (hroot : q.tree.kind ≠ .root) {lead header : String}
    (hlead : lead = if q.isTopModule then "export " else "") (hchildren : ReadsChildren p f q)
    (role : Role) (hrole : role ≠ .body)
    (hheader : header = if role = .space then p.spaceHeader q else p.namespaceHeader q) :
    ∃ parts, Reads p f [.block header (p.declarations q lead q.tree.children).value]
      [if role = .companion then .companion q.tree.id else .declaration q.tree.id]
      ((if role = .companion then [] else [q.tree.id]) ++ q.tree.children.flatMap (outside q.tree))
      parts := by
  obtain ⟨parts, hparts⟩ := reads_declarations hroot hlead hchildren
  have hfits : (Part.block q.tree.id role header [] parts).Fits p f := by
    cases role with
    | body => exact absurd rfl hrole
    | space => exact ⟨q, hq, rfl, hheader, rfl, hparts.mentioned⟩
    | companion => exact ⟨q, hq, rfl, hheader, rfl, hparts.mentioned⟩
  exact ⟨_, hparts.block hfits⟩

lemma value_declaration_eq (p : Printer) (q : Place) (lead : String) (t : SymbolTree) :
    (p.declaration q lead t).value = let here := q.child t
      let space := Doc.block (lead ++ "namespace " ++ p.nameAt here)
        (p.declarations here "" t.children).value
      if q.tree.isTopModuleIn t then
        p.remarks t.symbol.remarks ++
          [.block (moduleHeader t.name) (p.declarations here "export " t.children).value]
      else if q.tree.isInlineIn t then if t.children.isEmpty then [] else [space]
      else if q.tree.isNamespaceIn t then p.remarks t.symbol.remarks ++ [space]
      else (p.ownDocs here lead).value ++ if t.companions.isEmpty then [] else [space] := by
  cases t with
  | node i s cs =>
    have htree : (q.child (.node i s cs)).tree = .node i s cs := rfl
    rw [declaration, htree]
    split_ifs <;> simp_all [children, symbol, name]

/-- A module at the top level or a namespace: its block declares it. -/
lemma reads_declaring (hplace : q.child t ∈ f.places) (hinline : q.tree.isInlineIn t = false)
    (hkind : t.kind = .moduleDecl ∨ t.kind = .namespaceDecl ∨ t.kind = .memberDecl)
    {lead header : String} (hlead : lead = if q.tree.isTopModuleIn t then "export " else "")
    (hheader : header = p.spaceHeader (q.child t)) (hchildren : ReadsChildren p f (q.child t)) :
    ∃ parts, Reads p f [.block header (p.declarations (q.child t) lead t.children).value]
      (mentions q.tree t) (outside q.tree t) parts := by
  have hroot : (q.child t).tree.kind ≠ .root := fun h => by
    rw [show t.kind = .root from h] at hkind
    simp at hkind
  rw [← isTopModule_child] at hlead
  obtain ⟨parts, hparts⟩ := reads_space hplace hroot hlead hchildren .space (by decide) hheader
  have hnodes : (t.children.flatMap (outside t)).Perm (t.nodes.map SymbolTree.id) :=
    perm_outside_of_not_class (by grind) (by grind)
  rw [mentions_of_space hinline hkind, outside_of_not_inline hinline]
  exact ⟨parts, hparts.perm (hnodes.cons t.id)⟩

/-- A member in the body of a class, outside of the body: what belongs to it, if anything does. -/
lemma reads_inlined (hinline : q.tree.isInlineIn t = true) {space : Doc}
    (hspace : ∃ parts, Reads p f [space] [.companion t.id] (t.children.flatMap (outside t)) parts) :
    ∃ parts, Reads p f (if t.children.isEmpty then [] else [space]) (mentions q.tree t)
      (outside q.tree t) parts := by
  rw [mentions_of_isInlineIn hinline, outside_of_isInlineIn hinline]
  by_cases hempty : t.children.isEmpty = true
  · have hnone : t.nodes = [] := by
      simp [nodes_eq, List.isEmpty_iff.mp hempty]
    rw [if_pos hempty, if_pos hempty, hnone]
    exact ⟨[], Reads.nil p f⟩
  · have hkind := kind_of_isInlineIn hinline
    have hnodes : (t.children.flatMap (outside t)).Perm (t.nodes.map SymbolTree.id) :=
      perm_outside_of_not_class (by grind) (by grind)
    rw [if_neg hempty, if_neg hempty]
    obtain ⟨parts, hparts⟩ := hspace
    exact ⟨parts, hparts.perm hnodes⟩

/-- A declaration of its own, and a namespace beside it if something needs one. -/
lemma reads_beside (hinline : q.tree.isInlineIn t = false) (hnot : q.tree.isNamespaceIn t = false)
    (hcontainer : t.kind.isContainer = false) {docs : List Doc} {space : Doc}
    (hown : ∃ parts, Reads p f docs [.declaration t.id]
      (t.id :: (t.children.filter t.isInlineIn).map SymbolTree.id) parts)
    (hspace : ∃ parts, Reads p f [space] [.companion t.id] (t.children.flatMap (outside t)) parts) :
    ∃ parts, Reads p f (docs ++ if t.companions.isEmpty then [] else [space]) (mentions q.tree t)
      (outside q.tree t) parts := by
  obtain ⟨own, hown⟩ := hown
  rw [mentions_of_own hinline hnot hcontainer, outside_of_not_inline hinline]
  have hnodes := perm_outside t
  by_cases hempty : t.companions.isEmpty = true
  · rw [outside_eq_nil hempty, append_nil] at hnodes
    rw [if_pos hempty, if_pos hempty, append_nil]
    exact ⟨own, hown.perm (hnodes.cons t.id)⟩
  · rw [if_neg hempty, if_neg hempty]
    obtain ⟨parts, hparts⟩ := hspace
    exact ⟨own ++ parts, (hown.append hparts).perm (hnodes.cons t.id)⟩

/-- **What is printed for a child can be read as parts that fit.** -/
lemma reads_declaration (hp : p.emitComments = false) (hf : f.Printable) :
    ∀ t, ∀ q ∈ f.places, t ∈ q.tree.children →
      ∃ parts, Reads p f (p.declaration q (q.child t).lead t).value (mentions q.tree t)
        (outside q.tree t) parts := by
  intro t
  induction t using induct with
  | node i s cs ih =>
    intro q hq ht
    have hplace : q.child (.node i s cs) ∈ f.places := mem_placesIn_child hq ht
    have hroot : (node i s cs).kind ≠ .root := hf.roots _ (child_mem_nodes hq ht)
    have hchildren : ReadsChildren p f (q.child (.node i s cs)) :=
      fun c hc => ih c hc _ hplace hc
    generalize node i s cs = t at ht hplace hroot hchildren ⊢
    simp only [value_declaration_eq, remarks_eq_nil hp, nil_append]
    by_cases htop : q.tree.isTopModuleIn t = true
    · have hkind := kind_of_isTopModuleIn htop
      have hinline : q.tree.isInlineIn t = false := by simp [isInlineIn, hkind]
      rw [if_pos htop]
      exact reads_declaring hplace hinline (Or.inl hkind) (by simp [htop])
        (by simp [spaceHeader, htop]; rfl) hchildren
    rw [if_neg htop]
    have hspace : ∃ parts, Reads p f [.block ((q.child t).lead ++ "namespace " ++
        p.nameAt (q.child t)) (p.declarations (q.child t) "" t.children).value]
        [.companion t.id] (t.children.flatMap (outside t)) parts :=
      reads_space hplace hroot (by simp [htop]) hchildren .companion (by decide) rfl
    by_cases hinline : q.tree.isInlineIn t = true
    · rw [if_pos hinline]
      exact reads_inlined hinline hspace
    rw [if_neg hinline]
    rw [Bool.not_eq_true] at hinline htop
    by_cases hnamespace : q.tree.isNamespaceIn t = true
    · rw [if_pos hnamespace]
      exact reads_declaring hplace hinline (kind_of_isNamespaceIn hinline hnamespace)
        (by simp [htop]) (by simp [spaceHeader, htop, namespaceHeader]) hchildren
    rw [if_neg hnamespace]
    rw [Bool.not_eq_true] at hnamespace
    have hcontainer := isContainer_eq_false hroot htop hnamespace
    exact reads_beside hinline hnamespace hcontainer
      (reads_ownDocs hp hf hq ht hinline hcontainer) hspace

end Reading

/-- A text that can be read as the declarations of a forest, one list of parts for each symbol at
the top level. -/
structure Forest.ReadsText (f : Forest) (p : Printer) (unit text : String)
    (parts : List (List Part)) : Prop where
  text : text = layout unit (parts.map Part.allDocs)
  nested : Nested unit 0 (parts.flatMap fun ps => Doc.allLines unit 0 (Part.allDocs ps))
  /-- Outside all blocks stand the symbols of the top level in their order. -/
  mentioned : parts.map (fun ps => ps.map Part.mention) = f.root.children.map (mentions f.root)
  /-- In every block stand the children that belong there, in their order. -/
  fits : ∀ part ∈ Part.walkAll parts.flatten, part.Fits p f
  /-- Every symbol below the root is declared. -/
  declared : (Part.declared parts.flatten).Perm (f.nodes.map SymbolTree.id)
  once : (Part.declared parts.flatten).Nodup

section Emission

variable {settings : Settings} {f : Forest} {text : String}

/-- An emission that succeeds has checked the forest and lays the declarations out. -/
lemma result_emitDeclarations (h : (emitDeclarations settings f).result = .ok text) :
    (Emitter.check f).result = .ok () ∧
      text = layout settings.output.indent (f.root.children.map fun c =>
        ((Emitter.named settings f).printer.declaration f.top "declare " c).value) := by
  rw [emitDeclarations_eq] at h
  obtain ⟨_, hcheck, h⟩ := Run.result_bind.mp h
  simp only [Run.result_noteAll_bind, Run.result_reach_bind, Run.result_pure] at h
  refine ⟨hcheck, ?_⟩
  rw [← h, Emitter.topLevel, Noted.value_mapM]
  rfl

/-- What the check lets through can be printed. -/
lemma printable_of_check (hf : f.Consistent) (h : (Emitter.check f).result = .ok ()) :
    f.Printable := by
  rw [Emitter.check] at h
  cases hfind : f.nodes.find? Emitter.isUncallable with
  | some t =>
    rw [hfind] at h
    exact nomatch (show true = false from Run.result_report.mp h)
  | none =>
    simp only [hfind] at h
    split at h
    case isTrue => simp at h
    case isFalse hroots =>
      refine ⟨?_, ?_, ?_⟩
      · intro t ht hkind hnone
        exact find?_eq_none.mp hfind t ht (by simp [Emitter.isUncallable, hkind, hnone])
      · intro t ht hkind
        exact hroots (any_eq_true.mpr ⟨t, ht, by simpa using hkind⟩)
      · rw [kind, hf.root_symbol]
        rfl

/-- A module with a class, in it a method, and a variable that belongs to the method. -/
def nestedMembers : List Doclet :=
  [.bare "module:m" none (.container true), .bare "module:m.C" (some "module:m")
    (.classLike ⟨.classForm, [], [], [], [], none, true, false⟩),
   .bare "module:m.C#f" (some "module:m.C") (.callable [] []),
   .bare "module:m.C#f.x" (some "module:m.C#f") (.value false none false)]

/-- The declarations of `nestedMembers`: the variable stands in a namespace beside the class. -/
def nestedMembersText : String :=
  "declare module 'm' \x7b\n" ++ "  export class C \x7b\n    f(): void;\n  \x7d\n" ++
      "  export namespace C \x7b\n    namespace f \x7b\n      var x: any;\n    \x7d\n  \x7d\n\x7d\n"

end Emission

end AmbientDecl

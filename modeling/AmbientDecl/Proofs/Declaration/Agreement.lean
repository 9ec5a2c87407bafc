import AmbientDecl.Proofs.Declaration.Completeness

/-!
# References agree with declarations

A type is referred to by the names under which it and the namespaces around it are declared.

**Where a piece stands.** `Inside` says of a piece of the output that it stands in blocks with given
headers. `headersAround` are the headers that are written for names: those of namespaces, after that
of a module if there is one.

**The way to a symbol.** `Directory.namesTo` are the names on the way to a symbol, without the
module that it is in. One symbol further down is one name more (`namesTo_child`), one block further
in is one header more (`headersIn_child`), and so the two agree at every place
(`inside_declaration`).

**Names.** A symbol on the way to a type needs a namespace, so it has been given a name
(`lookup_path`).
-/

namespace AmbientDecl

open Text Printer List SymbolTree Directory

variable {d : Doc} (dir : Directory)

/-- A piece that stands inside blocks with these headers, the outermost first. -/
inductive Inside : List Doc → List String → Doc → Prop
  | here {docs : List Doc} {d : Doc} (mem : d ∈ docs) : Inside docs [] d
  | within {docs body : List Doc} {header : String} {headers : List String} {d : Doc}
      (mem : .block header body ∈ docs) (inside : Inside body headers d) :
      Inside docs (header :: headers) d

lemma Inside.body {docs body : List Doc} {headers : List String} {header : String} {b : Doc}
    (h : Inside docs headers b) (hb : b = .block header body) (hd : d ∈ body) :
    Inside docs (headers ++ [header]) d := by
  induction h with
  | here mem => exact .within (hb ▸ mem) (.here hd)
  | within mem _ ih => exact .within mem (ih hb)

/-- The headers of namespaces inside each other, of which the first is led in by a word. -/
def spaceHeaders (lead : String) : List String → List String
  | [] => []
  | name :: names => (lead ++ "namespace " ++ name) :: spaceHeaders "" names

/-- The headers around what stands in namespaces, and in a module if there is one. -/
def headersAround (modulePath : Option String) (spaces : List String) : List String :=
  match modulePath with
  | some path => moduleHeader path :: spaceHeaders "export " spaces
  | none => spaceHeaders "declare " spaces

/-- The word that leads in what stands there. -/
def leadInside (modulePath : Option String) (spaces : List String) : String :=
  if spaces ≠ [] then ""
  else if modulePath.isSome then "export "
  else "declare "

lemma spaceHeaders_append (lead : String) (spaces : List String) (name : String) :
    spaceHeaders lead (spaces ++ [name]) =
      spaceHeaders lead spaces ++ [(if spaces ≠ [] then "" else lead) ++ "namespace " ++ name] := by
  induction spaces generalizing lead with
  | nil => rfl
  | cons first rest ih =>
    rw [cons_append, spaceHeaders, ih, spaceHeaders, cons_append]
    simp

lemma headersAround_append (modulePath : Option String) (spaces : List String) (name : String) :
    headersAround modulePath (spaces ++ [name]) = headersAround modulePath spaces ++
      [leadInside modulePath spaces ++ "namespace " ++ name] := by
  cases modulePath <;> simp [headersAround, leadInside, spaceHeaders_append]

/-- The names under which a symbol and the namespaces around it are declared, the outermost first. A
module around them is left out. -/
def Directory.namesTo (dir : Directory) (q : Place) : List String :=
  (if q.module?.isSome then q.path.tail else q.path).map dir.nameOf

/-- The headers around what stands in the block of a symbol. -/
def Printer.headersIn (p : Printer) (q : Place) : List String :=
  headersAround (q.module?.map SymbolTree.name) (p.directory.namesTo q)

section Way

variable {f : Forest} {q : Place} {c : SymbolTree}

lemma SymbolTree.root_of_isTopModuleIn {t : SymbolTree} (h : t.isTopModuleIn c = true) :
    t.kind = .root := by
  simp only [isTopModuleIn, Bool.and_eq_true, decide_eq_true_eq] at h
  exact h.2

lemma path_child (hc : c.kind ≠ .root) : (q.child c).path = q.path ++ [c] := by
  simp [Place.path, Place.child, Place.lineage, hc]

lemma path_eq_nil (hq : q.tree.kind = .root) : q.path = [] := by
  simp [Place.path, Place.lineage, hq]

lemma path_ne_nil (hq : q.tree.kind ≠ .root) : q.path ≠ [] := by
  simp [Place.path, Place.lineage, hq]

lemma module?_child (hq : q.tree.kind ≠ .root) (hc : c.kind ≠ .root) :
    (q.child c).module? = q.module? := by
  rw [Place.module?, Place.module?, path_child hc, head?_append_of_ne_nil _ (path_ne_nil hq)]

lemma module?_top (hq : q.tree.kind = .root) (hc : c.kind ≠ .root) :
    (q.child c).module? = if c.kind = .moduleDecl then some c else none := by
  rw [Place.module?, path_child hc, path_eq_nil hq, nil_append, head?_cons]
  exact Option.filter_some.trans (by simp)

/-- A symbol further down is a name more. -/
lemma namesTo_child (hc : c.kind ≠ .root) (htop : q.tree.isTopModuleIn c = false) :
    dir.namesTo (q.child c) = dir.namesTo q ++ [dir.nameOf c] := by
  by_cases hq : q.tree.kind = .root
  · have hmodule : c.kind ≠ .moduleDecl := by simpa [isTopModuleIn, hq] using htop
    simp [namesTo, module?_top hq hc, hmodule, path_child hc, path_eq_nil hq]
  · simp only [namesTo, module?_child hq hc, path_child hc]
    split
    · rw [tail_append_of_ne_nil (path_ne_nil hq), map_append]
      rfl
    · rw [map_append]
      rfl

lemma module?_of_isTopModule (hc : c.kind ≠ .root) (htop : q.tree.isTopModuleIn c = true) :
    (q.child c).module? = some c := by
  rw [module?_top (root_of_isTopModuleIn htop) hc, if_pos (kind_of_isTopModuleIn htop)]

lemma namesTo_of_isTopModule (hc : c.kind ≠ .root)
    (htop : q.tree.isTopModuleIn c = true) : dir.namesTo (q.child c) = [] := by
  have hroot := root_of_isTopModuleIn htop
  simp [namesTo, module?_of_isTopModule hc htop, path_child hc, path_eq_nil hroot]

lemma namesTo_root (hq : q.tree.kind = .root) : dir.namesTo q = [] := by
  simp [namesTo, path_eq_nil hq]

lemma module?_root (hq : q.tree.kind = .root) : q.module? = none := by
  simp [Place.module?, path_eq_nil hq]

lemma module?_of_not_isTopModule (hc : c.kind ≠ .root) (htop : q.tree.isTopModuleIn c = false) :
    (q.child c).module? = q.module? := by
  by_cases hroot : q.tree.kind = .root
  · have hnot : c.kind ≠ .moduleDecl := by simpa [isTopModuleIn, hroot] using htop
    rw [module?_top hroot hc, if_neg hnot, module?_root hroot]
  · rw [module?_child hroot hc]

/-- What stands in the block of a symbol is led in as the headers around it say. -/
lemma lead_eq_leadInside (hf : f.Printable) (dir : Directory) (hq : q ∈ f.places) (c : SymbolTree) :
    (q.child c).lead = leadInside (q.module?.map SymbolTree.name) (dir.namesTo q) := by
  have hcases : q.tree.kind ≠ .root → leadInside (q.module?.map name) (dir.namesTo q) =
        if q.isTopModule then "export " else "" := by
    refine places_induct (P := fun q => q.tree.kind ≠ .root →
      leadInside (q.module?.map name) (dir.namesTo q) =
        if q.isTopModule then "export " else "") ?_ ?_ q hq
    · intro hroot
      exact absurd hf.top hroot
    · intro r hr _ d hd _
      have hkind := hf.roots d (child_mem_nodes hr hd)
      rw [isTopModule_child]
      cases htop : r.tree.isTopModuleIn d with
      | true =>
        simp [leadInside, module?_of_isTopModule hkind htop, namesTo_of_isTopModule dir hkind htop]
      | false => simp [leadInside, namesTo_child dir hkind htop]
  by_cases hroot : q.tree.kind = .root
  · rw [module?_root hroot, namesTo_root dir hroot, Place.lead, Place.child, Place.lineage]
    exact if_pos hroot
  · rw [lead_child hroot, hcases hroot]

/-- A block further in is a header more. -/
lemma headersIn_child (hf : f.Printable) (p : Printer) (hq : q ∈ f.places)
    (hc : c ∈ q.tree.children) :
    p.headersIn (q.child c) = p.headersIn q ++ [p.spaceHeader (q.child c)] := by
  have hkind := hf.roots c (child_mem_nodes hq hc)
  rw [Printer.spaceHeader, isTopModule_child]
  cases htop : q.tree.isTopModuleIn c with
  | true =>
    have hroot := root_of_isTopModuleIn htop
    rw [headersIn, headersIn, module?_of_isTopModule hkind htop,
      namesTo_of_isTopModule _ hkind htop, module?_root hroot, namesTo_root _ hroot]
    rfl
  | false =>
    rw [headersIn, headersIn, module?_of_not_isTopModule hkind htop, namesTo_child _ hkind htop,
      headersAround_append, namespaceHeader, lead_eq_leadInside hf p.directory hq]
    rfl

end Way

section Printing

variable {p : Printer} {f : Forest} {q : Place} {c : SymbolTree}

lemma mem_companions_of_companions (hc : c ∈ q.tree.children) (h : c.companions ≠ []) :
    c ∈ q.tree.companions := by
  have hchildren : c.children ≠ [] := by
    intro hnone
    simp [companions, hnone] at h
  simp [companions, hc, hchildren]

lemma mem_companions_of_isType (hc : c ∈ q.tree.children) (h : c.kind.isType = true) :
    c ∈ q.tree.companions := by
  have hinline : q.tree.isInlineIn c = false := by
    cases hk : c.kind <;> simp_all [isInlineIn, SymbolKind.isType]
  simp [companions, hc, hinline]

/-- A symbol that stands in a block under a name, because it has a block itself or is a type. -/
def Place.NeedsName (q : Place) : Prop := q.tree.companions ≠ [] ∨ q.tree.kind.isType = true

/-- Whatever is around such a symbol needs a name too, so one goes down to it from the top level
along companions. -/
lemma needsName_induct {P : Place → Prop} (htop : P f.top)
    (hchild : ∀ r ∈ f.places, P r → ∀ c ∈ r.tree.companions, P (r.child c)) (hq : q ∈ f.places)
    (h : q.NeedsName) : P q := by
  revert h
  refine places_induct (P := fun q => q.NeedsName → P q) (fun _ => htop) ?_ q hq
  intro r hr ih c hc h
  have hmem : c ∈ r.tree.companions := by
    rcases h with hcompanions | htype
    · exact mem_companions_of_companions hc hcompanions
    · exact mem_companions_of_isType hc htype
  exact hchild r hr (ih (Or.inl (ne_nil_of_mem hmem))) c hmem

/-- A symbol with companions is printed with a block around them. -/
lemma block_mem_declaration (h : c.companions ≠ []) :
    .block (p.spaceHeader (q.child c))
      (p.declarations (q.child c) (if q.tree.isTopModuleIn c then "export "
        else "") c.children).value ∈
        (p.declaration q (q.child c).lead c).value := by
  have hchildren : c.children ≠ [] := by
    intro hnone
    simp [companions, hnone] at h
  rw [value_declaration_eq]
  dsimp only
  rw [spaceHeader, isTopModule_child]
  by_cases htop : q.tree.isTopModuleIn c = true
  · rw [if_pos htop, if_pos htop, if_pos htop]
    exact mem_append_right _ (mem_singleton.mpr rfl)
  rw [if_neg htop, if_neg htop, if_neg htop]
  by_cases hinline : q.tree.isInlineIn c = true
  · rw [if_pos hinline, if_neg (by simpa using hchildren)]
    exact mem_singleton.mpr rfl
  rw [if_neg hinline]
  by_cases hspace : q.tree.isNamespaceIn c = true
  · rw [if_pos hspace]
    exact mem_append_right _ (mem_singleton.mpr rfl)
  · rw [if_neg hspace, if_neg (by simpa using h)]
    exact mem_append_right _ (mem_singleton.mpr rfl)

lemma mem_declaration_of_ownDocs {lead : String} (h : c.kind.isType = true)
    (hd : d ∈ (p.ownDocs (q.child c) lead).value) : d ∈ (p.declaration q lead c).value := by
  have htop : q.tree.isTopModuleIn c = false := by
    cases hk : c.kind <;> simp_all [isTopModuleIn, SymbolKind.isType]
  have hinline : q.tree.isInlineIn c = false := by
    cases hk : c.kind <;> simp_all [isInlineIn, SymbolKind.isType]
  have hspace : q.tree.isNamespaceIn c = false := by
    cases hk : c.kind <;> simp_all [isNamespaceIn, SymbolKind.isType]
  rw [value_declaration_eq]
  simp only [htop, hinline, hspace, Bool.false_eq_true, ↓reduceIte]
  exact mem_append_left _ hd

/-- The declarations at the top level. -/
def Printer.topDocs (p : Printer) (f : Forest) : List (List Doc) :=
  f.root.children.map fun c => (p.declaration f.top "declare " c).value

/-- **What is printed in the block of a symbol stands inside the headers on the way to it.** -/
lemma inside_declaration (hf : f.Printable) (hq : q ∈ f.places) :
    q.tree.companions ≠ [] → ∀ c ∈ q.tree.children,
      ∀ d ∈ (p.declaration q (q.child c).lead c).value,
      Inside (p.topDocs f).flatten (p.headersIn q) d := by
  refine places_induct (P := fun q => q.tree.companions ≠ [] → ∀ c ∈ q.tree.children,
    ∀ d ∈ (p.declaration q (q.child c).lead c).value,
      Inside (p.topDocs f).flatten (p.headersIn q) d) ?_ ?_ q hq
  · intro _ c hc d hd
    have hlead : (f.top.child c).lead = "declare " := if_pos hf.top
    have hheaders : p.headersIn f.top = [] := by
      rw [headersIn, module?_root hf.top, namesTo_root _ hf.top]
      rfl
    change d ∈ (p.declaration f.top (f.top.child c).lead c).value at hd
    change Inside _ (p.headersIn f.top) d
    rw [hlead] at hd
    rw [hheaders]
    exact .here (mem_flatten.mpr ⟨_, mem_map_of_mem hc, hd⟩)
  · intro r hr ih c hc hcompanions e he d hd
    have hmem := mem_companions_of_companions hc hcompanions
    have hblock := ih (ne_nil_of_mem hmem) c hc _ (block_mem_declaration hcompanions)
    rw [headersIn_child hf p hr hc]
    refine hblock.body rfl ?_
    rw [value_declarations]
    refine mem_flatMap.mpr ⟨e, he, ?_⟩
    rwa [lead_child (hf.roots c (child_mem_nodes hr hc)), isTopModule_child] at hd

end Printing

/-- Pieces of which one starts with the head, where the name at its end is over. -/
def Headed (head : String) (docs : List Doc) : Prop :=
  ∃ d ∈ docs, ∃ rest, d.heading = head ++ rest ∧ EndsName rest

lemma headed_append {head : String} {comments : List Doc} (rest : String)
    (h : d.heading = head ++ rest) (hrest : EndsName rest) : Headed head (comments ++ [d]) :=
  ⟨d, mem_append_right _ (mem_singleton.mpr rfl), rest, h, hrest⟩

section Heading

variable {p : Printer} {here : Place} {lead : String}

lemma headed_structural (hk : here.symbol.kind = .typedefDecl) (h : here.symbol.isStructural = true)
    (comments body : List Doc) : Headed (p.ownHead here lead)
      (comments ++ [.block (lead ++ "interface " ++ p.genericName here) body]) := by
  refine headed_append _ ?_ (endsName_typeParametersText here.symbol.typeParameters)
  simp only [Doc.heading, ownHead, Symbol.keyword, hk, h, ↓reduceIte, genericName,
    String.append_assoc]

lemma headed_type (p : Printer) (lead : String) (hk : here.symbol.kind = .typedefDecl)
    (h : here.symbol.isStructural = false)
    (comments : List Doc) (text : String) : Headed (p.ownHead here lead)
      (comments ++ [.line (lead ++ "type " ++ p.genericName here ++ (" = " ++ text))]) := by
  refine headed_append (typeParametersText here.symbol.typeParameters ++ (" = " ++ text)) ?_
    ((endsName_typeParametersText _).append (endsName_definition text))
  simp only [Doc.heading, ownHead, Symbol.keyword, hk, h, Bool.false_eq_true, ↓reduceIte,
    genericName, String.append_assoc]

lemma headed_typedefDocs (hk : here.symbol.kind = .typedefDecl) :
    Headed (p.ownHead here lead) (p.typedefDocs here lead).value := by
  cases hsig : here.symbol.signatures with
  | nil =>
    simp only [typedefDocs, hsig]
    split
    · rename_i fields htype
      exact headed_structural hk (by simp [Symbol.isStructural, hsig, htype]) _ _
    · rename_i htype
      simp only [Noted.value_bind, Noted.value_pure, String.append_assoc]
      have hstruct : here.symbol.isStructural = false := by simp only [Symbol.isStructural, hsig]
      simpa only [String.append_assoc] using headed_type p lead hk hstruct _ _
  | cons sig rest =>
    cases rest with
    | nil =>
      simp only [typedefDocs, hsig, callbackDocs, Noted.value_bind, Noted.value_pure]
      have hstruct : here.symbol.isStructural = false := by simp only [Symbol.isStructural, hsig]
      have hopens : " = (" = " = " ++ "(" := rfl
      have hheaded := headed_type p lead hk hstruct (p.remarks sig.remarks)
        ("(" ++ (p.showParams here here.typeParameterNames sig.params).value ++ ") => " ++
          (p.showType here here.typeParameterNames (sig.returns.getD .void)).value ++ ";")
      simpa only [hopens, String.append_assoc] using hheaded
    | cons second others =>
      simp only [typedefDocs, hsig]
      exact headed_structural hk (by simp [Symbol.isStructural, hsig]) _ _

/-- **A type is declared by a piece that starts with its keyword and its name.** -/
lemma headed_ownDocs (p : Printer) (lead : String) (h : here.tree.kind.isType = true) :
    Headed (p.ownHead here lead) (p.ownDocs here lead).value := by
  have hparams := endsName_typeParametersText here.symbol.typeParameters
  cases hk : here.tree.kind with
  | classDecl =>
    have hkind : here.symbol.kind = .classDecl := hk
    simp only [ownDocs, hk, classDocs, Noted.value_bind, Noted.value_pure]
    refine headed_append _ ?_ ((hparams.append
      (endsName_showClause p here "extends" (here.symbol.augments.take 1))).append
        (endsName_showClause p here "implements" (here.symbol.augments.drop 1 ++
          here.symbol.implements ++ here.symbol.mixes).eraseDups))
    simp only [Doc.heading, ownHead, Symbol.keyword, hkind, genericName, String.append_assoc]
  | interfaceDecl =>
    have hkind : here.symbol.kind = .interfaceDecl := hk
    simp only [ownDocs, hk, interfaceDocs, Noted.value_bind, Noted.value_pure]
    refine headed_append _ ?_ (hparams.append (endsName_showClause p here "extends"
      ((here.symbol.augments ++ here.symbol.implements ++ here.symbol.mixes).eraseDups)))
    simp only [Doc.heading, ownHead, Symbol.keyword, hkind, genericName, String.append_assoc]
  | typedefDecl =>
    rw [ownDocs, hk]
    exact headed_typedefDocs hk
  | enumDecl =>
    have hkind : here.symbol.kind = .enumDecl := hk
    simp only [ownDocs, hk, enumDocs, Noted.value_pure]
    refine headed_append "" ?_ endsName_empty
    simp only [Doc.heading, ownHead, Symbol.keyword, hkind, String.append_assoc,
      String.append_empty]
  | root | moduleDecl | namespaceDecl | functionDecl | memberDecl =>
    rw [hk] at h
    simp [SymbolKind.isType] at h

end Heading

section Names

variable {f : Forest} {q : Place} {c : SymbolTree}

/-- **Every symbol on the way to a type has been given a name.** -/
lemma lookup_path (hf : f.Printable) (hids : f.root.ids.Nodup) (settings : Settings)
    (hq : q ∈ f.places) (h : q.NeedsName) :
    let dir := (Emitter.named settings f).printer.directory
    ∀ t ∈ q.path, dir.names.lookup t.id = some (dir.nameOf t) := by
  intro dir
  refine needsName_induct (P := fun q => ∀ t ∈ q.path, dir.names.lookup t.id = some (dir.nameOf t))
    ?_ ?_ hq h
  · intro t ht
    rw [path_eq_nil hf.top] at ht
    simp at ht
  · intro r hr ih c hc t ht
    rw [path_child (hf.roots c (child_mem_nodes hr (mem_of_mem_filter hc)))] at ht
    rcases mem_append.mp ht with ht | ht
    · exact ih t ht
    · rw [mem_singleton.mp ht]
      exact (nameOf_eq hids settings hr hc).1

end Names

/-- A reference to a symbol, printed at the place of another, that agrees with the declarations. -/
structure Agrees (p : Printer) (docs : List Doc) (owner target : Place) (reference : String) :
    Prop where
  named : ∀ t ∈ target.path, p.directory.names.lookup t.id = some (p.directory.nameOf t)
  /-- The symbol is declared under the last of the names, in blocks with the others as headers. -/
  declared : ∃ spaces name, p.directory.namesTo target = spaces ++ [name] ∧
    ∃ d ∈ (p.ownDocs target target.lead).value,
      Inside docs (headersAround (target.module?.map SymbolTree.name) spaces) d ∧
        ∃ rest, d.heading = leadInside (target.module?.map SymbolTree.name) spaces ++
          target.symbol.keyword ++ name ++ rest ∧ EndsName rest
  /-- The names are all that is printed, unless the symbol is in a module and its user is not. -/
  near : target.module? = none ∨ owner.module? = target.module? →
    reference = joined "." (p.directory.namesTo target)
  far : ∀ m, target.module? = some m → owner.module? ≠ some m → reference = importText m.name ++
      joined "" ((p.directory.namesTo target).map ("." ++ ·))

section References

variable {f : Forest} {settings : Settings} {owner target : Place} {name text : String}

lemma mem_places_of_lookup? {dir : Directory} (h : dir.lookup? name = some target) :
    target ∈ dir.places ∧ target.tree.kind.isType = true := by
  unfold lookup? at h
  split at h
  · have hfound := find?_some h
    simp only [Bool.and_eq_true] at hfound
    exact ⟨mem_of_find?_eq_some h, hfound.2⟩
  · split at h
    · simp at h
    · split at h
      · rename_i p hnamed
        obtain rfl := Option.some.inj h
        have hmem : p ∈ dir.named name := by rw [hnamed]; exact mem_singleton.mpr rfl
        obtain ⟨hplace, htype⟩ := mem_filter.mp hmem
        simp only [Bool.and_eq_true] at htype
        exact ⟨hplace, htype.1⟩
      · simp at h

lemma resolve_of_lookup? {dir : Directory} {typeParams : List String}
    (hprimitive : name ∉ primitiveNames)
    (hparams : name ∉ typeParams) (h : dir.lookup? name = some target) :
    dir.resolve owner typeParams name = some (dir.qualified target owner) := by
  rw [resolve, if_neg (by simp [hprimitive, hparams]), h]

lemma module?_of_path {top : SymbolTree} {rest : List SymbolTree} (h : target.path = top :: rest) :
    target.module? = if top.kind = .moduleDecl then some top else none := by
  rw [Place.module?, h, head?_cons]
  exact Option.filter_some.trans (by simp)

lemma qualified_near (h : target.module? = none ∨ owner.module? = target.module?) :
    dir.qualified target owner = joined "." (dir.namesTo target) := by
  cases hpath : target.path with
  | nil => simp [qualified, namesTo, hpath, joined]
  | cons top rest =>
    have hmodule := module?_of_path hpath
    by_cases htop : top.kind = .moduleDecl
    · rw [if_pos htop] at hmodule
      have howner : owner.module? = some top := by simpa [hmodule] using h
      simp [qualified, namesTo, hpath, htop, hmodule, howner]
    · rw [if_neg htop] at hmodule
      simp [qualified, namesTo, hpath, htop, hmodule]

lemma mem_walk_of_module? (howner : owner ∈ f.places) {m : SymbolTree}
    (h : owner.module? = some m) :
    m ∈ f.root.walk := by
  have hpath : m ∈ owner.path := mem_of_head? (Option.eq_some_of_filter_eq_some h)
  refine mem_walk_of_lineage howner m ?_
  exact (List.takeWhile_prefix _).subset (mem_reverse.mp hpath)

lemma qualified_far (hf : f.root.ids.Nodup) (dir : Directory) (howner : owner ∈ f.places)
    (htarget : target ∈ f.places) {m : SymbolTree} (hmodule : target.module? = some m)
    (hfar : owner.module? ≠ some m) :
    dir.qualified target owner =
      importText m.name ++ joined "" ((dir.namesTo target).map ("." ++ ·)) := by
  have hid : owner.module?.map SymbolTree.id ≠ some m.id := by
    intro h
    obtain ⟨n, hn, hid⟩ := Option.map_eq_some_iff.mp h
    have heq := inj_on_of_nodup_map hf (mem_walk_of_module? howner hn)
      (mem_walk_of_module? htarget hmodule) hid
    exact hfar (heq ▸ hn)
  cases hpath : target.path with
  | nil => simp [Place.module?, hpath] at hmodule
  | cons top rest =>
    rw [module?_of_path hpath] at hmodule
    split at hmodule
    · rename_i htop
      obtain rfl := Option.some.inj hmodule
      have hmodule' : target.module? = some top := by rw [module?_of_path hpath, if_pos htop]
      simp [qualified, namesTo, hpath, htop, hmodule', hid]
    · simp at hmodule

/-- The place of a type below its parent. -/
lemma exists_parent (hf : f.Printable) (hq : target ∈ f.places)
    (h : target.tree.kind.isType = true) :
    ∃ q ∈ f.places, ∃ c ∈ q.tree.children, target = q.child c := by
  revert h
  refine places_induct (P := fun q => q.tree.kind.isType = true →
    ∃ r ∈ f.places, ∃ c ∈ r.tree.children, q = r.child c) ?_ ?_ target hq
  · intro h
    have htop : f.root.kind = .root := hf.top
    simp [htop, SymbolKind.isType] at h
  · intro r hr _ c hc _
    exact ⟨r, hr, c, hc, rfl⟩

/-- A type is declared in the blocks on the way to it, under the name at the end of the way. -/
lemma declared_of_isType (hf : f.Printable) (p : Printer) (htarget : target ∈ f.places)
    (h : target.tree.kind.isType = true) :
    ∃ spaces name, p.directory.namesTo target = spaces ++ [name] ∧
      ∃ d ∈ (p.ownDocs target target.lead).value,
        Inside (p.topDocs f).flatten (headersAround (target.module?.map SymbolTree.name) spaces) d ∧
          ∃ rest, d.heading = leadInside (target.module?.map SymbolTree.name) spaces ++
            target.symbol.keyword ++ name ++ rest ∧ EndsName rest := by
  obtain ⟨q, hq, c, hc, rfl⟩ := exists_parent hf htarget h
  have htype : c.kind.isType = true := h
  have hroot := hf.roots c (child_mem_nodes hq hc)
  have htop : q.tree.isTopModuleIn c = false := by
    cases hk : c.kind <;> simp_all [isTopModuleIn, SymbolKind.isType]
  have hmem := mem_companions_of_isType hc htype
  obtain ⟨d, hd, rest, hheading, hrest⟩ := headed_ownDocs p (q.child c).lead h
  have hinside := inside_declaration hf hq (ne_nil_of_mem hmem) c hc d
    (mem_declaration_of_ownDocs htype hd)
  refine ⟨p.directory.namesTo q, p.directory.nameOf c, namesTo_child _ hroot htop, d, hd, ?_, rest,
    ?_, hrest⟩
  · rw [module?_of_not_isTopModule hroot htop]
    exact hinside
  · rw [module?_of_not_isTopModule hroot htop, ← lead_eq_leadInside hf p.directory hq c]
    exact hheading

/-- **References agree with declarations.** -/
theorem agrees_resolve {filter : Option DocletFilter} {doclets : List Doclet}
    (hforest : (symbolForest filter doclets).result = .ok f)
    (htext : (emitDeclarations settings f).result = .ok text) (howner : owner ∈ f.places)
    {typeParams : List String} (hprimitive : name ∉ primitiveNames) (hparams : name ∉ typeParams)
    (hlookup : (Emitter.named settings f).printer.directory.lookup? name = some target) :
    let p := (Emitter.named settings f).printer
    text = layout settings.output.indent (p.topDocs f) ∧
      ∃ reference, p.directory.resolve owner typeParams name = some reference ∧
        Agrees p (p.topDocs f).flatten owner target reference := by
  have hconsistent := consistent_symbolForest hforest
  obtain ⟨hcheck, rfl⟩ := result_emitDeclarations htext
  have hprintable := printable_of_check hconsistent hcheck
  obtain ⟨htarget, htype⟩ := mem_places_of_lookup? hlookup
  refine ⟨rfl, _, resolve_of_lookup? hprimitive hparams hlookup, ?_⟩
  exact {
    named := lookup_path hprintable hconsistent.ids_nodup settings htarget (Or.inr htype)
    declared := declared_of_isType hprintable _ htarget htype
    near := qualified_near _
    far := fun m hm hfar => qualified_far hconsistent.ids_nodup _ howner htarget hm hfar }

/-- A module with a namespace that cannot have its own name, in it two classes of one name. -/
def renamedTypes : List Doclet :=
  [.bare "module:m" none (.container true),
   .bare "module:m.delete" (some "module:m") (.container false),
   .bare "module:m.delete.T" (some "module:m.delete")
    (.classLike ⟨.classForm, [], [], [], [], none, true, false⟩),
   .bare "module:m.delete~T" (some "module:m.delete")
    (.classLike ⟨.classForm, [], [], [], [], none, true, false⟩)]

theorem agrees_resolve_renamedTypes : ∃ f target, (symbolForest none renamedTypes).result = .ok f ∧
      (Emitter.named .standard f).printer.directory.lookup? "module:m.delete~T" = some target ∧
        Agrees (Emitter.named .standard f).printer
          ((Emitter.named .standard f).printer.topDocs f).flatten f.top target
            "import(\"m\").delete_1.T_1" := by
  have hrun : ((symbolForest none renamedTypes).result.toOption.bind fun f =>
      (emitDeclarations .standard f).result.toOption.map fun _ =>
        let dir := (Emitter.named .standard f).printer.directory
        ((dir.lookup? "module:m.delete~T").isSome, dir.resolve f.top [] "module:m.delete~T")) =
          some (true, some "import(\"m\").delete_1.T_1") := by
    decide +kernel
  obtain ⟨f, hforest, hrun⟩ := Run.toOption_bind.mp hrun
  obtain ⟨text, htext, hrun⟩ := Run.toOption_map.mp hrun
  obtain ⟨hlookup, hresolve⟩ := Prod.mk.inj hrun
  obtain ⟨target, hlookup⟩ := Option.isSome_iff_exists.mp hlookup
  obtain ⟨_, reference, href, hagrees⟩ := agrees_resolve hforest htext
    (mem_placesIn_top [] f.root) (by decide) not_mem_nil hlookup
  obtain rfl := Option.some.inj (href.symm.trans hresolve)
  exact ⟨f, target, hforest, hlookup, hagrees⟩

end References

end AmbientDecl

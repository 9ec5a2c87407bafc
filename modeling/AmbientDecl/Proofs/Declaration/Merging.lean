import AmbientDecl.Proofs.Declaration.Completeness
import AmbientDecl.Proofs.Declaration.Scope

/-!
# Namespaces beside variables

Namespaces merge with each other and with declarations of their name, so they neither look at the
names that are taken nor take one. A variable, however, is nothing that a namespace can merge with.

**Names.** The name of a namespace follows from its own name alone (`spaceName`,
`name_of_isNamespaceIn`). That of a variable is the first of its candidates that is free after the
members before it (`IsVariableName`, `name_variable_eq_iff`).

**Declarations.** A variable is printed as one line, and a namespace as one block
(`value_declaration_variable`, `value_declaration_space`).
-/

namespace AmbientDecl

open Text List SymbolTree

/-- The name under which a namespace is declared: its own, unless that is a reserved word. -/
def spaceName (t : SymbolTree) : String :=
  if baseName t.name ∈ reservedWords then baseName t.name ++ "_1" else baseName t.name

/-- A name is the first candidate of a variable that is no reserved word and that no declaration
before it has, namespaces aside. -/
def IsVariableName (parent : SymbolTree) (earlier : List (SymbolTree × NameChoice)) (t : SymbolTree)
    (name : String) : Prop :=
  ∃ n, name = numberedFrom 1 (baseName t.name) n ∧ name ∉ reservedWords ∧
    ¬TakenIn parent earlier name ∧
    ∀ m < n, numberedFrom 1 (baseName t.name) m ∈ reservedWords ∨
      TakenIn parent earlier (numberedFrom 1 (baseName t.name) m)

section Names

variable {parent t : SymbolTree} {c : NameChoice} {earlier later : List (SymbolTree × NameChoice)}

lemma isReservedFor_of_not_isType {kind : SymbolKind} (h : kind.isType = false) (name : String) :
    isReservedFor kind name = true ↔ name ∈ reservedWords := by
  simp [isReservedFor, h]

lemma isType_of_isNamespaceIn (h : parent.isNamespaceIn t = true) : t.kind.isType = false := by
  cases hk : t.kind <;> simp_all [isNamespaceIn, isInlineIn, SymbolKind.isType]

lemma isTopModuleIn_of_isNamespaceIn (h : parent.isNamespaceIn t = true) :
    parent.isTopModuleIn t = false := by
  cases hk : t.kind <;> simp_all [isNamespaceIn, isTopModuleIn]

/-- One number is enough to get away from the reserved words. -/
lemma numbered_not_mem_reservedWords : ∀ word ∈ reservedWords, word ++ "_1" ∉ reservedWords := by
  decide

lemma name_nameChoice (h : parent.isTopModuleIn t = false) (taken : List String) :
    (nameChoice parent taken t).name = declaredName parent taken t := by
  rw [nameChoice, h]
  rfl

/-- **The name of a namespace does not depend on the scope.** -/
lemma name_of_isNamespaceIn (h : parent.isNamespaceIn t = true) (taken : List String) :
    (nameChoice parent taken t).name = spaceName t := by
  have hunusable : ∀ name, isUnusable parent taken t name = true ↔ name ∈ reservedWords := by
    intro name
    simp [isUnusable_iff, isReservedFor_of_not_isType (isType_of_isNamespaceIn h), claimsName, h]
  rw [name_nameChoice (isTopModuleIn_of_isNamespaceIn h), declaredName_eq_iff]
  simp only [hunusable, Bool.eq_false_iff, Ne]
  unfold spaceName
  split
  case isTrue hword =>
    have hcandidate : baseName t.name ++ "_1" = numberedFrom 1 (baseName t.name) 1 := by
      rw [numberedFrom, String.append_assoc]
      rfl
    exact ⟨1, hcandidate, numbered_not_mem_reservedWords _ hword, fun m hm => by
      rwa [Nat.lt_one_iff.mp hm]⟩
  case isFalse hword => exact ⟨0, rfl, hword, by simp⟩

/-- **The name of a variable is the first of its candidates that is free.** -/
lemma name_variable_eq_iff (hsplit : parent.scope = earlier ++ (t, c) :: later)
    (hkind : t.kind = .memberDecl) (hspace : parent.isNamespaceIn t = false) {name : String} :
    c.name = name ↔ IsVariableName parent earlier t name := by
  have htop : parent.isTopModuleIn t = false := by simp [isTopModuleIn, hkind]
  obtain ⟨hearlier, hchoice⟩ := nameChoice_of_split hsplit
  have htaken : ∀ name, name ∈ takenAfter parent [] (earlier.map Prod.fst) ↔
      TakenIn parent earlier name := by
    intro name
    rw [mem_takenAfter, ← hearlier]
    simp
  have htype : t.kind.isType = false := by rw [hkind]; rfl
  rw [hchoice, name_nameChoice htop, declaredName_eq_iff, IsVariableName]
  simp only [Bool.eq_false_iff, Ne, isUnusable_iff, isReservedFor_of_not_isType htype,
    claimsName_eq htop, hspace, Bool.not_false, true_and, htaken, not_or, and_assoc]

end Names

section Declarations

variable {p : Printer} {q : Place} {t : SymbolTree} {lead : String}

/-- The word before the name of a variable. -/
def Symbol.variableKeyword (s : Symbol) : String :=
  if s.constant || s.readonly then "const " else "var "

/-- **A variable is printed as one line.** -/
lemma value_declaration_variable (hkind : t.kind = .memberDecl)
    (hspace : q.tree.isNamespaceIn t = false) :
    ∃ text, (p.declaration q lead t).value = p.remarks t.symbol.remarks ++
      [.line (lead ++ t.symbol.variableKeyword ++ p.directory.nameOf t ++
        ": " ++ text ++ ";")] := by
  have htop : q.tree.isTopModuleIn t = false := by simp [isTopModuleIn, hkind]
  simp only [isNamespaceIn, hkind, Bool.or_eq_false_iff, Bool.not_eq_false'] at hspace
  have hcompanions : t.companions.isEmpty = true := by
    rw [companions, List.isEmpty_iff.mp hspace.2]
    rfl
  have hspace' : q.tree.isNamespaceIn t = false := by simp [isNamespaceIn, hkind, hspace]
  have hown : p.ownDocs (q.child t) lead = p.variableDocs (q.child t) lead := by
    rw [Printer.ownDocs, show (q.child t).tree.kind = .memberDecl from hkind]
  rw [value_declaration_eq]
  simp only [htop, hspace.1, hspace', hcompanions, hown, Bool.false_eq_true, ↓reduceIte, append_nil]
  exact ⟨_, rfl⟩

/-- **A namespace is printed as one block.** -/
lemma value_declaration_space (hmem : t ∈ q.tree.companions)
    (hspace : q.tree.isNamespaceIn t = true) :
    ∃ comment body, (p.declaration q lead t).value =
      comment ++ [.block (lead ++ "namespace " ++ p.directory.nameOf t) body] := by
  rw [value_declaration_eq]
  simp only [isTopModuleIn_of_isNamespaceIn hspace, hspace, Bool.false_eq_true, ↓reduceIte]
  by_cases hinline : q.tree.isInlineIn t = true
  · have hchildren : t.children.isEmpty = false := by
      simpa [companions, hinline] using (mem_filter.mp hmem).2
    simp only [hinline, hchildren, Bool.false_eq_true, ↓reduceIte]
    exact ⟨[], _, rfl⟩
  · simp only [hinline, Bool.false_eq_true, ↓reduceIte]
    exact ⟨_, _, rfl⟩

end Declarations

section Sharing

variable {f : Forest} {settings : Settings} {q : Place} {m : SymbolTree × NameChoice}

lemma nameOf_of_mem_scope (hf : f.root.ids.Nodup) (settings : Settings) (hq : q ∈ f.places)
    (hm : m ∈ q.tree.scope) : (Emitter.named settings f).printer.directory.nameOf m.1 =
      m.2.name := by
  have hchoice : m.2 ∈ nameChoices q.tree [] q.tree.companions := by
    rw [← snd_withNames]
    exact mem_map_of_mem hm
  have hlookup := lookup_of_mem_nameChoices hf settings hq hchoice
  rw [id_snd_scope hm] at hlookup
  rw [Directory.nameOf]
  exact congrArg (Option.getD · m.1.name) hlookup

/-- Declarations of one scope that are no namespaces have different names. -/
lemma name_ne_of_claimsName {parent : SymbolTree} {m n : SymbolTree × NameChoice}
    (hm : m ∈ parent.scope)
    (hn : n ∈ parent.scope) (hne : m ≠ n) (hmclaims : claimsName parent m.1 = true)
    (hnclaims : claimsName parent n.1 = true) : m.2.name ≠ n.2.name := by
  have : Std.Symm fun a b : SymbolTree × NameChoice =>
      claimsName parent a.1 = true → claimsName parent b.1 = true → a.2.name ≠ b.2.name :=
    ⟨fun a b h hb ha => (h ha hb).symm⟩
  exact (namedScope_scope parent).distinct.forall hm hn hne hmclaims hnclaims

/-- **A variable shares its name with another member of its scope exactly if that is a namespace and
the name of the namespace is the first that is free for the variable.** The variable is then printed
as a line and the namespace as a block, both under that name. -/
theorem nameOf_variable_eq_iff {filter : Option DocletFilter} {doclets : List Doclet}
    (hforest : (symbolForest filter doclets).result = .ok f) (settings : Settings)
    (hq : q ∈ f.places)
    {earlier later : List (SymbolTree × NameChoice)} {t u : SymbolTree} {c : NameChoice}
    (hscope : q.tree.scope = earlier ++ (t, c) :: later) (hkind : t.kind = .memberDecl)
    (hvariable : q.tree.isNamespaceIn t = false) (hu : u ∈ q.tree.companions) (hne : u ≠ t)
    (htop : q.tree.isTopModuleIn u = false) (lead : String) :
    let p := (Emitter.named settings f).printer
    let name := p.directory.nameOf
    (∃ comment text, (p.declaration q lead t).value =
      comment ++ [.line (lead ++ t.symbol.variableKeyword ++ name t ++ ": " ++ text ++ ";")]) ∧
    (q.tree.isNamespaceIn u = true → ∃ comment body, (p.declaration q lead u).value =
      comment ++ [.block (lead ++ "namespace " ++ name u) body]) ∧
    (name u = name t ↔ q.tree.isNamespaceIn u = true ∧
      IsVariableName q.tree earlier t (spaceName u)) := by
  intro p name
  have hids := (consistent_symbolForest hforest).ids_nodup
  have ht : (t, c) ∈ q.tree.scope := hscope ▸ mem_append_right _ mem_cons_self
  obtain ⟨⟨u, d⟩, hud, rfl⟩ : ∃ m ∈ q.tree.scope, m.1 = u := by
    rwa [← fst_withNames q.tree q.tree.companions [], mem_map] at hu
  have htname : name t = c.name := nameOf_of_mem_scope hids settings hq ht
  have huname : name u = d.name := nameOf_of_mem_scope hids settings hq hud
  refine ⟨⟨_, value_declaration_variable hkind hvariable⟩, value_declaration_space hu, ?_⟩
  rw [htname, huname]
  cases hspace : q.tree.isNamespaceIn u with
  | true =>
    obtain ⟨front, back, hsplit⟩ := append_of_mem hud
    obtain ⟨-, hd⟩ := nameChoice_of_split hsplit
    rw [hd, name_of_isNamespaceIn hspace, eq_comm, name_variable_eq_iff hscope hkind hvariable]
    simp
  | false =>
    have hdiffer : d.name ≠ c.name :=
      name_ne_of_claimsName hud ht
        (fun h => hne (congrArg Prod.fst h)) (by simp [claimsName, htop, hspace])
        (by simp [claimsName, isTopModuleIn, hkind, hvariable])
    simp [hdiffer]

/-- A function, a variable and a namespace that would all be declared as `x`. -/
def namesakesOfFunction : List Doclet :=
  [.bare "N" none (.container false), .bare "N.x" (some "N") (.callable [] []),
   .bare "N#x" (some "N") (.value false none false), .bare "N~x" (some "N") (.container false)]

/-- The function has the name first, so the namespace merges with it and not with the variable. -/
theorem nameOf_variable_namesakesOfFunction : ∃ f q t u,
    (symbolForest none namesakesOfFunction).result = .ok f ∧ q ∈ f.places ∧
      t ∈ q.tree.companions ∧ t.longname = "N#x" ∧ t.kind = .memberDecl ∧
      u ∈ q.tree.companions ∧ u.longname = "N~x" ∧ q.tree.isNamespaceIn u = true ∧
        (Emitter.named .standard f).printer.directory.nameOf u ≠
          (Emitter.named .standard f).printer.directory.nameOf t := by
  have hrun : ((symbolForest none namesakesOfFunction).result.toOption.bind fun f =>
      (f.places.find? fun q => q.tree.longname == "N").map fun q => q.tree.scope.map fun m =>
        ((m.1.longname, m.1.kind),
          (claimsName q.tree m.1, q.tree.isNamespaceIn m.1, q.tree.isTopModuleIn m.1),
          m.2.name, spaceName m.1)) =
        some [(("N.x", .functionDecl), (true, false, false), "x", "x"),
          (("N#x", .memberDecl), (true, false, false), "x_1", "x"),
          (("N~x", .namespaceDecl), (false, true, false), "x", "x")] := by
    decide +kernel
  obtain ⟨f, hforest, hrun⟩ := Run.toOption_bind.mp hrun
  obtain ⟨q, hq, hrun⟩ := Option.map_eq_some_iff.mp hrun
  obtain ⟨m, rest, hscope, hmrow, hrun⟩ := map_eq_cons_iff.mp hrun
  obtain ⟨n, rest, rfl, hnrow, hrun⟩ := map_eq_cons_iff.mp hrun
  obtain ⟨o, rest, rfl, horow, -⟩ := map_eq_cons_iff.mp hrun
  simp only [Prod.mk.injEq] at hmrow hnrow horow
  obtain ⟨-, ⟨hclaims, -⟩, hname, -⟩ := hmrow
  obtain ⟨⟨ht, hkind⟩, ⟨-, hvariable, -⟩, -⟩ := hnrow
  obtain ⟨⟨hu, -⟩, ⟨-, hspace, htop⟩, -, hspaceName⟩ := horow
  have hplace := mem_of_find?_eq_some hq
  have hmem : ∀ x ∈ q.tree.scope, x.1 ∈ q.tree.companions := fun x hx => by
    rw [← fst_withNames q.tree q.tree.companions []]
    exact mem_map_of_mem hx
  have hnmem := hmem n (by simp [hscope])
  have homem := hmem o (by simp [hscope])
  have hne : o.1 ≠ n.1 := fun h => by
    rw [h, ht] at hu
    exact absurd hu (by decide)
  have hsplit : q.tree.scope = [m] ++ n :: o :: rest := hscope
  obtain ⟨-, -, hshares⟩ := nameOf_variable_eq_iff hforest .standard hplace hsplit
    hkind hvariable homem
    hne htop ""
  refine ⟨f, q, n.1, o.1, hforest, hplace, hnmem, ht, hkind, homem, hu, hspace, ?_⟩
  rw [Ne, hshares]
  rintro ⟨-, k, -, -, hfree, -⟩
  exact hfree ⟨m, mem_singleton_self m, hclaims, by rw [hname, hspaceName]⟩

/-- A variable and a namespace that would both be declared as `x`. -/
def namesakesOfVariable : List Doclet :=
  [.bare "N" none (.container false), .bare "N.x" (some "N") (.value false none false),
   .bare "N~x" (some "N") (.container false)]

/-- Nothing but the variable has the name, so the namespace shares it. -/
theorem shared_namesakesOfVariable : ∃ f q t u,
    (symbolForest none namesakesOfVariable).result = .ok f ∧ (emitDeclarations .standard f).result =
        .ok "declare namespace N \x7b\n\tvar x: any;\n\tnamespace x \x7b\n\t\x7d\n\x7d\n" ∧
      q ∈ f.places ∧ t ∈ q.tree.companions ∧ t.longname = "N.x" ∧ t.kind = .memberDecl ∧
      q.tree.isNamespaceIn t = false ∧ u ∈ q.tree.companions ∧ u.longname = "N~x" ∧
      q.tree.isNamespaceIn u = true ∧ (Emitter.named .standard f).printer.directory.nameOf u =
          (Emitter.named .standard f).printer.directory.nameOf t := by
  have hrun : ((symbolForest none namesakesOfVariable).result.toOption.bind fun f =>
      (emitDeclarations .standard f).result.toOption.bind fun text =>
      (f.places.find? fun q => q.tree.longname == "N").map fun q =>
        (text, q.tree.companions.map fun t => ((t.longname, t.kind), q.tree.isNamespaceIn t,
          (Emitter.named .standard f).printer.directory.nameOf t))) =
        some ("declare namespace N \x7b\n\tvar x: any;\n\tnamespace x \x7b\n\t\x7d\n\x7d\n",
          [(("N.x", .memberDecl), false, "x"), (("N~x", .namespaceDecl), true, "x")]) := by
    decide +kernel
  obtain ⟨f, hforest, hrun⟩ := Run.toOption_bind.mp hrun
  obtain ⟨text, htext, hrun⟩ := Run.toOption_bind.mp hrun
  obtain ⟨q, hq, hrun⟩ := Option.map_eq_some_iff.mp hrun
  obtain ⟨rfl, hrows⟩ := Prod.mk.inj hrun
  obtain ⟨t, rest, hcompanions, htrow, hrows⟩ := map_eq_cons_iff.mp hrows
  obtain ⟨u, rest, rfl, hurow, -⟩ := map_eq_cons_iff.mp hrows
  simp only [Prod.mk.injEq] at htrow hurow
  obtain ⟨⟨ht, hkind⟩, hvariable, htname⟩ := htrow
  obtain ⟨⟨hu, -⟩, hspace, huname⟩ := hurow
  exact ⟨f, q, t, u, hforest, htext,
    mem_of_find?_eq_some hq, by simp [hcompanions], ht, hkind, hvariable, by simp [hcompanions], hu,
    hspace, huname.trans htname.symm⟩

end Sharing

end AmbientDecl

import AmbientDecl.Proofs.Declaration.Agreement
import AmbientDecl.Proofs.Forest.Origin
import AmbientDecl.Proofs.Text.Literal

/-!
# Module specifiers

A module is named by string literals: one between single quotes in the header of its block, and one
between double quotes in every reference to what is in it. Both are to denote the path of the
module.

**The path.** The name of a module in a finished forest is the path in its longname
(`Symbol.PathNamed`).

**The literals.** The header escapes single quotes and nothing else (`moduleHeader_eq`), the
reference escapes nothing (`Directory.importText`). So `denotes_specifiers_iff` says which paths
they denote faithfully: those without backslashes and line ends, and without double quotes as far as
references go.
-/

namespace AmbientDecl

open Text Printer

namespace Symbol

variable {s s' : Symbol}

/-- A module has the path in its longname as its name. -/
def PathNamed (s : Symbol) : Prop :=
  s.kind = .moduleDecl → Longname.modulePath? s.longname = some s.name

lemma PathNamed.of_eq (h : PathNamed s) (hlongname : s'.longname = s.longname)
    (hkind : s'.kind = s.kind)
    (hname : s'.name = s.name) : PathNamed s' := by
  rw [PathNamed, hlongname, hkind, hname]
  exact h

lemma pathNamed_ofDoclet {d : Doclet} (h : (ofDoclet d).result = .ok s) : PathNamed s := by
  intro hmodule
  obtain ⟨hlongname, hkind⟩ := ofDoclet_keeps h
  obtain ⟨base, hbase, hs⟩ := Run.result_bind.mp h
  obtain ⟨name, hname, hpure⟩ := Run.result_bind.mp hbase
  obtain ⟨_, _, hsame, _⟩ := withDetail_keeps hs
  have hbased : s.name = name := by
    rw [hsame, ← Run.result_pure.mp hpure]
    rfl
  rw [nameOf, if_pos (hkind ▸ hmodule)] at hname
  rw [hlongname, hbased]
  split at hname
  · rename_i path hpath
    rw [hpath, Run.result_pure.mp hname]
  · cases hname

lemma name_expandSymbol {container : String} {e e' : Expansion}
    (h : Expander.Gives (expandSymbol container s) e s' e') : s'.name = s.name := by
  obtain ⟨type, signatures, rfl⟩ := expandSymbol_keeps h
  rfl

/-- **The name of a module of a finished forest is its path.** -/
lemma Finished.pathNamed (h : Finished s) : PathNamed s := by
  rcases h with ⟨merged, container, e, e', ⟨built, ⟨seed, _, _, hseed, rfl⟩, hmerged⟩, hexpand⟩ |
    ⟨container, name, record, _, rfl⟩
  · have hseeded : PathNamed seed := by
      rcases hseed with ⟨d, _, base, hbase, _, _, rfl⟩ | ⟨name, longname, _, rfl⟩
      · have hnamed := pathNamed_ofDoclet hbase
        exact hnamed
      · intro hmodule
        cases hmodule
    have hmergedName : merged.outline.name = seed.name := by rw [outline_mergeSymbol hmerged]; rfl
    obtain ⟨hmergedLongname, hmergedKind⟩ := mergeSymbol_keeps hmerged
    obtain ⟨⟨hlongname, hkind⟩, _⟩ := moves_expandSymbol hexpand
    exact hseeded.of_eq (hlongname.trans hmergedLongname) (hkind.trans hmergedKind)
      ((name_expandSymbol hexpand).trans hmergedName)
  · intro hmodule
    cases hmodule

end Symbol

section Literals

variable {literal path : String}

def headerLiteral (path : String) : String :=
  "'" ++ String.ofList (escapedQuotes '\'' path.toList) ++ "'"

def importLiteral (path : String) : String := "\"" ++ path ++ "\""

lemma moduleHeader_eq (path : String) :
    moduleHeader path = "declare module " ++ headerLiteral path := by
  have hopen : "declare module '" = "declare module " ++ "'" := rfl
  rw [headerLiteral, ← String.append_assoc, ← String.append_assoc, ← hopen]
  rfl

lemma importText_eq (path : String) :
    Directory.importText path = "import(" ++ importLiteral path ++ ")" := by
  have hopen : "import(\"" = "import(" ++ "\"" := rfl
  have hclose : "\")" = "\"" ++ ")" := rfl
  rw [Directory.importText, importLiteral, hopen, hclose]
  simp only [String.append_assoc]

lemma denotes_headerLiteral : Denotes (headerLiteral path) path ↔
    ∀ c ∈ path.toList, StandsForItself c := by
  have hchars : (headerLiteral path).toList =
      '\'' :: (escapedQuotes '\'' path.toList ++ ['\'']) := by
    simp [headerLiteral]
  rw [Denotes, hchars, denotation?_cons (Or.inl rfl), closing?_escaped_iff (Or.inl rfl)]

lemma denotes_importLiteral :
    Denotes (importLiteral path) path ↔ ∀ c ∈ path.toList, StandsForItself c ∧ c ≠ '"' := by
  have hchars : (importLiteral path).toList = '"' :: (path.toList ++ ['"']) := by
    simp [importLiteral]
  rw [Denotes, hchars, denotation?_cons (Or.inr rfl), closing?_bare_iff (Or.inr rfl)]

/-- What denotes a text denotes no other. -/
lemma denotes_only_iff : (∀ text, Denotes literal text ↔ text = path) ↔ Denotes literal path := by
  constructor
  · exact fun h => (h path).mpr rfl
  · intro h text
    exact ⟨fun htext => htext.unique h, fun htext => htext ▸ h⟩

end Literals

/-- The literals by which an output names a module. -/
structure Specifies (p : Printer) (f : Forest) (m : SymbolTree) (header reference : String) :
    Prop where
  /-- The block of the module has the one in its header. -/
  block : ∃ comments body, (p.declaration f.top "declare " m).value =
      comments ++ [.block ("declare module " ++ header) body]
  /-- What refers to a symbol in the module from outside it starts with the other one. -/
  qualified : ∀ target ∈ f.places, ∀ owner ∈ f.places, target.module? = some m →
    owner.module? ≠ some m →
    ∃ names, p.directory.qualified target owner = "import(" ++ reference ++ ")" ++ names
  /-- So does a name that refers to nothing but starts with the path of the module. -/
  verbatim : ∀ name first rest, Longname.split name = first :: rest →
    Longname.isModule first.segment →
    Longname.pathOfSegment first.segment = m.name →
      ∃ names, Directory.verbatim name = "import(" ++ reference ++ ")" ++ names

section Specifiers

variable {settings : Settings} {f : Forest} {text : String} {m : SymbolTree}

lemma specifies (hf : f.Printable) (hids : f.root.ids.Nodup) (p : Printer)
    (hkind : m.kind = .moduleDecl) :
    Specifies p f m (headerLiteral m.name) (importLiteral m.name) where
  block := by
    have htop : f.top.tree.isTopModuleIn m = true := by
      have hroot : f.top.tree.kind = .root := hf.top
      simp [SymbolTree.isTopModuleIn, hkind, hroot]
    rw [value_declaration_eq]
    dsimp only
    rw [if_pos htop, moduleHeader_eq]
    exact ⟨_, _, rfl⟩
  qualified := by
    intro target htarget owner howner hmodule hfar
    rw [qualified_far hids p.directory howner htarget hmodule hfar, importText_eq]
    exact ⟨_, rfl⟩
  verbatim := by
    intro name first rest hsplit hfirst hpath
    rw [Directory.verbatim, hsplit]
    dsimp only
    rw [if_pos hfirst, hpath, importText_eq]
    exact ⟨_, rfl⟩

/-- **The literals in the header of a module and in the references to it denote its path and nothing
else exactly if the path has no backslash and no line end in it, and for the references no double
quote.** -/
theorem denotes_specifiers_iff {filter : Option DocletFilter} {doclets : List Doclet}
    (hforest : (symbolForest filter doclets).result = .ok f)
    (htext : (emitDeclarations settings f).result = .ok text) (hm : m ∈ f.root.children)
    (hkind : m.kind = .moduleDecl) :
    let p := (Emitter.named settings f).printer
    text = layout settings.output.indent (p.topDocs f) ∧
      Longname.modulePath? m.longname = some m.name ∧
      ∃ header reference, Specifies p f m header reference ∧
        ((∀ path, Denotes header path ↔ path = m.name) ↔ ∀ c ∈ m.name.toList, StandsForItself c) ∧
        ((∀ path, Denotes reference path ↔ path = m.name) ↔
          ∀ c ∈ m.name.toList, StandsForItself c ∧ c ≠ '"') := by
  have hconsistent := consistent_symbolForest hforest
  obtain ⟨hcheck, rfl⟩ := result_emitDeclarations htext
  have hprintable := printable_of_check hconsistent hcheck
  have hnode : m ∈ f.nodes := child_mem_nodes (mem_placesIn_top [] f.root) hm
  have hnamed := (finished_of_symbolForest hforest m hnode).pathNamed hkind
  refine ⟨rfl, hnamed, headerLiteral m.name, importLiteral m.name,
    specifies hprintable hconsistent.ids_nodup _ hkind, ?_, ?_⟩
  · rw [denotes_only_iff, denotes_headerLiteral]
  · rw [denotes_only_iff, denotes_importLiteral]

end Specifiers

/-- A module with a class in it, and a variable of that class outside it. -/
def menuIn (module_ : String) : List Doclet :=
  [.bare module_ none (.container true), .bare (module_ ++ ".Menu") (some module_)
     (.classLike ⟨.classForm, [], [], [], [], none, true, false⟩),
   .bare "menu" none (.value false (some ⟨["Menu"]⟩) false)]

/-- The paths of the modules of a forest. -/
def Forest.modulePaths (f : Forest) : List String :=
  (f.root.children.filter fun t => t.kind = .moduleDecl).map SymbolTree.name

lemma Forest.exists_module {f : Forest} {path : String} (h : f.modulePaths = [path]) :
    ∃ m ∈ f.root.children, m.kind = .moduleDecl ∧ m.name = path := by
  obtain ⟨m, hm, hname⟩ := List.mem_map.mp (h ▸ List.mem_singleton_self path)
  obtain ⟨hmem, hkind⟩ := List.mem_filter.mp hm
  exact ⟨m, hmem, by simpa using hkind, hname⟩

/-- The declarations of `menuIn` for a path with an apostrophe in it. -/
def apostropheText : String :=
  "declare module 'o\\'neil/kit' \x7b\n\texport class Menu \x7b\n\t\x7d\n\x7d\n\n" ++
    "declare var menu: import(\"o'neil/kit\").Menu;\n"

/-- An apostrophe is escaped in the header and stands for itself in references. -/
theorem denotes_specifiers_apostrophe : ∃ f m header reference,
    (symbolForest none (menuIn "module:\"o'neil/kit\"")).result = .ok f ∧
      (emitDeclarations .standard f).result = .ok apostropheText ∧ m ∈ f.root.children ∧
        Specifies (Emitter.named .standard f).printer f m header reference ∧
          ∀ path, (Denotes header path ↔ path = "o'neil/kit") ∧
            (Denotes reference path ↔ path = "o'neil/kit") := by
  have hrun : ((symbolForest none (menuIn "module:\"o'neil/kit\"")).result.toOption.bind fun f =>
      (emitDeclarations .standard f).result.toOption.map fun text => (text, f.modulePaths)) =
        some (apostropheText, ["o'neil/kit"]) := by
    decide +kernel
  obtain ⟨f, hforest, hrun⟩ := Run.toOption_bind.mp hrun
  obtain ⟨text, htext, hrun⟩ := Run.toOption_map.mp hrun
  obtain ⟨rfl, hpaths⟩ := Prod.mk.inj hrun
  obtain ⟨m, hm, hkind, hname⟩ := Forest.exists_module hpaths
  obtain ⟨_, _, header, reference, hspecifies, hheader, hreference⟩ :=
    denotes_specifiers_iff hforest htext hm hkind
  rw [hname] at hheader hreference
  have hplain : "o'neil/kit".toList.all (fun c => decide (StandsForItself c ∧ c ≠ '"')) =
    true := by decide
  have hself : ∀ c ∈ "o'neil/kit".toList, StandsForItself c ∧ c ≠ '"' := fun c hc =>
    of_decide_eq_true (List.all_eq_true.mp hplain c hc)
  exact ⟨f, m, header, reference, hforest, htext, hm, hspecifies, fun path =>
    ⟨hheader.mpr (fun c hc => (hself c hc).1) path, hreference.mpr hself path⟩⟩

/-- The declarations of `menuIn` for a path with a backslash in it. -/
def backslashText : String :=
  "declare module 'lib\\nav' \x7b\n\texport class Menu \x7b\n\t\x7d\n\x7d\n\n" ++
    "declare var menu: import(\"lib\\nav\").Menu;\n"

/-- A backslash is not escaped, so both literals denote another path. -/
theorem not_denotes_backslash :
    ((symbolForest none (menuIn "module:lib\\nav")).result.toOption.bind fun f =>
      (emitDeclarations .standard f).result.toOption.map fun text => (text, f.modulePaths)) =
        some (backslashText, ["lib\\nav"]) ∧
      ¬ Denotes "'lib\\nav'" "lib\\nav" ∧ ¬ Denotes "\"lib\\nav\"" "lib\\nav" ∧
        Denotes "'lib\\nav'" "lib\nav" ∧ Denotes "\"lib\\nav\"" "lib\nav" := by
  decide +kernel

end AmbientDecl

import AmbientDecl.Proofs.Declaration.Agreement

/-!
# What a reference means where it stands

A reference is a way from the top level, or from the module that it stands in. A reader of the
declarations takes its first name for the nearest declaration of that name, so what the reference
means depends on the blocks around it.

**Reading a reference.** `Place.blocks` are the blocks around the declaration of a symbol. The first
of them that declares the first name decides, and the other names lead on from there
(`Directory.reached`). Declarations of one name merge, so a way can lead to several symbols.

**The way back.** Names lead down, one level each (`lineage_of_mem_descend`), and the names on the
way to a symbol lead to it from its home (`mem_descend_namesTo`). Hence a block at another depth
never leads to the target, and a reference means its target exactly if no block further in than the
home of the target declares the first name, and no other type is declared in the same way
(`means_resolve_iff`).
-/

namespace AmbientDecl

open Text List SymbolTree Place Emitter

variable {first : String} {rest : List String}

namespace Place

/-- The places of ancestors. -/
def above : List SymbolTree → List Place
  | [] => []
  | t :: ancestors => ⟨t, ancestors⟩ :: above ancestors

/-- The symbols in whose blocks the declaration of a symbol stands, the innermost first. A member in
the body of a class stands where the class stands. -/
def blocks (q : Place) : List Place :=
  match q.ancestors with
  | [] => [q]
  | parent :: ancestors =>
    if parent.isInlineIn q.tree then above ancestors else above (parent :: ancestors)

/-- How many symbols are around a symbol. -/
def depth (q : Place) : Nat := q.ancestors.length

end Place

namespace Directory

/-- The symbols that are declared under a name in the block of another. -/
def declaredIn (dir : Directory) (block : Place) (name : String) : List Place :=
  (block.tree.companions.filter fun c =>
    !block.tree.isTopModuleIn c && dir.nameOf c == name).map block.child

/-- The symbols to which names lead from others. -/
def descend (dir : Directory) (found : List Place) (names : List String) : List Place :=
  names.foldl (fun found name => found.flatMap fun q => dir.declaredIn q name) found

/-- The symbols that a dotted name means in blocks: the first block that declares its first name
decides. -/
def reached (dir : Directory) (blocks : List Place) : List String → List Place
  | [] => []
  | first :: rest =>
    match blocks.find? fun block => !(dir.declaredIn block first).isEmpty with
    | some block => dir.descend [block] (first :: rest)
    | none => []

/-- A dotted name means one type. -/
def Means (dir : Directory) (blocks : List Place) (names : List String) (target : Place) : Prop :=
  ∀ q, q ∈ dir.reached blocks names ∧ q.tree.kind.isType = true ↔ q = target

end Directory

/-- The names between dots. -/
def dottedNames (text : String) : List String := (text.toList.splitOn '.').map String.ofList

section Descent

variable {dir : Directory} {f : Forest} {block q target : Place} {found : List Place}
  {names : List String} {name : String}

lemma mem_declaredIn : q ∈ dir.declaredIn block name ↔ ∃ c ∈ block.tree.companions,
    block.tree.isTopModuleIn c = false ∧ dir.nameOf c = name ∧ q = block.child c := by
  simp only [Directory.declaredIn, mem_map, mem_filter, Bool.and_eq_true,
    Bool.not_eq_eq_eq_not, Bool.not_true, beq_iff_eq]
  constructor
  · rintro ⟨c, ⟨hc, htop, hname⟩, rfl⟩
    exact ⟨c, hc, htop, hname, rfl⟩
  · rintro ⟨c, hc, htop, hname, rfl⟩
    exact ⟨c, ⟨hc, htop, hname⟩, rfl⟩

lemma descend_append (others : List String) :
    dir.descend found (names ++ others) = dir.descend (dir.descend found names) others :=
  foldl_append

/-- What one step down keeps is kept on the whole way. -/
lemma descend_induct {P : List String → Place → Prop} (hstart : ∀ q ∈ found, P [] q)
    (hstep : ∀ names q, P names q → ∀ name, ∀ r ∈ dir.declaredIn q name, P (names ++ [name]) r) :
    ∀ names, ∀ q ∈ dir.descend found names, P names q := by
  intro names
  induction names using reverseRecOn with
  | nil => exact hstart
  | append_singleton names name ih =>
    intro r hr
    rw [descend_append] at hr
    obtain ⟨q, hq, hr⟩ := mem_flatMap.mp hr
    exact hstep names q (ih q hq) name r hr

/-- Where names lead from a block, the block declares the first of them. -/
lemma declaredIn_ne_nil
    (h : q ∈ dir.descend [block] (first :: rest)) : dir.declaredIn block first ≠ [] := by
  intro hnone
  have hstart : dir.descend [block] (first :: rest) = dir.descend [] rest := by
    simp [Directory.descend, hnone]
  rw [hstart] at h
  exact descend_induct (P := fun _ _ => False) (by simp) (fun _ _ hfalse => hfalse.elim) rest q h

/-- Names lead down one level each. -/
lemma lineage_of_mem_descend (h : q ∈ dir.descend [block] names) :
    ∃ way, q.lineage = way ++ block.lineage ∧ way.length = names.length := by
  refine descend_induct (P := fun names q => ∃ way, q.lineage = way ++ block.lineage ∧
    way.length = names.length) ?_ ?_ names q h
  · intro q hq
    rw [mem_singleton.mp hq]
    exact ⟨[], rfl, rfl⟩
  · rintro names q ⟨way, hway, hlength⟩ name r hr
    obtain ⟨c, _, _, _, rfl⟩ := mem_declaredIn.mp hr
    refine ⟨c :: way, ?_, by simp [hlength]⟩
    simp only [child, lineage] at hway ⊢
    rw [hway, cons_append]

/-- Two blocks from which as many names lead to one symbol are the same. -/
lemma eq_of_mem_descend {other : Place} (h : q ∈ dir.descend [block] names)
    (h' : q ∈ dir.descend [other] names) : block = other := by
  obtain ⟨way, hway, hlength⟩ := lineage_of_mem_descend h
  obtain ⟨way', hway', hlength'⟩ := lineage_of_mem_descend h'
  have heq : way ++ block.lineage = way' ++ other.lineage := hway.symm.trans hway'
  have hlineage := (append_inj heq (hlength.trans hlength'.symm)).2
  obtain ⟨htree, hancestors⟩ := List.cons.inj hlineage
  cases block
  cases other
  simp_all

/-- The place from which references to a symbol start: the module that it is in, or the top
level. -/
def Forest.home (f : Forest) (q : Place) : Place :=
  match q.module? with
  | some m => f.top.child m
  | none => f.top

lemma eq_top_of_kind (hf : f.Printable) (hq : q ∈ f.places) (h : q.tree.kind = .root) :
    q = f.top := by
  revert h
  refine places_induct (P := fun q => q.tree.kind = .root → q = f.top) ?_ ?_ q hq
  · intro _
    rfl
  · intro r hr _ c hc h
    exact absurd h (hf.roots c (child_mem_nodes hr hc))

/-- A home is the top level or a module in it, from where no name leads to it. -/
lemma home_spec (hf : f.Printable) (dir : Directory) (hq : q ∈ f.places) : f.home q ∈ f.places ∧
    (f.home q).module? = q.module? ∧ dir.namesTo (f.home q) = [] := by
  have htop : f.top ∈ f.places := mem_placesIn_top [] f.root
  have hmodules : ∀ m, q.module? = some m → m ∈ f.root.children ∧
      f.root.isTopModuleIn m = true := by
    refine places_induct (P := fun q => ∀ m, q.module? = some m →
      m ∈ f.root.children ∧ f.root.isTopModuleIn m = true) ?_ ?_ q hq
    · intro m hm
      rw [module?_root hf.top] at hm
      simp at hm
    · intro r hr ih c hc m hm
      have hkind := hf.roots c (child_mem_nodes hr hc)
      cases htopmodule : r.tree.isTopModuleIn c with
      | true =>
        obtain rfl := eq_top_of_kind hf hr (root_of_isTopModuleIn htopmodule)
        rw [module?_of_isTopModule hkind htopmodule] at hm
        obtain rfl := Option.some.inj hm
        exact ⟨hc, htopmodule⟩
      | false =>
        rw [module?_of_not_isTopModule hkind htopmodule] at hm
        exact ih m hm
  cases hm : q.module? with
  | none =>
    simp only [Forest.home, hm]
    exact ⟨htop, module?_root hf.top, namesTo_root dir hf.top⟩
  | some m =>
    obtain ⟨hmem, htopmodule⟩ := hmodules m hm
    have hkind := hf.roots m (child_mem_nodes htop hmem)
    simp only [Forest.home, hm]
    exact ⟨mem_placesIn_child htop hmem, module?_of_isTopModule hkind htopmodule,
      namesTo_of_isTopModule dir hkind htopmodule⟩

/-- Names lead to symbols in the same module, on whose way they stand. -/
lemma spec_of_mem_descend (hf : f.Printable) (hblock : block ∈ f.places)
    (h : q ∈ dir.descend [block] names) :
    q ∈ f.places ∧ q.module? = block.module? ∧ dir.namesTo q = dir.namesTo block ++ names := by
  refine descend_induct (P := fun names q => q ∈ f.places ∧ q.module? = block.module? ∧
    dir.namesTo q = dir.namesTo block ++ names) ?_ ?_ names q h
  · intro q hq
    rw [mem_singleton.mp hq]
    exact ⟨hblock, rfl, by simp⟩
  · rintro names q ⟨hq, hmodule, hnames⟩ name r hr
    obtain ⟨c, hc, htop, rfl, rfl⟩ := mem_declaredIn.mp hr
    have hchild : c ∈ q.tree.children := mem_of_mem_filter hc
    have hkind := hf.roots c (child_mem_nodes hq hchild)
    refine ⟨mem_placesIn_child hq hchild, ?_, ?_⟩
    · rw [module?_of_not_isTopModule hkind htop, hmodule]
    · rw [namesTo_child dir hkind htop, hnames, append_assoc]

/-- **The names on the way to a symbol lead to it from its home.** -/
lemma mem_descend_namesTo (hf : f.Printable) (dir : Directory) (hq : q ∈ f.places)
    (h : q.NeedsName) : q ∈ dir.descend [f.home q] (dir.namesTo q) := by
  refine needsName_induct (P := fun q => q ∈ dir.descend [f.home q] (dir.namesTo q)) ?_ ?_ hq h
  · have hmodule : f.top.module? = none := module?_root hf.top
    have hnames : dir.namesTo f.top = [] := namesTo_root dir hf.top
    rw [Forest.home, hmodule, hnames]
    exact mem_singleton.mpr rfl
  · intro r hr ih c hc
    have hkind := hf.roots c (child_mem_nodes hr (mem_of_mem_filter hc))
    cases htop : r.tree.isTopModuleIn c with
    | true =>
      obtain rfl := eq_top_of_kind hf hr (root_of_isTopModuleIn htop)
      rw [namesTo_of_isTopModule dir hkind htop, Forest.home, module?_of_isTopModule hkind htop]
      exact mem_singleton.mpr rfl
    | false =>
      have hhome : f.home (r.child c) = f.home r := by
        simp only [Forest.home, module?_of_not_isTopModule hkind htop]
      rw [hhome, namesTo_child dir hkind htop, descend_append]
      exact mem_flatMap.mpr ⟨r, ih, mem_declaredIn.mpr ⟨c, hc, htop, rfl, rfl⟩⟩

end Descent

section Meaning

variable {dir : Directory} {f : Forest} {block q target : Place} {blocks : List Place}
  {names : List String} {name : String}

/-- The innermost block that declares the first name decides. -/
lemma reached_eq (h : q ∈ dir.reached blocks (first :: rest)) :
    ∃ inner block outer, blocks = inner ++ block :: outer ∧
      (∀ b ∈ inner, dir.declaredIn b first = []) ∧
        dir.reached blocks (first :: rest) = dir.descend [block] (first :: rest) := by
  rw [Directory.reached] at h ⊢
  cases hfind : blocks.find? fun block => !(dir.declaredIn block first).isEmpty with
  | none =>
    rw [hfind] at h
    simp at h
  | some block =>
    obtain ⟨_, inner, outer, hblocks, hinner⟩ := find?_eq_some_iff_append.mp hfind
    exact ⟨inner, block, outer, hblocks, fun b hb => by simpa using hinner b hb, rfl⟩

lemma reached_of_declaring {inner outer : List Place}
    (hblocks : blocks = inner ++ block :: outer) (hinner : ∀ b ∈ inner, dir.declaredIn b first = [])
    (hdeclared : dir.declaredIn block first ≠ []) :
    dir.reached blocks (first :: rest) = dir.descend [block] (first :: rest) := by
  have hfind : (blocks.find? fun block => !(dir.declaredIn block first).isEmpty) = some block := by
    refine find?_eq_some_iff_append.mpr ⟨by simpa using hdeclared, inner, outer, hblocks, ?_⟩
    intro b hb
    simp [hinner b hb]
  rw [Directory.reached, hfind]

lemma namesTo_ne_nil (hf : f.Printable) (dir : Directory) (hq : q ∈ f.places)
    (h : q.tree.kind.isType = true) : dir.namesTo q ≠ [] := by
  obtain ⟨r, hr, c, hc, rfl⟩ := exists_parent hf hq h
  have htype : c.kind.isType = true := h
  have htop : r.tree.isTopModuleIn c = false := by
    cases hk : c.kind <;> simp_all [isTopModuleIn, SymbolKind.isType]
  rw [namesTo_child dir (hf.roots c (child_mem_nodes hr hc)) htop]
  simp

/-- **A way means its target exactly if it is read from the home of the target and no other type is
declared in the same way.** -/
lemma means_namesTo_iff (hf : f.Printable) (hblocks : blocks.Pairwise fun a b => b.depth < a.depth)
    (htarget : target ∈ f.places) (htype : target.tree.kind.isType = true) :
    dir.Means blocks (dir.namesTo target) target ↔ f.home target ∈ blocks ∧
      (∀ b ∈ blocks, (f.home target).depth < b.depth →
        ∀ first ∈ (dir.namesTo target).head?, dir.declaredIn b first = []) ∧
      ∀ q ∈ f.places, q.tree.kind.isType = true → q.module? = target.module? →
        dir.namesTo q = dir.namesTo target → q = target := by
  have hleads := mem_descend_namesTo hf dir htarget (Or.inr htype)
  obtain ⟨hhome, hmodule, hnone⟩ := home_spec hf dir htarget
  cases hnames : dir.namesTo target with
  | nil => exact absurd hnames (namesTo_ne_nil hf dir htarget htype)
  | cons first rest =>
    rw [hnames] at hleads
    constructor
    · intro hmeans
      obtain ⟨hreached, _⟩ := (hmeans target).mpr rfl
      obtain ⟨inner, block, outer, rfl, hinner, heq⟩ := reached_eq hreached
      rw [heq] at hreached
      obtain rfl := eq_of_mem_descend hreached hleads
      refine ⟨by simp, ?_, ?_⟩
      · intro b hb hdeeper name hname
        obtain rfl : first = name := by simpa using hname
        rcases mem_append.mp hb with hb | hb
        · exact hinner b hb
        · -- What comes after the home stands around it.
          have houter := (pairwise_cons.mp (pairwise_append.mp hblocks).2.1).1
          rcases mem_cons.mp hb with rfl | hb
          · exact absurd hdeeper (lt_irrefl _)
          · exact absurd hdeeper (houter b hb).not_gt
      · intro q hq hqtype hqmodule hqnames
        refine (hmeans q).mp ⟨?_, hqtype⟩
        have hqleads := mem_descend_namesTo hf dir hq (Or.inr hqtype)
        rw [heq]
        rwa [hqnames, Forest.home, hqmodule] at hqleads
    · rintro ⟨hmem, hdeeper, hunique⟩
      obtain ⟨inner, outer, rfl⟩ := append_of_mem hmem
      have hinner : ∀ b ∈ inner, dir.declaredIn b first = [] := by
        intro b hb
        have hdepth := (pairwise_append.mp hblocks).2.2 b hb _ mem_cons_self
        exact hdeeper b (mem_append_left _ hb) hdepth first rfl
      have hreached : dir.reached (inner ++ f.home target :: outer) (first :: rest) = _ :=
        reached_of_declaring rfl hinner (declaredIn_ne_nil hleads)
      intro q
      rw [hreached]
      constructor
      · rintro ⟨hq, hqtype⟩
        obtain ⟨hplace, hqmodule, hqnames⟩ := spec_of_mem_descend hf hhome hq
        refine hunique q hplace hqtype (hqmodule.trans hmodule) ?_
        rw [hqnames, hnone, nil_append]
      · rintro rfl
        exact ⟨hleads, htype⟩

lemma mem_above {ancestors : List SymbolTree} (h : q ∈ Place.above ancestors) :
    q.depth < ancestors.length := by
  induction ancestors with
  | nil => simp [above] at h
  | cons t ancestors ih =>
    rw [above] at h
    rcases mem_cons.mp h with rfl | h
    · exact Nat.lt_succ_self _
    · exact (ih h).trans (Nat.lt_succ_self _)

lemma pairwise_above (ancestors : List SymbolTree) :
    (Place.above ancestors).Pairwise fun a b => b.depth < a.depth := by
  induction ancestors with
  | nil => exact List.Pairwise.nil
  | cons t ancestors ih => exact List.Pairwise.cons (fun b hb => mem_above hb) ih

/-- Blocks stand in each other. -/
lemma pairwise_blocks (q : Place) : q.blocks.Pairwise fun a b => b.depth < a.depth := by
  unfold blocks
  split
  · exact pairwise_singleton _ q
  · split
    · exact pairwise_above _
    · exact pairwise_above _

/-- What a member in the body of a class skips is the class. -/
lemma mem_blocks_of_above {b : Place} (h : b ∈ Place.above q.ancestors)
    (hkind : b.tree.kind.isContainer = true) : b ∈ q.blocks := by
  unfold blocks
  split
  · rename_i hnone
    rw [hnone] at h
    simp [above] at h
  · rename_i parent ancestors hparent
    rw [hparent] at h
    split
    · rename_i hinline
      rcases mem_cons.mp h with rfl | h
      · cases hk : parent.kind <;> simp_all [isInlineIn, SymbolKind.isContainer]
      · exact h
    · exact h

lemma top_mem_above (hq : q ∈ f.places) : q = f.top ∨ f.top ∈ Place.above q.ancestors := by
  refine places_induct (P := fun q => q = f.top ∨ f.top ∈ above q.ancestors) (Or.inl rfl) ?_ q hq
  rintro r _ (rfl | ih) c _
  · exact Or.inr mem_cons_self
  · exact Or.inr (mem_cons_of_mem _ ih)

/-- Everything in a module but the module itself stands in its block. -/
lemma module_mem_above (hf : f.Printable) (hq : q ∈ f.places) {m : SymbolTree}
    (hm : q.module? = some m) : q = f.top.child m ∨ f.top.child m ∈ Place.above q.ancestors := by
  revert hm
  refine places_induct (P := fun q => q.module? = some m →
    q = f.top.child m ∨ f.top.child m ∈ above q.ancestors) ?_ ?_ q hq
  · intro hm
    rw [module?_root hf.top] at hm
    simp at hm
  · intro r hr ih c hc hm
    have hkind := hf.roots c (child_mem_nodes hr hc)
    cases htop : r.tree.isTopModuleIn c with
    | true =>
      obtain rfl := eq_top_of_kind hf hr (root_of_isTopModuleIn htop)
      rw [module?_of_isTopModule hkind htop] at hm
      exact Or.inl (congrArg f.top.child (Option.some.inj hm))
    | false =>
      rw [module?_of_not_isTopModule hkind htop] at hm
      rcases ih hm with rfl | ih
      · exact Or.inr mem_cons_self
      · exact Or.inr (mem_cons_of_mem _ ih)

/-- **The home of a target is a block around the user of a reference**, unless the user is a
module. -/
lemma home_mem_blocks {owner : Place} (hf : f.Printable) (howner : owner ∈ f.places)
    (hmodule : owner.isTopModule = false)
    (hnear : target.module? = none ∨ owner.module? = target.module?) :
    f.home target ∈ owner.blocks := by
  cases hm : target.module? with
  | none =>
    simp only [Forest.home, hm]
    rcases top_mem_above howner with rfl | habove
    · exact mem_singleton.mpr rfl
    · refine mem_blocks_of_above habove ?_
      rw [show f.top.tree.kind = .root from hf.top]
      rfl
  | some m =>
    simp only [Forest.home, hm]
    have howner_module : owner.module? = some m := by simpa [hm] using hnear
    have hkind : m.kind = .moduleDecl := by
      simpa using (Option.filter_eq_some_iff.mp hm).2
    rcases module_mem_above hf howner howner_module with rfl | habove
    · rw [isTopModule_child] at hmodule
      simp [isTopModuleIn, hkind, show f.top.tree.kind = .root from hf.top] at hmodule
    · refine mem_blocks_of_above habove ?_
      rw [show (f.top.child m).tree.kind = .moduleDecl from hkind]
      rfl

end Meaning

section References

variable {f : Forest} {settings : Settings} {q owner target : Place} {names : List String}
  {name text : String}

/-- The names on the way to a type are names of declarations. -/
lemma nameChar_namesTo (hf : f.Printable) (hids : f.root.ids.Nodup) (settings : Settings)
    (hq : q ∈ f.places) (h : q.NeedsName) :
    ∀ name ∈ (named settings f).printer.directory.namesTo q, MadeOf NameChar name := by
  refine needsName_induct (P := fun q =>
    ∀ name ∈ (named settings f).printer.directory.namesTo q, MadeOf NameChar name) ?_ ?_ hq h
  · intro name hname
    rw [namesTo_root _ hf.top] at hname
    simp at hname
  · intro r hr ih c hc name hname
    have hkind := hf.roots c (child_mem_nodes hr (mem_of_mem_filter hc))
    cases htop : r.tree.isTopModuleIn c with
    | true =>
      rw [namesTo_of_isTopModule _ hkind htop] at hname
      simp at hname
    | false =>
      rw [namesTo_child _ hkind htop] at hname
      rcases mem_append.mp hname with hname | hname
      · exact ih name hname
      · obtain ⟨_, taken, hchoice⟩ := nameOf_eq hids settings hr hc
        rw [mem_singleton.mp hname, hchoice, nameChoice, htop]
        exact nameChar_declaredName r.tree taken c

lemma dotless_namesTo (hf : f.Printable) (hids : f.root.ids.Nodup) (settings : Settings)
    (hq : q ∈ f.places) (h : q.NeedsName) :
    ∀ name ∈ (named settings f).printer.directory.namesTo q, Dotless name :=
  fun name hname => dotless_of_nameChar (nameChar_namesTo hf hids settings hq h name hname)

lemma dottedNames_joined (hne : names ≠ []) (h : ∀ name ∈ names, Dotless name) :
    dottedNames (joined "." names) = names := by
  have hparts : ∀ part ∈ names.map String.toList, '.' ∉ part := by
    rw [forall_mem_map]
    intro name hname
    exact h name hname
  have hdot : ".".toList = ['.'] := rfl
  rw [dottedNames, joined, String.toList_intercalate, hdot,
    splitOn_intercalate _ hparts (by simpa using hne), map_map]
  simp

/-- **A reference means its target exactly if no block further in than the home of the target
declares its first name and no other type is declared in the same way.** The home is a block around
the user of the reference, unless that is the module itself. -/
theorem means_resolve_iff {filter : Option DocletFilter} {doclets : List Doclet}
    (hforest : (symbolForest filter doclets).result = .ok f)
    (htext : (emitDeclarations settings f).result = .ok text)
    {typeParams : List String} (hprimitive : name ∉ primitiveNames) (hparams : name ∉ typeParams)
    (hlookup : (named settings f).printer.directory.lookup? name = some target)
    (hnear : target.module? = none ∨ owner.module? = target.module?) :
    let dir := (named settings f).printer.directory
    (owner ∈ f.places → owner.isTopModule = false → f.home target ∈ owner.blocks) ∧
      ∃ reference, dir.resolve owner typeParams name = some reference ∧
        (dir.Means owner.blocks (dottedNames reference) target ↔ f.home target ∈ owner.blocks ∧
          (∀ b ∈ owner.blocks, (f.home target).depth < b.depth →
            ∀ first ∈ (dir.namesTo target).head?, dir.declaredIn b first = []) ∧
          ∀ q ∈ f.places, q.tree.kind.isType = true → q.module? = target.module? →
            dir.namesTo q = dir.namesTo target → q = target) := by
  intro dir
  have hconsistent := consistent_symbolForest hforest
  have hprintable := printable_of_check hconsistent (result_emitDeclarations htext).1
  obtain ⟨htarget, htype⟩ := mem_places_of_lookup? hlookup
  refine ⟨fun howner hmodule => home_mem_blocks hprintable howner hmodule hnear,
    _, resolve_of_lookup? hprimitive hparams hlookup, ?_⟩
  rw [qualified_near dir hnear, dottedNames_joined (namesTo_ne_nil hprintable dir htarget htype)
    (dotless_namesTo hprintable hconsistent.ids_nodup settings htarget (Or.inr htype))]
  exact means_namesTo_iff hprintable (pairwise_blocks owner) htarget htype

/-- A namespace with a class and a function that uses it. -/
def classBesideFunction : List Doclet :=
  [.bare "N" none (.container false),
   .bare "N.T" (some "N") (.classLike ⟨.classForm, [], [], [], [], none, true, false⟩),
   .bare "N.f" (some "N") (.callable [⟨some "x", some ⟨["N.T"]⟩, none, false, none, false, .null⟩]
     [])]

theorem means_resolve_classBesideFunction : ∃ f owner target,
    (symbolForest none classBesideFunction).result = .ok f ∧ owner ∈ f.places ∧
      owner.tree.longname = "N.f" ∧
      (named .standard f).printer.directory.lookup? "N.T" = some target ∧
      (named .standard f).printer.directory.resolve owner [] "N.T" = some "N.T" ∧
        (named .standard f).printer.directory.Means owner.blocks (dottedNames "N.T") target := by
  have hrun : ((symbolForest none classBesideFunction).result.toOption.bind fun f =>
      (emitDeclarations .standard f).result.toOption.bind fun _ =>
      let dir := (named .standard f).printer.directory
      (dir.lookup? "N.T").bind fun target =>
      (f.places.find? fun q => q.tree.longname == "N.f").map fun owner =>
        (target.module?.isNone, owner.isTopModule, dir.resolve owner [] "N.T",
          owner.blocks.all fun b => (dir.namesTo target).head?.all fun first =>
            decide ((f.home target).depth < b.depth → (dir.declaredIn b first).isEmpty = true),
          (f.places.filter fun q => q.tree.kind.isType && dir.namesTo q == dir.namesTo
            target).length)) =
        some (true, false, some "N.T", true, 1) := by
    decide +kernel
  obtain ⟨f, hforest, hrun⟩ := Run.toOption_bind.mp hrun
  obtain ⟨text, htext, hrun⟩ := Run.toOption_bind.mp hrun
  obtain ⟨target, hlookup, hrun⟩ := Option.bind_eq_some_iff.mp hrun
  obtain ⟨owner, howner, hrun⟩ := Option.map_eq_some_iff.mp hrun
  simp only [Prod.mk.injEq] at hrun
  obtain ⟨hmodule, htop, hresolve, hblocks, honly⟩ := hrun
  have hplace := mem_of_find?_eq_some howner
  obtain ⟨htarget, htype⟩ := mem_places_of_lookup? hlookup
  have hnear : target.module? = none ∨ owner.module? = target.module? :=
    Or.inl (Option.isNone_iff_eq_none.mp hmodule)
  obtain ⟨hhome, reference, href, hmeans⟩ := means_resolve_iff hforest
    htext (by decide) not_mem_nil hlookup hnear
  obtain rfl := Option.some.inj (href.symm.trans hresolve)
  refine ⟨f, owner, target, hforest, hplace, by simpa using find?_some howner, hlookup, hresolve,
    hmeans.mpr ⟨hhome hplace htop, ?_, ?_⟩⟩
  · intro b hb hdeeper first hfirst
    have hblock := all_eq_true.mp hblocks b hb
    rw [Option.mem_def] at hfirst
    simpa [hfirst, hdeeper] using hblock
  · intro q hq hqtype _ hqnames
    obtain ⟨only, honly⟩ := length_eq_one_iff.mp honly
    have hq : q ∈ [only] := honly ▸ mem_filter.mpr ⟨hq, by simp [hqtype, hqnames]⟩
    have htarget : target ∈ [only] := honly ▸ mem_filter.mpr ⟨htarget, by simp [htype]⟩
    rw [mem_singleton.mp hq, mem_singleton.mp htarget]

/-- A namespace with a class, and in it a namespace of the same name with a function. -/
def nestedNamesakes : List Doclet :=
  [.bare "N" none (.container false),
   .bare "N.T" (some "N") (.classLike ⟨.classForm, [], [], [], [], none, true, false⟩),
   .bare "N.N" (some "N") (.container false),
   .bare "N.N.f" (some "N.N")
    (.callable [⟨some "x", some ⟨["N.T"]⟩, none, false, none, false, .null⟩] [])]

/-- The inner namespace is the first that declares the first name, and it has no such class. -/
theorem captured_nestedNamesakes : ∃ f owner target,
    (symbolForest none nestedNamesakes).result = .ok f ∧
      (∃ text, (emitDeclarations .standard f).result = .ok text) ∧ owner ∈ f.places ∧
      (named .standard f).printer.directory.lookup? "N.T" = some target ∧
      (named .standard f).printer.directory.resolve owner [] "N.T" = some "N.T" ∧
        ¬ (named .standard f).printer.directory.Means owner.blocks (dottedNames "N.T") target := by
  have hrun : ((symbolForest none nestedNamesakes).result.toOption.bind fun f =>
      (emitDeclarations .standard f).result.toOption.bind fun _ =>
      let dir := (named .standard f).printer.directory
      (dir.lookup? "N.T").bind fun _ =>
      (f.places.find? fun q => q.tree.longname == "N.N.f").map fun owner =>
        (dir.resolve owner [] "N.T", (dir.reached owner.blocks (dottedNames "N.T")).isEmpty)) =
        some (some "N.T", true) := by
    decide +kernel
  obtain ⟨f, hforest, hrun⟩ := Run.toOption_bind.mp hrun
  obtain ⟨text, htext, hrun⟩ := Run.toOption_bind.mp hrun
  obtain ⟨target, hlookup, hrun⟩ := Option.bind_eq_some_iff.mp hrun
  obtain ⟨owner, howner, hrun⟩ := Option.map_eq_some_iff.mp hrun
  obtain ⟨hresolve, hreached⟩ := Prod.mk.inj hrun
  refine ⟨f, owner, target, hforest, ⟨text, htext⟩,
    mem_of_find?_eq_some howner, hlookup, hresolve, ?_⟩
  intro hmeans
  have hmem := ((hmeans target).mpr rfl).1
  rw [List.isEmpty_iff.mp hreached] at hmem
  exact not_mem_nil hmem

end References

end AmbientDecl

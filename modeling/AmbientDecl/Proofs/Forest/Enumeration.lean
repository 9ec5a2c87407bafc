import AmbientDecl.Proofs.Forest.Placement

/-!
# The values of enumerations

The values of an enumeration come from two sources: the properties of its first doclet, and the
members that belong to it, which are folded when the forest is built.

**Collecting.** A member adds a value only if none has its name, so what the members add has names
that are new and differ (`addMemberValues_eq`).

**Properties.** The properties are taken as they are (`Census.valued_of_mem`), and nothing that
happens to a symbol before the folding changes its values (`Planting.lasting_valued`). So a name is
there twice exactly if two properties have it, and every other name once (`enumValues_buildForest`).
-/

namespace AmbientDecl

open List SymbolTree Planting

/-- The names of the values that the properties of a doclet document. -/
def Doclet.valueNames (d : Doclet) : List String :=
  d.properties.filterMap fun p => nonempty? p.name

/-- **What members add to values**: values of names that are new, each once, and after it no name of
a member is missing. -/
lemma addMemberValues_eq (members : List Symbol) : ∀ values : List EnumValue,
    ∃ added, addMemberValues values members = values ++ added ∧
      added ⊆ members.map enumValueOfMember ∧ (added.map EnumValue.name).Nodup ∧
        ∀ name, name ∈ added.map EnumValue.name ↔
          name ∉ values.map EnumValue.name ∧ name ∈ members.map Symbol.name := by
  induction members with
  | nil => exact fun values => ⟨[], by simp [addMemberValues]⟩
  | cons s rest ih =>
    intro values
    rw [addMemberValues]
    split
    case isTrue hknown =>
      obtain ⟨added, hvalues, hsub, hnodup, hmem⟩ := ih values
      refine ⟨added, hvalues, subset_cons_of_subset _ hsub, hnodup, fun name => ?_⟩
      have hold : s.name ∈ values.map EnumValue.name := by simpa using hknown
      rw [hmem, map_cons, mem_cons]
      refine and_congr_right fun hnew => (or_iff_right ?_).symm
      rintro rfl
      exact hnew hold
    case isFalse hunknown =>
      have hnew : s.name ∉ values.map EnumValue.name := by simpa using hunknown
      obtain ⟨added, hvalues, hsub, hnodup, hmem⟩ := ih (values ++ [enumValueOfMember s])
      have hlast : (values ++ [enumValueOfMember s]).map EnumValue.name =
          values.map EnumValue.name ++ [s.name] := by
        rw [map_append]
        rfl
      rw [hlast] at hmem
      refine ⟨enumValueOfMember s :: added, by rw [hvalues, append_assoc]; rfl,
        cons_subset_cons _ hsub, ?_, fun name => ?_⟩
      · refine nodup_cons.mpr ⟨fun hadded => ?_, hnodup⟩
        exact ((hmem _).mp hadded).1 (mem_append_right _ (mem_singleton_self _))
      · rw [map_cons, mem_cons, hmem, map_cons, mem_cons, mem_append, mem_singleton,
          show (enumValueOfMember s).name = s.name from rfl]
        by_cases hname : name = s.name
        · subst hname
          exact ⟨fun _ => ⟨hnew, .inl rfl⟩, fun _ => .inl rfl⟩
        · simp [hname]

namespace Symbol

/-- An enumeration has the values that the properties of its first doclet document. -/
def Valued (filter : Option DocletFilter) (doclets : List Doclet) (s : Symbol) : Prop :=
  s.kind = .enumDecl → ∃ first, doclets.find? (Census.documents filter s.longname) = some first ∧
    s.enumValues = first.properties.filterMap enumValueOf?

lemma names_enumValueOf? (d : Doclet) :
    (d.properties.filterMap enumValueOf?).map EnumValue.name = d.valueNames := by
  rw [map_filterMap, Doclet.valueNames]
  refine filterMap_congr fun p _ => ?_
  rw [enumValueOf?, Option.map_map]
  exact Option.map_id'

lemma detail_of_enumDecl {d : Doclet} (h : d.symbolKind = .enumDecl) :
    ∃ constant type, d.detail = .value constant type true := by
  unfold Doclet.symbolKind at h
  cases hd : d.detail with
  | value constant type isEnum =>
    simp only [hd] at h
    cases isEnum with
    | true => exact ⟨constant, type, rfl⟩
    | false => simp at h
  | classLike detail => simp only [hd] at h; split at h <;> simp at h
  | container isModule => simp only [hd] at h; split at h <;> simp at h
  | callable | typedef | package | file => simp [hd] at h

/-- The doclet that makes an enumeration gives it the values of its properties. -/
lemma enumValues_ofDoclet {d : Doclet} {s : Symbol} (h : (ofDoclet d).result = .ok s)
    (henum : d.symbolKind = .enumDecl) : s.enumValues = d.properties.filterMap enumValueOf? := by
  obtain ⟨base, _, hs⟩ := Run.result_bind.mp h
  obtain ⟨constant, type, hdetail⟩ := detail_of_enumDecl henum
  simp only [withDetail, hdetail, if_true, Run.result_bind, result_enumValuesOf, Run.result_pure]
    at hs
  obtain ⟨_, heq, rfl⟩ := hs
  exact (Except.ok.inj heq).symm

end Symbol

lemma Census.valued_of_mem {filter : Option DocletFilter} {doclets : List Doclet} {c : Census}
    (hc : (ofDoclets filter doclets).result = .ok c) {s : Symbol} (hs : s ∈ c.symbols) :
    s.Valued filter doclets := by
  have hdoclet := doclet?_of_find? hc (find?_of_mem hc hs)
  obtain ⟨first, rest, base, hbase, _, _, rfl⟩ := entered_ofDoclets hc s hs
  intro henum
  have hvalues := Symbol.enumValues_ofDoclet hbase ((Symbol.ofDoclet_keeps hbase).2 ▸ henum)
  exact ⟨first, hdoclet.symm, hvalues⟩

namespace Planting

variable {p : Planting}

lemma lasting_valued (filter : Option DocletFilter) (doclets : List Doclet) :
    Lasting (Symbol.Valued filter doclets) where
  made := by
    rintro s ⟨name, longname, _, rfl⟩ henum
    cases henum
  missing := fun _ h => h

/-- The members below a symbol. -/
def membersOf (p : Planting) (id : Nat) : List Symbol :=
  ((p.childrenOf id).filter fun c => (p.symbolAt c).kind = .memberDecl).map p.symbolAt

lemma symbolAt_mem {id : Nat} (h : (p.symbolAt id).kind ≠ .root) : p.symbolAt id ∈ p.symbols := by
  cases id with
  | zero => exact absurd rfl h
  | succ i =>
    rw [symbolAt] at h ⊢
    cases hi : p.symbols[i]? with
    | none => simp [hi, Symbol.root, Symbol.bare] at h
    | some s => simpa using mem_of_getElem? hi

/-- In the tree an enumeration gets the values of the members that belong to it. -/
lemma enumValues_absorb (hp : Tidy p) {t : SymbolTree} (ht : t ∈ p.tree.walk)
    (henum : t.kind = .enumDecl) : (absorbEnumMembers t).symbol.enumValues =
      addMemberValues (p.symbolAt t.id).enumValues (p.membersOf t.id) := by
  have hfolds : foldsMembers p t.id = true := by
    refine foldsMembers_iff.mpr ⟨?_, SymbolTree.mem_ids.mpr ⟨t, ht, rfl⟩⟩
    rw [← (children_of_mem_tree hp ht).1]
    exact henum
  rw [symbol_absorb_tree hp ht, symbolLeft, if_pos hfolds, membersOf]

/-- They are the members that have the symbol as their parent in the forest. -/
lemma mem_membersOf (hp : Tidy p) {id : Nat} {v : EnumValue} :
    v ∈ (p.membersOf id).map enumValueOfMember ↔
      ∃ child s children, p.forest.Holds child s children ∧ p.forest.parentOf? child = some id ∧
        s.kind = .memberDecl ∧ enumValueOfMember s = v := by
  simp only [membersOf, mem_map, mem_filter, mem_childrenOf, decide_eq_true_eq, holds_forest hp]
  constructor
  · rintro ⟨_, ⟨child, ⟨hlink, hmember⟩, rfl⟩, rfl⟩
    have hle := hp.child_le _ hlink
    obtain ⟨values, hleft⟩ := symbolLeft_eq p child
    refine ⟨child, _, _, ⟨hle, rfl, rfl⟩, ?_, by rw [hleft]; exact hmember, by rw [hleft]; rfl⟩
    rw [parentOf?_forest hp (hp.child_pos _ hlink) hle]
    exact (parent?_eq_some hp).mpr hlink
  · rintro ⟨child, _, _, ⟨hle, rfl, rfl⟩, hparent, hmember, rfl⟩
    obtain ⟨values, hleft⟩ := symbolLeft_eq p child
    rw [hleft] at hmember ⊢
    have hpos : 0 < child := by
      refine Nat.pos_of_ne_zero ?_
      rintro rfl
      cases hmember
    rw [parentOf?_forest hp hpos hle] at hparent
    exact ⟨_, ⟨child, ⟨(parent?_eq_some hp).mp hparent, hmember⟩, rfl⟩, rfl⟩

end Planting

/-- How the values of an enumeration of a forest were collected, where `first` is the doclet that
made it. -/
structure CollectsValues (f : Forest) (t : SymbolTree) (first : Doclet) : Prop where
  /-- A name is there if a property has it, or a member that belongs to the enumeration. -/
  names : ∀ name, name ∈ t.symbol.enumValues.map EnumValue.name ↔ name ∈ first.valueNames ∨
    ∃ child s children, f.Holds child s children ∧ f.parentOf? child = some t.id ∧
      s.kind = .memberDecl ∧ s.name = name
  /-- The values of the properties come first, as they are; then come values of members, one for
  each of the other names. -/
  added : ∃ added, t.symbol.enumValues = first.properties.filterMap Symbol.enumValueOf? ++ added ∧
    (∀ v ∈ added, ∃ child s children, f.Holds child s children ∧ f.parentOf? child = some t.id ∧
      s.kind = .memberDecl ∧ enumValueOfMember s = v) ∧
    (added.map EnumValue.name).Nodup ∧ (added.map EnumValue.name).Disjoint first.valueNames
  /-- No member is left below the enumeration. -/
  folded : ∀ c ∈ t.children, c.kind ≠ .memberDecl

/-- Only properties can repeat a name. -/
lemma CollectsValues.nodup_iff {f : Forest} {t : SymbolTree} {first : Doclet}
    (h : CollectsValues f t first) :
    (t.symbol.enumValues.map EnumValue.name).Nodup ↔ first.valueNames.Nodup := by
  obtain ⟨added, hvalues, -, hnodup, hdisjoint⟩ := h.added
  rw [hvalues, map_append, Symbol.names_enumValueOf?]
  exact ⟨Nodup.of_append_left, fun hfirst => hfirst.append hnodup (disjoint_symm hdisjoint)⟩

lemma SymbolTree.folded_absorb {t : SymbolTree} (henum : t.kind = .enumDecl) :
    ∀ c ∈ (absorbEnumMembers t).children, c.kind ≠ .memberDecl := by
  intro c hc
  rw [children_absorb] at hc
  obtain ⟨v, hv, rfl⟩ := mem_map.mp hc
  simpa [folds, henum] using (mem_filter.mp hv).2

lemma Planting.collectsValues_absorb {p : Planting} (hp : Tidy p) {t : SymbolTree}
    (ht : t ∈ p.tree.walk) (henum : t.kind = .enumDecl) {first : Doclet}
    (hvalues : t.symbol.enumValues = first.properties.filterMap Symbol.enumValueOf?) :
    CollectsValues p.forest (absorbEnumMembers t) first := by
  obtain ⟨added, hadds, hsub, hnodup, hadded⟩ :=
    addMemberValues_eq (p.membersOf t.id) t.symbol.enumValues
  rw [hvalues, Symbol.names_enumValueOf?] at hadded
  have htotal : (absorbEnumMembers t).symbol.enumValues =
      first.properties.filterMap Symbol.enumValueOf? ++ added := by
    rw [enumValues_absorb hp ht henum, ← (children_of_mem_tree hp ht).1, hadds, hvalues]
  refine ⟨fun name => ?_, ⟨added, htotal, fun v hv => ?_, hnodup, fun name hname =>
    ((hadded name).mp hname).1⟩, folded_absorb henum⟩
  · have hmembers : name ∈ (p.membersOf t.id).map Symbol.name ↔
        ∃ v ∈ (p.membersOf t.id).map enumValueOfMember, v.name = name := by
      rw [← mem_map, map_map]
      rfl
    rw [htotal, map_append, Symbol.names_enumValueOf?, mem_append, hadded, hmembers, id_absorb]
    simp only [mem_membersOf hp]
    constructor
    · rintro (hname | ⟨-, v, ⟨child, s, children, hholds, hparent, hkind, rfl⟩, rfl⟩)
      · exact .inl hname
      · exact .inr ⟨child, s, children, hholds, hparent, hkind, rfl⟩
    · rintro (hname | ⟨child, s, children, hholds, hparent, hkind, rfl⟩)
      · exact .inl hname
      · by_cases hname : s.name ∈ first.valueNames
        · exact .inl hname
        · exact .inr ⟨hname, _, ⟨child, s, children, hholds, hparent, hkind, rfl⟩, rfl⟩
  · rw [id_absorb]
    exact (mem_membersOf hp).mp (hsub hv)

/-- **The values of enumerations.** They are collected from the properties of the first doclet and
from the members, and their names differ exactly if those of the properties do. -/
theorem enumValues_buildForest {filter : Option DocletFilter} {doclets : List Doclet} {f : Forest}
    (hf : (buildForest filter doclets).result = .ok f) {t : SymbolTree} (ht : t ∈ f.nodes)
    (henum : t.kind = .enumDecl) :
    ∃ first, doclets.find? (Census.documents filter t.longname) = some first ∧
      CollectsValues f t first ∧
        ((t.symbol.enumValues.map EnumValue.name).Nodup ↔ first.valueNames.Nodup) := by
  obtain ⟨c, hc, _, rfl⟩ := result_buildForest.mp hf
  have hp := tidy_of_census hc
  have hwalk : t ∈ c.planting.forest.root.walk := by
    rw [walk_eq]
    exact mem_cons_of_mem _ ht
  obtain ⟨u, hu, rfl⟩ := mem_walk_absorb hwalk
  rw [kind_absorb] at henum
  have hsymbol := (children_of_mem_tree hp hu).1
  have hmem : u.symbol ∈ c.planting.symbols := by
    rw [hsymbol]
    refine symbolAt_mem ?_
    rw [← hsymbol, ← SymbolTree.kind, henum]
    simp
  obtain ⟨first, hfirst, hvalues⟩ := all_attachAll (lasting_valued filter doclets)
    (fun s hs => Census.valued_of_mem hc hs) _ hmem henum
  have hcollects := collectsValues_absorb hp hu henum hvalues
  exact ⟨first, by rwa [longname_absorb], hcollects, hcollects.nodup_iff⟩

/-- An enumeration with two properties, and two members of it, of which one is a property as
well. -/
def colors : List Doclet :=
  [{ Doclet.bare "Color" none (.value false none true) with
     properties := [.bare "RED", .bare "GREEN"] },
   .bare "Color.RED" (some "Color") (.value false none false),
   .bare "Color.BLUE" (some "Color") (.value false none false)]

/-- The enumerations of a forest, each with the names of its values. -/
def Forest.enumerations (f : Forest) : List (String × List String) :=
  (f.nodes.filter fun t => t.kind = .enumDecl).map fun t =>
    (t.longname, t.symbol.enumValues.map EnumValue.name)

lemma Forest.exists_enumeration {f : Forest} {longname : String} {names : List String}
    (h : f.enumerations = [(longname, names)]) : ∃ t ∈ f.nodes, t.kind = .enumDecl ∧
      t.longname = longname ∧ t.symbol.enumValues.map EnumValue.name = names := by
  obtain ⟨t, ht, hrow⟩ := mem_map.mp (h ▸ mem_singleton_self (longname, names))
  obtain ⟨hmem, henum⟩ := mem_filter.mp ht
  obtain ⟨hlongname, hnames⟩ := Prod.mk.inj hrow
  exact ⟨t, hmem, by simpa using henum, hlongname, hnames⟩

/-- Each name is there once, and the members are gone. -/
theorem enumValues_buildForest_colors : ∃ f, (buildForest none colors).result = .ok f ∧
    ∃ t ∈ f.nodes, t.kind = .enumDecl ∧
      t.symbol.enumValues.map EnumValue.name = ["RED", "GREEN", "BLUE"] ∧
        ∃ first, first.valueNames = ["RED", "GREEN"] ∧ CollectsValues f t first ∧
          ((t.symbol.enumValues.map EnumValue.name).Nodup ↔ first.valueNames.Nodup) := by
  have hrun : ((buildForest none colors).result.toOption.map Forest.enumerations) =
      some [("Color", ["RED", "GREEN", "BLUE"])] := by
    decide +kernel
  obtain ⟨f, hf, hrow⟩ := Run.toOption_map.mp hrun
  obtain ⟨t, ht, henum, hlongname, hnames⟩ := Forest.exists_enumeration hrow
  obtain ⟨first, hfirst, hcollects, hnodup⟩ := enumValues_buildForest hf ht henum
  rw [hlongname] at hfirst
  obtain rfl := Option.some.inj hfirst
  exact ⟨f, hf, t, ht, henum, hnames, _, rfl, hcollects, hnodup⟩

/-- An enumeration of which two properties have one name. -/
def repeatedColor : List Doclet :=
  [{ Doclet.bare "Color" none (.value false none true) with
     properties := [.bare "RED", .bare "RED"] }]

/-- The name of both is there twice. -/
theorem not_nodup_repeatedColor : ∃ f, (buildForest none repeatedColor).result = .ok f ∧
    ∃ t ∈ f.nodes, t.kind = .enumDecl ∧ ¬ (t.symbol.enumValues.map EnumValue.name).Nodup := by
  have hrun : ((buildForest none repeatedColor).result.toOption.map Forest.enumerations) =
      some [("Color", ["RED", "RED"])] := by
    decide +kernel
  obtain ⟨f, hf, hrow⟩ := Run.toOption_map.mp hrun
  obtain ⟨t, ht, henum, _, hnames⟩ := Forest.exists_enumeration hrow
  refine ⟨f, hf, t, ht, henum, ?_⟩
  rw [hnames]
  decide

end AmbientDecl

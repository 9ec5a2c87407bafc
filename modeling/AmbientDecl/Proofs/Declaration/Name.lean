import AmbientDecl.Declaration.Printer
import AmbientDecl.Proofs.Forest.Structure
import AmbientDecl.Proofs.Run

/-!
# Names that declarations are given

Names are chosen block by block, for the symbols that are declared there.

**Choices.** Every choice is made for a symbol in the block of its parent, and every symbol in a
block has one (`mem_nameChoices`, `ids_nameChoices`). Since numbers differ, the name that is looked
up by the number of a symbol is the one chosen for it (`lookup_of_mem_nameChoices`, `lookup_names`).

**Emission.** An emission checks the forest, chooses the names of all declarations, prints them and
reports what it found. `emitDeclarations_eq` writes this down with the emitter that has all names,
so that nothing about the emitters in between has to be known.

**Dots.** A chosen name is made out of an identifier and a number, so no dot is in it
(`dotless_of_nameChar`), and names joined by dots can be taken apart again.
-/

namespace AmbientDecl

open Text TypeExpr List Emitter

/-- The emitter of a forest that has chosen the names of all declarations. -/
def Emitter.named (settings : Settings) (f : Forest) : Emitter :=
  let names := (allNameChoices f.root).map fun c => (c.id, c.name)
  { start settings f with names }

/-- An emission with the emitter that has all names. -/
lemma emitDeclarations_eq (settings : Settings) (f : Forest) :
    emitDeclarations settings f = do
      check f
      Run.noteAll ((allNameChoices f.root).filterMap NameChoice.entry?)
      let noted := (named settings f).topLevel
      Run.noteAll ((.descend (3 * f.root.height) :: noted.tasks).map Entry.task ++
        (reportFindings [] noted.findings).map Entry.diagnostic)
      Run.reach (.declarationsEmitted f.root.children.length)
      return layout settings.output.indent noted.value := by
  simp only [emitDeclarations, emit, chooseNames, report, bind_assoc, pure_bind]
  rfl

section Choices

variable {f : Forest} {settings : Settings} {q : Place} {c : SymbolTree}

lemma ids_nameChoices (parent : SymbolTree) (taken : List String) (l : List SymbolTree) :
    (nameChoices parent taken l).map NameChoice.id = l.map SymbolTree.id := by
  induction l generalizing taken with
  | nil => rfl
  | cons t rest ih =>
    rw [nameChoices, map_cons, ih, map_cons, nameChoice]
    split <;> rfl

lemma mem_nameChoices {parent : SymbolTree} {taken : List String} {l : List SymbolTree}
    {choice : NameChoice} (h : choice ∈ nameChoices parent taken l) :
    ∃ t ∈ l, ∃ taken, choice = nameChoice parent taken t := by
  induction l generalizing taken with
  | nil => simp [nameChoices] at h
  | cons t rest ih =>
    rw [nameChoices] at h
    rcases mem_cons.mp h with rfl | h
    · exact ⟨t, mem_cons_self, taken, rfl⟩
    · obtain ⟨s, hs, taken, rfl⟩ := ih h
      exact ⟨s, mem_cons_of_mem _ hs, taken, rfl⟩

lemma id_nameChoice (parent : SymbolTree) (taken : List String) (t : SymbolTree) :
    (nameChoice parent taken t).id = t.id := by
  rw [nameChoice]
  split <;> rfl

/-- No number is named twice: every symbol stands in one block at most. -/
lemma nodup_names (hf : f.root.ids.Nodup) (settings : Settings) :
    ((named settings f).names.map Prod.fst).Nodup := by
  have hids : (named settings f).names.map Prod.fst =
      f.root.walk.flatMap fun t => t.companions.map SymbolTree.id := by
    simp only [named, allNameChoices, map_map, map_flatMap]
    exact flatMap_congr fun t _ => ids_nameChoices t [] t.companions
  have hsub : (f.root.walk.flatMap fun t => t.companions.map SymbolTree.id).Sublist
      (f.root.edges.map Prod.snd) := by
    simp only [SymbolTree.edges, map_flatMap, map_map]
    exact Sublist.flatMap_right _ fun t _ => filter_sublist.map SymbolTree.id
  rw [SymbolTree.ids_eq, nodup_cons] at hf
  rw [hids]
  exact hsub.nodup ((SymbolTree.perm_edges f.root).nodup_iff.mpr hf.2)

lemma lookup_of_mem_nameChoices (hf : f.root.ids.Nodup) (settings : Settings) (hq : q ∈ f.places)
    {choice : NameChoice} (h : choice ∈ nameChoices q.tree [] q.tree.companions) :
    (named settings f).names.lookup choice.id = some choice.name := by
  have hwalk := tree_mem_walk hq
  exact lookup_eq_some_of_nodup (nodup_names hf settings)
    (mem_map_of_mem (mem_flatMap.mpr ⟨q.tree, hwalk, h⟩))

/-- **The name of a symbol is the one that was chosen for it in its block.** -/
lemma lookup_names (hf : f.root.ids.Nodup) (settings : Settings) (hq : q ∈ f.places)
    (hc : c ∈ q.tree.companions) :
    ∃ taken, (named settings f).names.lookup c.id = some (nameChoice q.tree taken c).name := by
  have hwalk := tree_mem_walk hq
  have hid : c.id ∈ (nameChoices q.tree [] q.tree.companions).map NameChoice.id := by
    rw [ids_nameChoices]
    exact mem_map_of_mem hc
  obtain ⟨choice, hchoice, hid⟩ := mem_map.mp hid
  have hlookup := lookup_of_mem_nameChoices hf settings hq hchoice
  obtain ⟨t, ht, taken, rfl⟩ := mem_nameChoices hchoice
  rw [id_nameChoice] at hid
  have hsame : t = c := inj_on_of_nodup_map hf
    (SymbolTree.mem_walk_of_child hwalk (mem_of_mem_filter ht))
    (SymbolTree.mem_walk_of_child hwalk (mem_of_mem_filter hc)) hid
  subst hsame
  refine ⟨taken, ?_⟩
  rwa [id_nameChoice] at hlookup

lemma nameOf_eq (hf : f.root.ids.Nodup) (settings : Settings) (hq : q ∈ f.places)
    (hc : c ∈ q.tree.companions) :
    let dir := (named settings f).printer.directory
    dir.names.lookup c.id = some (dir.nameOf c) ∧
      ∃ taken, dir.nameOf c = (nameChoice q.tree taken c).name := by
  intro dir
  obtain ⟨taken, hlookup⟩ := lookup_names hf settings hq hc
  have hname : dir.nameOf c = (nameChoice q.tree taken c).name := by
    rw [Directory.nameOf]
    exact congrArg (Option.getD · c.name) hlookup
  exact ⟨hname ▸ hlookup, taken, hname⟩

end Choices

/-- Free of dots. -/
def Dotless (text : String) : Prop := '.' ∉ text.toList

instance (text : String) : Decidable (Dotless text) :=
  inferInstanceAs (Decidable ('.' ∉ text.toList))

lemma dotless_of_nameChar {text : String} (h : MadeOf NameChar text) : Dotless text :=
  h.not_mem (by decide)

end AmbientDecl

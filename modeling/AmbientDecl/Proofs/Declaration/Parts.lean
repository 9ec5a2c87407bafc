import AmbientDecl.Proofs.Declaration.Place
import AmbientDecl.Proofs.Declaration.Printed

/-!
# Which part of the output declares which symbol

The printed document does not say whose declaration a piece is. Here it is read as a list of parts
that do.

**Parts.** A `Part` is lines that declare a symbol, or a block: the body of a class or an interface,
a module or a namespace that declares a symbol, or the companion namespace of a symbol that is
declared elsewhere. `Part.docs` forgets whose parts they are, `Part.walk` lists a part with all
parts in it.

**What is expected.** `mentions` are the parts that a child has in the block of its parent: its
declaration, unless it stands in the body of the class, and a companion namespace, if it has
companions and is no namespace itself. `Part.Fits` says of a part that it is made of the pieces that
declare its symbol, no more and no fewer, and of a block that it holds its own lines and mentions
the right children in their order.

**Reading.** `Reads` ties pieces of a document to the parts that they can be read as; it is kept by
concatenation and by a block around the pieces.
-/

namespace AmbientDecl

open List

/-- What a block does for its symbol. -/
inductive Role where
  /-- It declares a class or an interface. -/
  | body
  /-- It declares a module or a namespace. -/
  | space
  /-- It is a namespace beside the declaration. -/
  | companion
deriving DecidableEq, Repr

/-- A part of the output that belongs to the symbol of a number. -/
inductive Part where
  | lines (id : Nat) (docs : List Doc)
  | block (id : Nat) (role : Role) (header : String) (own : List Doc) (parts : List Part)

/-- What a part is to the block that it stands in. -/
inductive Mention where
  | declaration (id : Nat)
  | companion (id : Nat)
deriving DecidableEq, Repr

namespace Part

mutual

def docs : Part → List Doc
  | .lines _ docs => docs
  | .block _ _ header own parts => [.block header (own ++ allDocs parts)]

def allDocs : List Part → List Doc
  | [] => []
  | part :: rest => docs part ++ allDocs rest

end

mutual

def walk : Part → List Part
  | .lines id docs => [.lines id docs]
  | .block id role header own parts => .block id role header own parts :: walkAll parts

def walkAll : List Part → List Part
  | [] => []
  | part :: rest => walk part ++ walkAll rest

end

/-- What a part is to the block that it stands in. -/
def mention : Part → Mention
  | .lines id _ => .declaration id
  | .block id role _ _ _ => if role = .companion then .companion id else .declaration id

/-- The symbol that a part declares. -/
def declares? (part : Part) : Option Nat :=
  match part.mention with
  | .declaration id => some id
  | .companion _ => none

/-- The symbols that are declared by parts and by all parts in them. -/
def declared (parts : List Part) : List Nat := (walkAll parts).filterMap declares?

lemma induct {P : Part → Prop} (lines : ∀ id docs, P (.lines id docs))
    (block : ∀ id role header own parts, (∀ part ∈ parts, P part) →
      P (.block id role header own parts)) : ∀ part, P part := by
  apply @Part.rec P (fun l => ∀ part ∈ l, P part) lines block
  · intro part hpart
    simp at hpart
  · intro part rest hpart hrest other hother
    rcases mem_cons.mp hother with rfl | hother
    · exact hpart
    · exact hrest other hother

lemma allDocs_eq (parts : List Part) : allDocs parts = parts.flatMap docs := by
  induction parts with
  | nil => rfl
  | cons part rest ih => rw [allDocs, ih, flatMap_cons]

lemma walkAll_eq (parts : List Part) : walkAll parts = parts.flatMap walk := by
  induction parts with
  | nil => rfl
  | cons part rest ih => rw [walkAll, ih, flatMap_cons]

lemma declared_append (parts parts' : List Part) :
    declared (parts ++ parts') = declared parts ++ declared parts' := by
  simp [declared, walkAll_eq]

end Part

namespace Place

/-- Whether the symbol stands in the body of its parent. -/
def isInline (q : Place) : Bool := q.ancestors.head?.any fun parent => parent.isInlineIn q.tree

/-- Whether the symbol is a module at the top level. -/
def isTopModule (q : Place) : Bool :=
  q.ancestors.head?.any fun parent => parent.isTopModuleIn q.tree

/-- The word that leads a declaration in. -/
def lead (q : Place) : String :=
  match q.ancestors with
  | [] => ""
  | parent :: above =>
    if parent.kind = .root then "declare "
    else if isTopModule ⟨parent, above⟩ then "export "
    else ""

end Place

namespace Printer

/-- The words that declare the symbol at a place. -/
def headAt (p : Printer) (q : Place) : String :=
  if q.isInline then memberHead
    (q.ancestors.head?.any fun parent => parent.kind = .classDecl) q.symbol
  else p.ownHead q q.lead

def namespaceHeader (p : Printer) (q : Place) : String := q.lead ++ "namespace " ++ p.nameAt q

/-- The header of a module or a namespace that declares a symbol. -/
def spaceHeader (p : Printer) (q : Place) : String :=
  if q.isTopModule then moduleHeader q.symbol.name else p.namespaceHeader q

end Printer

/-- Whether a child gets a namespace beside its declaration. -/
def hasCompanion (parent t : SymbolTree) : Bool :=
  !t.companions.isEmpty && (parent.isInlineIn t || t.kind = .classDecl || t.kind = .interfaceDecl ||
    t.kind = .functionDecl || t.kind = .typedefDecl || t.kind = .enumDecl)

/-- The parts that a child has in the module, namespace or companion namespace of its parent. -/
def mentions (parent t : SymbolTree) : List Mention :=
  (if parent.isInlineIn t then [] else [.declaration t.id]) ++
    if hasCompanion parent t then [.companion t.id] else []

/-- A part is made of the pieces that declare its symbol. The body of a class starts with its
constructors and that of an interface with its members, and a block mentions the right children. -/
def Part.Fits (p : Printer) (f : Forest) : Part → Prop
  | .lines id docs => ∃ q ∈ f.places, q.tree.id = id ∧ Declares (p.headAt q) q.symbol docs
  | .block id .body header own parts => ∃ q ∈ f.places, q.tree.id = id ∧
      (q.tree.kind = .classDecl ∨ q.tree.kind = .interfaceDecl) ∧
      Heads (p.headAt q) header ∧ List.Forall₂ Doc.IsLine q.symbol.constructorHeads own ∧
      parts.map Part.mention
        = (q.tree.children.filter q.tree.isInlineIn).map fun c => .declaration c.id
  | .block id role header own parts => ∃ q ∈ f.places, q.tree.id = id ∧
      header = (if role = .space then p.spaceHeader q else p.namespaceHeader q) ∧ own = [] ∧
      parts.map Part.mention = q.tree.children.flatMap (mentions q.tree)

/-- The symbols that the block of a parent declares for a child: the child, unless it stands in the
body, and everything below it. -/
def outside (parent t : SymbolTree) : List Nat :=
  (if parent.isInlineIn t then [] else [t.id]) ++ t.nodes.map SymbolTree.id

/-- Pieces of a document that can be read as parts with these mentions, which declare these
symbols. -/
structure Reads (p : Printer) (f : Forest) (docs : List Doc) (mentioned : List Mention)
    (ids : List Nat) (parts : List Part) : Prop where
  docs : docs = Part.allDocs parts
  mentioned : parts.map Part.mention = mentioned
  fits : ∀ part ∈ Part.walkAll parts, part.Fits p f
  ids : (Part.declared parts).Perm ids

section Reads

variable {p : Printer} {f : Forest} {docs : List Doc} {mentioned : List Mention} {ids : List Nat}
  {parts : List Part}

lemma Reads.nil (p : Printer) (f : Forest) : Reads p f [] [] [] [] :=
  ⟨rfl, rfl, by simp [Part.walkAll], Perm.refl _⟩

lemma Reads.append {docs' : List Doc} {mentioned' : List Mention}
    {ids' : List Nat} {parts' : List Part} (h : Reads p f docs mentioned ids parts)
    (h' : Reads p f docs' mentioned' ids' parts') :
    Reads p f (docs ++ docs') (mentioned ++ mentioned') (ids ++ ids') (parts ++ parts') where
  docs := by
    rw [h.docs, h'.docs, Part.allDocs_eq, Part.allDocs_eq, Part.allDocs_eq, flatMap_append]
  mentioned := by rw [map_append, h.mentioned, h'.mentioned]
  fits := by
    intro part hpart
    rw [Part.walkAll_eq, flatMap_append, ← Part.walkAll_eq, ← Part.walkAll_eq] at hpart
    rcases mem_append.mp hpart with hpart | hpart
    · exact h.fits part hpart
    · exact h'.fits part hpart
  ids := by
    rw [Part.declared_append]
    exact h.ids.append h'.ids

lemma Reads.lines {id : Nat} (h : (Part.lines id docs).Fits p f) :
    Reads p f docs [.declaration id] [id] [.lines id docs] where
  docs := by simp [Part.allDocs, Part.docs]
  mentioned := rfl
  fits := by
    intro part hpart
    simp only [Part.walkAll, Part.walk, append_nil, mem_singleton] at hpart
    exact hpart ▸ h
  ids := Perm.refl _

lemma Reads.block
    (h : Reads p f docs mentioned ids parts) {id : Nat} {role : Role} {header : String}
    {own : List Doc} (hfits : (Part.block id role header own parts).Fits p f) :
    Reads p f [.block header (own ++ docs)]
      [if role = .companion then .companion id else .declaration id]
      ((if role = .companion then [] else [id]) ++ ids) [.block id role header own parts] where
  docs := by simp [Part.allDocs, Part.docs, h.docs]
  mentioned := rfl
  fits := by
    intro part hpart
    simp only [Part.walkAll, Part.walk, append_nil, mem_cons] at hpart
    rcases hpart with rfl | hpart
    · exact hfits
    · exact h.fits part hpart
  ids := by
    have hdeclared : Part.declared [.block id role header own parts]
        = (if role = .companion then [] else [id]) ++ Part.declared parts := by
      simp only [Part.declared, Part.walkAll, Part.walk, append_nil]
      cases role <;> rfl
    rw [hdeclared]
    exact h.ids.append_left _

lemma Reads.perm {ids' : List Nat} (h : Reads p f docs mentioned ids parts)
    (hperm : ids.Perm ids') :
    Reads p f docs mentioned ids' parts :=
  ⟨h.docs, h.mentioned, h.fits, h.ids.trans hperm⟩

/-- What is read of a list, read item by item: the parts of the items one after another. -/
lemma Reads.each {α : Type} {l : List α} {docs : α → List Doc} {mentioned : α → List Mention}
    {ids : α → List Nat} (h : ∀ a ∈ l, ∃ parts, Reads p f (docs a) (mentioned a) (ids a) parts) :
    ∃ parts : List (List Part), l.map docs = parts.map Part.allDocs ∧
      parts.map (fun ps => ps.map Part.mention) = l.map mentioned ∧
        Reads p f (l.flatMap docs) (l.flatMap mentioned) (l.flatMap ids) parts.flatten := by
  induction l with
  | nil => exact ⟨[], rfl, rfl, Reads.nil p f⟩
  | cons a rest ih =>
    obtain ⟨ps, hps⟩ := h a mem_cons_self
    obtain ⟨parts, hdocs, hmentioned, hparts⟩ := ih fun b hb => h b (mem_cons_of_mem _ hb)
    refine ⟨ps :: parts, ?_, ?_, hps.append hparts⟩
    · rw [map_cons, map_cons, hps.docs, hdocs]
    · rw [map_cons, map_cons, hps.mentioned, hmentioned]

lemma Reads.flatMap {α : Type} {l : List α} {docs : α → List Doc} {mentioned : α → List Mention}
    {ids : α → List Nat} (h : ∀ a ∈ l, ∃ parts, Reads p f (docs a) (mentioned a) (ids a) parts) :
    ∃ parts, Reads p f (l.flatMap docs) (l.flatMap mentioned) (l.flatMap ids) parts := by
  obtain ⟨parts, _, _, hparts⟩ := Reads.each h
  exact ⟨parts.flatten, hparts⟩

/-- Parts that fit are plain documents. -/
lemma plain_docs {part : Part} (h : ∀ part' ∈ part.walk, part'.Fits p f) :
    ∀ d ∈ part.docs, d.Plain := by
  induction part using Part.induct with
  | lines id docs =>
    obtain ⟨q, _, _, hdeclares⟩ := h _ (mem_singleton_self _)
    exact hdeclares.plain
  | block id role header own parts ih =>
    rw [Part.walk] at h
    have hinside : ∀ d ∈ Part.allDocs parts, d.Plain := by
      intro d hd
      rw [Part.allDocs_eq] at hd
      obtain ⟨part, hpart, hd⟩ := mem_flatMap.mp hd
      refine ih part hpart (fun part' hpart' => h part' (mem_cons_of_mem _ ?_)) d hd
      rw [Part.walkAll_eq]
      exact mem_flatMap.mpr ⟨part, hpart, hpart'⟩
    have hown : ∀ d ∈ own, d.Plain := by
      have hfits := h _ mem_cons_self
      cases role with
      | body =>
        obtain ⟨_, _, _, _, _, hlines, _⟩ := hfits
        exact plain_of_isLine hlines
      | space =>
        obtain ⟨_, _, _, _, rfl, _⟩ := hfits
        simp
      | companion =>
        obtain ⟨_, _, _, _, rfl, _⟩ := hfits
        simp
    intro d hd
    rw [Part.docs, mem_singleton] at hd
    rw [hd, Doc.plain_block]
    intro e he
    rcases mem_append.mp he with he | he
    · exact hown e he
    · exact hinside e he

lemma Reads.plain (h : Reads p f docs mentioned ids parts) : ∀ d ∈ docs, d.Plain := by
  intro d hd
  rw [h.docs, Part.allDocs_eq] at hd
  obtain ⟨part, hpart, hd⟩ := mem_flatMap.mp hd
  refine plain_docs (fun part' hpart' => h.fits part' ?_) d hd
  rw [Part.walkAll_eq]
  exact mem_flatMap.mpr ⟨part, hpart, hpart'⟩

end Reads

end AmbientDecl

import AmbientDecl.Proofs.Arrival.Forest
import AmbientDecl.Proofs.Forest.Plan

/-!
# Expansion in place gives the same forest

Expansion in place changes the symbols of a forest one after another, where expansion on a walk puts
a new tree together.

**Steps.** Putting typedefs in lengthens a run of numbers in one list of children (`followed_puts`).
A symbol is expanded alike in place and on the walk (`exists_alike`): the name of a typedef does not
depend on the order of the names that are taken.

**The walk.** `Heap.Holds` ties a tree to the symbols, and `Heap.Frame` tells what a part of the
walk leaves alone. What the walk over a tree gives is held by the symbols when the places of the
tree have been gone through (`follows`), so the forests are the same (`result_expandInPlace`).
-/

namespace AmbientDecl

open List Expander SymbolTree AmbientDecl.Symbol

variable {s : Symbol} {cs : List SymbolTree} {k' : Nat} {e e' : Expansion} {c : SymbolTree}

section Written

variable {α : Type} {g : Nat → α} {i j : Nat} {a : α}

@[simp] lemma written_self : written g i a i = a := if_pos rfl

lemma written_of_ne (h : j ≠ i) : written g i a j = g j := if_neg h

end Written

/-- Minds that are alike, but for the order of the names and for what had been made before. -/
structure Expansion.Alike (made : List SymbolTree) (e e' : Expansion) : Prop where
  index : e'.index = e.index
  nextId : e'.nextId = e.nextId
  taken : e'.taken.Perm e.taken
  pending : e.pending = made ++ e'.pending

lemma alike_synthesize {made : List SymbolTree} (container : String)
    (owner : Symbol) (root : String)
    (record : TypeNode) : Expander.Agree (Expansion.Alike made) Eq
      (synthesize container owner root record) (synthesize container owner root record) := by
  intro e e' he
  have hname : typedefName e' container owner root = typedefName e container owner root := by
    have hoccupied : ∀ name, e'.taken.contains name = e.taken.contains name := fun name => by
      rw [Bool.eq_iff_iff, contains_iff_mem, contains_iff_mem, he.taken.mem_iff]
    simp only [typedefName, hoccupied, he.index, he.taken.length_eq]
  refine .success rfl rfl ⟨by simp only [hname], ?_⟩ (.refl _)
  simp only [hname, he.index, he.nextId]
  exact ⟨rfl, rfl, he.taken.append_right _, by simp [he.pending]⟩

/-- A symbol is expanded alike in place and on the walk. -/
lemma exists_alike (container : String) (s : Symbol) (e : Expansion) {names : List String}
    (htaken : names.Perm e.taken) : ∃ s' e₁ e₂, Gives (expandSymbol container s) e s' e₁ ∧
      Gives (expandSymbol container s) ⟨e.index, e.nextId, names, []⟩ s' e₂ ∧
      Expansion.Adds e₂.pending e e₁ ∧
      ∀ m ∈ e₂.pending, m.children = [] := by
  obtain ⟨o, e₁, hgives, hadds, ho⟩ := expands_expandSymbol container s e
  have hstart : Expansion.Alike e.pending e ⟨e.index, e.nextId, names, []⟩ :=
    ⟨rfl, rfl, htaken, (append_nil _).symm⟩
  have hgives' : ((expandSymbol container s).run e).result = .ok (o.symbol, e₁) := hgives
  rcases agree_expandSymbol alike_synthesize container s e _ hstart with
    ⟨hleft, hright, ⟨hsame, halike⟩, -⟩ | ⟨hleft, -⟩
  · rename_i x y
    obtain rfl : (o.symbol, e₁) = x := by simpa [hgives'] using hleft
    have hmade : y.2.pending = o.made := by
      have hpending := halike.pending
      rw [hadds.pending] at hpending
      exact (append_cancel_left hpending).symm
    refine ⟨y.1, e₁, y.2, hsame ▸ hgives, hright, hmade ▸ hadds, hmade ▸ ho.signatures.children⟩
  · simp [hgives'] at hleft

namespace Heap

variable {h h' h'' : Heap} {t : SymbolTree} {own own' anchors front mid back : List Nat} {k a : Nat}

/-- A tree that the symbols make up. -/
def Holds (h : Heap) (t : SymbolTree) : Prop :=
  ∀ u ∈ t.walk, h.symbol u.id = u.symbol ∧ h.children u.id = u.children.map SymbolTree.id

lemma mem_ids_self (t : SymbolTree) : t.id ∈ t.ids :=
  SymbolTree.mem_ids.mpr ⟨t, mem_walk_self t, rfl⟩

lemma holds_node {i : Nat} : h.Holds (.node i s cs) ↔
    (h.symbol i = s ∧ h.children i = cs.map SymbolTree.id) ∧ ∀ c ∈ cs, h.Holds c := by
  rw [Holds, walk_node, forall_mem_cons]
  refine and_congr Iff.rfl ⟨fun hall c hc u hu => hall u (mem_flatMap.mpr ⟨c, hc, hu⟩),
    fun hall u hu => ?_⟩
  obtain ⟨c, hc, hu⟩ := mem_flatMap.mp hu
  exact hall c hc u hu

/-- Of the numbers given out, only those in `own` get other symbols, and only those and `k` other
children. Names stay. -/
structure Frame (own : List Nat) (k : Nat) (anchors : List Nat) (h h' : Heap) : Prop where
  names : ∀ j < h.nextId, (h'.symbol j).name = (h.symbol j).name
  symbols : ∀ j < h.nextId, j ∉ own → h'.symbol j = h.symbol j
  children : ∀ j < h.nextId, j ∉ own → j ≠ k → h'.children j = h.children j
  inserted : ∀ j, j ∉ own → j ∉ anchors → h'.inserted j = h.inserted j
  nextId : h.nextId ≤ h'.nextId

lemma Frame.refl (own : List Nat) (k : Nat) (anchors : List Nat) (h : Heap) :
    Frame own k anchors h h := by
  constructor <;> simp

lemma Frame.mono {anchors' : List Nat} (hf : Frame own k anchors h h') (hown : own ⊆ own')
    (hk : k = k' ∨ k ∈ own') (ha : anchors ⊆ own' ++ anchors') : Frame own' k' anchors' h h' where
  names := hf.names
  symbols j hj hnot := hf.symbols j hj fun hmem => hnot (hown hmem)
  children j hj hnot hne := by
    refine hf.children j hj (fun hmem => hnot (hown hmem)) ?_
    rintro rfl
    exact hk.elim hne hnot
  inserted j hnot hne := by
    refine hf.inserted j (fun hmem => hnot (hown hmem)) fun hmem => ?_
    exact (mem_append.mp (ha hmem)).elim hnot hne
  nextId := hf.nextId

lemma Frame.trans (hf : Frame own k anchors h h') (hf' : Frame own k anchors h' h'') :
    Frame own k anchors h h'' where
  names j hj := (hf'.names j (Nat.lt_of_lt_of_le hj hf.nextId)).trans (hf.names j hj)
  symbols j hj hnot :=
    (hf'.symbols j (Nat.lt_of_lt_of_le hj hf.nextId) hnot).trans (hf.symbols j hj hnot)
  children j hj hnot hk :=
    (hf'.children j (Nat.lt_of_lt_of_le hj hf.nextId) hnot hk).trans (hf.children j hj hnot hk)
  inserted j hnot ha := (hf'.inserted j hnot ha).trans (hf.inserted j hnot ha)
  nextId := Nat.le_trans hf.nextId hf'.nextId

lemma Frame.holds (hf : Frame own k anchors h h') (ht : h.Holds t)
    (hids : ∀ j ∈ t.ids, j < h.nextId ∧ j ∉ own ∧ j ≠ k) : h'.Holds t := by
  intro u hu
  obtain ⟨hlt, hown, hk⟩ := hids u.id (SymbolTree.mem_ids.mpr ⟨u, hu, rfl⟩)
  rw [hf.symbols u.id hlt hown, hf.children u.id hlt hown hk]
  exact ht u hu

/-- What the walk has in mind inside `k` is what the symbols tell. -/
structure InStep (h : Heap) (k : Nat) (e : Expansion) : Prop where
  known : k < h.nextId ∧ ∀ j ∈ h.children k, j < h.nextId
  index : h.index = e.index
  nextId : h.nextId = e.nextId
  taken : (h.names k).Perm e.taken

lemma InStep.unpend (h₀ : InStep h k e) : InStep h k { e with pending := [] } :=
  ⟨h₀.known, h₀.index, h₀.nextId, h₀.taken⟩

/-- In the children of `k` the typedefs `mid` have been put behind `a`. -/
structure Reached (h : Heap) (k a : Nat) (front mid back : List Nat) (e : Expansion) : Prop
    extends InStep h k e where
  children : h.children k = front ++ a :: (mid ++ back)
  inserted : h.inserted a = mid.length
  apart : a ∉ front

/-- What is done inside another container leaves it all as it is. -/
lemma Reached.outside (hr : Reached h k a front mid back e)
    (hf : Frame own k' [] h h') (hk : k ∉ own) (hkk : k ≠ k') (ha : a ∉ own)
    (hindex : h'.index = e'.index) (hnextId : h'.nextId = e'.nextId) :
    Reached h' k a front mid back { e' with taken := e.taken, pending := e.pending } := by
  have hchildren := hf.children k hr.known.1 hk hkk
  have hknown : ∀ j ∈ h.children k, j < h'.nextId := fun j hj =>
    Nat.lt_of_lt_of_le (hr.known.2 j hj) hf.nextId
  have hnames : h'.names k = h.names k := by
    rw [names, names, hchildren]
    exact map_congr_left fun j hj => hf.names j (hr.known.2 j hj)
  exact ⟨⟨⟨Nat.lt_of_lt_of_le hr.known.1 hf.nextId, hchildren ▸ hknown⟩, hindex, hnextId,
    hnames ▸ hr.taken⟩,
    hchildren ▸ hr.children, (hf.inserted a ha not_mem_nil).trans hr.inserted, hr.apart⟩

/-- A part of the walk, which made the typedefs `new`. -/
structure Followed (own : List Nat) (k a : Nat) (front mid back : List Nat) (h h' : Heap)
    (e e' : Expansion)
    (new : List SymbolTree) : Prop where
  frame : Frame own k [a] h h'
  reached : Reached h' k a front (mid ++ new.map SymbolTree.id) back e'
  pending : e'.pending = e.pending ++ new
  leaves : ∀ m ∈ new, m.children = []
  made : ∀ m ∈ new, h'.Holds m ∧ h.nextId ≤ m.id ∧ m.id < h'.nextId

lemma Followed.mono {new : List SymbolTree}
    (hf : Followed own k a front mid back h h' e e' new) (hown : own ⊆ own') :
    Followed own' k a front mid back h h' e e' new :=
  { hf with frame := hf.frame.mono hown (.inl rfl) (subset_append_right _ _) }

lemma Followed.trans {e'' : Expansion} {new new' : List SymbolTree}
    (hfirst : Followed own k a front mid back h h' e e' new)
    (hnext : Followed own k a front (mid ++ new.map SymbolTree.id) back h' h'' e' e'' new')
    (hk : k < h.nextId) (hown : ∀ j ∈ own, j < h.nextId) :
    Followed own k a front mid back h h'' e e'' (new ++ new') where
  frame := hfirst.frame.trans hnext.frame
  reached := by
    rw [map_append, ← append_assoc]
    exact hnext.reached
  pending := by rw [hnext.pending, hfirst.pending, append_assoc]
  leaves := forall_mem_append.mpr ⟨hfirst.leaves, hnext.leaves⟩
  made := by
    refine forall_mem_append.mpr ⟨fun m hm => ?_, fun m hm => ?_⟩
    · obtain ⟨hholds, hle, hlt⟩ := hfirst.made m hm
      refine ⟨hnext.frame.holds hholds fun j hj => ?_, hle,
        Nat.lt_of_lt_of_le hlt hnext.frame.nextId⟩
      rw [ids_children, hfirst.leaves m hm, flatMap_nil, mem_singleton] at hj
      subst hj
      exact ⟨hlt, fun hmem => by have := hown _ hmem; omega, by omega⟩
    · obtain ⟨hholds, hle, hlt⟩ := hnext.made m hm
      exact ⟨hholds, Nat.le_trans hfirst.frame.nextId hle, hlt⟩

lemma Followed.refl (own : List Nat) (hr : Reached h k a front mid back e) :
    Followed own k a front mid back h h e e [] :=
  ⟨.refl _ _ _ _, by simpa using hr, by simp, by simp, by simp⟩

/-- What is done inside the container `i` is nothing to the container around it. -/
lemma Followed.inside {i : Nat} {e'' : Expansion} {new : List SymbolTree}
    (hf : Followed [i] k a front mid back h h' e e' new) (hframe : Frame own i [] h' h'')
    (hlt : k < h.nextId ∧ ∀ j ∈ i :: own, j < h.nextId) (hk : k ∉ own) (hki : k ≠ i) (ha : a ∉ own)
    (hindex : h''.index = e''.index) (hnextId : h''.nextId = e''.nextId) :
    Followed (i :: own) k a front mid back h h'' e
      { e'' with taken := e'.taken, pending := e'.pending } new := by
  have hreached := hf.reached.outside hframe hk hki ha hindex hnextId
  have hsecond : Followed (i :: own) k a front (mid ++ new.map SymbolTree.id) back h' h'' e'
      { e'' with taken := e'.taken, pending := e'.pending } [] :=
    ⟨hframe.mono (subset_cons_self _ _) (.inr mem_cons_self) (nil_subset _),
      by simpa using hreached, by simp, by simp, by simp⟩
  simpa using (hf.mono (by simp)).trans hsecond hlt.1 hlt.2

lemma insertAt_length {α : Type} (a : α) (l r : List α) :
    insertAt l.length a (l ++ r) = l ++ a :: r := by
  simp [insertAt]

/-- **A typedef goes behind its child** and the typedefs that stand there. -/
lemma children_put {m : SymbolTree} (hchildren : h.children k = front ++ a :: (mid ++ back))
    (hinserted : h.inserted a = mid.length) (hapart : a ∉ front) :
    (put k a h m).children k = front ++ a :: (mid ++ [h.nextId] ++ back) := by
  have hsplit : h.children k = (front ++ a :: mid) ++ back := by rw [hchildren]; simp
  have hfind : (h.children k).idxOf? a = some front.length := by
    rw [hchildren, idxOf?, findIdx?_append, ← idxOf?, idxOf?_eq_none_iff.mpr hapart]
    simp [idxOf?_cons]
  have hplace : (front.length : Int) + (mid.length + 1 : Nat) = (front ++ a :: mid).length := by
    rw [length_append, length_cons]
    omega
  simp only [put, add, written_self, hfind, hinserted, Option.map_some, Option.getD_some,
    Int.ofNat_eq_natCast, hplace]
  rw [hsplit, insertAt_length]
  simp

/-- What is in mind when typedefs have been made. -/
def adding (e : Expansion) (ms : List SymbolTree) : Expansion :=
  ⟨e.index ++ ms.map entry, e.nextId + ms.length, e.taken ++ ms.map SymbolTree.name,
    e.pending ++ ms⟩

lemma followed_put {m : SymbolTree} (hr : Reached h k a front mid back e)
    (hid : m.id = h.nextId) (hleaf : m.children = []) :
    Followed [] k a front mid back h (put k a h m) e (adding e [m]) [m] := by
  obtain ⟨i, s, cs⟩ := m
  obtain rfl : i = h.nextId := hid
  obtain rfl : cs = [] := hleaf
  have hsymbols : ∀ j < h.nextId, (put k a h (.node h.nextId s [])).symbol j = h.symbol j :=
    fun j hj => written_of_ne hj.ne
  have hchildren := children_put (m := .node h.nextId s []) hr.children hr.inserted hr.apart
  have hperm : ((put k a h (.node h.nextId s [])).children k).Perm
      (h.children k ++ [h.nextId]) := by
    rw [hchildren, hr.children]
    simp only [append_assoc, cons_append]
    exact Perm.append_left _ ((Perm.append_left _ (perm_append_singleton _ back).symm).cons _)
  refine ⟨⟨fun j hj => by rw [hsymbols j hj], fun j hj _ => hsymbols j hj, fun j hj _ hk => ?_,
    fun j _ ha => written_of_ne (by simpa using ha), Nat.le_succ _⟩, ?_, rfl, by simp, ?_⟩
  · exact (written_of_ne hk).trans (written_of_ne hj.ne)
  · refine ⟨⟨⟨Nat.lt_succ_of_lt hr.known.1, fun j hj => ?_⟩, ?_, congrArg (· + 1) hr.nextId, ?_⟩,
      hchildren, ?_, hr.apart⟩
    · rcases mem_append.mp (hperm.mem_iff.mp hj) with hj | hj
      · exact Nat.lt_succ_of_lt (hr.known.2 j hj)
      · rw [mem_singleton.mp hj]
        exact Nat.lt_succ_self _
    · exact congrArg (· ++ [entry (.node h.nextId s [])]) hr.index
    · have hnames : (h.children k).map
          (fun j => ((put k a h (.node h.nextId s [])).symbol j).name) = h.names k :=
        map_congr_left fun j hj => by rw [hsymbols j (hr.known.2 j hj)]
      have hname : ((put k a h (.node h.nextId s [])).symbol h.nextId).name = s.name :=
        congrArg Symbol.name written_self
      refine (hperm.map _).trans ?_
      rw [map_append, hnames, map_singleton, hname]
      exact hr.taken.append_right _
    · simp [put, hr.inserted]
  · rw [forall_mem_singleton]
    exact ⟨holds_node.mpr ⟨⟨written_self,
      (written_of_ne hr.known.1.ne').trans written_self⟩, by simp⟩,
      Nat.le_refl _, Nat.lt_succ_self _⟩

/-- Putting several typedefs in. -/
lemma followed_puts {ms : List SymbolTree} (hr : Reached h k a front mid back e)
    (hids : ms.map SymbolTree.id = range' h.nextId ms.length)
    (hleaves : ∀ m ∈ ms, m.children = []) :
    Followed [] k a front mid back h (ms.foldl (put k a) h) e (adding e ms) ms := by
  induction ms generalizing h mid e with
  | nil => simpa [adding] using Followed.refl [] hr
  | cons m rest ih =>
    rw [map_cons, length_cons, range'_succ, cons.injEq] at hids
    rw [forall_mem_cons] at hleaves
    have hfirst := followed_put hr hids.1 hleaves.1
    have hrest := ih hfirst.reached hids.2 hleaves.2
    have hall := hfirst.trans hrest hr.known.1 (by simp)
    simpa [adding, Nat.add_assoc, Nat.add_comm 1] using hall

/-- Another symbol in its place, of the same name. -/
lemma followed_written {i : Nat} (hr : Reached h k a front mid back e)
    (hname : s.name = (h.symbol i).name) :
    Followed [i] k a front mid back h { h with symbol := written h.symbol i s } e e [] := by
  have hnames : ∀ j, (written h.symbol i s j).name = (h.symbol j).name := by
    intro j
    by_cases hj : j = i
    · rw [hj, written_self, hname]
    · rw [written_of_ne hj]
  refine ⟨⟨fun j _ => hnames j, fun j _ hj => written_of_ne (by simpa using hj), fun _ _ _ _ => rfl,
    fun _ _ _ => rfl, Nat.le_refl _⟩, ?_, by simp, by simp, by simp⟩
  rw [map_nil, append_nil]
  exact ⟨⟨hr.known, hr.index, hr.nextId,
    .trans (.of_eq (map_congr_left fun j _ => hnames j)) hr.taken⟩,
    hr.children, hr.inserted, hr.apart⟩

/-- **Expanding a symbol in place** changes the symbol, and puts what is made for it in. -/
lemma expandAt_followed (root : SymbolTree) (p : Place) {k a : SymbolTree}
    (hclimb : climb p.tree p.ancestors = (a, some k))
    (hr : Reached h k.id a.id front mid back e) (hp : p.tree.id < h.nextId ∧ k.id ≠ p.tree.id)
    (hsymbol : h.symbol p.tree.id = p.symbol) :
    ∃ s' e' h' new, Gives (expandSymbol k.longname p.symbol) e s' e' ∧
      (expandAt root h p).result = .ok h' ∧ h'.symbol p.tree.id = s' ∧
      h'.children p.tree.id = h.children p.tree.id ∧
      Followed [p.tree.id] k.id a.id front mid back h h' e e' new := by
  obtain ⟨s', e₁, e₂, hwalk, hplace, hadds, hleaves⟩ := exists_alike k.longname p.symbol e hr.taken
  have hids : e₂.pending.map SymbolTree.id = range' h.nextId e₂.pending.length := by
    simpa [Function.comp_def, entry, hr.nextId] using hadds.makes.numbers
  have hadding : adding e e₂.pending = e₁ := by
    have hnext : e₁.nextId = e.nextId + e₂.pending.length := by simpa using hadds.makes.nextId
    rw [adding, ← hadds.makes.index, ← hnext, ← hadds.takes.taken, ← hadds.pending]
  have hname : s'.name = (h.symbol p.tree.id).name := by
    obtain ⟨type, signatures, rfl⟩ := expandSymbol_keeps hwalk
    rw [hsymbol]
  have hfirst := followed_written hr hname
  have hputs := followed_puts hfirst.reached hids hleaves
  rw [hadding] at hputs
  refine ⟨s', e₁, _, _, hwalk, ?_, ?_, ?_,
    hfirst.trans (hputs.mono (nil_subset _)) hr.known.1 (by simpa using hp.1)⟩
  · simp only [expandAt, hclimb, Option.getD_some, hsymbol, hr.index, hr.nextId]
    exact Run.result_bind.mpr ⟨_, hplace, rfl⟩
  · exact (hputs.frame.symbols _ hp.1 not_mem_nil).trans written_self
  · exact hputs.frame.children _ hp.1 not_mem_nil (Ne.symm hp.2)

/-- A tree as it was at the beginning, which the walk inside `k` comes to next. -/
structure Ready (h : Heap) (k a : Nat) (t : SymbolTree) : Prop where
  holds : h.Holds t
  nodup : t.ids.Nodup
  lt : ∀ j ∈ t.ids, j < h.nextId
  outside : k ∉ t.ids
  beside : ∀ j ∈ t.children.flatMap ids, j ≠ a ∧ h.inserted j = 0

lemma Ready.frame (hr : Ready h k a t) (hf : Frame own k' anchors h h')
    (hids : ∀ j ∈ t.ids, j ∉ own ∧ j ≠ k') (ha : ∀ j ∈ t.children.flatMap ids, j ∉ anchors) :
    Ready h' k a t where
  holds := hf.holds hr.holds fun j hj => ⟨hr.lt j hj, hids j hj⟩
  nodup := hr.nodup
  lt j hj := Nat.lt_of_lt_of_le (hr.lt j hj) hf.nextId
  outside := hr.outside
  beside j hj := by
    have hmem : j ∈ t.ids := by
      rw [ids_children]
      exact mem_cons_of_mem _ hj
    rw [hf.inserted j (hids j hmem).1 (ha j hj)]
    exact hr.beside j hj

lemma Ready.child {i : Nat}
    (hr : Ready h k a (.node i s cs)) (hc : c ∈ cs) : Ready h i c.id c ∧ Ready h k a c := by
  have hsub : ∀ j ∈ c.ids, j ∈ cs.flatMap ids := fun j hj => mem_flatMap.mpr ⟨c, hc, hj⟩
  have hbelow : ∀ j ∈ c.children.flatMap ids, j ∈ c.ids := by
    intro j hj
    rw [ids_children]
    exact mem_cons_of_mem _ hj
  obtain ⟨hi, hnodup⟩ := nodup_cons.mp (ids_node i s cs ▸ hr.nodup)
  have hown : c.ids.Nodup := (nodup_flatMap.mp hnodup).1 c hc
  have hholds := (holds_node.mp hr.holds).2 c hc
  have hlt : ∀ j ∈ c.ids, j < h.nextId := fun j hj => hr.lt j (by simp [hsub j hj])
  refine ⟨⟨hholds, hown, hlt, fun hmem => hi (hsub i hmem), fun j hj => ⟨?_, ?_⟩⟩,
    ⟨hholds, hown, hlt, fun hmem => hr.outside (by simp [hsub k hmem]), ?_⟩⟩
  · rw [ids_children] at hown
    exact ne_of_mem_of_not_mem hj (nodup_cons.mp hown).1
  · exact (hr.beside j (hsub j (hbelow j hj))).2
  · exact fun j hj => hr.beside j (hsub j (hbelow j hj))

/-- Expanding a symbol leaves its children as they are. -/
lemma Ready.kids {i : Nat}
    (hr : Ready h k a (.node i s cs)) (hf : Frame [i] k [a] h h') (hc : c ∈ cs) :
    Ready h' i c.id c ∧ Ready h' k a c ∧ h'.inserted c.id = 0 := by
  obtain ⟨hchild, hmember⟩ := hr.child hc
  have hids : ∀ j ∈ c.ids, j ∉ [i] ∧ j ≠ k := fun j hj =>
    ⟨by simpa using ne_of_mem_of_not_mem hj hchild.outside, ne_of_mem_of_not_mem hj hmember.outside⟩
  have hbeside : ∀ j ∈ c.children.flatMap ids, j ∉ [a] := fun j hj => by
    simpa using (hmember.beside j hj).1
  obtain ⟨hne, hzero⟩ := hr.beside c.id (mem_flatMap.mpr ⟨c, hc, mem_ids_self c⟩)
  refine ⟨hchild.frame hf hids hbeside, hmember.frame hf hids hbeside, ?_⟩
  rw [hf.inserted c.id (hids c.id (mem_ids_self c)).1 (by simpa using hne), hzero]

/-- What is done with other trees does not touch a tree or what was made since. -/
lemma Ready.elsewhere (hr : Ready h k a t) (hk : k < h.nextId) (hapart : ∀ j ∈ t.ids, j ∉ own)
    (hlt : ∀ j ∈ own, j < h.nextId) {j : Nat} (hj : j ∈ t.ids ∨ h.nextId ≤ j) :
    j ∉ own ∧ j ≠ k := by
  rcases hj with hj | hj
  · exact ⟨hapart j hj, ne_of_mem_of_not_mem hj hr.outside⟩
  · exact ⟨fun hmem => Nat.not_lt.mpr hj (hlt j hmem), (Nat.lt_of_lt_of_le hk hj).ne'⟩

/-- What the walk gives for trees `ts`, and what the symbols hold then. -/
structure Gave (h h' : Heap) (ts ts' : List SymbolTree) : Prop where
  holds : ∀ t ∈ ts', h'.Holds t
  numbers : ∀ j ∈ ts'.flatMap ids, j ∈ ts.flatMap ids ∨ h.nextId ≤ j ∧ j < h'.nextId

/-- What the induction over a tree shows. -/
def Follows (root t : SymbolTree) : Prop :=
  ∀ {ancestors : List SymbolTree} {k a : SymbolTree} {h : Heap} {front mid back : List Nat}
    {e : Expansion},
    climb t ancestors = (a, some k) → Ready h k.id a.id t → Reached h k.id a.id front mid back e →
    ∃ t' e' h' new, Gives (expandTree k.longname t) e t' e' ∧
      ((placesIn ancestors t).foldlM (expandAt root) h).result = .ok h' ∧ t'.id = t.id ∧
      Gave h h' [t] [t'] ∧ Followed t.ids k.id a.id front mid back h h' e e' new

lemma Gave.append {ts ts' rest rest' : List SymbolTree} (hts : Gave h h' ts ts')
    (hrest : Gave h' h'' rest rest') (hf : Frame own k anchors h' h'') (hle : h.nextId ≤ h'.nextId)
    (hlt : ∀ j ∈ ts.flatMap ids, j < h.nextId)
    (hids : ∀ j, j ∈ ts.flatMap ids ∨ h.nextId ≤ j → j ∉ own ∧ j ≠ k) :
    Gave h h'' (ts ++ rest) (ts' ++ rest') where
  holds := by
    refine forall_mem_append.mpr ⟨fun t ht => hf.holds (hts.holds t ht) fun j hj => ?_, hrest.holds⟩
    rcases hts.numbers j (mem_flatMap.mpr ⟨t, ht, hj⟩) with hold | hnew
    · exact ⟨Nat.lt_of_lt_of_le (hlt j hold) hle, hids j (.inl hold)⟩
    · exact ⟨hnew.2, hids j (.inr hnew.1)⟩
  numbers := by
    have := hf.nextId
    simp only [flatMap_append, mem_append]
    rintro j (hj | hj)
    · rcases hts.numbers j hj with hold | hnew
      · exact .inl (.inl hold)
      · exact .inr (by omega)
    · rcases hrest.numbers j hj with hold | hnew
      · exact .inl (.inr hold)
      · exact .inr (by omega)

lemma Gave.node {i : Nat} {s' : Symbol} {cs' : List SymbolTree} (hcs : Gave h' h'' cs cs')
    (hsymbol : h''.symbol i = s') (hchildren : h''.children i = cs'.map SymbolTree.id)
    (hle : h.nextId ≤ h'.nextId) : Gave h h'' [.node i s cs] [.node i s' cs'] where
  holds := by
    rw [forall_mem_singleton]
    exact holds_node.mpr ⟨⟨hsymbol, hchildren⟩, hcs.holds⟩
  numbers := by
    simp only [flatMap_singleton, ids_node, mem_cons]
    rintro j (rfl | hj)
    · exact .inl (.inl rfl)
    · rcases hcs.numbers j hj with hold | hnew
      · exact .inl (.inr hold)
      · exact .inr (by omega)

/-- The children of a symbol that is no container. -/
lemma follows_members {root : SymbolTree} (ancestors : List SymbolTree) {k a : SymbolTree}
    (ih : ∀ c ∈ cs, Follows root c) (hclimb : ∀ c ∈ cs, climb c ancestors = (a, some k))
    (hready : ∀ c ∈ cs, Ready h k.id a.id c)
    (hnodup : (cs.flatMap ids).Nodup) (h₀ : Reached h k.id a.id front mid back e) :
    ∃ cs' e' h' new, Gives (expandMembers k.longname cs) e cs' e' ∧
      ((placesInAll ancestors cs).foldlM (expandAt root) h).result = .ok h' ∧
      cs'.map SymbolTree.id = cs.map SymbolTree.id ∧ Gave h h' cs cs' ∧
      Followed (cs.flatMap ids) k.id a.id front mid back h h' e e' new := by
  induction cs generalizing h mid e with
  | nil =>
    exact ⟨[], e, h, [], by simp [expandMembers], rfl, rfl, ⟨by simp, by simp⟩, .refl _ h₀⟩
  | cons c rest ihrest =>
    rw [forall_mem_cons] at ih hclimb hready
    obtain ⟨-, hrestNodup, hapart⟩ := nodup_append'.mp hnodup
    obtain ⟨c', e₁, h₁, new₁, hgives, hrun, hid, hgave, hfollowed⟩ := ih.1 hclimb.1 hready.1 h₀
    have hrestReady : ∀ d ∈ rest, Ready h₁ k.id a.id d := by
      intro d hd
      refine (hready.2 d hd).frame hfollowed.frame (fun j hj => ⟨?_, ?_⟩) ?_
      · exact fun hmem => hapart hmem (mem_flatMap.mpr ⟨d, hd, hj⟩)
      · exact ne_of_mem_of_not_mem hj (hready.2 d hd).outside
      · exact fun j hj => by simpa using ((hready.2 d hd).beside j hj).1
    have hrestLt : ∀ j ∈ rest.flatMap ids, j < h.nextId :=
      forall_mem_flatMap.mpr fun d hd => (hready.2 d hd).lt
    obtain ⟨rest', e₂, h₂, new₂, hgives₂, hrun₂, hid₂, hgave₂, hfollowed₂⟩ :=
      ihrest ih.2 hclimb.2 hrestReady hrestNodup hfollowed.reached
    refine ⟨c' :: rest', e₂, h₂, new₁ ++ new₂, ?_, ?_, by simp [hid, hid₂], ?_, ?_⟩
    · simp only [expandMembers, gives_bind, gives_pure]
      exact ⟨c', e₁, hgives, rest', e₂, hgives₂, rfl, rfl⟩
    · rw [placesInAll, foldlM_append]
      exact Run.result_bind.mpr ⟨h₁, hrun, hrun₂⟩
    · refine hgave.append hgave₂ hfollowed₂.frame hfollowed.frame.nextId
        (by simpa using hready.1.lt) ?_
      exact fun j hj => hready.1.elsewhere h₀.known.1 hapart hrestLt (by simpa using hj)
    · exact (hfollowed.mono (subset_append_left _ _)).trans
        (hfollowed₂.mono (subset_append_right _ _))
        h₀.known.1 (forall_mem_append.mpr ⟨hready.1.lt, hrestLt⟩)

/-- The walk comes to the children `cs` of the container `k`, the children before them being
done. -/
structure Opened (h : Heap) (k : Nat) (front : List Nat) (cs : List SymbolTree) (e : Expansion) :
    Prop
    extends InStep h k e where
  children : h.children k = front ++ cs.map SymbolTree.id
  ready : ∀ c ∈ cs, Ready h k c.id c
  nodup : (cs.flatMap ids).Nodup
  apart : ∀ c ∈ cs, c.id ∉ front ∧ h.inserted c.id = 0
  pending : e.pending = []

/-- A container is opened at its first child. -/
lemma Ready.opened {i : Nat} (hr : Ready h k a (.node i s cs)) (hf : Frame [i] k [a] h h')
    (hchildren : h'.children i = cs.map SymbolTree.id) (hindex : h'.index = e.index)
    (hnextId : h'.nextId = e.nextId) :
    Opened h' i [] cs { e with taken := cs.map SymbolTree.name, pending := [] } := by
  have hkids := fun c hc => hr.kids hf (c := c) hc
  have hnames : h'.names i = cs.map SymbolTree.name := by
    rw [names, hchildren, map_map]
    exact map_congr_left fun c hc =>
      congrArg Symbol.name ((hkids c hc).1.holds c (mem_walk_self c)).1
  have hi : i < h'.nextId := Nat.lt_of_lt_of_le (hr.lt i (mem_ids_self _)) hf.nextId
  refine ⟨⟨⟨hi, fun j hj => ?_⟩, hindex, hnextId, .of_eq hnames⟩, hchildren,
    fun c hc => (hkids c hc).1, (nodup_cons.mp (ids_node i s cs ▸ hr.nodup)).2,
    fun c hc => ⟨not_mem_nil, (hkids c hc).2.2⟩, rfl⟩
  obtain ⟨c, hc, rfl⟩ := mem_map.mp (hchildren ▸ hj)
  exact (hkids c hc).1.lt c.id (mem_ids_self c)

lemma Opened.reached {rest : List SymbolTree}
    (ho : Opened h k front (c :: rest) e) : Reached h k c.id front [] (rest.map SymbolTree.id) e :=
  ⟨ho.toInStep, ho.children, (ho.apart c mem_cons_self).2, (ho.apart c mem_cons_self).1⟩

/-- When a child is done, the container is open at the next one. -/
lemma Opened.next {rest new : List SymbolTree} (ho : Opened h k front (c :: rest) e)
    (hf : Followed c.ids k c.id front [] (rest.map SymbolTree.id) h h' e e' new) :
    Opened h' k (front ++ c.id :: new.map SymbolTree.id) rest { e' with pending := [] } := by
  have hready : ∀ d ∈ rest, Ready h k d.id d := fun d hd => ho.ready d (mem_cons_of_mem _ hd)
  obtain ⟨-, hnodup, hdisjoint⟩ := nodup_append'.mp ho.nodup
  have hapart : ∀ d ∈ rest, ∀ j ∈ d.ids, j ∉ c.ids := fun d hd j hj hmem =>
    hdisjoint hmem (mem_flatMap.mpr ⟨d, hd, hj⟩)
  have hne : ∀ d ∈ rest, ∀ j ∈ d.ids, j ∉ [c.id] := fun d hd j hj hmem =>
    hapart d hd j hj (mem_singleton.mp hmem ▸ mem_ids_self c)
  refine ⟨hf.reached.toInStep.unpend, by simpa using hf.reached.children, fun d hd => ?_, hnodup,
    fun d hd => ?_, rfl⟩
  · refine (hready d hd).frame hf.frame (fun j hj => ⟨hapart d hd j hj, ?_⟩) fun j hj => ?_
    · exact ne_of_mem_of_not_mem hj (hready d hd).outside
    · exact hne d hd j (by rw [ids_children]; exact mem_cons_of_mem _ hj)
  · obtain ⟨hfront, hzero⟩ := ho.apart d (mem_cons_of_mem _ hd)
    have hself := mem_ids_self d
    have hnew : d.id ∉ new.map SymbolTree.id := by
      intro hmem
      obtain ⟨m, hm, hid⟩ := mem_map.mp hmem
      exact Nat.not_lt.mpr (hid ▸ (hf.made m hm).2.1) ((hready d hd).lt d.id hself)
    rw [hf.frame.inserted d.id (hapart d hd d.id hself) (hne d hd d.id hself)]
    exact ⟨by simpa [hfront, hnew] using hne d hd d.id hself, hzero⟩

/-- What was made for a tree stands beside what the walk gives for it. -/
lemma Followed.gave {new : List SymbolTree} {c' : SymbolTree}
    (hf : Followed own k a front mid back h h' e e' new) (hgave : Gave h h' [c] [c']) :
    Gave h h' [c] (c' :: new) where
  holds := forall_mem_cons.mpr
    ⟨hgave.holds c' mem_cons_self, fun m hm => (hf.made m hm).1⟩
  numbers := by
    rw [flatMap_cons, forall_mem_append]
    refine ⟨fun j hj => hgave.numbers j (by simpa using hj), fun j hj => .inr ?_⟩
    obtain ⟨m, hm, hj⟩ := mem_flatMap.mp hj
    rw [ids_children, hf.leaves m hm, flatMap_nil, mem_singleton] at hj
    exact hj ▸ (hf.made m hm).2

/-- The children of a container. -/
lemma follows_declared {root : SymbolTree} (k : SymbolTree) (ancestors : List SymbolTree)
    (ih : ∀ c ∈ cs, Follows root c) (hkind : k.kind.isContainer = true)
    (ho : Opened h k.id front cs e) :
    ∃ cs' e' h', Gives (expandDeclared k.longname cs) e cs' e' ∧
      ((placesInAll (k :: ancestors) cs).foldlM (expandAt root) h).result = .ok h' ∧
      Gave h h' cs cs' ∧ Frame (cs.flatMap ids) k.id [] h h' ∧
        Opened h' k.id (front ++ cs'.map SymbolTree.id) [] e' := by
  induction cs generalizing h front e with
  | nil =>
    exact ⟨[], e, h, by simp [expandDeclared], rfl, ⟨by simp, by simp⟩,
      .refl _ _ _ _, by simpa using ho⟩
  | cons c rest ihrest =>
    rw [forall_mem_cons] at ih
    have hready := forall_mem_cons.mp ho.ready
    obtain ⟨-, -, hapart⟩ := nodup_append'.mp ho.nodup
    have hclimb : climb c (k :: ancestors) = (c, some k) := if_pos hkind
    obtain ⟨c', e₁, h₁, new, hgives, hrun, hid, hgave, hfollowed⟩ := ih.1 hclimb hready.1 ho.reached
    have hrestLt : ∀ j ∈ rest.flatMap ids, j < h.nextId :=
      forall_mem_flatMap.mpr fun d hd => (hready.2 d hd).lt
    obtain ⟨rest', e₂, h₂, hgives₂, hrun₂, hgave₂, hframe, hdone⟩ :=
      ihrest ih.2 (ho.next hfollowed)
    refine ⟨c' :: new ++ rest', e₂, h₂, ?_, ?_, ?_, ?_, ?_⟩
    · simp only [expandDeclared, gives_bind, gives_pure, gives_takePending]
      exact ⟨c', e₁, hgives, new, _, ⟨by rw [hfollowed.pending, ho.pending, nil_append], rfl⟩,
        rest', e₂, hgives₂, rfl, rfl⟩
    · rw [placesInAll, foldlM_append]
      exact Run.result_bind.mpr ⟨h₁, hrun, hrun₂⟩
    · exact (hfollowed.gave hgave).append hgave₂ hframe hfollowed.frame.nextId
        (by simpa using hready.1.lt)
        fun j hj => hready.1.elsewhere ho.known.1 hapart hrestLt (by simpa using hj)
    · rw [flatMap_cons]
      exact (hfollowed.frame.mono (subset_append_left _ _) (.inl rfl)
        (by simp [mem_ids_self c])).trans
        (hframe.mono (subset_append_right _ _) (.inl rfl) (nil_subset _))
    · simpa [hid] using hdone

lemma gives_node {container : String} {i : Nat} {s' : Symbol} {cs' : List SymbolTree}
    {e₁ : Expansion} (hs : Gives (expandSymbol container s) e s' e₁)
    (hcs : Gives (if s'.kind.isContainer then
        inContainer (cs.map SymbolTree.name) (expandDeclared s'.longname cs)
      else expandMembers container cs) e₁ cs' e') :
    Gives (expandTree container (.node i s cs)) e (.node i s' cs') e' := by
  rw [expandTree]
  refine gives_bind.mpr ⟨s', e₁, hs, ?_⟩
  split at hcs
  · rename_i hkind
    rw [if_pos hkind]
    exact gives_bind.mpr ⟨cs', e', hcs, gives_pure.mpr ⟨rfl, rfl⟩⟩
  · rename_i hkind
    rw [if_neg hkind]
    exact gives_bind.mpr ⟨cs', e', hcs, gives_pure.mpr ⟨rfl, rfl⟩⟩

/-- **The walk over a tree is followed in place.** -/
lemma follows (root t : SymbolTree) : Follows root t := by
  induction t using SymbolTree.induct with
  | node i s cs ih =>
    intro ancestors k a h front mid back e hclimb hready h₀
    obtain ⟨⟨hsymbol, hchildren⟩, -⟩ := holds_node.mp hready.holds
    obtain ⟨hi, hnodup⟩ := nodup_cons.mp (ids_node i s cs ▸ hready.nodup)
    obtain ⟨hki, hk⟩ := not_or.mp (mem_cons.not.mp (ids_node i s cs ▸ hready.outside))
    have hlt := forall_mem_cons.mp (ids_node i s cs ▸ hready.lt)
    obtain ⟨s', e₁, h₁, new, hgives, hrun, hs', hchildren', hfirst⟩ :=
      expandAt_followed root ⟨.node i s cs, ancestors⟩ hclimb h₀ ⟨hlt.1, hki⟩ hsymbol
    obtain ⟨hkind', hlongname⟩ : s'.kind = s.kind ∧ s'.longname = s.longname := by
      obtain ⟨type, signatures, rfl⟩ := expandSymbol_keeps hgives
      exact ⟨rfl, rfl⟩
    have hchildren₁ : h₁.children i = cs.map SymbolTree.id := hchildren'.trans hchildren
    have hi₁ : i < h₁.nextId := Nat.lt_of_lt_of_le hlt.1 hfirst.frame.nextId
    have hplaces : placesIn ancestors (.node i s cs) =
        ⟨.node i s cs, ancestors⟩ :: placesInAll (.node i s cs :: ancestors) cs := by rw [placesIn]
    rw [ids_node]
    by_cases hkind : s.kind.isContainer
    · have hopened := hready.opened hfirst.frame hchildren₁ hfirst.reached.index
        hfirst.reached.nextId
      obtain ⟨cs', e₂, h₂, hgives₂, hrun₂, hgave, hframe, hdone⟩ :=
        follows_declared (.node i s cs) ancestors ih hkind hopened
      refine ⟨.node i s' cs', { e₂ with taken := e₁.taken, pending := e₁.pending }, h₂,
        new, ?_, ?_, rfl, hgave.node ((hframe.symbols i hi₁ hi).trans hs')
          (by simpa using hdone.children) hfirst.frame.nextId, ?_⟩
      · refine gives_node hgives ?_
        rw [hkind', hlongname, if_pos hkind]
        exact gives_inContainer.mpr ⟨e₂, hgives₂, rfl⟩
      · rw [hplaces, foldlM_cons]
        exact Run.result_bind.mpr ⟨h₁, hrun, hrun₂⟩
      · exact hfirst.inside hframe ⟨h₀.known.1, forall_mem_cons.mpr hlt⟩ hk hki
          (fun hmem => (hready.beside _ hmem).1 rfl) hdone.index hdone.nextId
    · obtain ⟨cs', e₂, h₂, new₂, hgives₂, hrun₂, hids, hgave, hsecond⟩ :=
        follows_members (.node i s cs :: ancestors) ih (fun c hc => (if_neg hkind).trans hclimb)
          (fun c hc => (hready.kids hfirst.frame hc).2.1) hnodup hfirst.reached
      have hchildren₂ : h₂.children i = cs'.map SymbolTree.id := by
        rw [hsecond.frame.children i hi₁ hi (Ne.symm hki), hchildren₁, hids]
      refine ⟨.node i s' cs', e₂, h₂, new ++ new₂, ?_, ?_, rfl,
        hgave.node ((hsecond.frame.symbols i hi₁ hi).trans hs') hchildren₂ hfirst.frame.nextId, ?_⟩
      · refine gives_node hgives ?_
        rw [hkind', if_neg hkind]
        exact hgives₂
      · rw [hplaces, foldlM_cons]
        exact Run.result_bind.mpr ⟨h₁, hrun, hrun₂⟩
      · exact (hfirst.mono (by simp)).trans (hsecond.mono (subset_cons_self _ _)) h₀.known.1
          (forall_mem_cons.mpr hlt)

/-- A tree can be read off the symbols that make it up. -/
lemma treeAt_of_holds {t : SymbolTree} : ∀ {depth : Nat}, h.Holds t → t.ids.length ≤ depth + 1 →
    h.treeAt depth t.id = t := by
  induction t using SymbolTree.induct with
  | node i s cs ih =>
    intro depth hholds hlength
    obtain ⟨⟨hsymbol, hchildren⟩, hcs⟩ := holds_node.mp hholds
    rw [ids_node, length_cons, Nat.add_le_add_iff_right] at hlength
    have hshort : ∀ c ∈ cs, c.ids.length ≤ depth := fun c hc =>
      Nat.le_trans ((List.sublist_flatten_of_mem (mem_map_of_mem hc))).length_le hlength
    cases depth with
    | zero =>
      obtain rfl : cs = [] := by
        refine eq_nil_iff_forall_not_mem.mpr fun c hc => ?_
        have hlength := hshort c hc
        rw [ids_children, length_cons] at hlength
        omega
      rw [SymbolTree.id, treeAt, hsymbol]
    | succ depth =>
      have htrees : (cs.map SymbolTree.id).map (h.treeAt depth) = cs := by
        rw [map_map]
        exact (map_congr_left fun c hc => ih c hc (hcs c hc) (hshort c hc)).trans (map_id cs)
      rw [SymbolTree.id, treeAt, hsymbol, hchildren, htrees]

lemma ofForest_holds {f : Forest} (hf : f.Consistent) : (ofForest f).Holds f.root := by
  intro u hu
  have hget : f.root.get? u.id = some u := find?_eq_some_of_nodup SymbolTree.id hf.ids_nodup hu rfl
  simp [ofForest, hget]

end Heap

/-- **Expansion in place gives the same forest.** -/
lemma result_expandInPlace {f : Forest} (hf : f.Consistent) :
    (expandInPlace f).result = (expandForest f).result := by
  obtain ⟨i, cs, hroot⟩ : ∃ i cs, f.root = .node i root cs := by
    rw [← hf.root_symbol]
    exact ⟨f.root.id, f.root.children, by cases f.root; rfl⟩
  have hholds := Heap.ofForest_holds hf
  have hready : Heap.Ready (Heap.ofForest f) f.nextId f.nextId f.root :=
    ⟨hholds, hf.ids_nodup, hf.ids_lt, fun hmem => Nat.lt_irrefl _ (hf.ids_lt _ hmem), fun j hj =>
      ⟨(hf.ids_lt j (by rw [ids_children]; exact mem_cons_of_mem _ hj)).ne, rfl⟩⟩
  rw [hroot] at hholds hready
  obtain ⟨hchildren, -⟩ := Heap.holds_node.mp hholds
  obtain ⟨hroot_not, -⟩ := nodup_cons.mp (ids_node i root cs ▸ hready.nodup)
  have hlt := forall_mem_cons.mp (ids_node i root cs ▸ hready.lt)
  have hopened := hready.opened (e := ⟨f.index, f.nextId, [], []⟩) (.refl _ _ _ _) hchildren.2
    rfl rfl
  obtain ⟨cs', e, h, hgives, hrun, hgave, hframe, hdone⟩ :=
    Heap.follows_declared (.node i root cs) [] (fun c _ => Heap.follows f.root c) rfl hopened
  have hwalk : Gives (expandTree f.root.longname f.root) ⟨f.index, f.nextId, [], []⟩
      (.node i root cs') { e with taken := [], pending := [] } := by
    rw [hroot]
    refine Heap.gives_node (gives_expandSymbol_settled ⟨rfl, fun _ hmem => nomatch hmem⟩) ?_
    exact gives_inContainer.mpr ⟨e, hgives, rfl⟩
  have hforest := result_expandForest.mpr ⟨_, _, hwalk, rfl⟩
  have hexpanded := consistent_expandForest hf hforest
  have htree : h.treeAt h.nextId i = .node i root cs' := by
    have hlength : (SymbolTree.node i root cs').ids.length ≤ (range e.nextId).length :=
      (hexpanded.ids_nodup.subperm fun j hj => mem_range.mpr (hexpanded.ids_lt j hj)).length_le
    rw [length_range, ← hdone.nextId] at hlength
    refine h.treeAt_of_holds (t := .node i root cs')
      (Heap.holds_node.mpr ⟨⟨?_, ?_⟩, hgave.holds⟩) (Nat.le_succ_of_le hlength)
    · exact (hframe.symbols i hlt.1 hroot_not).trans hchildren.1
    · simpa using hdone.children
  have hplaces : placesInAll [f.root] f.root.children = placesInAll [.node i root cs] cs := by
    rw [hroot]
    rfl
  have hsame : h.toForest f = ⟨.node i root cs', e.index, e.nextId, f.strays⟩ := by
    have hid : f.root.id = i := by rw [hroot, SymbolTree.id]
    rw [Heap.toForest, hid, htree, hdone.index, hdone.nextId]
  rw [hforest, expandInPlace, hplaces]
  refine Run.result_bind.mpr ⟨h, hrun, ?_⟩
  rw [hsame]
  rfl

end AmbientDecl

import AmbientDecl.Forest.Expansion
import AmbientDecl.Proofs.Forest.Structure
import AmbientDecl.Proofs.Run

/-!
# Expansion keeps the forest

The walk of the expansion makes typedefs on its way. Until their place comes they wait, and then
they stand in the tree like everything else.

**Steps of the walk.** `Expander.Gives` is one step that succeeds; a `do` block is taken apart with
`gives_bind` and its kin.

**What a step makes.** `Expansion.Makes` lists the entries that a step adds to the index: their
numbers run upwards and their longnames were not there, because `typedefName` gives a free one
(`typedefName_free`). `Expansion.Moves` adds where the symbols are: those that the step has finished
and those that wait are those from before and the new ones.

**The walk.** What the steps keep the whole walk keeps (`WalkStep`). For `Moves` this is
`moves_expandTree`, and `extends_expandForest` is what it means for the forest.
-/

namespace AmbientDecl

open Text List Run SymbolTree

variable {s owner : Symbol} {f : Forest} {container : String} {cs : List SymbolTree}
  {t' : SymbolTree}

namespace Expander

variable {α β : Type} {e e' e'' : Expansion}

/-- A step succeeds with a value and leaves this in mind. -/
def Gives (x : Expander α) (e : Expansion) (a : α) (e' : Expansion) : Prop :=
  (x.run e).result = .ok (a, e')

lemma Gives.unique {x : Expander α} {a b : α} (h : Gives x e a e') (h' : Gives x e b e'') :
    a = b ∧ e' = e'' := by
  rw [Gives, h, Except.ok.injEq, Prod.mk.injEq] at h'
  exact h'

lemma gives_bind {x : Expander α} {f : α → Expander β} {b : β} :
    Gives (x >>= f) e b e'' ↔ ∃ a e', Gives x e a e' ∧ Gives (f a) e' b e'' := by
  simp only [Gives, StateT.run_bind, result_bind, Prod.exists]

@[simp] lemma gives_pure {a b : α} : Gives (pure a) e b e' ↔ a = b ∧ e = e' := by
  simp only [Gives, StateT.run_pure, result_pure, Prod.mk.injEq]

@[simp] lemma gives_get {a : Expansion} : Gives get e a e' ↔ e = a ∧ e = e' := by
  simp only [Gives, StateT.run_get, result_pure, Prod.mk.injEq]

@[simp] lemma gives_set {u : Unit} {s : Expansion} : Gives (set s) e u e' ↔ s = e' := by
  simp only [Gives, StateT.run_set, result_pure, Prod.mk.injEq, true_and]

@[simp] lemma gives_modify {u : Unit} {f : Expansion → Expansion} :
    Gives (modify f) e u e' ↔ f e = e' := by
  simp only [Gives, StateT.run_modify, result_pure, Prod.mk.injEq, true_and]

@[simp] lemma gives_takePending {made : List SymbolTree} :
    Gives takePending e made e' ↔ e.pending = made ∧ { e with pending := [] } = e' := by
  simp only [Gives, takePending, StateT.run_modifyGet, result_pure, Prod.mk.injEq]

@[simp] lemma gives_lift {x : Run α} {a : α} :
    Gives (liftM x : Expander α) e a e' ↔ x.result = .ok a ∧ e = e' := by
  have hrun : (liftM x : Expander α).run e = x >>= fun a => pure (a, e) := rfl
  simp only [Gives, hrun, result_bind, result_pure, Prod.mk.injEq]
  constructor
  · rintro ⟨a', ha, rfl, rfl⟩
    exact ⟨ha, rfl⟩
  · rintro ⟨ha, rfl⟩
    exact ⟨a, ha, rfl, rfl⟩

/-- A task that is only noted changes nothing. -/
lemma gives_attempt_bind {t : Task} {k : Unit → Expander β} {b : β} :
    Gives (liftM (Run.attempt t) >>= k) e b e' ↔ Gives (k ()) e b e' := Iff.rfl

/-- What steps one after another give was given by one of them. -/
lemma mem_mapM {f : α → Expander β} {l : List α} {bs : List β} (h : Gives (l.mapM f) e bs e') :
    ∀ b ∈ bs, ∃ a ∈ l, ∃ e e', Gives (f a) e b e' := by
  induction l generalizing e bs with
  | nil =>
    rw [mapM_nil, gives_pure] at h
    simp [← h.1]
  | cons a rest ih =>
    simp only [mapM_cons, gives_bind, gives_pure] at h
    obtain ⟨b, e₁, ha, bs', e₂, hrest, rfl, rfl⟩ := h
    rw [forall_mem_cons]
    refine ⟨⟨a, mem_cons_self, e, e₁, ha⟩, ?_⟩
    intro b' hb'
    obtain ⟨a', ha', hgives⟩ := ih hrest b' hb'
    exact ⟨a', mem_cons_of_mem _ ha', hgives⟩

end Expander

namespace Expansion

variable {e e' e'' : Expansion} {new new' : List (String × Nat)}

/-- The entries of the typedefs that wait. -/
def waiting (e : Expansion) : List (String × Nat) := e.pending.flatMap entries

/-- A step adds these entries to the index. -/
structure Makes (new : List (String × Nat)) (e e' : Expansion) : Prop where
  index : e'.index = e.index ++ new
  numbers : new.map Prod.snd = List.range' e.nextId new.length
  nextId : e'.nextId = e.nextId + new.length
  fresh : ∀ n ∈ new, e.index.lookup n.1 = none
  distinct : (new.map Prod.fst).Nodup

lemma Makes.refl (e : Expansion) : Makes [] e e :=
  ⟨by simp, rfl, rfl, by simp, nodup_nil⟩

lemma Makes.trans (h : Makes new e e') (h' : Makes new' e' e'') : Makes (new ++ new') e e'' where
  index := by rw [h'.index, h.index, append_assoc]
  numbers := by
    rw [map_append, h.numbers, h'.numbers, h.nextId, length_append, ← range'_append_1]
  nextId := by rw [h'.nextId, h.nextId, length_append, Nat.add_assoc]
  fresh := by
    intro n hn
    rcases mem_append.mp hn with hn | hn
    · exact h.fresh n hn
    · have hnone := h'.fresh n hn
      rw [h.index, lookup_append, Option.or_eq_none_iff] at hnone
      exact hnone.1
  distinct := by
    rw [map_append]
    refine h.distinct.append h'.distinct ?_
    intro longname hold hnew
    obtain ⟨n, hn, rfl⟩ := mem_map.mp hnew
    have hnone := h'.fresh n hn
    rw [h.index, lookup_append, Option.or_eq_none_iff] at hnone
    obtain ⟨m, hm, heq⟩ := mem_map.mp hold
    simpa [heq] using lookup_eq_none_iff.mp hnone.2 m hm

/-- What the index found it still finds. -/
lemma Makes.lookup_old (h : Makes new e e') {longname : String} {id : Nat}
    (hid : e.index.lookup longname = some id) : e'.index.lookup longname = some id := by
  rw [h.index, lookup_append, hid, Option.some_or]

lemma Makes.lookup_new (h : Makes new e e') {n : String × Nat} (hn : n ∈ new) :
    e'.index.lookup n.1 = some n.2 := by
  rw [h.index, lookup_append, h.fresh n hn, Option.none_or]
  exact lookup_eq_some_of_nodup h.distinct hn

/-- A step turns the entries `before` into `after`, and what waits afterwards is what waited, less
what found its place, and what the step made. -/
def Moves (before after : List (String × Nat)) (e e' : Expansion) : Prop :=
  ∃ new, Makes new e e' ∧ (after ++ e'.waiting).Perm (before ++ e.waiting ++ new)

variable {before before' after after' : List (String × Nat)}

lemma Moves.refl (l : List (String × Nat)) (e : Expansion) : Moves l l e e :=
  ⟨[], Makes.refl e, by simp⟩

/-- Steps one after another; permutations are compared by counting. -/
lemma Moves.trans (h : Moves before after e e') (h' : Moves before' after' e' e'') :
    Moves (before ++ before') (after ++ after') e e'' := by
  obtain ⟨new, hnew, hperm⟩ := h
  obtain ⟨new', hnew', hperm'⟩ := h'
  refine ⟨new ++ new', hnew.trans hnew', ?_⟩
  rw [perm_iff_count] at hperm hperm' ⊢
  intro n
  have h1 := hperm n
  have h2 := hperm' n
  simp only [count_append] at h1 h2 ⊢
  omega

end Expansion

section Symbol

open Expander Expansion

variable {e e' : Expansion}

lemma longnameIn_injective (container : String) : Function.Injective (longnameIn container) := by
  intro a b h
  unfold longnameIn at h
  split at h
  · exact h
  · exact (String.append_right_inj _).mp h

/-- The name of a made-up typedef is free in the container, and its longname is not in the index. -/
lemma typedefName_free (e : Expansion) (container : String) (owner : Symbol) (root : String) :
    typedefName e container owner root ∉ e.taken ∧
      e.index.lookup (longnameIn container (typedefName e container owner root)) = none := by
  let base := toIdentifier owner.name ++ "_" ++ toIdentifier root
  let isTaken : String → Bool := fun name =>
    e.taken.contains name || (e.index.lookup (longnameIn container name)).isSome
  -- a candidate is taken if its longname is that of a child or of an entry of the index
  let used := e.taken.map (longnameIn container) ++ e.index.map Prod.fst
  have hused : ∀ n, isTaken (numberedFrom 2 base n) = true →
      longnameIn container (numberedFrom 2 base n) ∈ used := by
    intro n hn
    rcases Bool.or_eq_true_iff.mp hn with htaken | hindex
    · exact mem_append_left _ (mem_map_of_mem (by simpa using htaken))
    · obtain ⟨id, hid⟩ := Option.isSome_iff_exists.mp hindex
      obtain ⟨front, back, heq, _⟩ := lookup_eq_some_iff.mp hid
      simp [used, heq]
  have hfree : isTaken (typedefName e container owner root) = false :=
    isTaken_firstFree ((longnameIn_injective container).comp (numberedFrom_injective 2 base))
      (by simp [used]) hused
  rw [Bool.or_eq_false_iff, Option.isSome_eq_false_iff, Option.isNone_iff_eq_none] at hfree
  exact ⟨by simpa using hfree.1, hfree.2⟩

/-- Making a typedef: it waits, and the index has it. -/
lemma moves_synthesize {root : String} {record : TypeNode} {longname : String}
    (h : Gives (synthesize container owner root record) e longname e') : Moves [] [] e e' := by
  simp only [synthesize, gives_bind, gives_get, gives_set, gives_pure] at h
  obtain ⟨_, _, ⟨rfl, rfl⟩, _, _, rfl, rfl, rfl⟩ := h
  have hfree := (typedefName_free e container owner root).2
  refine ⟨[(longnameIn container (typedefName e container owner root), e.nextId)], ?_, ?_⟩
  · refine ⟨?_, rfl, rfl, ?_, nodup_singleton _⟩
    · simp [synthesizedTypedef, Symbol.bare, Forest.registerIn, hfree]
    · simpa using hfree
  · simp [waiting, synthesizedTypedef, Symbol.bare]

lemma moves_mapM {α β : Type} {f : α → Expander β}
    (hf : ∀ a b e e', Gives (f a) e b e' → Moves [] [] e e') {l : List α} {bs : List β}
    (h : Gives (l.mapM f) e bs e') : Moves [] [] e e' := by
  induction l generalizing e bs with
  | nil =>
    rw [mapM_nil, gives_pure] at h
    exact h.2 ▸ Moves.refl [] e
  | cons a rest ih =>
    simp only [mapM_cons, gives_bind, gives_pure] at h
    obtain ⟨b, e₁, ha, bs', e₂, hrest, _, rfl⟩ := h
    exact (hf a b e e₁ ha).trans (ih hrest)

lemma moves_expandGroup {params : List Parameter} {group : String × Shape} {r : String × Parameter}
    (h : Gives (expandGroup container owner params group) e r e') : Moves [] [] e e' := by
  simp only [expandGroup, gives_bind, gives_pure] at h
  obtain ⟨typedef, e₁, hmade, _, rfl⟩ := h
  exact moves_synthesize hmade

lemma moves_expandSignature {sig sig' : Signature}
    (h : Gives (expandSignature container owner sig) e sig' e') : Moves [] [] e e' := by
  rw [expandSignature, gives_attempt_bind] at h
  simp only [gives_bind, gives_pure] at h
  obtain ⟨groups, e₁, hgroups, _, rfl⟩ := h
  exact moves_mapM (fun group r e e' => moves_expandGroup) hgroups

lemma expandTypedef_keeps {s' : Symbol} (h : (expandTypedef s).result = .ok s') :
    ∃ type, s' = { s with type := type } := by
  unfold expandTypedef at h
  split at h
  · split at h
    · simp only [result_bind, result_pure] at h
      obtain ⟨_, _, _, _, rfl⟩ := h
      exact ⟨_, rfl⟩
    · exact ⟨s.type, (Run.result_pure.mp h).symm⟩
  · exact ⟨s.type, (Run.result_pure.mp h).symm⟩

/-- Expansion changes the type and the signatures of a symbol and nothing else. -/
lemma expandSymbol_keeps {s' : Symbol} (h : Gives (expandSymbol container s) e s' e') :
    ∃ type signatures, s' = { s with type := type, signatures := signatures } := by
  simp only [expandSymbol, gives_bind, gives_pure, gives_lift] at h
  obtain ⟨_, _, ⟨hs₁, rfl⟩, signatures, _, _, rfl, rfl⟩ := h
  obtain ⟨type, rfl⟩ := expandTypedef_keeps hs₁
  exact ⟨type, signatures, rfl⟩

lemma moves_expandSymbol {s' : Symbol} (h : Gives (expandSymbol container s) e s' e') :
    (s'.longname = s.longname ∧ s'.kind = s.kind) ∧ Moves [] [] e e' := by
  simp only [expandSymbol, gives_bind, gives_pure, gives_lift] at h
  obtain ⟨s₁, _, ⟨hs₁, rfl⟩, signatures, e₁, hsignatures, rfl, rfl⟩ := h
  obtain ⟨type, rfl⟩ := expandTypedef_keeps hs₁
  exact ⟨⟨rfl, rfl⟩, moves_mapM (fun sig sig' e e' => moves_expandSignature) hsignatures⟩

end Symbol

section Walk

open Expander Expansion

variable {e e' : Expansion}

lemma gives_inContainer {α : Type} {names : List String} {walk : Expander α} {a : α} :
    Gives (inContainer names walk) e a e' ↔
      ∃ e₁, Gives walk { e with taken := names, pending := [] } a e₁ ∧
        e' = { e₁ with taken := e.taken, pending := e.pending } := by
  simp only [inContainer, gives_bind, gives_get, gives_set, gives_modify, gives_pure]
  constructor
  · rintro ⟨_, _, ⟨rfl, rfl⟩, _, _, rfl, _, e₁, hwalk, _, _, rfl, rfl, rfl⟩
    exact ⟨e₁, hwalk, rfl⟩
  · rintro ⟨e₁, hwalk, rfl⟩
    exact ⟨e, e, ⟨rfl, rfl⟩, (), _, rfl, a, e₁, hwalk, (), _, rfl, rfl, rfl⟩

/-- A walk inside a container that leaves nothing waiting is a step outside as well. -/
lemma Expansion.Moves.outside {before after : List (String × Nat)} {taken : List String}
    {e₁ : Expansion} (h : Moves before after { e with taken := taken, pending := [] } e₁)
    (hdone : e₁.pending = []) :
    Moves before after e { e₁ with taken := e.taken, pending := e.pending } := by
  obtain ⟨new, hnew, hperm⟩ := h
  refine ⟨new, ⟨hnew.index, hnew.numbers, hnew.nextId, hnew.fresh, hnew.distinct⟩, ?_⟩
  rw [perm_iff_count] at hperm ⊢
  intro n
  have hcount := hperm n
  simp only [waiting, hdone, flatMap_nil, append_nil, count_append] at hcount ⊢
  omega

/-- One symbol of the walk: first what is said about it, then its children. -/
lemma expandTree_cases {i : Nat} (h : Gives (expandTree container (.node i s cs)) e t' e') :
    ∃ s' e₁ cs', Gives (expandSymbol container s) e s' e₁ ∧ t' = .node i s' cs' ∧
      (s'.kind.isContainer = true ∧ Gives (inContainer (cs.map name)
          (expandDeclared s'.longname cs)) e₁ cs' e' ∨
        s'.kind.isContainer = false ∧ Gives (expandMembers container cs) e₁ cs' e') := by
  simp only [expandTree, gives_bind] at h
  obtain ⟨s', e₁, hs, h⟩ := h
  split at h
  · rename_i hkind
    obtain ⟨cs', _, hcs, hpure⟩ := gives_bind.mp h
    obtain ⟨rfl, rfl⟩ := gives_pure.mp hpure
    exact ⟨s', e₁, cs', hs, rfl, Or.inl ⟨hkind, hcs⟩⟩
  · rename_i hkind
    obtain ⟨cs', _, hcs, hpure⟩ := gives_bind.mp h
    obtain ⟨rfl, rfl⟩ := gives_pure.mp hpure
    exact ⟨s', e₁, cs', hs, rfl, Or.inr ⟨by simpa using hkind, hcs⟩⟩

/-- A relation that the steps of the walk keep: `R ts ts' e e'` says of the trees `ts` that they
come to `ts'`. -/
structure WalkStep (R : List SymbolTree → List SymbolTree → Expansion → Expansion → Prop) :
    Prop where
  nil : ∀ e, R [] [] e e
  append : ∀ {ts ts' us us' e e₁ e₂}, R ts ts' e e₁ → R us us' e₁ e₂ →
    R (ts ++ us) (ts' ++ us') e e₂
  /-- The typedefs that wait find their place. -/
  place : ∀ e, R [] e.pending e { e with pending := [] }
  node : ∀ {container i s s' cs cs' e e₁ e'}, Gives (expandSymbol container s) e s' e₁ →
    R cs cs' e₁ e' → R [.node i s cs] [.node i s' cs'] e e'
  /-- Inside a container others wait. -/
  outside : ∀ {names cs cs' e e₁}, R cs cs' { e with taken := names, pending := [] } e₁ →
    e₁.pending = [] → R cs cs' e { e₁ with taken := e.taken, pending := e.pending }

namespace WalkStep

variable {R : List SymbolTree → List SymbolTree → Expansion → Expansion → Prop}
  {cs' : List SymbolTree}

lemma members (hR : WalkStep R) (hcs : ∀ c ∈ cs, ∀ container c' e e',
      Gives (expandTree container c) e c' e' → R [c] [c'] e e')
    (h : Gives (expandMembers container cs) e cs' e') : R cs cs' e e' := by
  induction cs generalizing e cs' with
  | nil =>
    rw [expandMembers, gives_pure] at h
    obtain ⟨rfl, rfl⟩ := h
    exact hR.nil e
  | cons c rest ih =>
    simp only [expandMembers, gives_bind, gives_pure] at h
    obtain ⟨c', e₁, hc, rest', e₂, hrest, rfl, rfl⟩ := h
    obtain ⟨hfirst, hothers⟩ := forall_mem_cons.mp hcs
    exact hR.append (hfirst container c' e e₁ hc) (ih hothers hrest)

lemma declared (hR : WalkStep R) (hcs : ∀ c ∈ cs, ∀ container c' e e',
      Gives (expandTree container c) e c' e' → R [c] [c'] e e')
    (h : Gives (expandDeclared container cs) e cs' e') (hpending : e.pending = []) :
    e'.pending = [] ∧ R cs cs' e e' := by
  induction cs generalizing e cs' with
  | nil =>
    rw [expandDeclared, gives_pure] at h
    obtain ⟨rfl, rfl⟩ := h
    exact ⟨hpending, hR.nil e⟩
  | cons c rest ih =>
    simp only [expandDeclared, gives_bind, gives_pure, gives_takePending] at h
    obtain ⟨c', e₁, hc, _, _, ⟨rfl, rfl⟩, rest', e₃, hrest, rfl, rfl⟩ := h
    obtain ⟨hfirst, hothers⟩ := forall_mem_cons.mp hcs
    obtain ⟨hdone, hrest⟩ := ih hothers hrest rfl
    exact ⟨hdone, hR.append (hR.append (hfirst container c' e e₁ hc) (hR.place e₁)) hrest⟩

lemma children {s' : Symbol} (hR : WalkStep R) (hcs : ∀ c ∈ cs, ∀ container c' e e',
      Gives (expandTree container c) e c' e' → R [c] [c'] e e')
    (h : s'.kind.isContainer = true ∧ Gives (inContainer (cs.map name)
        (expandDeclared s'.longname cs)) e cs' e' ∨
      s'.kind.isContainer = false ∧ Gives (expandMembers container cs) e cs' e') :
    R cs cs' e e' := by
  rcases h with ⟨_, h⟩ | ⟨_, h⟩
  · obtain ⟨e₁, hwalk, rfl⟩ := gives_inContainer.mp h
    obtain ⟨hdone, hinside⟩ := hR.declared hcs hwalk rfl
    exact hR.outside hinside hdone
  · exact hR.members hcs h

/-- **What the steps keep, the walk over a tree keeps.** -/
lemma tree (hR : WalkStep R) {t : SymbolTree} (h : Gives (expandTree container t) e t' e') :
    R [t] [t'] e e' := by
  induction t using induct generalizing container t' e e' with
  | node i s cs ih =>
    obtain ⟨s', e₁, cs', hs, rfl, hkids⟩ := expandTree_cases h
    exact hR.node hs (hR.children (fun c hc container c' e e' => ih c hc) hkids)

end WalkStep

lemma walkStep_moves : WalkStep fun ts ts' => Moves (ts.flatMap entries) (ts'.flatMap entries) where
  nil := Moves.refl _
  append h h' := by simpa only [flatMap_append] using h.trans h'
  place e := ⟨[], ⟨by simp, rfl, rfl, by simp, nodup_nil⟩, by simp [waiting]⟩
  node hs hkids := by
    obtain ⟨⟨hlongname, _⟩, hsymbol⟩ := moves_expandSymbol hs
    obtain ⟨new, hnew, hperm⟩ := hsymbol.trans hkids
    refine ⟨new, hnew, ?_⟩
    rw [flatMap_singleton, flatMap_singleton, entries_node, entries_node, hlongname]
    exact hperm.cons _
  outside h hdone := h.outside hdone

/-- **The walk loses nothing and makes nothing up but typedefs**, which are in the tree or wait. -/
lemma moves_expandTree {t : SymbolTree} (h : Gives (expandTree container t) e t' e') :
    Moves t.entries t'.entries e e' := by
  simpa using walkStep_moves.tree h

/-- The root has nothing to expand, and after it nothing waits. -/
lemma expandTree_root (hroot : f.root.symbol = Symbol.root) (hpending : e.pending = [])
    (h : Gives (expandTree f.root.longname f.root) e t' e') :
    (t'.id = f.root.id ∧ t'.symbol = f.root.symbol) ∧ e'.pending = [] := by
  obtain ⟨i, cs, hf⟩ : ∃ i cs, f.root = .node i Symbol.root cs := by
    cases hf : f.root with
    | node i s cs => exact ⟨i, cs, by rw [← hroot, hf]; rfl⟩
  rw [hf] at h ⊢
  obtain ⟨s', e₁, cs', hs, rfl, hkids⟩ := expandTree_cases h
  have hsame : s' = Symbol.root ∧ e₁ = e := by
    simp only [expandSymbol, gives_bind, gives_pure, gives_lift] at hs
    obtain ⟨s₁, _, ⟨hs₁, rfl⟩, signatures, e₂, hsignatures, rfl, rfl⟩ := hs
    have heq : Symbol.root = s₁ := Run.result_pure.mp hs₁
    subst heq
    obtain ⟨rfl, rfl⟩ := gives_pure.mp hsignatures
    exact ⟨rfl, rfl⟩
  obtain ⟨rfl, rfl⟩ := hsame
  rcases hkids with ⟨_, hkids⟩ | ⟨hkind, _⟩
  · obtain ⟨e₂, _, rfl⟩ := gives_inContainer.mp hkids
    exact ⟨⟨rfl, rfl⟩, hpending⟩
  · exact absurd hkind (by decide)

lemma result_expandForest {g : Forest} : (expandForest f).result = .ok g ↔
    ∃ t e, Gives (expandTree f.root.longname f.root) ⟨f.index, f.nextId, [], []⟩ t e ∧
      g = { f with root := t, index := e.index, nextId := e.nextId } := by
  simp only [expandForest, result_bind, result_reach, result_pure, Prod.exists]
  constructor
  · rintro ⟨t, e, ht, _, _, rfl⟩
    exact ⟨t, e, ht, rfl⟩
  · rintro ⟨t, e, ht, rfl⟩
    exact ⟨t, e, ht, (), trivial, rfl⟩

/-- **Expansion extends a forest** by the typedefs that it makes up. -/
lemma extends_expandForest {g : Forest} (hroot : f.root.symbol = Symbol.root)
    (h : (expandForest f).result = .ok g) : f.Extends g := by
  obtain ⟨t, e, ht, rfl⟩ := result_expandForest.mp h
  obtain ⟨hsame, hdone⟩ := expandTree_root hroot rfl ht
  obtain ⟨new, hnew, hperm⟩ := moves_expandTree ht
  refine ⟨hsame, rfl, fun _ _ hid => hnew.lookup_old hid, new, ?_, hnew.numbers, hnew.nextId,
    fun n hn => hnew.lookup_new hn⟩
  simpa [waiting, hdone] using hperm

end Walk

end AmbientDecl

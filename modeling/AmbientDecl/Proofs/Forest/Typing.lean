import Mathlib.Data.List.Forall2
import AmbientDecl.Proofs.Forest.Origin

/-!
# What doclets say about types

The types and signatures of a finished symbol, said in terms of its doclets alone.

**Types.** The first doclet gives a member or a typedef its type (`Doclet.ownType`); a typedef with
described properties gets them as its type on the way (`type_of_finished`).

**Signatures.** A function has one signature for each of its doclets, in their order
(`signatures_of_finished`): the one that the doclet documents, with its described properties taken
out of the parameters (`Signature.Expanded`).
-/

namespace AmbientDecl

open Expander AmbientDecl.Symbol

/-- The type that a doclet gives the symbol that it makes. -/
def Doclet.ownType (d : Doclet) : Option TypeNode :=
  match d.detail with
  | .value _ type false =>
    let e := (readType (type.map TypeNames.expression)).expression
    some (if e.nullable = some true then e.type.orNull else e.type)
  | .typedef (some type) _ _ => some (readType (some type.expression)).expression.type
  | _ => none

/-- The type of the symbol of a doclet in the finished forest. -/
def Doclet.finalType (d : Doclet) : Option TypeNode :=
  if d.symbolKind = .typedefDecl ∧ !d.isCallback ∧ !d.properties.isEmpty then
    some (recordOfProperties (Parameter.readFrom 0 d.properties))
  else d.ownType

/-- The signature without its described properties, each group of which is replaced by a
parameter. -/
def Signature.Expanded (before after : Signature) : Prop :=
  ∃ groups, groups.map Prod.fst = (propertyGroups before.params).map Prod.fst ∧
    after = { before with params := substituted groups [] before.params }

section FirstDoclet

variable {s s' : Symbol} {d : Doclet}

lemma withDetail_type (hs : s.type = none) (h : (Symbol.withDetail d s).result = .ok s') :
    s'.type = d.ownType ∧ s'.signatures = s.signatures := by
  unfold withDetail at h
  unfold Doclet.ownType
  split at h
  case h_1 hdetail =>
    rw [Run.result_pure] at h
    rw [hdetail, ← h]
    exact ⟨hs, rfl⟩
  case h_2 constant type isEnum hdetail =>
    rw [hdetail]
    cases isEnum with
    | true =>
      rw [if_pos rfl] at h
      obtain ⟨values, _, h⟩ := Run.result_bind.mp h
      rw [← Run.result_pure.mp h]
      exact ⟨hs, rfl⟩
    | false =>
      simp only [Bool.false_eq_true, if_false, Run.result_bind, Run.result_pure] at h
      obtain ⟨e, he, rfl⟩ := h
      rw [result_readTypeOf, Except.ok.injEq] at he
      rw [← he]
      exact ⟨rfl, rfl⟩
  case h_3 type _ _ hdetail =>
    simp only [Run.result_bind, Run.result_pure] at h
    obtain ⟨e, he, rfl⟩ := h
    rw [result_readTypeOf, Except.ok.injEq] at he
    rw [hdetail, ← he]
    exact ⟨rfl, rfl⟩
  case h_4 hclass hvalue htypedef =>
    rw [Run.result_pure] at h
    rw [← h, hs]
    refine ⟨?_, rfl⟩
    split
    · rename_i hdetail
      exact absurd hdetail (hvalue _ _ _)
    · rename_i hdetail
      exact absurd hdetail (htypedef _ _ _)
    · rfl

lemma ofDoclet_type (h : (Symbol.ofDoclet d).result = .ok s) :
    s.type = d.ownType ∧ s.signatures = [] := by
  obtain ⟨base, hbase, hs⟩ := Run.result_bind.mp h
  obtain ⟨name, _, hname⟩ := Run.result_bind.mp hbase
  rw [Run.result_attemptAll_bind, Run.result_pure] at hname
  subst hname
  exact withDetail_type rfl hs

lemma Symbol.Built.type (h : s.Built) (hd : s.doclet? = some d) :
    s.kind = d.symbolKind ∧ s.type = d.ownType ∧ s.signatures = [] := by
  obtain ⟨seed, values, missing, hseed | ⟨name, longname, _, rfl⟩, rfl⟩ := h
  · obtain ⟨first, rest, base, hbase, _, _, rfl⟩ := hseed
    obtain rfl : first = d := by simpa [doclet?] using hd
    obtain ⟨htype, hsignatures⟩ := ofDoclet_type hbase
    exact ⟨(ofDoclet_keeps hbase).2, htype, hsignatures⟩
  · simp [doclet?, Symbol.bare] at hd

end FirstDoclet

lemma mergeSymbol_signatures {s s' : Symbol} (h : (mergeSymbol s).result = .ok s')
    (hs : s.signatures = []) (hd : s.doclets ≠ []) :
    (s.kind = .functionDecl → s'.signatures = s.doclets.map fun d =>
      Signature.read d .functionDecl) ∧
    (s.kind = .memberDecl ∨ s.kind = .typedefDecl ∧ s.isCallback = false → s'.signatures = []) := by
  rw [mergeSymbol_eq h, if_neg hd, worked]
  constructor
  · intro hkind
    rw [if_pos hkind, hkind]
  · intro hkind
    have hplain : s.kind ≠ .functionDecl ∧ s.kind ≠ .classDecl ∧
        ¬ (s.kind = .typedefDecl ∧ s.isCallback = true) := by
      rcases hkind with hkind | ⟨hkind, hcallback⟩ <;> simp_all
    rw [if_neg hplain.1, if_neg hplain.2.1, if_neg hplain.2.2]
    exact hs

section Expansion

variable {s s' : Symbol} {e e' : Expansion} {container : String}

lemma expandTypedef_type {d : Doclet} (hd : s.doclet? = some d) (hkind : s.kind = d.symbolKind)
    (htype : s.type = d.ownType) (h : (expandTypedef s).result = .ok s') :
    s'.type = d.finalType ∧ s'.signatures = s.signatures := by
  simp only [expandTypedef, hd, hkind] at h
  unfold Doclet.finalType
  split at h
  · rename_i hproperties
    simp only [Run.result_bind, Run.result_pure] at h
    obtain ⟨properties, hread, _, _, rfl⟩ := h
    rw [result_parametersFrom, Except.ok.injEq] at hread
    rw [if_pos hproperties, hread]
    exact ⟨rfl, rfl⟩
  · rename_i hproperties
    rw [Run.result_pure] at h
    rw [if_neg hproperties, ← h]
    exact ⟨htype, rfl⟩

lemma forall₂_mapM {α β : Type} {R : α → β → Prop} {f : α → Expander β}
    (hf : ∀ {a e b e'}, Gives (f a) e b e' → R a b) :
    ∀ {l : List α} {e e' : Expansion} {l' : List β},
      Gives (l.mapM f) e l' e' → List.Forall₂ R l l' := by
  intro l
  induction l with
  | nil =>
    intro e e' l' h
    rw [List.mapM_nil, gives_pure] at h
    exact h.1 ▸ .nil
  | cons a rest ih =>
    intro e e' l' h
    simp only [List.mapM_cons, gives_bind, gives_pure] at h
    obtain ⟨b, _, hb, rest', _, hrest, rfl, _⟩ := h
    exact .cons (hf hb) (ih hrest)

lemma expanded_expandSignature {owner : Symbol} {before after : Signature}
    (h : Gives (expandSignature container owner before) e after e') : before.Expanded after := by
  rw [expandSignature, gives_attempt_bind] at h
  simp only [gives_bind, gives_pure] at h
  obtain ⟨groups, _, hgroups, rfl, _⟩ := h
  refine ⟨groups, ?_, rfl⟩
  have hnames := forall₂_mapM (R := fun (group : String × Shape) (r : String × Parameter) =>
    r.1 = group.1) ?_ hgroups
  · rw [← List.forall₂_eq_eq_eq, List.forall₂_map_left_iff, List.forall₂_map_right_iff]
    exact hnames.flip
  · intro group _ r _ hgroup
    simp only [expandGroup, gives_bind, gives_pure] at hgroup
    obtain ⟨_, _, _, rfl, _⟩ := hgroup
    rfl

/-- What expansion does to a symbol whose type its first doclet gave. -/
lemma expandSymbol_type {d : Doclet} (hd : s.doclet? = some d) (hkind : s.kind = d.symbolKind)
    (htype : s.type = d.ownType) (h : Gives (expandSymbol container s) e s' e') :
    s'.type = d.finalType ∧ List.Forall₂ Signature.Expanded s.signatures s'.signatures := by
  simp only [expandSymbol, gives_bind, gives_pure, gives_lift] at h
  obtain ⟨typed, _, ⟨htyped, rfl⟩, signatures, _, hsignatures, rfl, _⟩ := h
  obtain ⟨htype', hsame⟩ := expandTypedef_type hd hkind htype htyped
  exact ⟨htype', hsame ▸ forall₂_mapM expanded_expandSignature hsignatures⟩

end Expansion

section Finished

variable {s : Symbol} {d : Doclet}

/-- A finished symbol with doclets went through all stages. -/
lemma Symbol.Finished.merged (h : s.Finished) (hd : s.doclet? = some d) :
    s.kind = d.symbolKind ∧ s.type = d.finalType ∧ ∃ built merged : Symbol,
      built.kind = s.kind ∧ built.doclets = s.doclets ∧ built.signatures = [] ∧
      (mergeSymbol built).result = .ok merged ∧
      List.Forall₂ Signature.Expanded merged.signatures s.signatures := by
  rcases h with ⟨merged, container, e, e', ⟨built, hbuilt, hmerge⟩, hexpand⟩ | ⟨_, _, _, _, rfl⟩
  · obtain ⟨⟨_, hkind⟩, _⟩ := moves_expandSymbol hexpand
    obtain ⟨_, hkind'⟩ := mergeSymbol_keeps hmerge
    obtain ⟨hdoclets', htype'⟩ := mergeSymbol_keepsDoclets hmerge
    have hsame := doclets_expandSymbol hexpand
    have hfirst : merged.doclet? = some d := by rw [doclet?, ← hsame]; exact hd
    have hfirst' : built.doclet? = some d := by rw [doclet?, ← hdoclets']; exact hfirst
    obtain ⟨hbuiltKind, hbuiltType, hnone⟩ := hbuilt.type hfirst'
    obtain ⟨htype, hsignatures⟩ := expandSymbol_type hfirst (hkind'.trans hbuiltKind)
      (htype'.trans hbuiltType) hexpand
    refine ⟨hkind.trans (hkind'.trans hbuiltKind), htype, built, merged,
      (hkind.trans hkind').symm, hdoclets'.symm.trans hsame.symm, hnone, hmerge, hsignatures⟩
  · simp [synthesizedTypedef, Symbol.bare, doclet?] at hd

/-- **The first doclet of a symbol decides about its kind and its type.** -/
lemma type_of_finished (h : s.Finished) (hd : s.doclet? = some d) :
    s.kind = d.symbolKind ∧ s.type = d.finalType :=
  ⟨(h.merged hd).1, (h.merged hd).2.1⟩

lemma doclets_ne_nil (hd : s.doclet? = some d) : s.doclets ≠ [] := by
  intro hempty
  rw [doclet?, hempty] at hd
  cases hd

/-- **A function has a signature for each of its doclets.** -/
lemma signatures_of_finished (h : s.Finished) (hd : s.doclet? = some d)
    (hkind : s.kind = .functionDecl) :
    List.Forall₂ (fun d sig => (Signature.read d .functionDecl).Expanded sig)
      s.doclets s.signatures := by
  obtain ⟨_, _, built, merged, hkind', hdoclets, hnone, hmerge, hsignatures⟩ := h.merged hd
  have hread := (mergeSymbol_signatures hmerge hnone (hdoclets ▸ doclets_ne_nil hd)).1
    (hkind'.trans hkind)
  rwa [hread, hdoclets, List.forall₂_map_left_iff] at hsignatures

/-- A member has no signatures, and neither has a typedef that is no callback. -/
lemma signatures_eq_nil_of_finished (h : s.Finished) (hd : s.doclet? = some d)
    (hkind : s.kind = .memberDecl ∨ s.kind = .typedefDecl ∧ d.isCallback = false) :
    s.signatures = [] := by
  obtain ⟨_, _, built, merged, hkind', hdoclets, hnone, hmerge, hsignatures⟩ := h.merged hd
  have hcallback : built.isCallback = d.isCallback := by
    have hfirst : built.doclet? = some d := by rw [doclet?, hdoclets]; exact hd
    rw [Symbol.isCallback, hfirst, Option.any_some]
  have hread := (mergeSymbol_signatures hmerge hnone (hdoclets ▸ doclets_ne_nil hd)).2
    (by rwa [hkind', hcallback])
  rw [hread] at hsignatures
  exact List.forall₂_nil_left_iff.mp hsignatures

end Finished

end AmbientDecl

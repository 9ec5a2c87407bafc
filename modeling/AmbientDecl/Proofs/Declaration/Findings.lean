import AmbientDecl.Proofs.Declaration.Completeness

/-!
# Findings of whole declarations

What a printer finds is found at a place: in a type that is printed there, or about the supertypes
there.

**Places.** `Place.formatted` lists the types that are printed for the symbol at a place, each with
the type parameters in scope; `Printer.notes` are the findings about its supertypes.

**Trees.** A symbol is printed once, as a declaration of its own or in the body of its parent, so
the findings of a tree are those at all its places (`mem_findings_declaration`).
-/

namespace AmbientDecl

open List SymbolTree

namespace Noted

variable {α β : Type}

@[simp] lemma findings_pure (a : α) : (pure a : Noted α).findings = [] := rfl

@[simp] lemma findings_attempt (t : Task) : (attempt t).findings = [] := rfl

@[simp] lemma findings_bind (x : Noted α) (f : α → Noted β) :
    (x >>= f).findings = x.findings ++ (f x.value).findings := rfl

@[simp] lemma findings_mapM (f : α → Noted β) (l : List α) :
    (l.mapM f).findings = l.flatMap fun a => (f a).findings := by
  induction l with
  | nil => rfl
  | cons a rest ih => simp [ih]

end Noted

/-- The types that a signature prints. -/
def Signature.types (s : Signature) : List TypeNode :=
  s.params.map (fun param => param.spec.type) ++ [s.returns.getD .void]

/-- The types that are printed for a supertype: the arguments of a name, and anything else as a
whole. -/
def supertypeTypes (written : String) : List TypeNode :=
  match (readType (some written)).expression.type with
  | .named _ => []
  | .generic base args => if base = "Object" then [.generic base args] else args
  | t => [t]

/-- The supertypes that are printed. -/
def Symbol.supertypes (s : Symbol) : List String :=
  if s.kind = .classDecl then s.augments.take 1 ++
    (s.augments.drop 1 ++ s.implements ++ s.mixes).eraseDups
  else (s.augments ++ s.implements ++ s.mixes).eraseDups

/-- The types that are printed for the symbol at a place, each with the type parameters in scope. -/
def Place.formatted (q : Place) : List (List String × TypeNode) :=
  let s := q.symbol
  let params := q.typeParameterNames
  let overloads := s.signatures.flatMap fun signature => signature.types.map
    (params ++ signature.typeParameters.map TypeParameter.name, ·)
  match s.kind with
  | .classDecl => (s.supertypes.flatMap supertypeTypes ++
      s.signatures.flatMap fun signature => signature.params.map fun param => param.spec.type).map
        (params, ·)
  | .interfaceDecl => (s.supertypes.flatMap supertypeTypes).map (params, ·)
  | .functionDecl => overloads
  | .memberDecl => if q.isInline || q.tree.children.isEmpty then [(params, s.type.getD .any)] else
      []
  | .typedefDecl =>
    match s.signatures, s.type with
    | [signature], _ => signature.types.map (params, ·)
    | [], some (.record fields) => fields.map fun field => (params, field.type)
    | [], type => [(params, type.getD .any)]
    | _, _ => overloads
  | _ => []

namespace Printer

variable {p : Printer} {here : Place} {f : Finding}

/-- What is found about a supertype itself. -/
def supertypeNotes (p : Printer) (owner : Place) (written : String) : List Finding :=
  let reading := readType (some written)
  (noteUnreadable owner.symbol reading.complaint).findings ++ match reading.expression.type with
    | .named name => (p.showSupertypeName owner written name).findings
    | .generic base _ => if base = "Object" then [] else
        (p.showSupertypeName owner written base).findings
    | _ => []

/-- A report about the supertypes of a symbol. -/
inductive IsNote (s : Symbol) : Finding → Prop
  | unreadable (message : String) :
      IsNote s (.diagnostic ⟨.malformedType, s.doclet?.map Doclet.longname, message, s.location⟩)
  | unresolved (message : String) :
      IsNote s (.diagnostic (s.diagnostic .unresolvedSupertype message))
  | several (message : String) : IsNote s (.diagnostic (s.diagnostic .multipleInheritance message))

/-- What is found about the supertypes of the symbol at a place. -/
def notes (p : Printer) (here : Place) : List Finding :=
  match here.symbol.kind with
  | .classDecl => (noteInheritance here.symbol).findings ++ here.symbol.supertypes.flatMap
      (p.supertypeNotes here)
  | .interfaceDecl => here.symbol.supertypes.flatMap (p.supertypeNotes here)
  | _ => []

/-- All that is found at a place. -/
def found (p : Printer) (here : Place) : List Finding :=
  p.notes here ++ here.formatted.flatMap fun x => (p.showType here x.1 x.2).findings

lemma isNote_of_mem_supertypeNotes {written : String} (h : f ∈ p.supertypeNotes here written) :
    IsNote here.symbol f := by
  have hname : ∀ {name}, f ∈ (p.showSupertypeName here written name).findings →
      IsNote here.symbol f := by
    intro name h
    unfold showSupertypeName at h
    split at h
    · simp at h
    · rw [mem_singleton.mp h]
      exact .unresolved _
  rcases mem_append.mp h with h | h
  · unfold noteUnreadable at h
    split at h
    · rw [mem_singleton.mp h]
      exact .unreadable _
    · simp at h
  · split at h
    · exact hname h
    · split at h
      · simp at h
      · exact hname h
    · simp at h

lemma isNote_of_mem_notes (h : f ∈ p.notes here) :
    IsNote here.symbol f ∧ (here.symbol.kind = .classDecl ∨ here.symbol.kind = .interfaceDecl) := by
  have hnotes : ∀ {l : List String}, f ∈ l.flatMap (p.supertypeNotes here) →
      IsNote here.symbol f := by
    intro l h
    obtain ⟨written, -, h⟩ := mem_flatMap.mp h
    exact isNote_of_mem_supertypeNotes h
  unfold notes at h
  split at h
  · rename_i hkind
    refine ⟨(mem_append.mp h).elim (fun h => ?_) hnotes, .inl hkind⟩
    unfold noteInheritance at h
    split at h
    · rw [mem_singleton.mp h]
      exact .several _
    · simp at h
  · rename_i hkind
    exact ⟨hnotes h, .inr hkind⟩
  · simp at h

@[simp] lemma findings_showParams (params : List String) (l : List Parameter) :
    (p.showParams here params l).findings = (l.map fun param => param.spec.type).flatMap fun t =>
        (p.showType here params t).findings := by
  simp [showParams, showParam, flatMap_map]

@[simp] lemma findings_showSignature (params : List String) (s : Signature) :
    (p.showSignature here params s).findings = s.types.flatMap fun t =>
      (p.showType here (params ++ s.typeParameters.map TypeParameter.name) t).findings := by
  simp [showSignature, Signature.types]

@[simp] lemma findings_showSupertype (written : String) : (p.showSupertype here written).findings =
    p.supertypeNotes here written ++ (supertypeTypes written).flatMap fun t =>
        (p.showType here here.typeParameterNames t).findings := by
  simp only [showSupertype, supertypeNotes, supertypeTypes, Noted.findings_bind]
  cases (readType (some written)).expression.type with
  | generic base args =>
    by_cases hbase : base = "Object" <;> simp [hbase, showAppliedSupertype]
  | _ => simp [showAppliedSupertype]

lemma mem_findings_memberDocs (inClass : Bool)
    (h : here.symbol.kind = .functionDecl ∨ here.symbol.kind = .memberDecl)
    (hinline : here.isInline = true) : (p.memberDocs inClass here).findings = p.found here := by
  rcases h with h | h <;>
    simp [memberDocs, signatureDocs, found, notes, Place.formatted, h, hinline,
      flatMap_assoc, flatMap_map]

lemma mem_findings_inlineDocs (inClass : Bool) : f ∈ (p.inlineDocs inClass here).findings ↔
    ∃ c ∈ here.tree.children, here.tree.isInlineIn c = true ∧ f ∈ p.found (here.child c) := by
  simp only [inlineDocs, Noted.findings_bind, Noted.findings_mapM, Noted.findings_pure, append_nil,
    mem_flatMap, mem_filter, and_assoc]
  refine exists_congr fun c => and_congr_right fun _ => and_congr_right fun hc => ?_
  rw [mem_findings_memberDocs inClass (kind_of_isInlineIn hc) (by simpa using hc)]

lemma mem_findings_supertypes (l : List String) :
    f ∈ l.flatMap (fun w => (p.showSupertype here w).findings) ↔
      f ∈ l.flatMap (p.supertypeNotes here) ∨ f ∈ (l.flatMap supertypeTypes).flatMap fun t =>
        (p.showType here here.typeParameterNames t).findings := by
  simp [and_or_left, exists_or, flatMap_assoc]

lemma mem_findings_ownDocs (lead : String)
    (h : here.symbol.kind = .memberDecl → here.tree.children = []) :
    f ∈ (p.ownDocs here lead).findings ↔ f ∈ p.found here ∨
      ∃ c ∈ here.tree.children, here.tree.isInlineIn c = true ∧ f ∈ p.found (here.child c) := by
  have hkind : here.tree.kind = here.symbol.kind := rfl
  by_cases hbody : here.symbol.kind = .classDecl ∨ here.symbol.kind = .interfaceDecl
  · rw [found, ← mem_findings_inlineDocs (decide (here.symbol.kind = .classDecl)), ownDocs, hkind]
    rcases hbody with hk | hk
    · have hdocs : (p.classDocs here lead).findings = (noteInheritance here.symbol).findings ++
          here.symbol.supertypes.flatMap (fun w => (p.showSupertype here w).findings) ++
          (here.symbol.signatures.flatMap fun s => s.params.map fun param =>
            param.spec.type).flatMap
            (fun t => (p.showType here here.typeParameterNames t).findings) ++
          (p.inlineDocs true here).findings := by
        simp [classDocs, showClause, constructorDocs, Symbol.supertypes, hk, flatMap_assoc]
      simp only [hk, hdocs, notes, Place.formatted, mem_append, mem_findings_supertypes, map_append,
        flatMap_append, flatMap_map, decide_true, or_assoc]
    · have hdocs : (p.interfaceDocs here lead).findings =
          here.symbol.supertypes.flatMap (fun w => (p.showSupertype here w).findings) ++
            (p.inlineDocs false here).findings := by
        simp [interfaceDocs, showClause, Symbol.supertypes, hk]
      simp only [hk, hdocs, notes, Place.formatted, mem_append, mem_findings_supertypes,
        flatMap_map, reduceCtorEq, decide_false, or_assoc]
  · rw [not_or] at hbody
    have hinline : ∀ c, here.tree.isInlineIn c = false := fun c =>
      isInlineIn_eq_false hbody.1 hbody.2
    simp only [hinline, Bool.false_eq_true, false_and, and_false, exists_false, or_false]
    rw [ownDocs, hkind, found, notes, Place.formatted]
    cases hk : here.symbol.kind with
    | classDecl | interfaceDecl => simp [hk] at hbody
    | functionDecl => simp [functionDocs, signatureDocs, flatMap_assoc, flatMap_map]
    | memberDecl => simp [variableDocs, h hk]
    | typedefDecl =>
      unfold typedefDocs
      dsimp only
      rcases here.symbol.signatures with _ | ⟨first, _ | ⟨second, more⟩⟩
      · rcases here.symbol.type with _ | t
        · simp
        · cases t <;> simp [propertyDocs, flatMap_map]
      · simp [callbackDocs, Signature.types, flatMap_map]
      · simp [callDocs, flatMap_assoc, flatMap_map]
    | _ => simp

@[simp] lemma findings_declarations (lead : String) (ts : List SymbolTree) :
    (p.declarations here lead ts).findings = ts.flatMap fun t =>
      (p.declaration here lead t).findings := by
  induction ts with
  | nil => rfl
  | cons t rest ih => simp [declarations, ih]

/-- Nothing is found about a symbol of which only a namespace is declared. -/
lemma found_of_isNamespaceIn {parent : Place} {t : SymbolTree}
    (hinline : parent.tree.isInlineIn t = false)
    (h : parent.tree.isNamespaceIn t = true) : p.found (parent.child t) = [] := by
  have hkind : (parent.child t).symbol.kind = t.kind := rfl
  have htree : (parent.child t).tree = t := rfl
  rw [isNamespaceIn] at h
  split at h <;> simp_all [found, notes, Place.formatted]

lemma findings_declaration (parent : Place) (lead : String) (t : SymbolTree) :
    (p.declaration parent lead t).findings = if parent.tree.isTopModuleIn t then
        t.children.flatMap fun c => (p.declaration (parent.child t) "export " c).findings
      else (if parent.tree.isInlineIn t || parent.tree.isNamespaceIn t then []
          else (p.ownDocs (parent.child t) lead).findings) ++
        t.children.flatMap fun c => (p.declaration (parent.child t) "" c).findings := by
  obtain ⟨i, s, cs⟩ := t
  have htree : (parent.child (.node i s cs)).tree = .node i s cs := rfl
  rw [declaration, htree]
  split_ifs <;> simp_all [children]

/-- What is found in a tree is found about its top or in a tree below, or printed in the body of its
top. -/
lemma exists_lead_findings (parent : Place) (lead : String) (t : SymbolTree) : ∃ lead', ∀ finding,
    (finding ∈ (p.declaration parent lead t).findings ∨
        parent.tree.isInlineIn t = true ∧ finding ∈ p.found (parent.child t)) ↔
      finding ∈ p.found (parent.child t) ∨ ∃ c ∈ t.children,
        finding ∈ (p.declaration (parent.child t) lead' c).findings ∨
          t.isInlineIn c = true ∧ finding ∈ p.found ((parent.child t).child c) := by
  have hkinds : (parent.child t).symbol.kind = t.kind := rfl
  have hbody : t.kind ≠ .classDecl → t.kind ≠ .interfaceDecl → ∀ c, t.isInlineIn c = false :=
    fun hclass hinterface c => isInlineIn_eq_false hclass hinterface
  rw [findings_declaration parent lead t]
  by_cases htop : parent.tree.isTopModuleIn t = true
  · have hkind := kind_of_isTopModuleIn htop
    refine ⟨"export ", fun finding => ?_⟩
    simp [htop, found, notes, Place.formatted, hkinds, hbody, hkind]
  · refine ⟨"", fun finding => ?_⟩
    by_cases hinline : parent.tree.isInlineIn t = true
    · have hkind := kind_of_isInlineIn hinline
      have hnot := hbody (by grind) (by grind)
      simp [htop, hinline, hnot, or_comm]
    · rw [Bool.not_eq_true] at hinline
      by_cases hspace : parent.tree.isNamespaceIn t = true
      · have hkind := kind_of_isNamespaceIn hinline hspace
        have hnot := hbody (by grind) (by grind)
        simp [htop, hinline, hspace, found_of_isNamespaceIn hinline hspace, hnot]
      · have hmember : (parent.child t).symbol.kind = .memberDecl → t.children = [] := by
          intro hk
          rw [hkinds] at hk
          simpa [isNamespaceIn, hk, hinline] using hspace
        have hown := fun finding => mem_findings_ownDocs (p := p) (f := finding) lead hmember
        have htree : (parent.child t).tree = t := rfl
        simp only [htop, hinline, hspace, hown, htree, Bool.false_eq_true, ↓reduceIte, Bool.or_self,
          mem_append, mem_flatMap, false_and, or_false, and_or_left, exists_or, or_assoc]
        rw [or_comm (a := ∃ c ∈ t.children, _ ∧ _)]

/-- **What is found in a tree is found at its places.** -/
lemma mem_findings_declaration (t : SymbolTree) : ∀ (parent : Place) (lead : String),
    (f ∈ (p.declaration parent lead t).findings ∨
        parent.tree.isInlineIn t = true ∧ f ∈ p.found (parent.child t)) ↔
      ∃ q ∈ placesIn parent.lineage t, f ∈ p.found q := by
  induction t using induct with
  | node i s cs ih =>
    intro parent lead
    obtain ⟨lead', h⟩ := exists_lead_findings (p := p) parent lead (.node i s cs)
    rw [h, placesIn_eq]
    simp only [exists_mem_cons_iff, mem_flatMap]
    refine or_congr Iff.rfl ?_
    constructor
    · rintro ⟨c, hc, hfound⟩
      obtain ⟨q, hq, hfound⟩ := (ih c hc _ lead').mp hfound
      exact ⟨q, ⟨c, hc, hq⟩, hfound⟩
    · rintro ⟨q, ⟨c, hc, hq⟩, hfound⟩
      exact ⟨c, hc, (ih c hc (parent.child _) lead').mpr ⟨q, hq, hfound⟩⟩

end Printer

end AmbientDecl

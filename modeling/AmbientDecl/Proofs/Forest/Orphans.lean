import AmbientDecl.Proofs.Arrival.Forest
import AmbientDecl.Proofs.Forest.Home
import AmbientDecl.Proofs.Forest.Placement
import Mathlib.Data.List.TakeWhile

/-!
# Orphans of one missing parent

A documented symbol whose parent is missing goes under a symbol that stands for that parent, and so
do all other orphans of the same parent.

**Notes and reports.** An orphan is noted on its symbol (`Planting.symbolAt_attachAll_of_mem`) and
reported once (`Planting.diagnostics_attachOrphans`); no other step of the building reports such a
thing (`Census.malformed_addAll`).

**The run.** Orphans are attached in the order of their missing parents, so those of one parent come
one after another (`exists_group`). The first of them finds or makes the home, and the others find
it there (`Planting.gathered_attachAll`).
-/

namespace AmbientDecl

open List Planting Census Run

open Longname (Step)

namespace Planting

variable {p : Planting} {o : Orphan} {os : List Orphan} {id : Nat}

lemma symbols_descend : ∀ (steps : List (String × String)) (p : Planting) (above : Nat),
    p.symbols <+: (descend p above steps).1.symbols := by
  intro steps
  induction steps with
  | nil => intro p above; exact prefix_refl _
  | cons step rest ih =>
    obtain ⟨longname, name⟩ := step
    intro p above
    cases hid : p.idOf? longname with
    | some id =>
      simp only [descend, hid]
      exact ih p id
    | none =>
      rw [descend_of_none hid]
      have hplant : p.symbols <+: (p.plant above (namespaceFor longname name)).1.symbols :=
        prefix_append _ _
      exact hplant.trans (ih _ _)

lemma symbols_homeOf (p : Planting) (memberof : String) :
    p.symbols <+: (homeOf p memberof).1.symbols := by
  by_cases h : p.OpenFor memberof
  · rw [homeOf_of_open h]
    exact symbols_descend _ _ _
  · simp [homeOf_of_not_open h]

/-- Attaching an orphan is noted on its symbol and changes no other one. -/
lemma symbolAt_attach (hpos : 0 < o.id) (ho : o.id ≤ p.symbols.length)
    (hle : id ≤ p.symbols.length) :
    (p.attach o).symbolAt id =
      if id = o.id then { p.symbolAt id with unresolvedParent := some o.memberof }
        else p.symbolAt id := by
  have hsymbols := symbols_homeOf p o.memberof
  have hsame : (homeOf p o.memberof).1.symbolAt id = p.symbolAt id := by
    cases id with
    | zero => rfl
    | succ i =>
      rw [symbolAt, symbolAt, prefix_iff_getElem?.mp hsymbols i hle, getElem?_eq_getElem hle]
  refine (symbolAt_modifyAt _ hpos (Nat.le_trans ho hsymbols.length_le) _ id).trans ?_
  split
  · rename_i heq
    rw [← heq, hsame]
  · exact hsame

/-- A symbol that is no orphan stays as it is. -/
lemma symbolAt_attachAll_of_notMem (hp : Tidy p) (h : Awaits p os) (hle : id ≤ p.symbols.length)
    (hid : id ∉ os.map Orphan.id) : (os.foldl attach p).symbolAt id = p.symbolAt id := by
  induction os generalizing p with
  | nil => rfl
  | cons o rest ih =>
    rw [map_cons, mem_cons, not_or] at hid
    have hpos := h.pos o mem_cons_self
    have ho := h.le o mem_cons_self
    obtain ⟨htidy, hg⟩ := h.first hp
    rw [foldl_cons, ih htidy (h.attach hp) (Nat.le_trans hle hg.length_le) hid.2,
      symbolAt_attach hpos ho hle, if_neg hid.1]

/-- **An orphan has a note about the parent that it misses.** -/
lemma symbolAt_attachAll_of_mem (hp : Tidy p) (h : Awaits p os) (ho : o ∈ os) :
    (os.foldl attach p).symbolAt o.id =
      { p.symbolAt o.id with unresolvedParent := some o.memberof } := by
  induction os generalizing p with
  | nil => simp at ho
  | cons first rest ih =>
    have hpos := h.pos first mem_cons_self
    have hfirst := h.le first mem_cons_self
    have hle := h.le o ho
    obtain ⟨htidy, hg⟩ := h.first hp
    obtain ⟨hnew, _⟩ := nodup_cons.mp h.distinct
    rw [foldl_cons]
    rcases mem_cons.mp ho with rfl | ho
    · rw [symbolAt_attachAll_of_notMem htidy (h.attach hp) (Nat.le_trans hle hg.length_le) hnew,
        symbolAt_attach hpos hle hle, if_pos rfl]
    · have hne : o.id ≠ first.id := fun heq => hnew (heq ▸ mem_map_of_mem ho)
      rw [ih htidy (h.attach hp) ho, symbolAt_attach hpos hfirst hle, if_neg hne]

/-- Attaching orphans makes up no symbol that is there. -/
lemma synthesized_attachAll (hp : Tidy p) (h : Awaits p os) (hle : id ≤ p.symbols.length) :
    ((os.foldl attach p).symbolAt id).synthesized = (p.symbolAt id).synthesized := by
  by_cases hid : id ∈ os.map Orphan.id
  · obtain ⟨o, ho, rfl⟩ := mem_map.mp hid
    rw [symbolAt_attachAll_of_mem hp h ho]
  · rw [symbolAt_attachAll_of_notMem hp h hle hid]

/-- The report about an orphan reads the longnames of the two symbols and the doclets of the
orphan. -/
lemma orphanDiagnostic_congr {s s' home home' : Symbol} (hlongname : s'.longname = s.longname)
    (hdoclets : s'.doclets = s.doclets) (hhome : home'.longname = home.longname)
    (memberof : String) :
    orphanDiagnostic s' home' memberof = orphanDiagnostic s home memberof := by
  simp only [orphanDiagnostic, Symbol.diagnostic, Symbol.location, Symbol.doclet?, hlongname,
    hdoclets, hhome]

lemma diagnostics_attachOrphan (p : Planting) (o : Orphan) : (attachOrphan p o).diagnostics =
    [orphanDiagnostic ((p.attach o).symbolAt o.id) ((p.attach o).symbolAt (homeOf p o.memberof).2)
      o.memberof] := rfl

/-- The report about an orphan of a finished planting. -/
def reportOn (p : Planting) (o : Orphan) : Diagnostic :=
  orphanDiagnostic (p.symbolAt o.id) (p.symbolAt ((p.parent? o.id).getD 0)) o.memberof

/-- **Every orphan is reported once**, with the place where it is in the end. -/
lemma diagnostics_attachOrphans (hp : Tidy p) (h : Awaits p os) :
    (attachOrphans p os).diagnostics = os.map (os.foldl attach p).reportOn := by
  induction os generalizing p with
  | nil => rfl
  | cons o rest ih =>
    obtain ⟨htidy, hg⟩ := h.first hp
    obtain ⟨hlast, hmore⟩ := tidy_attachAll htidy (h.attach hp)
    have hhome := (parent?_eq_some hlast).mpr (hmore.mem_links (mem_links_attach p o))
    have hid : o.id ≤ (p.attach o).symbols.length :=
      Nat.le_trans (h.le o mem_cons_self) hg.length_le
    have hplace := htidy.parent_le _ (mem_links_attach p o)
    rw [attachOrphans, diagnostics_bind (result_attachOrphan p o), ih htidy (h.attach hp),
      diagnostics_attachOrphan, map_cons, foldl_cons, singleton_append]
    congr 1
    rw [reportOn, hhome]
    exact (orphanDiagnostic_congr (hmore.keeps hid).1 (hmore.keeps hid).2.2
      (hmore.keeps hplace).1 _).symm

lemma Awaits.sublist {os' : List Orphan} (h : Awaits p os) (hsub : os'.Sublist os) :
    Awaits p os' where
  distinct := h.distinct.sublist (hsub.map _)
  pos := fun o ho => h.pos o (hsub.subset ho)
  le := fun o ho => h.le o (hsub.subset ho)
  free := fun o ho => h.free o (hsub.subset ho)

/-- When some orphans have been attached the others still wait. -/
lemma Awaits.attachAll {before after : List Orphan} (hp : Tidy p) (h : Awaits p (before ++ after)) :
    Awaits (before.foldl Planting.attach p) after := by
  induction before generalizing p with
  | nil => exact h
  | cons o rest ih =>
    exact ih (h.first hp).1 (Awaits.attach hp h)

end Planting

/-- Behind the orphans of the least parent there are none of it. -/
lemma memberof_ne_of_mem_dropWhile {os : List Orphan} {memberof : String}
    (hsorted : os.Pairwise fun a b => a.memberof ≤ b.memberof)
    (hleast : ∀ o ∈ os, memberof ≤ o.memberof) :
    ∀ o ∈ os.dropWhile fun o => decide (o.memberof = memberof), o.memberof ≠ memberof := by
  induction os with
  | nil => simp
  | cons first rest ih =>
    obtain ⟨hfirst, hsorted⟩ := pairwise_cons.mp hsorted
    obtain ⟨hle, hleast⟩ := forall_mem_cons.mp hleast
    by_cases heq : first.memberof = memberof
    · rw [dropWhile_cons_of_pos (by simpa using heq)]
      exact ih hsorted hleast
    · rw [dropWhile_cons_of_neg (by simpa using heq), forall_mem_cons]
      refine ⟨heq, fun o ho hsame => heq (String.le_antisymm ?_ hle)⟩
      exact hsame ▸ hfirst o ho

/-- **Sorted orphans of one parent stand together.** -/
lemma exists_group {os : List Orphan} (hsorted : os.Pairwise fun a b => a.memberof ≤ b.memberof)
    (memberof : String) : ∃ group after,
      os = os.takeWhile (fun o => decide (o.memberof ≠ memberof)) ++ (group ++ after) ∧
        (∀ o ∈ group, o.memberof = memberof) ∧ ∀ o ∈ after, o.memberof ≠ memberof := by
  induction os with
  | nil => exact ⟨[], [], rfl, by simp, by simp⟩
  | cons first rest ih =>
    obtain ⟨hfirst, hrest⟩ := pairwise_cons.mp hsorted
    by_cases heq : first.memberof = memberof
    · refine ⟨(first :: rest).takeWhile fun o => decide (o.memberof = memberof), _, ?_, ?_,
        memberof_ne_of_mem_dropWhile hsorted ?_⟩
      · rw [takeWhile_cons_of_neg (by simpa using heq), nil_append, takeWhile_append_dropWhile]
      · exact fun o ho => by simpa using mem_takeWhile_imp ho
      · rw [forall_mem_cons]
        exact ⟨heq ▸ String.le_refl _, fun o ho => heq ▸ hfirst o ho⟩
    · obtain ⟨group, after, hsplit, hgroup, hafter⟩ := ih hrest
      refine ⟨group, after, ?_, hgroup, hafter⟩
      rw [takeWhile_cons_of_pos (by simpa using heq), cons_append, ← hsplit]

namespace Planting

/-- The orphans that are attached before the first one of a missing parent. -/
def before (os : List Orphan) (memberof : String) : List Orphan :=
  os.takeWhile fun o => decide (o.memberof ≠ memberof)

/-- **All orphans of a missing parent go where the first one goes**; on an open path this is its
end. -/
lemma gathered_attachAll {p : Planting} {os : List Orphan} (hp : Tidy p) (h : Awaits p os)
    (hsorted : os.Pairwise fun a b => a.memberof ≤ b.memberof) {o : Orphan} (ho : o ∈ os) :
    ((homeOf ((before os o.memberof).foldl attach p) o.memberof).2,
      o.id) ∈ (os.foldl attach p).links ∧
      (((before os o.memberof).foldl attach p).OpenFor o.memberof →
        (os.foldl attach p).IsAt (Longname.split o.memberof)
          (homeOf ((before os o.memberof).foldl attach p) o.memberof).2) := by
  obtain ⟨group, after, hsplit, hgroup, hafter⟩ := exists_group hsorted o.memberof
  change os = before os o.memberof ++ (group ++ after) at hsplit
  have hnotBefore : o ∉ before os o.memberof := fun hmem => by simpa using mem_takeWhile_imp hmem
  have hmem : o ∈ group := by
    rw [hsplit, mem_append, mem_append] at ho
    exact (ho.resolve_left hnotBefore).resolve_right fun hmem => hafter o hmem rfl
  generalize before os o.memberof = earlier at hsplit hnotBefore ⊢
  subst hsplit
  have hearlier := (tidy_attachAll hp (h.sublist (sublist_append_left _ _))).1
  have hwait := h.attachAll hp
  have hwait' := hwait.sublist (sublist_append_left _ _)
  have hlater := (tidy_attachAll (tidy_attachAll hearlier hwait').1 (hwait.attachAll hearlier)).2
  rw [foldl_append, foldl_append]
  refine ⟨hlater.mem_links (together_attachAll hearlier hwait' hgroup o hmem), fun hopen => ?_⟩
  cases group with
  | nil => simp at hmem
  | cons first rest =>
    -- the first one makes the home, and it stays where it is
    have htidy := (hwait'.first hearlier).1
    have hrest := (tidy_attachAll htidy (hwait'.attach hearlier)).2
    have hgrows := grows_homeOf_attach (earlier.foldl attach p) first
    rw [hgroup first mem_cons_self] at hgrows
    exact (((homeOf_path hearlier hopen).1.mono hgrows).mono hrest).mono hlater

end Planting

/-- A symbol that is documented and kept, and whose first doclet names a parent that is missing: the
longname of the parent is not empty, no package that is accepted, and not documented. -/
structure Orphaned (filter : Option DocletFilter) (doclets : List Doclet)
    (longname memberof : String) :
    Prop where
  named : ∃ first, doclets.find? (Census.documents filter longname) = some first ∧
    first.memberof = some memberof
  kept : ¬ LeadsOut filter doclets (some memberof)
  nonempty : memberof ≠ ""
  unpackaged : memberof ∉ acceptedPackages filter doclets
  missing : Census.docletsOf filter doclets memberof = []

/-- Without a filter nothing is left out. -/
lemma not_leadsOut_of_none {doclets : List Doclet} {memberof : Option String} :
    ¬ LeadsOut none doclets memberof := by
  intro h
  induction h with
  | out _ rejected _ => simp [isRejected] at rejected
  | up _ _ _ ih => exact ih

namespace Census

variable {filter : Option DocletFilter} {doclets : List Doclet} {c : Census}

lemma exists_orphan (hc : (ofDoclets filter doclets).result = .ok c)
    (hcycles : c.checkCycles.result = .ok ())
    {longname memberof : String} (h : Orphaned filter doclets longname memberof) :
    ∃ o ∈ c.orphans, o.memberof = memberof ∧ (c.resolved.symbolAt o.id).longname = longname := by
  obtain ⟨first, hfirst, hmemberof⟩ := h.named
  obtain ⟨s, hs⟩ := exists_symbol hc hfirst
  rw [← memberof?_of_first hc hs hfirst] at hmemberof
  obtain ⟨hmem, rfl⟩ := longname_of_find? hs
  obtain ⟨i, hi⟩ := mem_iff_getElem?.mp hmem
  have hplace : placementOf c s = .orphan memberof := by
    rcases c.placementOf_cases s with ⟨hdropped, _⟩ | ⟨_, ⟨htop, _⟩ | ⟨parent, hparent, _, _, hup⟩⟩
    · exact absurd (hmemberof ▸ (isDropped_iff_leadsOut hc hcycles hmem).mp hdropped) h.kept
    · rw [packages_ofDoclets hc] at htop
      exact ((htop memberof hmemberof).elim h.nonempty h.unpackaged).elim
    · obtain rfl : memberof = parent := by simpa [hmemberof] using hparent
      rcases hup with ⟨id, hid, _⟩ | ⟨_, hplace⟩
      · have hnone : c.resolved.idOf? memberof = none := by
          rw [idOf?_eq_none]
          intro hknown
          exact (has_ofDoclets_iff_docletsOf hc memberof).mp (has_iff.mpr hknown) h.missing
        simp [hnone] at hid
      · exact hplace
  refine ⟨⟨i + 1, memberof⟩, mem_orphans.mpr ⟨Nat.succ_pos i, s, hi, hplace⟩, rfl, ?_⟩
  simp [symbolAt, resolved, hi]

lemma sorted_sortedOrphans (c : Census) :
    c.sortedOrphans.Pairwise fun a b => a.memberof ≤ b.memberof := by
  have hsorted := pairwise_mergeSort (@Rearranged.keyLE_trans _ Orphan.memberof)
    Rearranged.keyLE_total c.orphans
  exact hsorted.imp fun h => by simpa [Rearranged.keyLE] using h

/-- Orphans that are sorted are attached in the order of the census. -/
lemma planting_of_sorted (h : c.orphans.Pairwise fun a b => a.memberof ≤ b.memberof) :
    c.planting = c.orphans.foldl Planting.attach c.resolved := by
  rw [planting, sortedOrphans, mergeSort_of_pairwise]
  simpa using h

lemma awaits_sortedOrphans (c : Census) : Planting.Awaits c.resolved c.sortedOrphans :=
  c.awaits_orphans.perm (mergeSort_perm _ _)

lemma orderly_add (filter : Option DocletFilter) (c : Census) (d : Doclet) :
    Run.Orderly (fun e => e.kind = .malformedType) (fun _ => True) (c.add filter d) := by
  have hversion : Orderly (fun e => e.kind = .malformedType)
      (fun _ => True) (checkVersion filter d) := by
    unfold checkVersion
    split
    · exact orderly_fail (by simp) trivial
    · exact orderly_pure _
  refine hversion.bind fun _ _ => (orderly_noteAll (by simp [diagnosticsOf_notes])).bind fun _ _ =>
    ?_
  split
  · exact orderly_pure _
  · split
    · exact orderly_pure _
    · split
      · exact orderly_pure _
      · split
        · exact orderly_pure _
        · have hread := orderly_ofDoclet (P := fun e => e.kind = .malformedType) (d := d)
            fun _ _ _ => rfl
          exact (hread.mono (fun _ h => h) fun _ _ => trivial).andPure

/-- The census reports only types that cannot be read. -/
lemma malformed_addAll : ∀ (doclets : List Doclet) (c : Census),
    Run.Orderly (fun e => e.kind = .malformedType) (fun _ => True) (addAll filter c doclets) := by
  intro doclets
  induction doclets with
  | nil => intro c; exact orderly_pure _
  | cons d rest ih => intro c; exact (orderly_add filter c d).bind fun c' _ => ih c'

lemma diagnostics_checkCycles (h : c.checkCycles.result = .ok ()) :
    c.checkCycles.diagnostics = [] := by
  rcases result_checkCycles (c := c) with ⟨⟨e, herror⟩, _⟩ | ⟨hpure, _⟩
  · simp [herror] at h
  · rw [hpure]
    rfl

/-- What building reports: types that cannot be read, then the orphans. -/
lemma diagnostics_buildForest (hc : (ofDoclets filter doclets).result = .ok c)
    (hcycles : c.checkCycles.result = .ok ()) : (buildForest filter doclets).diagnostics =
      (ofDoclets filter doclets).diagnostics ++ c.sortedOrphans.map c.planting.reportOn := by
  have hattach := diagnostics_attachOrphans (tidy_resolved (nodup_ofDoclets hc))
    c.awaits_sortedOrphans
  rw [buildForest, diagnostics_bind hc, diagnostics_bind hcycles, diagnostics_checkCycles hcycles,
    diagnostics_attemptAll_bind, diagnostics_bind c.result_plantResolved, diagnostics_plantResolved,
    nil_append, nil_append, diagnostics_bind (result_attachOrphans _ _),
    diagnostics_bind (result_reach _), diagnostics_attemptAll_bind]
  exact congrArg _ (hattach ▸ append_nil _)

/-- **Of each orphan there is one report.** -/
lemma filter_diagnostics_buildForest (hc : (ofDoclets filter doclets).result = .ok c)
    (hcycles : c.checkCycles.result = .ok ()) {o : Orphan} (ho : o ∈ c.orphans) :
    ((buildForest filter doclets).diagnostics.filter fun d =>
      decide (d.kind = .unresolvedParent ∧ d.longname = some (c.planting.symbolAt o.id).longname)) =
        [c.planting.reportOn o] := by
  have htidy := tidy_of_census hc
  have hgrows := (tidy_planting (nodup_ofDoclets hc)).2
  have hawaits := c.awaits_sortedOrphans
  have ho' : o ∈ c.sortedOrphans := mem_mergeSort.mpr ho
  have hcensus : ((ofDoclets filter doclets).diagnostics.filter fun d =>
      decide (d.kind = .unresolvedParent ∧ d.longname = some (c.planting.symbolAt o.id).longname)) =
          [] := by
    rw [filter_eq_nil_iff]
    intro d hd
    have hkind : d.kind = .malformedType := (malformed_addAll doclets .empty).reports d hd
    simp [hkind]
  -- two orphans with one longname have one number, so they are one orphan
  have hsame : ∀ o₁ ∈ c.sortedOrphans,
      (c.planting.symbolAt o₁.id).longname = (c.planting.symbolAt o.id).longname → o₁ = o := by
    intro o₁ ho₁ hlongname
    refine inj_on_of_nodup_map hawaits.distinct ho₁ ho' ?_
    have hid := idOf?_symbolAt htidy (hawaits.pos o₁ ho₁)
      (Nat.le_trans (hawaits.le o₁ ho₁) hgrows.length_le)
    rw [hlongname, idOf?_symbolAt htidy (hawaits.pos o ho')
      (Nat.le_trans (hawaits.le o ho') hgrows.length_le)] at hid
    exact (Option.some.inj hid).symm
  have hone : (c.sortedOrphans.filter fun o₁ => o₁ == o) = [o] := by
    rw [filter_beq, count_eq_one_of_mem (Nodup.of_map _ hawaits.distinct) ho']
    rfl
  rw [diagnostics_buildForest hc hcycles, filter_append, hcensus, nil_append, filter_map,
    ← map_singleton, ← hone]
  congr 1
  refine filter_congr fun o₁ ho₁ => ?_
  rw [Bool.eq_iff_iff, beq_iff_eq]
  refine ⟨fun h => hsame o₁ ho₁ ?_, ?_⟩
  · exact Option.some.inj (of_decide_eq_true h).2
  · rintro rfl
    exact decide_eq_true ⟨rfl, rfl⟩

end Census

namespace Symbol

lemma Entered.synthesized {s : Symbol} (h : s.Entered) : s.synthesized = false := by
  obtain ⟨d, rest, base, hbase, _, _, rfl⟩ := h
  obtain ⟨plain, hplain, hdetail⟩ := Run.result_bind.mp hbase
  obtain ⟨name, _, hname⟩ := Run.result_bind.mp hplain
  obtain ⟨_, _, _, hsame⟩ := withDetail_keeps hdetail
  rw [← Run.result_pure.mp hname] at hsame
  exact hsame

end Symbol

/-- The planting to which the first orphan of a missing parent is attached. -/
def AtFirst (filter : Option DocletFilter) (doclets : List Doclet) (memberof : String)
    (p : Planting) :
    Prop :=
  ∃ c start orphans, (Census.ofDoclets filter doclets).result = .ok c ∧
    (plantResolved c).result = .ok (start, orphans) ∧ (attachOrphans start (Planting.before
        (orphans.mergeSort fun a b => decide (a.memberof ≤ b.memberof)) memberof)).result = .ok p

/-- The symbol of a forest that steps lead to; no steps lead to the root. -/
def Forest.IsAt (f : Forest) (steps : List Step) (id : Nat) : Prop :=
  steps = [] ∧ id = f.root.id ∨ steps ≠ [] ∧ f.idOf? (Longname.join steps) = some id

/-- The symbol under which the orphans of a missing parent go: the end of its path, if namespaces
can be made up behind its nearest ancestor when the first of them is attached, otherwise the
ancestor. -/
def IsHome (filter : Option DocletFilter) (doclets : List Doclet) (f : Forest) (memberof : String)
    (home : Nat) : Prop :=
  ∃ p depth anchor, AtFirst filter doclets memberof p ∧
    p.Nearest (Longname.split memberof) depth anchor ∧
    (p.Open (Longname.split memberof) depth anchor → f.IsAt (Longname.split memberof) home) ∧
    (¬ p.Open (Longname.split memberof) depth anchor → home = anchor)

/-- An orphan under the home of its missing parent, with a note about that parent and one report. -/
structure Adopted (filter : Option DocletFilter) (doclets : List Doclet) (f : Forest)
    (longname memberof : String) (home id : Nat) (s above : Symbol) (siblings : List Nat) :
    Prop where
  indexed : f.idOf? longname = some id
  below : f.parentOf? id = some home
  child : id ∈ siblings ∨ FoldedInto above siblings id s
  noted : s.unresolvedParent = some memberof
  reported : ((buildForest filter doclets).diagnostics.filter fun d =>
    decide (d.kind = .unresolvedParent ∧ d.longname = some longname)) =
      [orphanDiagnostic s above memberof]

/-- A made-up namespace: the only symbol of its longname, and under the symbol that the steps of its
longname but the last one lead to. -/
structure Forest.Lodged (f : Forest) (id : Nat) (s : Symbol) : Prop where
  kind : s.kind = .namespaceDecl
  indexed : f.idOf? s.longname = some id
  named : Longname.split s.longname ≠ []
  under : ∃ above, f.parentOf? id = some above ∧ f.IsAt (Longname.split s.longname).dropLast above

namespace Planting

lemma isAt_forest {p : Planting} {steps : List Step} {id : Nat} (h : p.IsAt steps id) :
    p.forest.IsAt steps id :=
  h.imp (fun ⟨hnil, hid⟩ => ⟨hnil, hid.trans (SymbolTree.id_absorb p.tree).symm⟩)
    fun ⟨hne, hid⟩ => ⟨hne, (p.lookup_index _).trans hid⟩

end Planting

namespace Census

variable {filter : Option DocletFilter} {doclets : List Doclet} {c : Census}

/-- The planting before the first orphan of a missing parent. -/
def plantingBefore (c : Census) (memberof : String) : Planting :=
  (Planting.before c.sortedOrphans memberof).foldl Planting.attach c.resolved

lemma atFirst_plantingBefore (hc : (ofDoclets filter doclets).result = .ok c) (memberof : String) :
    AtFirst filter doclets memberof (c.plantingBefore memberof) :=
  ⟨c, c.resolved, c.orphans, hc, c.result_plantResolved, result_attachOrphans _ _⟩

section Gathered

variable (hc : (ofDoclets filter doclets).result = .ok c) {o : Orphan} (ho : o ∈ c.orphans)
include hc ho

/-- Every orphan of a missing parent is linked to the home that the first one has found. -/
lemma link_homeOf {memberof : String} (hmemberof : o.memberof = memberof) :
    ((homeOf (c.plantingBefore memberof) memberof).2, o.id) ∈ c.planting.links := by
  subst hmemberof
  exact (gathered_attachAll (tidy_resolved (nodup_ofDoclets hc)) c.awaits_sortedOrphans
    c.sorted_sortedOrphans (mem_mergeSort.mpr ho)).1

lemma isHome_homeOf : IsHome filter doclets c.planting.forest o.memberof
    (homeOf (c.plantingBefore o.memberof) o.memberof).2 := by
  refine ⟨c.plantingBefore o.memberof, _, _, atFirst_plantingBefore hc _,
    nearest_anchorOf _ _, fun hopen => isAt_forest ?_, fun hclosed => ?_⟩
  · exact (gathered_attachAll (tidy_resolved (nodup_ofDoclets hc)) c.awaits_sortedOrphans
      c.sorted_sortedOrphans (mem_mergeSort.mpr ho)).2 hopen
  · exact congrArg Prod.snd (homeOf_of_not_open hclosed)

/-- **An orphan is adopted where it is linked.** -/
lemma adopted_of_link (hcycles : c.checkCycles.result = .ok ()) {home : Nat}
    (hlink : (home, o.id) ∈ c.planting.links) :
    Adopted filter doclets c.planting.forest (c.resolved.symbolAt o.id).longname
      o.memberof home o.id
      (symbolLeft c.planting o.id) (symbolLeft c.planting home)
        (c.planting.folded.childrenOf home) := by
  have hnd := nodup_ofDoclets hc
  obtain ⟨htidy, hgrows⟩ := tidy_planting hnd
  have hawaits := c.awaits_orphans
  have hlongname := (hgrows.keeps (hawaits.le o ho)).1
  have hpos := hawaits.pos o ho
  have hle := htidy.child_le _ hlink
  have hparent := (parent?_eq_some htidy).mpr hlink
  obtain ⟨_, hleft⟩ := symbolLeft_eq c.planting o.id
  obtain ⟨_, habove⟩ := symbolLeft_eq c.planting home
  rw [← hlongname]
  constructor
  case indexed => exact idOf?_symbolAt htidy hpos hle
  case below => exact (parentOf?_forest htidy hpos hle).trans hparent
  case child =>
    obtain ⟨hstays, hfolds⟩ := child_or_folded hlink
    cases hcase : c.planting.folds (home, o.id) with
    | false => exact .inl (hstays hcase)
    | true => exact .inr (hfolds hcase)
  case noted =>
    have hnote := symbolAt_attachAll_of_mem (tidy_resolved hnd) c.awaits_sortedOrphans
      (mem_mergeSort.mpr ho)
    rw [hleft]
    exact congrArg Symbol.unresolvedParent hnote
  case reported =>
    rw [filter_diagnostics_buildForest hc hcycles ho, reportOn, hparent]
    congr 1
    rw [hleft, habove]
    rfl

end Gathered

/-- **A made-up namespace is lodged.** -/
lemma lodged_of_synthesized (hc : (ofDoclets filter doclets).result = .ok c) {id : Nat}
    (hle : id ≤ c.planting.symbols.length) (hmade : (c.planting.symbolAt id).synthesized = true) :
    c.planting.forest.Lodged id (symbolLeft c.planting id) := by
  have hnd := nodup_ofDoclets hc
  obtain ⟨htidy, hgrows⟩ := tidy_planting hnd
  have hlt : c.symbols.length < id := by
    by_contra hold
    have hid : id ≤ c.resolved.symbols.length := Nat.not_lt.mp hold
    have hsame : (c.planting.symbolAt id).synthesized = (c.resolved.symbolAt id).synthesized :=
      synthesized_attachAll (tidy_resolved hnd) c.awaits_sortedOrphans hid
    rw [hsame] at hmade
    cases id with
    | zero => simp [symbolAt, Symbol.root, Symbol.bare] at hmade
    | succ i =>
      rw [symbolAt, getElem?_eq_getElem hid] at hmade
      have hentered := entered_ofDoclets hc _ (getElem_mem hid)
      simp [hentered.synthesized] at hmade
  have hlodged : c.planting.Lodged id := by
    refine housed_attachAll (tidy_resolved hnd) c.awaits_sortedOrphans ?_ id hlt hle
    exact fun b hb hb' => absurd hb (Nat.not_lt.mpr hb')
  obtain ⟨_, hleft⟩ := symbolLeft_eq c.planting id
  obtain ⟨above, hlink, hat⟩ := hlodged.under
  have hpos := Nat.zero_lt_of_lt hlt
  rw [hleft]
  refine ⟨hlodged.kind, idOf?_symbolAt htidy hpos hle, hlodged.named, above, ?_, isAt_forest hat⟩
  rw [parentOf?_forest htidy hpos hle]
  exact (parent?_eq_some htidy).mpr hlink

end Census

/-- **Orphans of one missing parent stay together.** They are under one symbol, at the end of the
path of the parent where namespaces can be made up for it; each has a note and one report. Made-up
namespaces are the only symbols of their longnames, each under the symbol that the rest of its path
leads to. -/
theorem gathered_buildForest {filter : Option DocletFilter} {doclets : List Doclet} {f : Forest}
    (hf : (buildForest filter doclets).result = .ok f) :
    (∀ memberof, (∃ longname, Orphaned filter doclets longname memberof) → ∃ home above siblings,
      IsHome filter doclets f memberof home ∧ f.Holds home above siblings ∧
        ∀ longname, Orphaned filter doclets longname memberof →
          ∃ id s children, f.Holds id s children ∧
          Adopted filter doclets f longname memberof home id s above siblings) ∧
    ∀ id s children, f.Holds id s children → s.synthesized = true → f.Lodged id s := by
  obtain ⟨c, hc, hcycles, rfl⟩ := result_buildForest.mp hf
  have htidy := tidy_of_census hc
  constructor
  · rintro memberof ⟨longname, horphaned⟩
    obtain ⟨o, ho, rfl, _⟩ := exists_orphan hc hcycles horphaned
    have hhome := htidy.parent_le _ (link_homeOf hc ho rfl)
    refine ⟨_, _, _, isHome_homeOf hc ho, (holds_forest htidy).mpr ⟨hhome, rfl, rfl⟩, ?_⟩
    intro longname' horphaned'
    obtain ⟨o', ho', hsame, rfl⟩ := exists_orphan hc hcycles horphaned'
    have hlink := link_homeOf hc ho' hsame
    refine ⟨_, _, _, (holds_forest htidy).mpr ⟨htidy.child_le _ hlink, rfl, rfl⟩, ?_⟩
    have hadopted := adopted_of_link hc ho' hcycles hlink
    rwa [hsame] at hadopted
  · intro id s children hholds hmade
    obtain ⟨hle, rfl, _⟩ := (holds_forest htidy).mp hholds
    obtain ⟨_, hleft⟩ := symbolLeft_eq c.planting id
    refine lodged_of_synthesized hc hle ?_
    rw [hleft] at hmade
    exact hmade

/-- A function of a missing namespace, and two of another one that is missing in it. -/
def lostFunctions : List Doclet :=
  [.bare "ghost.c" (some "ghost") (.callable [] []),
   .bare "ghost.inner.a" (some "ghost.inner") (.callable [] []),
   .bare "ghost.inner.b" (some "ghost.inner") (.callable [] [])]

/-- The namespaces are made up, one in the other, and the functions are in them. -/
theorem gathered_buildForest_lostFunctions : ∃ f, (buildForest none lostFunctions).result = .ok f ∧
    Orphaned none lostFunctions "ghost.inner.a" "ghost.inner" ∧
    Orphaned none lostFunctions "ghost.inner.b" "ghost.inner" ∧
    (∃ above siblings, IsHome none lostFunctions f "ghost.inner" 5 ∧ f.Holds 5 above siblings ∧
      (∃ s, Adopted none lostFunctions f "ghost.inner.a" "ghost.inner" 5 2 s above siblings) ∧
      ∃ s, Adopted none lostFunctions f "ghost.inner.b" "ghost.inner" 5 3 s above siblings) ∧
    ∃ s children, f.Holds 5 s children ∧ s.synthesized = true ∧ f.Lodged 5 s := by
  have hrun : ((ofDoclets none lostFunctions).result.toOption.map fun c =>
      (c.checkCycles.result.toOption,
        decide (c.orphans.Pairwise fun a b => a.memberof ≤ b.memberof))) =
        some (some (), true) := by
    decide +kernel
  have hforest : ((ofDoclets none lostFunctions).result.toOption.map fun c =>
      let f := (c.orphans.foldl Planting.attach c.resolved).forest
      (f.idOf? "ghost.inner.a", f.idOf? "ghost.inner.b", f.parentOf? 2,
        f.root.walk.map fun t => (t.id, t.symbol.synthesized))) =
      some (some 2, some 3, some 5,
        [(0, false), (4, true), (1, false), (5, true), (2, false), (3, false)]) := by
    decide +kernel
  obtain ⟨c, hc, hrow⟩ := Run.toOption_map.mp hrun
  rw [hc, Except.toOption, Option.map_some, Option.some.injEq] at hforest
  simp only [Prod.mk.injEq, decide_eq_true_eq] at hrow
  obtain ⟨hcycles, hsorted⟩ := hrow
  rw [← planting_of_sorted hsorted] at hforest
  have hf := result_buildForest.mpr ⟨c, hc, result_of_toOption hcycles, rfl⟩
  generalize c.planting.forest = f at hf hforest
  simp only [Prod.mk.injEq] at hforest
  obtain ⟨ha, hb, hparent, hwalk⟩ := hforest
  have hfirst : Orphaned none lostFunctions "ghost.inner.a" "ghost.inner" :=
    ⟨⟨_, rfl, rfl⟩, not_leadsOut_of_none, by decide, by decide, by decide⟩
  have hsecond : Orphaned none lostFunctions "ghost.inner.b" "ghost.inner" :=
    ⟨⟨_, rfl, rfl⟩, not_leadsOut_of_none, by decide, by decide, by decide⟩
  obtain ⟨hgathered, hlodged⟩ := gathered_buildForest hf
  obtain ⟨home, above, siblings, hhome, hholds, hadopted⟩ := hgathered "ghost.inner" ⟨_, hfirst⟩
  obtain ⟨id, s, _, _, hadopted₁⟩ := hadopted _ hfirst
  obtain ⟨id', s', _, _, hadopted₂⟩ := hadopted _ hsecond
  obtain rfl : 2 = id := by simpa [ha] using hadopted₁.indexed
  obtain rfl : 3 = id' := by simpa [hb] using hadopted₂.indexed
  obtain rfl : 5 = home := by simpa [hparent] using hadopted₁.below
  obtain ⟨t, ht, hmade⟩ : ∃ t ∈ f.root.walk, (t.id, t.symbol.synthesized) = (5, true) := by
    rw [← mem_map, hwalk]
    decide
  have hnamespace : f.Holds 5 t.symbol _ := .inl ⟨t, ht, congrArg Prod.fst hmade, rfl, rfl⟩
  have hmade := congrArg Prod.snd hmade
  exact ⟨f, hf, hfirst, hsecond, ⟨above, siblings, hhome, hholds, ⟨s, hadopted₁⟩, s', hadopted₂⟩,
    t.symbol, _, hnamespace, hmade, hlodged 5 _ _ hnamespace hmade⟩

/-- A namespace without a longname, and a function whose missing parent has no steps. -/
def steplessParent : List Doclet :=
  [.bare "" none (.container false), .bare "f" (some ".") (.callable [] [])]

/-- A longname without steps leads to the root, although the empty longname has a symbol. -/
theorem not_under_steplessParent : ∃ f p, (buildForest none steplessParent).result = .ok f ∧
    Orphaned none steplessParent "f" "." ∧ AtFirst none steplessParent "." p ∧
      p.Nearest (Longname.split ".") 0 0 ∧ p.Open (Longname.split ".") 0 0 ∧
      f.idOf? "f" = some 2 ∧ f.parentOf? 2 = some 0 ∧
        f.idOf? (Longname.join (Longname.split ".")) = some 1 := by
  have hrun : ((buildForest none steplessParent).result.toOption.map fun f =>
    (f.idOf? "f", f.parentOf? 2,
      f.idOf? (Longname.join (Longname.split ".")))) = some (some 2, some 0, some 1) := by
    decide +kernel
  obtain ⟨f, hf, hrow⟩ := Run.toOption_map.mp hrun
  obtain ⟨c, hc, _, _⟩ := result_buildForest.mp hf
  have hsplit : Longname.split "." = [] := by decide +kernel
  refine ⟨f, c.plantingBefore ".", hf, ?_, atFirst_plantingBefore hc ".", ?_, ?_, ?_⟩
  · exact ⟨⟨_, rfl, rfl⟩, not_leadsOut_of_none, by decide, by decide, by decide⟩
  · rw [hsplit]
    exact nearest_anchorOf _ []
  · rw [hsplit]
    exact ⟨rfl, by simp⟩
  · simpa using hrow

end AmbientDecl

import AmbientDecl.Forest.Build
import AmbientDecl.Proofs.Run
import Mathlib.Data.List.Induction
import Mathlib.Data.List.Nodup

/-!
# What the census collects

The first pass takes the doclets one by one. `Census.add_cases` says once what one doclet can
do to the census; the facts about a whole pass follow from it by `Census.ofDoclets_induct`.

**One symbol for each longname.** A doclet makes a symbol only if its longname has none
(`Census.nodup_add`), so the longnames of a finished census are distinct
(`Census.nodup_ofDoclets`). The longname and the kind of a symbol are those of its first doclet
(`Symbol.ofDoclet_keeps`).
-/

namespace AmbientDecl

open List

namespace Symbol

/-- What only doclets of a kind say touches neither the longname, the kind nor the name. -/
lemma withDetail_keeps {d : Doclet} {s t : Symbol} (h : (withDetail d s).result = .ok t) :
    t.longname = s.longname ∧ t.kind = s.kind ∧ t.name = s.name ∧
      t.synthesized = s.synthesized := by
  unfold withDetail at h
  split at h
  · obtain rfl := Run.result_pure.mp h
    exact ⟨rfl, rfl, rfl, rfl⟩
  · split at h <;>
    · obtain ⟨_, _, h⟩ := Run.result_bind.mp h
      obtain rfl := Run.result_pure.mp h
      exact ⟨rfl, rfl, rfl, rfl⟩
  · obtain ⟨e, _, h⟩ := Run.result_bind.mp h
    obtain rfl := Run.result_pure.mp h
    exact ⟨rfl, rfl, rfl, rfl⟩
  · obtain rfl := Run.result_pure.mp h
    exact ⟨rfl, rfl, rfl, rfl⟩

/-- The symbol of a doclet has its longname and the kind that it documents. -/
lemma ofDoclet_keeps {d : Doclet} {s : Symbol} (h : (ofDoclet d).result = .ok s) :
    s.longname = d.longname ∧ s.kind = d.symbolKind := by
  obtain ⟨base, hbase, hs⟩ := Run.result_bind.mp h
  obtain ⟨name, _, hname⟩ := Run.result_bind.mp hbase
  obtain rfl := Run.result_pure.mp hname
  obtain ⟨hlong, hkind, _⟩ := withDetail_keeps hs
  exact ⟨hlong, hkind⟩

end Symbol

namespace Census

variable {filter : Option DocletFilter} {c c' : Census} {d : Doclet}

/-- A doclet that takes no part in the tree: a package or one of a file. -/
def isMute (d : Doclet) : Bool := d.isPackage || d.isFile

/-- **What one doclet does to the census.** -/
lemma add_cases (h : (c.add filter d).result = .ok c') :
    (isRejected filter d = true ∧ c' = { c with rejected := c.rejected ++ [d.longname] }) ∨
    (isRejected filter d = false ∧ d.isPackage = true ∧
      c' = { c with packages := c.packages ++ [d.longname] }) ∨
    (isRejected filter d = false ∧ d.isPackage = false ∧ d.isFile = true ∧ c' = c) ∨
    (isRejected filter d = false ∧ isMute d = false ∧ c.has d.longname = true ∧
      c' = { c with symbols := queue d c.symbols }) ∨
    (isRejected filter d = false ∧ isMute d = false ∧ c.has d.longname = false ∧
      ∃ s, (Symbol.ofDoclet d).result = .ok s ∧
        c' = { c with symbols := c.symbols ++ [{ s with doclets := [d] }] }) := by
  obtain ⟨_, _, h⟩ := Run.result_bind.mp h
  rw [Run.result_noteAll_bind] at h
  cases hr : isRejected filter d with
  | true =>
    simp only [hr, if_true, Run.result_pure] at h
    exact Or.inl ⟨rfl, h.symm⟩
  | false =>
    right
    simp only [hr, Bool.false_eq_true, if_false] at h
    cases hp : d.isPackage with
    | true =>
      simp only [hp, if_true, Run.result_pure] at h
      exact Or.inl ⟨rfl, rfl, h.symm⟩
    | false =>
      right
      simp only [hp, Bool.false_eq_true, if_false] at h
      cases hf : d.isFile with
      | true =>
        simp only [hf, if_true, Run.result_pure] at h
        exact Or.inl ⟨rfl, rfl, rfl, h.symm⟩
      | false =>
        right
        have hm : isMute d = false := by simp [isMute, hp, hf]
        simp only [hf, Bool.false_eq_true, if_false] at h
        cases hh : c.has d.longname with
        | true =>
          simp only [hh, if_true, Run.result_pure] at h
          exact Or.inl ⟨rfl, hm, rfl, h.symm⟩
        | false =>
          simp only [hh, Bool.false_eq_true, if_false] at h
          obtain ⟨s, hs, h⟩ := Run.result_bind.mp h
          simp only [Run.result_pure] at h
          exact Or.inr ⟨rfl, hm, rfl, s, hs, h.symm⟩

/-- A longname has a symbol exactly when one of the symbols has it. -/
lemma has_iff {longname : String} :
    c.has longname = true ↔ longname ∈ c.symbols.map Symbol.longname := by
  simp [has, find?]

@[simp] lemma longname_queue (d : Doclet) (symbols : List Symbol) :
    (queue d symbols).map Symbol.longname = symbols.map Symbol.longname := by
  simp only [queue, map_map]
  apply map_congr_left
  intro s _
  simp only [Function.comp_apply]
  split <;> rfl

/-- One doclet keeps the longnames of the symbols distinct. -/
lemma nodup_add (hc : (c.symbols.map Symbol.longname).Nodup)
    (h : (c.add filter d).result = .ok c') : (c'.symbols.map Symbol.longname).Nodup := by
  rcases add_cases h with ⟨_, rfl⟩ | ⟨_, _, rfl⟩ | ⟨_, _, _, rfl⟩ | ⟨_, _, _, rfl⟩ |
    ⟨_, _, hnew, s, hs, rfl⟩
  · exact hc
  · exact hc
  · exact hc
  · rw [longname_queue]
    exact hc
  · have hfresh : d.longname ∉ c.symbols.map Symbol.longname := by
      rw [← has_iff, hnew]
      simp
    rw [map_append, map_singleton, (Symbol.ofDoclet_keeps hs).1]
    exact Nodup.append hc (nodup_singleton _) (by simpa using hfresh)

lemma addAll_append (front rest : List Doclet) : ∀ c,
    addAll filter c (front ++ rest) = addAll filter c front >>= fun c' =>
      addAll filter c' rest := by
  induction front with
  | nil => intro c; simp only [nil_append, addAll, pure_bind]
  | cons d front ih => intro c; simp only [cons_append, addAll, ih, bind_assoc]

/-- **Induction over the pass**: what the empty census has and one more doclet keeps, every census
has. -/
lemma ofDoclets_induct {P : List Doclet → Census → Prop} (hempty : P [] empty)
    (hadd : ∀ {doclets : List Doclet} {d : Doclet} {c c' : Census},
      (ofDoclets filter doclets).result = .ok c → P doclets c → (c.add filter d).result = .ok c' →
        P (doclets ++ [d]) c') :
    ∀ {doclets : List Doclet} {c : Census}, (ofDoclets filter doclets).result = .ok c →
      P doclets c := by
  intro doclets
  induction doclets using reverseRecOn with
  | nil =>
    intro c h
    rw [← Run.result_pure.mp h]
    exact hempty
  | append_singleton front d ih =>
    intro c h
    rw [ofDoclets, addAll_append] at h
    obtain ⟨before, hbefore, h⟩ := Run.result_bind.mp h
    obtain ⟨after, hlast, h⟩ := Run.result_bind.mp h
    rw [Run.result_pure.mp h] at hlast
    exact hadd hbefore (ih hbefore) hlast

/-- **One symbol for each longname.** -/
lemma nodup_ofDoclets {doclets : List Doclet} (h : (ofDoclets filter doclets).result = .ok c) :
    (c.symbols.map Symbol.longname).Nodup :=
  ofDoclets_induct (P := fun _ c => (c.symbols.map Symbol.longname).Nodup) nodup_nil
    (fun _ => nodup_add) h

end Census

end AmbientDecl

import AmbientDecl.Run
import Mathlib.Data.List.Perm.Basic
import Mathlib.Tactic.Common

/-!
# Taking runs apart

A stage of a compilation is a `do` block over `Run`. The lemmas here take one apart without
opening the monad again.

**Success.** A sequence succeeds exactly when each of its parts does (`Run.result_bind`), and
what a run only writes into the journal never stops it (`Run.result_noteAll_bind`,
`Run.result_reach`). A diagnostic stops the run exactly when it is fatal
(`Run.result_report`).

**Reports.** As long as a run goes on, its diagnostics are recoverable. It ends with a fatal
diagnostic, which is then the last one, or with a failure that no diagnostic tells about.
`Run.Orderly P E` says this of a run whose diagnostics satisfy `P` and whose other failures are
among `E`. Orderly runs one after another are orderly (`Orderly.bind`).

**Agreement.** Two runs agree if both fail, or both succeed with results in a relation and have the
same diagnostics in some order. Which failure ends a run and what else is in its journal does not
count. Runs that agree stage by stage agree (`Agree.bind`), and two stages that do not depend on
each other may come in either order (`agree_comm`).
-/

namespace AmbientDecl.Run

variable {e : Failure} (tasks : List Task) (m : Milestone)

variable {α β : Type}

/-- A sequence succeeds exactly when its parts do, and gives what the last part gives. -/
lemma result_bind {x : Run α} {f : α → Run β} {b : β} :
    (x >>= f).result = .ok b ↔ ∃ a, x.result = .ok a ∧ (f a).result = .ok b := by
  obtain ⟨journal, e | a⟩ := x
  · simp
  · simp

/-- A sequence fails exactly when a part of it does, after those before it have succeeded. -/
lemma result_bind_eq_error {x : Run α} {f : α → Run β} : (x >>= f).result = .error e ↔
      x.result = .error e ∨ ∃ a, x.result = .ok a ∧ (f a).result = .error e := by
  obtain ⟨journal, e' | a⟩ := x
  · simp
  · simp

@[simp] lemma result_pure {a b : α} : (pure a : Run α).result = .ok b ↔ a = b := by
  simp

@[simp] lemma result_reach : (reach m).result = .ok () := rfl

@[simp] lemma result_fail {a : α} : (fail e : Run α).result = .ok a ↔ False := by
  simp [fail]

/-- A diagnostic lets the run go on exactly when it is not fatal. -/
lemma result_report {d : Diagnostic} : (report d).result = .ok () ↔ d.isFatal = false := by
  unfold report
  cases d.isFatal <;> simp

/-- What a run only notes beforehand does not change its result. -/
@[simp] lemma result_noteAll_bind {entries : List Entry} {f : Unit → Run β} :
    (noteAll entries >>= f).result = (f ()).result := rfl

@[simp] lemma result_attempt_bind {t : Task} {f : Unit → Run β} :
    (attempt t >>= f).result = (f ()).result := rfl

@[simp] lemma result_attemptAll_bind {tasks : List Task} {f : Unit → Run β} :
    (attemptAll tasks >>= f).result = (f ()).result := rfl

@[simp] lemma result_reach_bind {m : Milestone} {f : Unit → Run β} :
    (reach m >>= f).result = (f ()).result := rfl

@[simp] lemma diagnosticsOf_tasks : diagnosticsOf (tasks.map Entry.task) = [] := by
  simp [diagnosticsOf, Entry.diagnostic?]

variable {c : Capacity} {entry : Entry} {journal : List Entry} {result : Except Failure α}

/-- A run ends with the first entry that the machine does not carry out. -/
lemma on_refused {r : Refusal} (h : entry.refusal? c = some r) :
    (⟨entry :: journal, result⟩ : Run α).on c = ⟨[entry], .error (.refused r)⟩ := by
  simp [on, refusedIn, h]

lemma on_carried (h : entry.refusal? c = none) : (⟨entry :: journal, result⟩ : Run α).on c =
    ⟨entry :: ((⟨journal, result⟩ : Run α).on c).journal,
      ((⟨journal, result⟩ : Run α).on c).result⟩ := by
  simp only [on, refusedIn, h]
  cases refusedIn c journal <;> rfl

lemma refusedIn_eq_none : refusedIn c journal = none ↔
    ∀ entry ∈ journal, entry.refusal? c = none := by
  induction journal with
  | nil => simp [refusedIn]
  | cons entry rest ih =>
    rw [refusedIn]
    cases h : entry.refusal? c with
    | none => simp [h, ih]
    | some r => simp [h]

/-- **What becomes of a run on a machine**: nothing else than without limits if the machine carries
every entry out, and otherwise it is refused. -/
lemma on_cases (c : Capacity) (x : Run α) :
    ((∀ entry ∈ x.journal, entry.refusal? c = none) ∧ x.on c = x) ∨
      ¬ (∀ entry ∈ x.journal, entry.refusal? c = none) ∧
        ∃ r, (x.on c).result = .error (.refused r) := by
  rw [← refusedIn_eq_none, on]
  cases refusedIn c x.journal with
  | none => exact .inl ⟨rfl, rfl⟩
  | some p => exact .inr ⟨by simp, p.2, rfl⟩

lemma on_nil : (⟨[], result⟩ : Run α).on c = ⟨[], result⟩ := rfl

/-- A result that is looked at through `Except.toOption`. -/
lemma result_of_toOption {x : Run α} {a : α} (h : x.result.toOption = some a) :
    x.result = .ok a := by
  cases hx : x.result with
  | error e => simp [hx, Except.toOption] at h
  | ok b => simpa [hx, Except.toOption] using h

lemma toOption_bind {x : Run α} {f : α → Option β} {b : β} :
    x.result.toOption.bind f = some b ↔ ∃ a, x.result = .ok a ∧ f a = some b := by
  cases x.result <;> simp [Except.toOption]

lemma toOption_map {x : Run α} {f : α → β} {b : β} :
    x.result.toOption.map f = some b ↔ ∃ a, x.result = .ok a ∧ f a = b := by
  cases x.result <;> simp [Except.toOption]

lemma diagnostics_bind {x : Run α} {a : α} (h : x.result = .ok a) (f : α → Run β) :
    (x >>= f).diagnostics = x.diagnostics ++ (f a).diagnostics := by
  obtain ⟨journal, e | b⟩ := x
  · simp at h
  · simp only [Except.ok.injEq] at h
    subst h
    simp [diagnostics, diagnosticsOf]

lemma diagnostics_attemptAll_bind (f : Unit → Run β) :
    (attemptAll tasks >>= f).diagnostics = (f ()).diagnostics := by
  rw [diagnostics_bind rfl]
  simp [attemptAll, noteAll, diagnostics]

lemma result_bind_ok {x : Run α} {a : α} (h : x.result = .ok a) (f : α → Run β) :
    (x >>= f).result = (f a).result := by
  obtain ⟨journal, e | b⟩ := x
  · simp at h
  · simp only [Except.ok.injEq] at h
    subst h
    simp

lemma result_bind_error {x : Run α} (h : x.result = .error e) (f : α → Run β) :
    (x >>= f).result = .error e := by
  obtain ⟨journal, e' | b⟩ := x
  · simpa using h
  · simp at h

lemma bind_congr_ok {x : Run α} {f g : α → Run β} (h : ∀ a, x.result = .ok a → f a = g a) :
    x >>= f = x >>= g := by
  obtain ⟨journal, e | a⟩ := x
  · rfl
  · rw [ok_bind, ok_bind, h a rfl]

section Orderly

variable {P : Diagnostic → Prop} {E : Failure → Prop} {x : Run α}

/-- The run reports only what satisfies `P`, goes on after recoverable diagnostics, ends with the
first fatal one, and fails without a diagnostic only for a reason in `E`. -/
structure Orderly (P : Diagnostic → Prop) (E : Failure → Prop) (x : Run α) : Prop where
  reports : ∀ d ∈ x.diagnostics, P d
  goes_on : ∀ a, x.result = .ok a → ∀ d ∈ x.diagnostics, d.severity = .recoverable
  ends : ∀ d, x.result = .error (.fatal d) → d.severity = .fatal ∧
    ∃ before, x.diagnostics = before ++ [d] ∧ ∀ b ∈ before, b.severity = .recoverable
  fails : ∀ e, x.result = .error e → (∃ d, e = .fatal d) ∨ E e

lemma Orderly.mono {Q : Diagnostic → Prop} {F : Failure → Prop} (hx : Orderly P E x)
    (hP : ∀ d, P d → Q d) (hE : ∀ e, E e → F e) : Orderly Q F x where
  reports := fun d hd => hP d (hx.reports d hd)
  goes_on := hx.goes_on
  ends := hx.ends
  fails := fun e he => (hx.fails e he).imp id (hE e)

/-- A run that reports only what can be worked around does not end with a report. -/
lemma Orderly.fails_silently (hx : Orderly P E x) (hP : ∀ d, P d → d.severity = .recoverable)
    (he : x.result = .error e) : E e ∧ ∀ d, e ≠ .fatal d := by
  have hfatal : ∀ d, e ≠ .fatal d := by
    rintro d rfl
    obtain ⟨hsevere, before, hdiagnostics, _⟩ := hx.ends d he
    have hrec := hP d (hx.reports d (by simp [hdiagnostics]))
    simp [hsevere] at hrec
  refine ⟨(hx.fails e he).resolve_left ?_, hfatal⟩
  rintro ⟨d, hd⟩
  exact hfatal d hd

/-- A run without diagnostics that succeeds. -/
lemma orderly_silent {a : α} (hd : x.diagnostics = []) (hr : x.result = .ok a) : Orderly P E x := by
  refine ⟨?_, ?_, ?_, ?_⟩
  · simp [hd]
  · simp [hd]
  · simp [hr]
  · simp [hr]

lemma orderly_pure (a : α) : Orderly P E (pure a) :=
  orderly_silent rfl rfl

lemma orderly_reach : Orderly P E (reach m) :=
  orderly_silent rfl rfl

lemma orderly_attemptAll : Orderly P E (attemptAll tasks) :=
  orderly_silent (diagnosticsOf_tasks tasks) rfl

lemma orderly_fail (hfatal : ∀ d, e ≠ .fatal d) (he : E e) : Orderly P E (fail e : Run α) := by
  refine ⟨?_, ?_, ?_, ?_⟩
  · simp [fail, diagnostics, diagnosticsOf]
  · simp [fail]
  · rintro d hd
    exact absurd (Except.error.inj hd) (hfatal d)
  · rintro e' he'
    exact Or.inr (Except.error.inj he' ▸ he)

lemma orderly_report {d : Diagnostic} (hd : P d) : Orderly P E (report d) := by
  have hdiag : (report d).diagnostics = [d] := rfl
  cases hs : d.severity with
  | recoverable =>
    have hr : (report d).result = .ok () := by simp [report, Diagnostic.isFatal, hs]
    refine ⟨?_, ?_, ?_, ?_⟩
    · simpa [hdiag] using hd
    · intro _ _
      simpa [hdiag] using hs
    · simp [hr]
    · simp [hr]
  | fatal =>
    have hr : (report d).result = .error (.fatal d) := by simp [report, Diagnostic.isFatal, hs]
    refine ⟨?_, ?_, ?_, ?_⟩
    · simpa [hdiag] using hd
    · simp [hr]
    · rintro d' hd'
      obtain rfl : d = d' := by simpa [hr] using hd'
      exact ⟨hs, [], hdiag, by simp⟩
    · rintro e he
      obtain rfl : .fatal d = e := by simpa [hr] using he
      exact Or.inl ⟨d, rfl⟩

/-- Entries that are only noted must not hold a fatal diagnostic. -/
lemma orderly_noteAll {entries : List Entry}
    (h : ∀ d ∈ diagnosticsOf entries, P d ∧ d.severity = .recoverable) :
    Orderly P E (noteAll entries) where
  reports := fun d hd => (h d hd).1
  goes_on := fun _ _ d hd => (h d hd).2
  ends := by
    rintro d hd
    cases hd
  fails := by
    rintro e he
    cases he

lemma diagnostics_bind_error (h : x.result = .error e) (f : α → Run β) :
    (x >>= f).diagnostics = x.diagnostics := by
  obtain ⟨journal, e' | a⟩ := x
  · rfl
  · simp at h

/-- **Orderly runs one after another are orderly.** -/
lemma Orderly.bind {f : α → Run β} (hx : Orderly P E x)
    (hf : ∀ a, x.result = .ok a → Orderly P E (f a)) : Orderly P E (x >>= f) := by
  cases h : x.result with
  | error e =>
    have hdiag := diagnostics_bind_error h f
    have hr := result_bind_error h f
    refine ⟨?_, ?_, ?_, ?_⟩
    · rw [hdiag]
      exact hx.reports
    · simp [hr]
    · rintro d hd
      obtain rfl : e = .fatal d := by simpa [hr] using hd
      rw [hdiag]
      exact hx.ends d h
    · rintro e' he'
      obtain rfl : e = e' := by simpa [hr] using he'
      exact hx.fails e h
  | ok a =>
    have hdiag := diagnostics_bind h f
    have hr := result_bind_ok h f
    have hfa := hf a h
    refine ⟨?_, ?_, ?_, ?_⟩
    · rw [hdiag]
      rintro d hd
      exact (List.mem_append.mp hd).elim (hx.reports d) (hfa.reports d)
    · rintro b hb d hd
      rw [hr] at hb
      rw [hdiag] at hd
      exact (List.mem_append.mp hd).elim (hx.goes_on a h d) (hfa.goes_on b hb d)
    · rintro d hd
      rw [hr] at hd
      obtain ⟨hfatal, before, hbefore, hrec⟩ := hfa.ends d hd
      refine ⟨hfatal, x.diagnostics ++ before, by rw [hdiag, hbefore, List.append_assoc], ?_⟩
      rintro b hb
      exact (List.mem_append.mp hb).elim (hx.goes_on a h b) (hrec b)
    · rintro e he
      rw [hr] at he
      exact hfa.fails e he

lemma Orderly.andPure {f : α → β} (hx : Orderly P E x) : Orderly P E (x >>= fun a => pure (f a)) :=
  hx.bind fun _ _ => orderly_pure _

lemma Orderly.attempting (hx : Orderly P E x) (t : Task) : Orderly P E (do attempt t; x) :=
  (orderly_silent rfl rfl).bind fun _ _ => hx

end Orderly

section Agree

/-- Both runs fail, or both succeed with related results and the same diagnostics in some order. -/
inductive Agree (R : α → β → Prop) (x : Run α) (y : Run β) : Prop
  | success {a : α} {b : β} (left : x.result = .ok a) (right : y.result = .ok b) (related : R a b)
      (diagnostics : x.diagnostics.Perm y.diagnostics)
  | failure {e e' : Failure} (left : x.result = .error e) (right : y.result = .error e')

variable {γ δ : Type} {R : α → β → Prop} {S : γ → δ → Prop} {x : Run α} {y : Run β}

lemma agree_pure {a : α} {b : β} (h : R a b) : Agree R (pure a) (pure b) :=
  .success rfl rfl h (.refl _)

lemma agree_reach (m' : Milestone) : Agree (fun _ _ => True) (reach m) (reach m') :=
  .success rfl rfl trivial (.refl _)

lemma agree_attemptAll (ts us : List Task) :
    Agree (fun _ _ => True) (attemptAll ts) (attemptAll us) :=
  .success rfl rfl trivial (by simp [attemptAll, noteAll, diagnostics])

lemma agree_self {R : α → α → Prop} (x : Run α) (h : ∀ a, x.result = .ok a → R a a) :
    Agree R x x := by
  cases hx : x.result with
  | error e => exact .failure hx hx
  | ok a => exact .success hx hx (h a hx) (.refl _)

/-- **Runs that agree stage by stage agree.** -/
lemma Agree.bind (h : Agree R x y) {f : α → Run γ} {g : β → Run δ}
    (hfg : ∀ a b, x.result = .ok a → y.result = .ok b → R a b → Agree S (f a) (g b)) :
    Agree S (x >>= f) (y >>= g) := by
  rcases h with ⟨hx, hy, hR, hdiag⟩ | ⟨hx, hy⟩
  · rcases hfg _ _ hx hy hR with ⟨hf, hg, hS, hdiag'⟩ | ⟨hf, hg⟩
    · refine .success ((result_bind_ok hx f).trans hf) ((result_bind_ok hy g).trans hg) hS ?_
      rw [diagnostics_bind hx, diagnostics_bind hy]
      exact hdiag.append hdiag'
    · exact .failure ((result_bind_ok hx f).trans hf) ((result_bind_ok hy g).trans hg)
  · exact .failure (result_bind_error hx f) (result_bind_error hy g)

lemma agree_bind_same {z : Run α} {f : α → Run γ} {g : α → Run δ}
    (hfg : ∀ a, z.result = .ok a → Agree S (f a) (g a)) : Agree S (z >>= f) (z >>= g) := by
  refine (agree_self z fun _ _ => rfl).bind ?_
  rintro a _ ha _ rfl
  exact hfg a ha

lemma Agree.trans {z : Run γ} {T : β → γ → Prop} (h : Agree R x y) (h' : Agree T y z)
    {U : α → γ → Prop} (hRT : ∀ a b c, R a b → T b c → U a c) : Agree U x z := by
  rcases h with ⟨hx, hy, hR, hdiag⟩ | ⟨hx, hy⟩
  · rcases h' with ⟨hy', hz, hT, hdiag'⟩ | ⟨hy', hz⟩
    · rw [hy, Except.ok.injEq] at hy'
      subst hy'
      exact .success hx hz (hRT _ _ _ hR hT) (hdiag.trans hdiag')
    · simp [hy] at hy'
  · rcases h' with ⟨hy', hz, hT, hdiag'⟩ | ⟨hy', hz⟩
    · simp [hy] at hy'
    · exact .failure hx hz

lemma Agree.mono {T : α → β → Prop} (h : Agree R x y)
    (hRT : ∀ a b, x.result = .ok a → y.result = .ok b → R a b → T a b) : Agree T x y := by
  rcases h with ⟨hx, hy, hR, hdiag⟩ | ⟨hx, hy⟩
  · exact .success hx hy (hRT _ _ hx hy hR) hdiag
  · exact .failure hx hy

/-- **Two stages that do not depend on each other may come in either order.** -/
lemma agree_comm (x : Run α) (y : Run β) {f : α → β → Run γ} {g : α → β → Run δ}
    (hfg : ∀ a b, x.result = .ok a → y.result = .ok b → Agree S (f a b) (g a b)) :
    Agree S (x >>= fun a => y >>= fun b => f a b) (y >>= fun b => x >>= fun a => g a b) := by
  cases hx : x.result with
  | error e =>
    cases hy : y.result with
    | error e' => exact .failure (result_bind_error hx _) (result_bind_error hy _)
    | ok b =>
      exact .failure (result_bind_error hx _)
        ((result_bind_ok hy _).trans (result_bind_error hx _))
  | ok a =>
    cases hy : y.result with
    | error e =>
      exact .failure ((result_bind_ok hx _).trans (result_bind_error hy _))
        (result_bind_error hy _)
    | ok b =>
      have hleft := (result_bind_ok hx fun a => y >>= fun b => f a b).trans (result_bind_ok hy _)
      have hright := (result_bind_ok hy fun b => x >>= fun a => g a b).trans (result_bind_ok hx _)
      rcases hfg a b hx hy with ⟨hf, hg, hS, hdiag⟩ | ⟨hf, hg⟩
      · refine .success (hleft.trans hf) (hright.trans hg) hS ?_
        rw [diagnostics_bind hx, diagnostics_bind hy, diagnostics_bind hy, diagnostics_bind hx,
          ← List.append_assoc, ← List.append_assoc]
        exact (List.perm_append_comm).append hdiag
      · exact .failure (hleft.trans hf) (hright.trans hg)

end Agree

end AmbientDecl.Run

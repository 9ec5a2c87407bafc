import AmbientDecl.Proofs.Diagnostics.Compile
import AmbientDecl.Proofs.Forest.Tally

/-!
# Failures without a diagnostic

A compilation is expected to give a text or to end with a fatal diagnostic. There are three ways
past this, and all are open with the settings of a run that is told nothing.

**Loading.** A record whose kind is an array or an object stops the run (`loadFrom_stops`).

**The census.** A version of too many digits cannot be compared, and a module needs a segment in its
longname to take its path from. `Census.Blocked` says that some doclet is of one of these sorts, and
`Census.blocked_iff` that the census comes to such a doclet then.

**The machine.** A run is refused by a machine that does not carry out one of its entries
(`Run.on_cases`).

`compileRecords_reports_iff` puts the three together: every other compilation succeeds or reports
why it does not.
-/

namespace AmbientDecl

open Run

lemma loadFrom_append (front rest : List Json.Value) : ∀ index,
    loadFrom index (front ++ rest) = loadFrom index front >>= fun doclets =>
      loadFrom (index + front.length) rest >>= fun more => pure (doclets ++ more) := by
  induction front with
  | nil =>
    intro index
    simp only [List.nil_append, loadFrom, pure_bind, List.length_nil, Nat.add_zero, bind_pure]
  | cons record front ih =>
    intro index
    have hindex : index + 1 + front.length = index + (record :: front).length := by
      simp only [List.length_cons]
      omega
    simp only [List.cons_append, loadFrom, ih, hindex, bind_assoc, pure_bind, List.append_assoc]

/-- Loading stops at a record whose kind is an array or an object. -/
lemma loadFrom_stops {index : Nat} {records : List Json.Value}
    (h : MeetsCompositeKind index records) :
    ∃ isArray, (loadFrom index records).result = .error (.compositeKind isArray) := by
  obtain ⟨front, record, rest, doclets, rfl, hfront, hkind⟩ := h
  obtain ⟨isArray, hrecord⟩ := loadRecord_composite (index + front.length) hkind
  have hstop : (loadFrom (index + front.length) (record :: rest)).result
      = .error (.compositeKind isArray) := by
    refine result_bind_error ?_ _
    rw [hrecord]
    rfl
  refine ⟨isArray, ?_⟩
  rw [loadFrom_append, result_bind_ok hfront]
  exact result_bind_error hstop _

namespace Census

variable {filter : Option DocletFilter} {c c' : Census}

/-- Some doclet cannot be read: its version cannot be compared, or it documents a module without a
path and no doclet before it has made a symbol of its longname. -/
def Blocked (filter : Option DocletFilter) (doclets : List Doclet) : Prop :=
  ∃ front d rest, doclets = front ++ d :: rest ∧
    ((filter.bind fun f => f.obstacle? d).isSome = true ∨
      takesPart filter d = true ∧ d.isUnnamedModule = true ∧
        ∀ b ∈ front, takesPart filter b = true → b.longname ≠ d.longname)

/-- The doclets before one that cannot be read decide whether the census knows its longname. -/
lemma blocks_iff {front : List Doclet} {d : Doclet}
    (h : (ofDoclets filter front).result = .ok c) : Blocks filter (c.has d.longname) d ↔
      ((filter.bind fun f => f.obstacle? d).isSome = true ∨
        takesPart filter d = true ∧ d.isUnnamedModule = true ∧
          ∀ b ∈ front, takesPart filter b = true → b.longname ≠ d.longname) := by
  have hknown : c.has d.longname = false ↔
      ∀ b ∈ front, takesPart filter b = true → b.longname ≠ d.longname := by
    rw [← Bool.not_eq_true, has_ofDoclets h]
    simp
  rw [Blocks, hknown, and_comm (b := d.isUnnamedModule = true)]

/-- **A census comes to a doclet that cannot be read exactly if there is one.** -/
lemma blocked_iff {doclets : List Doclet} :
    Blocked filter doclets ↔ MeetsBlock filter .empty doclets := by
  constructor
  · rintro ⟨front, d, rest, rfl, hblocks⟩
    cases hfront : (addAll filter .empty front).result with
    | ok c => exact ⟨front, d, rest, c, rfl, hfront, (blocks_iff hfront).mpr hblocks⟩
    | error e =>
      -- the census has ended before, at a doclet of the front
      obtain ⟨⟨front', b, back, c, hsplit, hc, hb⟩, _⟩ :=
        (orderly_addAll front .empty (List.Subset.refl _)).fails_silently
          (fun _ hd => hd.recoverable) hfront
      exact ⟨front', b, back ++ d :: rest, c, by rw [hsplit, List.append_assoc]; rfl, hc, hb⟩
  · rintro ⟨front, d, rest, c, rfl, hfront, hblocks⟩
    exact ⟨front, d, rest, rfl, (blocks_iff hfront).mp hblocks⟩

/-- A doclet that cannot be read is not read, and nothing is reported. -/
lemma draft_stops {known : Bool} {d : Doclet} (h : Blocks filter known d) :
    ∃ e, (draft filter known d).result = .error e := by
  cases hobstacle : filter.bind fun f => f.obstacle? d with
  | some run =>
    refine ⟨.version run, result_bind_error ?_ _⟩
    simp only [checkVersion, hobstacle]
    rfl
  | none =>
    obtain ⟨htakes, rfl, hunnamed⟩ := h.resolve_left (by simp [hobstacle])
    have hversion : (checkVersion filter d).result = .ok () := by
      simp only [checkVersion, hobstacle, result_pure]
    obtain ⟨hkind, hsplit⟩ : d.symbolKind = .moduleDecl ∧ Longname.split d.longname = [] := by
      simpa [Doclet.isUnnamedModule] using hunnamed
    have hname : (Symbol.nameOf d).result = .error .unnamedModule := by
      simp only [Symbol.nameOf, hkind, if_true, Longname.modulePath?, hsplit]
      rfl
    have hsymbol : (Symbol.ofDoclet d).result = .error .unnamedModule :=
      result_bind_error (result_bind_error hname _) _
    refine ⟨.unnamedModule, ?_⟩
    rw [draft, result_bind_ok hversion, result_noteAll_bind, if_pos (by simp [htakes])]
    exact result_bind_error hsymbol _

lemma ofDoclets_stops {doclets : List Doclet} (h : Blocked filter doclets) :
    ∃ e, (ofDoclets filter doclets).result = .error e ∧ ∀ d, e ≠ .fatal d := by
  obtain ⟨front, d, rest, c, rfl, hfront, hblocks⟩ := blocked_iff.mp h
  obtain ⟨e, he⟩ := draft_stops hblocks
  have hadd : (c.add filter d).result = .error e := by
    rw [add_eq]
    exact result_bind_error he _
  have hstop : (ofDoclets filter (front ++ d :: rest)).result = .error e := by
    rw [ofDoclets, addAll_append, result_bind_ok hfront]
    exact result_bind_error hadd _
  exact ⟨e, hstop, ((orderly_addAll _ .empty (List.Subset.refl _)).fails_silently
    (fun _ hd => hd.recoverable) hstop).2⟩

end Census

/-- The filter of a run that is told nothing. -/
def DocletFilter.standard : DocletFilter := ⟨.standard, .semantic⟩

lemma result_filterFor_standard :
    (filterFor .standard none).result = .ok DocletFilter.standard := rfl

lemma compileRecords_stops {records : List Json.Value} {e : Failure}
    (h : (loadDoclets records >>= compileAccepted .standard none).result = .error e) :
    (compileRecords .standard none records).result = .error e := by
  obtain ⟨last, _, heq⟩ := compileLoaded_eq .standard none (loadDoclets records)
  rw [compileRecords, heq]
  exact result_bind_error h last

lemma compileRecords_reports (records : List Json.Value) :
    ((∃ text, (compileRecords .standard none records).result = .ok text) ∨
      ∃ d, (compileRecords .standard none records).result = .error (.fatal d)) ↔
      ¬ MeetsCompositeKind 0 records ∧ ∀ doclets, (loadDoclets records).result = .ok doclets →
          ¬ Census.Blocked (some DocletFilter.standard) doclets := by
  constructor
  · intro hreports
    have hnot : ∀ e, (∀ d, e ≠ .fatal d) →
        (loadDoclets records >>= compileAccepted .standard none).result ≠ .error e := by
      intro e hfatal he
      have hstops := compileRecords_stops he
      rcases hreports with ⟨text, htext⟩ | ⟨d, hd⟩
      · simp [hstops] at htext
      · exact hfatal d (by simpa [hstops] using hd)
    constructor
    · intro hkind
      obtain ⟨isArray, hstop⟩ := loadFrom_stops hkind
      exact hnot (.compositeKind isArray) (by simp) (result_bind_error hstop _)
    · intro doclets hdoclets hblocked
      obtain ⟨e, he, hfatal⟩ := Census.ofDoclets_stops hblocked
      have hforest : (symbolForest (some DocletFilter.standard) doclets).result = .error e :=
        result_bind_error (result_bind_error he _) _
      refine hnot e hfatal ?_
      rw [result_bind_ok hdoclets, compileAccepted, result_bind_ok result_filterFor_standard]
      exact result_bind_error hforest _
  · rintro ⟨hkind, hblocked⟩
    cases h : (compileRecords .standard none records).result with
    | ok text => exact Or.inl ⟨text, rfl⟩
    | error e =>
      refine Or.inr ?_
      rcases (orderly_compileRecords .standard none records).fails e h with ⟨d, rfl⟩ | hsilent
      · exact ⟨d, rfl⟩
      · rcases hsilent with hmeets | ⟨doclets, hdoclets, hstops⟩
        · exact absurd hmeets hkind
        · rcases hstops with ⟨e', he'⟩ | ⟨filter, hfilter, hmeets⟩
          · simp [result_filterFor_standard] at he'
          · obtain rfl : DocletFilter.standard = filter := by
              simpa [result_filterFor_standard] using hfilter
            exact absurd (Census.blocked_iff.mpr hmeets) (hblocked doclets hdoclets)

/-- A record whose kind is an array, otherwise a plain one. -/
def arrayKindRecord : Json.Value :=
  .object [("kind", .array []), ("name", .string "x"), ("longname", .string "x")]

end AmbientDecl

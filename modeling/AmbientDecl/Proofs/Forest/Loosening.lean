import AmbientDecl.Proofs.Arrival.Planting
import AmbientDecl.Proofs.Forest.Rooted
import AmbientDecl.Proofs.Forest.Tally

/-!
# A looser filter loses no symbol

Two runs over the same doclets, the second with a filter that accepts whatever the first one
accepts. Where all doclets of a longname name the same parent, a documented symbol that has a parent
in the first run has one in the second.

**Attachment.** A symbol of the census has a parent in the forest unless it was left out with an
ancestor (`attached_iff`).

**Chains.** `Census.Looser` is how the censuses of the two runs compare. A chain of membership that
reaches a longname left out by the looser filter reaches one left out by the tighter filter, no
later (`Looser.reachesLeftOut`). The walks are bounded by the sizes of the two censuses, which
differ; as no chain closes, the bound of the tighter census is enough for any walk in it
(`reachesLeftOut_of_loopFrom`).

**Settings.** `Settings.Loosens` compares settings field by field, and makes filters that compare
(`Settings.Loosens.accepts`).
-/

namespace AmbientDecl

open List Bool Planting DocletFilter Census

/-- The symbol of a longname has a parent. -/
def Forest.Attached (f : Forest) (longname : String) : Prop :=
  ∃ id parent, f.idOf? longname = some id ∧ f.parentOf? id = some parent

namespace Planting

variable {p : Planting}

/-- The parent of a symbol in the forest is the one it is linked to, in the tree or not. -/
lemma parentOf?_forest (hp : Tidy p) {id : Nat} (hpos : 0 < id) (hle : id ≤ p.symbols.length) :
    p.forest.parentOf? id = p.parent? id := by
  have hforest := consistent_forest hp
  by_cases hid : id ∈ p.forest.root.ids
  · obtain ⟨t, ht, rfl⟩ := SymbolTree.mem_ids.mp hid
    have hnode : t ∈ p.forest.root.nodes := by
      rw [SymbolTree.walk_eq] at ht
      refine (mem_cons.mp ht).resolve_left ?_
      rintro rfl
      simp [forest, tree, treeAt] at hpos
    obtain ⟨s, hs, hchild⟩ := SymbolTree.mem_nodes_iff.mp hnode
    rw [Forest.parentOf?_child hforest.ids_nodup hs hchild]
    -- the tree is what folding leaves of the planted one
    obtain ⟨u, hu, rfl⟩ := SymbolTree.mem_walk_absorb hs
    rw [SymbolTree.children_absorb] at hchild
    obtain ⟨v, hv, rfl⟩ := mem_map.mp hchild
    have hlink : v.id ∈ p.childrenOf u.id := by
      rw [← (children_of_mem_tree hp hu).2]
      exact mem_map_of_mem (mem_of_mem_filter hv)
    rw [SymbolTree.id_absorb, SymbolTree.id_absorb]
    exact ((parent?_eq_some hp).mpr (mem_childrenOf.mp hlink)).symm
  · have hstray : ⟨id, symbolLeft p id, p.parent? id, p.folded.childrenOf id⟩ ∈ p.forest.strays :=
      mem_straysOf.mpr ⟨hid, hpos, hle, rfl, rfl, rfl⟩
    exact Forest.parentOf?_stray hforest hstray

end Planting

namespace Census

variable {c : Census} {s : Symbol}

lemma placementOf_eq_dropped : placementOf c s = .dropped ↔ c.isDropped s = true := by
  rw [placementOf]
  split
  case isTrue hdropped => simp [hdropped]
  case isFalse hkept =>
    refine iff_of_false ?_ hkept
    split
    · simp
    · split
      · simp
      · split <;> simp

/-- A symbol of the census belongs to something unless it was left out with an ancestor. -/
lemma parent?_isSome {i : Nat} (hs : c.symbols[i]? = some s) :
    (∃ a, c.parent? (i + 1) = some a) ↔ c.isDropped s = false := by
  rw [← not_eq_true, ← placementOf_eq_dropped, parent?, hs, Option.bind_some]
  cases placementOf c s <;> simp

/-- **A symbol of the census has a parent in the forest unless it was left out with an
ancestor.** -/
lemma attached_iff (hc : (c.symbols.map Symbol.longname).Nodup) (hs : s ∈ c.symbols) :
    c.planting.forest.Attached s.longname ↔ c.isDropped s = false := by
  obtain ⟨htidy, hgrows⟩ := tidy_planting hc
  obtain ⟨i, hi⟩ := mem_iff_getElem?.mp hs
  have hlt : i < c.symbols.length := (List.getElem?_eq_some_iff.mp hi).1
  have hle : i + 1 ≤ c.planting.symbols.length := Nat.le_trans hlt hgrows.length_le
  have hid : c.planting.forest.idOf? s.longname = some (i + 1) :=
    (lookup_index _ _).trans (hgrows.idOf? (idOf?_of_getElem? hc hi))
  rw [← parent?_isSome hi]
  constructor
  · rintro ⟨id, parent, hid', hparent⟩
    obtain rfl : i + 1 = id := by simpa [hid] using hid'
    rw [parentOf?_forest htidy (Nat.succ_pos i) hle] at hparent
    obtain ⟨a, ha, _⟩ := parent?_of_link hc hlt ((parent?_eq_some htidy).mp hparent)
    exact ⟨a, ha⟩
  · rintro ⟨a, ha⟩
    obtain ⟨x, hlink, _⟩ := link_of_parent? hc ha
    refine ⟨i + 1, x, hid, ?_⟩
    rw [parentOf?_forest htidy (Nat.succ_pos i) hle]
    exact (parent?_eq_some htidy).mpr hlink

lemma has_eq_false_iff {longname : String} : c.has longname = false ↔ c.find? longname = none := by
  simp [has]

/-- A walk along a chain ends at a longname left out, or goes on at the parent of a symbol. -/
lemma reachesLeftOut_succ {leftOut : List String} {steps : Nat} {memberof : Option String} :
    c.reachesLeftOut leftOut (steps + 1) memberof = true ↔
      ∃ longname, memberof = some longname ∧ longname ≠ "" ∧ (longname ∈ leftOut ∨
        ∃ s, c.find? longname = some s ∧ c.reachesLeftOut leftOut steps s.memberof? = true) := by
  rw [reachesLeftOut]
  cases memberof with
  | none => simp [nonempty?]
  | some longname =>
    by_cases hblank : longname = ""
    · simp [nonempty?, Option.filter, hblank]
    · cases hfind : c.find? longname <;> simp [nonempty?, Option.filter, hblank, hfind]

/-- A walk with `steps` left has passed `seen`, which are distinct longnames of the census. -/
structure Passed (c : Census) (steps : Nat) (seen : List String) : Prop where
  nodup : seen.Nodup
  known : seen ⊆ c.symbols.map Symbol.longname
  length : steps + seen.length = c.symbols.length + 2

lemma Passed.start (hs : s ∈ c.symbols) : c.Passed (c.symbols.length + 1) [s.longname] :=
  ⟨nodup_singleton _, by simpa using ⟨s, hs, rfl⟩, by simp⟩

/-- The bound is not met: more longnames would have been passed than there are. -/
lemma Passed.ne_zero {steps : Nat} {seen : List String} (h : c.Passed steps seen) : steps ≠ 0 := by
  have hle := (h.nodup.subperm h.known).length_le
  have hlen := h.length
  rw [length_map] at hle
  omega

lemma Passed.cons {steps : Nat} {seen : List String} {longname : String}
    (h : c.Passed (steps + 1) seen)
    (hs : c.find? longname = some s) (hnew : longname ∉ seen) :
    c.Passed steps (longname :: seen) where
  nodup := nodup_cons.mpr ⟨hnew, h.nodup⟩
  known := by
    obtain ⟨hmem, rfl⟩ := longname_of_find? hs
    exact cons_subset.mpr ⟨mem_map_of_mem hmem, h.known⟩
  length := by
    rw [← h.length, length_cons]
    omega

/-- Along a chain that does not close, no walk needs more steps than there are symbols left. -/
lemma reachesLeftOut_of_loopFrom {leftOut : List String} : ∀ {steps : Nat} {seen : List String}
    {next : Option String}, c.Passed steps seen → c.loopFrom steps seen next = none →
      ∀ n, c.reachesLeftOut leftOut n next = true → c.reachesLeftOut leftOut steps next = true := by
  intro steps
  induction steps with
  | zero => exact fun hseen => absurd rfl hseen.ne_zero
  | succ steps ih =>
    intro seen next hseen hloop n hreach
    cases n with
    | zero => simp [reachesLeftOut] at hreach
    | succ n =>
      obtain ⟨longname, rfl, hblank, hleft | ⟨s, hs, hreach⟩⟩ := reachesLeftOut_succ.mp hreach
      · exact reachesLeftOut_succ.mpr ⟨longname, rfl, hblank, .inl hleft⟩
      · have hnew : longname ∉ seen := by
          intro hold
          simp [loopFrom, hs, hold] at hloop
        refine reachesLeftOut_succ.mpr ⟨longname, rfl, hblank, .inr ⟨s, hs, ?_⟩⟩
        exact ih (hseen.cons hs hnew) (by simpa [loopFrom, hs, hnew] using hloop) n hreach

/-- Where no chain closes, a symbol is left out if any walk up from it reaches a longname left
out. -/
lemma isDropped_of_reachesLeftOut (hcycles : c.checkCycles.result = .ok ()) (hs : s ∈ c.symbols)
    {n : Nat} (h : c.reachesLeftOut c.leftOut n s.memberof? = true) : c.isDropped s = true := by
  rcases result_checkCycles (c := c) with ⟨⟨e, herror⟩, _⟩ | ⟨_, hloops⟩
  · rw [herror] at hcycles
    cases hcycles
  · exact reachesLeftOut_of_loopFrom (.start hs) (hloops s hs) n h

/-- How the census of a run compares with that of a run over the same doclets with a looser
filter. -/
structure Looser (c c' : Census) : Prop where
  /-- No symbol is lost, and none names another parent. -/
  find : ∀ {longname s}, c.find? longname = some s →
    ∃ s', c'.find? longname = some s' ∧ s'.memberof? = s.memberof?
  /-- A symbol that is gained had a rejected doclet. -/
  gained : ∀ {longname}, c.find? longname = none → c'.has longname = true → longname ∈ c.leftOut
  leftOut : ∀ {longname}, longname ∈ c'.leftOut → longname ∈ c.leftOut

variable {filter filter' : Option DocletFilter} {doclets : List Doclet} {c' : Census}

/-- Of the filter, only its verdict on a doclet decides whether the doclet makes a symbol. -/
lemma takesPart_of_accepted {d : Doclet} (h : takesPart filter d = true)
    (haccepted : isRejected filter' d = false) : takesPart filter' d = true := by
  simp only [takesPart, and_eq_true, not_eq_true'] at h ⊢
  exact ⟨haccepted, h.2⟩

lemma looser_ofDoclets
    (hmemberof : ∀ a ∈ doclets, ∀ b ∈ doclets, a.longname = b.longname → a.memberof = b.memberof)
    (hlooser : ∀ d ∈ doclets, isRejected filter d = false → isRejected filter' d = false)
    (hc : (ofDoclets filter doclets).result = .ok c)
    (hc' : (ofDoclets filter' doclets).result = .ok c') : Looser c c' := by
  have htakes : ∀ d ∈ doclets, takesPart filter d = true → takesPart filter' d = true := by
    intro d hd htaken
    have haccepted : isRejected filter d = false := by
      simp only [takesPart, and_eq_true, not_eq_true'] at htaken
      exact htaken.1
    exact takesPart_of_accepted htaken (hlooser d hd haccepted)
  have hhas : ∀ {longname}, c.has longname = true → c'.has longname = true := by
    intro longname h
    obtain ⟨d, hd, htaken, hlongname⟩ := (has_ofDoclets hc longname).mp h
    exact (has_ofDoclets hc' longname).mpr ⟨d, hd, htakes d hd htaken, hlongname⟩
  constructor
  case find =>
    intro longname s hs
    obtain ⟨s', hs'⟩ := Option.isSome_iff_exists.mp (hhas (Option.isSome_of_eq_some hs))
    obtain ⟨hmem, hlongname⟩ := longname_of_find? hs
    obtain ⟨hmem', hlongname'⟩ := longname_of_find? hs'
    obtain ⟨d, hd, _, hname, hparent⟩ := first_ofDoclets hc hmem
    obtain ⟨d', hd', _, hname', hparent'⟩ := first_ofDoclets hc' hmem'
    refine ⟨s', hs', ?_⟩
    rw [hparent, hparent']
    refine hmemberof d' hd' d hd ?_
    rw [hname, hname', hlongname, hlongname']
  case gained =>
    intro longname hnone h
    obtain ⟨d, hd, htaken, hlongname⟩ := (has_ofDoclets hc' longname).mp h
    refine (mem_leftOut_ofDoclets hc).mpr ⟨⟨d, hd, ?_, hlongname⟩, has_eq_false_iff.mpr hnone⟩
    -- had it been accepted, it would have made a symbol
    by_contra hkept
    have hfound : c.has longname = true :=
      (has_ofDoclets hc longname).mpr
        ⟨d, hd, takesPart_of_accepted htaken (by simpa using hkept), hlongname⟩
    rw [has, hnone] at hfound
    cases hfound
  case leftOut =>
    intro longname h
    obtain ⟨⟨d, hd, hrejected, hlongname⟩, hnone⟩ := (mem_leftOut_ofDoclets hc').mp h
    refine (mem_leftOut_ofDoclets hc).mpr ⟨⟨d, hd, ?_, hlongname⟩, ?_⟩
    · by_contra hkept
      rw [hlooser d hd (by simpa using hkept)] at hrejected
      cases hrejected
    · by_contra hfound
      rw [hhas (by simpa using hfound)] at hnone
      cases hnone

/-- A walk that reaches a longname left out by the looser filter reaches one left out by the other,
at the latest where a symbol was gained. -/
lemma Looser.reachesLeftOut (h : Looser c c') : ∀ {steps : Nat} {memberof : Option String},
    c'.reachesLeftOut c'.leftOut steps memberof = true →
      c.reachesLeftOut c.leftOut steps memberof = true := by
  intro steps
  induction steps with
  | zero => simp [Census.reachesLeftOut]
  | succ steps ih =>
    intro memberof hreach
    obtain ⟨longname, rfl, hblank, hleft | ⟨s', hs', hreach⟩⟩ := reachesLeftOut_succ.mp hreach
    · exact reachesLeftOut_succ.mpr ⟨longname, rfl, hblank, .inl (h.leftOut hleft)⟩
    · refine reachesLeftOut_succ.mpr ⟨longname, rfl, hblank, ?_⟩
      cases hs : c.find? longname with
      | none => exact .inl (h.gained hs (Option.isSome_of_eq_some hs'))
      | some s =>
        obtain ⟨_, hsame, hparent⟩ := h.find hs
        obtain rfl := Option.some.inj (hs'.symm.trans hsame)
        exact .inr ⟨s, rfl, ih (hparent ▸ hreach)⟩

/-- **A symbol left out with an ancestor under the looser filter was left out under the other.** -/
lemma Looser.isDropped (h : Looser c c') (hcycles : c.checkCycles.result = .ok ()) {s s' : Symbol}
    (hs : s ∈ c.symbols) (hparent : s'.memberof? = s.memberof?)
    (hdropped : c'.isDropped s' = true) :
    c.isDropped s = true := by
  rw [Census.isDropped, hparent] at hdropped
  exact isDropped_of_reachesLeftOut hcycles hs (h.reachesLeftOut hdropped)

end Census

lemma Version.notNewer_trans {a b c : Version} (hab : a.notNewer b = true)
    (hbc : b.notNewer c = true) : a.notNewer c = true := by
  simp only [Version.notNewer, or_eq_true, and_eq_true, decide_eq_true_eq, beq_iff_eq] at *
  omega

/-- Settings that keep back no more: more may be private or undocumented, no further scope is
ignored, and the latest version is the same or, where versions are compared as such, not older. -/
structure Settings.Loosens (comparator : VersionComparator) (old new : Settings) : Prop where
  includePrivate : old.includePrivate = true → new.includePrivate = true
  includeUndocumented : old.includeUndocumented = true → new.includeUndocumented = true
  ignoreScopes : new.ignoreScopes ⊆ old.ignoreScopes
  latestVersion : new.since.latestVersion = old.since.latestVersion ∨
    comparator = .semantic ∧ ∀ latest, Version.ofText?
      (new.since.latestVersion.getD "") = some latest →
      ∃ before, Version.ofText? (old.since.latestVersion.getD "") = some before ∧
        before.notNewer latest = true

namespace DocletFilter

variable {filter : DocletFilter} {d : Doclet}

lemma accepts_iff : filter.accepts d = true ↔
    filter.plainRejection? d = none ∧ filter.rejectsVersion d = false := by
  rw [accepts, rejection?]
  cases filter.plainRejection? d <;> cases filter.rejectsVersion d <;> simp

lemma plainRejection?_eq_none : filter.plainRejection? d = none ↔
    d.isFile = false ∧ d.ignore = false ∧
      (d.undocumented = true → filter.settings.includeUndocumented = true) ∧
      (∀ s, d.scope = some s → s.name ∉ filter.settings.ignoreScopes) ∧
      (d.access = some .privateAccess → filter.settings.includePrivate = true) := by
  cases hscope : d.scope <;> simp [plainRejection?, ite_eq_iff, hscope]

/-- With the semantic comparator, a later latest version keeps whatever an earlier one kept. -/
lemma keepsSemantic_mono {tagged : String} {old new : Option String}
    (hlatest : ∀ latest, Version.ofText? (new.getD "") = some latest →
      ∃ before, Version.ofText? (old.getD "") = some before ∧ before.notNewer latest = true)
    (h : VersionComparator.keepsSemantic tagged old = true) :
    VersionComparator.keepsSemantic tagged new = true := by
  rw [VersionComparator.keepsSemantic] at h ⊢
  cases htagged : Version.ofText? tagged with
  | none => simp [htagged] at h
  | some version =>
    cases hnew : Version.ofText? (new.getD "") with
    | none => rfl
    | some latest =>
      obtain ⟨before, hold, hle⟩ := hlatest latest hnew
      simp only [htagged, hold] at h
      exact Version.notNewer_trans h hle

end DocletFilter

/-- **Looser settings make a looser filter.** -/
lemma Settings.Loosens.accepts {comparator : VersionComparator} {old new : Settings}
    (h : old.Loosens comparator new) {d : Doclet}
    (hd : (DocletFilter.mk old comparator).accepts d = true) :
    (DocletFilter.mk new comparator).accepts d = true := by
  rw [accepts_iff, plainRejection?_eq_none] at hd ⊢
  obtain ⟨⟨hfile, hignore, hundocumented, hscope, hprivate⟩, hversion⟩ := hd
  refine ⟨⟨hfile, hignore, h.includeUndocumented ∘ hundocumented,
    fun s hs hmem => hscope s hs (h.ignoreScopes hmem), h.includePrivate ∘ hprivate⟩, ?_⟩
  rw [rejectsVersion] at hversion ⊢
  cases hsince : nonempty? d.since with
  | none => rfl
  | some since =>
    simp only [hsince, not_eq_false'] at hversion ⊢
    rcases h.latestVersion with hsame | ⟨rfl, hlatest⟩
    · exact hsame ▸ hversion
    · exact keepsSemantic_mono hlatest hversion

/-- **A looser filter loses no documented symbol.** Where all doclets of a longname name the same
parent, a longname that has a doclet taking part and a parent in the forest keeps one when the
filter accepts more. Turning settings on, ignoring fewer scopes and taking a later latest version
make such a filter. -/
theorem attached_of_looser_filter (filter filter' : Option DocletFilter) (doclets : List Doclet)
    (f f' : Forest)
    (hmemberof : ∀ a ∈ doclets, ∀ b ∈ doclets, a.longname = b.longname → a.memberof = b.memberof)
    (hlooser : ∀ d ∈ doclets, isRejected filter d = false → isRejected filter' d = false)
    (hf : (buildForest filter doclets).result = .ok f)
    (hf' : (buildForest filter' doclets).result = .ok f') :
    (∀ d ∈ doclets, takesPart filter d = true → f.Attached d.longname → f'.Attached d.longname) ∧
    ∀ comparator old new, Settings.Loosens comparator old new → ∀ d,
      (mk old comparator).accepts d = true → (mk new comparator).accepts d = true := by
  refine ⟨?_, fun _ _ _ hloosens _ hd => hloosens.accepts hd⟩
  intro d hd htakes hattached
  obtain ⟨c, hc, hcycles, rfl⟩ := result_buildForest.mp hf
  obtain ⟨c', hc', -, rfl⟩ := result_buildForest.mp hf'
  have hc_looser := looser_ofDoclets hmemberof hlooser hc hc'
  obtain ⟨s, hs⟩ := Option.isSome_iff_exists.mp
    ((has_ofDoclets hc d.longname).mpr ⟨d, hd, htakes, rfl⟩)
  obtain ⟨s', hs', hparent⟩ := hc_looser.find hs
  obtain ⟨hmem, hlongname⟩ := longname_of_find? hs
  obtain ⟨hmem', hlongname'⟩ := longname_of_find? hs'
  rw [← hlongname, attached_iff (nodup_ofDoclets hc) hmem] at hattached
  rw [← hlongname', attached_iff (nodup_ofDoclets hc') hmem']
  by_contra hdropped
  rw [hc_looser.isDropped hcycles hmem hparent (by simpa using hdropped)] at hattached
  cases hattached

/-- The standard filter, which leaves private doclets out as told. -/
def DocletFilter.privacy (includePrivate : Bool) : DocletFilter :=
  ⟨{ Settings.standard with includePrivate := includePrivate }, .semantic⟩

lemma loosens_privacy :
    Settings.Loosens .semantic (privacy false).settings (privacy true).settings :=
  ⟨by simp [privacy], fun h => h, List.Subset.refl _, .inl rfl⟩

lemma isRejected_privacy (d : Doclet)
    (h : isRejected (some (.privacy false)) d = false) :
    isRejected (some (.privacy true)) d = false := by
  simp only [isRejected, Option.any_some, not_eq_false'] at h ⊢
  exact loosens_privacy.accepts h

/-- A private namespace with a member, and a namespace with a function. -/
def privateAndPublic : List Doclet :=
  [{ Doclet.bare "A" none (.container false) with access := some .privateAccess },
   .bare "A.x" (some "A") (.value false none false),
   .bare "B" none (.container false),
   .bare "B.f" (some "B") (.callable [] [])]

/-- The function stays when the private namespace comes in; the member of that namespace, which was
left out with it, comes in too. -/
theorem attached_privateAndPublic : ∃ f f',
    (buildForest (some (.privacy false)) privateAndPublic).result = .ok f ∧
    (buildForest (some (.privacy true)) privateAndPublic).result = .ok f' ∧
    f.Attached "B.f" ∧ f'.Attached "B.f" ∧ ¬ f.Attached "A.x" ∧ f'.Attached "A.x" := by
  have hrun : ((buildForest (some (.privacy false)) privateAndPublic).result.toOption.map fun f =>
      (f.idOf? "B.f", f.parentOf? 3, f.idOf? "A.x", f.parentOf? 1)) =
        some (some 3, some 2, some 1, none) := by
    decide +kernel
  have hrun' : ((buildForest (some (.privacy true)) privateAndPublic).result.toOption.map fun f =>
      (f.idOf? "A.x", f.parentOf? 2)) = some (some 2, some 1) := by
    decide +kernel
  obtain ⟨f, hf, heq⟩ := Run.toOption_map.mp hrun
  obtain ⟨f', hf', heq'⟩ := Run.toOption_map.mp hrun'
  simp only [Prod.mk.injEq] at heq heq'
  have hattached : f.Attached "B.f" := ⟨3, 2, heq.1, heq.2.1⟩
  refine ⟨f, f', hf, hf', hattached, ?_, ?_, 2, 1, heq'⟩
  · exact (attached_of_looser_filter _ _ privateAndPublic f f' (by decide)
      (fun d _ => isRejected_privacy d) hf hf').1
      (.bare "B.f" (some "B") (.callable [] [])) (by simp [privateAndPublic]) (by decide) hattached
  · rintro ⟨id, parent, hid, hparent⟩
    rw [heq.2.2.1, Option.some.injEq] at hid
    rw [← hid, heq.2.2.2] at hparent
    cases hparent

/-- A function in a namespace that is not documented, inside a private class. -/
def underPrivate : List Doclet :=
  [{ Doclet.bare "A" none (.classLike ⟨.classForm, [], [], [], [], none, true, false⟩) with
     access := some .privateAccess },
   .bare "A.B.f" (some "A.B") (.callable [] [])]

/-- A namespace that was only made up may go: with the private class left out, one is made up for
the parent of the function; with it in, none is made up inside a class, and the function belongs to
it. -/
theorem lost_underPrivate :
    (∀ a ∈ underPrivate, ∀ b ∈ underPrivate, a.longname = b.longname → a.memberof = b.memberof) ∧
    (∀ d, isRejected (some (.privacy false)) d = false →
      isRejected (some (.privacy true)) d = false) ∧
    ∃ f f', (buildForest (some (.privacy false)) underPrivate).result = .ok f ∧
      (buildForest (some (.privacy true)) underPrivate).result = .ok f' ∧
      f.Attached "A.B" ∧ ¬ f'.Attached "A.B" := by
  have hrun : ((buildForest (some (.privacy false)) underPrivate).result.toOption.map fun f =>
      (f.idOf? "A.B", f.parentOf? 3)) = some (some 3, some 2) := by
    decide +kernel
  have hrun' : ((buildForest (some (.privacy true)) underPrivate).result.toOption.map fun f =>
      f.idOf? "A.B") = some none := by
    decide +kernel
  obtain ⟨f, hf, heq⟩ := Run.toOption_map.mp hrun
  obtain ⟨f', hf', heq'⟩ := Run.toOption_map.mp hrun'
  simp only [Prod.mk.injEq] at heq
  refine ⟨by decide, isRejected_privacy, f, f', hf, hf', ⟨3, 2, heq⟩, ?_⟩
  rintro ⟨id, _, hid, _⟩
  rw [heq'] at hid
  cases hid

end AmbientDecl

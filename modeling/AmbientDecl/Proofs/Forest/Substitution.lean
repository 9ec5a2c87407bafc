import AmbientDecl.Proofs.Diagnostics.Stages
import AmbientDecl.Proofs.Symbol.Trie

/-!
# One parameter for each group of described properties

What expansion makes of the parameters of a signature, and why a second run has nothing left to do.

**Dotted names.** The parameter that a dotted name belongs to has no point in its name, so it is
plain itself (`ofName?_root`).

**Groups.** `propertyRoots` are the parameters with described properties. They are the groups of a
parameter list (`keys_propertyGroups`), and what a group holds is said by the descriptions
(`mem_propertyGroups_iff`).

**Substitution.** `replaced` is a parameter list with one parameter in the place of each group, said
by positions. It is what the walk over the list gives (`substituted_eq`).

**Typedefs.** `Expansion.Adds` is a step that makes typedefs for the container at hand; a signature
makes one for each group (`adds_expandGroups`).

**Twice.** `Symbol.Settled` is a symbol that expansion does not change (`gives_expandTree_settled`),
and expansion leaves such symbols only (`expandsTo_settled`).
-/

namespace AmbientDecl

open Text Expander Expansion List SymbolTree Parameter PropertyPath

variable {root : String} {p : Parameter}

lemma not_mem_splitAt {sep : Char} :
    ∀ {cs piece : List Char}, piece ∈ Text.splitAt sep cs → sep ∉ piece := by
  intro cs
  induction cs with
  | nil => intro piece h; simp_all [Text.splitAt]
  | cons c rest ih =>
    intro piece h
    rw [Text.splitAt] at h
    split at h
    · rcases mem_cons.mp h with rfl | h
      · simp
      · exact ih h
    · rename_i hc
      split at h
      · rw [mem_singleton.mp h]
        simp [Ne.symm hc]
      · rename_i first pieces hsplit
        rw [hsplit] at ih
        rcases mem_cons.mp h with rfl | h
        · have := ih mem_cons_self
          simp [Ne.symm hc, this]
        · exact ih (mem_cons_of_mem _ h)

lemma splitAt_of_not_mem {sep : Char} {cs : List Char} (h : sep ∉ cs) :
    Text.splitAt sep cs = [cs] := by
  induction cs with
  | nil => rfl
  | cons c rest ih =>
    rw [mem_cons, not_or] at h
    rw [Text.splitAt, if_neg (Ne.symm h.1), ih h.2]

lemma ofName?_eq_none {name : String} (h : '.' ∉ name.toList) : ofName? name = none := by
  rw [ofName?, splitAt_of_not_mem h, mapM_cons, mapM_nil]
  cases PropertyStep.ofChars? name.toList <;> rfl

lemma not_mem_ofChars? {cs : List Char} {step : PropertyStep}
    (h : PropertyStep.ofChars? cs = some step)
    {c : Char} (hc : c ∉ cs) : c ∉ step.name.toList := by
  simp only [PropertyStep.ofChars?, Option.ite_none_left_eq_some, Option.some.injEq] at h
  obtain ⟨_, rfl⟩ := h
  rw [String.toList_ofList]
  split
  · exact fun hmem => hc (mem_of_mem_take hmem)
  · exact hc

/-- **The parameter that a dotted name belongs to is plain.** -/
lemma ofName?_root {name : String} {path : PropertyPath} (h : ofName? name = some path) :
    ofName? path.root.name = none := by
  refine ofName?_eq_none ?_
  unfold ofName? at h
  split at h
  · rename_i root step rest hsteps
    rw [Option.some.injEq] at h
    subst h
    cases hpieces : splitAt '.' name.toList with
    | nil => simp [hpieces] at hsteps
    | cons piece pieces =>
      rw [hpieces, mapM_cons] at hsteps
      simp only [Option.bind_eq_bind, Option.bind_eq_some_iff, Option.pure_def, Option.some.injEq]
        at hsteps
      obtain ⟨first, hfirst, _, _, hcons⟩ := hsteps
      obtain ⟨rfl, _⟩ := List.cons.inj hcons
      exact not_mem_ofChars? hfirst (not_mem_splitAt (hpieces ▸ mem_cons_self))
  · cases h

/-- The parameters that have described properties, in the order of their first descriptions. -/
def propertyRoots (params : List Parameter) : List String :=
  ((params.filter isProperty).map rootName).eraseDups

/-- A parameter is the elements of an array: a dotted name writes it so, or the first plain
parameter of its name has an array as its type. -/
def RootIsArray (params : List Parameter) (root : String) : Prop :=
  (∃ p ∈ params, ∃ path, ofName? p.name = some path ∧ path.root = ⟨root, true⟩) ∨
    ∃ p t, plainParameter? params root = some p ∧ p.type = .array t

lemma mem_propertyRoots {params : List Parameter} :
    root ∈ propertyRoots params ↔ ∃ p ∈ params, p.isProperty = true ∧ p.rootName = root := by
  simp [propertyRoots, and_assoc]

lemma Parameter.isProperty_iff : p.isProperty = true ↔ ∃ path, ofName? p.name = some path :=
  Option.isSome_iff_exists

/-- The path of a dotted name begins with the parameter that it belongs to. -/
lemma Parameter.propertyPath_of {path : PropertyPath} (h : ofName? p.name = some path) :
    p.propertyPath = path.root :: path.path ∧ p.rootName = path.root.name := by
  simp [propertyPath, rootName, h]

lemma Parameter.rootName_of_plain (h : p.isProperty = false) : p.rootName = p.name := by
  rw [isProperty, Option.isSome_eq_false_iff, Option.isNone_iff_eq_none] at h
  rw [rootName, h]

lemma propertyGroups_eq (params : List Parameter) : propertyGroups params =
    (Shape.empty.describe (params.filter isProperty)).children := rfl

/-- **The groups of a parameter list** are the parameters that have described properties. -/
lemma keys_propertyGroups (params : List Parameter) :
    (propertyGroups params).map Prod.fst = propertyRoots params := by
  have hkeys := Shape.keysAt_describe (params.filter isProperty) []
  rw [propertyGroups_eq, propertyRoots]
  refine hkeys.trans ?_
  rw [namesAfter]
  congr 1
  rw [← filterMap_eq_map]
  refine filterMap_congr fun p hp => ?_
  obtain ⟨path, hpath⟩ := isProperty_iff.mp (mem_filter.mp hp).2
  obtain ⟨hsteps, hroot⟩ := propertyPath_of hpath
  simp [nameAfter_nil, propertyNames, hsteps, stepNames, hroot]

lemma nodup_propertyRoots (params : List Parameter) : (propertyRoots params).Nodup :=
  nodup_eraseDups _

/-- What a group holds, said by the descriptions. -/
lemma mem_propertyGroups_iff {params : List Parameter} {shape : Shape}
    (h : (root, shape) ∈ propertyGroups params) :
    shape.record = .record (recordAt (params.filter isProperty) [root]) ∧
      ((shape.withParam (plainParameter? params root)).holdsArray = true ↔
        RootIsArray params root) := by
  set dotted := params.filter isProperty with hdotted
  have hnd : ((Shape.empty.describe dotted).keysAt []).Nodup := by
    rw [Shape.keysAt_describe]
    exact nodup_eraseDups _
  have hat : (Shape.empty.describe dotted).at? [root] = some shape := Shape.at?_of_mem hnd h
  constructor
  · rw [recordAt, Shape.propertiesAt, hat]
    rfl
  · have harray : shape.isArray = true ↔ ∃ p ∈ dotted, MarksArray [root] p.propertyPath := by
      rw [← Shape.arrayAt_describe dotted (cons_ne_nil root []), Shape.arrayAt, hat,
        Option.any_some]
    rw [Shape.holdsArray_iff, RootIsArray]
    obtain ⟨param, isArray, children⟩ := shape
    refine or_congr (harray.trans ?_) Iff.rfl
    constructor
    · rintro ⟨p, hp, hmarks⟩
      obtain ⟨hmem, hproperty⟩ := mem_filter.mp hp
      obtain ⟨path, hpath⟩ := isProperty_iff.mp hproperty
      rw [(propertyPath_of hpath).1, Shape.marksArray_cons] at hmarks
      obtain ⟨hname, ⟨_, hroot⟩ | hnone⟩ := hmarks
      · exact ⟨p, hmem, path, hpath, by rw [hname, ← hroot]⟩
      · exact absurd hnone (Shape.not_marksArray_nil _)
    · rintro ⟨p, hmem, path, hpath, hroot⟩
      refine ⟨p, mem_filter.mpr ⟨hmem, isProperty_iff.mpr ⟨path, hpath⟩⟩, ?_⟩
      rw [(propertyPath_of hpath).1, Shape.marksArray_cons, hroot]
      exact ⟨rfl, .inl ⟨rfl, rfl⟩⟩

/-- What stands in the place of the parameter at a position: the first one of a group is replaced,
the others of the group are gone, and all else stays. -/
def replacement (parameter : String → Parameter) (params : List Parameter) (p : Parameter)
    (position : Nat) : Option Parameter :=
  if p.rootName ∈ propertyRoots params then
    if p.rootName ∈ (params.take position).map rootName then none
    else some (parameter p.rootName)
  else some p

/-- A parameter list with `parameter root` in the place of each group `root`. -/
def replaced (parameter : String → Parameter) (params : List Parameter) : List Parameter :=
  params.zipIdx.filterMap fun e => replacement parameter params e.1 e.2

section Substituted

variable {parameter : String → Parameter} {params : List Parameter}

/-- The walk over the rest of a parameter list; `front` has been walked. -/
lemma substituted_rest {groups : List (String × Parameter)} (hgroups : ∀ root, groups.lookup root =
      if root ∈ propertyRoots params then some (parameter root) else none) :
    ∀ (rest front : List Parameter) (seen : List String), params = front ++ rest →
      (∀ root ∈ propertyRoots params, root ∈ seen ↔ root ∈ front.map rootName) →
      substituted groups seen rest =
        (rest.zipIdx front.length).filterMap fun e => replacement parameter params e.1 e.2 := by
  intro rest
  induction rest with
  | nil => intro front seen _ _; rfl
  | cons p rest ih =>
    intro front seen hparams hseen
    have hnext : params = (front ++ [p]) ++ rest := by simp [hparams]
    have hlength : (front ++ [p]).length = front.length + 1 := by simp
    have htake : params.take front.length = front := by simp [hparams]
    have hlater := fun seen => hlength ▸ ih (front ++ [p]) seen hnext
    rw [substituted, hgroups, zipIdx_cons, filterMap_cons, replacement, htake]
    by_cases hroot : p.rootName ∈ propertyRoots params
    · simp only [if_pos hroot, contains_iff_mem, hseen _ hroot]
      by_cases hbefore : p.rootName ∈ front.map rootName
      · -- the group has been replaced before
        simp only [if_pos hbefore]
        refine hlater seen fun root h => ?_
        rw [hseen root h, map_append, mem_append]
        refine ⟨Or.inl, Or.rec id fun hp => ?_⟩
        rw [map_singleton, mem_singleton] at hp
        exact hp ▸ hbefore
      · simp only [if_neg hbefore]
        refine congrArg _ (hlater (p.rootName :: seen) fun root h => ?_)
        rw [mem_cons, hseen root h, map_append, mem_append, map_singleton, mem_singleton, or_comm]
    · simp only [if_neg hroot]
      refine congrArg _ (hlater seen fun root h => ?_)
      have hother : root ≠ p.rootName := fun heq => hroot (heq ▸ h)
      simp [hseen root h, hother]

/-- **The walk over a parameter list replaces each group at its first place.** -/
lemma substituted_eq {groups : List (String × Parameter)} (hgroups : ∀ root, groups.lookup root =
      if root ∈ propertyRoots params then some (parameter root) else none) :
    substituted groups [] params = replaced parameter params :=
  substituted_rest hgroups params [] [] rfl (by simp)

lemma isProperty_of_not_mem (hp : p ∈ params) (h : p.rootName ∉ propertyRoots params) :
    p.isProperty = false := by
  by_contra hproperty
  exact h (mem_propertyRoots.mpr ⟨p, hp, by simpa using hproperty, rfl⟩)

section

variable (hname : ∀ root ∈ propertyRoots params, (parameter root).name = root)

include hname

/-- What stands in the place of a parameter is plain and has the name that it belongs to. -/
lemma replacement_eq_some {q : Parameter} {position : Nat} (hp : p ∈ params)
    (h : replacement parameter params p position = some q) :
    q.isProperty = false ∧ q.name = p.rootName := by
  unfold replacement at h
  split at h
  · rename_i hroot
    simp only [Option.ite_none_left_eq_some, Option.some.injEq] at h
    obtain ⟨_, rfl⟩ := h
    obtain ⟨r, _, hproperty, hr⟩ := mem_propertyRoots.mp hroot
    obtain ⟨path, hpath⟩ := isProperty_iff.mp hproperty
    refine ⟨?_, hname _ hroot⟩
    rw [isProperty, hname _ hroot, ← hr, (propertyPath_of hpath).2, ofName?_root hpath]
    rfl
  · rename_i hroot
    rw [Option.some.injEq] at h
    have hplain := isProperty_of_not_mem hp hroot
    exact h ▸ ⟨hplain, (rootName_of_plain hplain).symm⟩

/-- **No dotted name is left.** -/
lemma isProperty_replaced : ∀ p ∈ replaced parameter params, p.isProperty = false := by
  intro p hp
  obtain ⟨e, he, hsome⟩ := mem_filterMap.mp hp
  exact (replacement_eq_some hname (fst_mem_of_mem_zipIdx he) hsome).1

/-- What stands in the place of a parameter of another name has another name. -/
lemma replacement_filter_other (hp : p ∈ params) (h : p.rootName ≠ root) (position : Nat) :
    (replacement parameter params p position).filter (fun q => q.name == root) = none := by
  rw [Option.filter_eq_none_iff]
  intro q hq
  rw [(replacement_eq_some hname hp hq).2]
  simpa using h

/-- **Each group is replaced by one parameter of its name**, and no other parameter has that
name. -/
lemma filter_replaced (hroot : root ∈ propertyRoots params) :
    (replaced parameter params).filter (fun p => p.name == root) = [parameter root] := by
  obtain ⟨p, hfind⟩ : ∃ p, params.find? (fun p => p.rootName == root) = some p := by
    obtain ⟨q, hq, _, hqroot⟩ := mem_propertyRoots.mp hroot
    exact Option.isSome_iff_exists.mp (find?_isSome.mpr ⟨q, hq, by simp [hqroot]⟩)
  obtain ⟨hp, front, back, hsplit, hfront⟩ := find?_eq_some_iff_append.mp hfind
  rw [beq_iff_eq] at hp
  have hbefore : ∀ e ∈ front.zipIdx,
      (replacement parameter params e.1 e.2).filter (fun q => q.name == root) = none := by
    intro e he
    have hmem := fst_mem_of_mem_zipIdx he
    exact replacement_filter_other hname (hsplit ▸ mem_append_left _ hmem)
      (by simpa using hfront e.1 hmem) e.2
  have hfirst : replacement parameter params p front.length = some (parameter root) := by
    have hnew : root ∉ front.map rootName := by
      intro hmem
      obtain ⟨q, hq, hqroot⟩ := mem_map.mp hmem
      exact absurd hqroot (by simpa using hfront q hq)
    have htake : params.take front.length = front := by simp [hsplit]
    rw [replacement, htake, hp, if_pos hroot, if_neg hnew]
  have hafter : ∀ e ∈ back.zipIdx (front.length + 1),
      (replacement parameter params e.1 e.2).filter (fun q => q.name == root) = none := by
    intro e he
    by_cases hsame : e.1.rootName = root
    · have hseen : root ∈ (params.take e.2).map rootName := by
        have hle := le_snd_of_mem_zipIdx he
        have htake : (front ++ [p]) <+: params.take e.2 := by
          refine prefix_take_iff.mpr ⟨⟨back, by simp [hsplit]⟩, by simpa using hle⟩
        exact mem_map.mpr ⟨p, htake.subset (by simp), hp⟩
      rw [replacement, hsame, if_pos hroot, if_pos hseen]
      rfl
    · have hmem := fst_mem_of_mem_zipIdx he
      exact replacement_filter_other hname
        (hsplit ▸ mem_append_right _ (mem_cons_of_mem _ hmem)) hsame e.2
  have hzip : params.zipIdx =
      front.zipIdx ++ (p, front.length) :: back.zipIdx (front.length + 1) := by
    rw [hsplit, zipIdx_append, zipIdx_cons, Nat.zero_add]
  rw [replaced, filter_filterMap, hzip, filterMap_append, filterMap_cons,
    filterMap_eq_nil_iff.mpr hbefore, filterMap_eq_nil_iff.mpr hafter, hfirst]
  simp [Option.filter, hname root hroot]

end

end Substituted

/-- A step takes names of the container at hand that were free. -/
structure Expansion.Takes (names : List String) (e e' : Expansion) : Prop where
  taken : e'.taken = e.taken ++ names
  free : ∀ name ∈ names, name ∉ e.taken
  distinct : names.Nodup

/-- A step makes typedefs for the container at hand: the index has them, they wait, and their names
were free. -/
structure Expansion.Adds (made : List SymbolTree) (e e' : Expansion) : Prop where
  makes : Makes (made.map SymbolTree.entry) e e'
  pending : e'.pending = e.pending ++ made
  takes : Takes (made.map SymbolTree.name) e e'

namespace Expansion

variable {made made' : List SymbolTree} {names names' : List String} {e e' e'' : Expansion}

lemma Takes.refl (e : Expansion) : Takes [] e e :=
  ⟨by simp, by simp, nodup_nil⟩

lemma Takes.trans (h : Takes names e e') (h' : Takes names' e' e'') :
    Takes (names ++ names') e e'' where
  taken := by rw [h'.taken, h.taken, append_assoc]
  free := by
    intro name hname hold
    rcases mem_append.mp hname with hname | hname
    · exact h.free name hname hold
    · exact h'.free name hname (h.taken ▸ mem_append_left _ hold)
  distinct := by
    refine h.distinct.append h'.distinct ?_
    intro name hname hname'
    exact h'.free name hname' (h.taken ▸ mem_append_right _ hname)

lemma Adds.refl (e : Expansion) : Adds [] e e :=
  ⟨Makes.refl e, by simp, Takes.refl e⟩

lemma Adds.trans (h : Adds made e e') (h' : Adds made' e' e'') : Adds (made ++ made') e e'' where
  makes := by
    rw [map_append]
    exact h.makes.trans h'.makes
  pending := by rw [h'.pending, h.pending, append_assoc]
  takes := by
    rw [map_append]
    exact h.takes.trans h'.takes

end Expansion

/-- A typedef of a container with this record as its type. -/
structure IsTypedef (container : String) (record : TypeNode) (t : SymbolTree) : Prop where
  symbol : t.symbol = synthesizedTypedef container t.name record
  children : t.children = []

lemma adds_synthesize (container : String) (owner : Symbol) (root : String) (record : TypeNode)
    (e : Expansion) : ∃ t e', Gives (synthesize container owner root record) e t.longname e' ∧
      Adds [t] e e' ∧ IsTypedef container record t := by
  obtain ⟨hfree, hnew⟩ := typedefName_free e container owner root
  let typedef := synthesizedTypedef container (typedefName e container owner root) record
  have hgives : Gives (synthesize container owner root record) e typedef.longname
      { e with
        index := Forest.registerIn e.index typedef.longname e.nextId
        nextId := e.nextId + 1
        taken := e.taken ++ [typedef.name]
        pending := e.pending ++ [node e.nextId typedef []] } := by
    simp only [synthesize, gives_bind, gives_get, gives_set, gives_pure]
    exact ⟨e, e, ⟨rfl, rfl⟩, (), _, rfl, rfl, rfl⟩
  refine ⟨.node e.nextId typedef [], _, hgives, ?_, rfl, rfl⟩
  refine ⟨⟨?_, rfl, rfl, ?_, nodup_singleton _⟩, rfl, rfl, ?_, nodup_singleton _⟩
  · have hindex : e.index.lookup typedef.longname = none := hnew
    rw [Forest.registerIn, hindex]
    rfl
  · exact forall_mem_singleton.mpr hnew
  · exact forall_mem_singleton.mpr hfree

/-- The parameter that stands for a group of a parameter list. -/
def parameterFor (params : List Parameter) (typedef : String → SymbolTree)
    (group : String × Shape) :
    Parameter :=
  groupParameter (plainParameter? params group.1) group.1 group.2 (typedef group.1).longname

/-- Groups of different names get a typedef each. -/
lemma adds_expandGroups (container : String) (owner : Symbol) (params : List Parameter) :
    ∀ (groups : List (String × Shape)) (e : Expansion), (groups.map Prod.fst).Nodup →
      ∃ (typedef : String → SymbolTree) (e' : Expansion),
        Gives (groups.mapM (expandGroup container owner params)) e
          (groups.map fun group => (group.1, parameterFor params typedef group)) e' ∧
        Adds (groups.map fun group => typedef group.1) e e' ∧
        ∀ group ∈ groups, IsTypedef container group.2.record (typedef group.1) := by
  intro groups
  induction groups with
  | nil =>
    intro e _
    exact ⟨fun _ => .node 0 Symbol.root [], e, by simp, Adds.refl e, by simp⟩
  | cons group rest ih =>
    intro e hnd
    rw [map_cons, nodup_cons] at hnd
    obtain ⟨t, e₁, hmade, hadds, ht⟩ := adds_synthesize container owner group.1 group.2.record e
    obtain ⟨typedef, e', hrest, hadds', htypedef⟩ := ih e₁ hnd.2
    -- the first group has its own typedef, the names of the others differ from its name
    have hother : ∀ g ∈ rest, Function.update typedef group.1 t g.1 = typedef g.1 := by
      intro g hg
      refine Function.update_of_ne ?_ _ _
      exact fun hsame => hnd.1 (hsame ▸ mem_map_of_mem hg)
    have hself : Function.update typedef group.1 t group.1 = t := Function.update_self _ _ _
    have hsame : rest.map (fun g =>
      (g.1, parameterFor params (Function.update typedef group.1 t) g)) =
        rest.map fun g => (g.1, parameterFor params typedef g) := by
      refine map_congr_left fun g hg => ?_
      rw [parameterFor, hother g hg, parameterFor]
    refine ⟨Function.update typedef group.1 t, e', ?_, ?_, ?_⟩
    · simp only [mapM_cons, gives_bind, gives_pure, expandGroup]
      refine ⟨_, e₁, ⟨t.longname, e₁, hmade, rfl, rfl⟩, _, e', hrest, ?_, rfl⟩
      rw [map_cons, hsame, parameterFor, hself]
    · rw [map_cons, hself, map_congr_left hother]
      exact hadds.trans hadds'
    · intro g hg
      rcases mem_cons.mp hg with rfl | hg
      · exact hself.symm ▸ ht
      · exact (hother g hg).symm ▸ htypedef g hg

/-- The parameter that stands for the group `root`, whose typedef has the longname `typedef`. -/
structure StandsFor (params : List Parameter) (root typedef : String) (p : Parameter) : Prop where
  /-- A plain parameter keeps everything but its type. -/
  plain : ∀ q, plainParameter? params root = some q → p = { q with type := p.type }
  /-- Where there is none, the parameter is required and nothing else is said about it. -/
  missing : plainParameter? params root = none → p = .bare root p.type
  elements : RootIsArray params root → p.type = .array (.named typedef)
  single : ¬ RootIsArray params root → p.type = .named typedef

lemma standsFor_groupParameter {params : List Parameter} {shape : Shape}
    (h : (root, shape) ∈ propertyGroups params) (typedef : String) : StandsFor params root typedef
      (groupParameter (plainParameter? params root) root shape typedef) := by
  have harray := (mem_propertyGroups_iff h).2
  have htype : (groupParameter (plainParameter? params root) root shape typedef).type =
      if (shape.withParam (plainParameter? params root)).holdsArray then .array (.named typedef)
      else .named typedef := by
    unfold groupParameter
    cases plainParameter? params root <;> rfl
  refine ⟨?_, ?_, ?_, ?_⟩
  · intro q hq
    rw [hq]
    rfl
  · intro hnone
    rw [hnone]
    rfl
  · intro h
    rw [htype, if_pos (harray.mpr h)]
  · intro h
    rw [htype, if_neg (mt harray.mp h)]

lemma StandsFor.name {params : List Parameter} {typedef : String}
    (h : StandsFor params root typedef p) : p.name = root := by
  cases hplain : plainParameter? params root with
  | none => rw [h.missing hplain]; rfl
  | some q =>
    have hq := find?_some hplain
    rw [Bool.and_eq_true, beq_iff_eq] at hq
    rw [h.plain q hplain]
    exact hq.2

/-- The parameters `after` come of the parameters `params` by replacing each group `root` by
`parameter root`, whose type refers to the typedef `typedef root`. -/
structure Substitutes (container : String) (params after : List Parameter)
    (typedef : String → SymbolTree) (parameter : String → Parameter) : Prop where
  /-- Groups are replaced at their first place, and all else stays in place. -/
  replaced : after = replaced parameter params
  /-- There is one parameter of the name of a group. -/
  once : ∀ root ∈ propertyRoots params, after.filter (fun p => p.name == root) = [parameter root]
  stands : ∀ root ∈ propertyRoots params,
    StandsFor params root (typedef root).longname (parameter root)
  /-- The typedef of a group is the record of its described properties. -/
  typedef : ∀ root ∈ propertyRoots params,
    IsTypedef container (.record (recordAt (params.filter isProperty) [root])) (typedef root)
  plain : ∀ p ∈ after, ofName? p.name = none

/-- **Expanding a signature** makes a typedef for each group and puts one parameter in its place. -/
lemma substitutes_expandSignature (container : String) (owner : Symbol) (signature : Signature)
    (e : Expansion) : ∃ after e' typedef parameter,
      Gives (expandSignature container owner signature) e { signature with params := after } e' ∧
      Adds ((propertyRoots signature.params).map typedef) e e' ∧
      Substitutes container signature.params after typedef parameter := by
  set params := signature.params with hparams
  have hkeys := keys_propertyGroups params
  have hnd : ((propertyGroups params).map Prod.fst).Nodup := hkeys ▸ nodup_propertyRoots params
  obtain ⟨typedef, e', hgroups, hadds, htypedef⟩ :=
    adds_expandGroups container owner params (propertyGroups params) e hnd
  let parameter : String → Parameter := fun root =>
    parameterFor params typedef (root, ((propertyGroups params).lookup root).getD Shape.empty)
  have hshape : ∀ root ∈ propertyRoots params, ∃ shape, (root, shape) ∈ propertyGroups params ∧
        parameter root = parameterFor params typedef (root, shape) := by
    intro root hroot
    obtain ⟨group, hgroup, rfl⟩ := mem_map.mp (hkeys ▸ hroot)
    refine ⟨group.2, hgroup, ?_⟩
    simp only [parameter, lookup_eq_some_of_nodup hnd hgroup, Option.getD_some]
  have hstands : ∀ root ∈ propertyRoots params,
      StandsFor params root (typedef root).longname (parameter root) := by
    intro root hroot
    obtain ⟨shape, hmem, heq⟩ := hshape root hroot
    rw [heq]
    exact standsFor_groupParameter hmem _
  have hname := fun root hroot => (hstands root hroot).name
  have hlookup : ∀ root,
      ((propertyGroups params).map fun g => (g.1, parameterFor params typedef g)).lookup root =
        if root ∈ propertyRoots params then some (parameter root) else none := by
    intro root
    split
    · rename_i hroot
      obtain ⟨shape, hmem, heq⟩ := hshape root hroot
      rw [heq]
      refine lookup_eq_some_of_nodup (e := (root, parameterFor params typedef (root, shape))) ?_ ?_
      · rw [map_map]
        exact hnd
      · exact mem_map.mpr ⟨_, hmem, rfl⟩
    · rename_i hroot
      rw [lookup_eq_none_iff]
      rw [forall_mem_map]
      intro group hgroup
      rw [bne_iff_ne]
      exact fun hsame => hroot (hkeys ▸ mem_map.mpr ⟨group, hgroup, hsame.symm⟩)
  refine ⟨replaced parameter params, e', typedef, parameter, ?_, ?_, rfl,
    fun root hroot => filter_replaced hname hroot, hstands, ?_, ?_⟩
  · rw [expandSignature, gives_attempt_bind]
    simp only [gives_bind, gives_pure]
    refine ⟨_, e', hgroups, ?_, rfl⟩
    rw [substituted_eq hlookup]
  · rw [← hkeys, map_map]
    exact hadds
  · intro root hroot
    obtain ⟨shape, hmem, _⟩ := hshape root hroot
    exact (mem_propertyGroups_iff hmem).1 ▸ htypedef _ hmem
  · intro p hp
    have hplain := isProperty_replaced hname p hp
    rwa [isProperty, Option.isSome_eq_false_iff, Option.isNone_iff_eq_none] at hplain

/-- The type of a symbol with its described properties. -/
def Symbol.expandedType (s : Symbol) : Option TypeNode :=
  match s.doclet? with
  | some d =>
    if s.kind = .typedefDecl ∧ !d.isCallback ∧ !d.properties.isEmpty then
      some (recordOfProperties (readFrom 0 d.properties))
    else s.type
  | none => s.type

lemma result_expandTypedef (s : Symbol) :
    (expandTypedef s).result = .ok { s with type := s.expandedType } := by
  cases hd : s.doclet? with
  | none =>
    simp only [expandTypedef, Symbol.expandedType, hd]
    rfl
  | some d =>
    simp only [expandTypedef, Symbol.expandedType, hd]
    split
    · exact Run.result_bind.mpr ⟨_, result_parametersFrom d d.properties 0, rfl⟩
    · rfl

/-- The described properties of a symbol give the same type again. -/
lemma Symbol.expandedType_again (s : Symbol) (signatures : List Signature) :
    { s with type := s.expandedType, signatures := signatures }.expandedType = s.expandedType := by
  cases hd : s.doclets.head? with
  | none => simp only [expandedType, doclet?, hd]
  | some d =>
    simp only [expandedType, doclet?, hd]
    split <;> rfl

/-- Expansion has nothing to do at a symbol. -/
structure Symbol.Settled (s : Symbol) : Prop where
  type : s.expandedType = s.type
  plain : ∀ signature ∈ s.signatures, ∀ p ∈ signature.params, ofName? p.name = none

section Settled

variable {container : String} {e e' : Expansion}

lemma gives_expandSymbol {s s' : Symbol} : Gives (expandSymbol container s) e s' e' ↔
    ∃ signatures, Gives (s.signatures.mapM
        (expandSignature container { s with type := s.expandedType })) e signatures e' ∧
      s' = { s with type := s.expandedType, signatures := signatures } := by
  simp only [expandSymbol, gives_bind, gives_pure, gives_lift, result_expandTypedef,
    Except.ok.injEq]
  constructor
  · rintro ⟨_, _, ⟨rfl, rfl⟩, signatures, _, hsignatures, rfl, rfl⟩
    exact ⟨signatures, hsignatures, rfl⟩
  · rintro ⟨signatures, hsignatures, rfl⟩
    exact ⟨_, e, ⟨rfl, rfl⟩, signatures, e', hsignatures, rfl, rfl⟩

lemma plain_expandSignature {owner : Symbol} {before after : Signature}
    (h : Gives (expandSignature container owner before) e after e') :
    ∀ p ∈ after.params, ofName? p.name = none := by
  obtain ⟨params, _, _, _, hgives, _, hsubstitutes⟩ :=
    substitutes_expandSignature container owner before e
  rw [(h.unique hgives).1]
  exact hsubstitutes.plain

/-- **Expansion leaves nothing to expand.** -/
lemma expandsTo_settled : ExpandsTo (fun _ => True) Symbol.Settled where
  step := by
    intro s container e s' e' _ h
    obtain ⟨signatures, hsignatures, rfl⟩ := gives_expandSymbol.mp h
    refine ⟨s.expandedType_again signatures, ?_⟩
    intro signature hmem
    obtain ⟨before, _, _, _, hbefore⟩ := mem_mapM hsignatures signature hmem
    exact plain_expandSignature hbefore
  made := by
    intro container name record _
    exact ⟨rfl, by simp [synthesizedTypedef, Symbol.bare]⟩

lemma substituted_nil (params : List Parameter) : ∀ seen, substituted [] seen params = params := by
  induction params with
  | nil => intro seen; rfl
  | cons p rest ih =>
    intro seen
    rw [substituted, lookup_nil]
    exact congrArg _ (ih seen)

lemma gives_expandSignature_plain {owner : Symbol} {signature : Signature}
    (h : ∀ p ∈ signature.params, ofName? p.name = none) :
    Gives (expandSignature container owner signature) e signature e := by
  have hplain : ∀ p ∈ signature.params, p.isProperty = false := by
    intro p hp
    rw [isProperty, h p hp]
    rfl
  have hgroups : propertyGroups signature.params = [] := by
    rw [propertyGroups, filter_eq_nil_iff.mpr (by simpa using hplain)]
    rfl
  rw [expandSignature, gives_attempt_bind]
  simp only [hgroups, mapM_nil, gives_bind, gives_pure]
  exact ⟨[], e, ⟨rfl, rfl⟩, by rw [substituted_nil], rfl⟩

lemma gives_mapM_same {α : Type} {f : α → Expander α} {l : List α}
    (h : ∀ a ∈ l, Gives (f a) e a e) : Gives (l.mapM f) e l e := by
  induction l with
  | nil => simp
  | cons a rest ih =>
    rw [forall_mem_cons] at h
    simp only [mapM_cons, gives_bind, gives_pure]
    exact ⟨a, e, h.1, rest, e, ih h.2, rfl, rfl⟩

lemma gives_expandSymbol_settled {s : Symbol} (h : s.Settled) :
    Gives (expandSymbol container s) e s e := by
  refine gives_expandSymbol.mpr ⟨s.signatures, ?_, by rw [h.type]⟩
  exact gives_mapM_same fun signature hmem => gives_expandSignature_plain (h.plain signature hmem)

lemma gives_expandMembers_same {cs : List SymbolTree}
    (h : ∀ c ∈ cs, ∀ container e, Gives (expandTree container c) e c e) :
    Gives (expandMembers container cs) e cs e := by
  induction cs with
  | nil => simp [expandMembers]
  | cons c rest ih =>
    rw [forall_mem_cons] at h
    simp only [expandMembers, gives_bind, gives_pure]
    exact ⟨c, e, h.1 container e, rest, e, ih h.2, rfl, rfl⟩

lemma gives_expandDeclared_same {cs : List SymbolTree}
    (h : ∀ c ∈ cs, ∀ container e, Gives (expandTree container c) e c e)
    (hpending : e.pending = []) :
    Gives (expandDeclared container cs) e cs e := by
  induction cs with
  | nil => simp [expandDeclared]
  | cons c rest ih =>
    rw [forall_mem_cons] at h
    have hsame : { e with pending := [] } = e := by rw [← hpending]
    simp only [expandDeclared, gives_bind, gives_pure, gives_takePending]
    exact ⟨c, e, h.1 container e, [], e, ⟨hpending, hsame⟩, rest, e, ih h.2, rfl, rfl⟩

/-- **A tree without anything to expand stays as it is.** -/
lemma gives_expandTree_settled {t : SymbolTree} (h : t.All Symbol.Settled) :
    ∀ container e, Gives (expandTree container t) e t e := by
  induction t using induct with
  | node i s cs ih =>
    intro container e
    have hs : s.Settled := h _ (mem_walk_self _)
    have hcs : ∀ c ∈ cs, ∀ container e, Gives (expandTree container c) e c e := by
      intro c hc
      refine ih c hc fun u hu => h u ?_
      exact mem_walk_trans
        (mem_walk_of_child (mem_walk_self _) hc) hu
    simp only [expandTree, gives_bind]
    refine ⟨s, e, gives_expandSymbol_settled hs, ?_⟩
    split
    · refine gives_bind.mpr ⟨cs, e, ?_, gives_pure.mpr ⟨rfl, rfl⟩⟩
      exact gives_inContainer.mpr ⟨_, gives_expandDeclared_same hcs rfl, rfl⟩
    · refine gives_bind.mpr ⟨cs, e, ?_, gives_pure.mpr ⟨rfl, rfl⟩⟩
      exact gives_expandMembers_same hcs

/-- **A second run changes nothing.** -/
lemma expandForest_again {f g : Forest} (h : (expandForest f).result = .ok g) :
    (expandForest g).result = .ok g := by
  obtain ⟨t, e, ht, rfl⟩ := result_expandForest.mp h
  have hleaves := (walkStep_leaves expandsTo_settled).tree ht (fun _ _ _ _ => trivial) (by simp)
  have hsettled : t.All Symbol.Settled := hleaves.1 t mem_cons_self
  exact result_expandForest.mpr ⟨t, _, gives_expandTree_settled hsettled _ _, rfl⟩

end Settled

/-- Each group of described properties is replaced by one parameter whose type is a typedef of its
own, nothing else about a signature changes, and expanding once is enough. -/
theorem expandSignature_substitutes :
    (∀ container owner signature e, ∃ after e' typedef parameter,
      Gives (expandSignature container owner signature) e { signature with params := after } e' ∧
      Adds ((propertyRoots signature.params).map typedef) e e' ∧
      Substitutes container signature.params after typedef parameter) ∧
    ∀ f, ∃ g, (expandForest f).result = .ok g ∧ (expandForest g).result = .ok g := by
  refine ⟨substitutes_expandSignature, ?_⟩
  intro f
  obtain ⟨g, hg⟩ := exists_expandForest f
  exact ⟨g, hg, expandForest_again hg⟩

end AmbientDecl

import AmbientDecl.Proofs.Diagnostics.Stages
import AmbientDecl.Proofs.Forest.Loosening

/-!
# Chains that close

The check for cycles follows the parents that symbols name. It finds the chains that come back to a
longname and no others.

**Chains.** `LeadsTo` is a step of a chain: from an indexed longname to the parent that its first
doclet names, if that one is indexed as well. From a longname a chain `Revisits` if it comes to a
longname from which it comes back.

**Walks.** `Census.Walk` is the walk of the check along a chain, without a bound on its steps. It
always ends, and the bounded walk ends with the same (`Census.walk_loop?`). A walk that closes does
so at a longname on a cycle (`Census.Walk.revisits`), and behind one that does not there is no
endless chain (`Census.Walk.acc`).

**Symbols left out.** Where no chain closes, asking a symbol's parent whether it is left out comes
to an end, and the bounded answer is the answer of that recursion (`Census.isDropped_iff`).
-/

namespace AmbientDecl

open Relation List Census

section Chains

variable (filter : Option DocletFilter) (doclets : List Doclet)

/-- The index holds a symbol of the longname when the first pass over the doclets has ended. -/
def Indexed (longname : String) : Prop :=
  ∃ c, (Census.ofDoclets filter doclets).result = .ok c ∧ c.has longname = true

/-- One step of a chain of membership. -/
structure LeadsTo (child parent : String) : Prop where
  child_indexed : Indexed filter doclets child
  parent_indexed : Indexed filter doclets parent
  names : ∃ d, doclets.find? (Census.documents filter child) = some d ∧ d.memberof = some parent

/-- The chain from a longname comes to one from which it comes back. -/
def Revisits (longname : String) : Prop :=
  ∃ through, ReflTransGen (LeadsTo filter doclets) longname through ∧
    TransGen (LeadsTo filter doclets) through through

end Chains

/-- Where there is no endless chain, none comes back. -/
lemma not_transGen_of_acc {α : Type} {r : α → α → Prop} {a : α} (h : Acc (Function.swap r) a) :
    ∀ {b}, ReflTransGen r a b → ¬ TransGen r b b := by
  induction h with
  | intro a _ ih =>
    intro b hreach hcycle
    obtain ⟨next, hstep, hrest⟩ := TransGen.head'_iff.mp (TransGen.trans_right hreach hcycle)
    exact ih next hstep hrest hcycle

namespace Census

variable {filter : Option DocletFilter} {doclets : List Doclet} {c : Census} {s : Symbol}
  {seen : List String} {next outcome : Option String} {longname through : String}

section

variable (hc : (ofDoclets filter doclets).result = .ok c)

include hc

lemma indexed_iff : Indexed filter doclets longname ↔ ∃ s, c.find? longname = some s := by
  rw [← Option.isSome_iff_exists, ← has]
  simp [Indexed, hc]

/-- A step of a chain as the finished census knows it. -/
lemma leadsTo_iff {child parent : String} :
    LeadsTo filter doclets child parent ↔
      ∃ s t, c.find? child = some s ∧ s.memberof? = some parent ∧ c.find? parent = some t := by
  constructor
  · rintro ⟨hchild, hparent, d, hd, hmemberof⟩
    obtain ⟨s, hs⟩ := (indexed_iff hc).mp hchild
    obtain ⟨t, ht⟩ := (indexed_iff hc).mp hparent
    refine ⟨s, t, hs, ?_, ht⟩
    rw [Symbol.memberof?, doclet?_of_find? hc hs, hd, Option.bind_some, hmemberof]
  · rintro ⟨s, t, hs, hmemberof, ht⟩
    refine ⟨(indexed_iff hc).mpr ⟨s, hs⟩, (indexed_iff hc).mpr ⟨t, ht⟩, ?_⟩
    rw [Symbol.memberof?, doclet?_of_find? hc hs] at hmemberof
    exact Option.bind_eq_some_iff.mp hmemberof

/-- A symbol leads to the parent that it names and to nothing else. -/
lemma parent_of_leadsTo {child parent : String}
    (hs : c.find? child = some s) (hstep : LeadsTo filter doclets child parent) :
    s.memberof? = some parent ∧ ∃ t, c.find? parent = some t := by
  obtain ⟨s', t, hs', hmemberof, ht⟩ := (leadsTo_iff hc).mp hstep
  obtain rfl : s = s' := by simpa [hs] using hs'
  exact ⟨hmemberof, t, ht⟩

end

/-- The walk along a chain that has passed `seen` and goes on at `next`: it ends where no parent is
named or the parent has no symbol, and closes at a longname that it has passed. -/
inductive Walk (c : Census) : (seen : List String) → (next outcome : Option String) → Prop
  | ended {seen : List String} : Walk c seen none none
  | left {seen : List String} {longname : String} (unknown : c.find? longname = none) :
      Walk c seen (some longname) none
  | closed {seen : List String} {longname : String} {s : Symbol}
      (known : c.find? longname = some s) (passed : longname ∈ seen) :
      Walk c seen (some longname) (some longname)
  | goesOn {seen : List String} {longname : String} {s : Symbol} {outcome : Option String}
      (known : c.find? longname = some s) (new : longname ∉ seen)
      (rest : Walk c (longname :: seen) s.memberof? outcome) : Walk c seen (some longname) outcome

/-- The bound is not met: with as many steps as longnames are left, a walk comes to its end. -/
lemma walk_loopFrom : ∀ {steps : Nat} {seen : List String} {next : Option String},
    c.Passed steps seen →
    c.Walk seen next (c.loopFrom steps seen next) := by
  intro steps
  induction steps with
  | zero => exact fun hseen => absurd rfl hseen.ne_zero
  | succ steps ih =>
    intro seen next hseen
    cases next with
    | none => exact .ended
    | some longname =>
      cases hs : c.find? longname with
      | none => simpa [loopFrom, hs] using Walk.left hs
      | some s =>
        by_cases hpassed : longname ∈ seen
        · simpa [loopFrom, hs, hpassed] using Walk.closed hs hpassed
        · simpa [loopFrom, hs, hpassed] using Walk.goesOn hs hpassed (ih (hseen.cons hs hpassed))

/-- **The walk of the check ends**, and the bounded walk ends with the same. -/
lemma walk_loop? (hs : s ∈ c.symbols) : c.Walk [s.longname] s.memberof? (c.loop? s) :=
  walk_loopFrom (.start hs)

section

variable (hc : (ofDoclets filter doclets).result = .ok c)

include hc

/-- A walk closes at a longname that all longnames passed lead to, and that leads back to itself. -/
lemma Walk.revisits (h : c.Walk seen next outcome)
    (hcloses : outcome = some through) : ∀ {current : String} {s : Symbol},
      c.find? current = some s → s.memberof? = next →
        (∀ x ∈ seen, ReflTransGen (LeadsTo filter doclets) x current) →
          (∀ x ∈ seen, ReflTransGen (LeadsTo filter doclets) x through) ∧
            TransGen (LeadsTo filter doclets) through through := by
  induction h with
  | ended => cases hcloses
  | left => cases hcloses
  | @closed seen longname t known passed =>
    intro current s hs hnext hseen
    obtain rfl : longname = through := by simpa using hcloses
    have hstep := (leadsTo_iff hc).mpr ⟨s, t, hs, hnext, known⟩
    exact ⟨fun x hx => (hseen x hx).tail hstep, TransGen.tail' (hseen longname passed) hstep⟩
  | @goesOn seen longname t outcome known _ _ ih =>
    intro current s hs hnext hseen
    have hstep := (leadsTo_iff hc).mpr ⟨s, t, hs, hnext, known⟩
    obtain ⟨hreach, hcycle⟩ := ih hcloses known rfl
      (forall_mem_cons.mpr ⟨.refl, fun x hx => (hseen x hx).tail hstep⟩)
    exact ⟨fun x hx => hreach x (mem_cons_of_mem _ hx), hcycle⟩

/-- Behind a walk that does not close there is no endless chain. -/
lemma Walk.acc (h : c.Walk seen next outcome) (hends : outcome = none) :
    ∀ {current : String} {s : Symbol}, c.find? current = some s → s.memberof? = next →
        Acc (Function.swap (LeadsTo filter doclets)) current := by
  induction h with
  | ended =>
    intro current s hs hnext
    refine Acc.intro _ fun parent hstep => ?_
    simp [(parent_of_leadsTo hc hs hstep).1] at hnext
  | left unknown =>
    intro current s hs hnext
    refine Acc.intro _ fun parent hstep => ?_
    obtain ⟨hmemberof, t, ht⟩ := parent_of_leadsTo hc hs hstep
    obtain rfl : parent = _ := by simpa [hmemberof] using hnext
    simp [unknown] at ht
  | closed => cases hends
  | goesOn known _ _ ih =>
    intro current s hs hnext
    refine Acc.intro _ fun parent hstep => ?_
    obtain rfl : parent = _ := by simpa [(parent_of_leadsTo hc hs hstep).1] using hnext
    exact ih hends known rfl

/-- Where the walk from a symbol closes, the chain from it does. -/
lemma revisits_of_loop? (hs : s ∈ c.symbols) (hloop : c.loop? s = some through) :
    ReflTransGen (LeadsTo filter doclets) s.longname through ∧
      TransGen (LeadsTo filter doclets) through through := by
  obtain ⟨hreach, hcycle⟩ := (walk_loop? hs).revisits hc hloop (find?_of_mem hc hs) rfl
    (by simp [ReflTransGen.refl])
  exact ⟨hreach s.longname (mem_singleton_self _), hcycle⟩

lemma acc_of_loop? (hs : s ∈ c.symbols)
    (hloop : c.loop? s = none) : Acc (Function.swap (LeadsTo filter doclets)) s.longname :=
  (walk_loop? hs).acc hc hloop (find?_of_mem hc hs) rfl

/-- **The chain from a symbol comes back exactly if the walk from it closes.** -/
lemma revisits_iff (hs : s ∈ c.symbols) : Revisits filter doclets s.longname ↔
    c.loop? s ≠ none := by
  constructor
  · rintro ⟨through, hreach, hcycle⟩ hloop
    exact not_transGen_of_acc (acc_of_loop? hc hs hloop) hreach hcycle
  · intro hloop
    obtain ⟨through, hthrough⟩ := Option.ne_none_iff_exists'.mp hloop
    exact ⟨through, revisits_of_loop? hc hs hthrough⟩

end

/-- The check fails at the first symbol whose walk closes. -/
lemma first_of_checkCycles {e : Failure} (h : c.checkCycles.result = .error e) :
    ∃ front s back through, c.symbols = front ++ s :: back ∧ (∀ t ∈ front, c.loop? t = none) ∧
      c.loop? s = some through ∧ e = .fatal (cycleDiagnostic s through) := by
  rw [checkCycles] at h
  cases hfind : c.symbols.findSome? fun s => (c.loop? s).map (cycleDiagnostic s) with
  | none => simp [hfind] at h
  | some d =>
    obtain ⟨front, s, back, hsplit, hd, hfront⟩ := findSome?_eq_some_iff.mp hfind
    obtain ⟨through, hloop, rfl⟩ := Option.map_eq_some_iff.mp hd
    refine ⟨front, s, back, through, hsplit, ?_, hloop, ?_⟩
    · exact fun t ht => Option.map_eq_none_iff.mp (hfront t ht)
    · have hfatal : (Run.report (cycleDiagnostic s through)).result =
          .error (.fatal (cycleDiagnostic s through)) := rfl
      simpa [hfind, hfatal] using h.symm

/-- The census never ends with a report. -/
lemma ofDoclets_ne_fatal (d : Diagnostic) :
    (ofDoclets filter doclets).result ≠ .error (.fatal d) := by
  intro h
  exact ((orderly_addAll doclets .empty (List.Subset.refl _)).fails_silently
    (fun _ hd => hd.recoverable) h).2 d rfl

end Census

/-- The forest is not built for a report exactly if the check makes it. -/
lemma buildForest_eq_fatal {filter : Option DocletFilter} {doclets : List Doclet} {d : Diagnostic} :
    (buildForest filter doclets).result = .error (.fatal d) ↔
      ∃ c, (Census.ofDoclets filter doclets).result = .ok c ∧
        c.checkCycles.result = .error (.fatal d) := by
  constructor
  · intro h
    cases hc : (ofDoclets filter doclets).result with
    | error e =>
      rw [buildForest, Run.result_bind_error hc] at h
      obtain rfl : e = .fatal d := by simpa using h
      exact absurd hc (ofDoclets_ne_fatal d)
    | ok c =>
      refine ⟨c, rfl, ?_⟩
      cases hcheck : c.checkCycles.result with
      | error e =>
        rw [buildForest, Run.result_bind_ok hc, Run.result_bind_error hcheck] at h
        simpa using h
      | ok =>
        rw [result_buildForest.mpr ⟨c, hc, hcheck, rfl⟩] at h
        cases h
  · rintro ⟨c, hc, hcheck⟩
    rw [buildForest, Run.result_bind_ok hc, Run.result_bind_error hcheck]

namespace Census

variable {filter : Option DocletFilter} {doclets : List Doclet} {c : Census} {s : Symbol}
  {through : String}

/-- The diagnostic about a chain is a diagnostic about the first doclet of its symbol. -/
lemma cycleDiagnostic_eq {first : Doclet} (hs : s.doclet? = some first)
    (hlongname : first.longname = s.longname) : cycleDiagnostic s through =
      .about first .cyclicMemberof
        s!"memberof chain of {first.longname} loops back through {through}" := by
  rw [cycleDiagnostic, Symbol.diagnostic, Symbol.location, hs, hlongname,
    Diagnostic.about, hlongname]
  rfl

/-- If the walks from all symbols before one do not close, then no chain from a doclet before its
first one comes back. -/
lemma not_revisits_before (hc : (ofDoclets filter doclets).result = .ok c)
    {front back : List Symbol}
    (hsplit : c.symbols = front ++ s :: back) (hfront : ∀ t ∈ front, c.loop? t = none)
    {before after : List Doclet} (hdoclets : doclets = before ++ after)
    (hbefore : docletsOf filter before s.longname = []) :
    ∀ b ∈ before, takesPart filter b = true → ¬ Revisits filter doclets b.longname := by
  intro b hb htakes hrevisits
  have hdocuments : docletsOf filter before b.longname ≠ [] := by
    rw [docletsOf, Ne, filter_eq_nil_iff]
    exact fun hnone => hnone b hb (by simp [documents, htakes])
  obtain ⟨t, ht⟩ : ∃ t, c.find? b.longname = some t := by
    refine Option.isSome_iff_exists.mp ((has_ofDoclets hc b.longname).mpr ⟨b, ?_, htakes, rfl⟩)
    exact hdoclets ▸ mem_append_left _ hb
  obtain ⟨hmem, hlongname⟩ := longname_of_find? ht
  rw [← hlongname] at hrevisits hdocuments
  have hloop := (revisits_iff hc hmem).mp hrevisits
  rw [hsplit] at hmem
  rcases mem_append.mp hmem with hearlier | hlater
  · exact hloop (hfront t hearlier)
  · rcases mem_cons.mp hlater with rfl | hlater
    · exact hdocuments hbefore
    · -- the symbols behind have their first doclets behind
      have hordered := ordered_ofDoclets hc
      rw [hsplit, map_append, map_cons, pairwise_append, pairwise_cons] at hordered
      have hlt := hordered.2.1.1 t.longname (mem_map_of_mem hlater)
      rw [hdoclets, firstPlace_append hdocuments] at hlt
      have hle := le_firstPlace_append hbefore after
      have hbound := firstPlace_lt_iff.mpr hdocuments
      omega

/-- **The check blames the first doclet whose chain comes back**, and names a longname on the
cycle. -/
lemma blames_first (hc : (ofDoclets filter doclets).result = .ok c) {d : Diagnostic}
    (h : c.checkCycles.result = .error (.fatal d)) :
    ∃ before first after through, doclets = before ++ first :: after ∧
      takesPart filter first = true ∧
      (∀ b ∈ before, takesPart filter b = true → ¬ Revisits filter doclets b.longname) ∧
      ReflTransGen (LeadsTo filter doclets) first.longname through ∧
      TransGen (LeadsTo filter doclets) through through ∧
      d = .about first .cyclicMemberof
        s!"memberof chain of {first.longname} loops back through {through}" := by
  obtain ⟨front, s, back, through, hsplit, hfront, hloop, hd⟩ := first_of_checkCycles h
  have hs : s ∈ c.symbols := by simp [hsplit]
  have hfind := find?_of_mem hc hs
  obtain ⟨first, hfirst, _⟩ := exists_first hc hfind
  obtain ⟨hdocuments, before, after, rfl, hbefore⟩ := find?_eq_some_iff_append.mp hfirst
  obtain ⟨htakes, hlongname⟩ : takesPart filter first = true ∧ first.longname = s.longname := by
    simpa [documents] using hdocuments
  obtain ⟨hreach, hcycle⟩ := revisits_of_loop? hc hs hloop
  refine ⟨before, first, after, through, rfl, htakes, ?_, hlongname ▸ hreach, hcycle, ?_⟩
  · refine not_revisits_before hc hsplit hfront rfl (filter_eq_nil_iff.mpr fun b hb => ?_)
    simpa using hbefore b hb
  · rw [← cycleDiagnostic_eq ((doclet?_of_find? hc hfind).trans hfirst) hlongname]
    simpa using hd

/-- **The recursion of being left out.** Where no chain closes, a symbol is left out exactly if its
parent is a longname left out or a symbol that is left out. -/
lemma isDropped_iff (hcycles : c.checkCycles.result = .ok ()) (hs : s ∈ c.symbols) :
    c.isDropped s = true ↔ ∃ parent, s.memberof? = some parent ∧ parent ≠ "" ∧
      (parent ∈ c.leftOut ∨ ∃ t, c.find? parent = some t ∧ c.isDropped t = true) := by
  constructor
  · intro h
    obtain ⟨parent, hparent, hne, hleft | ⟨t, ht, hreach⟩⟩ := reachesLeftOut_succ.mp h
    · exact ⟨parent, hparent, hne, .inl hleft⟩
    · have hdropped := isDropped_of_reachesLeftOut hcycles (longname_of_find? ht).1 hreach
      exact ⟨parent, hparent, hne, .inr ⟨t, ht, hdropped⟩⟩
  · rintro ⟨parent, hparent, hne, hup⟩
    refine isDropped_of_reachesLeftOut (n := c.symbols.length + 2) hcycles hs ?_
    exact reachesLeftOut_succ.mpr ⟨parent, hparent, hne, hup⟩

end Census

/-- Cycles of membership are found exactly. Each walk of the check ends. The forest is not built
because of a cycle if and only if the chain from some indexed longname revisits a longname, and the
diagnostic is about the first doclet whose chain does so, on the cycle or on the way into it. Where
the check passes, no chain is endless, so asking the parent whether it is left out is a recursion
that ends, and what is left out is the answer of that recursion. -/
theorem buildForest_cyclic_iff (filter : Option DocletFilter) (doclets : List Doclet) :
    (∀ c : Census, ∀ s ∈ c.symbols, c.Walk [s.longname] s.memberof? (c.loop? s)) ∧
    ((∃ d, (buildForest filter doclets).result = .error (.fatal d) ∧ d.kind = .cyclicMemberof) ↔
      ∃ longname, Indexed filter doclets longname ∧ Revisits filter doclets longname) ∧
    (∀ d, (buildForest filter doclets).result = .error (.fatal d) →
      ∃ before first after through, doclets = before ++ first :: after ∧
        Census.takesPart filter first = true ∧
        (∀ b ∈ before, Census.takesPart filter b = true → ¬ Revisits filter doclets b.longname) ∧
        ReflTransGen (LeadsTo filter doclets) first.longname through ∧
        TransGen (LeadsTo filter doclets) through through ∧
        d = .about first .cyclicMemberof
          s!"memberof chain of {first.longname} loops back through {through}") ∧
    ∀ c, (Census.ofDoclets filter doclets).result = .ok c → c.checkCycles.result = .ok () →
      ∀ s ∈ c.symbols, Acc (Function.swap (LeadsTo filter doclets)) s.longname ∧
        (c.isDropped s = true ↔ ∃ parent, s.memberof? = some parent ∧ parent ≠ "" ∧
          (parent ∈ c.leftOut ∨ ∃ t, c.find? parent = some t ∧ c.isDropped t = true)) := by
  refine ⟨fun c s hs => walk_loop? hs, ?_, ?_, ?_⟩
  · constructor
    · rintro ⟨d, hd, _⟩
      obtain ⟨c, hc, hcheck⟩ := buildForest_eq_fatal.mp hd
      obtain ⟨front, s, back, through, hsplit, _, hloop, _⟩ := first_of_checkCycles hcheck
      have hs : s ∈ c.symbols := by simp [hsplit]
      exact ⟨s.longname, (indexed_iff hc).mpr ⟨s, find?_of_mem hc hs⟩, through,
        revisits_of_loop? hc hs hloop⟩
    · rintro ⟨longname, hindexed, hrevisits⟩
      obtain ⟨c, hc, hhas⟩ := hindexed
      obtain ⟨s, hs⟩ := Option.isSome_iff_exists.mp hhas
      obtain ⟨hmem, rfl⟩ := longname_of_find? hs
      have hloop := (revisits_iff hc hmem).mp hrevisits
      rcases result_checkCycles (c := c) with ⟨⟨e, he⟩, _⟩ | ⟨_, hnone⟩
      · obtain ⟨_, t, _, through, _, _, _, rfl⟩ := first_of_checkCycles he
        exact ⟨_, buildForest_eq_fatal.mpr ⟨c, hc, he⟩, rfl⟩
      · exact absurd (hnone s hmem) hloop
  · intro d hd
    obtain ⟨c, hc, hcheck⟩ := buildForest_eq_fatal.mp hd
    exact blames_first hc hcheck
  · intro c hc hcheck s hs
    refine ⟨?_, isDropped_iff hcheck hs⟩
    rcases result_checkCycles (c := c) with ⟨⟨e, he⟩, _⟩ | ⟨_, hnone⟩
    · rw [he] at hcheck
      cases hcheck
    · exact acc_of_loop? hc hs (hnone s hs)

/-- A function of a namespace that is on a cycle of two. -/
def wayIntoCycle : List Doclet :=
  [.bare "x" (some "a") (.callable [] []), .bare "a" (some "b") (.container false),
   .bare "b" (some "a") (.container false)]

/-- The function comes first and is blamed, although no chain leads back to it. -/
theorem buildForest_cyclic_wayIntoCycle : ∃ d,
    (buildForest none wayIntoCycle).result = .error (.fatal d) ∧ d.longname = some "x" ∧
      ¬ TransGen (LeadsTo none wayIntoCycle) "x" "x" ∧
      (∃ longname, Indexed none wayIntoCycle longname ∧ Revisits none wayIntoCycle longname) ∧
      ∃ first ∈ wayIntoCycle, d.longname = some first.longname ∧
        Revisits none wayIntoCycle first.longname := by
  have hfails : (buildForest none wayIntoCycle).result =
      .error (.fatal (.about (.bare "x" (some "a") (.callable [] [])) .cyclicMemberof
        "memberof chain of x loops back through a")) := rfl
  obtain ⟨_, hiff, hblames, _⟩ := buildForest_cyclic_iff none wayIntoCycle
  obtain ⟨before, first, after, through, hsplit, _, _, hreach, hcycle, hd⟩ := hblames _ hfails
  have hnotParent : ∀ d ∈ wayIntoCycle, d.memberof ≠ some "x" := by decide
  refine ⟨_, hfails, rfl, ?_, hiff.mp ⟨_, hfails, rfl⟩, first, by simp [hsplit], ?_, through,
    hreach, hcycle⟩
  · intro hback
    obtain ⟨child, _, hstep⟩ := TransGen.tail'_iff.mp hback
    obtain ⟨d, hd, hmemberof⟩ := hstep.names
    exact hnotParent d (mem_of_find?_eq_some hd) hmemberof
  · exact congrArg Diagnostic.longname hd

end AmbientDecl

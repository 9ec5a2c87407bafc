import AmbientDecl.Declaration.Printer
import AmbientDecl.Proofs.TypeExpr.TypeName

/-!
# Printed types with their type parameters marked

A printed text does not say why a name stands in it. Here the text of a type is put together out of
marked pieces, so that the names that are printed because they are type parameters can be told from
all other words.

**Marks.** A `Mark` is words, a name that is printed as a type parameter in scope, or a list of type
parameters. `textOf` forgets the marks, `usedIn` and `listedIn` read them.

**Types.** `markedType` marks a type the way it is printed: what is not printed, as the key of a
dictionary or the arguments of a type that can be anything, is not marked either.

**Relations.** What relates the marks of names to their texts relates the marks of a type to its
text, as long as it is kept when pieces are put together (`Relates.type`). So without the marks a
marked type is the printed type, and what it marks is in scope (`spells_markedType`).
-/

namespace AmbientDecl

open Text List

/-- A piece of a printed line. -/
inductive Mark where
  | words (text : String)
  /-- A type name that is printed because it is a type parameter in scope. -/
  | typeParameter (name : String)
  /-- Type parameters between angle brackets; nothing, if there are none. -/
  | list (params : List TypeParameter)

def Mark.text : Mark → String
  | .words text => text
  | .typeParameter name => name
  | .list params => Printer.typeParametersText params

/-- The text that is printed. -/
def textOf (marks : List Mark) : String := String.join (marks.map Mark.text)

/-- The names that are printed as type parameters. -/
def usedIn (marks : List Mark) : List String :=
  marks.filterMap fun
    | .typeParameter name => some name
    | _ => none

/-- The names in lists of type parameters. -/
def listedIn (marks : List Mark) : List String :=
  marks.flatMap fun
    | .list params => params.map TypeParameter.name
    | _ => []

section Reading

variable {marks : List Mark} {params : List String}

@[simp] lemma text_words (text : String) : (Mark.words text).text = text := rfl

@[simp] lemma textOf_nil : textOf [] = "" := rfl

@[simp] lemma textOf_cons (mark : Mark) (marks : List Mark) :
    textOf (mark :: marks) = mark.text ++ textOf marks := by
  simp [textOf]

@[simp] lemma textOf_append (marks others : List Mark) :
    textOf (marks ++ others) = textOf marks ++ textOf others := by
  simp [textOf]

@[simp] lemma listedIn_append (marks others : List Mark) :
    listedIn (marks ++ others) = listedIn marks ++ listedIn others := by
  simp [listedIn]

@[simp] lemma listedIn_words (text : String) (marks : List Mark) :
    listedIn (.words text :: marks) = listedIn marks := rfl

@[simp] lemma listedIn_list (tps : List TypeParameter) (marks : List Mark) :
    listedIn (.list tps :: marks) = tps.map TypeParameter.name ++ listedIn marks := rfl

/-- Words, or a type parameter that is in scope. -/
def Mark.InScope (params : List String) : Mark → Prop
  | .words _ => True
  | .typeParameter name => name ∈ params
  | .list _ => False

/-- Marks without lists, of which the type parameters are in scope. -/
def InScope (params : List String) (marks : List Mark) : Prop := ∀ mark ∈ marks, mark.InScope params

@[simp] lemma inScope_nil : InScope params [] := by simp [InScope]

@[simp] lemma inScope_words {text : String} :
    InScope params (.words text :: marks) ↔ InScope params marks := by
  simp [InScope, Mark.InScope]

@[simp] lemma inScope_append {others : List Mark} :
    InScope params (marks ++ others) ↔ InScope params marks ∧ InScope params others := by
  simp only [InScope, mem_append, or_imp, forall_and]

lemma InScope.used (h : InScope params marks) : ∀ name ∈ usedIn marks, name ∈ params := by
  intro name hname
  obtain ⟨mark, hmark, hname⟩ := mem_filterMap.mp hname
  have hscope := h mark hmark
  cases mark with
  | typeParameter n => simpa [Option.some.inj hname, Mark.InScope] using hscope
  | words _ => simp at hname
  | list _ => simp at hname

lemma InScope.listed (h : InScope params marks) : listedIn marks = [] := by
  rw [listedIn, flatMap_eq_nil_iff]
  intro mark hmark
  have hscope := h mark hmark
  cases mark with
  | list _ => exact hscope.elim
  | words _ => rfl
  | typeParameter _ => rfl

end Reading

/-- Marked texts with words between them. -/
def separated (sep : String) (texts : List (List Mark)) : List Mark :=
  [.words sep].intercalate texts

/-- A name with its text, marked if it is a type parameter. -/
def nameMarks (params : List String) (name text : String) : List Mark :=
  if name ∈ params ∧ name ∉ primitiveNames then [.typeParameter name] else [.words text]

def parenthesizedMarks (marks : List Mark) : List Mark := .words "(" :: marks ++ [.words ")"]

def alternativeMarks (t : TypeNode) (marks : List Mark) : List Mark :=
  match t with
  | .function .. => parenthesizedMarks marks
  | _ => marks

def arrayMarks (t : TypeNode) (marks : List Mark) : List Mark :=
  (match t with
  | .function .. | .union _ => parenthesizedMarks marks
  | _ => marks) ++ [.words "[]"]

/-- A type with its marked text. -/
structure MarkedType where
  node : TypeNode
  marks : List Mark
  alternatives : List (TypeNode × List Mark)

namespace MarkedType

def single (node : TypeNode) (marks : List Mark) : MarkedType :=
  ⟨node, marks, [(node, alternativeMarks node marks)]⟩

end MarkedType

def unionMarks (alternatives : List (TypeNode × List Mark)) : List Mark :=
  separated " | " (alternatives.map (·.2))

def MarkedType.orUndefined (t : MarkedType) : List Mark :=
  unionMarks ((t.alternatives ++ [(TypeNode.undefined, [Mark.words "undefined"])]).eraseDupsBy
    fun a b => a.1 == b.1)

def DeclaredParam.marks (p : DeclaredParam MarkedType) : List Mark :=
  match p.form with
  | .required => .words (p.name ++ ": ") :: p.type.marks
  | .optional => .words (p.name ++ "?: ") :: p.type.marks
  | .orUndefined => .words (p.name ++ ": ") :: p.type.orUndefined
  | .rest => .words ("..." ++ p.name ++ ": ") :: arrayMarks p.type.node p.type.marks
  | .array => .words (p.name ++ ": ") :: arrayMarks p.type.node p.type.marks

def paramsMarks (params : List (FunctionParam MarkedType)) : List Mark :=
  separated ", " ((declaredParams params).map DeclaredParam.marks)

/-- Parameters after the type of `this`. -/
def thisMarks (params : List Mark) : Option (List Mark) → List Mark
  | some marks =>
    if (textOf params).isEmpty then .words "this: " :: marks
    else .words "this: " :: marks ++ .words ", " :: params
  | none => params

def functionMarks (params : List Mark) (returns thisType constructs : Option (List Mark)) :
    List Mark :=
  match constructs with
  | some marks => .words "new (" :: thisMarks params thisType ++ .words ") => " :: marks
  | none =>
    .words "(" :: thisMarks params thisType ++ .words ") => " :: returns.getD [.words "void"]

def fieldMarks (f : RecordField (List Mark)) : List Mark :=
  .words (label f.name ++ (if f.optional then "?" else "") ++ ": ") :: f.type

def recordMarks (fields : List (RecordField (List Mark))) : List Mark :=
  if fields.isEmpty then [.words "\x7b\x7d"]
  else .words "\x7b " :: separated "; " (fields.map fieldMarks) ++ [.words " \x7d"]

/-- Of the key only its kind is printed. -/
def dictionaryMarks (key value : List Mark) : List Mark :=
  let key := textOf key
  let key := if key == "string" || key == "number" || key == "symbol" then key else "string"
  .words ("\x7b [key: " ++ key ++ "]: ") :: value ++ [.words " \x7d"]

def argumentsMarks (args : List (List Mark)) : List Mark :=
  .words "<" :: separated ", " args ++ [.words ">"]

def genericMarks (scope : TypeScope) (params : List String) (base : String)
    (args : List (List Mark)) :
    List Mark :=
  match scope.resolve base with
  | some text => nameMarks params base text ++ argumentsMarks args
  | none =>
    if scope.fallback base = "any" then [.words "any"]
    else .words (scope.fallback base) :: argumentsMarks args

def appliedMarks (scope : TypeScope) (params : List String) (base : String)
    (args : List (List Mark)) :
    List Mark :=
  match args with
  | [key, value] =>
    if base == "Object" then dictionaryMarks key value else genericMarks scope params base args
  | _ => genericMarks scope params base args

/-- The kind that is printed for the key of an object. -/
def keyText (text : String) : String :=
  if text == "string" || text == "number" || text == "symbol" then text else "string"

mutual

/-- A type with its marked text, where `params` are the type parameters in scope. -/
def markedType (scope : TypeScope) (params : List String) : TypeNode → MarkedType
  | .named name => .single (.named name) (nameMarks params name (scope.nameText name))
  | .union members =>
    let alternatives := markedAlternatives scope params members
    ⟨.union members, unionMarks alternatives, alternatives⟩
  | .array element =>
    .single (.array element) (arrayMarks element (markedType scope params element).marks)
  | .generic base args =>
    .single (.generic base args) (appliedMarks scope params base (markedTexts scope params args))
  | .function ps returns thisType constructs =>
    .single (.function ps returns thisType constructs)
      (functionMarks (paramsMarks (markedParams scope params ps))
        (markedOption scope params returns)
        (markedOption scope params thisType) (markedOption scope params constructs))
  | .record fields => .single (.record fields) (recordMarks (markedFields scope params fields))
  | .literal text => .single (.literal text) [.words text]
  | .unreadable raw => .single (.unreadable raw) [.words "any"]

def markedAlternatives (scope : TypeScope) (params : List String) :
    List TypeNode → List (TypeNode × List Mark)
  | [] => []
  | t :: rest =>
    (t, alternativeMarks t (markedType scope params t).marks) :: markedAlternatives
      scope params rest

def markedTexts (scope : TypeScope) (params : List String) : List TypeNode → List (List Mark)
  | [] => []
  | t :: rest => (markedType scope params t).marks :: markedTexts scope params rest

def markedOption (scope : TypeScope) (params : List String) : Option TypeNode → Option (List Mark)
  | none => none
  | some t => some (markedType scope params t).marks

def markedParams (scope : TypeScope) (params : List String) :
    List (FunctionParam TypeNode) → List (FunctionParam MarkedType)
  | [] => []
  | ⟨name, t, optional, variadic⟩ :: rest =>
    ⟨name, markedType scope params t, optional, variadic⟩ :: markedParams scope params rest

def markedFields (scope : TypeScope) (params : List String) :
    List (RecordField TypeNode) → List (RecordField (List Mark))
  | [] => []
  | ⟨name, t, optional, description⟩ :: rest =>
    ⟨name, (markedType scope params t).marks, optional, description⟩ ::
      markedFields scope params rest

end

section Lists

variable (scope : TypeScope) (params : List String)

lemma markedAlternatives_eq (l : List TypeNode) : markedAlternatives scope params l =
    l.map fun t => (t, alternativeMarks t (markedType scope params t).marks) := by
  induction l with
  | nil => rfl
  | cons t rest ih => rw [markedAlternatives, ih, map_cons]

lemma shownAlternatives_eq (l : List TypeNode) :
    shownAlternatives scope l = l.map fun t => (t, alternativeText t (typeText scope t)) := by
  induction l with
  | nil => rfl
  | cons t rest ih => rw [shownAlternatives, ih, map_cons, typeText]

lemma alternatives_markedType (t : TypeNode) : (markedType scope params t).alternatives =
    t.alternatives.map fun a => (a, alternativeMarks a (markedType scope params a).marks) := by
  cases t with
  | union members =>
    rw [markedType]
    exact markedAlternatives_eq ..
  | _ => simp [markedType, MarkedType.single, TypeNode.alternatives]

lemma alternatives_shownType (t : TypeNode) : (shownType scope t).alternatives =
    t.alternatives.map fun a => (a, alternativeText a (typeText scope a)) := by
  cases t with
  | union members =>
    rw [shownType]
    exact shownAlternatives_eq ..
  | _ => simp [shownType, ShownType.single, TypeNode.alternatives, typeText]

lemma markedTexts_eq (l : List TypeNode) :
    markedTexts scope params l = l.map fun t => (markedType scope params t).marks := by
  induction l with
  | nil => rfl
  | cons t rest ih => rw [markedTexts, ih, map_cons]

lemma shownTexts_eq (l : List TypeNode) : shownTexts scope l = l.map (typeText scope) := by
  induction l with
  | nil => rfl
  | cons t rest ih => rw [shownTexts, ih, map_cons, typeText]

lemma markedParams_eq (l : List (FunctionParam TypeNode)) :
    markedParams scope params l = l.map (FunctionParam.map (markedType scope params)) := by
  induction l with
  | nil => rfl
  | cons p rest ih =>
    rw [markedParams, ih, map_cons]
    rfl

lemma markedFields_eq (l : List (RecordField TypeNode)) : markedFields scope params l =
    l.map fun f => ⟨f.name, (markedType scope params f.type).marks, f.optional, f.description⟩ := by
  induction l with
  | nil => rfl
  | cons f rest ih => rw [markedFields, ih, map_cons]

lemma shownFields_eq (l : List (RecordField TypeNode)) : shownFields scope l =
    l.map fun f => ⟨f.name, typeText scope f.type, f.optional, f.description⟩ := by
  induction l with
  | nil => rfl
  | cons f rest ih => rw [shownFields, ih, map_cons, typeText]

lemma markedOption_eq (t : Option TypeNode) :
    markedOption scope params t = t.map fun t => (markedType scope params t).marks := by
  cases t <;> rfl

lemma shownOption_eq (t : Option TypeNode) : shownOption scope t = t.map (typeText scope) := by
  cases t <;> rfl

lemma shownParams_eq (l : List (FunctionParam TypeNode)) :
    shownParams scope l = l.map (FunctionParam.map (shownType scope)) := by
  induction l with
  | nil => rfl
  | cons p rest ih =>
    rw [shownParams, ih, map_cons]
    rfl

lemma typeText_union (members : List TypeNode) : typeText scope (.union members) =
    joined " | " (members.map fun t => alternativeText t (typeText scope t)) := by
  rw [typeText, shownType, shownAlternatives_eq, unionText, map_map]
  rfl

end Lists

/-- Equal alternatives are told by their types, not by their texts. -/
lemma map_eraseDupsBy {β γ : Type} (g : β → γ) (l : List (TypeNode × β)) :
    (l.eraseDupsBy fun a b => a.1 == b.1).map (fun a => (a.1, g a.2)) =
      (l.map fun a => (a.1, g a.2)).eraseDupsBy fun a b => a.1 == b.1 := by
  have hloop : ∀ seen : List (TypeNode × β),
      (eraseDupsBy.loop (fun a b => a.1 == b.1) l seen).map (fun a => (a.1, g a.2)) =
        eraseDupsBy.loop (fun a b => a.1 == b.1) (l.map fun a => (a.1, g a.2))
          (seen.map fun a => (a.1, g a.2)) := by
    induction l with
    | nil => simp [eraseDupsBy.loop]
    | cons a rest ih =>
      intro seen
      simp only [eraseDupsBy.loop, map_cons, any_map, Function.comp_def]
      split
      · exact ih seen
      · exact ih (a :: seen)
  exact hloop []

lemma mem_of_mem_eraseDupsBy {β : Type} {r : β → β → Bool} {l : List β} {b : β}
    (h : b ∈ l.eraseDupsBy r) : b ∈ l := by
  have hloop : ∀ seen, b ∈ eraseDupsBy.loop r l seen → b ∈ l ∨ b ∈ seen := by
    clear h
    induction l with
    | nil => intro seen h; exact Or.inr (by simpa [eraseDupsBy.loop] using h)
    | cons a rest ih =>
      intro seen h
      simp only [eraseDupsBy.loop] at h
      split at h
      · exact (ih seen h).imp_left (mem_cons_of_mem _)
      · rcases ih (a :: seen) h with h | h
        · exact Or.inl (mem_cons_of_mem _ h)
        · rcases mem_cons.mp h with rfl | h
          · exact Or.inl mem_cons_self
          · exact Or.inr h
  simpa using hloop [] h

lemma declaredFrom_map {τ σ : Type} (g : τ → σ) (position : Nat) (seen : List String)
    (l : List (FunctionParam τ)) : declaredFrom position seen (l.map (FunctionParam.map g)) =
      (declaredFrom position seen l).map fun p => ⟨p.name, p.form, g p.type⟩ := by
  induction l generalizing position seen with
  | nil => rfl
  | cons p later ih =>
    have hform : paramForm (p.map g) (later.map (FunctionParam.map g)) = paramForm p later := by
      simp only [paramForm, FunctionParam.map, isEmpty_map, any_map]
      rfl
    rw [map_cons, declaredFrom, declaredFrom, map_cons, hform, ih]
    rfl

lemma mem_declaredFrom {τ : Type} {position : Nat} {seen : List String} {l : List (FunctionParam τ)}
    {d : DeclaredParam τ} (h : d ∈ declaredFrom position seen l) : ∃ p ∈ l, p.type = d.type := by
  induction l generalizing position seen with
  | nil => simp [declaredFrom] at h
  | cons p later ih =>
    rw [declaredFrom] at h
    rcases mem_cons.mp h with rfl | h
    · exact ⟨p, mem_cons_self, rfl⟩
    · obtain ⟨q, hq, htype⟩ := ih h
      exact ⟨q, mem_cons_of_mem _ hq, htype⟩

/-- The characters that stand behind the text of a type. -/
def delimiters : List Char := [' ', ',', ';', ')', '>', '<', '[']

/-- A text that starts with a delimiter. -/
def Delimits (text : String) : Prop := (text.toList.head?.any fun c => c ∈ delimiters) = true

instance (text : String) : Decidable (Delimits text) := inferInstanceAs (Decidable (_ = true))

/-- A relation between marked pieces and texts that is kept when pieces are put together, as long as
a delimiter stands between them. -/
structure Composes (R : List Mark → String → Prop) : Prop where
  nil : R [] ""
  after {marks : List Mark} {text : String} (h : R marks text) (words : String) :
    R (.words words :: marks) (words ++ text)
  before {marks others : List Mark} {text words more : String} (h : R marks text)
    (hwords : Delimits words) (hmore : R others more) :
    R (marks ++ .words words :: others) (text ++ (words ++ more))

/-- What is printed of a type in another scope, and of its alternatives. -/
structure Related (R : List Mark → String → Prop) (inner outer : TypeScope) (params : List String)
    (t : TypeNode) : Prop where
  marks : R (markedType inner params t).marks (typeText outer t)
  alternatives : ∀ a ∈ t.alternatives, R (markedType inner params a).marks (typeText outer a)

namespace Composes

variable {R : List Mark → String → Prop} {inner outer : TypeScope} {params : List String}
  {marks : List Mark} {text : String} {f : TypeNode → List Mark}
    {g : TypeNode → String} {t : TypeNode}
  (hR : Composes R)

include hR

lemma words (words : String) : R [.words words] words := by
  simpa using hR.after hR.nil words

lemma enclosed (h : R marks text) (opening : String) {closing : String}
    (hclosing : Delimits closing) :
    R (.words opening :: marks ++ [.words closing]) (opening ++ text ++ closing) := by
  have hall := hR.after (hR.before h hclosing hR.nil) opening
  simpa only [String.append_empty, String.append_assoc, cons_append] using hall

lemma between {α : Type} {sep : String} (hsep : Delimits sep) (l : List α) {f : α → List Mark}
    {g : α → String} (h : ∀ a ∈ l, R (f a) (g a)) :
    R (separated sep (l.map f)) (joined sep (l.map g)) := by
  induction l with
  | nil => exact hR.nil
  | cons a rest ih =>
    rw [forall_mem_cons] at h
    cases rest with
    | nil => simpa [separated, joined] using h.1
    | cons b rest =>
      have hall := hR.before h.1 hsep (ih h.2)
      simp only [separated, joined, map_cons, intercalate_cons_cons,
        String.intercalate_cons_cons] at hall ⊢
      simpa only [String.append_assoc, append_assoc, singleton_append] using hall

lemma alternative (t : TypeNode) (h : R marks text) :
    R (alternativeMarks t marks) (alternativeText t text) := by
  cases t with
  | function => exact hR.enclosed h "(" (by decide)
  | _ => exact h

lemma array (t : TypeNode) (h : R marks text) : R (arrayMarks t marks) (arrayText t text) := by
  have hbehind : ∀ {marks text}, R marks text → R (marks ++ [.words "[]"]) (text ++ "[]") :=
    fun h => by simpa using hR.before h (by decide : Delimits "[]") hR.nil
  cases t with
  | function | union => exact hbehind (hR.enclosed h "(" (by decide))
  | _ => exact hbehind h

lemma arguments (h : R marks text) {l : List TypeNode} (hl : ∀ t ∈ l, R (f t) (g t)) :
    R (marks ++ argumentsMarks (l.map f)) (text ++ argumentsText (l.map g)) := by
  have hsep : Delimits ", " := by decide
  have hargs := hR.before (hR.between hsep l hl) (by decide : Delimits ">") hR.nil
  have hall := hR.before h (by decide : Delimits "<") hargs
  simpa only [argumentsMarks, argumentsText, String.append_empty, String.append_assoc, cons_append]
    using hall

lemma dictionary {key value : List Mark} {keyIn valueIn : String}
    (hkey : keyText (textOf key) = keyText keyIn) (hvalue : R value valueIn) :
    R (dictionaryMarks key value) (dictionaryText keyIn valueIn) := by
  have hall := hR.enclosed hvalue ("\x7b [key: " ++ keyText keyIn ++ "]: ")
    (by decide : Delimits " \x7d")
  change R (.words ("\x7b [key: " ++ keyText (textOf key) ++ "]: ") :: value ++ [.words " \x7d"]) _
  rw [hkey]
  exact hall

lemma record {fields : List (RecordField TypeNode)} (h : ∀ r ∈ fields, R (f r.type) (g r.type)) :
    R (recordMarks (fields.map fun r => ⟨r.name, f r.type, r.optional, r.description⟩))
      (recordText (fields.map fun r => ⟨r.name, g r.type, r.optional, r.description⟩)) := by
  unfold recordMarks recordText
  rw [isEmpty_map, isEmpty_map]
  split
  · exact hR.words _
  · rw [map_map, map_map]
    refine hR.enclosed (hR.between (by decide) fields fun r hr => ?_) "\x7b " (by decide)
    exact hR.after (h r hr) _

lemma orUndefined (h : Related R inner outer params t) :
    R (markedType inner params t).orUndefined (shownType outer t).orUndefined := by
  -- The same alternatives are left out in both, since they are told by their types.
  let both : List (TypeNode × List Mark × String) :=
    t.alternatives.map (fun a => (a, alternativeMarks a (markedType inner params a).marks,
      alternativeText a (typeText outer a))) ++
        [(TypeNode.undefined, [Mark.words "undefined"], "undefined")]
  have hmarks : (markedType inner params t).orUndefined =
      separated " | " ((both.eraseDupsBy fun a b => a.1 == b.1).map fun a => a.2.1) := by
    have hboth : both.map (fun a => (a.1, a.2.1)) = (markedType inner params t).alternatives ++
            [(TypeNode.undefined, [Mark.words "undefined"])] := by
      simp [both, alternatives_markedType]
    rw [MarkedType.orUndefined, unionMarks, ← hboth, ← map_eraseDupsBy Prod.fst, map_map]
    rfl
  have htext : (shownType outer t).orUndefined =
      joined " | " ((both.eraseDupsBy fun a b => a.1 == b.1).map fun a => a.2.2) := by
    have hboth : both.map (fun a => (a.1, a.2.2)) =
        (shownType outer t).alternatives ++ [(TypeNode.undefined, "undefined")] := by
      simp [both, alternatives_shownType]
    rw [ShownType.orUndefined, unionText, ← hboth, ← map_eraseDupsBy Prod.snd, map_map]
    rfl
  rw [hmarks, htext]
  refine hR.between (by decide) _ fun a ha => ?_
  rcases mem_append.mp (mem_of_mem_eraseDupsBy ha) with ha | ha
  · obtain ⟨alternative, halternative, rfl⟩ := mem_map.mp ha
    exact hR.alternative _ (h.alternatives alternative halternative)
  · obtain rfl := mem_singleton.mp ha
    exact hR.words _

lemma parameters {ps : List (FunctionParam TypeNode)}
    (h : ∀ p ∈ ps, Related R inner outer params p.type) :
    R (paramsMarks (markedParams inner params ps)) (paramsText (shownParams outer ps)) := by
  rw [markedParams_eq, shownParams_eq]
  unfold paramsMarks paramsText declaredParams
  rw [declaredFrom_map, declaredFrom_map, map_map, map_map]
  refine hR.between (by decide) _ fun d hd => ?_
  obtain ⟨p, hp, htype⟩ := mem_declaredFrom hd
  have hrelated := h p hp
  rw [htype] at hrelated
  have hnode : (markedType inner params d.type).node = d.type ∧
      (shownType outer d.type).node = d.type := by
    cases d.type <;> simp [markedType, shownType, MarkedType.single, ShownType.single]
  have harray := hR.array d.type hrelated.marks
  simp only [Function.comp_apply, DeclaredParam.marks, DeclaredParam.text, hnode]
  cases d.form with
  | required | optional => exact hR.after hrelated.marks _
  | orUndefined => exact hR.after (hR.orUndefined hrelated) _
  | rest | array => exact hR.after harray _

/-- The parameters of a function after the type of `this`. -/
lemma this {ps : List Mark} (hps : R ps text) (hempty : (textOf ps).isEmpty = text.isEmpty)
    {self : List Mark} {selfIn : String} (hself : R self selfIn) : R (thisMarks ps (some self))
      (if text.isEmpty then "this: " ++ selfIn else "this: " ++ selfIn ++ ", " ++ text) := by
  rw [thisMarks, hempty]
  split
  · exact hR.after hself _
  · have hall := hR.after (hR.before hself (by decide : Delimits ", ") hps) "this: "
    simpa only [String.append_assoc, cons_append] using hall

lemma function {ps : List Mark} (hps : R ps text) (hempty : (textOf ps).isEmpty = text.isEmpty)
    {returns thisType constructs : Option TypeNode} (hreturns : ∀ t ∈ returns, R (f t) (g t))
    (hthis : ∀ t ∈ thisType, R (f t) (g t)) (hconstructs : ∀ t ∈ constructs, R (f t) (g t)) :
    R (functionMarks ps (returns.map f) (thisType.map f) (constructs.map f))
      (functionText text (returns.map g) (thisType.map g) (constructs.map g)) := by
  have harrow : ∀ {ps result : List Mark} {text resultIn : String} (opening : String), R ps text →
      R result resultIn → R (.words opening :: ps ++ .words ") => " :: result)
        (opening ++ text ++ ") => " ++ resultIn) := by
    intro ps result text resultIn opening hps hresult
    have hall := hR.after (hR.before hps (by decide : Delimits ") => ") hresult) opening
    simpa only [String.append_assoc, cons_append] using hall
  have hall : ∃ text', R (thisMarks ps (thisType.map f)) text' ∧ ∀ returns constructs,
      functionText text returns (thisType.map g) constructs =
          functionText text' returns none constructs := by
    cases thisType with
    | none => exact ⟨text, hps, fun _ _ => rfl⟩
    | some self => exact ⟨_, hR.this hps hempty (hthis self rfl), fun _ _ => rfl⟩
  obtain ⟨text', htext', hfunction⟩ := hall
  rw [hfunction]
  cases constructs with
  | some made => exact harrow "new (" htext' (hconstructs made rfl)
  | none =>
    cases returns with
    | some result => exact harrow "(" htext' (hreturns result rfl)
    | none => exact harrow "(" htext' (hR.words "void")

end Composes

/-- A relation between pieces that are marked in one scope and texts in another that holds of the
names with the property `P`. -/
structure Relates (inner outer : TypeScope) (params : List String) (P : String → Prop)
    (R : List Mark → String → Prop) : Prop extends Composes R where
  named {name : String} (hname : P name) :
    R (nameMarks params name (inner.nameText name)) (outer.nameText name)
  generic {base : String} (hbase : P base) {args : List TypeNode}
    (hargs : ∀ t ∈ args, R (markedType inner params t).marks (typeText outer t)) :
    R (genericMarks inner params base (args.map fun t => (markedType inner params t).marks))
      (genericText outer base (args.map (typeText outer)))
  /-- Of a key only its kind is printed. -/
  key {t : TypeNode} (ht : t.Over P) (h : R (markedType inner params t).marks (typeText outer t)) :
    keyText (textOf (markedType inner params t).marks) = keyText (typeText outer t)
  /-- Parameters are printed alike as far as there are any. -/
  empty {ps : List (FunctionParam TypeNode)}
    (h : R (paramsMarks (markedParams inner params ps)) (paramsText (shownParams outer ps))) :
    (textOf (paramsMarks (markedParams inner params ps))).isEmpty =
      (paramsText (shownParams outer ps)).isEmpty

section Relates

variable {R : List Mark → String → Prop} {inner outer : TypeScope} {params : List String}
  {P : String → Prop} {t : TypeNode}

lemma Relates.applied (hR : Relates inner outer params P R) {base : String} (hbase : P base)
    {args : List TypeNode} (hover : ∀ t ∈ args, t.Over P)
    (hargs : ∀ t ∈ args, R (markedType inner params t).marks (typeText outer t)) :
    R (appliedMarks inner params base (args.map fun t => (markedType inner params t).marks))
      (appliedText outer base (args.map (typeText outer))) := by
  have hgeneric := hR.generic hbase hargs
  rcases args with _ | ⟨key, _ | ⟨value, _ | ⟨other, rest⟩⟩⟩
  · exact hgeneric
  · exact hgeneric
  · by_cases hobject : (base == "Object") = true
    · have hkey := hR.key (hover key (by simp)) (hargs key (by simp))
      have hall := hR.dictionary hkey (hargs value (by simp))
      simpa [appliedMarks, appliedText, hobject] using hall
    · simpa [appliedMarks, appliedText, hobject] using hgeneric
  · exact hgeneric

/-- A type that is no union has no alternatives but itself. -/
lemma Related.single (h : R (markedType inner params t).marks (typeText outer t))
    (ht : t.alternatives = [t]) : Related R inner outer params t :=
  ⟨h, fun a ha => by
    rw [ht, mem_singleton] at ha
    exact ha ▸ h⟩

/-- **What relates the names in a type relates the type.** -/
lemma Relates.type (hR : Relates inner outer params P R) (ht : t.Over P) :
    Related R inner outer params t := by
  induction ht with
  | named isName =>
    refine .single ?_ rfl
    rw [markedType, typeText, shownType]
    exact hR.named isName
  | @union members _ ih =>
    refine ⟨?_, fun a ha => (ih a ha).marks⟩
    rw [typeText_union, markedType, markedAlternatives_eq, unionMarks, map_map]
    exact hR.between (by decide) members fun a ha => hR.alternative a (ih a ha).marks
  | array _ ih =>
    refine .single ?_ rfl
    rw [markedType, typeText, shownType]
    exact hR.array _ ih.marks
  | @generic base args isName args_over ih =>
    refine .single ?_ rfl
    rw [markedType, typeText, shownType, markedTexts_eq, shownTexts_eq]
    exact hR.applied isName args_over fun t ht => (ih t ht).marks
  | @function ps returns thisType constructs _ _ _ _ ihps ihreturns ihthis ihconstructs =>
    refine .single ?_ rfl
    have hps := hR.parameters ihps
    rw [markedType, typeText, shownType]
    simp only [markedOption_eq, shownOption_eq]
    exact hR.function hps (hR.empty hps) (fun t ht => (ihreturns t ht).marks)
      (fun t ht => (ihthis t ht).marks) fun t ht => (ihconstructs t ht).marks
  | @record fields _ ih =>
    refine .single ?_ rfl
    rw [markedType, typeText, shownType, markedFields_eq, shownFields_eq]
    exact hR.record (f := fun t => (markedType inner params t).marks) fun f hf => (ih f hf).marks
  | literal text =>
    refine .single ?_ rfl
    rw [markedType, typeText, shownType]
    exact hR.words _
  | unreadable raw =>
    refine .single ?_ rfl
    rw [markedType, typeText, shownType]
    exact hR.words _

end Relates

/-- A scope that answers for type parameters with their names. -/
def TypeScope.Knows (scope : TypeScope) (params : List String) : Prop :=
  ∀ name ∈ params, scope.resolve name = some name

/-- Marks that spell a text, of which the type parameters are in scope. -/
structure Spells (params : List String) (marks : List Mark) (text : String) : Prop where
  text : textOf marks = text
  inScope : InScope params marks

section Spells

variable {scope : TypeScope} {params : List String} {marks others : List Mark} {text more : String}

lemma composes_spells : Composes (Spells params) where
  nil := ⟨rfl, by simp⟩
  after h words := ⟨by simp [h.text], by simpa using h.inScope⟩
  before h _ hmore := ⟨by simp [h.text, hmore.text], by simpa using ⟨h.inScope, hmore.inScope⟩⟩

/-- What a scope answers for a type parameter is the name. -/
lemma spells_nameMarks {name : String} (h : name ∈ params → name ∉ primitiveNames → text = name) :
    Spells params (nameMarks params name text) text := by
  unfold nameMarks
  split
  · rename_i hparam
    exact ⟨by simp [Mark.text, h hparam.1 hparam.2], by simpa [InScope, Mark.InScope]
      using hparam.1⟩
  · exact composes_spells.words text

/-- A generic type without its arguments if it can be anything. -/
lemma genericText_eq (scope : TypeScope) (base : String) (args : List String) :
    genericText scope base args = if scope.resolve base = none ∧ scope.fallback base =
      "any" then "any"
      else scope.nameText base ++ argumentsText args := by
  unfold genericText TypeScope.nameText
  cases scope.resolve base <;> simp

lemma genericMarks_eq (h : scope.Knows params) (base : String) (args : List (List Mark)) :
    genericMarks scope params base args =
      if scope.resolve base = none ∧ scope.fallback base = "any" then [.words "any"]
      else nameMarks params base (scope.nameText base) ++ argumentsMarks args := by
  unfold genericMarks TypeScope.nameText
  cases hbase : scope.resolve base with
  | some text => simp
  | none =>
    have hparam : base ∉ params := fun hparam => by simp [h base hparam] at hbase
    simp [nameMarks, hparam]

lemma relates_spells (h : scope.Knows params) :
    Relates scope scope params (fun _ => True) (Spells params) := by
  have hnamed : ∀ name, Spells params (nameMarks params name (scope.nameText name))
      (scope.nameText name) :=
    fun name => spells_nameMarks fun hparam _ => by rw [TypeScope.nameText, h name hparam,
      Option.getD_some]
  refine { composes_spells with
    named := fun _ => hnamed _
    generic := fun {base} _ {args} hargs => ?_
    key := fun _ h => by rw [h.text]
    empty := fun h => by rw [h.text] }
  rw [genericMarks_eq h, genericText_eq]
  split
  · exact composes_spells.words _
  · exact composes_spells.arguments (hnamed base) hargs

/-- **Without the marks, a marked type is the printed type**, and what is marked is in scope. -/
lemma spells_markedType (h : scope.Knows params) (t : TypeNode) :
    Spells params (markedType scope params t).marks (typeText scope t) :=
  ((relates_spells h).type (t.over_of_forall fun _ => trivial)).marks

lemma spells_paramsMarks (h : scope.Knows params) (ps : List (FunctionParam TypeNode)) :
    Spells params (paramsMarks (markedParams scope params ps))
      (paramsText (shownParams scope ps)) :=
  composes_spells.parameters fun p _ =>
    (relates_spells h).type (p.type.over_of_forall fun _ => trivial)

end Spells

end AmbientDecl

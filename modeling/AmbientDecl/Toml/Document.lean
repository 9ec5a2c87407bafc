import AmbientDecl.Toml.Text

/-!
# Configuration files

A document builds its tables step by step: a header opens a table, an entry adds a value under a
path of names. Not every step is allowed. A table has one header, an entry does not reach into a
table that has a header or that the entries of another section made, and what was written inside
brackets or braces takes no further members.

A configuration file has a statement on each line: an entry with a key and a value, or a header in
brackets that says which table the entries after it belong to. A number sign starts a comment.
-/

namespace AmbientDecl.Toml

open Json

/-- The members of a table, in order. -/
abbrev Members := List (String × Value)

/-- The paths that later steps have to respect. -/
structure Marks where
  /-- Tables that no header and no entry may open. -/
  declared : List Path
  /-- Values that take no further members, at any depth. -/
  frozen : List Path
  /-- Tables that are declared when the section ends. -/
  pending : List Path

namespace Marks

def empty : Marks := ⟨[], [], []⟩

def isDeclared (m : Marks) (path : Path) : Bool :=
  m.declared.contains path

/-- Whether a path leads to or through a frozen value. -/
def isFrozen (m : Marks) (path : Path) : Bool :=
  m.frozen.any fun frozen => frozen.isPrefixOf path

def declare (m : Marks) (path : Path) : Marks :=
  { m with declared := path :: m.declared }

def freeze (m : Marks) (path : Path) : Marks :=
  { m with frozen := path :: m.frozen }

/-- Declares a table from the next section on. -/
def declareLater (m : Marks) (path : Path) : Marks :=
  { m with pending := path :: m.pending }

/-- The marks at the end of a section. -/
def endSection (m : Marks) : Marks :=
  { m with declared := m.pending ++ m.declared, pending := [] }

/-- The marks without those at a path and below it. -/
def release (m : Marks) (path : Path) : Marks :=
  { m with
    declared := m.declared.filter fun p => !path.isPrefixOf p
    frozen := m.frozen.filter fun p => !path.isPrefixOf p }

end Marks

/-- Changes the table at a path and makes the tables on the way that are not there. Of an array the
last item is meant, if `intoArrays`. A path through any other value leads nowhere. -/
def changeAt (intoArrays : Bool) (change : Members → Option Members) :
    Path → Members → Option Members
  | [], ms => change ms
  | name :: path, ms =>
    match lookup name ms with
    | none => do
      let inner ← changeAt intoArrays change path []
      return putMember name (.object inner) ms
    | some (.object inner) => do
      let inner ← changeAt intoArrays change path inner
      return putMember name (.object inner) ms
    | some (.array items) =>
      match intoArrays, items.getLast? with
      | true, some (.object inner) => do
        let inner ← changeAt intoArrays change path inner
        return putMember name (.array (items.dropLast ++ [.object inner])) ms
      | _, _ => none
    | some _ => none

/-- Adds a member that is not there yet. -/
def addMember (name : String) (v : Value) (ms : Members) : Option Members :=
  if (lookup name ms).isSome then none else some (ms ++ [(name, v)])

/-- Adds an empty table to the array of a name. -/
def addItem (name : String) (ms : Members) : Option Members :=
  match lookup name ms with
  | none => some (ms ++ [(name, .array [.object []])])
  | some (.array items) => some (putMember name (.array (items ++ [.object []])) ms)
  | some _ => none

/-- Whether a value is written inside brackets or braces. -/
def isEnclosed : Value → Bool
  | .array _ | .object _ => true
  | _ => false

/-- The ways to the tables that a path goes through. -/
def waypoints (path : Path) : List Path :=
  (List.range (path.length - 1)).map fun i => path.take (i + 1)

/-- A document so far. -/
structure Draft where
  members : Members
  marks : Marks
  /-- The table that entries go to. -/
  header : Path

namespace Draft

def empty : Draft := ⟨[], .empty, []⟩

def openTable (d : Draft) (path : Path) : Except Problem Draft :=
  let marks := d.marks.endSection
  if marks.isDeclared path || marks.isFrozen path then .error (.repeatedTable path)
  else match changeAt true some path d.members with
    | none => .error .overwriting
    | some members => .ok ⟨members, marks.declare path, path⟩

def openItem (d : Draft) (path : Path) : Except Problem Draft :=
  let marks := d.marks.endSection
  if marks.isFrozen path then .error (.immutable path)
  else match changeAt true (addItem (path.getLast?.getD "")) path.dropLast d.members with
    | none => .error .overwriting
    | some members => .ok ⟨members, (marks.release path).declare path, path⟩

/-- Declares the tables that an entry goes through from the next section on. -/
def declareWaypoints (marks : Marks) : List Path → Except Problem Marks
  | [] => .ok marks
  | path :: rest =>
    if marks.isDeclared path then .error (.reopenedTable path)
    else declareWaypoints (marks.declareLater path) rest

def enter (d : Draft) (path : Path) (v : Value) : Except Problem Draft := do
  let marks ← declareWaypoints d.marks ((waypoints path).map (d.header ++ ·))
  let parent := d.header ++ path.dropLast
  if marks.isFrozen parent then throw (.immutable parent)
  match changeAt true (addMember (path.getLast?.getD "") v) parent d.members with
  | none => throw .overwriting
  | some members =>
    let marks := if isEnclosed v then marks.freeze (d.header ++ path) else marks
    return { d with members, marks }

end Draft

/-- A table inside braces so far. -/
structure InlineDraft where
  members : Members
  marks : Marks

namespace InlineDraft

def empty : InlineDraft := ⟨[], .empty⟩

def enter (d : InlineDraft) (path : Path) (v : Value) : Except Problem InlineDraft :=
  let name := path.getLast?.getD ""
  if d.marks.isFrozen path then .error (.immutable path)
  else match changeAt false some path.dropLast d.members with
    | none => .error .overwriting
    | some _ =>
      match changeAt false (addMember name v) path.dropLast d.members with
      | none => .error (.repeatedKey name)
      | some members => .ok ⟨members, if isEnclosed v then d.marks.freeze path else d.marks⟩

end InlineDraft

open Json Text

/-- Whether a character can stand in a key without quotes. -/
def isKeyChar (c : Char) : Bool :=
  c.isAlphanum || c == '_' || c == '-'

/-- Whether a character can start a key. -/
def isKeyStart (c : Char) : Bool :=
  isKeyChar c || c == '"' || c == '\''

/-- One part of a key, and the text after it. -/
def keyPart (cs : List Char) : Except Stop (String × List Char) :=
  match cs with
  | '"' :: rest => basicText rest
  | '\'' :: rest => literalText rest
  | _ =>
    let part := cs.takeWhile isKeyChar
    if part.isEmpty then .error ⟨.keyStart, cs.length⟩
    else .ok (String.ofList part, cs.dropWhile isKeyChar)

def keyPath (cs : List Char) : Read Path cs := do
  let (part, rest) ← keyPart cs
  match h : rest.dropWhile isGap with
  | '.' :: after =>
    if hlt : (after.dropWhile isGap).length < cs.length then do
      let more ← keyPath (after.dropWhile isGap)
      return ⟨part :: more.value, more.rest, by have := more.shorter; omega⟩
    else throw ⟨.keyStart, cs.length⟩
  | after => match Parsed.ofRest? [part] after with
    | some p => return p
    | none => throw ⟨.keyStart, cs.length⟩
termination_by cs.length

/-- A text, a truth value, a moment or a number, and the text after it. -/
def scalar (cs : List Char) : Except Stop (Value × List Char) :=
  let text (read : Except Stop (String × List Char)) : Except Stop (Value × List Char) :=
    read.map fun (s, after) => (.string s, after)
  match cs with
  | '"' :: '"' :: '"' :: rest => text (longText '"' rest)
  | '"' :: rest => text (basicText rest)
  | '\'' :: '\'' :: '\'' :: rest => text (longText '\'' rest)
  | '\'' :: rest => text (literalText rest)
  | _ =>
    match dropWord "true".toList cs, dropWord "false".toList cs, moment? cs, number? cs with
    | some after, _, _, _ => .ok (.bool true, after)
    | none, some after, _, _ => .ok (.bool false, after)
    | none, none, some (true, after), _ => .ok (.float .notANumber, after)
    | none, none, some (false, _), _ => .error ⟨.moment, cs.length⟩
    | none, none, none, some (.ok v, after) => .ok (v, after)
    | none, none, none, some (.error run, _) => .error ⟨.tooManyDigits run, cs.length⟩
    | none, none, none, none => .error ⟨.value, cs.length⟩

/-- A step that may fail, at a place `left` characters before the end. -/
def stopping {α : Type} (left : Nat) : Except Problem α → Except Stop α
  | .ok a => .ok a
  | .error problem => .error ⟨problem, left⟩

mutual

def value (cs : List Char) : Read Value cs :=
  match cs with
  | '[' :: rest => do
    let items ← arrayItems rest
    return (items.map .array).within (by simp)
  | '\x7b' :: rest =>
    match h : rest.dropWhile isGap with
    | '\x7d' :: after => .ok ⟨.object [], after, by
        have := length_dropWhile_le isGap rest
        rw [h] at this; simp only [List.length_cons] at *; omega⟩
    | _ => do
      let members ← inlineMembers .empty (rest.dropWhile isGap)
      return (members.map .object).within (by
        have := length_dropWhile_le isGap rest
        simp only [List.length_cons]; omega)
  | cs => do
    let (v, after) ← scalar cs
    match Parsed.ofRest? v after with
    | some p => return p
    | none => throw ⟨.value, cs.length⟩
termination_by (cs.length, 0)
decreasing_by
  · simp [Prod.lex_def]
  · have := length_dropWhile_le isGap rest
    simp only [List.length_cons, Prod.lex_def]; omega

/-- The items of an array from after its bracket or a comma to the closing bracket. -/
def arrayItems (cs : List Char) : Read (List Value) cs := do
  let start ← filler cs
  match h : start.rest with
  | ']' :: _ => return start.andHead h []
  | _ => do
    let v ← value start.rest
    let next ← filler v.rest
    match hn : next.rest with
    | ']' :: _ => return start.andThen (v.andThen (next.andHead hn [v.value]))
    | ',' :: after => do
      let more ← arrayItems after
      return start.andThen (v.andThen (next.andTail hn (more.map (v.value :: ·))))
    | other => throw ⟨.arrayEnd, other.length⟩
termination_by (cs.length, 1)
decreasing_by
  · have := start.notLonger
    simp only [Prod.lex_def]; omega
  · have h₁ := start.notLonger; have h₂ := v.shorter; have h₃ := next.notLonger
    rw [hn] at h₃; simp only [List.length_cons] at h₃
    simp only [Prod.lex_def]; omega

def entry (cs : List Char) : Read (Path × Value) cs := do
  let key ← keyPath cs
  match h : key.rest with
  | '=' :: rest => do
    let v ← value (rest.dropWhile isGap)
    return ⟨(key.value, v.value), v.rest, by
      have h₁ := key.shorter; have h₂ := v.shorter; have h₃ := length_dropWhile_le isGap rest
      rw [h] at h₁; simp only [List.length_cons] at h₁; omega⟩
  | other => throw ⟨.equalsSign, other.length⟩
termination_by (cs.length, 0)
decreasing_by
  have h₁ := key.shorter; have h₃ := length_dropWhile_le isGap rest
  rw [h] at h₁; simp only [List.length_cons] at h₁
  simp only [Prod.lex_def]; omega

/-- The members of a table from an entry to the closing brace. -/
def inlineMembers (d : InlineDraft) (cs : List Char) : Read Members cs := do
  let e ← entry cs
  let d ← stopping e.rest.length (d.enter e.value.1 e.value.2)
  match h : e.rest.dropWhile isGap with
  | '\x7d' :: _ => return e.andThen ((Scanned.skip isGap e.rest).andHead h d.members)
  | ',' :: after => do
    let more ← inlineMembers d (after.dropWhile isGap)
    return e.andThen ((Scanned.skip isGap e.rest).andTail h
      ((Scanned.skip isGap after).andThen more))
  | other => throw ⟨.inlineEnd, other.length⟩
termination_by (cs.length, 1)
decreasing_by
  · simp [Prod.lex_def]
  · have h₁ := e.shorter; have h₂ := length_dropWhile_le isGap e.rest
    have h₃ := length_dropWhile_le isGap after
    rw [h] at h₂; simp only [List.length_cons] at h₂
    simp only [Prod.lex_def]; omega

end

/-- A header from after its brackets, of which there are as many as in `closing`. -/
def header (openAt : Path → Except Problem Draft) (closing : List Char) (missing : Problem)
    (cs : List Char) : Except Stop (Draft × List Char) := do
  let key ← keyPath (cs.dropWhile isGap)
  let d ← stopping key.rest.length (openAt key.value)
  match dropWord closing key.rest with
  | some after => return (d, after)
  | none => throw ⟨missing, key.rest.length⟩

/-- The draft after the statement at the front, and the text after it. A comment is none. -/
def statement (d : Draft) (cs : List Char) : Except Stop (Draft × List Char) :=
  match cs with
  | '[' :: '[' :: rest => header d.openItem [']', ']'] .tableArrayEnd rest
  | '[' :: rest => header d.openTable [']'] .tableEnd rest
  | c :: _ =>
    if c = '#' then .ok (d, cs)
    else if isKeyStart c then do
      let e ← entry cs
      let d ← stopping e.rest.length (d.enter e.value.1 e.value.2)
      return (d, e.rest)
    else .error ⟨.statement, cs.length⟩
  | [] => .ok (d, cs)

/-- The members of a document of which `d` was read before. -/
def statements (d : Draft) (cs : List Char) : Except Stop Members :=
  match h : cs.dropWhile isGap with
  | [] => .ok d.members
  | '\n' :: rest =>
    have : rest.length < cs.length := by
      have := length_dropWhile_le isGap cs
      rw [h] at this; simp only [List.length_cons] at this; omega
    statements d rest
  | start => do
    let (d, after) ← statement d start
    let next ← comment (after.dropWhile isGap)
    match next.rest with
    | [] => return d.members
    | '\n' :: rest => if hlt : rest.length < cs.length then statements d rest else return d.members
    | other => throw ⟨.lineEnd, other.length⟩
termination_by cs.length

/-- Reads a file into the members of an object. -/
def parse (text : String) : Except Fault Members :=
  let cs := joinedLineEnds text.toList
  match statements .empty cs with
  | .ok ms => .ok ms
  | .error stop => .error (stop.locate cs)

end AmbientDecl.Toml

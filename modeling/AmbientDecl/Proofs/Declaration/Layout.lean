import AmbientDecl.Declaration.Document
import Mathlib.Tactic.Common

/-!
# Laid-out documents are well nested

**Reading lines.** A line whose last character is an opening brace opens a block, and a line that is
indentation and a closing brace closes one. `Nested` reads lines that way: every line is indented
once for each block around it, and at the end no block is open.

**Documents.** A document without comments whose lines end in a semicolon or a comma is plain
(`Doc.Plain`), and plain documents are laid out well nested, at every depth (`nested_allLines`). The
layout does not look into a line, so nothing else could be said of lines that end otherwise.
-/

namespace AmbientDecl

open List

variable {docs : List Doc} {text s unit : String} {depth : Nat} {rest : List String}

/-- A line that opens a block. -/
def Opens (line : String) : Prop := ∃ text, line = text ++ "\x7b"

/-- A line that closes a block. -/
def Closes (unit line : String) : Prop := ∃ depth, line = indentation unit depth ++ "\x7d"

/-- A line that starts with the indentation of a depth. -/
def Indented (unit : String) (depth : Nat) (line : String) : Prop :=
  ∃ text, line = indentation unit depth ++ text

/-- Lines that are read with `depth` blocks open, and none at the end. -/
inductive Nested (unit : String) : Nat → List String → Prop
  | done : Nested unit 0 []
  | opening {depth : Nat} {line : String} {rest : List String} (opens : Opens line)
      (indented : Indented unit depth line) (inside : Nested unit (depth + 1) rest) :
      Nested unit depth (line :: rest)
  | closing {depth : Nat} {line : String} {rest : List String} (closes : Closes unit line)
      (indented : Indented unit depth line) (after : Nested unit depth rest) :
      Nested unit (depth + 1) (line :: rest)
  | plain {depth : Nat} {line : String} {rest : List String} (opens : ¬ Opens line)
      (closes : ¬ Closes unit line) (indented : Indented unit depth line)
      (after : Nested unit depth rest) : Nested unit depth (line :: rest)

/-- A line of a declaration that ends in a semicolon or a comma. -/
def EndsDeclaration (text : String) : Prop := ∃ t, text = t ++ ";" ∨ text = t ++ ","

mutual

/-- A document without comments in which declarations end as they should. -/
def Doc.Plain : Doc → Prop
  | .line text => EndsDeclaration text
  | .comment _ => False
  | .block _ body => Doc.AllPlain body

/-- Several such documents. -/
def Doc.AllPlain : List Doc → Prop
  | [] => True
  | d :: rest => d.Plain ∧ Doc.AllPlain rest

end

namespace Doc

/-- Induction over documents: what passes from a body to the block holds of every document. -/
lemma induct {P : Doc → Prop} (line : ∀ text, P (.line text)) (comment : ∀ body, P (.comment body))
    (block : ∀ header body, (∀ d ∈ body, P d) → P (.block header body)) : ∀ d, P d := by
  apply @Doc.rec P (fun l => ∀ d ∈ l, P d) line comment block
  · intro d hd
    simp at hd
  · intro d rest hd hrest e he
    rcases mem_cons.mp he with rfl | he
    · exact hd
    · exact hrest e he

lemma allPlain_iff : AllPlain docs ↔ ∀ d ∈ docs, d.Plain := by
  induction docs with
  | nil => simp [AllPlain]
  | cons d rest ih => simp [AllPlain, ih]

@[simp] lemma plain_line : (Doc.line text).Plain ↔ EndsDeclaration text := by
  rw [Plain]

@[simp] lemma plain_block {header : String} {body : List Doc} :
    (Doc.block header body).Plain ↔ ∀ d ∈ body, d.Plain := by
  rw [Plain, allPlain_iff]

lemma allLines_eq (unit : String) (depth : Nat) (docs : List Doc) :
    allLines unit depth docs = docs.flatMap (lines unit depth) := by
  induction docs with
  | nil => rfl
  | cons d rest ih => rw [allLines, ih, flatMap_cons]

end Doc

/-- Texts with different last characters differ. -/
lemma append_ne_append {t : String} {c d : Char} (hne : c ≠ d) :
    s ++ String.singleton c ≠ t ++ String.singleton d := by
  intro h
  have hlast := congrArg (fun x => x.toList.getLast?) h
  simp only [String.toList_append, String.toList_singleton, getLast?_append,
    getLast?_singleton, Option.some_or, Option.some.injEq] at hlast
  exact hne hlast

lemma EndsDeclaration.not_opens (h : EndsDeclaration text) : ¬ Opens (s ++ text) := by
  rintro ⟨t, ht⟩
  obtain ⟨u, rfl | rfl⟩ := h
  · rw [← String.append_assoc] at ht
    exact append_ne_append (by decide : ';' ≠ '\x7b') ht
  · rw [← String.append_assoc] at ht
    exact append_ne_append (by decide : ',' ≠ '\x7b') ht

lemma EndsDeclaration.not_closes (h : EndsDeclaration text) : ¬ Closes unit (s ++ text) := by
  rintro ⟨depth, hd⟩
  obtain ⟨u, rfl | rfl⟩ := h
  · rw [← String.append_assoc] at hd
    exact append_ne_append (by decide : ';' ≠ '\x7d') hd
  · rw [← String.append_assoc] at hd
    exact append_ne_append (by decide : ',' ≠ '\x7d') hd

lemma nested_allLines_of
    (hdocs : ∀ d ∈ docs, ∀ {depth : Nat} {rest : List String}, Nested unit depth rest →
      Nested unit depth (d.lines unit depth ++ rest)) (hrest : Nested unit depth rest) :
    Nested unit depth (Doc.allLines unit depth docs ++ rest) := by
  rw [Doc.allLines_eq]
  induction docs with
  | nil => exact hrest
  | cons d docs ih =>
    rw [flatMap_cons, append_assoc]
    exact hdocs d mem_cons_self (ih fun e he => hdocs e (mem_cons_of_mem _ he))

/-- One document before lines that are read at the same depth. -/
lemma nested_lines {d : Doc} (hd : d.Plain) (hrest : Nested unit depth rest) :
    Nested unit depth (d.lines unit depth ++ rest) := by
  induction d using Doc.induct generalizing depth rest with
  | line text =>
    have hend := Doc.plain_line.mp hd
    exact .plain hend.not_opens hend.not_closes ⟨text, rfl⟩ hrest
  | comment body => exact absurd hd (by simp [Doc.Plain])
  | block header body ih =>
    have hbody := Doc.plain_block.mp hd
    -- the closing line is read with one block more open than what comes after it
    have hclose : Nested unit (depth + 1) ((indentation unit depth ++ "\x7d") :: rest) :=
      .closing ⟨depth, rfl⟩ ⟨"\x7d", rfl⟩ hrest
    have hinside := nested_allLines_of (fun e he {_ _} => ih e he (hbody e he)) hclose
    rw [Doc.lines, append_assoc, cons_append]
    refine .opening ⟨indentation unit depth ++ header ++ " ", ?_⟩ ⟨header ++ " \x7b", ?_⟩ ?_
    · have hspace : " \x7b" = " " ++ "\x7b" := rfl
      rw [hspace, ← String.append_assoc]
    · rw [String.append_assoc]
    · exact hinside

/-- **Plain documents are laid out well nested.** -/
lemma nested_allLines (hdocs : ∀ d ∈ docs, d.Plain) (hrest : Nested unit depth rest) :
    Nested unit depth (Doc.allLines unit depth docs ++ rest) :=
  nested_allLines_of (fun d hd {_ _} => nested_lines (hdocs d hd)) hrest

end AmbientDecl

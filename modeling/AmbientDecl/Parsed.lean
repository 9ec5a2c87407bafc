/-!
# Results of reading a list

A reader takes a list of characters or tokens and leaves a value and the rest of the list. Most
readers of this library take at least one item, and `Parsed` keeps the proof of it, so a loop of
readers ends because its input gets shorter. `Scanned` is the result of a reader that may take
nothing.
-/

namespace AmbientDecl

/-- A value read from the front of `input`, and the items after it. -/
structure Parsed (τ α : Type) (input : List τ) where
  value : α
  rest : List τ
  shorter : rest.length < input.length

namespace Parsed

variable {τ α β : Type} {input : List τ}

def map (f : α → β) (p : Parsed τ α input) : Parsed τ β input :=
  ⟨f p.value, p.rest, p.shorter⟩

/-- The same result as one of a longer input. -/
def within {longer : List τ} (p : Parsed τ α input) (h : input.length ≤ longer.length) :
    Parsed τ α longer :=
  ⟨p.value, p.rest, Nat.lt_of_lt_of_le p.shorter h⟩

def ofHead {x : τ} {rest : List τ} (value : α) : Parsed τ α (x :: rest) :=
  ⟨value, rest, Nat.lt_succ_self _⟩

/-- The same result as one of an input with one more item in front. -/
def ofTail {x : τ} (p : Parsed τ α input) : Parsed τ α (x :: input) :=
  ⟨p.value, p.rest, Nat.lt_succ_of_lt p.shorter⟩

def andThen (p : Parsed τ α input) (q : Parsed τ β p.rest) : Parsed τ β input :=
  ⟨q.value, q.rest, Nat.lt_trans q.shorter p.shorter⟩

/-- A value with the items after it, if at least one item stands before them. -/
def ofRest? (value : α) (rest : List τ) : Option (Parsed τ α input) :=
  if h : rest.length < input.length then some ⟨value, rest, h⟩ else none

@[simp] theorem value_map (f : α → β) (p : Parsed τ α input) : (p.map f).value = f p.value := rfl

@[simp] theorem rest_map (f : α → β) (p : Parsed τ α input) : (p.map f).rest = p.rest := rfl

@[simp] theorem value_within {longer : List τ} (p : Parsed τ α input)
    (h : input.length ≤ longer.length) : (p.within h).value = p.value := rfl

@[simp] theorem rest_within {longer : List τ} (p : Parsed τ α input)
    (h : input.length ≤ longer.length) : (p.within h).rest = p.rest := rfl

end Parsed

/-- A value read from the front of `input` by a reader that may take nothing. -/
structure Scanned (τ α : Type) (input : List τ) where
  value : α
  rest : List τ
  notLonger : rest.length ≤ input.length

/-- Leaving out the items at the front makes no list longer. -/
theorem length_dropWhile_le {τ : Type} (p : τ → Bool) (l : List τ) :
    (l.dropWhile p).length ≤ l.length := by
  induction l with
  | nil => exact Nat.le_refl _
  | cons x l ih =>
    rw [List.dropWhile_cons]
    split
    · exact Nat.le_succ_of_le ih
    · exact Nat.le_refl _

namespace Scanned

variable {τ α β : Type} {input after : List τ} {x : τ}

/-- The items at the front that satisfy `p` are left out. -/
def skip (p : τ → Bool) (input : List τ) : Scanned τ Unit input :=
  ⟨(), input.dropWhile p, length_dropWhile_le p input⟩

def andThen (s : Scanned τ α input) (q : Parsed τ β s.rest) : Parsed τ β input :=
  ⟨q.value, q.rest, Nat.lt_of_lt_of_le q.shorter s.notLonger⟩

/-- A reader that stops at `x` leaves less than it was given after that item. -/
theorem length_lt_of_rest (s : Scanned τ α input) (h : s.rest = x :: after) :
    after.length < input.length := by
  have := s.notLonger
  rwa [h, List.length_cons] at this

def andHead (s : Scanned τ α input) (h : s.rest = x :: after) (value : β) : Parsed τ β input :=
  ⟨value, after, s.length_lt_of_rest h⟩

def andTail (s : Scanned τ α input) (h : s.rest = x :: after) (q : Parsed τ β after) :
    Parsed τ β input :=
  ⟨q.value, q.rest, Nat.lt_trans q.shorter (s.length_lt_of_rest h)⟩

end Scanned

end AmbientDecl

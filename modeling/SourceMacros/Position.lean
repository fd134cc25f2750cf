import SourceMacros.Text.Basic

/-!
# Positions

A position is a place in a text: its line and column for people, its byte
offset for programs. Reading a text moves a position; checkpoints save one
together with the index of whatever is being read.
-/

namespace SourceMacros

/-- A place in a text. Lines and columns count from one, columns in characters;
the offset counts UTF-8 bytes from zero. -/
structure Position where
  line : Nat
  column : Nat
  offset : Nat
  deriving DecidableEq

namespace Position

/-- The start of a text. -/
def start : Position := ⟨1, 1, 0⟩

/-- The position past one character. Only a line feed starts a new line. -/
def advance (p : Position) (c : Char) : Position :=
  if c = '\n' then ⟨p.line + 1, 1, p.offset + c.utf8Size⟩
  else ⟨p.line, p.column + 1, p.offset + c.utf8Size⟩

/-- The position past a text. -/
def after (p : Position) (t : Text) : Position :=
  t.foldl advance p

/-- Line and column, as messages show them. -/
def render (p : Position) : Text :=
  Nat.toDigits 10 p.line ++ ':' :: Nat.toDigits 10 p.column

@[simp]
theorem after_nil (p : Position) : p.after [] = p := rfl

@[simp]
theorem after_cons (p : Position) (c : Char) (t : Text) :
    p.after (c :: t) = (p.advance c).after t := rfl

theorem after_append (p : Position) (t u : Text) :
    p.after (t ++ u) = (p.after t).after u := by
  simp [after]

theorem offset_advance (p : Position) (c : Char) :
    (p.advance c).offset = p.offset + c.utf8Size := by
  unfold advance
  split <;> rfl

/-- Reading a text moves the offset by its length in bytes. -/
theorem offset_after (p : Position) (t : Text) :
    (p.after t).offset = p.offset + t.byteLength := by
  induction t generalizing p with
  | nil => simp [Text.byteLength_nil]
  | cons c t ih =>
    rw [after_cons, ih, offset_advance, Text.byteLength_cons, Nat.add_assoc]

end Position

/-- A place to come back to: an index into what is being read, and the
position there. -/
structure Checkpoint where
  index : Nat
  position : Position
  deriving DecidableEq

end SourceMacros

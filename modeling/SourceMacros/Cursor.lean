import SourceMacros.Position

/-!
# Cursors over characters

A cursor reads a text from the front. It knows how many bytes it has read and
the position it has reached, and it can go back to a checkpoint taken earlier.
-/

namespace SourceMacros

/-- A reader of `input` that has read `offset` bytes. -/
structure Cursor where
  input : Text
  offset : Nat
  position : Position
  deriving DecidableEq

namespace Cursor

/-- A cursor at the start of a text. -/
def ofText (input : Text) : Cursor :=
  ⟨input, 0, Position.start⟩

/-- The text that is still to be read. -/
def remaining (c : Cursor) : Text :=
  c.input.dropBytes c.offset

/-- Has everything been read? -/
def atEnd (c : Cursor) : Bool :=
  c.input.byteLength ≤ c.offset

/-- The next character. -/
def peek (c : Cursor) : Option Char :=
  c.remaining.head?

/-- The character `n` places ahead. -/
def peekNth (c : Cursor) (n : Nat) : Option Char :=
  c.remaining[n]?

/-- Does the input go on with `front`? -/
def startsWith (c : Cursor) (front : Text) : Bool :=
  c.remaining.startsWith front

/-- The cursor moved past a text that stands in front of it. -/
def skip (c : Cursor) (t : Text) : Cursor :=
  ⟨c.input, c.offset + t.byteLength, c.position.after t⟩

/-- Reads one character. Nothing moves at the end. -/
def advance (c : Cursor) : Option Char × Cursor :=
  match c.peek with
  | none => (none, c)
  | some ch => (some ch, c.skip [ch])

/-- Reads `front` if the input goes on with it. -/
def eat (c : Cursor) (front : Text) : Bool × Cursor :=
  if c.startsWith front then (true, c.skip front) else (false, c)

/-- Reads the longest run of characters that satisfy `p`. -/
def consumeWhile (c : Cursor) (p : Char → Bool) : Text × Cursor :=
  let run := c.remaining.takeWhile p
  (run, c.skip run)

/-- The text read since byte offset `start`. -/
def sliceFrom (c : Cursor) (start : Nat) : Text :=
  (c.input.dropBytes start).takeBytes (c.offset - start)

/-- Where the cursor stands. -/
def checkpoint (c : Cursor) : Checkpoint :=
  ⟨c.offset, c.position⟩

/-- Goes to a checkpoint. -/
def restore (c : Cursor) (saved : Checkpoint) : Cursor :=
  ⟨c.input, saved.index, saved.position⟩

end Cursor

end SourceMacros

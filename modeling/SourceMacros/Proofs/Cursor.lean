import Mathlib.Data.List.Infix
import Mathlib.Data.List.TakeWhile
import SourceMacros.Cursor
import SourceMacros.Proofs.Text.Offsets

/-!
# Cursors on the move

A cursor stands between a part of the input that it has read and one that it has not
(`Cursor.Between`). Whatever moves it ahead goes over some text that comes next, so offset, line and
column stay in step with what has been read. A restored checkpoint puts the three back together.

Reading a front and reading a run are moves over many characters at once. They lead to where single
steps lead, one for each character of the front (`Cursor.Between.eat_eq`) or of the run
(`Cursor.Between.consumeWhile_eq`).
-/

namespace SourceMacros

/-- The longest front of a text with only characters that satisfy `p`. -/
structure Text.IsLongestRun (p : Char → Bool) (run t : Text) : Prop where
  isPrefix : run <+: t
  satisfies : ∀ c ∈ run, p c = true
  longest : ∀ {front : Text}, front <+: t → (∀ c ∈ front, p c = true) → front <+: run

theorem Text.takeWhile_isLongestRun (p : Char → Bool) (t : Text) :
    IsLongestRun p (t.takeWhile p) t where
  isPrefix := List.takeWhile_prefix p
  satisfies _ hc := List.mem_takeWhile_imp hc
  longest := by
    rintro front ⟨rest, rfl⟩ hfront
    rw [List.takeWhile_append_of_pos hfront]
    exact List.prefix_append _ _

namespace Cursor

/-! ## Places -/

/-- The cursor has read `front` and stands before `rest`. -/
structure Between (c : Cursor) (front rest : Text) : Prop where
  input_eq : c.input = front ++ rest
  offset_eq : c.offset = Text.byteLength front
  position_eq : c.position = Position.start.after front

/-- The cursor stands somewhere in `input`. -/
def Within (c : Cursor) (input : Text) : Prop :=
  ∃ front rest, input = front ++ rest ∧ c.Between front rest

/-- Offset and position say where the input is cut into what is read and what remains. -/
structure InStep (c : Cursor) (input : Text) : Prop where
  boundary : input.IsBoundary c.offset
  offset_le : c.offset ≤ input.byteLength
  offset_eq : c.position.offset = c.offset
  position_eq : c.position = Position.start.after (input.takeBytes c.offset)
  remaining_eq : input.slice? c.offset input.byteLength = some c.remaining

/-- `d` is the cursor moved over `t`, with which the input goes on. -/
structure Passes (c : Cursor) (t : Text) (d : Cursor) : Prop where
  input_eq : d.input = c.input
  remaining_eq : c.remaining = t ++ d.remaining
  offset_eq : d.offset = c.offset + t.byteLength

theorem ofText_between (t : Text) : (ofText t).Between [] t :=
  ⟨rfl, rfl, rfl⟩

theorem skip_nil (c : Cursor) : c.skip [] = c := rfl

theorem skip_skip (c : Cursor) (t u : Text) : (c.skip t).skip u = c.skip (t ++ u) := by
  simp only [skip, Text.byteLength_append, Position.after_append, Nat.add_assoc]

namespace Between

variable {c : Cursor} {front t rest : Text}

theorem remaining_eq (h : c.Between front rest) : c.remaining = rest := by
  rw [remaining, h.input_eq, h.offset_eq, Text.dropBytes_byteLength_append]

theorem skip (h : c.Between front (t ++ rest)) : (c.skip t).Between (front ++ t) rest := by
  refine ⟨?_, ?_, ?_⟩
  · rw [Cursor.skip, h.input_eq, List.append_assoc]
  · rw [Cursor.skip, h.offset_eq, Text.byteLength_append]
  · rw [Cursor.skip, h.position_eq, Position.after_append]

/-- A cursor between two texts is in step with the text that they make up. -/
theorem inStep (h : c.Between front rest) : c.InStep (front ++ rest) where
  boundary := ⟨front, rest, rfl, h.offset_eq.symm⟩
  offset_le := by
    rw [h.offset_eq, Text.byteLength_append]
    exact Nat.le_add_right _ _
  offset_eq := by
    rw [h.position_eq, Position.offset_after, h.offset_eq]
    exact Nat.zero_add _
  position_eq := by
    rw [h.position_eq, h.offset_eq, Text.takeBytes_byteLength_append]
  remaining_eq := by
    rw [h.remaining_eq]
    refine Text.slice?_eq_some_iff.2 ⟨front, [], ?_, h.offset_eq.symm, rfl⟩
    rw [List.append_nil]

theorem passes (h : c.Between front (t ++ rest)) : c.Passes t (c.skip t) where
  input_eq := rfl
  remaining_eq := by rw [h.remaining_eq, h.skip.remaining_eq]
  offset_eq := rfl

/-- What was read since an earlier place. -/
theorem sliceFrom_eq {between : Text} (h : c.Between (front ++ between) rest) :
    c.sliceFrom front.byteLength = between := by
  rw [sliceFrom, h.input_eq, h.offset_eq, List.append_assoc, Text.dropBytes_byteLength_append,
    Text.byteLength_append, Nat.add_sub_cancel_left, Text.takeBytes_byteLength_append]

end Between

namespace Within

variable {c d : Cursor} {input t : Text}

theorem input_eq (h : c.Within input) : c.input = input := by
  obtain ⟨front, rest, rfl, hc⟩ := h
  exact hc.input_eq

theorem inStep (h : c.Within input) : c.InStep input := by
  obtain ⟨front, rest, rfl, hc⟩ := h
  exact hc.inStep

/-- A text that comes next can be gone over. -/
theorem skip (h : c.Within input) (ht : t <+: c.remaining) :
    (c.skip t).Within input ∧ c.Passes t (c.skip t) := by
  obtain ⟨front, rest, rfl, hc⟩ := h
  rw [hc.remaining_eq] at ht
  obtain ⟨behind, rfl⟩ := ht
  exact ⟨⟨front ++ t, behind, (List.append_assoc _ _ _).symm, hc.skip⟩, hc.passes⟩

/-- A checkpoint leads back to where it was taken, position included. -/
theorem restore_checkpoint (hc : c.Within input) (hd : d.Within input) :
    c.restore d.checkpoint = d := by
  have hinput := hd.input_eq
  obtain ⟨_, offset, position⟩ := d
  simp only [restore, checkpoint, hc.input_eq, ← hinput]

/-- The text read between two places in one input. -/
theorem slice?_eq (hc : c.Within input) (hd : d.Within input) (hle : d.offset ≤ c.offset) :
    input.slice? d.offset c.offset = some (c.sliceFrom d.offset) := by
  obtain ⟨front, rest, rfl, hd⟩ := hd
  obtain ⟨front', rest', hinput, hc⟩ := hc
  rw [hd.offset_eq, hc.offset_eq] at hle
  obtain ⟨between, rfl⟩ := Text.isPrefix_of_byteLength_le hinput hle
  rw [hd.offset_eq, hc.sliceFrom_eq]
  exact Text.slice?_eq_some_iff.2 ⟨front, rest', hinput, rfl, hc.offset_eq.symm⟩

end Within

/-! ## Moves -/

theorem advance_of_peek {c : Cursor} {ch : Char} (h : c.peek = some ch) :
    c.advance = (some ch, c.skip [ch]) := by
  rw [advance, h]

theorem exists_advance_eq (c : Cursor) : ∃ t, t <+: c.remaining ∧ c.advance.2 = c.skip t := by
  cases hpeek : c.peek with
  | none =>
    rw [advance, hpeek]
    exact ⟨[], List.nil_prefix, rfl⟩
  | some ch =>
    rw [advance_of_peek hpeek]
    obtain ⟨rest, hrest⟩ := List.head?_eq_some_iff.1 hpeek
    exact ⟨[ch], ⟨rest, hrest.symm⟩, rfl⟩

/-- A front is read whole or not at all. -/
theorem eat_cases (c : Cursor) (t : Text) :
    (t <+: c.remaining ∧ c.eat t = (true, c.skip t)) ∨
      (¬ t <+: c.remaining ∧ c.eat t = (false, c)) := by
  have hstarts : c.startsWith t = true ↔ t <+: c.remaining := Text.startsWith_iff_isPrefix
  rw [eat, ← hstarts]
  by_cases h : c.startsWith t = true
  · exact .inl ⟨h, if_pos h⟩
  · exact .inr ⟨h, if_neg h⟩

/-- The cursors that moves lead to from the start of `input`. A checkpoint to go back to was taken
on a cursor reached in the same way. Looking ahead moves nothing. -/
inductive Reachable (input : Text) : Cursor → Prop
  | start : Reachable input (ofText input)
  | advance {c : Cursor} (h : Reachable input c) : Reachable input c.advance.2
  | eat {c : Cursor} (h : Reachable input c) (front : Text) : Reachable input (c.eat front).2
  | consumeWhile {c : Cursor} (h : Reachable input c) (p : Char → Bool) :
      Reachable input (c.consumeWhile p).2
  | restore {c d : Cursor} (hc : Reachable input c) (hd : Reachable input d) :
      Reachable input (c.restore d.checkpoint)

/-- Whatever was done to a cursor, it is within the text that it was made for. -/
theorem Reachable.within {input : Text} {c : Cursor} (h : Reachable input c) : c.Within input := by
  induction h with
  | start => exact ⟨[], input, rfl, ofText_between input⟩
  | @advance c _ ih =>
    obtain ⟨t, ht, hadvance⟩ := c.exists_advance_eq
    rw [hadvance]
    exact (ih.skip ht).1
  | @eat c _ front ih =>
    rcases c.eat_cases front with ⟨hfront, heat⟩ | ⟨-, heat⟩
    · rw [heat]
      exact (ih.skip hfront).1
    · rw [heat]
      exact ih
  | consumeWhile _ p ih => exact (ih.skip (List.takeWhile_prefix p)).1
  | restore _ _ ihc ihd =>
    rw [ihc.restore_checkpoint ihd]
    exact ihd

/-! ## One character after the other -/

/-- The cursor after `n` single steps. -/
def advanceTimes : (n : Nat) → Cursor → Cursor
  | 0, c => c
  | n + 1, c => advanceTimes n c.advance.2

/-- Reads `front`, if its bytes come next, by one step for each of its characters. -/
def eatStepwise (c : Cursor) (front : Text) : Bool × Cursor :=
  if front.bytes <+: c.remaining.bytes then (true, c.advanceTimes front.length) else (false, c)

theorem offset_lt_of_peek {c : Cursor} {ch : Char} (h : c.peek = some ch) :
    c.offset < c.input.byteLength := by
  by_contra hend
  rw [peek, remaining, Text.dropBytes_of_byteLength_le (Nat.le_of_not_lt hend)] at h
  cases h

/-- Goes on step by step as long as the next character satisfies `p`. -/
def advanceWhile (p : Char → Bool) (c : Cursor) : Cursor :=
  match _h : c.peek with
  | none => c
  | some ch => if p ch then advanceWhile p c.advance.2 else c
termination_by c.input.byteLength - c.offset
decreasing_by
  have hlt := offset_lt_of_peek _h
  have hpos := ch.utf8Size_pos
  simp only [advance_of_peek _h, skip, Text.byteLength_cons]
  omega

theorem advanceWhile_of_end {c : Cursor} (p : Char → Bool) (h : c.peek = none) :
    c.advanceWhile p = c := by
  rw [advanceWhile]
  split
  · rfl
  · next hpeek =>
    rw [h] at hpeek
    cases hpeek

theorem advanceWhile_of_peek {c : Cursor} {ch : Char} (p : Char → Bool) (h : c.peek = some ch) :
    c.advanceWhile p = if p ch then (c.skip [ch]).advanceWhile p else c := by
  rw [advanceWhile]
  split
  · next hpeek =>
    rw [h] at hpeek
    cases hpeek
  · next hpeek =>
    rw [h, Option.some.injEq] at hpeek
    rw [← hpeek, advance_of_peek h]

namespace Between

variable {c : Cursor} {front t rest : Text}

theorem peek_eq (h : c.Between front rest) : c.peek = rest.head? := by
  rw [peek, h.remaining_eq]

theorem advanceTimes_eq (h : c.Between front (t ++ rest)) : c.advanceTimes t.length = c.skip t := by
  induction t generalizing c front with
  | nil => rfl
  | cons ch t ih =>
    have hstep : (c.skip [ch]).Between (front ++ [ch]) (t ++ rest) := skip h
    rw [List.length_cons, advanceTimes, advance_of_peek h.peek_eq, ih hstep, skip_skip]
    rfl

/-- Single steps while a condition holds lead behind the longest run of it. -/
theorem advanceWhile_eq (p : Char → Bool) (h : c.Between front rest) :
    c.advanceWhile p = c.skip (rest.takeWhile p) := by
  induction rest generalizing c front with
  | nil => exact advanceWhile_of_end p h.peek_eq
  | cons ch rest ih =>
    rw [advanceWhile_of_peek p h.peek_eq]
    by_cases hch : p ch = true
    · have hstep : (c.skip [ch]).Between (front ++ [ch]) rest := skip h
      rw [if_pos hch, List.takeWhile_cons_of_pos hch, ih hstep, skip_skip]
      rfl
    · rw [if_neg hch, List.takeWhile_cons_of_neg hch, skip_nil]

/-- Eating a text is trying it and going over it in single steps. -/
theorem eat_eq (t : Text) (h : c.Between front rest) : c.eat t = c.eatStepwise t := by
  rw [eatStepwise]
  rcases c.eat_cases t with ⟨ht, heat⟩ | ⟨ht, heat⟩
  · rw [if_pos (Text.bytes_isPrefix_iff.2 ht), heat]
    rw [h.remaining_eq] at ht
    obtain ⟨behind, rfl⟩ := ht
    rw [h.advanceTimes_eq]
  · rw [if_neg (mt Text.bytes_isPrefix_iff.1 ht), heat]

theorem consumeWhile_eq (p : Char → Bool) (h : c.Between front rest) :
    (c.consumeWhile p).2 = c.advanceWhile p := by
  rw [h.advanceWhile_eq, consumeWhile, h.remaining_eq]

end Between

/-! ## Everything stays in step -/

/-- Wherever moves lead, offset and position are in step with the input. A front is read whole if
the input goes on with it, and else nothing moves. A run is read as far as the predicate holds. Both
are as by single steps. From an offset seen before to that of the cursor, unless it is further on,
there is a slice of the input. -/
theorem moves_stay_in_step {input : Text} {c d : Cursor} (hc : Reachable input c)
    (hd : Reachable input d) :
    c.InStep input ∧
    (∀ front, c.eat front = c.eatStepwise front ∧
      ((c.eat front).1 = true ↔ front <+: c.remaining) ∧
      ((c.eat front).1 = true → c.Passes front (c.eat front).2) ∧
      ((c.eat front).1 = false → (c.eat front).2 = c)) ∧
    (∀ p, (c.consumeWhile p).2 = c.advanceWhile p ∧
      Text.IsLongestRun p (c.consumeWhile p).1 c.remaining ∧
      c.Passes (c.consumeWhile p).1 (c.consumeWhile p).2) ∧
    (d.offset ≤ c.offset →
      input.slice? d.offset c.offset = some (c.sliceFrom d.offset) ∧
      (c.sliceFrom d.offset).bytes = (input.bytes.take c.offset).drop d.offset) := by
  have hwithin := hc.within
  obtain ⟨before, rest, -, hplace⟩ := hc.within
  refine ⟨hwithin.inStep, ?_, ?_, ?_⟩
  · intro front
    refine ⟨hplace.eat_eq front, ?_⟩
    rcases c.eat_cases front with ⟨hfront, heat⟩ | ⟨hfront, heat⟩
    · rw [heat]
      exact ⟨iff_of_true rfl hfront, fun _ => (hwithin.skip hfront).2, nofun⟩
    · rw [heat]
      exact ⟨iff_of_false Bool.false_ne_true hfront, nofun, fun _ => rfl⟩
  · intro p
    exact ⟨hplace.consumeWhile_eq p, Text.takeWhile_isLongestRun p _,
      (hwithin.skip (List.takeWhile_prefix p)).2⟩
  · intro hle
    have hslice := hwithin.slice?_eq hd.within hle
    exact ⟨hslice, Text.bytes_of_slice? hslice⟩

/-- Over `é` and a line feed: the cursor is on the second line, behind two characters and three
bytes. Since offset 2, behind the first of them, it has read the line feed. -/
theorem moves_stay_in_step_accent :
    let input : Text := "é\nab".toList
    let d := ((ofText input).eat ['é']).2
    let c := (((d.consumeWhile (· ≠ 'b')).2.restore d.checkpoint).advance).2
    Reachable input c ∧ Reachable input d ∧ d.offset = 2 ∧ c.offset = 3 ∧ c.position = ⟨2, 1, 3⟩ ∧
      d.offset ≤ c.offset ∧ c.InStep input ∧ input.slice? d.offset c.offset = some ['\n'] := by
  intro input d c
  have hd : Reachable input d := .eat .start ['é']
  have hc : Reachable input c := .advance (.restore (.consumeWhile hd _) hd)
  have hle : d.offset ≤ c.offset := by decide
  obtain ⟨hstep, -, -, hslice⟩ := moves_stay_in_step hc hd
  refine ⟨hc, hd, by decide, by decide, by decide, hle, hstep, ?_⟩
  rw [(hslice hle).1]
  decide

end Cursor

end SourceMacros

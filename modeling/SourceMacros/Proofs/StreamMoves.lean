import SourceMacros.Proofs.TokenStream

/-!
# Streams on the move

A stream is moved by `next`, and moved back to checkpoints that were taken on the way. All streams
reached like this are settled (`Reachable.settled`). So a span and the trivia behind it are together
what lies between two places (`exists_trail`), and `current` and `next` meet what `remaining` lists
(`walk_eq_remaining`).

Spans and trivia are found by going back from the cursor, index by index (`stepBack`). Here every
index is looked up, and there is no answer for one that is out of range. It never is, also not where
a foreign checkpoint has left the cursor on trivia (`inBounds`).
-/

namespace SourceMacros

namespace TokenStream

/-! ## Reading with checked indices -/

/-- The tokens from index `start` to index `stop`, if these are in order and in range. -/
def slice? (tokens : List Token) (start stop : Nat) : Option (List Token) :=
  if start ≤ stop ∧ stop ≤ tokens.length then some ((tokens.take stop).drop start) else none

/-- Goes back from `stop` over trivia, but not in front of `start`. -/
def stepBack (tokens : List Token) (start : Nat) : (stop : Nat) → Option Nat
  | 0 => some 0
  | stop + 1 =>
    if start < stop + 1 then
      match tokens[stop]? with
      | none => none
      | some token => if token.isTrivia then stepBack tokens start stop else some (stop + 1)
    else some (stop + 1)

/-- The span since `start`, by going back from the cursor. -/
def readSpan (s : TokenStream) (start : Nat) : Option (List Token) :=
  (stepBack s.tokens start (min s.cursor s.tokens.length)).bind fun stop =>
    if stop ≤ start then some [] else slice? s.tokens start stop

/-- The trivia in front of the cursor, by going back from there. -/
def readTriviaBefore (s : TokenStream) : Option (List Token) :=
  let stop := min s.cursor s.tokens.length
  (stepBack s.tokens 0 stop).bind fun start => slice? s.tokens start stop

/-- The significant tokens behind the cursor. -/
def readRemaining (s : TokenStream) : Option (List Token) :=
  (slice? s.tokens (min s.cursor s.tokens.length) s.tokens.length).map
    (·.filter Token.isSignificant)

/-- No reading looks at an index out of range. -/
structure InBounds (s : TokenStream) : Prop where
  span : ∀ start, s.readSpan start = some (s.spanFrom start)
  triviaBefore : s.readTriviaBefore = some s.triviaBefore
  remaining : s.readRemaining = some s.remaining

section

variable {tokens : List Token} {start stop : Nat}

theorem drop_take_succ {i : Nat} (hi : i ≤ stop) (hstop : stop < tokens.length) :
    (tokens.take (stop + 1)).drop i = (tokens.take stop).drop i ++ [tokens[stop]] := by
  have hlen : i ≤ (tokens.take stop).length := by
    rw [List.length_take_of_le (Nat.le_of_lt hstop)]
    exact hi
  rw [← List.take_append_getElem hstop, List.drop_append_of_le_length hlen]

theorem drop_take_append {i j : Nat} (hij : i ≤ j) (hj : j ≤ stop) (hstop : stop ≤ tokens.length) :
    (tokens.take j).drop i ++ (tokens.take stop).drop j = (tokens.take stop).drop i := by
  have hlen : i ≤ (tokens.take j).length := by
    rw [List.length_take_of_le (Nat.le_trans hj hstop)]
    exact hij
  rw [← List.drop_append_of_le_length hlen, take_append_drop_take tokens hj]

/-- Where going back comes to rest: behind a significant token, or where it must not go on. What was
passed is trivia. -/
theorem exists_stepBack (start : Nat) (hstop : stop ≤ tokens.length) :
    ∃ i, stepBack tokens start stop = some i ∧ i ≤ stop ∧
      (∀ x ∈ (tokens.take stop).drop i, x.isTrivia = true) ∧
      Tight ((tokens.take i).drop start) := by
  induction stop with
  | zero => exact ⟨0, rfl, Nat.le_refl _, by simp, by simpa using tight_nil⟩
  | succ stop ih =>
    by_cases hstart : start < stop + 1
    · by_cases htrivia : tokens[stop].isTrivia = true
      · obtain ⟨i, hback, hi, hpassed, htight⟩ := ih (Nat.le_of_succ_le hstop)
        refine ⟨i, ?_, Nat.le_succ_of_le hi, ?_, htight⟩
        · rw [stepBack, if_pos hstart, List.getElem?_eq_getElem hstop]
          simp only [if_pos htrivia, hback]
        · rw [drop_take_succ hi hstop]
          exact List.forall_mem_append.2 ⟨hpassed, List.forall_mem_singleton.2 htrivia⟩
      · refine ⟨stop + 1, ?_, Nat.le_refl _, by simp, ?_⟩
        · rw [stepBack, if_pos hstart, List.getElem?_eq_getElem hstop]
          simp only [if_neg htrivia]
        · have hsignificant : tokens[stop].isSignificant = true := by
            simp [Token.isSignificant, htrivia]
          rw [drop_take_succ (Nat.le_of_lt_succ hstart) hstop]
          exact (tight_singleton hsignificant).append (List.cons_ne_nil _ _)
    · refine ⟨stop + 1, by rw [stepBack, if_neg hstart], Nat.le_refl _, by simp, ?_⟩
      rw [List.drop_eq_nil_of_le (by simp; omega)]
      exact tight_nil

theorem slice?_eq_some (hle : start ≤ stop) (hstop : stop ≤ tokens.length) :
    slice? tokens start stop = some ((tokens.take stop).drop start) :=
  if_pos ⟨hle, hstop⟩

end

theorem take_cursor_eq (s : TokenStream) :
    s.tokens.take s.cursor = s.tokens.take (min s.cursor s.tokens.length) :=
  List.take_eq_take_min

/-- Going back from the cursor never leaves the tokens, and what it finds is the span. -/
theorem readSpan_eq (s : TokenStream) (start : Nat) :
    s.readSpan start = some (s.spanFrom start) := by
  have hclamped := Nat.min_le_right s.cursor s.tokens.length
  obtain ⟨i, hback, hi, hpassed, htight⟩ := exists_stepBack start hclamped
  rw [readSpan, hback, Option.bind_some, spanFrom, take_cursor_eq]
  split
  · next hempty =>
    -- What lies behind `start`, if anything, is trivia.
    have htrivia : ∀ x ∈ (s.tokens.take (min s.cursor s.tokens.length)).drop start,
        x.isTrivia = true := fun x hx =>
      hpassed x ((List.drop_sublist_drop_left _ hempty).subset hx)
    rw [← List.nil_append (List.drop start _), dropTrailingTrivia_append_trivia htrivia]
    rfl
  · next hspan =>
    have hstart := Nat.le_of_lt (Nat.lt_of_not_le hspan)
    rw [slice?_eq_some hstart (Nat.le_trans hi hclamped), ← drop_take_append hstart hi hclamped,
      dropTrailingTrivia_append_trivia hpassed, dropTrailingTrivia_of_tight htight]

theorem readTriviaBefore_eq (s : TokenStream) : s.readTriviaBefore = some s.triviaBefore := by
  have hclamped := Nat.min_le_right s.cursor s.tokens.length
  obtain ⟨i, hback, hi, hpassed, htight⟩ := exists_stepBack 0 hclamped
  have hsplit : s.tokens.take s.cursor
      = s.tokens.take i ++ (s.tokens.take (min s.cursor s.tokens.length)).drop i := by
    rw [take_cursor_eq, take_append_drop_take s.tokens hi]
  simp only [readTriviaBefore, hback, Option.bind_some, slice?_eq_some hi hclamped]
  rw [triviaBefore_eq hsplit htight hpassed]

/-- The slice behind the cursor is defined, and its significant tokens are those that remain. -/
theorem readRemaining_eq (s : TokenStream) : s.readRemaining = some s.remaining := by
  have hdrop : s.tokens.drop (min s.cursor s.tokens.length) = s.tokens.drop s.cursor := by
    rcases Nat.le_total s.cursor s.tokens.length with hle | hle
    · rw [Nat.min_eq_left hle]
    · rw [Nat.min_eq_right hle, List.drop_length, List.drop_eq_nil_of_le hle]
  rw [readRemaining, slice?_eq_some (Nat.min_le_right _ _) (Nat.le_refl _), List.take_length, hdrop,
    remaining]
  rfl

/-- Wherever the cursor stands, every index is in range. -/
theorem inBounds (s : TokenStream) : s.InBounds :=
  ⟨s.readSpan_eq, s.readTriviaBefore_eq, s.readRemaining_eq⟩

/-! ## Streams reached by moves -/

/-- The streams that moves lead to from the start of `tokens`. A checkpoint to go back to was taken
on a stream reached in the same way. -/
inductive Reachable (tokens : List Token) : TokenStream → Prop
  | start : Reachable tokens (ofTokens tokens)
  | next {s : TokenStream} (h : Reachable tokens s) : Reachable tokens s.next
  | restore {s t : TokenStream} (hs : Reachable tokens s) (ht : Reachable tokens t) :
      Reachable tokens (s.restore t.checkpoint)

/-- The tokens met from the cursor to the end. -/
def walk (s : TokenStream) : List Token :=
  match _h : s.current with
  | none => []
  | some token => token :: s.next.walk
termination_by s.left
decreasing_by exact left_next_lt _h

namespace Reachable

variable {tokens : List Token} {s : TokenStream}

theorem tokens_eq_and_settled (h : Reachable tokens s) : s.tokens = tokens ∧ s.Settled := by
  induction h with
  | start => exact ⟨rfl, ofTokens_settled tokens⟩
  | next _ ih =>
    have hnext := next_reaches ih.2
    exact ⟨hnext.tokens_eq.trans ih.1, hnext.settled⟩
  | restore _ _ ihs iht =>
    rw [restore_checkpoint iht.2 (ihs.1.trans iht.1.symm)]
    exact iht

theorem tokens_eq (h : Reachable tokens s) : s.tokens = tokens :=
  h.tokens_eq_and_settled.1

theorem settled (h : Reachable tokens s) : s.Settled :=
  h.tokens_eq_and_settled.2

end Reachable

/-! ## Meeting without gap or overlap -/

theorem walk_of_end {s : TokenStream} (h : s.current = none) : s.walk = [] := by
  rw [walk]
  split
  · rfl
  · next hcurrent =>
    rw [h] at hcurrent
    cases hcurrent

theorem walk_of_current {s : TokenStream} {token : Token} (h : s.current = some token) :
    s.walk = token :: s.next.walk := by
  rw [walk]
  split
  · next hcurrent =>
    rw [h] at hcurrent
    cases hcurrent
  · next hcurrent =>
    rw [h, Option.some.injEq] at hcurrent
    rw [hcurrent]

/-- Going on from a settled place visits exactly the significant tokens that remain. -/
theorem walk_eq_remaining {s : TokenStream} (hs : s.Settled) : s.walk = s.remaining := by
  induction s using walk.induct with
  | case1 s h => rw [walk_of_end h, remaining_of_end h]
  | case2 s token h ih =>
    rw [walk_of_current h, remaining_of_current hs h, ih (next_settled h)]

/-- What lies between `start` and the cursor is the span and a part of the trivia in front of the
cursor, without gap or overlap. -/
theorem exists_trail (s : TokenStream) {start : Nat} (hstart : start ≤ s.cursor) :
    ∃ trail, (s.tokens.take s.cursor).drop start = s.spanFrom start ++ trail ∧
      (∀ x ∈ trail, x.isTrivia = true) ∧ trail <:+ s.triviaBefore := by
  obtain ⟨trail, hsplit, htrail⟩ := exists_trailing ((s.tokens.take s.cursor).drop start)
  refine ⟨trail, hsplit, htrail, ?_⟩
  have htake : s.tokens.take s.cursor = s.tokens.take start ++ (s.spanFrom start ++ trail) := by
    rw [← take_append_drop_take s.tokens hstart, hsplit]
    rfl
  by_cases hempty : s.spanFrom start = []
  · -- Nothing significant in between: the trivia goes on in front of `start`.
    obtain ⟨before, hbefore, htrivia⟩ := exists_trailing (s.tokens.take start)
    rw [hempty, List.nil_append, hbefore, List.append_assoc] at htake
    rw [triviaBefore_eq htake (tight_dropTrailingTrivia _)
      (List.forall_mem_append.2 ⟨htrivia, htrail⟩)]
    exact List.suffix_append _ _
  · rw [← List.append_assoc] at htake
    have hall := triviaBefore_eq htake ((tight_dropTrailingTrivia _).append hempty) htrail
    exact hall ▸ List.suffix_refl _

/-- Wherever moves lead, the cursor rests on a significant token or at the end. What lies between an
earlier index and the cursor is the span, which ends in a significant token, and the end of the
trivia in front of the cursor. The tokens met from there on are the significant ones that remain,
from the start all of them, and the text is that of all tokens. A foreign checkpoint leads to its
index or to the end, and there too everything is read within bounds. -/
theorem moves_leave_no_gap {tokens : List Token} {s : TokenStream} (h : Reachable tokens s) :
    s.cursor ≤ tokens.length ∧
    (∀ token, s.current = some token → token.isSignificant = true) ∧
    (∀ start ≤ s.cursor, ∃ trail,
      (tokens.take s.cursor).drop start = s.spanFrom start ++ trail ∧ Tight (s.spanFrom start) ∧
      (∀ x ∈ trail, x.isTrivia = true) ∧ trail <:+ s.triviaBefore) ∧
    s.walk = s.remaining ∧
    (ofTokens tokens).walk = tokens.filter Token.isSignificant ∧
    s.text = (tokens.map Token.lexeme).flatten ∧
    ∀ saved, s.restore saved = ⟨tokens, min saved.index tokens.length⟩ ∧
      (s.restore saved).InBounds := by
  have hsettled := h.settled
  obtain rfl := h.tokens_eq
  refine ⟨hsettled.cursor_le, fun _ hcurrent => hsettled.significant hcurrent, ?_,
    walk_eq_remaining hsettled, ?_, ?_, fun saved => ⟨rfl, inBounds _⟩⟩
  · intro start hstart
    obtain ⟨trail, hsplit, htrail, hsuffix⟩ := s.exists_trail hstart
    exact ⟨trail, hsplit, tight_dropTrailingTrivia _, htrail, hsuffix⟩
  · rw [walk_eq_remaining (ofTokens_settled _), remaining_ofTokens]
  · rw [text, Token.text, List.flatMap_def]

/-- Two moves ahead and one back, over a comment, lead to the second name. Index 2 is the blank in
front of the comment and index 3 the comment. -/
theorem moves_leave_no_gap_comment :
    let blank := Token.synthetic .whitespace [' ']
    let note := Token.synthetic .comment "/**/".toList
    let a := Token.synthetic .identifier ['a']
    let b := Token.synthetic .identifier ['b']
    let tokens := [blank, a, blank, note, b, blank]
    let s := (ofTokens tokens).next.next.restore (ofTokens tokens).next.checkpoint
    Reachable tokens s ∧ s.cursor = 4 ∧ s.triviaBefore = [blank, note] ∧
      s.spanFrom 0 = [blank, a] ∧ s.spanFrom 2 = [] ∧ 2 ≤ s.cursor ∧
      (∃ trail, (tokens.take s.cursor).drop 2 = s.spanFrom 2 ++ trail ∧ trail <:+ s.triviaBefore) ∧
      s.walk = [b] ∧ s.restore ⟨3, .start⟩ = ⟨tokens, 3⟩ ∧ (s.restore ⟨3, .start⟩).InBounds := by
  intro blank note a b tokens s
  have h : Reachable tokens s := .restore (.next (.next .start)) (.next .start)
  have hle : 2 ≤ s.cursor := by decide
  obtain ⟨-, -, hspan, hwalk, -, -, hrestore⟩ := moves_leave_no_gap h
  obtain ⟨trail, hsplit, -, -, hsuffix⟩ := hspan 2 hle
  refine ⟨h, by decide, by decide, by decide, by decide, hle, ⟨trail, hsplit, hsuffix⟩, ?_,
    hrestore ⟨3, .start⟩⟩
  rw [hwalk]
  decide

end TokenStream

end SourceMacros

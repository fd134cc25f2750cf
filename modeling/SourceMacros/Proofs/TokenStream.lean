import Mathlib.Data.List.DropRight
import SourceMacros.TokenStream

/-!
# Settled streams

A stream is settled when its cursor rests on a significant token or at the end. Everything that
moves a cursor goes on to a later place (`Onward`), and from one settled place to another
(`Reaches`); only a checkpoint leads back.

Two views of a settled stream carry the proofs about rules. Looking back, `consumed s t` is what
lies between the cursors of `s` and `t`, and a span is that run without the trivia that trails it.
Looking ahead, `remaining` is a plain list: its head is the current token and `next` takes its tail.
-/

namespace SourceMacros

namespace TokenStream

/-- The cursor rests on a significant token or at the end. -/
structure Settled (s : TokenStream) : Prop where
  cursor_le : s.cursor ≤ s.tokens.length
  significant : ∀ {token}, s.current = some token → token.isSignificant = true

/-- The cursor is at a token or at the end. -/
def InRange (s : TokenStream) : Prop :=
  s.cursor ≤ s.tokens.length

/-- `t` is a stream over the tokens of `s`, at the place of `s` or further on. -/
structure Onward (s t : TokenStream) : Prop where
  tokens_eq : t.tokens = s.tokens
  cursor_le : s.cursor ≤ t.cursor
  inRange : t.InRange

/-- `t` is a settled stream over the tokens of `s`, at the place of `s` or further on. -/
structure Reaches (s t : TokenStream) : Prop where
  tokens_eq : t.tokens = s.tokens
  cursor_le : s.cursor ≤ t.cursor
  settled : t.Settled

/-- The tokens from the cursor of `s` to the cursor of `t`, two streams over the same tokens. -/
def consumed (s t : TokenStream) : List Token :=
  (s.tokens.take t.cursor).drop s.cursor

/-! ## Places in a token sequence -/

theorem drop_settle (tokens : List Token) (i : Nat) :
    tokens.drop (settle tokens i) = (tokens.drop i).dropWhile Token.isTrivia := by
  rw [settle, ← List.drop_drop]
  conv => lhs; arg 2; rw [← (tokens.drop i).takeWhile_append_dropWhile (p := Token.isTrivia)]
  exact List.drop_left

/-- Up to the next settled index there are only trivia. -/
theorem drop_take_settle (tokens : List Token) (i : Nat) :
    (tokens.take (settle tokens i)).drop i = (tokens.drop i).takeWhile Token.isTrivia := by
  rw [List.drop_take, settle, Nat.add_sub_cancel_left]
  exact (List.prefix_iff_eq_take.1 (List.takeWhile_prefix _)).symm

theorem take_append_drop_take (tokens : List Token) {i stop : Nat} (hi : i ≤ stop) :
    tokens.take i ++ (tokens.take stop).drop i = tokens.take stop := by
  conv => rhs; rw [← List.take_append_drop i (tokens.take stop)]
  rw [List.take_take, Nat.min_eq_left hi]

theorem le_settle (tokens : List Token) (i : Nat) : i ≤ settle tokens i :=
  Nat.le_add_right _ _

theorem settle_le {tokens : List Token} {i : Nat} (hi : i ≤ tokens.length) :
    settle tokens i ≤ tokens.length := by
  have h := (List.takeWhile_prefix Token.isTrivia (l := tokens.drop i)).length_le
  rw [List.length_drop] at h
  unfold settle
  omega

theorem current_eq_head?_drop (s : TokenStream) :
    s.current = (s.tokens.drop s.cursor).head? := by
  rw [List.head?_drop, current]

/-- A settled index gives a settled stream. -/
theorem settled_settle {tokens : List Token} {i : Nat} (hi : i ≤ tokens.length) :
    Settled ⟨tokens, settle tokens i⟩ := by
  refine ⟨settle_le hi, fun {token} h => ?_⟩
  rw [current_eq_head?_drop, drop_settle] at h
  have hnot := List.head?_dropWhile_not Token.isTrivia (tokens.drop i)
  rw [h] at hnot
  simp only at hnot
  simp [Token.isSignificant, hnot]

theorem ofTokens_settled (tokens : List Token) : (ofTokens tokens).Settled :=
  settled_settle (Nat.zero_le _)

/-! ## Going on to a later place -/

theorem Settled.inRange {s : TokenStream} (hs : s.Settled) : s.InRange :=
  hs.cursor_le

namespace Onward

variable {s t u : TokenStream}

theorem refl (hs : s.InRange) : s.Onward s :=
  ⟨rfl, Nat.le_refl _, hs⟩

theorem trans (hst : s.Onward t) (htu : t.Onward u) : s.Onward u :=
  ⟨htu.tokens_eq.trans hst.tokens_eq, Nat.le_trans hst.cursor_le htu.cursor_le, htu.inRange⟩

/-- A later place with the same cursor is the same place. -/
theorem eq_of_cursor_eq (h : s.Onward t) (hc : t.cursor = s.cursor) : t = s := by
  obtain ⟨tokens, cursor⟩ := t
  obtain ⟨htokens, -, -⟩ := h
  subst htokens hc
  rfl

theorem cursor_lt_of_ne (h : s.Onward t) (hne : t.cursor ≠ s.cursor) : s.cursor < t.cursor :=
  Nat.lt_of_le_of_ne h.cursor_le (Ne.symm hne)

/-- A cursor that moves uses up tokens. -/
theorem left_lt (h : s.Onward t) (hlt : s.cursor < t.cursor) : t.left < s.left := by
  have hrange := h.inRange
  unfold InRange at hrange
  rw [h.tokens_eq] at hrange
  rw [left, left, h.tokens_eq]
  omega

end Onward

/-- Restoring a checkpoint undoes every move over the tokens. -/
theorem restore_of_tokens_eq {s t : TokenStream} (hs : s.InRange) (h : t.tokens = s.tokens) :
    t.restore s.checkpoint = s := by
  obtain ⟨tokens, cursor⟩ := s
  simp only [restore, checkpoint, h, Nat.min_eq_left hs]

theorem cursor_lt_length {s : TokenStream} {token : Token} (h : s.current = some token) :
    s.cursor < s.tokens.length :=
  (List.getElem?_eq_some_iff.1 h).1

/-- A token and the trivia behind it are passed together. -/
theorem next_eq {s : TokenStream} {token : Token} (h : s.current = some token) :
    s.next = ⟨s.tokens, settle s.tokens (s.cursor + 1)⟩ := by
  rw [next, if_pos (cursor_lt_length h)]

theorem next_of_end {s : TokenStream} (h : s.current = none) : s.next = s := by
  rw [next, if_neg (Nat.not_lt.2 (List.getElem?_eq_none_iff.1 h))]

theorem next_onward {s : TokenStream} (hs : s.InRange) : s.Onward s.next := by
  unfold next
  split
  · next hlt => exact ⟨rfl, Nat.le_trans (Nat.le_succ _) (le_settle _ _), settle_le hlt⟩
  · exact .refl hs

theorem cursor_lt_next {s : TokenStream} {token : Token} (h : s.current = some token) :
    s.cursor < s.next.cursor := by
  rw [next_eq h]
  exact le_settle s.tokens (s.cursor + 1)

theorem left_next_lt {s : TokenStream} {token : Token} (h : s.current = some token) :
    s.next.left < s.left :=
  (next_onward (Nat.le_of_lt (cursor_lt_length h))).left_lt (cursor_lt_next h)

/-! ## Reaching a later settled place -/

namespace Reaches

variable {s t u : TokenStream}

theorem refl (hs : s.Settled) : s.Reaches s :=
  ⟨rfl, Nat.le_refl _, hs⟩

theorem trans (hst : s.Reaches t) (htu : t.Reaches u) : s.Reaches u :=
  ⟨htu.tokens_eq.trans hst.tokens_eq, Nat.le_trans hst.cursor_le htu.cursor_le, htu.settled⟩

theorem onward (h : s.Reaches t) : s.Onward t :=
  ⟨h.tokens_eq, h.cursor_le, h.settled.cursor_le⟩

theorem cursor_le_length (h : s.Reaches t) : t.cursor ≤ s.tokens.length :=
  h.tokens_eq ▸ h.settled.cursor_le

theorem eq_of_cursor_eq (h : s.Reaches t) (hc : t.cursor = s.cursor) : t = s :=
  h.onward.eq_of_cursor_eq hc

theorem cursor_lt_of_ne (h : s.Reaches t) (hne : t.cursor ≠ s.cursor) : s.cursor < t.cursor :=
  h.onward.cursor_lt_of_ne hne

theorem left_lt (h : s.Reaches t) (hlt : s.cursor < t.cursor) : t.left < s.left :=
  h.onward.left_lt hlt

end Reaches

/-- Restoring a checkpoint of a settled stream undoes every move over its tokens. -/
theorem restore_checkpoint {s t : TokenStream} (hs : s.Settled) (h : t.tokens = s.tokens) :
    t.restore s.checkpoint = s :=
  restore_of_tokens_eq hs.inRange h

theorem next_settled {s : TokenStream} {token : Token} (h : s.current = some token) :
    s.next.Settled := by
  rw [next_eq h]
  exact settled_settle (cursor_lt_length h)

theorem next_reaches {s : TokenStream} (hs : s.Settled) : s.Reaches s.next := by
  have hnext := next_onward hs.inRange
  refine ⟨hnext.tokens_eq, hnext.cursor_le, ?_⟩
  cases h : s.current with
  | none =>
    rw [next_of_end h]
    exact hs
  | some token => exact next_settled h

/-! ## Looking back: what was consumed -/

@[simp]
theorem consumed_self (s : TokenStream) : s.consumed s = [] := by
  simp [consumed]

theorem take_append_consumed {s t : TokenStream} (h : s.Reaches t) :
    s.tokens.take s.cursor ++ s.consumed t = s.tokens.take t.cursor :=
  take_append_drop_take s.tokens h.cursor_le

theorem consumed_append_drop {s t : TokenStream} (h : s.Reaches t) :
    s.consumed t ++ t.tokens.drop t.cursor = s.tokens.drop s.cursor := by
  have hlen : s.cursor ≤ (s.tokens.take t.cursor).length := by
    rw [List.length_take_of_le h.cursor_le_length]
    exact h.cursor_le
  rw [consumed, h.tokens_eq, ← List.drop_append_of_le_length hlen, List.take_append_drop]

theorem consumed_append {s t u : TokenStream} (hst : s.Reaches t) (htu : t.Reaches u) :
    s.consumed u = s.consumed t ++ t.consumed u := by
  have hsplit := take_append_consumed htu
  rw [hst.tokens_eq, ← take_append_consumed hst, List.append_assoc,
    ← take_append_consumed (hst.trans htu)] at hsplit
  exact (List.append_cancel_left hsplit).symm

/-- One step takes the current token and the trivia behind it. -/
theorem consumed_next {s : TokenStream} {token : Token} (h : s.current = some token) :
    s.consumed s.next
      = token :: (s.tokens.drop (s.cursor + 1)).takeWhile Token.isTrivia := by
  have hlt := cursor_lt_length h
  have htoken : s.tokens[s.cursor] = token := (List.getElem?_eq_some_iff.1 h).2
  rw [next_eq h, consumed, ← drop_take_settle]
  have hle : s.cursor < (s.tokens.take (settle s.tokens (s.cursor + 1))).length := by
    rw [List.length_take_of_le (settle_le hlt)]
    exact le_settle s.tokens (s.cursor + 1)
  rw [List.drop_eq_getElem_cons hle, List.getElem_take, htoken]

/-- A span is what was consumed, without the trivia at its end. -/
theorem spanFrom_eq {s t : TokenStream} (h : t.tokens = s.tokens) :
    t.spanFrom s.cursor = dropTrailingTrivia (s.consumed t) := by
  rw [spanFrom, h, consumed]

/-- The run is empty or ends in a significant token. -/
def Tight (ts : List Token) : Prop :=
  ∀ token, ts.getLast? = some token → token.isSignificant = true

theorem tight_nil : Tight [] :=
  fun _ h => absurd h (by simp)

theorem tight_singleton {token : Token} (h : token.isSignificant = true) : Tight [token] := by
  intro last hlast
  simp only [List.getLast?_singleton, Option.some.injEq] at hlast
  exact hlast ▸ h

theorem Tight.append {xs ys : List Token} (h : Tight ys) (hne : ys ≠ []) : Tight (xs ++ ys) := by
  intro token hlast
  rw [List.getLast?_append_of_ne_nil xs hne] at hlast
  exact h token hlast

/-- A run is its tight part and the trivia that trails it. -/
theorem exists_trailing (ts : List Token) :
    ∃ trail, ts = dropTrailingTrivia ts ++ trail ∧ ∀ x ∈ trail, x.isTrivia = true :=
  ⟨ts.rtakeWhile Token.isTrivia, List.rdropWhile_append_rtakeWhile.symm,
    fun _ hx => List.mem_rtakeWhile_imp hx⟩

/-- Without the trivia at its end a run is tight. -/
theorem tight_dropTrailingTrivia (ts : List Token) : Tight (dropTrailingTrivia ts) := by
  intro token h
  have hne : ts.rdropWhile Token.isTrivia ≠ [] := by
    intro hnil
    rw [show dropTrailingTrivia ts = [] from hnil] at h
    cases h
  have hlast := List.rdropWhile_last_not Token.isTrivia ts hne
  have heq : (ts.rdropWhile Token.isTrivia).getLast hne = token :=
    Option.some.inj ((List.getLast?_eq_some_getLast hne).symm.trans h)
  rw [heq] at hlast
  simp [Token.isSignificant, hlast]

theorem dropTrailingTrivia_append_trivia {ts trail : List Token}
    (h : ∀ x ∈ trail, x.isTrivia = true) :
    dropTrailingTrivia (ts ++ trail) = dropTrailingTrivia ts := by
  have hrev : ∀ x ∈ trail.reverse, x.isTrivia = true := fun x hx => h x (List.mem_reverse.1 hx)
  unfold dropTrailingTrivia
  rw [List.reverse_append, List.dropWhile_append_of_pos hrev]

theorem dropTrailingTrivia_of_tight {ts : List Token} (h : Tight ts) :
    dropTrailingTrivia ts = ts := by
  apply (List.rdropWhile_eq_self_iff (p := Token.isTrivia)).2
  intro hne htrivia
  have hlast := h _ (List.getLast?_eq_some_getLast hne)
  simp [Token.isSignificant, htrivia] at hlast

/-- Only the last part of a run can lose anything, unless it is all trivia. -/
theorem dropTrailingTrivia_append {xs ys : List Token} (h : dropTrailingTrivia ys ≠ []) :
    dropTrailingTrivia (xs ++ ys) = xs ++ dropTrailingTrivia ys := by
  obtain ⟨trail, hys, htrail⟩ := exists_trailing ys
  have htight : Tight (xs ++ dropTrailingTrivia ys) := (tight_dropTrailingTrivia ys).append h
  conv => lhs; rw [hys, ← List.append_assoc]
  rw [dropTrailingTrivia_append_trivia htrail, dropTrailingTrivia_of_tight htight]

/-- The trivia in front of a cursor is what follows the last significant token there. -/
theorem triviaBefore_eq {s : TokenStream} {front trail : List Token}
    (h : s.tokens.take s.cursor = front ++ trail) (hfront : Tight front)
    (htrail : ∀ x ∈ trail, x.isTrivia = true) : s.triviaBefore = trail := by
  have hsplit : dropTrailingTrivia (front ++ trail) ++ (front ++ trail).rtakeWhile Token.isTrivia
      = front ++ trail := List.rdropWhile_append_rtakeWhile
  rw [dropTrailingTrivia_append_trivia htrail, dropTrailingTrivia_of_tight hfront] at hsplit
  rw [triviaBefore, h]
  exact List.append_cancel_left hsplit

/-! ## Looking ahead: what remains -/

/-- The significant tokens that were consumed and those that remain are those that remained
before. -/
theorem filter_consumed_append_remaining {s t : TokenStream} (h : s.Reaches t) :
    (s.consumed t).filter Token.isSignificant ++ t.remaining = s.remaining := by
  rw [remaining, remaining, ← List.filter_append, consumed_append_drop h]

/-- From the start all significant tokens remain. -/
theorem remaining_ofTokens (tokens : List Token) :
    (ofTokens tokens).remaining = tokens.filter Token.isSignificant := by
  have htrivia : ∀ x ∈ tokens.takeWhile Token.isTrivia, ¬ x.isSignificant = true := by
    intro x hx
    simp [Token.isSignificant, List.mem_takeWhile_imp hx]
  have hdrop : tokens.drop (settle tokens 0) = tokens.dropWhile Token.isTrivia :=
    drop_settle tokens 0
  conv => rhs; rw [← tokens.takeWhile_append_dropWhile (p := Token.isTrivia)]
  rw [remaining, ofTokens, hdrop, List.filter_append, List.filter_eq_nil_iff.2 htrivia,
    List.nil_append]

theorem remaining_of_end {s : TokenStream} (h : s.current = none) : s.remaining = [] := by
  rw [remaining, List.drop_eq_nil_of_le (List.getElem?_eq_none_iff.1 h), List.filter_nil]

/-- What remains is the current token and what remains behind it. -/
theorem remaining_of_current {s : TokenStream} {token : Token} (hs : s.Settled)
    (h : s.current = some token) : s.remaining = token :: s.next.remaining := by
  have htrivia : ∀ x ∈ (s.tokens.drop (s.cursor + 1)).takeWhile Token.isTrivia,
      ¬ x.isSignificant = true := by
    intro x hx
    simp [Token.isSignificant, List.mem_takeWhile_imp hx]
  rw [← filter_consumed_append_remaining (next_reaches hs), consumed_next h,
    List.filter_cons_of_pos (hs.significant h), List.filter_eq_nil_iff.2 htrivia]
  rfl

theorem current_eq_head?_remaining {s : TokenStream} (hs : s.Settled) :
    s.current = s.remaining.head? := by
  cases h : s.current with
  | none => rw [remaining_of_end h, List.head?_nil]
  | some token => rw [remaining_of_current hs h, List.head?_cons]

theorem remaining_next {s : TokenStream} (hs : s.Settled) :
    s.next.remaining = s.remaining.tail := by
  cases h : s.current with
  | none => rw [next_of_end h, remaining_of_end h, List.tail_nil]
  | some token => rw [remaining_of_current hs h, List.tail_cons]

theorem length_remaining_le_left (s : TokenStream) : s.remaining.length ≤ s.left := by
  rw [left, ← List.length_drop]
  exact List.length_filter_le _ _

theorem Reaches.length_remaining_le {s t : TokenStream} (h : s.Reaches t) :
    t.remaining.length ≤ s.remaining.length := by
  rw [← filter_consumed_append_remaining h, List.length_append]
  exact Nat.le_add_left _ _

/-- A cursor that moves has passed a significant token. -/
theorem Reaches.length_remaining_lt {s t : TokenStream} (hs : s.Settled) (h : s.Reaches t)
    (hlt : s.cursor < t.cursor) : t.remaining.length < s.remaining.length := by
  have hlen : s.cursor < s.tokens.length := Nat.lt_of_lt_of_le hlt h.cursor_le_length
  have hcurrent : s.current = some s.tokens[s.cursor] := List.getElem?_eq_getElem hlen
  have hhead : s.cursor < (s.tokens.take t.cursor).length := by
    rw [List.length_take_of_le h.cursor_le_length]
    exact hlt
  rw [← filter_consumed_append_remaining h, consumed, List.drop_eq_getElem_cons hhead,
    List.getElem_take, List.filter_cons_of_pos (hs.significant hcurrent)]
  simp only [List.cons_append, List.length_cons, List.length_append]
  omega

/-- Settled cursors over one sequence can be compared by what remains. -/
theorem Reaches.cursor_eq_iff {s t : TokenStream} (hs : s.Settled) (h : s.Reaches t) :
    t.cursor = s.cursor ↔ t.remaining.length = s.remaining.length := by
  constructor
  · intro hc
    rw [h.eq_of_cursor_eq hc]
  · intro hlen
    have hle := h.cursor_le
    have hnot : ¬ s.cursor < t.cursor := fun hlt =>
      Nat.ne_of_lt (Reaches.length_remaining_lt hs h hlt) hlen
    omega

end TokenStream

end SourceMacros

import SourceMacros.Proofs.Rule.Progress

/-!
# How far repetitions go

A repetition takes its item again and again, and a list takes a separator and an item again and
again. `Iterates` and `Continues` say which captures such rounds give and where they lead; they
leave open how many rounds there are. The two rules take all that there are: they go on to where no
further round is possible, and no further (`repetitions_are_maximal`).

The rounds are counted, and the count has to be large enough. A round of a repetition moves the
cursor. A turn of a list need not, but one that stands still is followed by the same turn again,
without end; so a list that does end has moved the cursor in every turn.

A run can be followed from both sides. It is determined by where it starts, so a run that cannot go
on has every other run from there as a front (`Iterates.append_of_end`, `Continues.append_of_end`).
And it falls apart at each of its captures (`Iterates.exists_of_mem`, `Continues.exists_of_mem`).
-/

namespace SourceMacros

open TokenStream

namespace Rule

/-! ## Rounds -/

/-- The parser does not match at `s`. -/
def FailsAt (p : TokenStream → Parsed Capture) (s : TokenStream) : Prop :=
  ∃ why t, p s = .mismatched why t

/-- The parser matches at `s` without moving the cursor. -/
def StandsStillAt (p : TokenStream → Parsed Capture) (s : TokenStream) : Prop :=
  ∃ c t, p s = .matched c t ∧ t.cursor = s.cursor

/-- Matches of `item`, one behind the other, lead from one stream to another. Each of them moves the
cursor, and their captures are in order. -/
inductive Iterates (item : TokenStream → Parsed Capture) :
    TokenStream → List Capture → TokenStream → Prop
  | refl {s : TokenStream} : Iterates item s [] s
  | step {s t u : TokenStream} {c : Capture} {items : List Capture} (h : item s = .matched c t)
      (hmoves : t.cursor ≠ s.cursor) (hrest : Iterates item t items u) :
      Iterates item s (c :: items) u

/-- Matches of `separator` and `item` by turns lead from one stream to another. The captures are
those of the items, in order. -/
inductive Continues (item separator : TokenStream → Parsed Capture) :
    TokenStream → List Capture → TokenStream → Prop
  | refl {s : TokenStream} : Continues item separator s [] s
  | step {s t u v : TokenStream} {d c : Capture} {items : List Capture}
      (hseparator : separator s = .matched d t) (hitem : item t = .matched c u)
      (hrest : Continues item separator u items v) : Continues item separator s (c :: items) v

/-- No separator matches at `s`, or one that no item follows. -/
def EndsListAt (item separator : TokenStream → Parsed Capture) (s : TokenStream) : Prop :=
  FailsAt separator s ∨ ∃ d t, separator s = .matched d t ∧ FailsAt item t

section Rounds

variable {item separator : TokenStream → Parsed Capture} {s t u v r : TokenStream} {c d : Capture}
  {fuel : Nat} {items before separators : List Capture}

theorem not_failsAt (h : item s = .matched c t) : ¬ FailsAt item s := by
  rintro ⟨why, u, hmiss⟩
  cases h.symm.trans hmiss

theorem not_standsStillAt (h : item s = .matched c t) (hmoves : t.cursor ≠ s.cursor) :
    ¬ StandsStillAt item s := by
  rintro ⟨d, u, hround, hstill⟩
  cases h.symm.trans hround
  exact hmoves hstill

theorem not_endsListAt (hseparator : separator s = .matched d t) (hitem : item t = .matched c u) :
    ¬ EndsListAt item separator s := by
  rintro (hfails | ⟨d', t', hseparator', hfails⟩)
  · exact not_failsAt hseparator hfails
  · cases hseparator.symm.trans hseparator'
    exact not_failsAt hitem hfails

/-- A turn that stands still comes again and again, so the list does not end. -/
theorem Continues.not_endsListAt (hseparator : separator s = .matched d u)
    (hitem : item u = .matched c s) (h : Continues item separator s items t) :
    ¬ EndsListAt item separator t := by
  induction h with
  | refl => exact Rule.not_endsListAt hseparator hitem
  | step hseparator' hitem' _ ih =>
    cases hseparator.symm.trans hseparator'
    cases hitem.symm.trans hitem'
    exact ih hseparator hitem

/-! ## Runs one behind the other -/

theorem Iterates.trans (h : Iterates item s before t) (hrest : Iterates item t items u) :
    Iterates item s (before ++ items) u := by
  induction h with
  | refl => exact hrest
  | step hround hmoves _ ih => exact .step hround hmoves (ih hrest)

theorem Continues.trans (h : Continues item separator s before t)
    (hrest : Continues item separator t items u) :
    Continues item separator s (before ++ items) u := by
  induction h with
  | refl => exact hrest
  | step hseparator hitem _ ih => exact .step hseparator hitem (ih hrest)

/-- Rounds that go on to where there is no other start with all rounds that there are. -/
theorem Iterates.append_of_end (h : Iterates item s before u) (hall : Iterates item s items t)
    (hend : FailsAt item t ∨ StandsStillAt item t) :
    ∃ after, items = before ++ after ∧ Iterates item u after t := by
  induction h generalizing items with
  | refl => exact ⟨items, rfl, hall⟩
  | step hround hmoves _ ih =>
    cases hall with
    | refl => exact (hend.elim (not_failsAt hround) (not_standsStillAt hround hmoves)).elim
    | step hround' _ hothers =>
      cases hround.symm.trans hround'
      obtain ⟨after, rfl, hafter⟩ := ih hothers
      exact ⟨after, rfl, hafter⟩

/-- Turns that go on to where there is no other start with all turns that there are. -/
theorem Continues.append_of_end (h : Continues item separator s before u)
    (hall : Continues item separator s items t) (hend : EndsListAt item separator t) :
    ∃ after, items = before ++ after ∧ Continues item separator u after t := by
  induction h generalizing items with
  | refl => exact ⟨items, rfl, hall⟩
  | step hseparator hitem _ ih =>
    cases hall with
    | refl => exact absurd hend (Rule.not_endsListAt hseparator hitem)
    | step hseparator' hitem' hothers =>
      cases hseparator.symm.trans hseparator'
      cases hitem.symm.trans hitem'
      obtain ⟨after, rfl, hafter⟩ := ih hothers
      exact ⟨after, rfl, hafter⟩

/-- Every item of a run is that of a round, with the rounds before it leading there. -/
theorem Iterates.exists_of_mem (h : Iterates item s items t) (hc : c ∈ items) :
    ∃ before u v, Iterates item s before u ∧ item u = .matched c v ∧ v.cursor ≠ u.cursor := by
  induction h with
  | refl => cases hc
  | @step s u _ d items hround hmoves _ ih =>
    rcases List.mem_cons.1 hc with rfl | hlater
    · exact ⟨[], s, u, .refl, hround, hmoves⟩
    · obtain ⟨before, v, w, hbefore, hlast⟩ := ih hlater
      exact ⟨d :: before, v, w, .step hround hmoves hbefore, hlast⟩

/-- Every item of a list, be it the first or a later one, stands behind turns of item and separator.
-/
theorem Continues.exists_of_mem (hfirst : item s = .matched d r)
    (h : Continues item separator r items t) (hc : c ∈ d :: items) :
    ∃ separators u v, Continues separator item s separators u ∧ item u = .matched c v := by
  induction h generalizing s d with
  | @refl r =>
    obtain rfl := List.mem_singleton.1 hc
    exact ⟨[], s, r, .refl, hfirst⟩
  | @step r _ _ _ e _ _ hseparator hitem _ ih =>
    rcases List.mem_cons.1 hc with rfl | hlater
    · exact ⟨[], s, r, .refl, hfirst⟩
    · obtain ⟨separators, u, v, hturns, hlast⟩ := ih hitem hlater
      exact ⟨e :: separators, u, v, .step hfirst hseparator hturns, hlast⟩

/-- Turns of item and separator in front of a last item are a first item and turns of separator and
item behind it. -/
theorem Continues.exists_first (h : Continues separator item s separators u)
    (hlast : item u = .matched c v) :
    ∃ d r items, item s = .matched d r ∧ Continues item separator r items v ∧ c ∈ d :: items := by
  induction h with
  | refl => exact ⟨c, v, [], hlast, .refl, List.mem_cons_self⟩
  | step hitem hseparator _ ih =>
    obtain ⟨e, r, items, hnext, hturns, hmem⟩ := ih hlast
    exact ⟨_, _, e :: items, hitem, .step hseparator hnext hturns, List.mem_cons_of_mem _ hmem⟩

/-! ## Counted rounds -/

section Repetition

variable {still ends still' ends' : Prop} (hitem : ProceedingParser item still ends)

include hitem

theorem Iterates.onward (h : Iterates item s items t) (hs : s.InRange) : s.Onward t := by
  induction h with
  | refl => exact .refl hs
  | step hround _ _ ih =>
    have hsu := hitem.onward_of_matched hs hround
    exact hsu.trans (ih hsu.inRange)

/-- The counted rounds of a repetition are rounds, and they go on to where there is no other. -/
theorem iterates_of_parseMany (hs : s.InRange) (h : parseMany item fuel s = .matched items t) :
    Iterates item s items t ∧ (FailsAt item t ∨ StandsStillAt item t) := by
  induction fuel generalizing s items with
  | zero => cases h
  | succ fuel ih =>
    unfold parseMany at h
    split at h
    · next c u hround =>
      have hsu := hitem.onward_of_matched hs hround
      split at h
      · next hstill =>
        cases h
        have hsame := hsu.eq_of_cursor_eq hstill
        subst hsame
        exact ⟨.refl, .inr ⟨c, t, hround, rfl⟩⟩
      · next hmoves =>
        obtain ⟨others, hothers, rfl⟩ := Parsed.map_eq_matched h
        obtain ⟨hrounds, hend⟩ := ih hsu.inRange hothers
        exact ⟨.step hround hmoves hrounds, hend⟩
    · next why u hmiss =>
      cases h
      rw [hitem.eq_of_mismatched hs hmiss, restore_of_tokens_eq hs rfl]
      exact ⟨.refl, .inl ⟨why, u, hmiss⟩⟩
    · cases h

/-- Rounds that go on to where there is no other are those that are counted. Each of them moves the
cursor, so there are no more of them than tokens. -/
theorem parseMany_of_iterates (hs : s.InRange) (hfuel : s.left < fuel)
    (h : Iterates item s items t) (hend : FailsAt item t ∨ StandsStillAt item t) :
    parseMany item fuel s = .matched items t := by
  induction h generalizing fuel with
  | @refl s =>
    obtain ⟨spare, rfl⟩ := Nat.exists_eq_add_of_lt hfuel
    rcases hend with ⟨why, u, hmiss⟩ | ⟨c, u, hround, hstill⟩
    · simp only [parseMany, hmiss, hitem.eq_of_mismatched hs hmiss, restore_of_tokens_eq hs rfl]
    · have hsame := (hitem.onward_of_matched hs hround).eq_of_cursor_eq hstill
      simp only [parseMany, hround, hsame, if_true]
  | @step s u _ c items hround hmoves _ ih =>
    obtain ⟨spare, rfl⟩ := Nat.exists_eq_add_of_lt hfuel
    have hsu := hitem.onward_of_matched hs hround
    have hleft := hsu.left_lt (hsu.cursor_lt_of_ne hmoves)
    have hothers := ih hsu.inRange (show u.left < s.left + spare by omega) hend
    simp only [parseMany, hround, hmoves, if_false, hothers, Parsed.map]

variable (hseparator : ProceedingParser separator still' ends')

include hseparator

theorem Continues.onward (h : Continues item separator s items t) (hs : s.InRange) :
    s.Onward t := by
  induction h with
  | refl => exact .refl hs
  | step hsep hround _ ih =>
    have hsu := hseparator.onward_of_matched hs hsep
    have huv := hitem.onward_of_matched hsu.inRange hround
    exact (hsu.trans huv).trans (ih huv.inRange)

/-- A separator that no item follows is given back. -/
theorem restore_of_missing {why : Mismatch} (hs : s.InRange) (hsep : separator s = .matched d u)
    (hmiss : item u = .mismatched why v) : v.restore s.checkpoint = s := by
  have hsu := hseparator.onward_of_matched hs hsep
  refine restore_of_tokens_eq hs ?_
  rw [hitem.eq_of_mismatched hsu.inRange hmiss, hsu.tokens_eq]

/-- The counted turns of a list are turns, and they go on to where there is no other. -/
theorem continues_of_parseSeparated (hs : s.InRange)
    (h : parseSeparated item separator fuel s = .matched items t) :
    Continues item separator s items t ∧ EndsListAt item separator t := by
  induction fuel generalizing s items with
  | zero => cases h
  | succ fuel ih =>
    unfold parseSeparated at h
    split at h
    · next why u hmiss =>
      cases h
      have hsame := hseparator.eq_of_mismatched hs hmiss
      subst hsame
      exact ⟨.refl, .inl ⟨why, t, hmiss⟩⟩
    · cases h
    · next d u hsep =>
      have hsu := hseparator.onward_of_matched hs hsep
      split at h
      · next c v hround =>
        have huv := hitem.onward_of_matched hsu.inRange hround
        obtain ⟨others, hothers, rfl⟩ := Parsed.map_eq_matched h
        obtain ⟨hturns, hend⟩ := ih huv.inRange hothers
        exact ⟨.step hsep hround hturns, hend⟩
      · next why v hmiss =>
        cases h
        rw [restore_of_missing hitem hseparator hs hsep hmiss]
        exact ⟨.refl, .inr ⟨d, u, hsep, why, v, hmiss⟩⟩
      · cases h

/-- Turns that go on to where there is no other are those that are counted. A list that ends has no
turn that stands still, so there are no more turns than tokens. -/
theorem parseSeparated_of_continues (hs : s.InRange) (hfuel : s.left < fuel)
    (h : Continues item separator s items t) (hend : EndsListAt item separator t) :
    parseSeparated item separator fuel s = .matched items t := by
  induction h generalizing fuel with
  | @refl s =>
    obtain ⟨spare, rfl⟩ := Nat.exists_eq_add_of_lt hfuel
    rcases hend with ⟨why, u, hmiss⟩ | ⟨d, u, hsep, why, v, hmiss⟩
    · simp only [parseSeparated, hmiss, hseparator.eq_of_mismatched hs hmiss]
    · have hback := restore_of_missing hitem hseparator hs hsep hmiss
      simp only [parseSeparated, hsep, hmiss, hback]
  | @step s u v _ d c items hsep hround hrest ih =>
    obtain ⟨spare, rfl⟩ := Nat.exists_eq_add_of_lt hfuel
    have hsu := hseparator.onward_of_matched hs hsep
    have huv := hitem.onward_of_matched hsu.inRange hround
    have hsv := hsu.trans huv
    have hmoves : v.cursor ≠ s.cursor := by
      intro hstill
      have hsame := hsv.eq_of_cursor_eq hstill
      subst hsame
      exact hrest.not_endsListAt hsep hround hend
    have hleft := hsv.left_lt (hsv.cursor_lt_of_ne hmoves)
    have hothers := ih hsv.inRange (show v.left < s.left + spare by omega) hend
    simp only [parseSeparated, hsep, hround, hothers, Parsed.map]

end Repetition

end Rounds

/-! ## The two rules -/

section

variable {p q : Rule} {s t : TokenStream} {c : Capture} {why : Mismatch}

/-- A repetition matches with the captures of all its rounds. -/
theorem many_eq_matched_iff (hs : s.InRange) :
    (many p).parse s = .matched c t ↔
      ∃ items, c = .list (t.spanFrom s.cursor) items ∧ Iterates p.parse s items t ∧
        (FailsAt p.parse t ∨ StandsStillAt p.parse t) := by
  have hp : ProceedingParser p.parse (p.nullable = true) p.ListsMove := parse_proceeds p
  constructor
  · intro h
    obtain ⟨fuel, items, hrounds, rfl⟩ := many_eq_matched h
    exact ⟨items, rfl, iterates_of_parseMany hp hs hrounds⟩
  · rintro ⟨items, rfl, hrounds, hend⟩
    rw [parse, parseMany_of_iterates hp hs (Nat.lt_succ_self _) hrounds hend]

/-- A list matches with the captures of a first item and of all turns behind it. -/
theorem separated_eq_matched_iff (hs : s.InRange) :
    (separated p q).parse s = .matched c t ↔
      ∃ first u items, p.parse s = .matched first u ∧
        c = .list (t.spanFrom s.cursor) (first :: items) ∧ Continues p.parse q.parse u items t ∧
        EndsListAt p.parse q.parse t := by
  have hp : ProceedingParser p.parse (p.nullable = true) p.ListsMove := parse_proceeds p
  have hq : ProceedingParser q.parse (q.nullable = true) q.ListsMove := parse_proceeds q
  constructor
  · intro h
    obtain ⟨first, u, fuel, items, hfirst, hturns, rfl⟩ := separated_eq_matched h
    have hu := (onward_of_matched hs hfirst).inRange
    exact ⟨first, u, items, hfirst, rfl, continues_of_parseSeparated hp hq hu hturns⟩
  · rintro ⟨first, u, items, hfirst, rfl, hturns, hend⟩
    have hu := (onward_of_matched hs hfirst).inRange
    simp only [parse, hfirst, parseSeparated_of_continues hp hq hu (Nat.lt_succ_self _) hturns hend]

/-- A repetition never fails, for it takes no rounds if its rule fails at once. -/
theorem many_ne_mismatched (hs : s.InRange) : (many p).parse s ≠ .mismatched why t := by
  have hrounds := parseMany_proceeds (parse_proceeds p) hs (.inl (Nat.lt_succ_self s.left))
  intro h
  rw [parse] at h
  generalize parseMany p.parse (s.left + 1) s = x at hrounds h
  cases hrounds with
  | matched => cases h
  | mismatched hfalse => exact hfalse.elim
  | endless => cases h

/-- A list fails exactly where its rule fails, with the mismatch of its rule. -/
theorem separated_eq_mismatched_iff (hs : s.InRange) :
    (separated p q).parse s = .mismatched why t ↔ p.parse s = .mismatched why t := by
  rw [parse]
  cases hfirst : p.parse s with
  | matched c u =>
    have hu := (onward_of_matched hs hfirst).inRange
    have hturns := parseSeparated_proceeds (parse_proceeds p) (parse_proceeds q) hu
      (.inl (Nat.lt_succ_self u.left))
    simp only
    generalize parseSeparated p.parse q.parse (u.left + 1) u = x at hturns ⊢
    cases hturns with
    | matched => simp
    | mismatched hfalse => exact hfalse.elim
    | endless => simp
  | mismatched why' u => simp
  | endless => simp

end

/-- A repetition never fails. Its items are the captures of all rounds that its rule makes from
there, in order; each round moves the cursor, and behind the last one the rule fails or stands
still. A list fails where its rule fails, and in the same way. Otherwise its items are that of a
first match and those of all turns behind it, and the cursor is behind the last of them; what
follows is no separator, or one without an item behind it, which is left alone. -/
theorem repetitions_are_maximal (p q : Rule) {s : TokenStream} (hs : s.Settled) :
    ((∀ why t, (many p).parse s ≠ .mismatched why t) ∧
      ∀ c t, (many p).parse s = .matched c t ↔
        ∃ items, c = .list (t.spanFrom s.cursor) items ∧ Iterates p.parse s items t ∧
          (FailsAt p.parse t ∨ StandsStillAt p.parse t)) ∧
    (∀ why t, (separated p q).parse s = .mismatched why t ↔ p.parse s = .mismatched why t) ∧
    ∀ c t, (separated p q).parse s = .matched c t ↔
      ∃ first u items, p.parse s = .matched first u ∧
        c = .list (t.spanFrom s.cursor) (first :: items) ∧ Continues p.parse q.parse u items t ∧
        (FailsAt q.parse t ∨ ∃ d v, q.parse t = .matched d v ∧ FailsAt p.parse v) := by
  exact ⟨⟨fun why t => many_ne_mismatched hs.inRange, fun c t => many_eq_matched_iff hs.inRange⟩,
    fun why t => separated_eq_mismatched_iff hs.inRange,
    fun c t => separated_eq_matched_iff hs.inRange⟩

/-- Of `a,b,` a repetition of names with a comma behind them takes all. A list of names with commas
between them leaves the last comma alone. -/
theorem repetitions_are_maximal_trailing :
    ∃ (s : TokenStream) (name comma entry : Rule), s.text = "a,b,".toList ∧ s.Settled ∧
      name = token .identifier ∧ comma = lexeme [','] ∧ entry = chain [name, comma] ∧
      (∃ c t items, (many entry).parse s = .matched c t ∧ t.isEmpty = true ∧
        c = .list (t.spanFrom s.cursor) items ∧
        items.map Capture.text = ["a,".toList, "b,".toList] ∧
        Iterates entry.parse s items t ∧ (FailsAt entry.parse t ∨ StandsStillAt entry.parse t)) ∧
      ∃ c t first u items, (separated name comma).parse s = .matched c t ∧
        Token.text t.remaining = [','] ∧ name.parse s = .matched first u ∧
        c = .list (t.spanFrom s.cursor) (first :: items) ∧
        (first :: items).map Capture.text = [['a'], ['b']] ∧
        Continues name.parse comma.parse u items t ∧
        (FailsAt comma.parse t ∨ ∃ d v, comma.parse t = .matched d v ∧ FailsAt name.parse v) := by
  obtain ⟨s, htext, hs, hmany, hlist⟩ : ∃ s : TokenStream, s.text = "a,b,".toList ∧ s.Settled ∧
      (∃ t items, (many (chain [token .identifier, lexeme [',']])).parse s
          = .matched (.list (t.spanFrom s.cursor) items) t ∧ t.isEmpty = true ∧
        items.map Capture.text = ["a,".toList, "b,".toList]) ∧
      ∃ t items, (separated (token .identifier) (lexeme [','])).parse s
          = .matched (.list (t.spanFrom s.cursor) items) t ∧ Token.text t.remaining = [','] ∧
        items.map Capture.text = [['a'], ['b']] := by
    refine ⟨_, ?_, ofTokens_settled [.synthetic .identifier ['a'], .synthetic .punctuation [','],
      .synthetic .identifier ['b'], .synthetic .punctuation [',']], ⟨_, _, rfl, ?_, ?_⟩,
      _, _, rfl, ?_, ?_⟩ <;> rfl
  obtain ⟨t, items, hmatch, hend, hitems⟩ := hmany
  obtain ⟨t', items', hmatch', hleft, hitems'⟩ := hlist
  obtain ⟨others, heq, hrounds⟩ := ((repetitions_are_maximal _ (lexeme [',']) hs).1.2 _ _).1 hmatch
  obtain ⟨first, u, more, hfirst, heq', hturns⟩ :=
    ((repetitions_are_maximal _ _ hs).2.2 _ _).1 hmatch'
  cases heq
  cases heq'
  exact ⟨s, _, _, _, htext, hs, rfl, rfl, rfl, ⟨_, t, _, hmatch, hend, rfl, hitems, hrounds⟩, _, t',
    first, u, more, hmatch', hleft, hfirst, rfl, hitems', hturns⟩

end Rule

end SourceMacros

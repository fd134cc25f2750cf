import SourceMacros.Proofs.ClassMember.Kinds
import SourceMacros.Proofs.Rule.Iteration
import SourceMacros.Proofs.Rule.Parts

/-!
# The block of a trait use

Behind its names a trait use has a block of resolutions, or else perhaps a semicolon. Where a brace
opens a block there, the block is taken whole or it is left alone whole: if the resolutions behind
the brace, read one after the other as far as they go, end at the closing brace, the block is part
of the trait use; if anything else stands there, the trait use ends in front of the block
(`traitUse_block_whole_or_untouched`).

It is no failure of the trait use that a block cannot be read. What fails is one of two
alternatives, and the other one, an optional semicolon, matches nothing in front of the brace.
-/

namespace SourceMacros

open TokenStream

namespace Rule

variable {s : TokenStream} {text : Text}

/-! ## Words -/

theorem parse_lexeme_of_current {token : Token} (h : s.current = some token)
    (htext : token.lexeme = text) : (lexeme text).parse s = .matched (.leaf [token]) s.next := by
  simp only [parse, parseToken, h, htext, beq_self_eq_true, if_true]

theorem parse_lexeme_of_not (h : s.current.any (·.lexeme == text) = false) :
    (lexeme text).parse s = .mismatched (Mismatch.atCursor s (lexeme text).expected) s := by
  unfold parse parseToken
  cases hcurrent : s.current with
  | none => rfl
  | some token =>
    rw [hcurrent, Option.any_some] at h
    simp only [h, Bool.false_eq_true, if_false]

/-! ## A rule or else another one, if it is there -/

section Alternatives

variable {p q : Rule} {t : TokenStream} {c : Capture} {why : Mismatch}

theorem optional_of_mismatched (hs : s.InRange) (h : q.parse s = .mismatched why t) :
    (optional q).parse s = .matched .empty s := by
  simp only [parse, h, restore_of_mismatched hs h]

theorem optional_ne_mismatched : (optional q).parse s ≠ .mismatched why t := by
  unfold parse
  split <;> nofun

theorem either_of_matched {rules : List Rule} (hquick : p.quickCheck s.current ≠ some false)
    (h : p.parse s = .matched c t) : (either (p :: rules)).parse s = .matched c t := by
  simp only [parse, parseEither, if_neg hquick, h]

/-- As the last alternative, an optional rule is tried whatever the next token. -/
theorem parseEither_optional (expected : Text) (q : Rule) (s : TokenStream) :
    parseEither expected [optional q] s = (optional q).parse s := by
  have hquick : (optional q).quickCheck s.current ≠ some false := nofun
  rw [parseEither, if_neg hquick]
  cases h : (optional q).parse s with
  | mismatched why t => exact absurd h optional_ne_mismatched
  | matched c t => rfl
  | endless => rfl

theorem either_optional_of_mismatched (hs : s.InRange) (h : p.parse s = .mismatched why t) :
    (either [p, optional q]).parse s = (optional q).parse s := by
  rw [parse, parseEither]
  split
  · exact parseEither_optional _ q s
  · simp only [h, restore_of_mismatched hs h]
    exact parseEither_optional _ q s

/-- A choice with an optional rule at its end never fails. -/
theorem either_optional_ne_mismatched : (either [p, optional q]).parse s ≠ .mismatched why t := by
  intro h
  rw [parse, parseEither] at h
  by_cases hquick : p.quickCheck s.current = some false
  · rw [if_pos hquick, parseEither_optional] at h
    exact optional_ne_mismatched h
  · rw [if_neg hquick] at h
    cases hp : p.parse s with
    | matched c u =>
      rw [hp] at h
      cases h
    | mismatched why u =>
      simp only [hp, parseEither_optional] at h
      exact optional_ne_mismatched h
    | endless =>
      rw [hp] at h
      cases h

end Alternatives

end Rule

namespace ClassMember

open Rule

variable {s t u v : TokenStream} {c : Capture}

/-! ## The parts of a trait use -/

/-- The rules for the front of a trait use: its keyword and the names of the traits. -/
def traitFront (scope : Option Label) : List Rule :=
  [word "use",
    labelled (named scope "classTraitNames")
      (separated (labelled (named scope "classTraitName") qualifiedName) (word ","))]

/-- The block of a trait use. -/
def traitBlock (scope : Option Label) : Rule :=
  labelled (named scope "classTraitBody")
    (chain [word "\x7b",
      labelled (named scope "classTraitAliases") (many (traitResolution scope)),
      word "\x7d"])

/-- What ends a trait use. -/
def traitEnd (scope : Option Label) : Rule :=
  either [traitBlock scope, optional (word ";")]

/-- The rule for a use of traits falls into what stands before the block and the block itself. -/
theorem traitUse_eq (scope : Option Label) : traitUse scope
    = labelled (named scope "classTrait") (chain (traitFront scope ++ [traitEnd scope])) :=
  rfl

/-- What a trait use from `s` to `t` is captured as: its names, and the entries of its end. -/
def useCapture (scope : Option Label) (s t : TokenStream) (names : Capture) (behind : Entries) :
    Capture :=
  .labelled (named scope "classTrait")
    (.tree (t.spanFrom s.cursor) ((named scope "classTraitNames", names) :: behind))

/-- The entry of a block from `u` to `t`. -/
def blockEntry (scope : Option Label) (u t : TokenStream) (aliases : Capture) : Label × Capture :=
  (named scope "classTraitBody",
    .tree (t.spanFrom u.cursor) [(named scope "classTraitAliases", aliases)])

theorem traitEnd_listsMove (scope : Option Label) : (traitEnd scope).ListsMove := by
  rw [listsMove_iff]
  rfl

theorem traitResolution_listsMove (scope : Option Label) :
    (many (traitResolution scope)).ListsMove := by
  rw [listsMove_iff]
  rfl

/-! ## The front -/

/-- The part before the block leaves the cursor settled and captures the list of names. -/
theorem traitFront_eq_matched {scope : Option Label} {es : Entries}
    (h : parseChain (traitFront scope) s = .matched es u) :
    u.Settled ∧ ∃ names, es = [(named scope "classTraitNames", names)] := by
  obtain ⟨_, r, fs, huse, hfs, rfl⟩ := parseChain_cons_eq_matched h
  obtain ⟨_, _, gs, hnames, hgs, rfl⟩ := parseChain_cons_eq_matched hfs
  obtain ⟨token, hcurrent, -, rfl, rfl⟩ := parseToken_eq_matched (by rwa [word, parse] at huse)
  have hsettled : s.next.Settled := next_settled hcurrent
  obtain ⟨names, -, rfl⟩ := Parsed.map_eq_matched (by rwa [parse] at hnames)
  cases hgs
  exact ⟨(reaches_of_matched hsettled hnames).settled, names, rfl⟩

/-! ## The block -/

/-- Behind its brace a block is read as far as its resolutions go. If the closing brace stands
there, the block has been read, and otherwise nothing has. -/
theorem parse_traitBlock (scope : Option Label) {brace : Token} (hu : u.InRange)
    (hcurrent : u.current = some brace) (hbrace : brace.lexeme = ['\x7b']) :
    ∃ aliases v, (many (traitResolution scope)).parse u.next = .matched aliases v ∧
      ((v.current.any (·.lexeme == ['\x7d']) = true ∧
        (traitBlock scope).parse u = .matched
          (.tree (v.next.spanFrom u.cursor) [blockEntry scope u v.next aliases]) v.next) ∨
      (v.current.any (·.lexeme == ['\x7d']) = false ∧
        ∃ why, (traitBlock scope).parse u = .mismatched why u)) := by
  have hnext : u.Onward u.next := next_onward hu
  have hopen : (word "\x7b").parse u = .matched (.leaf [brace]) u.next :=
    parse_lexeme_of_current hcurrent hbrace
  obtain ⟨aliases, v, hmany⟩ :
      ∃ aliases v, (many (traitResolution scope)).parse u.next = .matched aliases v := by
    rcases returns_of_listsMove (traitResolution_listsMove scope) hnext.inRange with h | ⟨why, h⟩
    · exact h
    · exact absurd h (many_ne_mismatched hnext.inRange)
  have huv : u.Onward v := hnext.trans (onward_of_matched hnext.inRange hmany)
  have hlist :
      (labelled (named scope "classTraitAliases") (many (traitResolution scope))).parse u.next
        = .matched (.labelled (named scope "classTraitAliases") aliases) v := by
    rw [parse, hmany]
    rfl
  refine ⟨aliases, v, hmany, ?_⟩
  cases hclose : v.current.any (·.lexeme == ['\x7d']) with
  | true =>
    obtain ⟨closing, hclosing, hlexeme⟩ := (Option.any_eq_true _ _).1 hclose
    have hend : (word "\x7d").parse v = .matched (.leaf [closing]) v.next :=
      parse_lexeme_of_current hclosing (eq_of_beq hlexeme)
    refine .inl ⟨rfl, ?_⟩
    rw [traitBlock, parse, parse]
    simp only [parseChain, hopen, hlist, hend]
    rfl
  | false =>
    have hend : (word "\x7d").parse v
        = .mismatched (Mismatch.atCursor v (word "\x7d").expected) v :=
      parse_lexeme_of_not hclose
    refine .inr ⟨rfl, Mismatch.atCursor v (word "\x7d").expected, ?_⟩
    rw [traitBlock, parse, parse]
    simp only [parseChain, hopen, hlist, hend, Parsed.map, restore_of_tokens_eq hu huv.tokens_eq]

/-- In front of a brace a trait use ends with the whole block or with nothing. -/
theorem parse_traitEnd (scope : Option Label) {brace : Token} (hu : u.InRange)
    (hcurrent : u.current = some brace) (hbrace : brace.lexeme = ['\x7b']) :
    ∃ aliases v, (many (traitResolution scope)).parse u.next = .matched aliases v ∧
      ((v.current.any (·.lexeme == ['\x7d']) = true ∧
        (traitEnd scope).parse u = .matched
          (.tree (v.next.spanFrom u.cursor) [blockEntry scope u v.next aliases]) v.next) ∨
      (v.current.any (·.lexeme == ['\x7d']) = false ∧
        (traitEnd scope).parse u = .matched .empty u)) := by
  have hquick : (traitBlock scope).quickCheck u.current = some true := by
    rw [hcurrent]
    exact congrArg some (beq_iff_eq.2 hbrace)
  have hsemicolon : u.current.any (·.lexeme == [';']) = false := by
    rw [hcurrent, Option.any_some, hbrace]
    rfl
  obtain ⟨aliases, v, hmany, hblock⟩ := parse_traitBlock scope hu hcurrent hbrace
  refine ⟨aliases, v, hmany, ?_⟩
  rcases hblock with ⟨hclose, hmatch⟩ | ⟨hclose, why, hmiss⟩
  · exact .inl ⟨hclose, either_of_matched (by simp [hquick]) hmatch⟩
  · refine .inr ⟨hclose, (either_optional_of_mismatched hu hmiss).trans ?_⟩
    exact optional_of_mismatched hu (parse_lexeme_of_not hsemicolon)

/-! ## The whole -/

/-- Whatever stands behind the names, a trait use has an end there. -/
theorem traitEnd_matches (scope : Option Label) (hu : u.InRange) :
    ∃ c t, (traitEnd scope).parse u = .matched c t := by
  rcases returns_of_listsMove (traitEnd_listsMove scope) hu with h | ⟨why, hmiss⟩
  · exact h
  · exact absurd hmiss either_optional_ne_mismatched

/-- A use of traits is read up to its block, and then the choice between block and semicolon
follows. Where this choice fails, everything is given back. -/
theorem parse_traitUse (scope : Option Label) (s : TokenStream) :
    (traitUse scope).parse s =
      match parseChain (traitFront scope) s with
      | .matched es u =>
        match (traitEnd scope).parse u with
        | .matched c t =>
          .matched (.labelled (named scope "classTrait")
            (.tree (t.spanFrom s.cursor) (es ++ c.entries))) t
        | .mismatched why t => .mismatched why (t.restore s.checkpoint)
        | .endless => .endless
      | .mismatched why t => .mismatched why (t.restore s.checkpoint)
      | .endless => .endless := by
  rw [traitUse_eq, parse, parse, parseChain_append]
  cases parseChain (traitFront scope) s with
  | matched es u =>
    simp only [parseChain]
    cases (traitEnd scope).parse u with
    | matched c t => simp [Parsed.map]
    | mismatched why t => rfl
    | endless => rfl
  | mismatched why t => rfl
  | endless => rfl

/-- A use of traits that matches has a list of names, and the rest of its capture is what the choice
between block and semicolon gives. -/
theorem traitUse_eq_matched {scope : Option Label} (h : (traitUse scope).parse s = .matched c t) :
    ∃ names u d,
      parseChain (traitFront scope) s = .matched [(named scope "classTraitNames", names)] u ∧
      u.Settled ∧ (traitEnd scope).parse u = .matched d t ∧
      c = useCapture scope s t names d.entries := by
  rw [parse_traitUse] at h
  cases hfront : parseChain (traitFront scope) s with
  | matched es u =>
    rw [hfront] at h
    obtain ⟨hu, names, rfl⟩ := traitFront_eq_matched hfront
    cases hend : (traitEnd scope).parse u with
    | matched d v =>
      simp only [hend, Parsed.matched.injEq] at h
      obtain ⟨rfl, rfl⟩ := h
      exact ⟨names, u, d, rfl, hu, hend, rfl⟩
    | mismatched why v =>
      simp only [hend] at h
      cases h
    | endless =>
      simp only [hend] at h
      cases h
  | mismatched why u =>
    rw [hfront] at h
    cases h
  | endless =>
    rw [hfront] at h
    cases h

/-- A use of traits fails only in front of the block, since the choice behind it never does. -/
theorem traitUse_eq_mismatched {scope : Option Label} {why : Mismatch}
    (h : (traitUse scope).parse s = .mismatched why t) :
    ∃ u, parseChain (traitFront scope) s = .mismatched why u := by
  rw [parse_traitUse] at h
  cases hfront : parseChain (traitFront scope) s with
  | matched es u =>
    obtain ⟨d, v, hend⟩ := traitEnd_matches scope (traitFront_eq_matched hfront).1.inRange
    simp only [hfront, hend] at h
    cases h
  | mismatched why' u =>
    rw [hfront] at h
    cases h
    exact ⟨u, rfl⟩
  | endless =>
    rw [hfront] at h
    cases h

/-- A trait use returns wherever it is tried. It fails only if its front does, and the cursor is put
back. If it matches and the next token behind its names is a brace, the resolutions behind the brace
are read as far as they go: if the closing brace stands there, the block is captured and the cursor
is behind it, and otherwise nothing of the block is captured and the cursor is in front of it. -/
theorem traitUse_block_whole_or_untouched (scope : Option Label) {s : TokenStream}
    (hs : s.InRange) :
    (traitUse scope).parse s ≠ .endless ∧
    (∀ why t, (traitUse scope).parse s = .mismatched why t →
      t = s ∧ ∃ u, parseChain (traitFront scope) s = .mismatched why u) ∧
    ∀ c t, (traitUse scope).parse s = .matched c t →
      ∃ names u,
        parseChain (traitFront scope) s = .matched [(named scope "classTraitNames", names)] u ∧
        ∀ brace, u.remaining.head? = some brace → brace.is .punctuation ['\x7b'] = true →
          ∃ aliases v, (many (traitResolution scope)).parse u.next = .matched aliases v ∧
            ((v.current.any (·.lexeme == ['\x7d']) = true ∧ t = v.next ∧
              c = useCapture scope s t names [blockEntry scope u t aliases]) ∨
            (v.current.any (·.lexeme == ['\x7d']) = false ∧ t = u ∧
              c = useCapture scope s t names [])) := by
  have hreturns := returns_of_listsMove (Kind.listsMove .traitUse scope) hs
  refine ⟨fun hendless => ?_, fun why t h => ⟨?_, traitUse_eq_mismatched h⟩, fun c t h => ?_⟩
  · rcases hreturns with ⟨c, t, h⟩ | ⟨why, h⟩ <;> cases hendless.symm.trans h
  · rcases hreturns with ⟨c, u, h'⟩ | ⟨why', h'⟩ <;> cases h.symm.trans h'
    rfl
  · obtain ⟨names, u, d, hfront, hu, hend, rfl⟩ := traitUse_eq_matched h
    refine ⟨names, u, hfront, fun brace hhead hbrace => ?_⟩
    have hcurrent : u.current = some brace := (current_eq_head?_remaining hu).trans hhead
    have hlexeme : brace.lexeme = ['\x7b'] := eq_of_beq (Bool.and_eq_true_iff.1 hbrace).2
    obtain ⟨aliases, v, hmany, hblock⟩ := parse_traitEnd scope hu.inRange hcurrent hlexeme
    refine ⟨aliases, v, hmany, ?_⟩
    rcases hblock with ⟨hclose, hmatch⟩ | ⟨hclose, hmatch⟩
    · cases hend.symm.trans hmatch
      exact .inl ⟨hclose, rfl, rfl⟩
    · cases hend.symm.trans hmatch
      exact .inr ⟨hclose, rfl, rfl⟩

/-- A block of one resolution is taken, up to the word behind it. -/
theorem traitUse_block_whole_or_untouched_alias :
    ∃ s c t names u aliases, TokenStream.ofSource "use A\x7bb as c\x7dx".toList = .ok s ∧
      s.InRange ∧ (traitUse none).parse s = .matched c t ∧ Token.text t.remaining = ['x'] ∧
      (c.find? "classTraitAlias".toList).map Capture.text = some "b as c".toList ∧
      parseChain (traitFront none) s = .matched [(named none "classTraitNames", names)] u ∧
      c = useCapture none s t names [blockEntry none u t aliases] := by
  have hsource : TokenStream.ofSource "use A\x7bb as c\x7dx".toList = .ok
      ⟨[⟨.keyword, "use".toList, ⟨1, 1, 0⟩⟩, ⟨.whitespace, [' '], ⟨1, 4, 3⟩⟩,
        ⟨.identifier, ['A'], ⟨1, 5, 4⟩⟩, ⟨.punctuation, ['\x7b'], ⟨1, 6, 5⟩⟩,
        ⟨.identifier, ['b'], ⟨1, 7, 6⟩⟩, ⟨.whitespace, [' '], ⟨1, 8, 7⟩⟩,
        ⟨.keyword, "as".toList, ⟨1, 9, 8⟩⟩, ⟨.whitespace, [' '], ⟨1, 11, 10⟩⟩,
        ⟨.identifier, ['c'], ⟨1, 12, 11⟩⟩, ⟨.punctuation, ['\x7d'], ⟨1, 13, 12⟩⟩,
        ⟨.identifier, ['x'], ⟨1, 14, 13⟩⟩], 0⟩ := by decide +kernel
  obtain ⟨s, c, t, es, u, brace, hlex, hs, hmatch, hleft, htext, hfront, hhead, hbrace, hmoved⟩ :
      ∃ s c t es u brace, TokenStream.ofSource "use A\x7bb as c\x7dx".toList = .ok s ∧ s.InRange ∧
        (traitUse none).parse s = .matched c t ∧ Token.text t.remaining = ['x'] ∧
        (c.find? "classTraitAlias".toList).map Capture.text = some "b as c".toList ∧
        parseChain (traitFront none) s = .matched es u ∧ u.remaining.head? = some brace ∧
        brace.is .punctuation ['\x7b'] = true ∧ t.cursor ≠ u.cursor := by
    refine ⟨_, _, _, _, _, _, hsource, Nat.zero_le _, rfl, rfl, rfl, rfl, rfl, rfl, ?_⟩
    decide
  obtain ⟨-, -, hmatched⟩ := traitUse_block_whole_or_untouched none hs
  obtain ⟨names, u', hfront', hblock⟩ := hmatched c t hmatch
  cases hfront.symm.trans hfront'
  obtain ⟨aliases, v, -, ⟨-, -, hcapture⟩ | ⟨-, hstays, -⟩⟩ := hblock brace hhead hbrace
  · exact ⟨s, c, t, names, u, aliases, hlex, hs, hmatch, hleft, htext, hfront, hcapture⟩
  · exact absurd (congrArg TokenStream.cursor hstays) hmoved

/-- What stands in this block is no resolution. The trait use matches all the same, and leaves the
block where it is. -/
theorem traitUse_leaves_block :
    ∃ s c t, TokenStream.ofSource "use A \x7b b \x7d".toList = .ok s ∧
      (traitUse none).parse s = .matched c t ∧
      (∃ es, parseChain (traitFront none) s = .matched es t) ∧
      t.remaining.head?.any (·.is .punctuation ['\x7b']) = true ∧
      c.find? "classTraitBody".toList = none := by
  have hsource : TokenStream.ofSource "use A \x7b b \x7d".toList = .ok
      ⟨[⟨.keyword, "use".toList, ⟨1, 1, 0⟩⟩, ⟨.whitespace, [' '], ⟨1, 4, 3⟩⟩,
        ⟨.identifier, ['A'], ⟨1, 5, 4⟩⟩, ⟨.whitespace, [' '], ⟨1, 6, 5⟩⟩,
        ⟨.punctuation, ['\x7b'], ⟨1, 7, 6⟩⟩, ⟨.whitespace, [' '], ⟨1, 8, 7⟩⟩,
        ⟨.identifier, ['b'], ⟨1, 9, 8⟩⟩, ⟨.whitespace, [' '], ⟨1, 10, 9⟩⟩,
        ⟨.punctuation, ['\x7d'], ⟨1, 11, 10⟩⟩], 0⟩ := by decide +kernel
  exact ⟨_, _, _, hsource, rfl, ⟨_, rfl⟩, rfl, rfl⟩

end ClassMember

end SourceMacros

import SourceMacros.Proofs.Rule.Progress
import SourceMacros.Proofs.Rule.Reading
import SourceMacros.Proofs.Rule.Slices

/-!
# What blocks and expressions accept

A block is a balanced run that ends in front of a closing bracket or at the end, and an expression
is one that is not empty, has no comma or semicolon outside all brackets, and may also end in front
of one of these. The two rules accept exactly these runs
(`Rule.block_and_expression_accept_exactly`): at any place there is at most one, the rule takes it
if there is one, and otherwise it leaves the stream where it is.

The scan keeps the closing brackets it waits for on a stack. What it has passed over when it stops
is a run that closes all of these, each behind a balanced run of its own (`Rule.Closes`). A stack of
which nothing is left makes this a balanced run.
-/

namespace SourceMacros

/-! ## Runs of significant tokens -/

namespace TokenStream

/-- Only trivia is cut off at the end of a span. -/
theorem filter_dropTrailingTrivia (ts : List Token) :
    (dropTrailingTrivia ts).filter Token.isSignificant = ts.filter Token.isSignificant := by
  obtain ⟨trail, hsplit, htrail⟩ := exists_trailing ts
  have hnone : ∀ x ∈ trail, ¬ x.isSignificant = true := by
    intro x hx
    simp [Token.isSignificant, htrail x hx]
  conv => rhs; rw [hsplit, List.filter_append, List.filter_eq_nil_iff.2 hnone, List.append_nil]

/-- A cursor has moved exactly if the run it has passed is not empty. -/
theorem Reaches.cursor_ne_iff {s t : TokenStream} {ts : List Token} (hs : s.Settled)
    (h : s.Reaches t) (hsplit : s.remaining = ts ++ t.remaining) :
    t.cursor ≠ s.cursor ↔ ts ≠ [] := by
  rw [Ne, h.cursor_eq_iff hs, hsplit, List.length_append, Ne, ← List.length_eq_zero_iff]
  omega

end TokenStream

open TokenStream

/-! ## Depth -/

/-- The brackets that a token opens, less those that it closes. -/
def Delimiter.change : Delimiter → Int
  | opens _ => 1
  | closes _ => -1
  | neutral => 0

/-- The number of brackets that are open behind a run. -/
def Token.depth : List Token → Int
  | [] => 0
  | t :: ts => t.delimiter.change + depth ts

namespace Token

@[simp]
theorem depth_nil : depth [] = 0 := rfl

@[simp]
theorem depth_cons (t : Token) (ts : List Token) :
    depth (t :: ts) = t.delimiter.change + depth ts := rfl

@[simp]
theorem depth_append (ts us : List Token) : depth (ts ++ us) = depth ts + depth us := by
  induction ts with
  | nil => simp
  | cons t ts ih => simp [ih, Int.add_assoc]

end Token

namespace Rule

open Token

variable {ends waiting : List Text} {closer : Text} {token : Token} {ts us front rest : List Token}
  {s t : TokenStream}

namespace Balanced

theorem depth_eq (h : Balanced ends ts) : depth ts = 0 := by
  induction h with
  | nil => rfl
  | neutral hneutral _ _ ih => simp [hneutral, Delimiter.change, ih]
  | pair hopens _ _ hcloses _ ihInner ih =>
    simp [hopens, hcloses, Delimiter.change, ihInner, ih]

theorem depth_pair {opening closing : Token} {inner : List Token}
    (hopens : opening.delimiter = .opens closer) (hinner : Balanced [] inner)
    (hcloses : closing.delimiter = .closes closer) (ts : List Token) :
    depth (opening :: inner ++ closing :: ts) = depth ts := by
  simp only [List.cons_append, depth_cons, depth_append, hopens, hcloses, hinner.depth_eq,
    Delimiter.change]
  omega

/-- What is at the front of a pair of brackets and a run: nothing, a part of what is inside, or the
whole pair and a part of the run. -/
theorem front_of_pair {opening closing : Token} {inner before after : List Token}
    (h : opening :: inner ++ closing :: ts = before ++ after) :
    before = [] ∨ (∃ b c, before = opening :: b ∧ inner = b ++ c) ∨
      ∃ b, before = opening :: inner ++ closing :: b ∧ ts = b ++ after := by
  cases before with
  | nil => exact .inl rfl
  | cons first b =>
    obtain ⟨rfl, htail⟩ := List.cons.inj h
    rcases List.append_eq_append_iff.1 htail with ⟨x, rfl, hx⟩ | ⟨x, rfl, -⟩
    · cases x with
      | nil => exact .inr (.inl ⟨inner, [], by rw [List.append_nil], by rw [List.append_nil]⟩)
      | cons last b =>
        obtain ⟨rfl, hts⟩ := List.cons.inj hx
        exact .inr (.inr ⟨b, rfl, hts⟩)
    · exact .inr (.inl ⟨b, x, rfl, rfl⟩)

/-- No front of a balanced run closes more brackets than it opens. -/
theorem depth_nonneg {before after : List Token} (h : Balanced ends ts)
    (hts : ts = before ++ after) : 0 ≤ depth before := by
  induction h generalizing before after with
  | nil =>
    rw [(List.append_eq_nil_iff.1 hts.symm).1]
    exact Int.le_refl 0
  | neutral hneutral _ _ ih =>
    cases before with
    | nil => exact Int.le_refl 0
    | cons first before =>
      obtain ⟨rfl, htail⟩ := List.cons.inj hts
      simpa [hneutral, Delimiter.change] using ih htail
  | pair hopens _ hinner hcloses _ ihInner ih =>
    rcases front_of_pair hts with rfl | ⟨b, c, rfl, hinside⟩ | ⟨b, rfl, hbehind⟩
    · exact Int.le_refl 0
    · have hdepth := ihInner hinside
      simp only [depth_cons, hopens, Delimiter.change]
      omega
    · rw [depth_pair hopens hinner hcloses]
      exact ih hbehind

end Balanced

/-- No token of the run has one of the lexemes `ends` while no bracket is open. -/
def FreeOutside (ends : List Text) (ts : List Token) : Prop :=
  ∀ before token after, ts = before ++ token :: after → depth before = 0 → token.lexeme ∉ ends

/-- A balanced run that keeps clear of the terminators has none of them outside all brackets. -/
theorem Balanced.freeOutside (h : Balanced ends ts) : FreeOutside ends ts := by
  induction h with
  | nil =>
    intro before token after hts
    simp at hts
  | neutral hneutral hends _ ih =>
    intro before other after hts hdepth
    cases before with
    | nil =>
      obtain ⟨rfl, -⟩ := List.cons.inj hts
      exact hends
    | cons first before =>
      obtain ⟨rfl, htail⟩ := List.cons.inj hts
      exact ih before other after htail (by simpa [hneutral, Delimiter.change] using hdepth)
  | pair hopens hends hinner hcloses _ _ ih =>
    intro before other after hts hdepth
    rcases front_of_pair hts with rfl | ⟨b, c, rfl, hinside⟩ | ⟨b, rfl, hbehind⟩
    · obtain ⟨rfl, -⟩ := List.cons.inj hts
      exact hends
    · -- Inside the pair a bracket is open.
      have hopen := hinner.depth_nonneg hinside
      simp only [depth_cons, hopens, Delimiter.change] at hdepth
      omega
    · rw [depth_pair hopens hinner hcloses] at hdepth
      exact ih b other after hbehind hdepth

/-- Whatever a run is kept free of, the brackets in it are the same. -/
theorem Balanced.of_freeOutside {others : List Text} (h : Balanced others ts)
    (hfree : FreeOutside ends ts) : Balanced ends ts := by
  induction h with
  | nil => exact .nil
  | @neutral _ token ts hneutral _ _ ih =>
    have hhead := hfree [] token ts rfl rfl
    refine .neutral hneutral hhead (ih fun before other after hts hdepth => ?_)
    exact hfree (token :: before) other after (by rw [hts]; rfl)
      (by simpa [hneutral, Delimiter.change] using hdepth)
  | @pair _ opening closing _ inner ts hopens _ hinner hcloses _ _ ih =>
    refine .pair hopens (hfree [] opening _ rfl rfl) hinner hcloses
      (ih fun before other after hts hdepth => ?_)
    exact hfree (opening :: inner ++ closing :: before) other after (by rw [hts]; simp)
      ((depth_pair hopens hinner hcloses before).trans hdepth)

/-- The brackets of a run and what stands outside them can be looked at one after the other. -/
theorem balanced_iff : Balanced ends ts ↔ Balanced [] ts ∧ FreeOutside ends ts :=
  ⟨fun h => ⟨h.of_freeOutside fun _ _ _ _ _ => List.not_mem_nil, h.freeOutside⟩,
    fun h => h.1.of_freeOutside h.2⟩

/-! ## What the scan passes over -/

/-- The run closes the brackets that are waited for, the innermost first, and outside all brackets
no token has one of the lexemes `ends`. -/
def Closes (ends : List Text) : (waiting : List Text) → (ts : List Token) → Prop
  | [], ts => Balanced ends ts
  | closer :: waiting, ts =>
    ∃ inner closing rest, ts = inner ++ closing :: rest ∧ Balanced [] inner ∧
      closing.delimiter = .closes closer ∧ Closes ends waiting rest

namespace Closes

theorem neutral (hneutral : token.delimiter = .neutral) (hends : waiting = [] → token.lexeme ∉ ends)
    (h : Closes ends waiting ts) : Closes ends waiting (token :: ts) := by
  cases waiting with
  | nil => exact .neutral hneutral (hends rfl) h
  | cons closer waiting =>
    obtain ⟨inner, closing, rest, rfl, hinner, hcloses, hrest⟩ := h
    exact ⟨token :: inner, closing, rest, rfl, .neutral hneutral List.not_mem_nil hinner, hcloses,
      hrest⟩

/-- In front of a run that closes one bracket more, that bracket may be opened. -/
theorem opens (hopens : token.delimiter = .opens closer)
    (hends : waiting = [] → token.lexeme ∉ ends)
    (h : Closes ends (closer :: waiting) ts) : Closes ends waiting (token :: ts) := by
  obtain ⟨inner, closing, rest, rfl, hinner, hcloses, hrest⟩ := h
  cases waiting with
  | nil => exact .pair hopens (hends rfl) hinner hcloses hrest
  | cons outer waiting =>
    -- The pair stands in the run that the next bracket closes.
    obtain ⟨behind, closing', rest', rfl, hbehind, hcloses', hrest'⟩ := hrest
    exact ⟨token :: inner ++ closing :: behind, closing', rest', by simp,
      .pair hopens List.not_mem_nil hinner hcloses hbehind, hcloses', hrest'⟩

theorem closes (hcloses : token.delimiter = .closes closer) (h : Closes ends waiting ts) :
    Closes ends (closer :: waiting) (token :: ts) :=
  ⟨[], token, ts, rfl, .nil, hcloses, h⟩

end Closes

/-- Where the scan stops, it has closed the brackets it waited for, and a balanced run ends there.
The induction is over the tokens it has passed. -/
theorem closes_of_skipBalanced {fuel : Nat} (hs : s.Settled)
    (h : skipBalanced ends fuel waiting s = .matched () t) :
    ∃ ts, s.remaining = ts ++ t.remaining ∧ Closes ends waiting ts ∧ Stops ends t.remaining := by
  induction fuel generalizing waiting s with
  | zero => cases h
  | succ fuel ih =>
    unfold skipBalanced at h
    cases hcurrent : s.current with
    | none =>
      simp only [hcurrent] at h
      cases waiting with
      | cons closer waiting => cases h
      | nil =>
        cases h
        rw [remaining_of_end hcurrent]
        exact ⟨[], rfl, .nil, nofun⟩
    | some token =>
      have hremaining := remaining_of_current hs hcurrent
      have hnext := (next_reaches hs).settled
      simp only [hcurrent] at h
      split at h
      · next hstop =>
        cases h
        rw [Bool.and_eq_true, List.isEmpty_iff, List.contains_iff_mem] at hstop
        obtain ⟨rfl, hmem⟩ := hstop
        refine ⟨[], rfl, .nil, ?_⟩
        rw [hremaining]
        rintro first ⟨⟩
        exact .inl hmem
      · next hgo =>
        -- A terminator may be passed only inside brackets.
        have hends : waiting = [] → token.lexeme ∉ ends := by
          rintro rfl hmem
          exact hgo (by simpa using hmem)
        split at h
        · next closer hopens =>
          obtain ⟨ts, hsplit, hcloses, hstop⟩ := ih hnext h
          exact ⟨token :: ts, by rw [hremaining, hsplit]; rfl, hcloses.opens hopens hends, hstop⟩
        · next closer hcloses =>
          cases h
          refine ⟨[], rfl, .nil, ?_⟩
          rw [hremaining]
          rintro first ⟨⟩
          exact .inr ⟨closer, hcloses⟩
        · next closer awaited waiting hcloses =>
          split at h
          · next heq =>
            subst heq
            obtain ⟨ts, hsplit, hrest, hstop⟩ := ih hnext h
            exact ⟨token :: ts, by rw [hremaining, hsplit]; rfl, hrest.closes hcloses, hstop⟩
          · cases h
        · next hneutral =>
          obtain ⟨ts, hsplit, hcloses, hstop⟩ := ih hnext h
          exact ⟨token :: ts, by rw [hremaining, hsplit]; rfl, hcloses.neutral hneutral hends,
            hstop⟩

/-- A scan that starts outside all brackets goes over a balanced run and stops where such a run may
stop. -/
theorem balanced_of_balancedRun (hs : s.Settled) (h : s.balancedRun ends = .matched () t) :
    ∃ ts, s.remaining = ts ++ t.remaining ∧ Balanced ends ts ∧ Stops ends t.remaining :=
  closes_of_skipBalanced hs h

/-! ## Balanced runs without their positions -/

theorem Balanced.map_unplaced (h : Balanced ends ts) : Balanced ends (ts.map unplaced) := by
  induction h with
  | nil => exact .nil
  | neutral hneutral hends _ ih => exact .neutral hneutral hends ih
  | pair hopens hends _ hcloses _ ihInner ih =>
    rw [List.map_append, List.map_cons, List.map_cons]
    exact .pair hopens hends ihInner hcloses ih

theorem Stops.map_unplaced (h : Stops ends rest) : Stops ends (rest.map unplaced) := by
  cases rest with
  | nil => nofun
  | cons token rest =>
    rintro _ ⟨⟩
    exact h token rfl

/-- The scan goes over a balanced run to where it ends. -/
theorem balancedRun_of_balanced (hs : s.Settled) (hsplit : s.remaining = ts ++ rest)
    (h : Balanced ends ts) (hstop : Stops ends rest) :
    ∃ t, s.balancedRun ends = .matched () t ∧ s.Reaches t ∧ t.remaining = rest := by
  have hahead : s.ahead = ts.map unplaced ++ rest.map unplaced := by
    rw [ahead, hsplit, List.map_append]
  obtain ⟨t, hrun, hst, ht⟩ := balancedRun_eq h.map_unplaced hstop.map_unplaced hs hahead
  refine ⟨t, hrun, hst, ?_⟩
  -- What remains is as long as the rest, and both are at the end of the same run.
  have hsame := (filter_consumed_append_remaining hst).trans hsplit
  have hlength : t.remaining.length = rest.length := by
    rw [← length_ahead, ht, List.length_map]
  exact (List.append_inj' hsame hlength).2

/-! ## Exact acceptance -/

/-- At `s` the rule accepts exactly what `Front` describes, a run of significant tokens with the
rest behind it. It matches if there is such a run; the run is the only one, and it is what the rule
consumes and captures. If there is none, the rule does not match and leaves the stream where it is.
-/
structure AcceptsExactly (rule : Rule) (s : TokenStream) (Front : (ts rest : List Token) → Prop) :
    Prop where
  matches_iff : (∃ c t, rule.parse s = .matched c t) ↔
    ∃ ts rest, s.remaining = ts ++ rest ∧ Front ts rest
  unique : ∀ {ts rest us rest'}, s.remaining = ts ++ rest → Front ts rest →
    s.remaining = us ++ rest' → Front us rest' → us = ts ∧ rest' = rest
  takes : ∀ {ts rest c t}, s.remaining = ts ++ rest → Front ts rest → rule.parse s = .matched c t →
    t.tokens = s.tokens ∧ t.remaining = rest ∧ (s.consumed t).filter isSignificant = ts ∧
      c.tokens.filter isSignificant = ts
  fails : (¬ ∃ ts rest, s.remaining = ts ++ rest ∧ Front ts rest) →
    ∃ why, rule.parse s = .mismatched why s

/-- It is enough that every match leaves a described run behind it, and that a match reaches the end
of every described run. -/
theorem AcceptsExactly.of_matches {rule : Rule} {Front : (ts rest : List Token) → Prop}
    (hmove : rule.ListsMove) (hs : s.Settled)
    (hsound : ∀ {c t}, rule.parse s = .matched c t →
      ∃ ts, s.remaining = ts ++ t.remaining ∧ Front ts t.remaining)
    (hcomplete : ∀ {ts rest}, s.remaining = ts ++ rest → Front ts rest →
      ∃ c t, rule.parse s = .matched c t ∧ t.remaining = rest) :
    rule.AcceptsExactly s Front where
  matches_iff := by
    constructor
    · rintro ⟨c, t, hparse⟩
      obtain ⟨ts, hsplit, hfront⟩ := hsound hparse
      exact ⟨ts, t.remaining, hsplit, hfront⟩
    · rintro ⟨ts, rest, hsplit, hfront⟩
      obtain ⟨c, t, hparse, -⟩ := hcomplete hsplit hfront
      exact ⟨c, t, hparse⟩
  unique := by
    intro ts rest us rest' hsplit hfront hsplit' hfront'
    -- The one match ends where both runs end.
    obtain ⟨c, t, hparse, rfl⟩ := hcomplete hsplit hfront
    obtain ⟨c', t', hparse', rfl⟩ := hcomplete hsplit' hfront'
    cases hparse.symm.trans hparse'
    exact ⟨List.append_cancel_right (hsplit'.symm.trans hsplit), rfl⟩
  takes := by
    intro ts rest c t hsplit hfront hparse
    obtain ⟨c', t', hparse', rfl⟩ := hcomplete hsplit hfront
    cases hparse.symm.trans hparse'
    have hst := reaches_of_matched hs hparse
    have hconsumed : (s.consumed t).filter isSignificant = ts :=
      List.append_cancel_right ((filter_consumed_append_remaining hst).trans hsplit)
    refine ⟨hst.tokens_eq, rfl, hconsumed, ?_⟩
    rw [(covers_of_matched hs hparse).tokens_eq, filter_dropTrailingTrivia, hconsumed]
  fails := by
    intro hnone
    refine (returns_of_listsMove hmove hs.inRange).resolve_left ?_
    rintro ⟨c, t, hparse⟩
    obtain ⟨ts, hsplit, hfront⟩ := hsound hparse
    exact hnone ⟨ts, t.remaining, hsplit, hfront⟩

/-- A block in front of the rest: all brackets nest and close, and the rest is empty or starts with
a closing bracket. -/
def IsBlock (ts rest : List Token) : Prop :=
  Balanced [] ts ∧ Stops [] rest

/-- An expression in front of the rest: a run that is not empty, in which all brackets nest and
close and neither a comma nor a semicolon stands outside them. The rest is empty or starts with one
of these or with a closing bracket. -/
def IsExpression (ts rest : List Token) : Prop :=
  ts ≠ [] ∧ Balanced [] ts ∧ FreeOutside expressionEnds ts ∧ Stops expressionEnds rest

/-- The block rule accepts exactly balanced runs, up to an end or a closing bracket that fits none
of them. -/
theorem block_acceptsExactly (hs : s.Settled) : block.AcceptsExactly s IsBlock := by
  refine .of_matches (by decide) hs ?_ ?_
  · intro c t hparse
    simp only [parse, parseBlock] at hparse
    split at hparse
    · next u hrun =>
      cases hparse
      exact balanced_of_balancedRun hs hrun
    · cases hparse
    · cases hparse
  · intro ts rest hsplit hblock
    obtain ⟨t, hrun, -, ht⟩ := balancedRun_of_balanced hs hsplit hblock.1 hblock.2
    exact ⟨.leaf (t.spanFrom s.cursor), t, by simp only [parse, parseBlock, hrun], ht⟩

/-- The expression rule accepts exactly the balanced runs that are not empty and hold no terminator
outside their brackets. -/
theorem expression_acceptsExactly (hs : s.Settled) : expression.AcceptsExactly s IsExpression := by
  refine .of_matches (by decide) hs ?_ ?_
  · intro c t hparse
    simp only [parse] at hparse
    obtain ⟨hst, hlt, -⟩ := parseExpression_eq_matched hs hparse
    unfold parseExpression at hparse
    split at hparse
    · next u hrun =>
      split at hparse
      · cases hparse
      · cases hparse
        obtain ⟨ts, hsplit, hbalanced, hstop⟩ := balanced_of_balancedRun hs hrun
        obtain ⟨hbalanced, hfree⟩ := balanced_iff.1 hbalanced
        have hne := (hst.cursor_ne_iff hs hsplit).1 (Nat.ne_of_gt hlt)
        exact ⟨ts, hsplit, hne, hbalanced, hfree, hstop⟩
    · cases hparse
    · cases hparse
  · rintro ts rest hsplit ⟨hne, hbalanced, hfree, hstop⟩
    obtain ⟨t, hrun, hst, rfl⟩ :=
      balancedRun_of_balanced hs hsplit (balanced_iff.2 ⟨hbalanced, hfree⟩) hstop
    have hmoved := (hst.cursor_ne_iff hs hsplit).2 hne
    exact ⟨.leaf (t.spanFrom s.cursor), t,
      by simp only [parse, parseExpression, hrun, if_neg hmoved], rfl⟩

/-- Blocks and expressions accept exactly their languages: whatever stands at the cursor, each takes
the one run of its kind that ends in front of something that may follow it, and fails in place if
there is none. -/
theorem block_and_expression_accept_exactly (hs : s.Settled) :
    block.AcceptsExactly s IsBlock ∧ expression.AcceptsExactly s IsExpression :=
  ⟨block_acceptsExactly hs, expression_acceptsExactly hs⟩

/-- The comma inside the brackets belongs to the expression, the one behind them ends it. A bracket
that closes another one than the last opened leaves no run to take. -/
theorem block_and_expression_accept_exactly_brackets :
    (∃ s ts rest, ofSource "f([1, 2]) /* two */ , x".toList = .ok s ∧ s.Settled ∧
      s.remaining = ts ++ rest ∧ IsExpression ts rest ∧
      ts.map Token.lexeme = ["f", "(", "[", "1", ",", "2", "]", ")"].map String.toList) ∧
    ∃ s why, ofSource "([)]".toList = .ok s ∧ s.Settled ∧ block.parse s = .mismatched why s := by
  constructor
  · obtain ⟨tokens, c, t, hsource, hparse, hlexemes⟩ : ∃ tokens c t,
        ofSource "f([1, 2]) /* two */ , x".toList = .ok (ofTokens tokens) ∧
        expression.parse (ofTokens tokens) = .matched c t ∧
        (c.tokens.filter isSignificant).map Token.lexeme
          = ["f", "(", "[", "1", ",", "2", "]", ")"].map String.toList := ⟨_, _, _, rfl, rfl, rfl⟩
    have hs := ofTokens_settled tokens
    have hexact := (block_and_expression_accept_exactly hs).2
    obtain ⟨ts, rest, hsplit, hfront⟩ := hexact.matches_iff.1 ⟨c, t, hparse⟩
    obtain ⟨-, -, -, hcapture⟩ := hexact.takes hsplit hfront hparse
    exact ⟨_, ts, rest, hsource, hs, hsplit, hfront, hcapture ▸ hlexemes⟩
  · obtain ⟨tokens, why, t, hsource, hparse⟩ : ∃ tokens why t,
        ofSource "([)]".toList = .ok (ofTokens tokens) ∧
        block.parse (ofTokens tokens) = .mismatched why t := ⟨_, _, _, rfl, rfl⟩
    have hs := ofTokens_settled tokens
    have hexact := (block_and_expression_accept_exactly hs).1
    obtain ⟨why, hfails⟩ := hexact.fails fun hfront => by
      obtain ⟨c, u, hmatch⟩ := hexact.matches_iff.2 hfront
      cases hparse.symm.trans hmatch
    exact ⟨_, why, hsource, hs, hfails⟩

end Rule

end SourceMacros

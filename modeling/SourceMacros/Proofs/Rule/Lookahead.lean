import SourceMacros.Proofs.Rule.OpenRule

/-!
# Looking ahead never changes a parse

A choice passes over an alternative when the next token rules it out. Every form of rule answers for
itself whether a token rules it out: a chain asks its first rule, a list its item, a choice all its
alternatives. Whatever the forms, a rule that is ruled out fails on the spot
(`OpenRule.fails_of_ruledOut`), and so a choice is its first alternative, or else the choice of the
others, whether it looks ahead or not (`OpenRule.runEither_cons`).
-/

namespace SourceMacros

open TokenStream

/-! ## Leaves that the next token rules out -/

namespace Rule

theorem parseToken_of_any_eq_false {p : Token → Bool} {s : TokenStream}
    (h : s.current.any p = false) (expected : Text) :
    parseToken p expected s = .mismatched (.atCursor s expected) s := by
  unfold parseToken
  cases hcurrent : s.current with
  | none => rfl
  | some token =>
    have hp : ¬ p token = true := by
      rw [hcurrent] at h
      simpa using h
    simp only [if_neg hp]

theorem parseQualifiedName_of_any_eq_false {s : TokenStream} (hs : s.Settled)
    (hseparator : s.current.any Token.isNameSeparator = false)
    (hidentifier : s.current.any Token.isIdentifier = false) :
    parseQualifiedName s = .mismatched (.atCursor s qualifiedName.expected) s := by
  unfold parseQualifiedName
  simp only [hseparator, hidentifier, Bool.false_eq_true, if_false, restore_checkpoint hs rfl]

/-- A leaf that the next token rules out fails without moving the cursor. -/
theorem mismatched_of_leaf_ruledOut {rule : Rule} (hleaf : rule.children = []) {s : TokenStream}
    (hs : s.Settled) (h : rule.quickCheck s.current = some false) :
    ∃ why, rule.parse s = .mismatched why s := by
  cases rule with
  | token kind =>
    simp only [quickCheck, Option.some.injEq] at h
    exact ⟨_, parseToken_of_any_eq_false h _⟩
  | lexeme text =>
    simp only [quickCheck, Option.some.injEq] at h
    exact ⟨_, parseToken_of_any_eq_false h _⟩
  | qualifiedName =>
    simp only [quickCheck, Option.some.injEq, Bool.or_eq_false_iff] at h
    exact ⟨_, parseQualifiedName_of_any_eq_false hs h.1 h.2⟩
  | chain rules =>
    simp only [children] at hleaf
    subst hleaf
    cases h
  | either rules =>
    simp only [children] at hleaf
    subst hleaf
    exact ⟨_, rfl⟩
  | separated item separator => cases hleaf
  | labelled label rule => cases hleaf
  | any | block | expression | optional rule | many rule => cases h

theorem combineVerdicts_eq_some_false_iff {v w : Option Bool} :
    combineVerdicts v w = some false ↔ v = some false ∧ w = some false := by
  rcases v with _ | _ | _ <;> rcases w with _ | _ | _ <;> simp [combineVerdicts]

end Rule

namespace OpenRule

/-! ## Rules that the next token rules out -/

/-- The rule does not match at `s`, and leaves the stream as it found it. -/
def Fails (look : Bool) (rule : OpenRule) (s : TokenStream) : Prop :=
  ∃ why, rule.run look s = .mismatched why s

theorem quickCheckAny_eq_some_false_iff {rules : List OpenRule} {current : Option Token} :
    quickCheckAny rules current = some false ↔
      ∀ rule ∈ rules, rule.quickCheck current = some false := by
  induction rules with
  | nil => simp [quickCheckAny]
  | cons rule rules ih =>
    rw [quickCheckAny, Rule.combineVerdicts_eq_some_false_iff, ih, List.forall_mem_cons]

/-- A choice fails where all its alternatives fail, with a mismatch of its own. -/
theorem either_fails_of_all_fail {look : Bool} {rules : List OpenRule} {s : TokenStream}
    (hs : s.Settled) (h : ∀ rule ∈ rules, rule.Fails look s) : (either rules).Fails look s := by
  refine ⟨.atCursor s (either rules).expected, ?_⟩
  rw [run]
  generalize (either rules).expected = expected
  induction rules with
  | nil => rfl
  | cons rule rules ih =>
    obtain ⟨⟨why, hrule⟩, hothers⟩ := List.forall_mem_cons.1 h
    unfold runEither
    split
    · exact ih hothers
    · simp only [hrule, restore_checkpoint hs rfl]
      exact ih hothers

/-- A rule that the next token rules out fails on the spot. The induction follows the question that
the rule asks: it goes to the first rule of a chain, to the item of a list, to every alternative. -/
theorem fails_of_ruledOut (look : Bool) (rule : OpenRule) {s : TokenStream} (hs : s.Settled)
    (h : rule.quickCheck s.current = some false) : rule.Fails look s := by
  induction rule with
  | leaf rule hleaf =>
    simp only [quickCheck] at h
    obtain ⟨why, hrule⟩ := Rule.mismatched_of_leaf_ruledOut hleaf hs h
    refine ⟨why, ?_⟩
    rw [run, hrule]
  | chain rules ih =>
    cases rules with
    | nil => cases h
    | cons rule rules =>
      simp only [quickCheck, quickCheckFirst] at h
      obtain ⟨why, hrule⟩ := ih rule List.mem_cons_self h
      refine ⟨why, ?_⟩
      simp only [run, runChain, hrule, restore_checkpoint hs rfl]
  | either rules ih =>
    simp only [quickCheck] at h
    have hall := quickCheckAny_eq_some_false_iff.1 h
    exact either_fails_of_all_fail hs fun rule hmem => ih rule hmem (hall rule hmem)
  | separated item separator ih _ =>
    simp only [quickCheck] at h
    obtain ⟨why, hitem⟩ := ih h
    refine ⟨why, ?_⟩
    simp only [run, hitem]
  | labelled label rule ih =>
    simp only [quickCheck] at h
    obtain ⟨why, hrule⟩ := ih h
    refine ⟨why, ?_⟩
    simp only [run, hrule, Parsed.map]
  | foreign p => cases h
  | optional rule => cases h
  | many rule => cases h

/-! ## Choices -/

/-- A rule that does not match fails in place, since it takes everything or nothing. -/
theorem fails_of_mismatched {look : Bool} {rule : OpenRule} {s t : TokenStream} {why : Mismatch}
    (hs : s.Settled) (h : rule.run look s = .mismatched why t) : rule.Fails look s := by
  have hatomic := run_atomic look rule hs
  rw [h] at hatomic
  cases hatomic with
  | mismatched => exact ⟨why, h⟩

/-- A choice is its first alternative, and where that fails the choice of the others. Looking ahead
does not show in it. -/
theorem runEither_cons (look : Bool) (expected : Text) (rule : OpenRule) (rules : List OpenRule)
    {s : TokenStream} (hs : s.Settled) :
    runEither look expected (rule :: rules) s =
      match rule.run look s with
      | .matched c t => .matched c t
      | .mismatched _ _ => runEither look expected rules s
      | .endless => .endless := by
  rw [runEither]
  split
  · next hlook =>
    -- The alternative is passed over. Run, it would have failed without moving the cursor.
    obtain ⟨why, hfails⟩ := fails_of_ruledOut look rule hs hlook.2
    simp only [hfails]
  · cases hrun : rule.run look s with
    | matched c t => rfl
    | mismatched why t =>
      obtain ⟨why', hfails⟩ := fails_of_mismatched hs hrun
      rw [hfails] at hrun
      cases hrun
      simp only [restore_checkpoint hs rfl]
    | endless => rfl

/-- A choice matches as its first alternative that does not fail. -/
theorem runEither_eq_matched_iff (look : Bool) (expected : Text) {rules : List OpenRule}
    {s t : TokenStream} {c : Capture} (hs : s.Settled) :
    runEither look expected rules s = .matched c t ↔
      ∃ before rule after, rules = before ++ rule :: after ∧
        (∀ r ∈ before, r.Fails look s) ∧ rule.run look s = .matched c t := by
  induction rules with
  | nil => simp [runEither]
  | cons first rules ih =>
    rw [runEither_cons look expected first rules hs]
    constructor
    · intro h
      cases hrun : first.run look s with
      | matched d u =>
        simp only [hrun] at h
        exact ⟨[], first, rules, rfl, List.forall_mem_nil _, hrun.trans h⟩
      | mismatched why u =>
        simp only [hrun] at h
        obtain ⟨before, rule, after, hsplit, hbefore, hrule⟩ := ih.1 h
        have hfirst := fails_of_mismatched hs hrun
        exact ⟨first :: before, rule, after, by rw [hsplit, List.cons_append],
          List.forall_mem_cons.2 ⟨hfirst, hbefore⟩, hrule⟩
      | endless =>
        simp only [hrun] at h
        cases h
    · rintro ⟨before, rule, after, hsplit, hbefore, hrule⟩
      cases before with
      | nil =>
        obtain ⟨rfl, rfl⟩ := List.cons.inj hsplit
        simp only [hrule]
      | cons r before =>
        obtain ⟨rfl, hrest⟩ := List.cons.inj hsplit
        obtain ⟨⟨why, hfails⟩, hbefore⟩ := List.forall_mem_cons.1 hbefore
        simp only [hfails]
        exact ih.2 ⟨before, rule, after, hrest, hbefore, hrule⟩

/-- A choice fails exactly where all its alternatives fail. -/
theorem either_fails_iff (look : Bool) {rules : List OpenRule} {s : TokenStream}
    (hs : s.Settled) : (either rules).Fails look s ↔ ∀ rule ∈ rules, rule.Fails look s := by
  refine ⟨?_, either_fails_of_all_fail hs⟩
  rintro ⟨why, h⟩
  rw [run] at h
  generalize (either rules).expected = expected at h
  induction rules with
  | nil => exact List.forall_mem_nil _
  | cons rule rules ih =>
    rw [runEither_cons look expected rule rules hs] at h
    split at h
    · cases h
    · next hrun => exact List.forall_mem_cons.2 ⟨fails_of_mismatched hs hrun, ih h⟩
    · cases h

/-! ## Both ways to run a rule agree -/

section Agreement

variable {item item' separator separator' : TokenStream → Parsed Capture}

/-- Repetitions of parsers that agree on settled streams agree there. Each round starts on a settled
stream again, because the item is atomic. -/
theorem parseMany_congr (hatomic : AtomicParser item)
    (hitem : ∀ {s : TokenStream}, s.Settled → item s = item' s) (fuel : Nat) {s : TokenStream}
    (hs : s.Settled) : Rule.parseMany item fuel s = Rule.parseMany item' fuel s := by
  induction fuel generalizing s with
  | zero => rfl
  | succ fuel ih =>
    have h := hatomic hs
    unfold Rule.parseMany
    rw [← hitem hs]
    generalize item s = x at h ⊢
    cases h with
    | matched hst => simp only [ih hst.settled]
    | mismatched => rfl
    | endless => rfl

/-- Lists of parsers that agree on settled streams agree there, for the same reason as
repetitions. -/
theorem parseSeparated_congr (hatomic : AtomicParser item) (hgap : AtomicParser separator)
    (hitem : ∀ {s : TokenStream}, s.Settled → item s = item' s)
    (hseparator : ∀ {s : TokenStream}, s.Settled → separator s = separator' s) (fuel : Nat)
    {s : TokenStream} (hs : s.Settled) :
    Rule.parseSeparated item separator fuel s = Rule.parseSeparated item' separator' fuel s := by
  induction fuel generalizing s with
  | zero => rfl
  | succ fuel ih =>
    have h := hgap hs
    unfold Rule.parseSeparated
    rw [← hseparator hs]
    generalize separator s = x at h ⊢
    cases h with
    | @matched _ t hst =>
      have hround := hatomic hst.settled
      simp only [← hitem hst.settled]
      generalize item t = y at hround ⊢
      cases hround with
      | matched htu => simp only [ih htu.settled]
      | mismatched => rfl
      | endless => rfl
    | mismatched => rfl
    | endless => rfl

end Agreement

theorem runChain_agrees {rules : List OpenRule}
    (hrules : ∀ rule ∈ rules, ∀ {s : TokenStream}, s.Settled → rule.run true s = rule.run false s)
    {s : TokenStream} (hs : s.Settled) : runChain true rules s = runChain false rules s := by
  induction rules generalizing s with
  | nil => rfl
  | cons rule rules ih =>
    obtain ⟨hrule, hothers⟩ := List.forall_mem_cons.1 hrules
    have h := run_atomic false rule hs
    rw [runChain, runChain, hrule hs]
    generalize rule.run false s = x at h ⊢
    cases h with
    | matched hst => simp only [ih hothers hst.settled]
    | mismatched => rfl
    | endless => rfl

/-- Choices agree if their alternatives do, whether or not they pass some of them over. -/
theorem runEither_agrees {rules : List OpenRule}
    (hrules : ∀ rule ∈ rules, ∀ {s : TokenStream}, s.Settled → rule.run true s = rule.run false s)
    (expected : Text) {s : TokenStream} (hs : s.Settled) :
    runEither true expected rules s = runEither false expected rules s := by
  induction rules with
  | nil => rfl
  | cons rule rules ih =>
    obtain ⟨hrule, hothers⟩ := List.forall_mem_cons.1 hrules
    rw [runEither_cons true expected rule rules hs, runEither_cons false expected rule rules hs,
      hrule hs, ih hothers]

/-- Choices that look ahead and choices that try every alternative in turn give the same outcome:
the same capture or the same mismatch, and the same stream. -/
theorem run_agrees (rule : OpenRule) {s : TokenStream} (hs : s.Settled) :
    rule.run true s = rule.run false s := by
  induction rule generalizing s with
  | foreign p => simp only [run]
  | leaf rule hleaf => simp only [run]
  | chain rules ih => rw [run, run, runChain_agrees ih hs]
  | either rules ih => rw [run, run, runEither_agrees ih _ hs]
  | optional rule ih => rw [run, run, ih hs]
  | many rule ih => rw [run, run, parseMany_congr (run_atomic true rule) ih _ hs]
  | separated item separator ihItem ihSeparator =>
    have h := run_atomic false item hs
    rw [run, run, ihItem hs]
    generalize item.run false s = x at h ⊢
    cases h with
    | matched hst =>
      simp only [parseSeparated_congr (run_atomic true item) (run_atomic true separator) ihItem
        ihSeparator _ hst.settled]
    | mismatched => rfl
    | endless => rfl
  | labelled label rule ih => rw [run, run, ih hs]

/-- Looking ahead never changes a parse. On a settled stream, every rule that the next token rules
out fails, and every rule runs as if its choices tried all alternatives in turn. So a choice matches
as the first alternative that matches there, and fails where all of them fail. All this holds of
open rules, with any foreign parsers, and the rules of the library run as the open rules they are.
-/
theorem lookahead_changes_no_parse {s : TokenStream} (hs : s.Settled) :
    (∀ rule : OpenRule,
      (rule.quickCheck s.current = some false → rule.Fails true s) ∧
      rule.run true s = rule.run false s) ∧
    (∀ rules : List OpenRule,
      (∀ c t, (either rules).run true s = .matched c t ↔
        ∃ before rule after, rules = before ++ rule :: after ∧
          (∀ r ∈ before, r.Fails true s) ∧ rule.run true s = .matched c t) ∧
      ((either rules).Fails true s ↔ ∀ rule ∈ rules, rule.Fails true s)) ∧
    (∀ rule : Rule,
      rule.toOpen.quickCheck s.current = rule.quickCheck s.current ∧
      rule.toOpen.run true s = rule.parse s) := by
  refine ⟨fun rule => ⟨fails_of_ruledOut true rule hs, run_agrees rule hs⟩, fun rules => ⟨?_, ?_⟩,
    fun rule => ⟨rule.quickCheck_toOpen _, by rw [rule.run_toOpen]⟩⟩
  · intro c t
    rw [run]
    exact runEither_eq_matched_iff true _ hs
  · exact either_fails_iff true hs

/-- In front of a name, a chain that starts with a number is ruled out whatever foreign parser
follows, and a choice passes it over and takes the foreign parser that stands behind it. -/
theorem lookahead_changes_no_parse_foreign :
    ∃ (p : ForeignParser) (s : TokenStream) (c : Capture) (t : TokenStream), s.Settled ∧
      (chain [leaf (.token .number) rfl, foreign p]).quickCheck s.current = some false ∧
      (chain [leaf (.token .number) rfl, foreign p]).Fails true s ∧
      (either [chain [leaf (.token .number) rfl, foreign p], foreign p]).run true s
        = .matched c t ∧
      (either [chain [leaf (.token .number) rfl, foreign p], foreign p]).run false s
        = .matched c t := by
  have hs := ofTokens_settled [.synthetic .identifier ['a']]
  obtain ⟨hrules, -, -⟩ := lookahead_changes_no_parse hs
  let p : ForeignParser :=
    ⟨Rule.parseToken (fun _ => true) Rule.any.expected, Rule.any.expected,
      Rule.parseToken_atomic _ _⟩
  obtain ⟨hruledOut, -⟩ := hrules (chain [leaf (.token .number) rfl, foreign p])
  obtain ⟨-, hagrees⟩ := hrules (either [chain [leaf (.token .number) rfl, foreign p], foreign p])
  exact ⟨p, _, _, _, hs, rfl, hruledOut rfl, rfl, hagrees.symm.trans rfl⟩

end OpenRule

end SourceMacros

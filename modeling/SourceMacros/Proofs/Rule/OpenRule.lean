import SourceMacros.Proofs.Rule.Backtracking

/-!
# Open rules

The forms that combine rules work for any parser, not only for the leaves that the library has. An
open rule is built by these forms from leaves and from parsers defined elsewhere. A foreign parser
has no opinion about the next token, so a choice never passes it over.

An open rule can be run in two ways: with choices that look one token ahead, as the rules of the
library do (`Rule.run_toOpen`), or with choices that try every alternative in turn.
-/

namespace SourceMacros

open TokenStream

/-- A parser defined elsewhere. It keeps to what a stream promises and what every rule does: the
tokens are only read, a match leaves the cursor on a significant token further on or at the end, and
a mismatch leaves it where it was. -/
structure ForeignParser where
  parse : TokenStream → Parsed Capture
  expected : Text
  atomic : AtomicParser parse

/-- A rule that may hold foreign parsers. A leaf is any rule that holds no other rule. -/
inductive OpenRule where
  | foreign (p : ForeignParser)
  | leaf (rule : Rule) (h : rule.children = [])
  | chain (rules : List OpenRule)
  | either (rules : List OpenRule)
  | optional (rule : OpenRule)
  | many (rule : OpenRule)
  | separated (item separator : OpenRule)
  | labelled (label : Label) (rule : OpenRule)

namespace OpenRule

mutual

/-- What the rule expects, in words. -/
def expected : OpenRule → Text
  | foreign p => p.expected
  | leaf rule _ => rule.expected
  | chain rules => expectedFirst rules
  | either rules => "one of ".toList ++ Text.joinWith ", ".toList (expectedAll rules)
  | optional rule => rule.expected
  | many rule => rule.expected
  | separated item _ => item.expected
  | labelled _ rule => rule.expected

def expectedFirst : List OpenRule → Text
  | [] => "nothing".toList
  | rule :: _ => rule.expected

def expectedAll : List OpenRule → List Text
  | [] => []
  | rule :: rules => rule.expected :: expectedAll rules

end

mutual

/-- Can the rule match where `current` is the next significant token? -/
def quickCheck : OpenRule → (current : Option Token) → Option Bool
  | foreign _, _ => none
  | leaf rule _, current => rule.quickCheck current
  | chain rules, current => quickCheckFirst rules current
  | either rules, current => quickCheckAny rules current
  | optional _, _ => none
  | many _, _ => none
  | separated item _, current => item.quickCheck current
  | labelled _ rule, current => rule.quickCheck current

def quickCheckFirst : List OpenRule → (current : Option Token) → Option Bool
  | [], _ => none
  | rule :: _, current => rule.quickCheck current

def quickCheckAny : List OpenRule → (current : Option Token) → Option Bool
  | [], _ => some false
  | rule :: rules, current =>
    Rule.combineVerdicts (rule.quickCheck current) (quickCheckAny rules current)

end

mutual

/-- Runs the rule at the cursor. Only where `look` is set, choices pass over the alternatives that
the next token rules out. -/
def run (look : Bool) : OpenRule → TokenStream → Parsed Capture
  | foreign p, s => p.parse s
  | leaf rule _, s => rule.parse s
  | chain rules, s =>
    match runChain look rules s with
    | .matched entries t => .matched (.tree (t.spanFrom s.cursor) entries) t
    | .mismatched why t => .mismatched why (t.restore s.checkpoint)
    | .endless => .endless
  | either rules, s => runEither look (either rules).expected rules s
  | optional rule, s =>
    match rule.run look s with
    | .matched c t => .matched c t
    | .mismatched _ t => .matched .empty (t.restore s.checkpoint)
    | .endless => .endless
  | many rule, s =>
    match Rule.parseMany (rule.run look) (s.left + 1) s with
    | .matched items t => .matched (.list (t.spanFrom s.cursor) items) t
    | .mismatched why t => .mismatched why t
    | .endless => .endless
  | separated item separator, s =>
    match item.run look s with
    | .mismatched why t => .mismatched why t
    | .endless => .endless
    | .matched c t =>
      match Rule.parseSeparated (item.run look) (separator.run look) (t.left + 1) t with
      | .matched items u => .matched (.list (u.spanFrom s.cursor) (c :: items)) u
      | .mismatched why u => .mismatched why u
      | .endless => .endless
  | labelled label rule, s => (rule.run look s).map (Capture.labelled label)

def runChain (look : Bool) : List OpenRule → TokenStream → Parsed Entries
  | [], s => .matched [] s
  | rule :: rules, s =>
    match rule.run look s with
    | .matched c t => (runChain look rules t).map (c.entries ++ ·)
    | .mismatched why t => .mismatched why t
    | .endless => .endless

def runEither (look : Bool) (expected : Text) : List OpenRule → TokenStream → Parsed Capture
  | [], s => .mismatched (Mismatch.atCursor s expected) s
  | rule :: rules, s =>
    if look = true ∧ rule.quickCheck s.current = some false then runEither look expected rules s
    else
      match rule.run look s with
      | .matched c t => .matched c t
      | .mismatched _ t => runEither look expected rules (t.restore s.checkpoint)
      | .endless => .endless

end

/-- Induction over an open rule and its parts, as for rules. -/
@[elab_as_elim, induction_eliminator]
theorem byParts {motive : OpenRule → Prop}
    (foreign : ∀ p, motive (.foreign p))
    (leaf : ∀ rule h, motive (.leaf rule h))
    (chain : ∀ rules, (∀ rule ∈ rules, motive rule) → motive (.chain rules))
    (either : ∀ rules, (∀ rule ∈ rules, motive rule) → motive (.either rules))
    (optional : ∀ rule, motive rule → motive (.optional rule))
    (many : ∀ rule, motive rule → motive (.many rule))
    (separated : ∀ item separator, motive item → motive separator →
      motive (.separated item separator))
    (labelled : ∀ label rule, motive rule → motive (.labelled label rule))
    (rule : OpenRule) : motive rule := by
  refine @OpenRule.rec motive (fun rules => ∀ rule ∈ rules, motive rule) foreign leaf chain either
    optional many separated labelled ?_ ?_ rule
  · intro rule hrule
    cases hrule
  · intro rule rules hrule hrules
    exact List.forall_mem_cons.2 ⟨hrule, hrules⟩

/-! ## The forms of open rules -/

/-- An open rule as an alternative of a choice. Only where `look` is set, a token can rule it out.
-/
def asAlternative (look : Bool) (rule : OpenRule) : Rule.Alternative where
  parse := rule.run look
  ruledOut current := look && rule.quickCheck current == some false

theorem runChain_eq_inTurn (look : Bool) (rules : List OpenRule) :
    runChain look rules = Rule.inTurn (rules.map (run look)) := by
  induction rules with
  | nil => rfl
  | cons rule rules ih =>
    funext s
    cases hrun : rule.run look s <;>
      simp only [runChain, List.map_cons, Rule.inTurn, hrun, ih]

/-- The alternatives of a choice keep their order, and with `look` their verdicts on the next
token. -/
theorem runEither_eq_firstOf (look : Bool) (expected : Text) (rules : List OpenRule) :
    runEither look expected rules = Rule.firstOf expected (rules.map (asAlternative look)) := by
  induction rules with
  | nil => rfl
  | cons rule rules ih =>
    funext s
    cases hrun : rule.run look s <;>
      simp only [runEither, List.map_cons, Rule.firstOf, asAlternative, Bool.and_eq_true,
        beq_iff_eq, hrun, ih]

theorem run_chain (look : Bool) (rules : List OpenRule) :
    (chain rules).run look = Rule.chainOf (rules.map (run look)) := by
  funext s
  cases hrun : Rule.inTurn (rules.map (run look)) s <;>
    simp only [run, Rule.chainOf, runChain_eq_inTurn, hrun]

theorem run_either (look : Bool) (rules : List OpenRule) :
    (either rules).run look =
      Rule.firstOf (either rules).expected (rules.map (asAlternative look)) := by
  funext s
  rw [run, runEither_eq_firstOf]

theorem run_optional (look : Bool) (rule : OpenRule) :
    (optional rule).run look = Rule.optionalOf (rule.run look) := by
  funext s
  cases hrun : rule.run look s <;> simp only [run, Rule.optionalOf, hrun]

theorem run_many (look : Bool) (rule : OpenRule) :
    (many rule).run look = Rule.manyOf (rule.run look) := by
  funext s
  cases hrounds : Rule.parseMany (rule.run look) (s.left + 1) s <;>
    simp only [run, Rule.manyOf, hrounds]

theorem run_separated (look : Bool) (item separator : OpenRule) :
    (separated item separator).run look =
      Rule.separatedOf (item.run look) (separator.run look) := by
  funext s
  cases hitem : item.run look s with
  | matched c t =>
    cases hturns : Rule.parseSeparated (item.run look) (separator.run look) (t.left + 1) t <;>
      simp only [run, Rule.separatedOf, hitem, hturns]
  | mismatched why t => simp only [run, Rule.separatedOf, hitem]
  | endless => simp only [run, Rule.separatedOf, hitem]

/-- Every open rule takes everything or nothing, however it is run. A foreign parser does so by its
contract, and the forms do so as they do for the rules of the library. -/
theorem run_atomic (look : Bool) (rule : OpenRule) : AtomicParser (rule.run look) := by
  induction rule with
  | foreign p =>
    intro s hs
    unfold run
    exact p.atomic hs
  | leaf rule h =>
    intro s hs
    unfold run
    exact Rule.parse_atomic rule hs
  | chain rules ih =>
    rw [run_chain]
    exact Rule.chainOf_atomic (List.forall_mem_map.2 ih)
  | either rules ih =>
    rw [run_either]
    exact Rule.firstOf_atomic _ (List.forall_mem_map.2 ih)
  | optional rule ih =>
    rw [run_optional]
    exact Rule.optionalOf_atomic ih
  | many rule ih =>
    rw [run_many]
    exact Rule.manyOf_atomic ih
  | separated item separator ihItem ihSeparator =>
    rw [run_separated]
    exact Rule.separatedOf_atomic ihItem ihSeparator
  | labelled label rule ih =>
    intro s hs
    unfold run
    exact (ih hs).map _

end OpenRule

/-! ## Rules as open rules -/

namespace Rule

mutual

/-- The rule as an open rule without foreign parsers. -/
def toOpen : Rule → OpenRule
  | any => .leaf any rfl
  | token kind => .leaf (token kind) rfl
  | lexeme text => .leaf (lexeme text) rfl
  | chain rules => .chain (toOpenAll rules)
  | either rules => .either (toOpenAll rules)
  | optional rule => .optional rule.toOpen
  | many rule => .many rule.toOpen
  | separated item separator => .separated item.toOpen separator.toOpen
  | block => .leaf block rfl
  | qualifiedName => .leaf qualifiedName rfl
  | expression => .leaf expression rfl
  | labelled label rule => .labelled label rule.toOpen

def toOpenAll : List Rule → List OpenRule
  | [] => []
  | rule :: rules => rule.toOpen :: toOpenAll rules

end

theorem expected_toOpen (rule : Rule) : rule.toOpen.expected = rule.expected := by
  induction rule with
  | chain rules ih =>
    cases rules with
    | nil => rfl
    | cons rule rules => exact ih rule List.mem_cons_self
  | either rules ih =>
    have hall : OpenRule.expectedAll (toOpenAll rules) = expectedAll rules := by
      induction rules with
      | nil => rfl
      | cons rule rules ihRules =>
        obtain ⟨hrule, hothers⟩ := List.forall_mem_cons.1 ih
        exact congrArg₂ List.cons hrule (ihRules hothers)
    exact congrArg (fun texts => "one of ".toList ++ Text.joinWith ", ".toList texts) hall
  | optional rule ih => exact ih
  | many rule ih => exact ih
  | separated item separator ih _ => exact ih
  | labelled label rule ih => exact ih
  | any | token kind | lexeme text | block | qualifiedName | expression => rfl

/-- An open rule gives the verdict of the rule on the next token. -/
theorem quickCheck_toOpen (rule : Rule) (current : Option Token) :
    rule.toOpen.quickCheck current = rule.quickCheck current := by
  induction rule with
  | chain rules ih =>
    cases rules with
    | nil => rfl
    | cons rule rules =>
      rw [toOpen, toOpenAll, OpenRule.quickCheck, OpenRule.quickCheckFirst, quickCheck,
        quickCheckFirst, ih rule List.mem_cons_self]
  | either rules ih =>
    simp only [toOpen, OpenRule.quickCheck, quickCheck]
    induction rules with
    | nil => rfl
    | cons rule rules ihRules =>
      obtain ⟨hrule, hothers⟩ := List.forall_mem_cons.1 ih
      rw [toOpenAll, OpenRule.quickCheckAny, quickCheckAny, hrule, ihRules hothers]
  | separated item separator ih _ => rw [toOpen, OpenRule.quickCheck, quickCheck, ih]
  | labelled label rule ih => rw [toOpen, OpenRule.quickCheck, quickCheck, ih]
  | any | token kind | lexeme text | optional rule | many rule | block | qualifiedName
  | expression => rfl

theorem toOpenAll_eq_map (rules : List Rule) : toOpenAll rules = rules.map toOpen := by
  induction rules with
  | nil => rfl
  | cons rule rules ih => rw [toOpenAll, ih, List.map_cons]

/-- With choices that look ahead, the open rule runs as the rule does. The forms are the same on
both sides, so only their parts are compared. -/
theorem run_toOpen (rule : Rule) : rule.toOpen.run true = rule.parse := by
  induction rule with
  | chain rules ih =>
    have hparts : (rules.map toOpen).map (OpenRule.run true) = rules.map parse := by
      rw [List.map_map]
      exact List.map_congr_left ih
    rw [toOpen, toOpenAll_eq_map, OpenRule.run_chain, parse_chain, hparts]
  | either rules ih =>
    have hparts : (rules.map toOpen).map (OpenRule.asAlternative true) =
        rules.map asAlternative := by
      rw [List.map_map]
      refine List.map_congr_left fun rule hrule => ?_
      simp only [Function.comp_apply, OpenRule.asAlternative, asAlternative, ih rule hrule,
        quickCheck_toOpen, Bool.true_and]
    rw [parse_either, ← expected_toOpen, toOpen, OpenRule.run_either, toOpenAll_eq_map, hparts]
  | optional rule ih => rw [toOpen, OpenRule.run_optional, parse_optional, ih]
  | many rule ih => rw [toOpen, OpenRule.run_many, parse_many, ih]
  | separated item separator ihItem ihSeparator =>
    rw [toOpen, OpenRule.run_separated, parse_separated, ihItem, ihSeparator]
  | labelled label rule ih =>
    funext s
    rw [toOpen, OpenRule.run, parse, ih]
  | any | token kind | lexeme text | block | qualifiedName | expression =>
    funext s
    simp only [toOpen, OpenRule.run]

end Rule

end SourceMacros

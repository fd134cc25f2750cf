import SourceMacros.Rule.Parse

/-!
# The forms that combine rules

A form combines the parsers of its parts, and it does not matter where these come from. So the forms
are stated here as functions on parsers: `chainOf` for a chain, `firstOf` for a choice,
`optionalOf`, `manyOf` and `separatedOf` for the others. What holds of a form whenever it holds of
its parts is proved once for the function, and carries over to every kind of rule whose parser is
built by it. For the rules of the library this is said by `Rule.parse_chain` and the equations next
to it.
-/

namespace SourceMacros

open TokenStream

namespace Rule

/-! ## Functions on parsers -/

/-- Runs all parsers one after the other and collects the entries of what they give. -/
def inTurn : List (TokenStream → Parsed Capture) → TokenStream → Parsed Entries
  | [], s => .matched [] s
  | p :: parsers, s =>
    match p s with
    | .matched c t => (inTurn parsers t).map (c.entries ++ ·)
    | .mismatched why t => .mismatched why t
    | .endless => .endless

/-- Runs all parsers one after the other, or puts the cursor back. -/
def chainOf (parsers : List (TokenStream → Parsed Capture)) (s : TokenStream) : Parsed Capture :=
  match inTurn parsers s with
  | .matched entries t => .matched (.tree (t.spanFrom s.cursor) entries) t
  | .mismatched why t => .mismatched why (t.restore s.checkpoint)
  | .endless => .endless

/-- An alternative of a choice: a parser, and the next tokens that rule it out. -/
structure Alternative where
  parse : TokenStream → Parsed Capture
  ruledOut : Option Token → Bool

/-- Runs the first alternative that matches. Those that the next token rules out are passed over. -/
def firstOf (expected : Text) : List Alternative → TokenStream → Parsed Capture
  | [], s => .mismatched (Mismatch.atCursor s expected) s
  | first :: others, s =>
    if first.ruledOut s.current then firstOf expected others s
    else
      match first.parse s with
      | .matched c t => .matched c t
      | .mismatched _ t => firstOf expected others (t.restore s.checkpoint)
      | .endless => .endless

/-- Runs the parser, and takes nothing where it does not match. -/
def optionalOf (p : TokenStream → Parsed Capture) (s : TokenStream) : Parsed Capture :=
  match p s with
  | .matched c t => .matched c t
  | .mismatched _ t => .matched .empty (t.restore s.checkpoint)
  | .endless => .endless

/-- Runs the parser again and again. -/
def manyOf (item : TokenStream → Parsed Capture) (s : TokenStream) : Parsed Capture :=
  match parseMany item (s.left + 1) s with
  | .matched items t => .matched (.list (t.spanFrom s.cursor) items) t
  | .mismatched why t => .mismatched why t
  | .endless => .endless

/-- Runs `item`, and then `separator` and `item` again and again. -/
def separatedOf (item separator : TokenStream → Parsed Capture) (s : TokenStream) :
    Parsed Capture :=
  match item s with
  | .mismatched why t => .mismatched why t
  | .endless => .endless
  | .matched c t =>
    match parseSeparated item separator (t.left + 1) t with
    | .matched items u => .matched (.list (u.spanFrom s.cursor) (c :: items)) u
    | .mismatched why u => .mismatched why u
    | .endless => .endless

/-! ## The rules of the library -/

/-- A rule as an alternative of a choice. -/
def asAlternative (rule : Rule) : Alternative where
  parse := rule.parse
  ruledOut current := rule.quickCheck current == some false

theorem parseChain_eq_inTurn (rules : List Rule) :
    parseChain rules = inTurn (rules.map parse) := by
  induction rules with
  | nil => rfl
  | cons rule rules ih =>
    funext s
    cases hrun : rule.parse s <;> simp only [parseChain, List.map_cons, inTurn, hrun, ih]

theorem parseEither_eq_firstOf (expected : Text) (rules : List Rule) :
    parseEither expected rules = firstOf expected (rules.map asAlternative) := by
  induction rules with
  | nil => rfl
  | cons rule rules ih =>
    funext s
    cases hrun : rule.parse s <;>
      simp only [parseEither, List.map_cons, firstOf, asAlternative, beq_iff_eq, hrun, ih]

/-- The form of a chain is `chainOf`, applied to the parsers of its rules. -/
theorem parse_chain (rules : List Rule) : (chain rules).parse = chainOf (rules.map parse) := by
  funext s
  cases hrun : inTurn (rules.map parse) s <;>
    simp only [parse, chainOf, parseChain_eq_inTurn, hrun]

theorem parse_either (rules : List Rule) :
    (either rules).parse = firstOf (either rules).expected (rules.map asAlternative) := by
  funext s
  rw [parse, parseEither_eq_firstOf]

theorem parse_optional (rule : Rule) : (optional rule).parse = optionalOf rule.parse := by
  funext s
  cases hrun : rule.parse s <;> simp only [parse, optionalOf, hrun]

theorem parse_many (rule : Rule) : (many rule).parse = manyOf rule.parse := by
  funext s
  cases hrounds : parseMany rule.parse (s.left + 1) s <;> simp only [parse, manyOf, hrounds]

theorem parse_separated (item separator : Rule) :
    (separated item separator).parse = separatedOf item.parse separator.parse := by
  funext s
  cases hitem : item.parse s with
  | matched c t =>
    cases hturns : parseSeparated item.parse separator.parse (t.left + 1) t <;>
      simp only [parse, separatedOf, hitem, hturns]
  | mismatched why t => simp only [parse, separatedOf, hitem]
  | endless => simp only [parse, separatedOf, hitem]

end Rule

end SourceMacros

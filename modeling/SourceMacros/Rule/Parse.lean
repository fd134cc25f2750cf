import SourceMacros.Rule.Balanced

/-!
# Parsing

`Rule.parse` runs a rule at the cursor of a stream. Backtracking is by position
only: a rule that does not match puts the cursor back where it found it, so that
an alternative can be tried from the same place.

The recursion is on the rule. Repetitions run for as many rounds as there are
tokens left and one more: a round that moves uses up a token, and one that does
not move would be repeated without end.
-/

namespace SourceMacros

namespace Rule

/-- Reads one token that satisfies `p`. -/
def parseToken (p : Token → Bool) (expected : Text) (s : TokenStream) :
    Parsed Capture :=
  match s.current with
  | some found =>
    if p found then .matched (.leaf [found]) s.next
    else .mismatched (Mismatch.atCursor s expected) s
  | none => .mismatched (Mismatch.atCursor s expected) s

/-- Reads a balanced block. -/
def parseBlock (s : TokenStream) : Parsed Capture :=
  match s.balancedRun [] with
  | .matched _ t => .matched (.leaf (t.spanFrom s.cursor)) t
  | .mismatched why t => .mismatched why (t.restore s.checkpoint)
  | .endless => .endless

/-- The texts that end an expression outside all brackets. -/
def expressionEnds : List Text := [[','], [';']]

/-- Reads an expression. -/
def parseExpression (s : TokenStream) : Parsed Capture :=
  match s.balancedRun expressionEnds with
  | .matched _ t =>
    if t.cursor = s.cursor then
      .mismatched (Mismatch.atCursor t expression.expected) t
    else .matched (.leaf (t.spanFrom s.cursor)) t
  | .mismatched why t => .mismatched why (t.restore s.checkpoint)
  | .endless => .endless

/-- Moves past the further parts of a qualified name, at most `fuel` of them. A
backslash that no identifier follows is left alone. -/
def skipNameParts : (fuel : Nat) → TokenStream → TokenStream
  | 0, s => s
  | fuel + 1, s =>
    if s.current.any Token.isNameSeparator
        && s.next.current.any Token.isIdentifier then
      skipNameParts fuel s.next.next
    else s

/-- Reads a qualified name. -/
def parseQualifiedName (s : TokenStream) : Parsed Capture :=
  let start := if s.current.any Token.isNameSeparator then s.next else s
  if start.current.any Token.isIdentifier then
    let t := skipNameParts s.left start.next
    .matched (.leaf (t.spanFrom s.cursor)) t
  else
    .mismatched (Mismatch.atCursor start qualifiedName.expected)
      (start.restore s.checkpoint)

/-- The items of a repetition, at most `fuel` rounds. It ends where `item` does
not match or matches without moving. -/
def parseMany (item : TokenStream → Parsed Capture) :
    (fuel : Nat) → TokenStream → Parsed (List Capture)
  | 0, _ => .endless
  | fuel + 1, s =>
    match item s with
    | .matched c t =>
      if t.cursor = s.cursor then .matched [] t
      else (parseMany item fuel t).map (c :: ·)
    | .mismatched _ t => .matched [] (t.restore s.checkpoint)
    | .endless => .endless

/-- The further items of a separated list, at most `fuel` rounds of a separator
and an item. -/
def parseSeparated (item separator : TokenStream → Parsed Capture) :
    (fuel : Nat) → TokenStream → Parsed (List Capture)
  | 0, _ => .endless
  | fuel + 1, s =>
    match separator s with
    | .mismatched _ t => .matched [] t
    | .endless => .endless
    | .matched _ t =>
      match item t with
      | .matched c u =>
        (parseSeparated item separator fuel u).map (c :: ·)
      | .mismatched _ u => .matched [] (u.restore s.checkpoint)
      | .endless => .endless

mutual

/-- Runs a rule at the cursor. -/
def parse : Rule → TokenStream → Parsed Capture
  | any, s => parseToken (fun _ => true) any.expected s
  | token kind, s => parseToken (·.kind == kind) (token kind).expected s
  | lexeme text, s => parseToken (·.lexeme == text) (lexeme text).expected s
  | chain rules, s =>
    match parseChain rules s with
    | .matched entries t => .matched (.tree (t.spanFrom s.cursor) entries) t
    | .mismatched why t => .mismatched why (t.restore s.checkpoint)
    | .endless => .endless
  | either rules, s => parseEither (either rules).expected rules s
  | optional rule, s =>
    match rule.parse s with
    | .matched c t => .matched c t
    | .mismatched _ t => .matched .empty (t.restore s.checkpoint)
    | .endless => .endless
  | many rule, s =>
    match parseMany rule.parse (s.left + 1) s with
    | .matched items t => .matched (.list (t.spanFrom s.cursor) items) t
    | .mismatched why t => .mismatched why t
    | .endless => .endless
  | separated item separator, s =>
    match item.parse s with
    | .mismatched why t => .mismatched why t
    | .endless => .endless
    | .matched c t =>
      match parseSeparated item.parse separator.parse (t.left + 1) t with
      | .matched items u =>
        .matched (.list (u.spanFrom s.cursor) (c :: items)) u
      | .mismatched why u => .mismatched why u
      | .endless => .endless
  | block, s => parseBlock s
  | qualifiedName, s => parseQualifiedName s
  | expression, s => parseExpression s
  | labelled label rule, s => (rule.parse s).map (Capture.labelled label)

/-- Runs all rules one after the other and collects their entries. -/
def parseChain : List Rule → TokenStream → Parsed Entries
  | [], s => .matched [] s
  | rule :: rules, s =>
    match rule.parse s with
    | .matched c t => (parseChain rules t).map (c.entries ++ ·)
    | .mismatched why t => .mismatched why t
    | .endless => .endless

/-- Runs the first rule that matches. Rules that the next token rules out are
passed over. -/
def parseEither (expected : Text) : List Rule → TokenStream → Parsed Capture
  | [], s => .mismatched (Mismatch.atCursor s expected) s
  | rule :: rules, s =>
    if rule.quickCheck s.current = some false then
      parseEither expected rules s
    else
      match rule.parse s with
      | .matched c t => .matched c t
      | .mismatched _ t => parseEither expected rules (t.restore s.checkpoint)
      | .endless => .endless

end

end Rule

end SourceMacros

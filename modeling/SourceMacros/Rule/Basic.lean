import SourceMacros.Capture

/-!
# Rules

A rule describes a piece of source by its significant tokens. The leaves match
single tokens, qualified names, balanced blocks and expressions; the other
forms combine rules in order, as alternatives, or in repetition, and give a
label to what a rule matches.

This module holds what can be said of a rule without parsing: how messages
describe it, whether the next token already rules it out, and which labels it
contributes.
-/

namespace SourceMacros

/-- A pattern over significant tokens. -/
inductive Rule where
  /-- One token, whatever it is. -/
  | any
  /-- One token of a kind. -/
  | token (kind : TokenKind)
  /-- One token with this very lexeme. -/
  | lexeme (text : Text)
  /-- All rules in order, or nothing. -/
  | chain (rules : List Rule)
  /-- The first rule that matches, from left to right. -/
  | either (rules : List Rule)
  /-- The rule, or else nothing. -/
  | optional (rule : Rule)
  /-- The rule as often as it matches, possibly never. -/
  | many (rule : Rule)
  /-- One or more items with separators between them. A separator that no item
  follows is left alone. -/
  | separated (item separator : Rule)
  /-- A run of tokens in which all brackets are balanced, possibly empty. -/
  | block
  /-- Identifiers with a backslash between them, and perhaps in front. -/
  | qualifiedName
  /-- A run of tokens, not empty and with balanced brackets, that ends in front
  of a comma or semicolon outside all brackets. -/
  | expression
  /-- The rule, with its capture recorded under a label. -/
  | labelled (label : Label) (rule : Rule)

/-- Is the token a backslash between the parts of a qualified name? -/
def Token.isNameSeparator (t : Token) : Bool :=
  t.is .punctuation ['\\']

/-- Is the token an identifier? -/
def Token.isIdentifier (t : Token) : Bool :=
  t.kind == .identifier

namespace Rule

/-! ## Descriptions -/

/-- A lexeme as messages show it, between grave accents. -/
def quotedLexeme (t : Text) : Text :=
  '\x60' :: (t ++ ['\x60'])

mutual

/-- What the rule expects, in words. -/
def expected : Rule → Text
  | any => "a match".toList
  | token kind => kind.name
  | lexeme text => quotedLexeme text
  | chain rules => expectedFirst rules
  | either rules =>
    "one of ".toList ++ Text.joinWith ", ".toList (expectedAll rules)
  | optional rule => rule.expected
  | many rule => rule.expected
  | separated item _ => item.expected
  | block => "a balanced block".toList
  | qualifiedName => "a qualified name".toList
  | expression => "an expression".toList
  | labelled _ rule => rule.expected

/-- What the first rule of a chain expects. -/
def expectedFirst : List Rule → Text
  | [] => "nothing".toList
  | rule :: _ => rule.expected

/-- What each rule expects. -/
def expectedAll : List Rule → List Text
  | [] => []
  | rule :: rules => rule.expected :: expectedAll rules

end

/-! ## Looking one token ahead -/

/-- The verdict on two alternatives: possible if one is, impossible if both
are, and otherwise unknown. -/
def combineVerdicts : Option Bool → Option Bool → Option Bool
  | some true, _ => some true
  | _, some true => some true
  | some false, verdict => verdict
  | none, _ => none

mutual

/-- Can the rule match where `current` is the next significant token? Rules
that can match nothing do not say. -/
def quickCheck : Rule → (current : Option Token) → Option Bool
  | any, _ => none
  | token kind, current => some (current.any (·.kind == kind))
  | lexeme text, current => some (current.any (·.lexeme == text))
  | chain rules, current => quickCheckFirst rules current
  | either rules, current => quickCheckAny rules current
  | optional _, _ => none
  | many _, _ => none
  | separated item _, current => item.quickCheck current
  | block, _ => none
  | qualifiedName, current =>
    some (current.any Token.isNameSeparator || current.any Token.isIdentifier)
  | expression, _ => none
  | labelled _ rule, current => rule.quickCheck current

/-- Can the first rule of a chain match? -/
def quickCheckFirst : List Rule → (current : Option Token) → Option Bool
  | [], _ => none
  | rule :: _, current => rule.quickCheck current

/-- Can one of the rules match? -/
def quickCheckAny : List Rule → (current : Option Token) → Option Bool
  | [], _ => some false
  | rule :: rules, current =>
    combineVerdicts (rule.quickCheck current) (quickCheckAny rules current)

end

/-! ## Labels -/

/-- The labels without those that have the name of an earlier one. -/
def distinctNames : List Label → List Label
  | [] => []
  | l :: ls => l :: (distinctNames ls).filter (·.name != l.name)

mutual

/-- The labels that the rule contributes to the tree it stands in. Alternatives
may share a name, since only one of them matches. -/
def labels : Rule → List Label
  | chain rules => labelsOfAll rules
  | either rules => distinctNames (labelsOfAll rules)
  | optional rule => rule.labels
  | labelled label _ => [label]
  | _ => []

/-- The labels that the rules contribute, in order. -/
def labelsOfAll : List Rule → List Label
  | [] => []
  | rule :: rules => rule.labels ++ labelsOfAll rules

end

/-- The rules directly inside a rule. -/
def children : Rule → List Rule
  | chain rules => rules
  | either rules => rules
  | optional rule => [rule]
  | many rule => [rule]
  | separated item separator => [item, separator]
  | labelled _ rule => [rule]
  | _ => []

end Rule

end SourceMacros

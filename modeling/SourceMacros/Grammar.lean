import SourceMacros.Rule.Parse

/-!
# Grammars

A grammar is a rule whose labels have been checked: at no level do two sibling
labels have the same name, so a name finds one entry at each level of a capture.
-/

namespace SourceMacros

/-- The first name that an earlier one in the list already has. -/
def firstRepeated (seen : List Text) : List Text → Option Text
  | [] => none
  | name :: names =>
    if seen.contains name then some name
    else firstRepeated (name :: seen) names

namespace Rule

mutual

/-- The first label name that occurs twice at one level of the rule. A level is
checked before the levels below it. -/
def repeatedLabel? : Rule → Option Text
  | chain rules =>
    match firstRepeated [] ((chain rules).labels.map Label.name) with
    | some name => some name
    | none => repeatedLabelIn? rules
  | either rules =>
    match firstRepeated [] ((either rules).labels.map Label.name) with
    | some name => some name
    | none => repeatedLabelIn? rules
  | optional rule =>
    match firstRepeated [] (rule.labels.map Label.name) with
    | some name => some name
    | none => rule.repeatedLabel?
  | many rule => rule.repeatedLabel?
  | separated item separator =>
    match item.repeatedLabel? with
    | some name => some name
    | none => separator.repeatedLabel?
  | labelled _ rule => rule.repeatedLabel?
  | _ => none

/-- The first label name that occurs twice at one level of one of the rules. -/
def repeatedLabelIn? : List Rule → Option Text
  | [] => none
  | rule :: rules =>
    match rule.repeatedLabel? with
    | some name => some name
    | none => repeatedLabelIn? rules

end

/-- Adds the labels that are not among those seen, in order. -/
def addLabels (seen : List Label) : List Label → List Label
  | [] => seen
  | l :: ls => addLabels (if seen.contains l then seen else seen ++ [l]) ls

mutual

/-- Adds every label of the rule, at any depth, to those seen. The labels of a
level come before those of the levels below it. -/
def collectLabels (seen : List Label) : Rule → List Label
  | chain rules =>
    collectLabelsOfAll (addLabels seen (chain rules).labels) rules
  | either rules =>
    collectLabelsOfAll (addLabels seen (either rules).labels) rules
  | optional rule => rule.collectLabels (addLabels seen rule.labels)
  | many rule => rule.collectLabels seen
  | separated item separator =>
    separator.collectLabels (item.collectLabels seen)
  | labelled label rule => rule.collectLabels (addLabels seen [label])
  | _ => seen

/-- Adds every label of the rules to those seen. -/
def collectLabelsOfAll (seen : List Label) : List Rule → List Label
  | [] => seen
  | rule :: rules => collectLabelsOfAll (rule.collectLabels seen) rules

end

end Rule

/-- Why a source has no capture. -/
inductive GrammarError where
  /-- Two sibling labels have this name. -/
  | duplicateLabel (name : Text)
  | lex (error : LexError)
  | mismatch (why : Mismatch)
  /-- The rule repeats itself forever without moving. -/
  | endless
  deriving DecidableEq

/-- The failure in words. -/
def GrammarError.message : GrammarError → Text
  | duplicateLabel name =>
    "capture label ".toList ++ Rule.quotedLexeme name
      ++ " appears twice at the same level".toList
  | lex error => error.message
  | mismatch why => why.message
  | endless => "the rule repeats itself without end".toList

/-- A rule in which no level has two labels of one name. -/
structure Grammar where
  rule : Rule
  distinct : rule.repeatedLabel? = none

namespace Grammar

/-- Checks the labels of a rule. -/
def ofRule (rule : Rule) : Except GrammarError Grammar :=
  match h : rule.repeatedLabel? with
  | none => .ok ⟨rule, h⟩
  | some name => .error (.duplicateLabel name)

/-- Runs the rule at the cursor of a stream. -/
def parse (g : Grammar) (s : TokenStream) : Parsed Capture :=
  g.rule.parse s

/-- Runs the rule at the first significant token of a source. -/
def parseSource (g : Grammar) (source : Text) : Except GrammarError Capture :=
  match TokenStream.ofSource source with
  | .error e => .error (.lex e)
  | .ok s =>
    match g.parse s with
    | .matched c _ => .ok c
    | .mismatched why _ => .error (.mismatch why)
    | .endless => .error .endless

/-- Every label that the rule can give, at any depth, once each. -/
def labels (g : Grammar) : List Label :=
  g.rule.collectLabels []

end Grammar

end SourceMacros

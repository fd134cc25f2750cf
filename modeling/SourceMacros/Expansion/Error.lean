import SourceMacros.Grammar
import SourceMacros.Template

/-!
# Failures of expansion

What can go wrong when a macro is registered, a source is expanded or a compiler
pass runs.
-/

namespace SourceMacros

/-- Why a macro was not registered or a source not expanded. -/
inductive ExpandError where
  | lex (error : LexError)
  | grammar (error : GrammarError)
  | template (error : TemplateError)
  /-- Expansions are nested deeper than the limit allows. -/
  | recursionLimit (limit : Nat) (context : Text)
  | duplicateMacro (name : Text)
  | unknownExpander (owner expander : Text)
  | unknownCapture (owner label : Text)
  /-- A compiler pass or an expander gave up. -/
  | compiler (name message : Text)
  /-- A pattern repeats itself forever without moving. -/
  | endless
  deriving DecidableEq

namespace ExpandError

/-- The failure in words. -/
def message : ExpandError → Text
  | lex error => error.message
  | grammar error => error.message
  | template error => error.message
  | recursionLimit limit context =>
    "expansion of ".toList ++ Rule.quotedLexeme context
      ++ " nested deeper than ".toList ++ Nat.toDigits 10 limit
      ++ " levels".toList
  | duplicateMacro name =>
    "macro ".toList ++ Rule.quotedLexeme name
      ++ " is already registered".toList
  | unknownExpander owner expander =>
    "macro ".toList ++ Rule.quotedLexeme owner
      ++ " uses unknown expander ".toList ++ Rule.quotedLexeme expander
  | unknownCapture owner label =>
    "macro ".toList ++ Rule.quotedLexeme owner ++ " refers to ".toList
      ++ Rule.quotedLexeme label
      ++ ", which its pattern never captures".toList
  | compiler name message =>
    "compiler ".toList ++ Rule.quotedLexeme name ++ " failed: ".toList
      ++ message
  | endless => "a pattern repeats itself without end".toList

end ExpandError

end SourceMacros

import SourceMacros.Rule.Basic
import SourceMacros.Rule.Mismatch

/-!
# Outcomes of parsing

Running a rule on a stream gives a value and the stream behind the match, or a
mismatch and the stream as the rule leaves it. A repetition whose rounds all
match nothing never ends; this is an outcome of its own.
-/

namespace SourceMacros

/-- The outcome of reading a value from a stream. -/
inductive Parsed (α : Type) where
  | matched (value : α) (stream : TokenStream)
  | mismatched (why : Mismatch) (stream : TokenStream)
  /-- The rule repeats itself forever without moving. -/
  | endless

namespace Parsed

/-- Changes the value of a match. -/
def map {α β : Type} (f : α → β) : Parsed α → Parsed β
  | matched a s => matched (f a) s
  | mismatched m s => mismatched m s
  | endless => endless

end Parsed

end SourceMacros

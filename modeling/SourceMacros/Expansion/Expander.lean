import SourceMacros.Expansion.Request
import SourceMacros.Text.Layout

/-!
# Expanders

An expander changes a captured region before it goes into a template. It only
plans: it looks at the region and says what should take its place, usually a new
source that is to be expanded again. Whoever answers requests carries the plan
out. Requests of expanders have no context, and their units are never kept.
-/

namespace SourceMacros

/-- What an expander wants in place of a region. -/
inductive Plan where
  /-- These tokens as they are. -/
  | keep (stream : TokenStream)
  /-- The expansion of a source. -/
  | expand (request : Request)
  | reject (error : ExpandError)

namespace Plan

/-- Expands a source again. -/
def reexpand (source : Text) : Plan :=
  expand ⟨source, [], .disabled⟩

/-- The requests that carrying out the plan makes. -/
def requests : Plan → List Request
  | expand request => [request]
  | _ => []

/-- Carries out a plan, given the answers to requests. -/
def carryOut (answer : Request → Expanded Text) : Plan → Expanded TokenStream
  | keep s => .pure s
  | expand request => (answer request).bind TokenStream.expandable
  | reject e => .fail e

end Plan

/-- A plan for every region. -/
abbrev Expander := TokenStream → Plan

/-- Token lexemes with single spaces between them, except inside empty square
brackets. -/
def spacedText : List Token → Text
  | [] => []
  | [t] => t.lexeme
  | t :: u :: ts =>
    t.lexeme
      ++ (if t.lexeme = ['['] ∧ u.lexeme = [']'] then [] else [' '])
      ++ spacedText (u :: ts)

/-- The keyword that creates an object, in any letter case. -/
def Token.isNew (t : Token) : Bool :=
  t.kind == .keyword && Text.eqIgnoreAsciiCase t.lexeme "new".toList

/-- The token that takes the place of a default value that cannot be evaluated
in advance. -/
def nullToken : Token :=
  .synthetic .identifier "null".toList

/-- Cuts an argument at the first object creation or call, and puts `null`
there. The result says whether anything was cut. -/
def cutDefault : List Token → List Token × Bool
  | [] => ([], false)
  | t :: ts =>
    if t.isNew || (t.isIdentifier && ts.head?.any (·.is .punctuation ['('])) then
      ([nullToken], true)
    else
      let (kept, cut) := cutDefault ts
      (t :: kept, cut)

namespace Expander

/-- The region without white space at its ends. -/
def trim : Expander := fun s =>
  .reexpand s.text.trim

/-- The region in studly caps. -/
def studly : Expander := fun s =>
  .reexpand s.text.studly

/-- The region with its blank lines folded. -/
def collapse : Expander := fun s =>
  .reexpand s.text.collapse

/-- The significant tokens with single spaces between them. -/
def visibilityModifiers : Expander := fun s =>
  .reexpand (Text.joinWith [' '] (s.remaining.map Token.lexeme))

/-- An argument whose default value can be evaluated in advance, and whether
the default was changed for that. -/
def argumentWithNullability (s : TokenStream) : Plan × Bool :=
  let (kept, cut) := cutDefault s.remaining
  (.reexpand (spacedText kept), cut)

/-- An argument whose default value can be evaluated in advance. -/
def argument : Expander := fun s =>
  (argumentWithNullability s).1

/-- A colon, a space and the first token behind the colon of the region. An
empty region stays empty. -/
def returnType : Expander := fun s =>
  match s.remaining with
  | [] => .reexpand []
  | t :: ts =>
    let rest := if t.is .punctuation [':'] then ts else t :: ts
    .reexpand (": ".toList ++ (rest.head?.map Token.lexeme).getD [])

/-- The expanders that every engine starts with. -/
def standard : List (Text × Expander) :=
  [("trim".toList, trim), ("studly".toList, studly),
   ("collapse".toList, collapse),
   ("visibilityModifiers".toList, visibilityModifiers),
   ("argument".toList, argument), ("returnType".toList, returnType)]

end Expander

end SourceMacros

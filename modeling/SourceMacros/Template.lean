import SourceMacros.Rule.Basic
import SourceMacros.Lexing.Rule

/-!
# Templates

A template is source text with placeholders. A placeholder `$(name)` stands for
the capture with that name; `$(name | e | f)` sends the capture through the
expanders `e` and `f` first. Names are words of ASCII letters, digits and
underscores, with any white space around them. A dollar sign that no
parenthesis follows is plain text.
-/

namespace SourceMacros

/-- A piece of a template. -/
inductive Segment where
  | text (t : Text)
  | capture (label : Text) (expanders : List Text)
  deriving DecidableEq

/-- What is wrong with a placeholder. -/
inductive PlaceholderFault where
  | unterminated
  | notACaptureName (name : Text)
  | notAnExpanderName (name : Text)
  deriving DecidableEq

/-- A placeholder that cannot be read, and the byte offset it starts at. -/
structure TemplateError where
  offset : Nat
  fault : PlaceholderFault
  deriving DecidableEq

/-- The fault in words. -/
def PlaceholderFault.message : PlaceholderFault → Text
  | unterminated => "unterminated placeholder".toList
  | notACaptureName name =>
    Rule.quotedLexeme name ++ " is not a capture name".toList
  | notAnExpanderName name =>
    Rule.quotedLexeme name ++ " is not an expander name".toList

/-- The failure in words. -/
def TemplateError.message (e : TemplateError) : Text :=
  "malformed template at byte ".toList ++ Nat.toDigits 10 e.offset
    ++ ": ".toList ++ e.fault.message

/-- A text with placeholders, as the list of its pieces. -/
structure Template where
  segments : List Segment
  deriving DecidableEq

namespace Template

/-- A name is a word of ASCII letters, digits and underscores. -/
def isName (t : Text) : Bool :=
  !t.isEmpty && t.all isAsciiWordChar

/-- Reads what stands between the parentheses of a placeholder. -/
def readPlaceholder (body : Text) : Except PlaceholderFault Segment :=
  match (body.splitWhere (· == '|')).map Text.trim with
  | [] => .error (.notACaptureName [])
  | label :: expanders =>
    if isName label then
      match expanders.find? (!isName ·) with
      | some bad => .error (.notAnExpanderName bad)
      | none => .ok (.capture label expanders)
    else .error (.notACaptureName label)

/-- Puts a character in front of the pieces, into the first if that is text. -/
def consChar (c : Char) : List Segment → List Segment
  | .text t :: segments => .text (c :: t) :: segments
  | segments => .text [c] :: segments

/-- Splits a text at byte `offset` of a template into pieces. The first
`pending` characters belong to a placeholder read before. -/
def readFrom :
    (pending offset : Nat) → Text → Except TemplateError (List Segment)
  | _, _, [] => .ok []
  | pending + 1, offset, c :: t => readFrom pending (offset + c.utf8Size) t
  | 0, offset, c :: t =>
    if c = '$' ∧ t.head? = some '(' then
      let body := t.tail.takeWhile (· ≠ ')')
      if body.length = t.tail.length then .error ⟨offset, .unterminated⟩
      else
        match readPlaceholder body with
        | .error fault => .error ⟨offset, fault⟩
        | .ok placeholder =>
          match readFrom (body.length + 2) (offset + c.utf8Size) t with
          | .error e => .error e
          | .ok segments => .ok (placeholder :: segments)
    else
      match readFrom 0 (offset + c.utf8Size) t with
      | .error e => .error e
      | .ok segments => .ok (consChar c segments)

/-- Reads a template. -/
def ofSource (source : Text) : Except TemplateError Template :=
  (readFrom 0 0 source).map Template.mk

/-- The captures that the template refers to, in order. -/
def labels (t : Template) : List Text :=
  t.segments.filterMap fun
    | .text _ => none
    | .capture label _ => some label

/-- The expanders that the template refers to, in order. -/
def expanders (t : Template) : List Text :=
  t.segments.flatMap fun
    | .text _ => []
    | .capture _ names => names

end Template

end SourceMacros

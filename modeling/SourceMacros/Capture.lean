import SourceMacros.Label
import SourceMacros.TokenStream

/-!
# Captures

A capture is what a rule matched: the tokens it covers, and the structure that
the rule gives them. A leaf has none, a tree has labelled entries in the order
in which they matched, and a list has the captures of a repeated rule.
-/

namespace SourceMacros

/-- The tokens of a match and their structure. -/
inductive Capture where
  | leaf (tokens : List Token)
  | tree (tokens : List Token) (entries : List (Label × Capture))
  | list (tokens : List Token) (items : List Capture)

namespace Capture

/-- The capture of nothing. -/
def empty : Capture := leaf []

/-- The covered tokens, trivia between them included. -/
def tokens : Capture → List Token
  | leaf ts => ts
  | tree ts _ => ts
  | list ts _ => ts

/-- The labelled entries. Only a tree has any. -/
def entries : Capture → List (Label × Capture)
  | tree _ es => es
  | _ => []

/-- The items. Only a list has any. -/
def items : Capture → List Capture
  | list _ cs => cs
  | _ => []

/-- A capture as the one entry of a tree. -/
def labelled (l : Label) (c : Capture) : Capture :=
  tree c.tokens [(l, c)]

/-- Are no tokens covered? -/
def isEmpty (c : Capture) : Bool :=
  c.tokens.isEmpty

/-- The covered source. -/
def text (c : Capture) : Text :=
  Token.text c.tokens

/-- A fresh stream over the covered tokens. -/
def stream (c : Capture) : TokenStream :=
  TokenStream.ofTokens c.tokens

/-- The first entry whose label has the given name. -/
def get? (c : Capture) (name : Text) : Option Capture :=
  (c.entries.find? (·.1.isNamed name)).map Prod.snd

mutual

/-- The first capture with the given name at any depth: a direct entry if there
is one, and otherwise the first that an entry or an item holds. -/
def find? (name : Text) : Capture → Option Capture
  | leaf _ => none
  | tree ts es =>
    match (tree ts es).get? name with
    | some c => some c
    | none => findInEntries? name es
  | list _ cs => findInItems? name cs

/-- The first capture with the given name inside the entries. -/
def findInEntries? (name : Text) : List (Label × Capture) → Option Capture
  | [] => none
  | (_, c) :: es =>
    match find? name c with
    | some found => some found
    | none => findInEntries? name es

/-- The first capture with the given name inside the items. -/
def findInItems? (name : Text) : List Capture → Option Capture
  | [] => none
  | c :: cs =>
    match find? name c with
    | some found => some found
    | none => findInItems? name cs

end

end Capture

/-- Entries being collected for a tree. -/
abbrev Entries := List (Label × Capture)

namespace Entries

/-- Adds an entry at the end. -/
def insert (es : Entries) (l : Label) (c : Capture) : Entries :=
  es ++ [(l, c)]

/-- Adds the entries of a capture at the end. Leaves and lists have none, so
they leave no trace. -/
def absorb (es : Entries) (c : Capture) : Entries :=
  es ++ c.entries

end Entries

end SourceMacros

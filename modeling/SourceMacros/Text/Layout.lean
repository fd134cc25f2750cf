import SourceMacros.Text.WhiteSpace
import SourceMacros.Text.UpperCase

/-!
# Layout of generated text

Changes to the look of a text that keep its words: joining words in studly caps,
folding blank lines, and the final formatting of generated source.
-/

namespace SourceMacros

namespace Text

/-! ## Studly caps -/

/-- The characters that separate words. -/
def isWordSeparator (c : Char) : Bool :=
  c == '-' || c == '_' || c == ' '

/-- The words of a text joined in studly caps: each starts in upper case, and
the separators are gone. -/
def studly (t : Text) : Text :=
  ((t.splitWhere isWordSeparator).filter (· ≠ [])).flatMap capitalize

/-! ## Blank lines -/

/-- The number of characters up to the last line feed in the white space at the
front of a text, that line feed included. -/
def throughLastLineFeed : Text → Nat
  | [] => 0
  | c :: t =>
    if isWhiteSpace c then
      match throughLastLineFeed t with
      | 0 => if c = '\n' then 1 else 0
      | n + 1 => n + 2
    else 0

/-- Replaces a line feed, more white space and a last line feed by two line
feeds, wherever they occur. The first `dropped` characters belong to white space
that is already replaced. -/
def foldBlankLines : (dropped : Nat) → Text → Text
  | _, [] => []
  | dropped + 1, _ :: t => foldBlankLines dropped t
  | 0, c :: t =>
    if c = '\n' ∧ 2 ≤ throughLastLineFeed t then
      '\n' :: '\n' :: foldBlankLines (throughLastLineFeed t) t
    else c :: foldBlankLines 0 t

/-- Replaces three line feeds by two, from left to right. -/
def foldLineFeeds : Text → Text
  | [] => []
  | '\n' :: '\n' :: '\n' :: t => '\n' :: '\n' :: foldLineFeeds t
  | c :: t => c :: foldLineFeeds t

/-- Leaves at most one blank line where there are several or where one holds
white space. -/
def collapse (t : Text) : Text :=
  foldLineFeeds (foldBlankLines 0 t)

/-! ## Formatting -/

/-- The lines of a text. A line feed at the end opens no further line. -/
def lines (t : Text) : List Text :=
  let ls := t.splitWhere (· == '\n')
  if ls.getLast? = some [] then ls.dropLast else ls

/-- Normal layout: no white space at the end of a line, no two blank lines in a
row, none at the start, and one line feed at the end. -/
def format (t : Text) : Text :=
  let stripped := joinWith ['\n'] (t.lines.map trimEnd)
  match trimEnd ((collapse stripped).dropWhile (· == '\n')) with
  | [] => []
  | c :: body => c :: body ++ ['\n']

/-- The opening tag of a source file. -/
def openTag : Text := "<?php".toList

/-- Puts a comment directly behind the opening tag, or else at the top. -/
def insertComment (code comment : Text) : Text :=
  match after? openTag code with
  | some rest => openTag ++ "\n\n".toList ++ comment ++ '\n' :: rest
  | none => comment ++ "\n\n".toList ++ code

end Text

end SourceMacros

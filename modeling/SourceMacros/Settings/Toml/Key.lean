import SourceMacros.Lexing.Rule

/-!
# Keys and texts of a document

The pieces of a line: blanks and comments, quoted texts in their four forms, and
keys, which are bare words or quoted texts with dots between them.
-/

namespace SourceMacros

namespace Toml

/-! ## Blanks and line ends -/

/-- A space or a tab. -/
def isBlank (c : Char) : Bool :=
  c == ' ' || c == '\t'

/-- Drops blanks and a comment behind them. -/
def skipComment (t : Text) : Text :=
  match t.dropWhile isBlank with
  | '#' :: r => r.dropWhile fun c => c == '\t' || 0x20 ≤ c.toNat
  | r => r

/-- The text behind the end of a line. -/
def lineFeed? : Text → Option Text
  | '\n' :: r => some r
  | '\r' :: '\n' :: r => some r
  | _ => none

/-- The text behind the end of this line, where only a comment may stand in
front of it. -/
def endLine (t : Text) : Option Text :=
  match skipComment t with
  | [] => some []
  | r => lineFeed? r

/-- Drops blanks, comments and line ends, at most `fuel` lines. -/
def skipLines : (fuel : Nat) → Text → Text
  | 0, t => t
  | fuel + 1, t =>
    match lineFeed? (skipComment t) with
    | some r => skipLines fuel r
    | none => skipComment t

/-! ## Texts -/

/-- The value of a hexadecimal digit. -/
def hexValue? (c : Char) : Option Nat :=
  if isAsciiDigit c then some (c.toNat - '0'.toNat)
  else if 'a' ≤ c ∧ c ≤ 'f' then some (c.toNat - 'a'.toNat + 10)
  else if 'A' ≤ c ∧ c ≤ 'F' then some (c.toNat - 'A'.toNat + 10)
  else none

/-- The character with the given hexadecimal digits. -/
def hexChar? (ds : Text) : Option Char := do
  let code ← ds.foldlM (fun n c => (hexValue? c).map (16 * n + ·)) 0
  if code.isValidChar then some (Char.ofNat code) else none

/-- May a character stand unescaped in a text on one line? -/
def isTextChar (c : Char) : Bool :=
  c == '\t' || (0x20 ≤ c.toNat && c.toNat ≠ 0x7f)

/-- Reads a text up to the closing double quote. -/
def readBasic : Text → Option (Text × Text)
  | [] => none
  | '"' :: r => some ([], r)
  | '\\' :: 'b' :: r => (readBasic r).map fun p => ('\x08' :: p.1, p.2)
  | '\\' :: 't' :: r => (readBasic r).map fun p => ('\t' :: p.1, p.2)
  | '\\' :: 'n' :: r => (readBasic r).map fun p => ('\n' :: p.1, p.2)
  | '\\' :: 'f' :: r => (readBasic r).map fun p => ('\x0c' :: p.1, p.2)
  | '\\' :: 'r' :: r => (readBasic r).map fun p => ('\r' :: p.1, p.2)
  | '\\' :: '"' :: r => (readBasic r).map fun p => ('"' :: p.1, p.2)
  | '\\' :: '\\' :: r => (readBasic r).map fun p => ('\\' :: p.1, p.2)
  | '\\' :: 'u' :: a :: b :: c :: d :: r =>
    match hexChar? [a, b, c, d] with
    | some x => (readBasic r).map fun p => (x :: p.1, p.2)
    | none => none
  | '\\' :: 'U' :: a :: b :: c :: d :: e :: f :: g :: h :: r =>
    match hexChar? [a, b, c, d, e, f, g, h] with
    | some x => (readBasic r).map fun p => (x :: p.1, p.2)
    | none => none
  | '\\' :: _ => none
  | c :: r =>
    if isTextChar c then (readBasic r).map fun p => (c :: p.1, p.2) else none

/-- Reads a text of several lines up to the closing quotes. Behind a backslash
at the end of a line, white space is skipped. -/
def readBasicLines : (skipping : Bool) → Text → Option (Text × Text)
  | _, [] => none
  | true, ' ' :: r => readBasicLines true r
  | true, '\t' :: r => readBasicLines true r
  | true, '\n' :: r => readBasicLines true r
  | true, '\r' :: '\n' :: r => readBasicLines true r
  | _, '"' :: '"' :: '"' :: '"' :: '"' :: r => some (['"', '"'], r)
  | _, '"' :: '"' :: '"' :: '"' :: r => some (['"'], r)
  | _, '"' :: '"' :: '"' :: r => some ([], r)
  | _, '\r' :: '\n' :: r =>
    (readBasicLines false r).map fun p => ('\n' :: p.1, p.2)
  | _, '\n' :: r => (readBasicLines false r).map fun p => ('\n' :: p.1, p.2)
  | _, '\\' :: 'b' :: r =>
    (readBasicLines false r).map fun p => ('\x08' :: p.1, p.2)
  | _, '\\' :: 't' :: r =>
    (readBasicLines false r).map fun p => ('\t' :: p.1, p.2)
  | _, '\\' :: 'n' :: r =>
    (readBasicLines false r).map fun p => ('\n' :: p.1, p.2)
  | _, '\\' :: 'f' :: r =>
    (readBasicLines false r).map fun p => ('\x0c' :: p.1, p.2)
  | _, '\\' :: 'r' :: r =>
    (readBasicLines false r).map fun p => ('\r' :: p.1, p.2)
  | _, '\\' :: '"' :: r =>
    (readBasicLines false r).map fun p => ('"' :: p.1, p.2)
  | _, '\\' :: '\\' :: r =>
    (readBasicLines false r).map fun p => ('\\' :: p.1, p.2)
  | _, '\\' :: 'u' :: a :: b :: c :: d :: r =>
    match hexChar? [a, b, c, d] with
    | some x => (readBasicLines false r).map fun p => (x :: p.1, p.2)
    | none => none
  | _, '\\' :: 'U' :: a :: b :: c :: d :: e :: f :: g :: h :: r =>
    match hexChar? [a, b, c, d, e, f, g, h] with
    | some x => (readBasicLines false r).map fun p => (x :: p.1, p.2)
    | none => none
  | _, '\\' :: r =>
    if (lineFeed? (r.dropWhile isBlank)).isSome then readBasicLines true r
    else none
  | _, c :: r =>
    if isTextChar c then
      (readBasicLines false r).map fun p => (c :: p.1, p.2)
    else none

/-- Reads a text up to the closing single quote. -/
def readLiteral : Text → Option (Text × Text)
  | [] => none
  | c :: r =>
    if c = '\x27' then some ([], r)
    else if isTextChar c then
      (readLiteral r).map fun p => (c :: p.1, p.2)
    else none

/-- The number of single quotes at the front of a text. -/
def quoteCount (t : Text) : Nat :=
  (t.takeWhile (· == '\x27')).length

/-- Reads a text of several lines up to the closing single quotes. -/
def readLiteralLines : Text → Option (Text × Text)
  | [] => none
  | '\r' :: '\n' :: r => (readLiteralLines r).map fun p => ('\n' :: p.1, p.2)
  | c :: r =>
    if c = '\x27' ∧ 2 ≤ quoteCount r then
      let extra := min 2 (quoteCount r - 2)
      some (List.replicate extra '\x27', r.drop (2 + extra))
    else if c = '\n' ∨ isTextChar c then
      (readLiteralLines r).map fun p => (c :: p.1, p.2)
    else none

/-- Drops the line end directly behind the opening quotes. -/
def dropFirstLine (t : Text) : Text :=
  (lineFeed? t).getD t

/-- Reads a quoted text. The result says whether it may span lines. -/
def readQuoted (t : Text) : Option ((Text × Bool) × Text) :=
  let one := fun p : Text × Text => ((p.1, false), p.2)
  let several := fun p : Text × Text => ((p.1, true), p.2)
  match t with
  | '"' :: '"' :: '"' :: r =>
    (readBasicLines false (dropFirstLine r)).map several
  | '"' :: r => (readBasic r).map one
  | c :: r =>
    if c = '\x27' then
      if 2 ≤ quoteCount r then
        (readLiteralLines (dropFirstLine (r.drop 2))).map several
      else (readLiteral r).map one
    else none
  | [] => none

/-! ## Keys -/

/-- A character of a bare key. -/
def isBareChar (c : Char) : Bool :=
  isAsciiWordChar c || c == '-'

/-- Reads one key, bare or quoted. -/
def readKey (t : Text) : Option (Text × Text) :=
  match t.takeWhile isBareChar with
  | [] =>
    match readQuoted t with
    | some ((key, false), r) => some (key, r)
    | _ => none
  | key => some (key, t.dropWhile isBareChar)

/-- Reads keys with dots between them, at most `fuel` of them. -/
def readDottedKey : (fuel : Nat) → Text → Option (List Text × Text)
  | 0, _ => none
  | fuel + 1, t =>
    match readKey t with
    | none => none
    | some (key, r) =>
      match r.dropWhile isBlank with
      | '.' :: r' =>
        (readDottedKey fuel (r'.dropWhile isBlank)).map fun p =>
          (key :: p.1, p.2)
      | r' => some ([key], r')

end Toml

end SourceMacros

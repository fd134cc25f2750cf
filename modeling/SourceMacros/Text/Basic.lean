/-!
# Texts

A text is the list of its characters (Unicode scalar values). Offsets into a
text are counted in UTF-8 bytes, so a text can be cut at a byte offset as well
as at a character. All operations here recurse on the characters.
-/

namespace SourceMacros

/-- A text, as the list of its characters. -/
abbrev Text := List Char

namespace Text

/-- The number of bytes a text takes in UTF-8. -/
def byteLength (t : Text) : Nat :=
  t.foldr (fun c n => c.utf8Size + n) 0

/-- The text from byte offset `n` on. An offset inside a character drops that
character. -/
def dropBytes : Nat → Text → Text
  | 0, t => t
  | _ + 1, [] => []
  | n + 1, c :: t => dropBytes (n + 1 - c.utf8Size) t

/-- The text in front of byte offset `n`. -/
def takeBytes : Nat → Text → Text
  | 0, _ => []
  | _ + 1, [] => []
  | n + 1, c :: t => c :: takeBytes (n + 1 - c.utf8Size) t

/-- What follows `front` in `t`, if `t` starts with it. -/
def after? : (front t : Text) → Option Text
  | [], t => some t
  | _ :: _, [] => none
  | a :: front, c :: t => if a = c then after? front t else none

/-- Does `t` start with `front`? -/
def startsWith (t front : Text) : Bool :=
  (after? front t).isSome

/-- Splits a text at every character that satisfies `p`; the characters found
are dropped. The result is never empty. -/
def splitWhere (p : Char → Bool) : Text → List Text
  | [] => [[]]
  | c :: t =>
    match splitWhere p t with
    | [] => [[]]
    | w :: ws => if p c then [] :: w :: ws else (c :: w) :: ws

/-- The texts one after the other with `sep` between them. -/
def joinWith (sep : Text) : List Text → Text
  | [] => []
  | [t] => t
  | t :: u :: ts => t ++ sep ++ joinWith sep (u :: ts)

/-- The lower-case ASCII letter for an upper-case one; any other character
is kept. -/
def asciiLower (c : Char) : Char :=
  if 'A' ≤ c ∧ c ≤ 'Z' then Char.ofNat (c.toNat + 32) else c

/-- Are two texts equal up to the case of ASCII letters? -/
def eqIgnoreAsciiCase (t u : Text) : Bool :=
  t.map asciiLower == u.map asciiLower

theorem byteLength_nil : byteLength [] = 0 := rfl

theorem byteLength_cons (c : Char) (t : Text) :
    byteLength (c :: t) = c.utf8Size + byteLength t := rfl

theorem byteLength_append (t u : Text) :
    byteLength (t ++ u) = byteLength t + byteLength u := by
  induction t with
  | nil => rw [List.nil_append, byteLength_nil, Nat.zero_add]
  | cons c t ih => rw [List.cons_append, byteLength_cons, byteLength_cons, ih, Nat.add_assoc]

/-- Cutting at a byte offset loses nothing. -/
theorem takeBytes_append_dropBytes (n : Nat) (t : Text) :
    takeBytes n t ++ dropBytes n t = t := by
  induction t generalizing n with
  | nil => cases n <;> rfl
  | cons c t ih =>
    cases n with
    | zero => rfl
    | succ n => simp [takeBytes, dropBytes, ih]

/-- `after?` finds exactly the ways to write a text with the given front. -/
theorem after?_eq_some_iff {front t rest : Text} :
    after? front t = some rest ↔ t = front ++ rest := by
  induction front generalizing t with
  | nil => simp [after?]
  | cons a front ih =>
    cases t with
    | nil => simp [after?]
    | cons c t =>
      by_cases h : a = c
      · simp [after?, h, ih]
      · simp [after?, h, Ne.symm h]

end Text

end SourceMacros

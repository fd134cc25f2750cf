import SourceMacros.Text.Basic

/-!
# Byte offsets

An offset counts the UTF-8 bytes in front of a place in a text. A text can be cut at an offset only
between two characters: `cut?` gives the two parts and `slice?` what lies between two offsets
(`slice?_eq_some_iff`), and there is no answer for an offset inside a character or beyond the end.

Texts may as well be compared by their bytes. No character is encoded like the beginning of another
one, so a text goes on with some front exactly if its bytes do (`bytes_isPrefix_iff`).
-/

namespace SourceMacros

namespace Text

/-- The bytes of a text in UTF-8. -/
def bytes (t : Text) : List UInt8 :=
  t.flatMap String.utf8EncodeChar

/-- Is there a place between two characters, or at an end, with `n` bytes in front of it? -/
def IsBoundary (t : Text) (n : Nat) : Prop :=
  ∃ front rest, t = front ++ rest ∧ byteLength front = n

/-- The parts in front of and behind offset `n`, if that is a boundary. -/
def cut? : Nat → Text → Option (Text × Text)
  | 0, t => some ([], t)
  | _ + 1, [] => none
  | n + 1, c :: t =>
    if c.utf8Size ≤ n + 1 then
      (cut? (n + 1 - c.utf8Size) t).map fun (front, rest) => (c :: front, rest)
    else none

/-- What lies between two offsets, if these are boundaries and in order. -/
def slice? (t : Text) (start stop : Nat) : Option Text :=
  (cut? stop t).bind fun (front, _) => (cut? start front).map fun (_, between) => between

theorem startsWith_iff_isPrefix {t front : Text} : t.startsWith front = true ↔ front <+: t := by
  rw [startsWith, Option.isSome_iff_exists]
  constructor
  · rintro ⟨rest, h⟩
    exact ⟨rest, (after?_eq_some_iff.1 h).symm⟩
  · rintro ⟨rest, h⟩
    exact ⟨rest, after?_eq_some_iff.2 h.symm⟩

/-! ## Lengths -/

theorem byteLength_eq_zero_iff {t : Text} : byteLength t = 0 ↔ t = [] := by
  constructor
  · intro h
    cases t with
    | nil => rfl
    | cons c t =>
      have hpos := c.utf8Size_pos
      rw [byteLength_cons] at h
      omega
  · rintro rfl
    exact byteLength_nil

theorem dropBytes_of_byteLength_le {n : Nat} {t : Text} (h : byteLength t ≤ n) :
    dropBytes n t = [] := by
  induction t generalizing n with
  | nil => cases n <;> rfl
  | cons c t ih =>
    have hpos := c.utf8Size_pos
    rw [byteLength_cons] at h
    cases n with
    | zero => omega
    | succ n =>
      rw [dropBytes]
      exact ih (by omega)

/-- Of two fronts of a text, the one with fewer bytes is a front of the other. -/
theorem isPrefix_of_byteLength_le {front front' rest rest' : Text}
    (h : front ++ rest = front' ++ rest') (hle : byteLength front ≤ byteLength front') :
    front <+: front' := by
  rcases List.append_eq_append_iff.1 h with ⟨between, hfront, -⟩ | ⟨between, hfront, -⟩
  · exact ⟨between, hfront.symm⟩
  · -- The other way round there is nothing in between.
    rw [hfront, byteLength_append] at hle
    have hbetween : between = [] := byteLength_eq_zero_iff.1 (by omega)
    exact ⟨[], by rw [hfront, hbetween, List.append_nil, List.append_nil]⟩

/-! ## Cutting at a boundary -/

theorem dropBytes_byteLength_append (front rest : Text) :
    dropBytes (byteLength front) (front ++ rest) = rest := by
  induction front with
  | nil => rw [byteLength_nil, List.nil_append, dropBytes]
  | cons c front ih =>
    obtain ⟨n, hn⟩ : ∃ n, c.utf8Size = n + 1 := Nat.exists_eq_add_one.2 c.utf8Size_pos
    rw [byteLength_cons, hn, Nat.add_right_comm, List.cons_append, dropBytes, hn,
      show n + byteLength front + 1 - (n + 1) = byteLength front by omega, ih]

theorem takeBytes_byteLength_append (front rest : Text) :
    takeBytes (byteLength front) (front ++ rest) = front := by
  have h := takeBytes_append_dropBytes (byteLength front) (front ++ rest)
  rw [dropBytes_byteLength_append] at h
  exact List.append_cancel_right h

theorem cut?_byteLength_append (front rest : Text) :
    cut? (byteLength front) (front ++ rest) = some (front, rest) := by
  induction front with
  | nil => rw [byteLength_nil, List.nil_append, cut?]
  | cons c front ih =>
    obtain ⟨n, hn⟩ : ∃ n, c.utf8Size = n + 1 := Nat.exists_eq_add_one.2 c.utf8Size_pos
    rw [byteLength_cons, hn, Nat.add_right_comm, List.cons_append, cut?, hn, if_pos (by omega),
      show n + byteLength front + 1 - (n + 1) = byteLength front by omega, ih]
    rfl

/-- A cut at a number of bytes gives a front of this length and the rest. -/
theorem eq_append_of_cut? {n : Nat} {t front rest : Text} (h : cut? n t = some (front, rest)) :
    t = front ++ rest ∧ byteLength front = n := by
  induction n, t using cut?.induct generalizing front with
  | case1 t =>
    simp only [cut?, Option.some.injEq, Prod.mk.injEq] at h
    obtain ⟨rfl, rfl⟩ := h
    exact ⟨rfl, rfl⟩
  | case2 n => cases h
  | case3 n c t hfits ih =>
    rw [cut?, if_pos hfits, Option.map_eq_some_iff] at h
    obtain ⟨⟨front, _⟩, hcut, heq⟩ := h
    simp only [Prod.mk.injEq] at heq
    obtain ⟨rfl, rfl⟩ := heq
    obtain ⟨rfl, hlen⟩ := ih hcut
    refine ⟨rfl, ?_⟩
    rw [byteLength_cons, hlen, Nat.add_sub_cancel' hfits]
  | case4 n c t hinside =>
    rw [cut?, if_neg hinside] at h
    cases h

/-- A cut is possible exactly behind a front, and is unique. -/
theorem cut?_eq_some_iff {n : Nat} {t front rest : Text} :
    cut? n t = some (front, rest) ↔ t = front ++ rest ∧ byteLength front = n := by
  constructor
  · exact eq_append_of_cut?
  · rintro ⟨rfl, rfl⟩
    exact cut?_byteLength_append front rest

/-- A slice is the part that has `start` bytes in front of it and ends behind `stop` bytes. -/
theorem slice?_eq_some_iff {t between : Text} {start stop : Nat} :
    slice? t start stop = some between ↔ ∃ front rest, t = front ++ between ++ rest ∧
      byteLength front = start ∧ byteLength (front ++ between) = stop := by
  simp only [slice?, Option.bind_eq_some_iff, Option.map_eq_some_iff, Prod.exists, cut?_eq_some_iff]
  constructor
  · rintro ⟨_, rest, ⟨rfl, hstop⟩, front, _, ⟨rfl, hstart⟩, rfl⟩
    exact ⟨front, rest, rfl, hstart, hstop⟩
  · rintro ⟨front, rest, rfl, hstart, hstop⟩
    exact ⟨front ++ between, rest, ⟨rfl, hstop⟩, front, between, ⟨rfl, hstart⟩, rfl⟩

/-! ## Bytes -/

theorem bytes_append (t u : Text) : bytes (t ++ u) = bytes t ++ bytes u :=
  List.flatMap_append

theorem length_bytes (t : Text) : (bytes t).length = byteLength t := by
  induction t with
  | nil => rfl
  | cons c t ih =>
    rw [bytes, List.flatMap_cons, List.length_append, String.length_utf8EncodeChar, byteLength_cons,
      ← ih]
    rfl

/-- The first character can be read off the bytes. -/
theorem utf8EncodeChar_append_inj {a c : Char} {xs ys : List UInt8}
    (h : String.utf8EncodeChar a ++ xs = String.utf8EncodeChar c ++ ys) : a = c ∧ xs = ys := by
  have hdecode := congrArg (fun bs => bs.toByteArray.utf8DecodeChar? 0) h
  simp only [List.toByteArray_append, ByteArray.utf8DecodeChar?_utf8EncodeChar_append,
    Option.some.injEq] at hdecode
  subst hdecode
  exact ⟨rfl, List.append_cancel_left h⟩

/-- Since no encoding is a front of another one, fronts of the bytes at the ends of characters are
fronts of the text. -/
theorem bytes_isPrefix_iff {front t : Text} : bytes front <+: bytes t ↔ front <+: t := by
  constructor
  · intro h
    induction front generalizing t with
    | nil => exact List.nil_prefix
    | cons a front ih =>
      obtain ⟨xs, hxs⟩ := h
      cases t with
      | nil =>
        have hnone : bytes (a :: front) = [] := (List.append_eq_nil_iff.1 hxs).1
        have hlen := length_bytes (a :: front)
        rw [hnone, List.length_nil] at hlen
        cases byteLength_eq_zero_iff.1 hlen.symm
      | cons c t =>
        simp only [bytes, List.flatMap_cons, List.append_assoc] at hxs
        obtain ⟨rfl, htail⟩ := utf8EncodeChar_append_inj hxs
        exact List.cons_prefix_cons.2 ⟨rfl, ih ⟨xs, htail⟩⟩
  · rintro ⟨rest, rfl⟩
    rw [bytes_append]
    exact List.prefix_append _ _

/-- The bytes of a slice are those from `start` to `stop`. -/
theorem bytes_of_slice? {t between : Text} {start stop : Nat}
    (h : slice? t start stop = some between) :
    bytes between = ((bytes t).take stop).drop start := by
  obtain ⟨front, rest, rfl, rfl, rfl⟩ := slice?_eq_some_iff.1 h
  rw [bytes_append, ← length_bytes, ← length_bytes, List.take_left, bytes_append, List.drop_left]

end Text

end SourceMacros

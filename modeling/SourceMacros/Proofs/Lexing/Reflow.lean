import Mathlib.Data.List.Find
import SourceMacros.Proofs.Lexing.Relexing
import SourceMacros.Proofs.Lexing.Shortcuts
import SourceMacros.Proofs.Text.Layout

/-!
# Rules on a text in another layout

White space at the ends of lines is taken out of a text, without regard to its tokens. At every
solid character each rule still finds what it found before, only that a string over several lines
may have lost white space (`LexRule.scan_alike`).

Nothing moves the end of a lexeme, for two reasons. A rule that finds a lexeme without white space
looks only at the run of characters up to the next white space, and this run is the same
(`LexRule.ReadsSolid`). Inside comments and strings a line feed stays wherever characters go, so
what stands on both sides of them never meets: neither does the mark that ends a comment come about,
nor does a backslash get to escape anything but a line feed.
-/

namespace SourceMacros

open Text (isWhiteSpace isSolid Relaid EndsLine)

/-! ## Lexemes with less white space -/

/-- The same text, or one over several lines that has lost white space. -/
def Text.Reflowed (t u : Text) : Prop :=
  u = t ∨ ('\n' ∈ t ∧ u.Sublist t ∧ u.filter isSolid = t.filter isSolid)

namespace Text.Reflowed

variable {t u : Text} {c : Char}

theorem keep (c : Char) (h : Reflowed t u) : Reflowed (c :: t) (c :: u) := by
  rcases h with rfl | ⟨hfeed, hsub, hsolid⟩
  · exact .inl rfl
  · refine .inr ⟨List.mem_cons_of_mem c hfeed, hsub.cons_cons c, ?_⟩
    rw [List.filter_cons, List.filter_cons, hsolid]

/-- A blank in front may be left out if a line feed follows in what is kept. -/
theorem drop (hblank : isWhiteSpace c = true) (h : Reflowed t u) (hfeed : '\n' ∈ u) :
    Reflowed (c :: t) u := by
  have hsolid : (c :: t).filter isSolid = t.filter isSolid :=
    List.filter_cons_of_neg (by simp [isSolid, hblank])
  rcases h with rfl | ⟨hfeed', hsub, hsolid'⟩
  · exact .inr ⟨List.mem_cons_of_mem c hfeed, List.sublist_cons_self c _, hsolid.symm⟩
  · exact .inr ⟨List.mem_cons_of_mem c hfeed', hsub.cons c, hsolid'.trans hsolid.symm⟩

end Text.Reflowed

/-- The same token wherever it stands, except that a string over several lines may have lost white
space. -/
structure Token.Reflowed (t u : Token) : Prop where
  kind_eq : u.kind = t.kind
  lexeme : Text.Reflowed t.lexeme u.lexeme
  lexeme_eq : t.kind ≠ .string → u.lexeme = t.lexeme

theorem Token.Reflowed.refl (t : Token) : t.Reflowed t :=
  ⟨rfl, .inl rfl, fun _ => rfl⟩

/-! ## Characters of solid lexemes -/

theorem isSolid_of_toNat {c : Char} (hl : 33 ≤ c.toNat) (hu : c.toNat ≤ 126) :
    isSolid c = true := by
  simp only [isSolid, isWhiteSpace, Text.inRanges, Text.whiteSpaceRanges, List.any_cons,
    List.any_nil]
  simp
  omega

theorem isSolid_of_isAsciiWordChar (c : Char) (h : isAsciiWordChar c = true) :
    isSolid c = true := by
  simp only [isAsciiWordChar, isAsciiLetter, isAsciiDigit, Bool.or_eq_true, Bool.and_eq_true,
    decide_eq_true_eq, beq_iff_eq, Char.le_def, UInt32.le_iff_toNat_le] at h
  rcases h with ((⟨hl, hu⟩ | ⟨hl, hu⟩) | ⟨hl, hu⟩) | rfl
  · exact isSolid_of_toNat (Nat.le_trans (by decide) hl) (Nat.le_trans hu (by decide))
  · exact isSolid_of_toNat (Nat.le_trans (by decide) hl) (Nat.le_trans hu (by decide))
  · exact isSolid_of_toNat (Nat.le_trans (by decide) hl) (Nat.le_trans hu (by decide))
  · decide

theorem isSolid_of_isAsciiDigit (c : Char) (h : isAsciiDigit c = true) : isSolid c = true :=
  isSolid_of_isAsciiWordChar c (by simp [isAsciiWordChar, h])

theorem isSolid_of_isWordStart (c : Char) (h : isWordStart c = true) : isSolid c = true := by
  rw [isWordStart, Bool.or_eq_true, Bool.and_eq_true] at h
  rcases h with h | ⟨-, h⟩
  · refine isSolid_of_isAsciiWordChar c ?_
    rw [Bool.or_eq_true] at h
    rcases h with h | h <;> simp [isAsciiWordChar, h]
  · exact h

theorem isSolid_of_isWordContinue (c : Char) (h : isWordContinue c = true) :
    isSolid c = true := by
  rw [isWordContinue, Bool.or_eq_true] at h
  rcases h with h | h
  · exact isSolid_of_isWordStart c h
  · exact isSolid_of_isAsciiDigit c h

/-! ## Runs of solid characters -/

section SolidRuns

variable {p q : Char → Bool}

theorem takeWhile_takeWhile_of_imp (h : ∀ c, p c = true → q c = true) (t : Text) :
    (t.takeWhile q).takeWhile p = t.takeWhile p := by
  rw [List.takeWhile_takeWhile]
  congr 1
  funext c
  by_cases hp : p c = true
  · simp [hp, h c hp]
  · simp [hp]

/-- Inside the run of a weaker condition, the rest behind a run is cut off where the text is. -/
theorem dropWhile_takeWhile_of_imp (h : ∀ c, p c = true → q c = true) (t : Text) :
    (t.takeWhile q).dropWhile p = (t.dropWhile p).takeWhile q := by
  induction t with
  | nil => rfl
  | cons c t ih =>
    by_cases hp : p c = true
    · rw [List.takeWhile_cons_of_pos (h c hp), List.dropWhile_cons_of_pos hp,
        List.dropWhile_cons_of_pos hp, ih]
    · rw [List.dropWhile_cons_of_neg hp]
      by_cases hq : q c = true
      · rw [List.takeWhile_cons_of_pos hq, List.dropWhile_cons_of_neg hp]
      · rw [List.takeWhile_cons_of_neg hq, List.dropWhile_nil]

/-- Whether a solid text stands in front is seen in the solid run alone. -/
theorem startsWith_takeWhile {front : Text} (h : ∀ c ∈ front, p c = true) (t : Text) :
    Text.startsWith (t.takeWhile p) front = t.startsWith front := by
  rw [Bool.eq_iff_iff, Text.startsWith_iff_isPrefix, Text.startsWith_iff_isPrefix]
  constructor
  · exact fun hfront => hfront.trans (List.takeWhile_prefix p)
  · rintro ⟨rest, rfl⟩
    rw [List.takeWhile_append_of_pos h]
    exact List.prefix_append _ _

end SolidRuns

/-- The fraction of a number is seen in the solid run alone. -/
theorem fraction_takeWhile_isSolid (t : Text) : fraction (t.takeWhile isSolid) = fraction t := by
  unfold fraction
  split
  · next c u hrun =>
    -- The run starts with a point and a character, so the text does.
    obtain ⟨rest, hrest⟩ := List.takeWhile_prefix isSolid (l := t)
    rw [hrun] at hrest
    subst hrest
    have hword := takeWhile_takeWhile_of_imp isSolid_of_isAsciiWordChar (c :: u ++ rest)
    rw [List.cons_append, List.takeWhile_cons_of_pos (by decide)] at hrun
    rw [(List.cons.inj hrun).2] at hword
    simp only [List.cons_append, hword]
  · next hnone =>
    split
    · next c u =>
      split
      · next hdigit =>
        rw [List.takeWhile_cons_of_pos (by decide),
          List.takeWhile_cons_of_pos (isSolid_of_isAsciiDigit c hdigit)] at hnone
        exact absurd rfl (hnone _ _)
      · rfl
    · rfl

/-! ## Rules that look no further than the next white space -/

namespace LexRule

/-- At a solid character the rule looks at the run up to the next white space and no further. -/
def ReadsSolid (r : LexRule) : Prop :=
  ∀ c t, isSolid c = true → r.scan (c :: t.takeWhile isSolid) = r.scan (c :: t)

theorem find?_startsWith_takeWhile_isSolid {texts : List Text}
    (h : texts.all (·.all isSolid) = true) {c : Char} (hc : isSolid c = true) (t : Text) :
    texts.find? (Text.startsWith (c :: t.takeWhile isSolid) ·)
      = texts.find? (Text.startsWith (c :: t) ·) := by
  refine List.find?_congr fun text hmem => ?_
  have hsolid : ∀ d ∈ text, isSolid d = true := List.all_eq_true.1 (List.all_eq_true.1 h text hmem)
  rw [← List.takeWhile_cons_of_pos hc]
  exact startsWith_takeWhile hsolid (c :: t)

theorem tag_readsSolid : tag.ReadsSolid := by
  intro c t hc
  have htags : tags.all (·.all isSolid) = true := by decide
  have hfind := find?_startsWith_takeWhile_isSolid htags hc t
  simp only [scan, scanOneOf, hfind]

/-- A variable name is seen in the solid run alone, since no word goes on over white space. -/
theorem variableName_readsSolid : variableName.ReadsSolid := by
  intro c t hc
  simp only [scan]
  unfold scanVariable
  split
  · next d u heq =>
    obtain ⟨rest, hrest⟩ := List.takeWhile_prefix isSolid (l := t)
    obtain ⟨rfl, hrun⟩ := List.cons.inj heq
    rw [hrun] at hrest
    subst hrest
    have hword := takeWhile_takeWhile_of_imp isSolid_of_isWordContinue (d :: u ++ rest)
    rw [hrun] at hword
    simp only [List.cons_append, hword]
  · next hnone =>
    split
    · next d u heq =>
      obtain ⟨rfl, rfl⟩ := List.cons.inj heq
      split
      · next hstart =>
        rw [List.takeWhile_cons_of_pos (isSolid_of_isWordStart d hstart)] at hnone
        exact absurd rfl (hnone _ _)
      · rfl
    · rfl

theorem number_readsSolid : number.ReadsSolid := by
  intro c t hc
  have hwhole := takeWhile_takeWhile_of_imp isSolid_of_isAsciiWordChar (c :: t)
  have hbehind := dropWhile_takeWhile_of_imp isSolid_of_isAsciiWordChar (c :: t)
  rw [List.takeWhile_cons_of_pos hc] at hwhole hbehind
  simp only [scan, scanNumber, hwhole, hbehind, fraction_takeWhile_isSolid]

theorem word_readsSolid : word.ReadsSolid := by
  intro c t hc
  have hrun := takeWhile_takeWhile_of_imp isSolid_of_isWordContinue (c :: t)
  rw [List.takeWhile_cons_of_pos hc] at hrun
  simp only [scan, scanWord, hrun]

theorem punctuation_readsSolid : punctuation.ReadsSolid := by
  intro c t hc
  have hoperators : operators.all (·.all isSolid) = true := by decide
  have hfind := find?_startsWith_takeWhile_isSolid hoperators hc t
  simp only [scan, scanPunctuation, hfind]
  cases operators.find? (Text.startsWith (c :: t) ·) <;> rfl

end LexRule

/-! ## What a rule finds in the new text -/

/-- A block comment is closed in a text that is laid out anew as it was before, and what follows is
laid out anew. The end of a comment holds no white space, so none of it is lost. -/
theorem throughBlockEnd_of_relaid {t u body : Text} (h : Relaid t u)
    (hbody : throughBlockEnd t = some body) :
    ∃ body' rest rest', throughBlockEnd u = some body' ∧ t = body ++ rest ∧ u = body' ++ rest' ∧
      Relaid rest rest' := by
  induction t using throughBlockEnd.induct generalizing u body with
  | case1 => cases hbody
  | case2 t =>
    simp only [throughBlockEnd, Option.some.injEq] at hbody
    subst hbody
    obtain ⟨u, rfl, hstar⟩ := h.uncons (by decide)
    obtain ⟨u, rfl, hslash⟩ := hstar.uncons (by decide)
    exact ⟨_, t, u, rfl, rfl, rfl, hslash⟩
  | case3 c t hopen ih =>
    rw [throughBlockEnd.eq_3 _ _ hopen] at hbody
    obtain ⟨inner, hinner, rfl⟩ := Option.map_eq_some_iff.1 hbody
    cases h with
    | @keep _ u _ h =>
      obtain ⟨inner', rest, rest', hinner', rfl, rfl, hrest⟩ := ih h hinner
      -- A slash behind the character in the new text stood there before.
      have hopen' : ∀ v, c = '*' → inner' ++ rest' = '/' :: v → False := by
        rintro v rfl hslash
        rw [hslash] at h
        obtain ⟨w, hw, -⟩ := h.uncons_right (by decide)
        exact hopen w rfl hw
      refine ⟨c :: inner', rest, rest', ?_, rfl, rfl, hrest⟩
      rw [throughBlockEnd.eq_3 _ _ hopen', hinner', Option.map_some]
    | drop _ h _ =>
      obtain ⟨inner', rest, rest', hinner', rfl, rfl, hrest⟩ := ih h hinner
      exact ⟨inner', rest, rest', hinner', rfl, rfl, hrest⟩

/-- A literal is closed in a text that is laid out anew as it was before, and what follows is laid
out anew. The body is reflowed: a backslash may lose the blanks that it escaped, but then it stands
at the end of a line and escapes the line feed. -/
theorem throughQuote_of_relaid {quote : Char} {t u body : Text} (hquote : isSolid quote = true)
    (hback : quote ≠ '\\') (h : Relaid t u) (hbody : throughQuote quote t = some body) :
    ∃ body' rest rest', throughQuote quote u = some body' ∧ t = body ++ rest ∧
      u = body' ++ rest' ∧ Relaid rest rest' ∧ Text.Reflowed body body' := by
  have hfeed : ∀ v, throughQuote quote ('\n' :: v) = (throughQuote quote v).map ('\n' :: ·) := by
    intro v
    have hne : ¬ '\n' = quote := by
      rintro rfl
      cases hquote
    rw [throughQuote_cons (by decide), if_neg hne]
  -- Where white space is dropped, the new text goes on with a line feed, which belongs to the body.
  have hline : ∀ {v body'}, EndsLine v → throughQuote quote v = some body' →
      ∃ w inner, v = '\n' :: w ∧ throughQuote quote w = some inner ∧ body' = '\n' :: inner := by
    intro v body' hend hv
    rcases hend.cases with rfl | ⟨w, rfl⟩
    · cases hv
    · rw [hfeed] at hv
      obtain ⟨inner, hinner, rfl⟩ := Option.map_eq_some_iff.1 hv
      exact ⟨w, inner, rfl, hinner, rfl⟩
  fun_induction throughQuote quote t generalizing u body with
  | case1 => cases hbody
  | case2 => cases hbody
  | case3 c t ih =>
    obtain ⟨inner, hinner, rfl⟩ := Option.map_eq_some_iff.1 hbody
    obtain ⟨u, rfl, htail⟩ := h.uncons (by decide)
    cases htail with
    | keep _ hinside =>
      obtain ⟨inner', rest, rest', hinner', rfl, rfl, hrest, hsame⟩ := ih hinside hinner
      refine ⟨'\\' :: c :: inner', rest, rest', ?_, rfl, rfl, hrest, (hsame.keep c).keep _⟩
      rw [throughQuote_escape, hinner', Option.map_some]
    | drop hblank hinside hend =>
      obtain ⟨inner', rest, rest', hinner', rfl, rfl, hrest, hsame⟩ := ih hinside hinner
      obtain ⟨w, lines, hw, hlines, rfl⟩ := hline hend hinner'
      -- Now the backslash escapes this line feed.
      refine ⟨'\\' :: '\n' :: lines, rest, rest', ?_, rfl, rfl, hrest, ?_⟩
      · rw [hw, throughQuote_escape, hlines, Option.map_some]
      · exact (hsame.drop hblank List.mem_cons_self).keep _
  | case4 t hsingle hpair =>
    simp only [Option.some.injEq] at hbody
    subst hbody
    obtain ⟨u, rfl, htail⟩ := h.uncons (by simpa [isSolid] using hquote)
    refine ⟨[quote], t, u, ?_, rfl, rfl, htail, .inl rfl⟩
    rw [throughQuote_cons hback, if_pos rfl]
  | case5 c t hsingle hpair hne ih =>
    obtain ⟨inner, hinner, rfl⟩ := Option.map_eq_some_iff.1 hbody
    have hc := ne_backslash_of_forall hsingle hpair
    cases h with
    | keep _ h =>
      obtain ⟨inner', rest, rest', hinner', rfl, rfl, hrest, hsame⟩ := ih h hinner
      refine ⟨c :: inner', rest, rest', ?_, rfl, rfl, hrest, hsame.keep c⟩
      rw [throughQuote_cons hc, if_neg hne, hinner', Option.map_some]
    | drop hblank h hend =>
      obtain ⟨inner', rest, rest', hinner', rfl, rfl, hrest, hsame⟩ := ih h hinner
      obtain ⟨w, lines, -, -, rfl⟩ := hline hend hinner'
      exact ⟨_, rest, rest', hinner', rfl, rfl, hrest, hsame.drop hblank List.mem_cons_self⟩

/-- What a rule says about two texts: it declines both, or it finds lexemes of one kind, the same
up to layout, and behind them the texts again differ in layout only. Nothing is said of a construct
that is never closed. -/
inductive Scan.Alike (t u : Text) : Scan → Scan → Prop
  | declined : Alike t u .declined .declined
  | found {kind : TokenKind} {l l' rest rest' : Text} (ht : t = l ++ rest) (hu : u = l' ++ rest')
      (hrest : Relaid rest rest') (hnil : l' = [] ↔ l = [])
      (htoken : kind.isTrivia = true ∨ Token.Reflowed (.synthetic kind l) (.synthetic kind l')) :
      Alike t u (.found kind l) (.found kind l')
  | unterminated (what : OpenConstruct) (s : Scan) : Alike t u (.unterminated what) s

namespace LexRule

variable {c : Char} {t u : Text}

/-- A rule that sees only the solid run says the same about a text that is laid out anew. -/
theorem ReadsSolid.alike {r : LexRule} (hr : r.ReadsSolid) (hc : isSolid c = true)
    (h : Relaid t u) : Scan.Alike (c :: t) (c :: u) (r.scan (c :: t)) (r.scan (c :: u)) := by
  have heq : r.scan (c :: u) = r.scan (c :: t) := by
    rw [← hr c u hc, h.takeWhile_isSolid, hr c t hc]
  rw [heq]
  cases hscan : r.scan (c :: t) with
  | declined => exact .declined
  | unterminated what => exact .unterminated what _
  | found kind l =>
    have hrun : l <+: (c :: t).takeWhile isSolid := by
      rw [List.takeWhile_cons_of_pos hc]
      exact r.scan_isPrefix (by rw [hr c t hc, hscan])
    have hsolid : ∀ d ∈ l, isWhiteSpace d = false := by
      intro d hd
      simpa [isSolid] using List.mem_takeWhile_imp (hrun.subset hd)
    obtain ⟨rest, hrest⟩ := r.scan_isPrefix hscan
    obtain ⟨rest', hrest'⟩ := r.scan_isPrefix (heq.trans hscan)
    have hboth : Relaid (l ++ rest) (l ++ rest') := by
      rw [hrest, hrest']
      exact h.keep c
    exact .found hrest.symm hrest'.symm (hboth.of_append hsolid) Iff.rfl (.inr (.refl _))

theorem scanWhitespace_alike (hc : isSolid c = true) :
    Scan.Alike (c :: t) (c :: u) (scanWhitespace (c :: t)) (scanWhitespace (c :: u)) := by
  have hblank : ¬ isWhiteSpace c = true := by simpa [isSolid] using hc
  have hnone : ∀ v, scanWhitespace (c :: v) = .declined := by
    intro v
    simp only [scanWhitespace, List.takeWhile_cons_of_neg hblank]
  rw [hnone, hnone]
  exact .declined

/-- Literals at the front of two texts that differ in layout are reflowed, or not closed in
either. -/
theorem scanString_alike (hc : isSolid c = true) (h : Relaid t u) :
    Scan.Alike (c :: t) (c :: u) (scanString (c :: t)) (scanString (c :: u)) := by
  simp only [scanString]
  by_cases hquote : (c == '"' || c == '\x27') = true
  · rw [if_pos hquote, if_pos hquote]
    have hback : c ≠ '\\' := by
      rintro rfl
      cases hquote
    cases hbody : throughQuote c t with
    | none => exact .unterminated _ _
    | some body =>
      obtain ⟨body', rest, rest', hbody', rfl, rfl, hrest, hsame⟩ :=
        throughQuote_of_relaid hc hback h hbody
      simp only [hbody']
      refine .found rfl rfl hrest (by simp) (.inr ⟨rfl, hsame.keep c, ?_⟩)
      exact fun hkind => absurd rfl hkind
  · rw [if_neg hquote, if_neg hquote]
    exact .declined

/-- A comment up to the end of its line. -/
theorem lineComment_alike (front : Text) (hne : front ≠ []) (h : Relaid t u) :
    Scan.Alike (front ++ t) (front ++ u) (.found .comment (front ++ t.takeWhile (· != '\n')))
      (.found .comment (front ++ u.takeWhile (· != '\n'))) := by
  refine .found ?_ ?_ h.dropLine (by simp [hne]) (.inl rfl)
  · rw [List.append_assoc, List.takeWhile_append_dropWhile]
  · rw [List.append_assoc, List.takeWhile_append_dropWhile]

theorem scanComment_slash (hblock : ∀ v, t ≠ '*' :: v) (hline : ∀ v, t ≠ '/' :: v) :
    scanComment ('/' :: t) = .declined := by
  unfold scanComment
  split
  · next v heq => exact absurd (List.cons.inj heq).2 (hblock v)
  · next v heq => exact absurd (List.cons.inj heq).2 (hline v)
  · rfl
  · next heq => cases heq
  · rfl

/-- Comments at the front of two texts that differ in layout are alike. What stands directly behind
the first character decides on the form. -/
theorem scanComment_alike (h : Relaid t u) :
    Scan.Alike (c :: t) (c :: u) (scanComment (c :: t)) (scanComment (c :: u)) := by
  -- What stands directly behind the first character decides, and it stands there in both texts.
  have hsame : ∀ d, isWhiteSpace d = false → (∀ v, t ≠ d :: v) → ∀ v, u ≠ d :: v := by
    rintro d hd hnot v rfl
    obtain ⟨w, hw, -⟩ := h.uncons_right hd
    exact hnot w hw
  by_cases hslash : c = '/'
  · subst hslash
    by_cases hblock : ∃ v, t = '*' :: v
    · obtain ⟨t, rfl⟩ := hblock
      obtain ⟨u, rfl, htail⟩ := h.uncons (by decide)
      simp only [scanComment]
      cases hbody : throughBlockEnd t with
      | none => exact .unterminated _ _
      | some body =>
        obtain ⟨body', rest, rest', hbody', rfl, rfl, hrest⟩ :=
          throughBlockEnd_of_relaid htail hbody
        simp only [hbody']
        exact .found rfl rfl hrest (by simp) (.inl rfl)
    · by_cases hline : ∃ v, t = '/' :: v
      · obtain ⟨t, rfl⟩ := hline
        obtain ⟨u, rfl, htail⟩ := h.uncons (by decide)
        exact lineComment_alike ['/', '/'] (by decide) htail
      · have hblock' : ∀ v, t ≠ '*' :: v := fun v hv => hblock ⟨v, hv⟩
        have hline' : ∀ v, t ≠ '/' :: v := fun v hv => hline ⟨v, hv⟩
        rw [scanComment_slash hblock' hline', scanComment_slash
          (hsame '*' (by decide) hblock') (hsame '/' (by decide) hline')]
        exact .declined
  · by_cases hhash : c = '#'
    · subst hhash
      by_cases hbracket : ∃ v, t = '[' :: v
      · obtain ⟨t, rfl⟩ := hbracket
        obtain ⟨u, rfl, -⟩ := h.uncons (by decide)
        exact .declined
      · have hbracket' : ∀ v, t ≠ '[' :: v := fun v hv => hbracket ⟨v, hv⟩
        rw [scanComment_hash hbracket', scanComment_hash (hsame '[' (by decide) hbracket')]
        exact lineComment_alike ['#'] (by decide) h
    · rw [scanComment_of_ne hslash hhash, scanComment_of_ne hslash hhash]
      exact .declined

/-- At a solid character every rule of the host language says the same about both texts. -/
theorem scan_alike {r : LexRule} (hr : r ∈ standard) (hc : isSolid c = true) (h : Relaid t u) :
    Scan.Alike (c :: t) (c :: u) (r.scan (c :: t)) (r.scan (c :: u)) := by
  cases r with
  | tag => exact tag_readsSolid.alike hc h
  | comment => exact scanComment_alike h
  | string => exact scanString_alike hc h
  | variableName => exact variableName_readsSolid.alike hc h
  | number => exact number_readsSolid.alike hc h
  | word => exact word_readsSolid.alike hc h
  | whitespace => exact scanWhitespace_alike hc
  | punctuation => exact punctuation_readsSolid.alike hc h
  | literal text kind priority => simp [standard] at hr

end LexRule

end SourceMacros

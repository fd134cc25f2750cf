import SourceMacros.Proofs.Lexing.Lossless

/-!
# Rules look at little of a text

A lexing rule that finds a lexeme in a text finds it in every part of the text that still holds the
lexeme (`LexRule.scan_found_of_isPrefix`), and a rule that declines a text declines what is left of
it when its end is cut off (`LexRule.scan_declined_of_isPrefix`). There is one exception: a hash
sign is declined as the start of a comment only because of the square bracket behind it, so the
bracket must not be cut off.
-/

namespace SourceMacros

/-! ## Runs and closing marks -/

/-- A run is still the longest in a shorter text that holds all of it. -/
theorem takeWhile_of_isPrefix {p : Char → Bool} {t t' run : Text} (h : t.takeWhile p = run)
    (hrun : run <+: t') (ht : t' <+: t) : t'.takeWhile p = run := by
  induction t generalizing t' run with
  | nil =>
    rw [List.prefix_nil.1 ht]
    exact h
  | cons c t ih =>
    cases t' with
    | nil =>
      rw [List.prefix_nil.1 hrun, List.takeWhile_nil]
    | cons d t' =>
      obtain ⟨rfl, htail⟩ := List.cons_prefix_cons.1 ht
      by_cases hp : p d = true
      · rw [List.takeWhile_cons_of_pos hp] at h ⊢
        subst h
        rw [ih rfl (List.cons_prefix_cons.1 hrun).2 htail]
      · rw [List.takeWhile_cons_of_neg hp] at h ⊢
        exact h

/-- The end of a block comment is found in a shorter text that holds it, and not earlier. -/
theorem throughBlockEnd_of_isPrefix {t t' body : Text} (h : throughBlockEnd t = some body)
    (hbody : body <+: t') (ht : t' <+: t) : throughBlockEnd t' = some body := by
  induction t using throughBlockEnd.induct generalizing t' body with
  | case1 => cases h
  | case2 t =>
    simp only [throughBlockEnd, Option.some.injEq] at h
    subst h
    obtain ⟨rest, rfl⟩ := hbody
    rfl
  | case3 c t hne ih =>
    rw [throughBlockEnd.eq_3 _ _ hne] at h
    obtain ⟨inner, hinner, rfl⟩ := Option.map_eq_some_iff.1 h
    cases t' with
    | nil => cases List.prefix_nil.1 hbody
    | cons d t' =>
      obtain ⟨rfl, htail⟩ := List.cons_prefix_cons.1 ht
      -- What is cut off cannot turn the character into the start of a closing mark.
      have hopen : ∀ u, d = '*' → t' = '/' :: u → False := by
        rintro u rfl rfl
        obtain ⟨rest, rfl⟩ := htail
        exact hne (u ++ rest) rfl rfl
      rw [throughBlockEnd.eq_3 _ _ hopen, ih hinner (List.cons_prefix_cons.1 hbody).2 htail]
      rfl

theorem throughQuote_escape (quote c : Char) (t : Text) :
    throughQuote quote ('\\' :: c :: t) = (throughQuote quote t).map ('\\' :: c :: ·) := by
  rw [throughQuote]

theorem throughQuote_cons {quote c : Char} (hc : c ≠ '\\') (t : Text) :
    throughQuote quote (c :: t)
      = if c = quote then some [c] else (throughQuote quote t).map (c :: ·) := by
  rw [throughQuote.eq_4]
  · exact fun hback _ => hc hback
  · exact fun _ _ hback _ => hc hback

/-- The last case of `throughQuote`: no backslash starts the text, be it alone or in an escape. -/
theorem ne_backslash_of_forall {c : Char} {t : Text} (hsingle : c = '\\' → t = [] → False)
    (hpair : ∀ d u, c = '\\' → t = d :: u → False) : c ≠ '\\' := by
  intro hc
  cases t with
  | nil => exact hsingle hc rfl
  | cons d u => exact hpair d u hc rfl

/-- The end of a literal is found in a shorter text that holds it, and not earlier. -/
theorem throughQuote_of_isPrefix {quote : Char} {t t' body : Text}
    (h : throughQuote quote t = some body) (hbody : body <+: t') (ht : t' <+: t) :
    throughQuote quote t' = some body := by
  fun_induction throughQuote quote t generalizing t' body with
  | case1 => cases h
  | case2 => cases h
  | case3 c t ih =>
    obtain ⟨inner, hinner, rfl⟩ := Option.map_eq_some_iff.1 h
    obtain ⟨rest, rfl⟩ := hbody
    have htail : inner ++ rest <+: t :=
      (List.cons_prefix_cons.1 (List.cons_prefix_cons.1 ht).2).2
    simp only [List.cons_append, throughQuote, ih hinner (List.prefix_append _ _) htail,
      Option.map_some]
  | case4 t hsingle hpair =>
    simp only [Option.some.injEq] at h
    subst h
    obtain ⟨rest, rfl⟩ := hbody
    have hquote := ne_backslash_of_forall hsingle hpair
    rw [List.cons_append, throughQuote_cons hquote, if_pos rfl]
  | case5 c t hsingle hpair hne ih =>
    obtain ⟨inner, hinner, rfl⟩ := Option.map_eq_some_iff.1 h
    obtain ⟨rest, rfl⟩ := hbody
    have hc := ne_backslash_of_forall hsingle hpair
    have htail : inner ++ rest <+: t := (List.cons_prefix_cons.1 ht).2
    rw [List.cons_append, throughQuote_cons hc, if_neg hne,
      ih hinner (List.prefix_append _ _) htail, Option.map_some]

/-- The fraction of a number is the same in a shorter text that holds all of it. -/
theorem fraction_of_isPrefix {t t' part : Text} (h : fraction t = part) (hpart : part <+: t')
    (ht : t' <+: t) : fraction t' = part := by
  unfold fraction at h
  split at h
  · next c t =>
    split at h
    · next hdigit =>
      have hrun : (c :: t).takeWhile isAsciiWordChar = c :: t.takeWhile isAsciiWordChar :=
        List.takeWhile_cons_of_pos (by simp [isAsciiWordChar, hdigit])
      subst h
      rw [hrun] at hpart ⊢
      obtain ⟨rest, rfl⟩ := hpart
      have hfound := takeWhile_of_isPrefix hrun (List.prefix_append _ rest)
        (List.cons_prefix_cons.1 ht).2
      simp only [List.cons_append] at hfound ⊢
      simp only [fraction, if_pos hdigit, hfound]
    · next hdigit =>
      subst h
      unfold fraction
      split
      -- What stands behind the point in the shorter text stands there in the longer one.
      · next d u =>
        obtain ⟨-, htail⟩ := List.cons_prefix_cons.1 ht
        obtain ⟨rfl, -⟩ := List.cons_prefix_cons.1 htail
        rw [if_neg hdigit]
      · rfl
  · next hnone =>
    subst h
    unfold fraction
    split
    · next d u =>
      obtain ⟨rest, rfl⟩ := ht
      exact absurd rfl (hnone d (u ++ rest))
    · rfl

/-! ## Fixed texts -/

theorem Text.startsWith_of_isPrefix {t t' front : Text} (ht : t' <+: t)
    (h : t'.startsWith front = true) : t.startsWith front = true :=
  startsWith_iff_isPrefix.2 ((startsWith_iff_isPrefix.1 h).trans ht)

/-- The first of some texts that stands in front is found in a shorter text that holds it, for those
before it stand in front of neither. -/
theorem find?_startsWith_of_isPrefix {texts : List Text} {t t' front : Text}
    (h : texts.find? (t.startsWith ·) = some front) (hfront : front <+: t') (ht : t' <+: t) :
    texts.find? (t'.startsWith ·) = some front := by
  obtain ⟨-, before, after, hsplit, hbefore⟩ := List.find?_eq_some_iff_append.1 h
  refine List.find?_eq_some_iff_append.2
    ⟨Text.startsWith_iff_isPrefix.2 hfront, before, after, hsplit, fun text hmem => ?_⟩
  have hnot := hbefore text hmem
  simp only [Bool.not_eq_true'] at hnot ⊢
  exact Bool.eq_false_iff.2 fun hstarts =>
    Bool.eq_false_iff.1 hnot (Text.startsWith_of_isPrefix ht hstarts)

theorem find?_startsWith_eq_none {texts : List Text} {t t' : Text}
    (h : texts.find? (t.startsWith ·) = none) (ht : t' <+: t) :
    texts.find? (t'.startsWith ·) = none := by
  rw [List.find?_eq_none] at h ⊢
  intro text hmem hstarts
  exact h text hmem (Text.startsWith_of_isPrefix ht hstarts)

namespace LexRule

/-! ## What is found in a part of a text -/

variable {kind : TokenKind} {t t' lexeme : Text}

/-- A rule for fixed texts finds in a shorter text what it found in the longer one, if that is all
there. -/
theorem scanOneOf_found_of_isPrefix {found : TokenKind} {texts : List Text}
    (h : scanOneOf kind texts t = .found found lexeme) (hfront : lexeme <+: t') (ht : t' <+: t) :
    scanOneOf kind texts t' = .found found lexeme := by
  unfold scanOneOf at h ⊢
  split at h
  · next front hfind =>
    simp only [Scan.found.injEq] at h
    obtain ⟨rfl, rfl⟩ := h
    simp only [find?_startsWith_of_isPrefix hfind hfront ht]
  · cases h

/-- A hash sign opens a comment unless a square bracket follows it. -/
theorem scanComment_hash {t : Text} (h : ∀ u, t ≠ '[' :: u) :
    scanComment ('#' :: t) = .found .comment ('#' :: t.takeWhile (· != '\n')) := by
  unfold scanComment
  split
  · next heq => cases heq
  · next heq => cases heq
  · next u heq => exact absurd (List.cons.inj heq).2 (h _)
  · next heq =>
    rw [← (List.cons.inj heq).2]
    rfl
  · next hother => exact absurd rfl (hother t)

/-- A comment is found in a shorter text that holds all of it. A hash sign alone is one, so nothing
has to follow it. -/
theorem scanComment_found_of_isPrefix (h : scanComment t = .found kind lexeme)
    (hfront : lexeme <+: t') (ht : t' <+: t) : scanComment t' = .found kind lexeme := by
  unfold scanComment at h
  split at h
  · split at h
    · next body hbody =>
      simp only [Scan.found.injEq] at h
      obtain ⟨rfl, rfl⟩ := h
      obtain ⟨rest, rfl⟩ := hfront
      have htail := (List.cons_prefix_cons.1 (List.cons_prefix_cons.1 ht).2).2
      simp only [List.cons_append, scanComment,
        throughBlockEnd_of_isPrefix hbody (List.prefix_append _ _) htail]
    · cases h
  · next u =>
    simp only [Scan.found.injEq] at h
    obtain ⟨rfl, hrun⟩ := h
    have hfound := takeWhile_of_isPrefix hrun hfront ht
    have hstart : ('/' :: '/' :: u).takeWhile (· != '\n')
      = '/' :: '/' :: u.takeWhile (· != '\n') := rfl
    rw [hstart] at hrun
    subst hrun
    obtain ⟨rest, rfl⟩ := hfront
    simp only [List.cons_append, scanComment, Scan.found.injEq, true_and]
    exact hfound
  · cases h
  · next u hbracket =>
    simp only [Scan.found.injEq] at h
    obtain ⟨rfl, hrun⟩ := h
    have hfound := takeWhile_of_isPrefix hrun hfront ht
    have hstart : ('#' :: u).takeWhile (· != '\n') = '#' :: u.takeWhile (· != '\n') := rfl
    rw [hstart] at hrun
    subst hrun
    obtain ⟨rest, rfl⟩ := hfront
    -- A bracket behind the hash sign would stand there in the longer text, too.
    have hopen : ∀ v, u.takeWhile (· != '\n') ++ rest ≠ '[' :: v := by
      intro v hv
      have htail : u.takeWhile (· != '\n') ++ rest <+: u := (List.cons_prefix_cons.1 ht).2
      rw [hv] at htail
      obtain ⟨more, rfl⟩ := htail
      exact hbracket (v ++ more) rfl
    rw [List.cons_append, scanComment_hash hopen]
    exact congrArg _ hfound
  · cases h

theorem scanString_found_of_isPrefix (h : scanString t = .found kind lexeme)
    (hfront : lexeme <+: t') (ht : t' <+: t) : scanString t' = .found kind lexeme := by
  unfold scanString at h
  split at h
  · cases h
  · next c t =>
    split at h
    · next hquote =>
      split at h
      · next body hbody =>
        simp only [Scan.found.injEq] at h
        obtain ⟨rfl, rfl⟩ := h
        obtain ⟨rest, rfl⟩ := hfront
        have htail := (List.cons_prefix_cons.1 ht).2
        simp only [List.cons_append, scanString, if_pos hquote,
          throughQuote_of_isPrefix hbody (List.prefix_append _ _) htail]
      · cases h
    · cases h

theorem scanVariable_found_of_isPrefix (h : scanVariable t = .found kind lexeme)
    (hfront : lexeme <+: t') (ht : t' <+: t) : scanVariable t' = .found kind lexeme := by
  unfold scanVariable at h
  split at h
  · next c t =>
    split at h
    · next hword =>
      simp only [Scan.found.injEq] at h
      obtain ⟨rfl, rfl⟩ := h
      have hrun : (c :: t).takeWhile isWordContinue = c :: t.takeWhile isWordContinue :=
        List.takeWhile_cons_of_pos (by simp [isWordContinue, hword])
      rw [hrun] at hfront ⊢
      obtain ⟨rest, rfl⟩ := hfront
      have htail := (List.cons_prefix_cons.1 ht).2
      have hfound := takeWhile_of_isPrefix hrun (List.prefix_append _ rest) htail
      simp only [List.cons_append] at hfound ⊢
      simp only [scanVariable, if_pos hword, hfound]
    · cases h
  · cases h

/-- A number is found in a shorter text that holds all of it, for a point that is cut off was
none of it. -/
theorem scanNumber_found_of_isPrefix (h : scanNumber t = .found kind lexeme)
    (hfront : lexeme <+: t') (ht : t' <+: t) : scanNumber t' = .found kind lexeme := by
  unfold scanNumber at h
  split at h
  · cases h
  · next c t =>
    split at h
    · next hdigit =>
      simp only [Scan.found.injEq] at h
      obtain ⟨rfl, rfl⟩ := h
      -- Both texts are the whole part and what is behind it.
      have hwhole := takeWhile_of_isPrefix rfl ((List.prefix_append _ _).trans hfront) ht
      have hsplit' := t'.takeWhile_append_dropWhile (p := isAsciiWordChar)
      have hsplit := (c :: t).takeWhile_append_dropWhile (p := isAsciiWordChar)
      rw [hwhole] at hsplit'
      rw [← hsplit'] at hfront
      have hpart := (List.prefix_append_right_inj _).1 hfront
      have hbehind : t'.dropWhile isAsciiWordChar <+: (c :: t).dropWhile isAsciiWordChar :=
        (List.prefix_append_right_inj ((c :: t).takeWhile isAsciiWordChar)).1
          (by rw [hsplit', hsplit]; exact ht)
      have hfraction := fraction_of_isPrefix rfl hpart hbehind
      cases t' with
      | nil =>
        rw [List.takeWhile_cons_of_pos (by simp [isAsciiWordChar, hdigit])] at hwhole
        cases hwhole
      | cons d t' =>
        obtain ⟨rfl, -⟩ := List.cons_prefix_cons.1 ht
        simp only [scanNumber, if_pos hdigit, hwhole, hfraction]
    · cases h

theorem scanWord_found_of_isPrefix (h : scanWord t = .found kind lexeme)
    (hfront : lexeme <+: t') (ht : t' <+: t) : scanWord t' = .found kind lexeme := by
  unfold scanWord at h
  split at h
  · cases h
  · next c t =>
    split at h
    · next hstart =>
      simp only [Scan.found.injEq] at h
      obtain ⟨rfl, rfl⟩ := h
      have hword := takeWhile_of_isPrefix rfl hfront ht
      cases t' with
      | nil =>
        rw [List.takeWhile_cons_of_pos (by simp [isWordContinue, hstart])] at hword
        cases hword
      | cons d t' =>
        obtain ⟨rfl, -⟩ := List.cons_prefix_cons.1 ht
        simp only [scanWord, if_pos hstart, hword]
    · cases h

theorem scanWhitespace_found_of_isPrefix (h : scanWhitespace t = .found kind lexeme)
    (hfront : lexeme <+: t') (ht : t' <+: t) : scanWhitespace t' = .found kind lexeme := by
  unfold scanWhitespace at h
  split at h
  · cases h
  · next c run hrun =>
    simp only [Scan.found.injEq] at h
    obtain ⟨rfl, rfl⟩ := h
    simp only [scanWhitespace, takeWhile_of_isPrefix hrun hfront ht]

theorem scanPunctuation_found_of_isPrefix (h : scanPunctuation t = .found kind lexeme)
    (hfront : lexeme <+: t') (ht : t' <+: t) : scanPunctuation t' = .found kind lexeme := by
  unfold scanPunctuation at h
  split at h
  · next op _ hfind =>
    simp only [Scan.found.injEq] at h
    obtain ⟨rfl, rfl⟩ := h
    simp only [scanPunctuation, find?_startsWith_of_isPrefix hfind hfront ht]
  · cases h
  · next c t hfind =>
    split at h
    · next hpunct =>
      simp only [Scan.found.injEq] at h
      obtain ⟨rfl, rfl⟩ := h
      have hnone := find?_startsWith_eq_none hfind ht
      obtain ⟨rest, rfl⟩ := hfront
      simp only [List.cons_append] at hnone ⊢
      simp only [scanPunctuation, hnone, if_pos hpunct]
    · cases h

/-- A lexeme is found wherever the text still holds it. -/
theorem scan_found_of_isPrefix (r : LexRule) (h : r.scan t = .found kind lexeme)
    (hfront : lexeme <+: t') (ht : t' <+: t) : r.scan t' = .found kind lexeme := by
  cases r with
  | tag => exact scanOneOf_found_of_isPrefix h hfront ht
  | comment => exact scanComment_found_of_isPrefix h hfront ht
  | string => exact scanString_found_of_isPrefix h hfront ht
  | variableName => exact scanVariable_found_of_isPrefix h hfront ht
  | number => exact scanNumber_found_of_isPrefix h hfront ht
  | word => exact scanWord_found_of_isPrefix h hfront ht
  | whitespace => exact scanWhitespace_found_of_isPrefix h hfront ht
  | punctuation => exact scanPunctuation_found_of_isPrefix h hfront ht
  | literal text found priority => exact scanOneOf_found_of_isPrefix h hfront ht

/-! ## What is declined stays declined -/

variable {c : Char}

theorem scanOneOf_declined_of_isPrefix {texts : List Text}
    (h : scanOneOf kind texts t = .declined) (ht : t' <+: t) :
    scanOneOf kind texts t' = .declined := by
  unfold scanOneOf at h ⊢
  split at h
  · cases h
  · next hfind => simp only [find?_startsWith_eq_none hfind ht]

/-- Cutting a text off makes a comment only of a hash sign in front of a bracket, and only if the
bracket goes. -/
theorem scanComment_declined_of_isPrefix (h : scanComment (c :: t) = .declined) (ht : t' <+: t)
    (hhash : c = '#' → t' ≠ []) : scanComment (c :: t') = .declined := by
  obtain ⟨rest, rfl⟩ := ht
  unfold scanComment
  split
  · next u heq =>
    obtain ⟨rfl, rfl⟩ := List.cons.inj heq
    simp only [List.cons_append, scanComment] at h
    split at h <;> cases h
  · next u heq =>
    obtain ⟨rfl, rfl⟩ := List.cons.inj heq
    cases h
  · rfl
  · next u hbracket heq =>
    obtain ⟨rfl, rfl⟩ := List.cons.inj heq
    -- The bracket that made the rule decline is still there.
    have hopen : ∀ v, t' ++ rest ≠ '[' :: v := by
      intro v hv
      cases t' with
      | nil => exact hhash rfl rfl
      | cons d u =>
        rw [List.cons_append, List.cons.injEq] at hv
        exact hbracket u (by rw [hv.1])
    rw [scanComment_hash hopen] at h
    cases h
  · rfl

theorem scanString_declined_of_isPrefix (h : scanString (c :: t) = .declined) :
    scanString (c :: t') = .declined := by
  simp only [scanString] at h ⊢
  split at h
  · split at h <;> cases h
  · next hquote => exact if_neg hquote

theorem scanVariable_declined_of_isPrefix (h : scanVariable (c :: t) = .declined)
    (ht : t' <+: t) : scanVariable (c :: t') = .declined := by
  obtain ⟨rest, rfl⟩ := ht
  unfold scanVariable
  split
  · next d u heq =>
    obtain ⟨rfl, rfl⟩ := List.cons.inj heq
    simp only [List.cons_append, scanVariable] at h
    split at h
    · cases h
    · next hstart => exact if_neg hstart
  · rfl

theorem scanNumber_declined_of_isPrefix (h : scanNumber (c :: t) = .declined) :
    scanNumber (c :: t') = .declined := by
  simp only [scanNumber] at h ⊢
  split at h
  · cases h
  · next hdigit => exact if_neg hdigit

theorem scanWord_declined_of_isPrefix (h : scanWord (c :: t) = .declined) :
    scanWord (c :: t') = .declined := by
  simp only [scanWord] at h ⊢
  split at h
  · cases h
  · next hstart => exact if_neg hstart

theorem scanWhitespace_declined_of_isPrefix (h : scanWhitespace (c :: t) = .declined) :
    scanWhitespace (c :: t') = .declined := by
  by_cases hblank : Text.isWhiteSpace c = true
  · simp only [scanWhitespace, List.takeWhile_cons_of_pos hblank] at h
    cases h
  · simp only [scanWhitespace, List.takeWhile_cons_of_neg hblank]

theorem scanPunctuation_declined_of_isPrefix (h : scanPunctuation (c :: t) = .declined)
    (ht : t' <+: t) : scanPunctuation (c :: t') = .declined := by
  unfold scanPunctuation at h
  split at h
  · cases h
  · next heq => cases heq
  · next d u hfind heq =>
    obtain ⟨rfl, rfl⟩ := List.cons.inj heq
    split at h
    · cases h
    · next hpunct =>
      have hnone := find?_startsWith_eq_none hfind ((List.prefix_cons_inj c).2 ht)
      simp only [scanPunctuation, hnone, if_neg hpunct]

/-- A declined text stays declined when its end is cut off, unless a hash sign is left alone. -/
theorem scan_declined_of_isPrefix (r : LexRule) (h : r.scan (c :: t) = .declined) (ht : t' <+: t)
    (hhash : c = '#' → t' ≠ []) : r.scan (c :: t') = .declined := by
  cases r with
  | tag => exact scanOneOf_declined_of_isPrefix h ((List.prefix_cons_inj c).2 ht)
  | comment => exact scanComment_declined_of_isPrefix h ht hhash
  | string => exact scanString_declined_of_isPrefix h
  | variableName => exact scanVariable_declined_of_isPrefix h ht
  | number => exact scanNumber_declined_of_isPrefix h
  | word => exact scanWord_declined_of_isPrefix h
  | whitespace => exact scanWhitespace_declined_of_isPrefix h
  | punctuation => exact scanPunctuation_declined_of_isPrefix h ht
  | literal text found priority =>
    exact scanOneOf_declined_of_isPrefix h ((List.prefix_cons_inj c).2 ht)

end LexRule

end SourceMacros

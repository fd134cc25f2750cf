import Mathlib.Data.List.Chain
import SourceMacros.Proofs.Text.BlankLines
import SourceMacros.Proofs.Text.Splitting

/-!
# The normal form of formatted text

Formatted text starts with no line feed, has no white space at the end of a line and no two blank
lines in a row, and ends with one line feed behind a character that is no white space
(`Text.Formatted`). Each pass of `format` brings one part of this about, and the passes behind it
keep it (`Text.formatted_format`). On a text that is formatted already no pass finds anything to do
(`Text.Formatted.format_eq`), so formatting twice is formatting once.
-/

namespace SourceMacros

namespace Text

variable {t u blanks rest : Text} {c : Char}

/-! ## No white space at the end of a line -/

/-- Directly in front of a line feed stands no white space but another line feed. -/
def Trimmed (t : Text) : Prop :=
  t.IsChain fun c d => d = '\n' → isWhiteSpace c = true → c = '\n'

/-- The text does not end in white space. -/
def EndsSolid (t : Text) : Prop :=
  ∀ c ∈ t.getLast?, isWhiteSpace c = false

/-- No line ends in white space if what stands in front of a line feed is solid or another line
feed. -/
theorem trimmed_iff :
    Trimmed t ↔ ∀ before c after, t = before ++ c :: '\n' :: after → isWhiteSpace c = true →
      c = '\n' := by
  rw [Trimmed, List.isChain_iff_forall_rel_of_append_cons_cons]
  constructor
  · intro h before c after ht hc
    exact h ht rfl hc
  · rintro h c d before after ht rfl hc
    exact h before c after ht hc

theorem trimmed_of_not_mem (h : '\n' ∉ t) : Trimmed t :=
  trimmed_iff.2 fun before c after ht _ => absurd (by simp [ht]) h

theorem Trimmed.of_isInfix (h : Trimmed t) (hu : u <:+: t) : Trimmed u :=
  List.IsChain.infix h hu

theorem Trimmed.eq_lineFeed (h : Trimmed (blanks ++ '\n' :: rest))
    (hblanks : ∀ c ∈ blanks, isWhiteSpace c = true) : ∀ c ∈ blanks, c = '\n' := by
  induction blanks with
  | nil => nofun
  | cons c blanks ih =>
    rw [List.forall_mem_cons] at hblanks
    rw [List.cons_append, Trimmed, List.isChain_cons] at h
    have hmore := ih h.2 hblanks.2
    refine List.forall_mem_cons.2 ⟨?_, hmore⟩
    -- What stands behind `c` is a line feed, be it a blank or not.
    cases blanks with
    | nil => exact h.1 '\n' rfl rfl hblanks.1
    | cons d blanks => exact h.1 d rfl (hmore d List.mem_cons_self) hblanks.1

theorem endsSolid_trimEnd (t : Text) : EndsSolid t.trimEnd := by
  intro c hc
  have hnot := List.head?_dropWhile_not isWhiteSpace t.reverse
  rw [trimEnd, List.getLast?_reverse] at hc
  rw [Option.mem_def.1 hc] at hnot
  simpa using hnot

theorem trimEnd_isPrefix (t : Text) : t.trimEnd <+: t := by
  obtain ⟨blanks, hsplit, -⟩ := exists_trimEnd t
  exact ⟨blanks, hsplit.symm⟩

theorem mem_head?_of_isPrefix (h : t <+: u) (hc : c ∈ t.head?) : c ∈ u.head? := by
  obtain ⟨after, rfl⟩ := h
  rw [List.head?_append, Option.mem_def.1 hc]
  rfl

theorem EndsSolid.trimEnd_eq (h : EndsSolid t) : t.trimEnd = t :=
  List.rdropWhile_eq_self_iff.2 fun hne =>
    Bool.eq_false_iff.1 (h _ (List.getLast?_eq_some_getLast hne))

theorem EndsSolid.of_cons (h : EndsSolid (c :: t)) : EndsSolid t := by
  cases t with
  | nil => nofun
  | cons d t => exact fun e he => h e (by rwa [List.getLast?_cons_cons])

theorem EndsSolid.cons (h : EndsSolid t) (hne : t ≠ []) : EndsSolid (c :: t) := by
  cases t with
  | nil => exact absurd rfl hne
  | cons d t => exact fun e he => h e (by rwa [List.getLast?_cons_cons] at he)

theorem not_mem_of_mem_splitWhere {w : Text} (hw : w ∈ t.splitWhere (· == '\n')) : '\n' ∉ w := by
  intro hmem
  have hfeed := of_mem_splitWhere hw '\n' hmem
  rw [beq_self_eq_true] at hfeed
  cases hfeed

/-- Lines without white space at their ends make a text without any there. -/
theorem trimmed_joinWith {lines : List Text}
    (h : ∀ line ∈ lines, '\n' ∉ line ∧ EndsSolid line) : Trimmed (joinWith ['\n'] lines) := by
  induction lines with
  | nil => exact List.isChain_nil
  | cons line lines ih =>
    rw [List.forall_mem_cons] at h
    obtain ⟨⟨hline, hsolid⟩, hrest⟩ := h
    cases lines with
    | nil => exact trimmed_of_not_mem hline
    | cons next lines =>
      have hbehind : Trimmed ('\n' :: joinWith ['\n'] (next :: lines)) :=
        (ih hrest).cons fun _ _ _ _ => rfl
      rw [joinWith, List.append_assoc]
      refine (trimmed_of_not_mem hline).append hbehind fun c hc d hd hfeed hblank => ?_
      rw [hsolid c hc] at hblank
      cases hblank

/-- The lines of a text with the white space at their ends cut off. -/
def strip (t : Text) : Text :=
  joinWith ['\n'] (t.lines.map trimEnd)

theorem lines_subset_splitWhere (t : Text) : t.lines ⊆ t.splitWhere (· == '\n') := by
  simp only [lines]
  split
  · exact List.dropLast_subset _
  · exact List.Subset.refl _

/-- Trimming the end of each line leaves no line that ends in white space. -/
theorem strip_trimmed (t : Text) : Trimmed t.strip := by
  refine trimmed_joinWith fun line hline => ?_
  obtain ⟨line, hmem, rfl⟩ := List.mem_map.1 hline
  have hnot := not_mem_of_mem_splitWhere (lines_subset_splitWhere t hmem)
  exact ⟨fun h => hnot ((trimEnd_isPrefix line).subset h), endsSolid_trimEnd line⟩

/-- In a text without white space at the ends of its lines there is none to strip. -/
theorem endsSolid_of_mem_splitWhere (h : Trimmed t) (hend : EndsSolid t) :
    ∀ line ∈ t.splitWhere (· == '\n'), EndsSolid line := by
  induction t with
  | nil => exact List.forall_mem_singleton.2 nofun
  | cons c t ih =>
    obtain ⟨w, ws, hsplit⟩ := List.exists_cons_of_ne_nil (splitWhere_ne_nil (· == '\n') t)
    have hrest := ih h.tail hend.of_cons
    rw [hsplit, List.forall_mem_cons] at hrest
    rw [splitWhere, hsplit]
    by_cases hc : c = '\n'
    · simp only [hc, beq_self_eq_true, if_true]
      exact List.forall_mem_cons.2 ⟨nofun, List.forall_mem_cons.2 hrest⟩
    · simp only [beq_iff_eq, if_neg hc]
      refine List.forall_mem_cons.2 ⟨?_, hrest.2⟩
      by_cases hw : w = []
      · -- The line is this character alone, so the text ends behind it or goes on in a new line.
        subst hw
        rintro _ ⟨⟩
        cases t with
        | nil => exact hend c rfl
        | cons d t =>
          by_cases hd : d = '\n'
          · subst hd
            have hfeed := (List.isChain_cons_cons.1 h).1 rfl
            exact Bool.eq_false_iff.2 fun hblank => hc (hfeed hblank)
          · obtain ⟨v, vs, hmore⟩ := List.exists_cons_of_ne_nil (splitWhere_ne_nil (· == '\n') t)
            simp [splitWhere, hmore, hd] at hsplit
      · exact hrest.1.cons hw

/-- Folding keeps the first character. -/
theorem foldBlankLines_head? (t : Text) : (foldBlankLines 0 t).head? = t.head? := by
  cases t with
  | nil => rfl
  | cons c t =>
    rw [foldBlankLines]
    split
    · next hfold => rw [hfold.1]; rfl
    · rfl

/-- Folding blank lines puts no white space at the end of a line. -/
theorem Trimmed.foldBlankLines (dropped : Nat) (h : Trimmed t) :
    Trimmed (foldBlankLines dropped t) := by
  induction t generalizing dropped with
  | nil => cases dropped <;> exact List.isChain_nil
  | cons c t ih =>
    rw [Trimmed, List.isChain_cons] at h
    cases dropped with
    | succ dropped => exact ih dropped h.2
    | zero =>
      rw [Text.foldBlankLines]
      split
      · exact ((ih _ h.2).cons fun _ _ _ _ => rfl).cons fun _ _ _ _ => rfl
      · refine (ih 0 h.2).cons fun d hd => h.1 d ?_
        rwa [foldBlankLines_head?] at hd

/-- Without white space at the ends of lines, a stretch that could be folded would be three line
feeds in a row. -/
theorem Trimmed.folded (h : Trimmed t) (hthree : ¬ ['\n', '\n', '\n'] <:+: t) : Folded t := by
  intro blanks hne hblanks hin
  have hbehind : Trimmed (blanks ++ ['\n']) := (h.of_isInfix hin).tail
  have hfeeds := hbehind.eq_lineFeed hblanks
  refine hthree (List.IsInfix.trans ?_ hin)
  cases blanks with
  | nil => exact absurd rfl hne
  | cons c blanks =>
    rw [List.forall_mem_cons] at hfeeds
    cases blanks with
    | nil =>
      rw [hfeeds.1]
      exact List.infix_rfl
    | cons d blanks =>
      rw [hfeeds.1, hfeeds.2 d List.mem_cons_self]
      exact ⟨[], blanks ++ ['\n'], rfl⟩

/-! ## Formatted text -/

/-- Normal layout: no line feed at the start, no white space at the end of a line, no two blank
lines in a row, and one line feed at the end. -/
structure Formatted (t : Text) : Prop where
  start : ∀ rest, t ≠ '\n' :: rest
  lineEnds : ∀ before c after, t = before ++ c :: '\n' :: after → isWhiteSpace c = true → c = '\n'
  blankLines : ¬ ['\n', '\n', '\n'] <:+: t
  ending : ∃ body c, t = body ++ [c, '\n'] ∧ isWhiteSpace c = false

/-- A text that needs nothing but a line feed at its end to be formatted. -/
structure Tidy (t : Text) : Prop where
  start : ∀ c ∈ t.head?, c ≠ '\n'
  trimmed : Trimmed t
  folded : Folded t
  ending : EndsSolid t

/-- A tidy text with a line feed behind it is formatted. -/
theorem Tidy.formatted (h : Tidy t) (hne : t ≠ []) : Formatted (t ++ ['\n']) := by
  obtain ⟨body, c, rfl⟩ := (List.eq_nil_or_concat' t).resolve_left hne
  have hc : isWhiteSpace c = false := h.ending c (by simp)
  refine ⟨fun rest heq => ?_, trimmed_iff.1 ?_, fun hin => ?_, body, c, by simp, hc⟩
  · have hhead : (body ++ [c]).head? = some '\n' := by
      rw [← List.head?_append_of_ne_nil _ hne, heq]
      rfl
    exact h.start '\n' hhead rfl
  · refine h.trimmed.append (List.isChain_singleton _) fun d hd _ _ _ hblank => ?_
    rw [h.ending d hd] at hblank
    cases hblank
  · rcases List.infix_concat_iff.1 hin with ⟨front, hlast⟩ | hin
    · have hfeed : c = '\n' := by
        have hsplit : front ++ ['\n'] ++ ['\n'] ++ ['\n'] = body ++ [c] ++ ['\n'] := by
          rw [← hlast]
          simp
        have hinit := List.append_cancel_right hsplit
        exact (List.singleton_inj.1 (List.append_inj' hinit rfl).2).symm
      rw [hfeed, isWhiteSpace_lineFeed] at hc
      cases hc
    · exact h.folded.not_three hin

/-- A formatted text is a tidy one with a line feed behind it. -/
theorem Formatted.exists_tidy (h : Formatted t) :
    ∃ body, body ≠ [] ∧ Tidy body ∧ t = body ++ ['\n'] := by
  obtain ⟨body, c, ht, hc⟩ := h.ending
  have hfront : body ++ [c] <+: t := ⟨['\n'], by simp [ht]⟩
  have htrimmed : Trimmed (body ++ [c]) :=
    Trimmed.of_isInfix (trimmed_iff.2 h.lineEnds) hfront.isInfix
  refine ⟨body ++ [c], by simp, ⟨?_, htrimmed, ?_, ?_⟩, by simp [ht]⟩
  · rintro d hd rfl
    obtain ⟨rest, hrest⟩ := List.head?_eq_some_iff.1 (mem_head?_of_isPrefix hfront hd)
    exact h.start rest hrest
  · exact htrimmed.folded fun hin => h.blankLines (hin.trans hfront.isInfix)
  · intro d hd
    rw [List.getLast?_concat] at hd
    rw [← Option.some.inj hd]
    exact hc

/-! ### What formatting makes -/

/-- What formatting puts in front of the last line feed is tidy. -/
theorem tidy_trimEnd_collapse (t : Text) :
    Tidy (trimEnd ((collapse t.strip).dropWhile (· == '\n'))) := by
  rw [collapse_eq_foldBlankLines]
  have hfront := trimEnd_isPrefix ((foldBlankLines 0 t.strip).dropWhile (· == '\n'))
  have hin := hfront.isInfix.trans (List.dropWhile_suffix _).isInfix
  have htrimmed := (strip_trimmed t).foldBlankLines 0
  have hfolded := foldBlankLines_folded 0 t.strip
  refine ⟨?_, htrimmed.of_isInfix hin, hfolded.of_isInfix hin, endsSolid_trimEnd _⟩
  rintro c hc rfl
  have hnot := List.head?_dropWhile_not (· == '\n') (foldBlankLines 0 t.strip)
  rw [Option.mem_def.1 (mem_head?_of_isPrefix hfront hc)] at hnot
  simp at hnot

/-- Formatting gives nothing, or a tidy text with a line feed behind it. -/
theorem format_eq_nil_or_tidy (t : Text) :
    t.format = [] ∨ ∃ body, body ≠ [] ∧ Tidy body ∧ t.format = body ++ ['\n'] := by
  have htidy := tidy_trimEnd_collapse t
  simp only [strip] at htidy
  simp only [format]
  split
  · exact .inl rfl
  · next c body hbody =>
    rw [hbody] at htidy
    exact .inr ⟨c :: body, List.cons_ne_nil _ _, htidy, rfl⟩

/-- A tidy text has no line to trim, and the line feed behind it opens no further line. -/
theorem Tidy.strip_eq (h : Tidy t) : (t ++ ['\n']).strip = t := by
  have hne := splitWhere_ne_nil (· == '\n') t
  have hlines : (t ++ ['\n']).lines = t.splitWhere (· == '\n') := by
    have hsplit : splitWhere (· == '\n') (t ++ ['\n']) = t.splitWhere (· == '\n') ++ [[]] := by
      conv => lhs; rw [← joinWith_splitWhere '\n' t, ← joinWith_concat_nil ['\n'] hne]
      refine splitWhere_joinWith (by simp) fun line hline => ?_
      rcases List.mem_append.1 hline with hline | hline
      · exact not_mem_of_mem_splitWhere hline
      · rw [List.mem_singleton.1 hline]
        exact List.not_mem_nil
    rw [lines, hsplit, List.getLast?_concat, List.dropLast_concat, if_pos rfl]
  have hkeep : (t.splitWhere (· == '\n')).map trimEnd = t.splitWhere (· == '\n') := by
    refine (List.map_congr_left fun line hline => ?_).trans (List.map_id _)
    exact (endsSolid_of_mem_splitWhere h.trimmed h.ending line hline).trimEnd_eq
  rw [strip, hlines, hkeep, joinWith_splitWhere]

/-- No pass of formatting finds anything to do in a formatted text. -/
theorem Formatted.format_eq (h : Formatted t) : t.format = t := by
  obtain ⟨body, hne, htidy, rfl⟩ := h.exists_tidy
  have hstart : body.dropWhile (· == '\n') = body := by
    cases body with
    | nil => rfl
    | cons c body => exact List.dropWhile_cons_of_neg (by simpa using htidy.start c rfl)
  have hbody : trimEnd ((collapse (strip (body ++ ['\n']))).dropWhile (· == '\n')) = body := by
    rw [htidy.strip_eq, collapse_eq_foldBlankLines, htidy.folded.foldBlankLines_eq_self, hstart,
      htidy.ending.trimEnd_eq]
  rw [strip] at hbody
  rw [format]
  simp only [hbody]
  obtain ⟨c, rest, rfl⟩ := List.exists_cons_of_ne_nil hne
  rfl

theorem formatted_format (h : t.format ≠ []) : Formatted t.format := by
  obtain ⟨body, hne, htidy, heq⟩ := (format_eq_nil_or_tidy t).resolve_left h
  rw [heq]
  exact htidy.formatted hne

theorem filter_isSolid_trimStart (t : Text) : t.trimStart.filter isSolid = t.filter isSolid := by
  have hnone : (t.takeWhile isWhiteSpace).filter isSolid = [] := by
    rw [List.filter_eq_nil_iff]
    intro c hc
    simp [isSolid, List.mem_takeWhile_imp hc]
  conv => rhs; rw [← List.takeWhile_append_dropWhile (p := isWhiteSpace) (l := t),
    List.filter_append, hnone, List.nil_append]
  rfl

/-- Formatting keeps every character that is no white space. -/
theorem filter_isSolid_format (t : Text) : t.format.filter isSolid = t.filter isSolid := by
  rw [← filter_isSolid_trimStart t.format, (format_relaid t).filter_isSolid,
    filter_isSolid_trimStart]

/-- Formatting gives nothing exactly if there is nothing but white space. -/
theorem format_eq_nil_iff : t.format = [] ↔ ∀ c ∈ t, isWhiteSpace c = true := by
  have hsolid : (∀ c ∈ t, isWhiteSpace c = true) ↔ t.format.filter isSolid = [] := by
    rw [filter_isSolid_format, List.filter_eq_nil_iff]
    simp [isSolid]
  rw [hsolid]
  constructor
  · intro h
    rw [h, List.filter_nil]
  · intro h
    by_contra hne
    obtain ⟨body, c, heq, hc⟩ := (formatted_format hne).ending
    have hmem : c ∈ t.format := by simp [heq]
    have hblank := List.filter_eq_nil_iff.1 h c hmem
    simp [isSolid, hc] at hblank

/-- Formatting brings a text into normal layout. Only white space formats to nothing; any other text
is formatted afterwards: it starts with no line feed, has no white space but line feeds directly in
front of a line feed, no three line feeds in a row, and one line feed at its end behind a character
that is no white space. All other characters are the same in the same order, and a second time
changes nothing. -/
theorem format_normalises (t : Text) :
    t.format.format = t.format ∧
    (t.format = [] ↔ ∀ c ∈ t, isWhiteSpace c = true) ∧
    ((¬ ∀ c ∈ t, isWhiteSpace c = true) →
      (∀ rest, t.format ≠ '\n' :: rest) ∧
      (∃ body c, t.format = body ++ [c, '\n'] ∧ isWhiteSpace c = false) ∧
      (∀ before c after, t.format = before ++ c :: '\n' :: after →
        isWhiteSpace c = true → c = '\n') ∧
      ¬ ['\n', '\n', '\n'] <:+: t.format) ∧
    t.format.filter isSolid = t.filter isSolid := by
  refine ⟨?_, format_eq_nil_iff, fun hsolid => ?_, filter_isSolid_format t⟩
  · by_cases hempty : t.format = []
    · rw [hempty]
      rfl
    · exact (formatted_format hempty).format_eq
  · have h := formatted_format (mt format_eq_nil_iff.1 hsolid)
    exact ⟨h.start, h.ending, h.lineEnds, h.blankLines⟩

/-- A file with an indented first line, carriage returns and blank lines with white space in them.
-/
theorem format_normalises_carriageReturns :
    let t : Text := "\r\n  \n a\r\n\u00a0\n\t\nb\u3000\n".toList
    t.format = " a\n\nb\n".toList ∧ (¬ ∀ c ∈ t, isWhiteSpace c = true) ∧
      (∀ rest, t.format ≠ '\n' :: rest) ∧
      (∃ body c, t.format = body ++ [c, '\n'] ∧ isWhiteSpace c = false) ∧
      (∀ before c after, t.format = before ++ c :: '\n' :: after →
        isWhiteSpace c = true → c = '\n') ∧
      ¬ ['\n', '\n', '\n'] <:+: t.format := by
  intro t
  have hsolid : ¬ ∀ c ∈ t, isWhiteSpace c = true := fun hall =>
    absurd (hall 'a' (by decide)) (by decide)
  exact ⟨by decide, hsolid, (format_normalises t).2.2.1 hsolid⟩

end Text

end SourceMacros

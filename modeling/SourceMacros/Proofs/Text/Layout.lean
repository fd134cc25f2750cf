import Mathlib.Data.List.TakeWhile
import SourceMacros.Text.Layout

/-!
# What formatting does to a text

Formatting takes white space away in three places: at the end of a line, in front of the first line,
and behind the last, where it puts one line feed. So between two characters that stay either nothing
changes or a line feed stays (`Relaid`), whatever the text means. Each pass of `format` is such a
change (`trimLines_relaid`, `foldBlankLines_relaid`, `foldLineFeeds_relaid`), and so is their
composition once the white space at the start is set aside (`format_relaid`).

What a reader of the new text needs is said once: the runs without white space are the same
(`Relaid.takeWhile_isSolid`), and the rest of a line goes to the rest of a line (`Relaid.dropLine`).
-/

namespace SourceMacros

namespace Text

/-- A character that is no white space. -/
def isSolid (c : Char) : Bool :=
  !isWhiteSpace c

/-- The text ends here or goes on in a new line. -/
def EndsLine (t : Text) : Prop :=
  ∀ c ∈ t.head?, c = '\n'

/-- `u` is `t` with less white space at the ends of its lines, and perhaps with other white space
behind the last line. -/
inductive Relaid : (t u : Text) → Prop
  | tail {u : Text} (hblank : ∀ c ∈ u, isWhiteSpace c = true) (hend : EndsLine u) : Relaid [] u
  | keep {t u : Text} (c : Char) (h : Relaid t u) : Relaid (c :: t) (c :: u)
  | drop {t u : Text} {c : Char} (hblank : isWhiteSpace c = true) (h : Relaid t u)
      (hend : EndsLine u) : Relaid (c :: t) u

theorem isWhiteSpace_lineFeed : isWhiteSpace '\n' = true := by
  decide

theorem endsLine_nil : EndsLine [] :=
  nofun

theorem endsLine_lineFeed (t : Text) : EndsLine ('\n' :: t) := by
  rintro c hc
  exact (Option.some.inj hc).symm

theorem EndsLine.cases {t : Text} (h : EndsLine t) : t = [] ∨ ∃ u, t = '\n' :: u := by
  cases t with
  | nil => exact .inl rfl
  | cons c u => exact .inr ⟨u, by rw [h c rfl]⟩

/-! ## Laws of the relation -/

namespace Relaid

variable {t u v : Text} {c : Char}

theorem nil : Relaid [] [] :=
  .tail nofun endsLine_nil

theorem refl (t : Text) : Relaid t t := by
  induction t with
  | nil => exact nil
  | cons c t ih => exact ih.keep c

theorem prepend (front : Text) (h : Relaid t u) : Relaid (front ++ t) (front ++ u) := by
  induction front with
  | nil => exact h
  | cons c front ih => exact ih.keep c

theorem dropBlanks {blanks : Text} (hblanks : ∀ c ∈ blanks, isWhiteSpace c = true)
    (h : Relaid t u) (hend : EndsLine u) : Relaid (blanks ++ t) u := by
  induction blanks with
  | nil => exact h
  | cons c blanks ih =>
    rw [List.forall_mem_cons] at hblanks
    exact .drop hblanks.1 (ih hblanks.2) hend

/-- White space at the end of the text can go. -/
theorem append_blanks (t : Text) {blanks : Text} (hblanks : ∀ c ∈ blanks, isWhiteSpace c = true)
    (hu : ∀ c ∈ u, isWhiteSpace c = true) (hend : EndsLine u) :
    Relaid (t ++ blanks) (t ++ u) := by
  have h := dropBlanks hblanks (.tail hu hend) hend
  rw [List.append_nil] at h
  exact h.prepend t

theorem endsLine (h : Relaid t u) (ht : EndsLine t) : EndsLine u := by
  cases h with
  | tail _ hend => exact hend
  | keep c _ => exact ht
  | drop _ _ hend => exact hend

/-- Laying a text out anew keeps its solid characters, in order. -/
theorem filter_isSolid (h : Relaid t u) : u.filter isSolid = t.filter isSolid := by
  induction h with
  | tail hblank _ =>
    rw [List.filter_nil, List.filter_eq_nil_iff]
    intro c hc
    simp [isSolid, hblank c hc]
  | keep c _ ih => rw [List.filter_cons, List.filter_cons, ih]
  | drop hblank _ _ ih =>
    rw [ih, List.filter_cons_of_neg]
    simp [isSolid, hblank]

theorem all_blank (h : Relaid t u) (ht : ∀ c ∈ t, isWhiteSpace c = true) :
    ∀ c ∈ u, isWhiteSpace c = true := by
  have hnone : u.filter isSolid = [] := by
    rw [h.filter_isSolid, List.filter_eq_nil_iff]
    intro c hc
    simp [isSolid, ht c hc]
  rw [List.filter_eq_nil_iff] at hnone
  intro c hc
  simpa [isSolid] using hnone c hc

theorem trans (h : Relaid t u) (h' : Relaid u v) : Relaid t v := by
  induction h generalizing v with
  | tail hblank hend => exact .tail (h'.all_blank hblank) (h'.endsLine hend)
  | keep c _ ih =>
    cases h' with
    | keep _ h' => exact (ih h').keep c
    | drop hblank h' hend => exact .drop hblank (ih h') hend
  | drop hblank _ hend ih => exact .drop hblank (ih h') (h'.endsLine hend)

/-! ### A solid character stays where it is -/

theorem uncons (h : Relaid (c :: t) u) (hc : isWhiteSpace c = false) :
    ∃ u', u = c :: u' ∧ Relaid t u' := by
  cases h with
  | keep _ h => exact ⟨_, rfl, h⟩
  | drop hblank _ _ =>
    rw [hc] at hblank
    cases hblank

theorem uncons_right (h : Relaid t (c :: u)) (hc : isWhiteSpace c = false) :
    ∃ t', t = c :: t' ∧ Relaid t' u := by
  have hline : ¬ EndsLine (c :: u) := by
    intro hend
    rw [hend c rfl] at hc
    cases hc
  cases h with
  | tail _ hend => exact absurd hend hline
  | keep _ h => exact ⟨_, rfl, h⟩
  | drop _ _ hend => exact absurd hend hline

theorem of_append {front : Text} (hfront : ∀ c ∈ front, isWhiteSpace c = false)
    (h : Relaid (front ++ t) (front ++ u)) : Relaid t u := by
  induction front with
  | nil => exact h
  | cons c front ih =>
    rw [List.forall_mem_cons] at hfront
    obtain ⟨u', heq, h'⟩ := h.uncons hfront.1
    rw [← (List.cons.inj heq).2] at h'
    exact ih hfront.2 h'

/-! ### What a reader finds in the new text -/

/-- The run of solid characters at the front is the same. -/
theorem takeWhile_isSolid (h : Relaid t u) : u.takeWhile isSolid = t.takeWhile isSolid := by
  have hstop : ∀ {v : Text}, EndsLine v → v.takeWhile isSolid = [] := by
    intro v hv
    rcases hv.cases with rfl | ⟨w, rfl⟩
    · rfl
    · exact List.takeWhile_cons_of_neg (by decide)
  induction h with
  | tail _ hend => exact hstop hend
  | keep c _ ih => rw [List.takeWhile_cons, List.takeWhile_cons, ih]
  | drop hblank _ hend _ =>
    rw [hstop hend, List.takeWhile_cons_of_neg]
    simp [isSolid, hblank]

theorem trimStart (h : Relaid t u) : Relaid t.trimStart u.trimStart := by
  unfold Text.trimStart
  induction h with
  | tail hblank _ =>
    rw [List.dropWhile_eq_nil_iff.2 hblank]
    exact nil
  | keep c h ih =>
    by_cases hc : isWhiteSpace c = true
    · rw [List.dropWhile_cons_of_pos hc, List.dropWhile_cons_of_pos hc]
      exact ih
    · rw [List.dropWhile_cons_of_neg hc, List.dropWhile_cons_of_neg hc]
      exact h.keep c
  | drop hblank _ _ ih =>
    rw [List.dropWhile_cons_of_pos hblank]
    exact ih

/-- What follows the first line follows the first line of the new text. -/
theorem dropLine (h : Relaid t u) :
    Relaid (t.dropWhile (· != '\n')) (u.dropWhile (· != '\n')) := by
  have hstay : ∀ {v : Text}, EndsLine v → v.dropWhile (· != '\n') = v := by
    intro v hv
    rcases hv.cases with rfl | ⟨w, rfl⟩
    · rfl
    · exact List.dropWhile_cons_of_neg (by decide)
  induction h with
  | tail hblank hend =>
    rw [hstay hend]
    exact .tail hblank hend
  | @keep t u c h ih =>
    by_cases hc : c = '\n'
    · subst hc
      rw [hstay (endsLine_lineFeed t), hstay (endsLine_lineFeed u)]
      exact h.keep '\n'
    · have hne : (c != '\n') = true := bne_iff_ne.2 hc
      simp only [List.dropWhile_cons, hne, if_true]
      exact ih
  | @drop t u c hblank h hend ih =>
    by_cases hc : c = '\n'
    · subst hc
      rw [hstay hend, hstay (endsLine_lineFeed t)]
      exact .drop hblank h hend
    · have hne : (c != '\n') = true := bne_iff_ne.2 hc
      simp only [List.dropWhile_cons, hne, if_true]
      exact ih

end Relaid

/-! ## White space at the ends of lines -/

theorem exists_trimEnd (t : Text) :
    ∃ blanks, t = t.trimEnd ++ blanks ∧ ∀ c ∈ blanks, isWhiteSpace c = true := by
  refine ⟨(t.reverse.takeWhile isWhiteSpace).reverse, ?_, fun c hc => ?_⟩
  · rw [trimEnd, ← List.reverse_append, List.takeWhile_append_dropWhile, List.reverse_reverse]
  · exact List.mem_takeWhile_imp (List.mem_reverse.1 hc)

/-- Trimming a line goes through it from its start, and drops a character only with all behind it.
-/
theorem trimEnd_cons (c : Char) (t : Text) :
    trimEnd (c :: t) = c :: trimEnd t ∨
      (isWhiteSpace c = true ∧ trimEnd t = [] ∧ trimEnd (c :: t) = []) := by
  unfold trimEnd
  rw [List.reverse_cons, List.dropWhile_append]
  cases hrest : t.reverse.dropWhile isWhiteSpace with
  | cons d rest => exact .inl (by simp)
  | nil =>
    by_cases hc : isWhiteSpace c = true
    · exact .inr (by simp [hc])
    · exact .inl (by simp [hc])

theorem joinWith_cons_append (sep front t : Text) (ts : List Text) :
    joinWith sep ((front ++ t) :: ts) = front ++ joinWith sep (t :: ts) := by
  cases ts with
  | nil => rfl
  | cons u ts => simp only [joinWith, List.append_assoc]

/-- An empty text at the end of a list leaves one more separator. -/
theorem joinWith_concat_nil (sep : Text) {ts : List Text} (hts : ts ≠ []) :
    joinWith sep (ts ++ [[]]) = joinWith sep ts ++ sep := by
  induction ts with
  | nil => exact absurd rfl hts
  | cons t ts ih =>
    cases ts with
    | nil => simp only [List.singleton_append, joinWith, List.append_nil]
    | cons u ts =>
      have h := ih (List.cons_ne_nil u ts)
      simp only [List.cons_append, joinWith, List.append_assoc] at h ⊢
      rw [h]

theorem splitWhere_ne_nil (p : Char → Bool) (t : Text) : splitWhere p t ≠ [] := by
  induction t with
  | nil => exact List.cons_ne_nil _ _
  | cons c t ih =>
    obtain ⟨w, ws, h⟩ := List.exists_cons_of_ne_nil ih
    simp only [splitWhere, h]
    split <;> exact List.cons_ne_nil _ _

/-- Every line without the white space at its end. -/
def trimLines (t : Text) : Text :=
  joinWith ['\n'] ((t.splitWhere (· == '\n')).map trimEnd)

theorem endsLine_joinWith_nil (ts : List Text) : EndsLine (joinWith ['\n'] ([] :: ts)) := by
  cases ts with
  | nil => exact endsLine_nil
  | cons t ts => exact endsLine_lineFeed _

/-- Trimming the end of each line lays a text out anew. -/
theorem trimLines_relaid (t : Text) : Relaid t (trimLines t) := by
  induction t with
  | nil => exact .nil
  | cons c t ih =>
    obtain ⟨w, ws, hlines⟩ := List.exists_cons_of_ne_nil (splitWhere_ne_nil (· == '\n') t)
    rw [trimLines, hlines, List.map_cons] at ih
    rw [trimLines, splitWhere, hlines]
    by_cases hc : c = '\n'
    · subst hc
      exact ih.keep '\n'
    · simp only [beq_iff_eq, if_neg hc, List.map_cons]
      rcases trimEnd_cons c w with htrim | ⟨hblank, hempty, htrim⟩
      · rw [htrim]
        have hjoin := joinWith_cons_append ['\n'] [c] (trimEnd w) (ws.map trimEnd)
        rw [List.singleton_append] at hjoin
        rw [hjoin]
        exact ih.keep c
      · rw [hempty] at ih
        rw [htrim]
        exact .drop hblank ih (endsLine_joinWith_nil _)

/-- The lines of a text, trimmed at their ends, are the text laid out anew. A line feed at the end,
which opens no line, is white space at the end of the text. -/
theorem lines_relaid (t : Text) : Relaid t (joinWith ['\n'] (t.lines.map trimEnd)) := by
  simp only [lines]
  split
  · next hlast =>
    obtain ⟨init, hlines⟩ := List.getLast?_eq_some_iff.1 hlast
    have htrim := trimLines_relaid t
    rw [trimLines, hlines, List.map_append] at htrim
    rw [hlines, List.dropLast_concat]
    by_cases hinit : init = []
    · subst hinit
      exact htrim
    · rw [show [([] : Text)].map trimEnd = [[]] from rfl,
        joinWith_concat_nil _ (by simpa using hinit)] at htrim
      refine htrim.trans ?_
      have hfeed : ∀ c ∈ ['\n'], isWhiteSpace c = true := by simpa using isWhiteSpace_lineFeed
      have hdrop := Relaid.append_blanks (u := []) (joinWith ['\n'] (init.map trimEnd)) hfeed nofun
        endsLine_nil
      rwa [List.append_nil] at hdrop
  · exact trimLines_relaid t

/-! ## Blank lines -/

/-- What lies in front of the last line feed of a run of white space is white space of this
length. -/
theorem throughLastLineFeed_spec {t : Text} {n : Nat} (h : throughLastLineFeed t = n + 1) :
    ∃ blanks rest, t = blanks ++ '\n' :: rest ∧ blanks.length = n ∧
      ∀ c ∈ blanks, isWhiteSpace c = true := by
  induction t generalizing n with
  | nil => cases h
  | cons c t ih =>
    rw [throughLastLineFeed] at h
    split at h
    · next hblank =>
      split at h
      · next hnone =>
        split at h
        · next hc =>
          obtain rfl : 0 = n := Nat.succ.inj h
          exact ⟨[], t, by rw [hc]; rfl, rfl, nofun⟩
        · cases h
      · next k hk =>
        obtain rfl : k + 1 = n := Nat.succ.inj h
        obtain ⟨blanks, rest, rfl, hlen, hblanks⟩ := ih hk
        refine ⟨c :: blanks, rest, rfl, by rw [List.length_cons, hlen], ?_⟩
        exact List.forall_mem_cons.2 ⟨hblank, hblanks⟩
    · cases h

/-- Folding blank lines lays a text out anew. -/
theorem foldBlankLines_relaid (dropped : Nat) (t : Text) :
    Relaid (t.drop dropped) (foldBlankLines dropped t) := by
  induction t generalizing dropped with
  | nil =>
    rw [List.drop_nil]
    cases dropped <;> exact .nil
  | cons c t ih =>
    cases dropped with
    | succ dropped => exact ih dropped
    | zero =>
      rw [List.drop_zero, foldBlankLines]
      split
      · next hfold =>
        obtain ⟨rfl, hmore⟩ := hfold
        obtain ⟨n, hn⟩ : ∃ n, throughLastLineFeed t = n + 1 := Nat.exists_eq_add_of_le' (by omega)
        obtain ⟨blanks, rest, hsplit, hlen, hblanks⟩ := throughLastLineFeed_spec hn
        -- The two line feeds written are the first and the last of the white space replaced.
        have hrest : t.drop (throughLastLineFeed t) = rest := by
          rw [hn, hsplit, ← hlen]
          simp
        have hbehind := ih (throughLastLineFeed t)
        rw [hrest] at hbehind
        refine .keep '\n' ?_
        conv => lhs; rw [hsplit]
        exact .dropBlanks hblanks (hbehind.keep '\n') (endsLine_lineFeed _)
      · exact (ih 0).keep c

theorem foldLineFeeds_relaid (t : Text) : Relaid t (foldLineFeeds t) := by
  induction t using foldLineFeeds.induct with
  | case1 => exact .nil
  | case2 t ih =>
    exact .drop isWhiteSpace_lineFeed ((ih.keep '\n').keep '\n') (endsLine_lineFeed _)
  | case3 c t hfew ih =>
    rw [foldLineFeeds.eq_3 _ _ hfew]
    exact ih.keep c

theorem collapse_relaid (t : Text) : Relaid t t.collapse :=
  (foldBlankLines_relaid 0 t).trans (foldLineFeeds_relaid _)

/-! ## Formatting -/

/-- Line feeds at the start are among the white space there. -/
theorem trimStart_dropWhile_lineFeed (t : Text) :
    trimStart (t.dropWhile (· == '\n')) = t.trimStart := by
  induction t with
  | nil => rfl
  | cons c t ih =>
    by_cases hc : c = '\n'
    · subst hc
      exact ih
    · rw [List.dropWhile_cons_of_neg (by simpa using hc)]

/-- Trimming the end and closing the last line. -/
theorem closeLine_relaid (t : Text) :
    Relaid t (match trimEnd t with
      | [] => []
      | c :: body => c :: body ++ ['\n']) := by
  obtain ⟨blanks, hsplit, hblanks⟩ := exists_trimEnd t
  conv => lhs; rw [hsplit]
  cases trimEnd t with
  | nil => exact .append_blanks [] hblanks nofun endsLine_nil
  | cons c body =>
    have hfeed : ∀ c ∈ ['\n'], isWhiteSpace c = true := by simpa using isWhiteSpace_lineFeed
    exact .append_blanks (c :: body) hblanks hfeed (endsLine_lineFeed _)

/-- Formatting changes a text only at its start and at the ends of its lines. -/
theorem format_relaid (t : Text) : Relaid t.trimStart t.format.trimStart := by
  have hfolded := (lines_relaid t).trans (collapse_relaid _)
  have hclosed := closeLine_relaid
    ((joinWith ['\n'] (t.lines.map trimEnd)).collapse.dropWhile (· == '\n'))
  have hstart := hclosed.trimStart
  rw [trimStart_dropWhile_lineFeed] at hstart
  exact hfolded.trimStart.trans hstart

end Text

end SourceMacros

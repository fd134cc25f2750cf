import SourceMacros.Proofs.Text.Layout

/-!
# Splitting and trimming

Splitting a text at a character is inverse to joining with it, as long as no piece holds the
character (`splitWhere_joinWith`, `joinWith_splitWhere`). Trimming takes away exactly what is put
around a text without white space (`Padded`).
-/

namespace SourceMacros

namespace Text

/-! ## Splitting at a character -/

section Splitting

variable {p : Char → Bool} {c : Char} {w t : Text}

theorem splitWhere_cons_of_pos (hc : p c = true) (t : Text) :
    splitWhere p (c :: t) = [] :: splitWhere p t := by
  obtain ⟨w, ws, h⟩ := List.exists_cons_of_ne_nil (splitWhere_ne_nil p t)
  simp only [splitWhere, h, hc, if_true]

theorem splitWhere_of_forall (hw : ∀ c ∈ w, p c = false) : splitWhere p w = [w] := by
  induction w with
  | nil => rfl
  | cons c w ih =>
    rw [List.forall_mem_cons] at hw
    simp only [splitWhere, ih hw.2, hw.1, Bool.false_eq_true, if_false]

theorem splitWhere_append_cons (hc : p c = true) (w t : Text) :
    splitWhere p (w ++ c :: t) = splitWhere p w ++ splitWhere p t := by
  induction w with
  | nil => exact splitWhere_cons_of_pos hc t
  | cons d w ih =>
    obtain ⟨v, vs, h⟩ := List.exists_cons_of_ne_nil (splitWhere_ne_nil p w)
    rw [h] at ih
    simp only [List.cons_append, splitWhere, ih, h]
    split <;> rfl

/-- A piece holds no character that the text was split at. -/
theorem of_mem_splitWhere (hw : w ∈ splitWhere p t) : ∀ c ∈ w, p c = false := by
  induction t generalizing w with
  | nil =>
    rw [splitWhere, List.mem_singleton] at hw
    rw [hw]
    exact List.forall_mem_nil _
  | cons d t ih =>
    obtain ⟨v, vs, h⟩ := List.exists_cons_of_ne_nil (splitWhere_ne_nil p t)
    rw [h] at ih
    rw [splitWhere, h] at hw
    by_cases hd : p d = true
    · simp only [hd, if_true, List.mem_cons] at hw
      rcases hw with rfl | hw
      · exact List.forall_mem_nil _
      · exact ih (List.mem_cons.2 hw)
    · simp only [hd, Bool.false_eq_true, if_false, List.mem_cons] at hw
      rcases hw with rfl | hw
      · exact List.forall_mem_cons.2 ⟨Bool.eq_false_iff.2 hd, ih List.mem_cons_self⟩
      · exact ih (List.mem_cons_of_mem v hw)

end Splitting

/-- Pieces without the separator are found again when they are joined by it. -/
theorem splitWhere_joinWith {sep : Char} {ts : List Text} (hne : ts ≠ [])
    (hts : ∀ t ∈ ts, sep ∉ t) : splitWhere (· == sep) (joinWith [sep] ts) = ts := by
  have hpiece {t : Text} (ht : sep ∉ t) : ∀ c ∈ t, (c == sep) = false := by
    intro c hc
    refine beq_false_of_ne ?_
    rintro rfl
    exact ht hc
  induction ts with
  | nil => exact absurd rfl hne
  | cons t ts ih =>
    rw [List.forall_mem_cons] at hts
    cases ts with
    | nil => exact splitWhere_of_forall (hpiece hts.1)
    | cons u ts =>
      have hrest := ih (List.cons_ne_nil u ts) hts.2
      have hsplit : joinWith [sep] (t :: u :: ts) = t ++ sep :: joinWith [sep] (u :: ts) := by
        rw [joinWith, List.append_assoc, List.singleton_append]
      rw [hsplit, splitWhere_append_cons (p := (· == sep)) (beq_self_eq_true sep),
        splitWhere_of_forall (hpiece hts.1), hrest, List.singleton_append]

/-- The pieces of a text, joined by the separator, make up the text. -/
theorem joinWith_splitWhere (sep : Char) (t : Text) :
    joinWith [sep] (splitWhere (· == sep) t) = t := by
  induction t with
  | nil => rfl
  | cons c t ih =>
    obtain ⟨w, ws, h⟩ := List.exists_cons_of_ne_nil (splitWhere_ne_nil (· == sep) t)
    rw [h] at ih
    rw [splitWhere, h]
    by_cases hc : c = sep
    · subst hc
      simp only [beq_self_eq_true, if_true, joinWith, List.nil_append, ih, List.singleton_append]
    · simp only [beq_iff_eq, if_neg hc]
      have hjoin := joinWith_cons_append [sep] [c] w ws
      rw [List.singleton_append, List.singleton_append, ih] at hjoin
      exact hjoin

theorem not_mem_joinWith {sep : Text} {c : Char} {ts : List Text} (hsep : c ∉ sep)
    (hts : ∀ t ∈ ts, c ∉ t) : c ∉ joinWith sep ts := by
  induction ts with
  | nil => exact List.not_mem_nil
  | cons t ts ih =>
    rw [List.forall_mem_cons] at hts
    cases ts with
    | nil => exact hts.1
    | cons u ts =>
      rw [joinWith, List.mem_append, List.mem_append]
      rintro ((h | h) | h)
      · exact hts.1 h
      · exact hsep h
      · exact ih hts.2 h

/-! ## White space around a text -/

/-- The text with white space around it, or with none. -/
def Padded (t printed : Text) : Prop :=
  ∃ before after, printed = before ++ t ++ after ∧ (∀ c ∈ before, isWhiteSpace c = true) ∧
    ∀ c ∈ after, isWhiteSpace c = true

theorem padded_trim (t : Text) : Padded t.trim t := by
  obtain ⟨after, hsplit, hafter⟩ := exists_trimEnd t.trimStart
  refine ⟨t.takeWhile isWhiteSpace, after, ?_, fun c hc => List.mem_takeWhile_imp hc, hafter⟩
  rw [List.append_assoc, trim, ← hsplit, trimStart, List.takeWhile_append_dropWhile]

theorem trimEnd_append {t after : Text} (ht : ∀ c ∈ t, isSolid c = true)
    (hafter : ∀ c ∈ after, isWhiteSpace c = true) : (t ++ after).trimEnd = t := by
  have hsolid : t.reverse.dropWhile isWhiteSpace = t.reverse := by
    cases h : t.reverse with
    | nil => rfl
    | cons c u =>
      have hc := ht c (List.mem_reverse.1 (h ▸ List.mem_cons_self))
      rw [isSolid, Bool.not_eq_true'] at hc
      exact List.dropWhile_cons_of_neg (Bool.eq_false_iff.1 hc)
  rw [trimEnd, List.reverse_append, List.dropWhile_append_of_pos
    fun c hc => hafter c (List.mem_reverse.1 hc), hsolid, List.reverse_reverse]

/-- Trimming takes the white space around a text without any away. -/
theorem Padded.trim_eq {t printed : Text} (h : Padded t printed) (ht : ∀ c ∈ t, isSolid c = true) :
    printed.trim = t := by
  obtain ⟨before, after, rfl, hbefore, hafter⟩ := h
  cases t with
  | nil =>
    have hall : ∀ c ∈ before ++ [] ++ after, isWhiteSpace c = true := by
      intro c hc
      rw [List.append_nil, List.mem_append] at hc
      exact hc.elim (hbefore c) (hafter c)
    rw [trim, trimStart, List.dropWhile_eq_nil_iff.2 hall]
    rfl
  | cons c t =>
    have hc := ht c List.mem_cons_self
    rw [isSolid, Bool.not_eq_true'] at hc
    have hstart : trimStart (before ++ c :: t ++ after) = c :: t ++ after := by
      rw [trimStart, List.append_assoc, List.dropWhile_append_of_pos hbefore, List.cons_append,
        List.dropWhile_cons_of_neg (Bool.eq_false_iff.1 hc)]
    rw [trim, hstart, trimEnd_append ht hafter]

/-- White space around a text adds no solid character to it. -/
theorem Padded.not_mem {t printed : Text} (h : Padded t printed) {c : Char} (ht : c ∉ t)
    (hc : isWhiteSpace c = false) : c ∉ printed := by
  obtain ⟨before, after, rfl, hbefore, hafter⟩ := h
  intro hmem
  rw [List.mem_append, List.mem_append] at hmem
  rcases hmem with (hmem | hmem) | hmem
  · exact Bool.false_ne_true (hc.symm.trans (hbefore c hmem))
  · exact ht hmem
  · exact Bool.false_ne_true (hc.symm.trans (hafter c hmem))

end Text

end SourceMacros

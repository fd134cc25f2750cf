import SourceMacros.Proofs.Text.Splitting
import SourceMacros.Proofs.Text.UpperCase

/-!
# Studly caps

Writing a text in studly caps goes word by word: at a separator it falls apart into what stands on
the two sides (`studly_append_cons`), and a text without separators only gets its first character in
upper case (`studly_of_forall`). With what is known of upper case, these two equations give the laws
of studly caps (`studly_joins_words`).
-/

namespace SourceMacros

namespace Text

variable {c : Char} {w : Text}

/-! ## Words -/

theorem isWordSeparator_iff : isWordSeparator c = true ↔ c ∈ ['-', '_', ' '] := by
  simp [isWordSeparator, or_assoc]

/-- The words on both sides of a separator are written on their own. -/
theorem studly_append_cons (hc : isWordSeparator c = true) (a b : Text) :
    studly (a ++ c :: b) = studly a ++ studly b := by
  simp only [studly, splitWhere_append_cons hc, List.filter_append, List.flatMap_append]

example : studly "some-thing_here".toList = "SomeThingHere".toList := by
  decide

/-- A text without separators is one word. -/
theorem studly_of_forall (hw : ∀ c ∈ w, isWordSeparator c = false) : studly w = capitalize w := by
  cases w with
  | nil => rfl
  | cons c t => simp [studly, splitWhere_of_forall hw]

/-! ## Capitals at the front -/

theorem capitalize_capitalize_append (hw : w ≠ []) (t : Text) :
    capitalize (capitalize w ++ t) = capitalize w ++ t := by
  obtain ⟨c, rest, rfl⟩ := List.exists_cons_of_ne_nil hw
  obtain ⟨d, ds, hupper⟩ := List.exists_cons_of_ne_nil (upperCase_ne_nil c)
  -- A character may have several capitals. Only the first of them is raised again, and it is its
  -- own.
  have hd : upperCase d = [d] := upperCase_of_mem_upperCase (hupper ▸ List.mem_cons_self)
  rw [capitalize, hupper, List.cons_append, List.cons_append, capitalize, hd, List.singleton_append]

/-- A capital is no separator. -/
theorem isWordSeparator_of_mem_capitalize (hw : ∀ c ∈ w, isWordSeparator c = false) :
    ∀ c ∈ capitalize w, isWordSeparator c = false := by
  cases w with
  | nil => exact List.forall_mem_nil _
  | cons c t =>
    rw [List.forall_mem_cons] at hw
    intro d hd
    rw [capitalize, List.mem_append] at hd
    rcases hd with hd | hd
    · exact isWordSeparator_of_mem_upperCase hd hw.1
    · exact hw.2 d hd

/-! ## The laws -/

theorem isWordSeparator_of_mem_studly (a : Text) :
    ∀ c ∈ studly a, isWordSeparator c = false := by
  intro c hc
  obtain ⟨w, hw, hc⟩ := List.mem_flatMap.1 hc
  exact isWordSeparator_of_mem_capitalize (of_mem_splitWhere (List.mem_filter.1 hw).1) c hc

/-- Studly caps are one word that starts with a capital. -/
theorem studly_studly (a : Text) : studly (studly a) = studly a := by
  rw [studly_of_forall (isWordSeparator_of_mem_studly a), studly]
  cases hwords : (a.splitWhere isWordSeparator).filter (· ≠ []) with
  | nil => rfl
  | cons w ws =>
    have hw : w ∈ (a.splitWhere isWordSeparator).filter (· ≠ []) := hwords ▸ List.mem_cons_self
    have hne : w ≠ [] := of_decide_eq_true (List.mem_filter.1 hw).2
    rw [List.flatMap_cons, capitalize_capitalize_append hne]

/-- Studly caps put the words on the two sides of a separator together, leave no separator and have
nothing to do on their own result. A text without separators is one word, whose first character goes
to upper case. -/
theorem studly_joins_words :
    (∀ a b : Text, ∀ c ∈ ['-', '_', ' '], studly (a ++ c :: b) = studly a ++ studly b) ∧
    (∀ a : Text, ∀ c ∈ ['-', '_', ' '], c ∉ studly a) ∧
    (∀ a : Text, studly (studly a) = studly a) ∧
    ∀ w : Text, (∀ c ∈ ['-', '_', ' '], c ∉ w) → studly w = capitalize w := by
  refine ⟨fun a b c hc => studly_append_cons (isWordSeparator_iff.2 hc) a b, ?_, studly_studly, ?_⟩
  · intro a c hc hmem
    have hnot := isWordSeparator_of_mem_studly a c hmem
    rw [isWordSeparator_iff.2 hc] at hnot
    cases hnot
  · intro w hw
    refine studly_of_forall fun c hc => Bool.eq_false_iff.2 fun hsep => ?_
    exact hw c (isWordSeparator_iff.1 hsep) hc

/-- The first character has two capitals, and the words stand between several separators. -/
theorem studly_joins_words_eszett :
    studly ("ßa-_".toList ++ ' ' :: "éb".toList) = studly "ßa-_".toList ++ studly "éb".toList ∧
    studly "ßa-_".toList ++ studly "éb".toList = "SSaÉb".toList ∧
    '_' ∉ studly "ßa-_ éb".toList ∧
    studly (studly "ßa-_ éb".toList) = studly "ßa-_ éb".toList ∧
    studly "ßa".toList = capitalize "ßa".toList :=
  have ⟨happend, hnot, hidem, hword⟩ := studly_joins_words
  ⟨happend _ _ ' ' (by decide), by decide, hnot _ '_' (by decide), hidem _, hword _ (by simp)⟩

end Text

end SourceMacros

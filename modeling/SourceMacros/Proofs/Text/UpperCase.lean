import SourceMacros.Text.Layout

/-!
# Capitals

Upper case gives each character at least one in its place, and what it gives is its own upper case
(`upperCase_of_mem_upperCase`). It separates no words that stood together.

The mapping is a table, so these are facts about its data: the code points that it gives are none of
those that it changes. Two sets of code points are compared as the bits of two numbers, all at once.
-/

namespace SourceMacros

namespace Text

/-! ## The code points of the table -/

namespace CaseRun

/-- The code points that the run covers. -/
def codePoints (r : CaseRun) : List Nat :=
  (List.range ((r.last - r.first) / r.step + 1)).map fun k => r.first + r.step * k

/-- The code point that the run gives for `n`. -/
def capital (r : CaseRun) (n : Nat) : Nat :=
  (n + r.shift).toNat

theorem mem_codePoints {r : CaseRun} {n : Nat} (h : r.covers n = true) : n ∈ r.codePoints := by
  simp only [covers, Bool.and_eq_true, decide_eq_true_eq, beq_iff_eq] at h
  obtain ⟨⟨hfirst, hlast⟩, hstep⟩ := h
  have hle : (n - r.first) / r.step ≤ (r.last - r.first) / r.step :=
    Nat.div_le_div_right (Nat.sub_le_sub_right hlast _)
  have hsplit := Nat.div_add_mod (n - r.first) r.step
  rw [hstep, Nat.add_zero] at hsplit
  refine List.mem_map.2 ⟨_, List.mem_range.2 (Nat.lt_succ_of_le hle), ?_⟩
  rw [hsplit, Nat.add_sub_cancel' hfirst]

end CaseRun

/-- The code points that upper case changes. -/
def changedCodePoints : List Nat :=
  caseRuns.flatMap CaseRun.codePoints ++ caseExpansions.map Prod.fst

/-- The code points that upper case puts in place of others, and zero, which stands for a number
that is no code point. -/
def givenCodePoints : List Nat :=
  0 :: caseRuns.flatMap (fun r => r.codePoints.map r.capital) ++ caseExpansions.flatMap Prod.snd

/-! ## Sets of code points -/

/-- The number whose bits are set at the given places. -/
def bitsAt (ns : List Nat) : Nat :=
  ns.foldr (fun n bits => 1 <<< n ||| bits) 0

theorem testBit_bitsAt (ns : List Nat) (n : Nat) : (bitsAt ns).testBit n = true ↔ n ∈ ns := by
  induction ns with
  | nil => simp [bitsAt]
  | cons m ns ih =>
    rw [bitsAt, List.foldr_cons, ← bitsAt, Nat.testBit_or, Bool.or_eq_true, ih, List.mem_cons,
      Nat.one_shiftLeft, Nat.testBit_two_pow, decide_eq_true_eq, eq_comm]

theorem not_mem_of_bitsAt {ns ms : List Nat} (h : bitsAt ns &&& bitsAt ms = 0) {n : Nat}
    (hn : n ∈ ns) : n ∉ ms := by
  intro hm
  have hbit : (bitsAt ns &&& bitsAt ms).testBit n = true := by
    rw [Nat.testBit_and, (testBit_bitsAt ns n).2 hn, (testBit_bitsAt ms n).2 hm]
    rfl
  rw [h, Nat.zero_testBit] at hbit
  cases hbit

/-- Upper case does not change what it has given, and gives no character that separates words. -/
theorem not_mem_of_mem_givenCodePoints {n : Nat} (h : n ∈ givenCodePoints) :
    n ∉ changedCodePoints ++ [0x20, 0x2d, 0x5f] := by
  refine not_mem_of_bitsAt ?_ h
  decide +kernel

/-! ## Upper case -/

variable {c d : Char}

/-- Upper case keeps a character that the table does not change. -/
theorem upperCase_of_not_mem (h : c.toNat ∉ changedCodePoints) : upperCase c = [c] := by
  rw [changedCodePoints, List.mem_append, not_or] at h
  obtain ⟨hruns, hexpansions⟩ := h
  have hlookup : caseExpansions.lookup c.toNat = none := by
    refine List.lookup_eq_none_iff.2 fun e he => bne_iff_ne.2 ?_
    rintro heq
    exact hexpansions (heq ▸ List.mem_map_of_mem he)
  have hfind : caseRuns.find? (·.covers c.toNat) = none := by
    refine List.find?_eq_none.2 fun r hr hcovers => ?_
    exact hruns (List.mem_flatMap.2 ⟨r, hr, r.mem_codePoints hcovers⟩)
  rw [upperCase, hlookup, hfind]

theorem toNat_ofNat_mem {n : Nat} (h : n ∈ givenCodePoints) :
    (Char.ofNat n).toNat ∈ givenCodePoints := by
  by_cases hn : n.isValidChar
  · rw [Char.ofNat, dif_pos hn]
    exact h
  · rw [Char.ofNat, dif_neg hn]
    exact List.mem_cons_self

theorem mem_caseExpansions {n : Nat} {codes : List Nat} (h : caseExpansions.lookup n = some codes) :
    (n, codes) ∈ caseExpansions := by
  obtain ⟨before, after, hsplit, -⟩ := List.lookup_eq_some_iff.1 h
  simp [hsplit]

/-- Upper case keeps a character or gives characters of the table. -/
theorem mem_upperCase (h : d ∈ upperCase c) :
    d = c ∧ upperCase c = [c] ∨ d.toNat ∈ givenCodePoints := by
  unfold upperCase at h ⊢
  split at h
  · next codes hlookup =>
    obtain ⟨n, hn, rfl⟩ := List.mem_map.1 h
    refine .inr (toNat_ofNat_mem (List.mem_append_right _ ?_))
    exact List.mem_flatMap.2 ⟨(c.toNat, codes), mem_caseExpansions hlookup, hn⟩
  · split at h
    · next r hfind =>
      have hr := List.mem_of_find?_eq_some hfind
      have hcovers := List.find?_some hfind
      have hn := List.mem_map_of_mem (f := r.capital) (CaseRun.mem_codePoints hcovers)
      rw [List.mem_singleton.1 h]
      refine .inr (toNat_ofNat_mem (List.mem_append_left _ (List.mem_cons_of_mem _ ?_)))
      exact List.mem_flatMap.2 ⟨r, hr, hn⟩
    · exact .inl ⟨List.mem_singleton.1 h, rfl⟩

theorem upperCase_ne_nil (c : Char) : upperCase c ≠ [] := by
  have hcodes : ∀ e ∈ caseExpansions, e.2 ≠ [] := by decide
  unfold upperCase
  split
  · next codes hlookup =>
    rw [Ne, List.map_eq_nil_iff]
    exact hcodes (c.toNat, codes) (mem_caseExpansions hlookup)
  · split <;> exact List.cons_ne_nil _ _

/-- A capital is its own capital. -/
theorem upperCase_of_mem_upperCase (h : d ∈ upperCase c) : upperCase d = [d] := by
  rcases mem_upperCase h with ⟨rfl, hkept⟩ | hgiven
  · exact hkept
  · refine upperCase_of_not_mem fun hmem => ?_
    exact not_mem_of_mem_givenCodePoints hgiven (List.mem_append_left _ hmem)

/-- Upper case gives a word separator for no other character. -/
theorem isWordSeparator_of_mem_upperCase (h : d ∈ upperCase c) (hc : isWordSeparator c = false) :
    isWordSeparator d = false := by
  rcases mem_upperCase h with ⟨rfl, -⟩ | hgiven
  · exact hc
  · rw [Bool.eq_false_iff]
    intro hd
    have hcode : d.toNat ∈ [0x20, 0x2d, 0x5f] := by
      simp only [isWordSeparator, Bool.or_eq_true, beq_iff_eq] at hd
      rcases hd with (rfl | rfl) | rfl <;> decide
    exact not_mem_of_mem_givenCodePoints hgiven (List.mem_append_right _ hcode)

end Text

end SourceMacros

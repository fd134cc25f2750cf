import Mathlib.Data.List.DropRight
import Mathlib.Data.List.SplitBy
import SourceMacros.Proofs.Text.Layout

/-!
# The normal form of blank lines

Collapsing works on one run of white space at a time: what stands between the first and the last
line feed of the run, these included, becomes two line feeds if it is longer than that, and nothing
else changes (`Text.foldBlankLines_eq`). So the result has no line feed, more white space and a line
feed in a row (`Text.Folded`). A text like that is what collapsing leaves alone, in its first pass
as in its second one, which finds no three line feeds in a row.
-/

namespace SourceMacros

namespace Text

/-! ## Runs of white space -/

/-- The longest runs of white space and of other characters, in order. -/
def runs (t : Text) : List Text :=
  t.splitBy fun c d => isWhiteSpace c == isWhiteSpace d

/-- The text up to its last line feed, this included. -/
def uptoFeed (t : Text) : Text :=
  t.rdropWhile (· != '\n')

/-- The text behind its last line feed. -/
def behindFeed (t : Text) : Text :=
  t.rtakeWhile (· != '\n')

/-- The run with two line feeds for the stretch from its first line feed to its last one, if that is
three characters long or longer. -/
def foldRun (run : Text) : Text :=
  let stretch := uptoFeed (run.dropWhile (· != '\n'))
  run.takeWhile (· != '\n') ++ (if 3 ≤ stretch.length then ['\n', '\n'] else stretch)
    ++ behindFeed (run.dropWhile (· != '\n'))

/-- The text starts with no white space. -/
def StartsSolid (t : Text) : Prop :=
  ∀ c ∈ t.head?, isWhiteSpace c = false

variable {t u run rest blanks : Text} {c : Char}

theorem ne_lineFeed_of_not_mem (h : '\n' ∉ t) : ∀ c ∈ t, (c != '\n') = true :=
  fun _ hc => bne_iff_ne.2 fun heq => h (heq ▸ hc)

/-! ### The last line feed of a text -/

theorem uptoFeed_append_behindFeed (t : Text) : uptoFeed t ++ behindFeed t = t :=
  List.rdropWhile_append_rtakeWhile

theorem not_mem_behindFeed (t : Text) : '\n' ∉ behindFeed t := by
  intro h
  simpa using List.mem_rtakeWhile_imp h

theorem uptoFeed_of_not_mem (h : '\n' ∉ t) : uptoFeed t = [] :=
  List.rdropWhile_eq_nil_iff.2 (ne_lineFeed_of_not_mem h)

theorem uptoFeed_cons (c : Char) (t : Text) :
    uptoFeed (c :: t)
      = if uptoFeed t = [] then (if c = '\n' then [c] else []) else c :: uptoFeed t := by
  simp only [uptoFeed, List.rdropWhile, List.reverse_cons, List.dropWhile_append, List.isEmpty_iff,
    List.reverse_eq_nil_iff]
  split
  · by_cases hc : c = '\n' <;> simp [hc]
  · simp

theorem uptoFeed_lineFeed (t : Text) : uptoFeed ('\n' :: t) = '\n' :: uptoFeed t := by
  rw [uptoFeed_cons, if_pos rfl]
  split
  · next hnone => rw [hnone]
  · rfl

theorem behindFeed_lineFeed (t : Text) : behindFeed ('\n' :: t) = behindFeed t := by
  have hwhole := uptoFeed_append_behindFeed ('\n' :: t)
  rw [uptoFeed_lineFeed, List.cons_append, List.cons.injEq] at hwhole
  exact List.append_cancel_left (hwhole.2.trans (uptoFeed_append_behindFeed t).symm)

/-- A single character up to the last line feed is this line feed. -/
theorem uptoFeed_eq_of_length_le (h : (uptoFeed t).length ≤ 1) :
    uptoFeed t = [] ∨ uptoFeed t = ['\n'] := by
  by_cases hnone : uptoFeed t = []
  · exact .inl hnone
  · obtain ⟨c, hc⟩ := List.length_eq_one_iff.1 (Nat.le_antisymm h (List.length_pos_iff.2 hnone))
    have hlast := List.rdropWhile_last_not (· != '\n') t hnone
    have heq : (uptoFeed t).getLast hnone = c := by simp only [hc, List.getLast_singleton]
    rw [show (t.rdropWhile (· != '\n')).getLast hnone = c from heq] at hlast
    exact .inr (by rw [hc, show c = '\n' by simpa using hlast])

/-- The look ahead for a line feed goes to the last one of the run and no further. -/
theorem throughLastLineFeed_append (hrun : ∀ c ∈ run, isWhiteSpace c = true)
    (hrest : StartsSolid rest) : throughLastLineFeed (run ++ rest) = (uptoFeed run).length := by
  induction run with
  | nil =>
    cases rest with
    | nil => rfl
    | cons c rest => simp [throughLastLineFeed, hrest c rfl, uptoFeed]
  | cons c run ih =>
    rw [List.forall_mem_cons] at hrun
    rw [List.cons_append, throughLastLineFeed, if_pos hrun.1, ih hrun.2, uptoFeed_cons]
    cases hupto : uptoFeed run with
    | nil => by_cases hc : c = '\n' <;> simp [hc]
    | cons d upto => simp

/-! ### One run after the other -/

/-- Without a line feed in it a run is as it was. -/
theorem foldRun_of_not_mem (h : '\n' ∉ run) : foldRun run = run := by
  have hall := ne_lineFeed_of_not_mem h
  have hnone : run.dropWhile (· != '\n') = [] := List.dropWhile_eq_nil_iff.2 hall
  simp [foldRun, hnone, List.takeWhile_eq_self_iff.2 hall, uptoFeed, behindFeed]

/-- Folding a run keeps what stands in front of its first line feed and behind its last, and puts
two line feeds in between if the stretch is long enough. -/
theorem foldRun_append {before more : Text} (hbefore : '\n' ∉ before) :
    foldRun (before ++ '\n' :: more)
      = before ++ (if 2 ≤ (uptoFeed more).length then ['\n', '\n'] else '\n' :: uptoFeed more)
        ++ behindFeed more := by
  have hall := ne_lineFeed_of_not_mem hbefore
  have hfront : (before ++ '\n' :: more).takeWhile (· != '\n') = before := by
    rw [List.takeWhile_append_of_pos hall, List.takeWhile_cons_of_neg (by decide), List.append_nil]
  have hinner : (before ++ '\n' :: more).dropWhile (· != '\n') = '\n' :: more := by
    rw [List.dropWhile_append_of_pos hall, List.dropWhile_cons_of_neg (by decide)]
  simp only [foldRun, hfront, hinner, uptoFeed_lineFeed, behindFeed_lineFeed, List.length_cons,
    Nat.reduceLeDiff]

/-- Characters of a stretch that was folded already are dropped. -/
theorem foldBlankLines_eq_drop (dropped : Nat) (t : Text) :
    foldBlankLines dropped t = foldBlankLines 0 (t.drop dropped) := by
  induction t generalizing dropped with
  | nil => cases dropped <;> rfl
  | cons c t ih =>
    cases dropped with
    | zero => rfl
    | succ dropped => exact ih dropped

theorem foldBlankLines_append_of_not_mem (h : '\n' ∉ run) (rest : Text) :
    foldBlankLines 0 (run ++ rest) = run ++ foldBlankLines 0 rest := by
  induction run with
  | nil => rfl
  | cons c run ih =>
    rw [List.mem_cons, not_or] at h
    rw [List.cons_append, foldBlankLines, if_neg fun hfold => h.1 hfold.1.symm, ih h.2]
    rfl

/-- With no more than its first character up to the last line feed, there is nothing to fold in a
run. -/
theorem foldBlankLines_append_of_length_le (hrun : ∀ c ∈ run, isWhiteSpace c = true)
    (hlen : (uptoFeed run).length ≤ 1) (hrest : StartsSolid rest) :
    foldBlankLines 0 (run ++ rest) = run ++ foldBlankLines 0 rest := by
  have hsplit := uptoFeed_append_behindFeed run
  have hbehind := not_mem_behindFeed run
  rcases uptoFeed_eq_of_length_le hlen with hupto | hupto
  · rw [hupto, List.nil_append] at hsplit
    exact foldBlankLines_append_of_not_mem (hsplit ▸ hbehind) rest
  · rw [hupto, List.singleton_append] at hsplit
    have hblank : ∀ c ∈ behindFeed run, isWhiteSpace c = true := fun c hc =>
      hrun c (hsplit ▸ List.mem_cons_of_mem _ hc)
    have hnone := throughLastLineFeed_append hblank hrest
    rw [uptoFeed_of_not_mem hbehind] at hnone
    rw [← hsplit, List.cons_append, foldBlankLines, hnone, if_neg (by decide),
      foldBlankLines_append_of_not_mem hbehind, List.cons_append]

/-- A run of white space is folded on its own. -/
theorem foldBlankLines_append_run (hrun : ∀ c ∈ run, isWhiteSpace c = true)
    (hrest : StartsSolid rest) :
    foldBlankLines 0 (run ++ rest) = foldRun run ++ foldBlankLines 0 rest := by
  by_cases hmem : '\n' ∈ run
  · obtain ⟨before, more, rfl, hbefore⟩ := List.eq_append_cons_of_mem hmem
    rw [List.forall_mem_append, List.forall_mem_cons] at hrun
    rw [foldRun_append hbefore, List.append_assoc, foldBlankLines_append_of_not_mem hbefore,
      List.cons_append, foldBlankLines, throughLastLineFeed_append hrun.2.2 hrest]
    by_cases hlong : 2 ≤ (uptoFeed more).length
    · have hdrop : (more ++ rest).drop (uptoFeed more).length = behindFeed more ++ rest := by
        have hsplit : more ++ rest = uptoFeed more ++ (behindFeed more ++ rest) := by
          rw [← List.append_assoc, uptoFeed_append_behindFeed]
        rw [hsplit, List.drop_left]
      rw [if_pos ⟨rfl, hlong⟩, if_pos hlong, foldBlankLines_eq_drop, hdrop,
        foldBlankLines_append_of_not_mem (not_mem_behindFeed more)]
      simp
    · rw [if_neg fun hfold => hlong hfold.2, if_neg hlong,
        foldBlankLines_append_of_length_le hrun.2.2 (by omega) hrest, List.append_assoc before,
        List.cons_append, uptoFeed_append_behindFeed, List.append_assoc, List.cons_append]
  · rw [foldBlankLines_append_of_not_mem hmem, foldRun_of_not_mem hmem]

/-- Neighbours that are both white space or both not make a run of one kind. -/
theorem isWhiteSpace_eq_of_isChain
    (h : (c :: t).IsChain fun c d => (isWhiteSpace c == isWhiteSpace d) = true) :
    ∀ d ∈ c :: t, isWhiteSpace d = isWhiteSpace c := by
  induction t generalizing c with
  | nil => exact List.forall_mem_singleton.2 rfl
  | cons d t ih =>
    obtain ⟨hsame, hrest⟩ := List.isChain_cons_cons.1 h
    have heq : isWhiteSpace d = isWhiteSpace c := (beq_iff_eq.1 hsame).symm
    refine List.forall_mem_cons.2 ⟨rfl, fun e he => ?_⟩
    exact (ih hrest e he).trans heq

/-- The first pass folds each run of white space, and leaves what stands between them as it is. -/
theorem foldBlankLines_eq (t : Text) : foldBlankLines 0 t = t.runs.flatMap foldRun := by
  have hne : [] ∉ t.runs := List.nil_notMem_splitBy _ t
  have hkind : ∀ run ∈ t.runs,
      run.IsChain fun c d => (isWhiteSpace c == isWhiteSpace d) = true :=
    fun run hrun => List.isChain_of_mem_splitBy hrun
  have hlongest := List.isChain_getLast_head_splitBy
    (fun c d => isWhiteSpace c == isWhiteSpace d) t
  have hwhole : t.runs.flatten = t := List.flatten_splitBy _ t
  conv => lhs; rw [← hwhole]
  change t.runs.IsChain _ at hlongest
  generalize t.runs = runs at hne hkind hlongest
  induction runs with
  | nil => rfl
  | cons run runs ih =>
    rw [List.mem_cons, not_or] at hne
    rw [List.forall_mem_cons] at hkind
    have hrest := ih hne.2 hkind.2 hlongest.tail
    rw [List.flatten_cons, List.flatMap_cons, ← hrest]
    cases run with
    | nil => exact absurd rfl hne.1
    | cons c run =>
      have hsame := isWhiteSpace_eq_of_isChain hkind.1
      cases hc : isWhiteSpace c with
      | true =>
        refine foldBlankLines_append_run (fun d hd => (hsame d hd).trans hc) ?_
        cases runs with
        | nil => nofun
        | cons next runs =>
          -- The next run starts with another kind of character, or it would be part of this one.
          obtain ⟨hlast, hhead, hother⟩ := (List.isChain_cons_cons.1 hlongest).1
          have hblank := (hsame _ (List.getLast_mem hlast)).trans hc
          rw [hblank] at hother
          cases next with
          | nil => exact absurd rfl hhead
          | cons d next =>
            rintro _ ⟨⟩
            simpa using hother
      | false =>
        have hsolid : '\n' ∉ c :: run := by
          intro hmem
          have hblank := (hsame _ hmem).trans hc
          rw [isWhiteSpace_lineFeed] at hblank
          cases hblank
        rw [foldBlankLines_append_of_not_mem hsolid, foldRun_of_not_mem hsolid]

example : (runs "a \r\n\t\r\n b\n\nc".toList).map foldRun
    = ["a", " \r\n\n ", "b", "\n\n", "c"].map String.toList := by
  decide

/-! ## Nothing left to fold -/

/-- The text holds no line feed, more white space and another line feed in a row. -/
def Folded (t : Text) : Prop :=
  ∀ blanks, blanks ≠ [] → (∀ c ∈ blanks, isWhiteSpace c = true) →
    ¬ '\n' :: blanks ++ ['\n'] <:+: t

theorem Folded.of_isInfix (h : Folded t) (hu : u <:+: t) : Folded u :=
  fun blanks hne hblanks hin => h blanks hne hblanks (hin.trans hu)

theorem folded_nil : Folded [] :=
  fun _ _ _ hin => List.cons_ne_nil _ _ (List.infix_nil.1 hin)

theorem throughLastLineFeed_lineFeed (t : Text) :
    throughLastLineFeed ('\n' :: t) = throughLastLineFeed t + 1 := by
  rw [throughLastLineFeed, if_pos isWhiteSpace_lineFeed]
  cases throughLastLineFeed t <;> rfl

/-- The distance to the last line feed is counted over blanks to any line feed behind them. -/
theorem length_lt_throughLastLineFeed (hblanks : ∀ c ∈ blanks, isWhiteSpace c = true)
    (rest : Text) : blanks.length < throughLastLineFeed (blanks ++ '\n' :: rest) := by
  induction blanks with
  | nil =>
    rw [List.nil_append, throughLastLineFeed_lineFeed]
    exact Nat.succ_pos _
  | cons c blanks ih =>
    rw [List.forall_mem_cons] at hblanks
    have hrest := ih hblanks.2
    rw [List.cons_append, List.length_cons, throughLastLineFeed, if_pos hblanks.1]
    cases hthrough : throughLastLineFeed (blanks ++ '\n' :: rest) with
    | zero => omega
    | succ n =>
      simp only
      omega

/-- Whether there is something to fold shows at each line feed. -/
theorem folded_cons_iff :
    Folded (c :: t) ↔ Folded t ∧ (c = '\n' → throughLastLineFeed t ≤ 1) := by
  constructor
  · intro h
    refine ⟨h.of_isInfix (List.suffix_cons c t).isInfix, ?_⟩
    rintro rfl
    by_contra hlong
    obtain ⟨n, hn⟩ : ∃ n, throughLastLineFeed t = n + 2 := ⟨throughLastLineFeed t - 2, by omega⟩
    obtain ⟨blanks, rest, rfl, hlen, hblanks⟩ := throughLastLineFeed_spec hn
    refine h blanks (List.ne_nil_of_length_pos (by omega)) hblanks ⟨[], rest, ?_⟩
    simp
  · rintro ⟨h, hc⟩ blanks hne hblanks hin
    rcases List.infix_cons_iff.1 hin with hfront | hin
    · obtain ⟨rest, hrest⟩ := hfront
      simp only [List.cons_append, List.append_assoc, List.cons.injEq, List.nil_append] at hrest
      obtain ⟨rfl, rfl⟩ := hrest
      have hlt := length_lt_throughLastLineFeed hblanks rest
      have hle := hc rfl
      have hpos := List.length_pos_iff.2 hne
      omega
    · exact h blanks hne hblanks hin

theorem throughLastLineFeed_cons_le (c : Char)
    (h : throughLastLineFeed u ≤ throughLastLineFeed t) :
    throughLastLineFeed (c :: u) ≤ throughLastLineFeed (c :: t) := by
  simp only [throughLastLineFeed]
  split
  · cases hu : throughLastLineFeed u <;> cases ht : throughLastLineFeed t <;> simp only <;> grind
  · exact Nat.le_refl 0

/-- Behind the last line feed of a run there is none. -/
theorem throughLastLineFeed_drop (t : Text) :
    throughLastLineFeed (t.drop (throughLastLineFeed t)) = 0 := by
  induction t with
  | nil => rfl
  | cons c t ih =>
    by_cases hc : isWhiteSpace c = true
    · cases hn : throughLastLineFeed t with
      | zero =>
        by_cases hfeed : c = '\n'
        · rw [hfeed, throughLastLineFeed_lineFeed, hn]
          exact hn
        · have hnone : throughLastLineFeed (c :: t) = 0 := by
            simp [throughLastLineFeed, hn, hfeed]
          rw [hnone]
          exact hnone
      | succ n =>
        have hmore : throughLastLineFeed (c :: t) = n + 2 := by
          simp [throughLastLineFeed, hc, hn]
        rw [hmore, List.drop_succ_cons, ← hn]
        exact ih
    · have hnone : throughLastLineFeed (c :: t) = 0 := by simp [throughLastLineFeed, hc]
      rw [hnone]
      exact hnone

/-- Folding moves no line feed away from the start. -/
theorem throughLastLineFeed_foldBlankLines_le (dropped : Nat) (t : Text) :
    throughLastLineFeed (foldBlankLines dropped t) ≤ throughLastLineFeed (t.drop dropped) := by
  induction t generalizing dropped with
  | nil => cases dropped <;> exact Nat.le_refl 0
  | cons c t ih =>
    cases dropped with
    | succ dropped => exact ih dropped
    | zero =>
      rw [foldBlankLines, List.drop_zero]
      split
      · next hfold =>
        have hbehind := ih (throughLastLineFeed t)
        rw [throughLastLineFeed_drop] at hbehind
        rw [hfold.1, throughLastLineFeed_lineFeed, throughLastLineFeed_lineFeed,
          throughLastLineFeed_lineFeed]
        omega
      · exact throughLastLineFeed_cons_le c (ih 0)

/-- What has been folded holds no stretch that would be folded again. -/
theorem foldBlankLines_folded (dropped : Nat) (t : Text) : Folded (foldBlankLines dropped t) := by
  induction t generalizing dropped with
  | nil => cases dropped <;> exact folded_nil
  | cons c t ih =>
    cases dropped with
    | succ dropped => exact ih dropped
    | zero =>
      rw [foldBlankLines]
      split
      · have hbehind := throughLastLineFeed_foldBlankLines_le (throughLastLineFeed t) t
        rw [throughLastLineFeed_drop] at hbehind
        refine folded_cons_iff.2 ⟨folded_cons_iff.2 ⟨ih _, fun _ => by omega⟩, fun _ => ?_⟩
        rw [throughLastLineFeed_lineFeed]
        omega
      · next hkeep =>
        refine folded_cons_iff.2 ⟨ih 0, fun hc => ?_⟩
        have hle := throughLastLineFeed_foldBlankLines_le 0 t
        rw [List.drop_zero] at hle
        have hshort : ¬ 2 ≤ throughLastLineFeed t := fun hlong => hkeep ⟨hc, hlong⟩
        omega

/-- A text without stretches to fold stays as it is. -/
theorem Folded.foldBlankLines_eq_self (h : Folded t) : foldBlankLines 0 t = t := by
  induction t with
  | nil => rfl
  | cons c t ih =>
    obtain ⟨hrest, hc⟩ := folded_cons_iff.1 h
    have hkeep : ¬ (c = '\n' ∧ 2 ≤ throughLastLineFeed t) := fun hfold =>
      Nat.not_succ_le_self 1 (hfold.2.trans (hc hfold.1))
    rw [foldBlankLines, if_neg hkeep, ih hrest]

theorem Folded.not_three (h : Folded t) : ¬ ['\n', '\n', '\n'] <:+: t :=
  h ['\n'] (List.cons_ne_nil _ _) (List.forall_mem_singleton.2 isWhiteSpace_lineFeed)

theorem foldLineFeeds_eq_self (h : ¬ ['\n', '\n', '\n'] <:+: t) : foldLineFeeds t = t := by
  induction t using foldLineFeeds.induct with
  | case1 => rfl
  | case2 t ih => exact absurd ⟨[], t, rfl⟩ h
  | case3 c t hfew ih =>
    rw [foldLineFeeds.eq_3 _ _ hfew, ih fun hin => h (hin.trans (List.suffix_cons c t).isInfix)]

/-- The second pass finds nothing that the first one has left. -/
theorem collapse_eq_foldBlankLines (t : Text) : t.collapse = foldBlankLines 0 t :=
  foldLineFeeds_eq_self (foldBlankLines_folded 0 t).not_three

/-- Collapsing changes nothing but the runs of white space, each on its own: the stretch from the
first line feed of the run to its last one becomes two line feeds if it is three characters long or
longer. The second pass has nothing to do. In the result no line feed, more white space and a line
feed stand in a row, all other characters are the same in the same order, and collapsing it again
changes nothing. -/
theorem collapse_folds_each_run (t : Text) :
    t.collapse = t.runs.flatMap foldRun ∧
    (¬ ['\n', '\n', '\n'] <:+: foldBlankLines 0 t ∧ t.collapse = foldBlankLines 0 t) ∧
    (∀ blanks, blanks ≠ [] → (∀ c ∈ blanks, isWhiteSpace c = true) →
      ¬ '\n' :: blanks ++ ['\n'] <:+: t.collapse) ∧
    t.collapse.filter isSolid = t.filter isSolid ∧
    t.collapse.collapse = t.collapse := by
  have hfolded := foldBlankLines_folded 0 t
  have hfirst := collapse_eq_foldBlankLines t
  refine ⟨hfirst.trans (foldBlankLines_eq t), ⟨hfolded.not_three, hfirst⟩, ?_,
    (collapse_relaid t).filter_isSolid, ?_⟩
  · rw [hfirst]
    exact hfolded
  · rw [collapse_eq_foldBlankLines t.collapse, hfirst, hfolded.foldBlankLines_eq_self]

/-- A line with a tab in it goes, and the spaces before the first line feed and behind the last
stay. -/
theorem collapse_folds_each_run_tab :
    let t : Text := "a \n\t\n b".toList
    t.collapse = "a \n\n b".toList ∧ ¬ '\n' :: ['\t'] ++ ['\n'] <:+: t.collapse ∧
      t.collapse.collapse = t.collapse := by
  intro t
  obtain ⟨-, -, hnone, -, htwice⟩ := collapse_folds_each_run t
  have hblank : ∀ c ∈ ['\t'], isWhiteSpace c = true := List.forall_mem_singleton.2 (by decide)
  exact ⟨by decide, hnone ['\t'] (List.cons_ne_nil _ _) hblank, htwice⟩

end Text

end SourceMacros

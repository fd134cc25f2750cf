import SourceMacros.Proofs.Lexing.Lossless

/-!
# Shortcuts and the order of rules

A rule that the first character rules out would have declined the text anyway
(`LexRule.quickCheck_sound`). So a lexer does the same whether or not it looks at that character
first (`Lexer.firstTokenBy_eq`).

What a sorted list of rules finds first depends only on the set of them, as long as no two rules of
one priority have an answer to the same text (`findSome?_eq_some_iff_of_sorted`). Of the rules of
the host language only two pairs share a priority, and no character starts a token of both
(`LexRule.quickCheck_exclusive`), so these rules may be listed in any order.
-/

namespace SourceMacros

/-! ## The first answer in a sorted list -/

/-- In a list sorted by a key, where no two elements of one key disagree, the first answer is that
of the elements of the highest key that has any. -/
theorem findSome?_eq_some_iff_of_sorted {α β : Type} {f : α → Option β} {key : α → Int} {l : List α}
    (hsorted : l.Pairwise fun a b => key b ≤ key a)
    (hagree : ∀ a ∈ l, ∀ b ∈ l, key a = key b → (f a).isSome → (f b).isSome → f a = f b) {x : β} :
    l.findSome? f = some x ↔ ∃ a ∈ l, f a = some x ∧ ∀ b ∈ l, (f b).isSome → key b ≤ key a := by
  induction l with
  | nil => simp
  | cons a l ih =>
    rw [List.pairwise_cons] at hsorted
    obtain ⟨hfirst, hsorted⟩ := hsorted
    cases ha : f a with
    | none =>
      have hlater := ih hsorted fun b hb d hd =>
        hagree b (List.mem_cons_of_mem a hb) d (List.mem_cons_of_mem a hd)
      simp [ha, hlater]
    | some y =>
      rw [List.findSome?_cons, ha]
      constructor
      · rintro ⟨rfl⟩
        refine ⟨a, List.mem_cons_self, ha, List.forall_mem_cons.2 ⟨fun _ => Int.le_refl _, ?_⟩⟩
        exact fun b hb _ => hfirst b hb
      · rintro ⟨b, hb, hanswer, hmax⟩
        have hle : key a ≤ key b := hmax a List.mem_cons_self (by simp [ha])
        have hge : key b ≤ key a := by
          rcases List.mem_cons.1 hb with rfl | hb
          · exact Int.le_refl _
          · exact hfirst b hb
        have hsame : f a = f b := hagree a List.mem_cons_self b hb (Int.le_antisymm hle hge)
          (by simp [ha]) (by simp [hanswer])
        exact ha.symm.trans (hsame.trans hanswer)

/-- Two sorted lists of the same elements have the same first answer. -/
theorem findSome?_eq_of_perm {α β : Type} {f : α → Option β} {key : α → Int} {l m : List α}
    (hl : l.Pairwise fun a b => key b ≤ key a) (hm : m.Pairwise fun a b => key b ≤ key a)
    (hperm : l.Perm m)
    (hagree : ∀ a ∈ m, ∀ b ∈ m, key a = key b → (f a).isSome → (f b).isSome → f a = f b) :
    l.findSome? f = m.findSome? f := by
  refine Option.ext fun x => ?_
  rw [findSome?_eq_some_iff_of_sorted hm hagree, findSome?_eq_some_iff_of_sorted hl]
  · simp only [hperm.mem_iff]
  · exact fun a ha b hb => hagree a (hperm.mem_iff.1 ha) b (hperm.mem_iff.1 hb)

namespace LexRule

/-! ## Sorting rules -/

theorem insertByPriority_perm (r : LexRule) (rules : List LexRule) :
    (r.insertByPriority rules).Perm (r :: rules) := by
  induction rules with
  | nil => exact .refl _
  | cons s rules ih =>
    rw [insertByPriority]
    split
    · exact .refl _
    · exact (ih.cons s).trans (.swap r s rules)

/-- Sorting by priority loses no rule and adds none. -/
theorem byPriority_perm (rules : List LexRule) : (byPriority rules).Perm rules := by
  induction rules with
  | nil => exact .refl _
  | cons r rules ih => exact (insertByPriority_perm r _).trans (ih.cons r)

theorem insertByPriority_sorted {r : LexRule} {rules : List LexRule}
    (h : rules.Pairwise fun r s => s.priority ≤ r.priority) :
    (r.insertByPriority rules).Pairwise fun r s => s.priority ≤ r.priority := by
  induction rules with
  | nil => exact List.pairwise_singleton _ _
  | cons s rules ih =>
    have hlater := List.pairwise_cons.1 h
    rw [insertByPriority]
    split
    · next hle =>
      refine List.pairwise_cons.2 ⟨List.forall_mem_cons.2 ⟨hle, fun q hq => ?_⟩, h⟩
      exact Int.le_trans (hlater.1 q hq) hle
    · next hlt =>
      refine List.pairwise_cons.2 ⟨fun q hq => ?_, ih hlater.2⟩
      rcases List.mem_cons.1 ((insertByPriority_perm r rules).mem_iff.1 hq) with rfl | hq
      · exact Int.le_of_lt (Int.not_le.1 hlt)
      · exact hlater.1 q hq

/-- Sorting by priority leaves higher priorities in front. -/
theorem byPriority_sorted (rules : List LexRule) :
    (byPriority rules).Pairwise fun r s => s.priority ≤ r.priority := by
  induction rules with
  | nil => exact .nil
  | cons r rules ih => exact insertByPriority_sorted ih

/-! ## The look at the first character -/

variable {c : Char} {r s : LexRule}

/-- A front whose first character satisfies a condition stands in front of no text whose first
character does not. -/
theorem startsWith_eq_false {p : Char → Bool} {front : Text} (hfront : front.head?.any p = true)
    (hc : p c = false) (t : Text) : Text.startsWith (c :: t) front = false := by
  cases front with
  | nil => cases hfront
  | cons d front =>
    have hne : d ≠ c := by
      rintro rfl
      exact Bool.false_ne_true (hc.symm.trans hfront)
    simp [Text.startsWith, Text.after?, hne]

theorem find?_startsWith_of_first {p : Char → Bool} {fronts : List Text}
    (hfronts : ∀ front ∈ fronts, front.head?.any p = true) (hc : p c = false) (t : Text) :
    fronts.find? (Text.startsWith (c :: t) ·) = none :=
  List.find?_eq_none.2 fun front hmem =>
    Bool.eq_false_iff.1 (startsWith_eq_false (hfronts front hmem) hc t)

/-- A text that starts neither with a slash nor with a hash sign starts no comment. -/
theorem scanComment_of_ne (hslash : c ≠ '/') (hhash : c ≠ '#') (t : Text) :
    scanComment (c :: t) = .declined := by
  unfold scanComment
  split
  · next heq => exact absurd (List.cons.inj heq).1 hslash
  · next heq => exact absurd (List.cons.inj heq).1 hslash
  · rfl
  · next heq => exact absurd (List.cons.inj heq).1 hhash
  · rfl

theorem scanVariable_of_ne (hdollar : c ≠ '$') (t : Text) :
    scanVariable (c :: t) = .declined := by
  unfold scanVariable
  split
  · next heq => exact absurd (List.cons.inj heq).1 hdollar
  · rfl

/-- A rule that is ruled out by the first character declines. In particular it does not miss that a
construct is never closed. -/
theorem quickCheck_sound (h : r.quickCheck c = some false) (t : Text) :
    r.scan (c :: t) = .declined := by
  cases r with
  | tag =>
    have hc := Option.some.inj h
    have hall : ∀ front ∈ tags, front.head?.any (fun c => c == '<' || c == '?') = true := by decide
    rw [scan, scanOneOf, find?_startsWith_of_first hall hc]
  | comment =>
    obtain ⟨hslash, hhash⟩ := Bool.or_eq_false_iff.1 (Option.some.inj h)
    exact scanComment_of_ne (ne_of_beq_false hslash) (ne_of_beq_false hhash) t
  | string =>
    have hc := Option.some.inj h
    simp only [scan, scanString, hc, Bool.false_eq_true, if_false]
  | variableName =>
    exact scanVariable_of_ne (ne_of_beq_false (Option.some.inj h)) t
  | number =>
    have hc := Option.some.inj h
    simp only [scan, scanNumber, hc, Bool.false_eq_true, if_false]
  | word =>
    have hc := Option.some.inj h
    simp only [scan, scanWord, hc, Bool.false_eq_true, if_false]
  | whitespace =>
    have hc := Option.some.inj h
    simp only [scan, scanWhitespace, List.takeWhile_cons, hc, Bool.false_eq_true, if_false]
  | punctuation =>
    have hc := Option.some.inj h
    have hall : ∀ front ∈ operators, front.head?.any isAsciiPunctuation = true := by decide
    simp only [scan, scanPunctuation, find?_startsWith_of_first hall hc, hc, Bool.false_eq_true,
      if_false]
  | literal text kind priority => cases h

theorem isWordStart_of_isAsciiDigit (h : isAsciiDigit c = true) : isWordStart c = false := by
  have hall : ∀ n ∈ List.range 58, isAsciiDigit (Char.ofNat n) = true →
      isWordStart (Char.ofNat n) = false := by decide
  have hlast : c.toNat ≤ 57 := of_decide_eq_true (Bool.and_eq_true_iff.1 h).2
  have hword := hall c.toNat (List.mem_range.2 (Nat.lt_succ_of_le hlast))
  rw [Char.ofNat_toNat] at hword
  exact hword h

/-- No two rules of the host language that have the same priority start with the same character. -/
theorem quickCheck_exclusive (hr : r ∈ standard) (hs : s ∈ standard) (heq : r.priority = s.priority)
    (hrc : r.quickCheck c ≠ some false) (hsc : s.quickCheck c ≠ some false) : r = s := by
  have hpairs : ∀ r ∈ standard, ∀ s ∈ standard, r.priority = s.priority → r = s ∨
      (r, s) ∈ [(string, variableName), (variableName, string), (number, word),
        (word, number)] := by
    decide
  have hdollar (hquote : string.quickCheck c ≠ some false)
      (hname : variableName.quickCheck c ≠ some false) : False := by
    simp only [quickCheck, ne_eq, Option.some.injEq, Bool.not_eq_false, beq_iff_eq] at hquote hname
    subst hname
    cases hquote
  have hdigit (hnumber : number.quickCheck c ≠ some false)
      (hword : word.quickCheck c ≠ some false) : False := by
    simp only [quickCheck, ne_eq, Option.some.injEq, Bool.not_eq_false] at hnumber hword
    rw [isWordStart_of_isAsciiDigit hnumber] at hword
    cases hword
  have hpair := hpairs r hr s hs heq
  simp only [List.mem_cons, Prod.mk.injEq, List.not_mem_nil, or_false] at hpair
  rcases hpair with rfl | ⟨rfl, rfl⟩ | ⟨rfl, rfl⟩ | ⟨rfl, rfl⟩ | ⟨rfl, rfl⟩
  · rfl
  · exact (hdollar hrc hsc).elim
  · exact (hdollar hsc hrc).elim
  · exact (hdigit hrc hsc).elim
  · exact (hdigit hsc hrc).elim

/-- What the rule has to say about a text at position `p`, if anything: a token that is not empty,
or that a construct is never closed. -/
def answer? (p : Position) (t : Text) (r : LexRule) : Option (Except LexError Token) :=
  match r.scan t with
  | .declined => none
  | .found _ [] => none
  | .found kind (c :: lexeme) => some (.ok ⟨kind, c :: lexeme, p⟩)
  | .unterminated what => some (.error (.unterminated what p))

theorem answer?_of_quickCheck (h : r.quickCheck c = some false) (p : Position) (t : Text) :
    r.answer? p (c :: t) = none := by
  rw [answer?, quickCheck_sound h]

end LexRule

namespace Lexer

open LexRule

variable {rules : List LexRule} {p : Position} {c : Char} {t : Text}

/-! ## Lexers with another look at the first character -/

/-- The token that the first fitting rule finds in `c :: t`, where `quick` looks at the first
character and says which rules are passed over. -/
def firstTokenBy (quick : LexRule → Char → Option Bool) (p : Position) (c : Char) (t : Text) :
    List LexRule → Except LexError Token
  | [] => .error (.unexpectedCharacter c p)
  | r :: rules =>
    if quick r c = some false then firstTokenBy quick p c t rules
    else
      match r.scan (c :: t) with
      | .declined => firstTokenBy quick p c t rules
      | .found _ [] => firstTokenBy quick p c t rules
      | .found kind (d :: lexeme) => .ok ⟨kind, d :: lexeme, p⟩
      | .unterminated what => .error (.unterminated what p)

/-- Splits a text into tokens, where `first` finds the first token of what is left. The first
`pending` characters belong to a token found before. -/
def tokenizeFromBy (first : Position → Char → Text → Except LexError Token) :
    (pending : Nat) → Position → Text → Except LexError (List Token)
  | _, _, [] => .ok []
  | pending + 1, p, c :: t => tokenizeFromBy first pending (p.advance c) t
  | 0, p, c :: t =>
    match first p c t with
    | .error e => .error e
    | .ok token =>
      match tokenizeFromBy first (token.lexeme.length - 1) (p.advance c) t with
      | .error e => .error e
      | .ok tokens => .ok (token :: tokens)

/-- Splits a whole source into tokens, where `quick` takes the place of the look that the rules take
themselves. -/
def tokenizeBy (quick : LexRule → Char → Option Bool) (l : Lexer) (source : Text) :
    Except LexError (List Token) :=
  tokenizeFromBy (fun p c t => firstTokenBy quick p c t l.rules) 0 Position.start source

theorem firstTokenBy_quickCheck (p : Position) (c : Char) (t : Text) (rules : List LexRule) :
    firstTokenBy quickCheck p c t rules = firstToken p c t rules := by
  induction rules with
  | nil => rfl
  | cons r rules ih =>
    rw [firstTokenBy, ih]
    rfl

theorem tokenizeFromBy_firstToken (rules : List LexRule) (pending : Nat) (p : Position) (t : Text) :
    tokenizeFromBy (fun p c t => firstToken p c t rules) pending p t
      = tokenizeFrom rules pending p t := by
  induction t generalizing pending p with
  | nil => simp only [tokenizeFromBy, tokenizeFrom]
  | cons c t ih =>
    cases pending with
    | succ pending => simp only [tokenizeFromBy, tokenizeFrom, ih]
    | zero =>
      simp only [tokenizeFromBy, ih]
      rfl

/-- A look that passes over no rule with an answer does not change what is found. -/
theorem firstTokenBy_eq {quick : LexRule → Char → Option Bool}
    (hsound : ∀ r ∈ rules, quick r c = some false → r.answer? p (c :: t) = none) :
    firstTokenBy quick p c t rules
      = (rules.findSome? (answer? p (c :: t))).getD (.error (.unexpectedCharacter c p)) := by
  induction rules with
  | nil => rfl
  | cons r rules ih =>
    rw [List.forall_mem_cons] at hsound
    rw [firstTokenBy, List.findSome?_cons, ih hsound.2]
    split
    · next hquick => simp only [hsound.1 hquick]
    · unfold answer?
      split <;> simp only [Option.getD_some]

/-- The rules find what the first of them to have an answer says. -/
theorem firstToken_eq (p : Position) (c : Char) (t : Text) (rules : List LexRule) :
    firstToken p c t rules
      = (rules.findSome? (answer? p (c :: t))).getD (.error (.unexpectedCharacter c p)) := by
  rw [← firstTokenBy_quickCheck]
  exact firstTokenBy_eq fun r _ hquick => answer?_of_quickCheck hquick p t

theorem tokenizeBy_quickCheck (l : Lexer) (source : Text) :
    l.tokenizeBy quickCheck source = l.tokenize source := by
  simp only [tokenizeBy, firstTokenBy_quickCheck, tokenizeFromBy_firstToken, tokenize]

/-- A lexer that never looks at the first character reads the same tokens. -/
theorem tokenizeBy_none (l : Lexer) (source : Text) :
    l.tokenizeBy (fun _ _ => none) source = l.tokenize source := by
  have hfirst (p : Position) (c : Char) (t : Text) :
      firstTokenBy (fun _ _ => none) p c t l.rules = firstToken p c t l.rules := by
    rw [firstToken_eq]
    exact firstTokenBy_eq nofun
  simp only [tokenizeBy, hfirst, tokenizeFromBy_firstToken, tokenize]

/-! ## Lexers with their rules in another order -/

/-- The rules of the host language find the same whatever order they were listed in. -/
theorem firstToken_of_perm (h : rules.Perm LexRule.standard) (p : Position) (c : Char) (t : Text) :
    firstToken p c t (ofRules rules).rules = firstToken p c t standard.rules := by
  have hperm : (byPriority rules).Perm (byPriority LexRule.standard) :=
    (byPriority_perm rules).trans (h.trans (byPriority_perm LexRule.standard).symm)
  have hstart {r : LexRule} (hanswer : (r.answer? p (c :: t)).isSome) :
      r.quickCheck c ≠ some false := by
    intro hquick
    rw [answer?_of_quickCheck hquick] at hanswer
    cases hanswer
  rw [firstToken_eq, firstToken_eq]
  refine congrArg (Option.getD · _) ?_
  refine findSome?_eq_of_perm (byPriority_sorted rules) (byPriority_sorted _) hperm ?_
  intro r hr s hs heq hranswer hsanswer
  have hmem := byPriority_perm LexRule.standard
  rw [quickCheck_exclusive (hmem.mem_iff.1 hr) (hmem.mem_iff.1 hs) heq (hstart hranswer)
    (hstart hsanswer)]

/-- The rules of the host language may be given in any order. -/
theorem tokenize_of_perm (h : rules.Perm LexRule.standard) (source : Text) :
    (ofRules rules).tokenize source = lex source := by
  have hfirst := firstToken_of_perm h
  simp only [tokenize, lex, ← tokenizeFromBy_firstToken, hfirst]

/-- Any lexer does the same without the look at the first character, and the lexer of the host
language does the same with its rules in any order. -/
theorem shortcuts_and_order_change_nothing :
    (∀ (rules : List LexRule) (source : Text),
      (ofRules rules).tokenizeBy quickCheck source = (ofRules rules).tokenize source ∧
      (ofRules rules).tokenizeBy (fun _ _ => none) source = (ofRules rules).tokenize source) ∧
    ∀ rules : List LexRule, rules.Perm LexRule.standard → ∀ source : Text,
      (ofRules rules).tokenize source = lex source :=
  ⟨fun _ source => ⟨tokenizeBy_quickCheck _ source, tokenizeBy_none _ source⟩,
    fun _ h source => tokenize_of_perm h source⟩

/-- The rules listed backwards are tried in another order. A comment that is never closed is found
behind a literal without the look at the slash. -/
theorem shortcuts_and_order_change_nothing_backwards :
    LexRule.standard.reverse.Perm LexRule.standard ∧
    (ofRules LexRule.standard.reverse).rules ≠ standard.rules ∧
    (ofRules LexRule.standard.reverse).tokenize "$a=1".toList = lex "$a=1".toList ∧
    (ofRules [.comment, .literal ['a'] .tag 7]).tokenizeBy (fun _ _ => none) "a/*".toList
      = .error (.unterminated .blockComment ⟨1, 2, 1⟩) := by
  have hperm : LexRule.standard.reverse.Perm LexRule.standard := List.reverse_perm _
  obtain ⟨hquick, horder⟩ := shortcuts_and_order_change_nothing
  refine ⟨hperm, by decide, horder _ hperm _, ?_⟩
  rw [(hquick [.comment, .literal ['a'] .tag 7] "a/*".toList).2]
  rfl

end Lexer

end SourceMacros

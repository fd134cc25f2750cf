import SourceMacros.Proofs.Rule.Lookahead
import SourceMacros.Proofs.Rule.TriviaIndependence

/-!
# Rules in front of a known run of tokens

What a rule does in front of a known run of tokens, whatever trivia stands between them: it takes
the first part of the run, with a known capture (`Rule.Reads`), or it does not match there
(`Rule.Rejects`). There is one lemma for each form of rule, so a rule that is put together from
others is followed part by part.

Rules are greedy: how far a part goes depends on what stands behind it. So every statement names the
rest of the run, and the lemma for a form that could go on asks for a rest that stops it.
-/

namespace SourceMacros

open TokenStream

/-! ## What stands ahead -/

namespace TokenStream

/-- What rules see from the cursor on: the significant tokens, without positions. -/
def ahead (s : TokenStream) : List Token :=
  s.remaining.map Token.unplaced

variable {s t : TokenStream} {token : Token} {ts rest : List Token}

/-- A stream over a source stands in front of its significant tokens. -/
theorem exists_ofSource {source : Text} (h : (ofSource source).map ahead = .ok ts) :
    ∃ s, ofSource source = .ok s ∧ s.Settled ∧ s.ahead = ts := by
  unfold ofSource at h ⊢
  cases hlex : lex source with
  | error e =>
    rw [hlex] at h
    cases h
  | ok tokens =>
    rw [hlex] at h
    exact ⟨ofTokens tokens, rfl, ofTokens_settled tokens, Except.ok.inj h⟩

/-- The first token ahead is the current one, and `next` leaves the others ahead. -/
theorem exists_current (hs : s.Settled) (h : s.ahead = token :: rest) :
    ∃ found, s.current = some found ∧ found.unplaced = token ∧ s.next.ahead = rest := by
  cases hcurrent : s.current with
  | none =>
    rw [ahead, remaining_of_end hcurrent] at h
    cases h
  | some found =>
    rw [ahead, remaining_of_current hs hcurrent, List.map_cons, List.cons.injEq] at h
    exact ⟨found, rfl, h.1, h.2⟩

theorem current_of_ahead_eq_nil (hs : s.Settled) (h : s.ahead = []) : s.current = none := by
  rw [ahead, List.map_eq_nil_iff] at h
  rw [current_eq_head?_remaining hs, h, List.head?_nil]

theorem current_map_unplaced (hs : s.Settled) : s.current.map Token.unplaced = s.ahead.head? := by
  rw [current_eq_head?_remaining hs, ahead, List.head?_map]

/-- What can be asked of a token regardless of its position can be asked of the first one ahead. -/
theorem any_current_of_ahead (hs : s.Settled) {p : Token → Bool} (hp : ∀ t, p t.unplaced = p t) :
    s.current.any p = s.ahead.head?.any p := by
  rw [← current_map_unplaced hs, Token.any_map_unplaced hp]

/-- What was consumed and what is still ahead make up what was ahead. -/
theorem bare_consumed_append_ahead (h : s.Reaches t) :
    Token.bare (s.consumed t) ++ t.ahead = s.ahead := by
  rw [ahead, ahead, Token.bare, ← List.map_append, filter_consumed_append_remaining h]

/-- The span of a match is what it took from the run. -/
theorem bare_spanFrom_of_ahead (h : s.Reaches t) (hs : s.ahead = ts ++ rest) (ht : t.ahead = rest) :
    Token.bare (t.spanFrom s.cursor) = ts := by
  have hsplit := bare_consumed_append_ahead h
  rw [hs, ht] at hsplit
  rw [spanFrom_eq h.tokens_eq, Token.bare_dropTrailingTrivia]
  exact List.append_cancel_right hsplit

theorem length_ahead (s : TokenStream) : s.ahead.length = s.remaining.length :=
  List.length_map _

theorem cursor_ne_of_ahead (hs : s.Settled) (h : s.Reaches t) (hahead : s.ahead = ts ++ rest)
    (ht : t.ahead = rest) (hne : ts ≠ []) : t.cursor ≠ s.cursor := by
  rw [Ne, h.cursor_eq_iff hs, ← length_ahead, ← length_ahead, hahead, ht, List.length_append]
  have hpos := List.length_pos_iff.2 hne
  omega

end TokenStream

/-! ## Taking and rejecting -/

/-- In front of `ts` and `rest` the parser takes `ts`, with a value that looks like `v`. -/
def Takes {α γ : Type} (view : α → γ) (p : TokenStream → Parsed α) (ts rest : List Token) (v : γ) :
    Prop :=
  ∀ ⦃s : TokenStream⦄, s.Settled → s.ahead = ts ++ rest →
    ∃ a t, p s = .matched a t ∧ s.Reaches t ∧ t.ahead = rest ∧ view a = v

namespace Rule

open Capture

/-- In front of `ts` and `rest` the rule takes `ts`, with the capture `c`. -/
abbrev Reads (rule : Rule) (ts rest : List Token) (c : Capture) : Prop :=
  Takes Capture.bare rule.parse ts rest c

/-- In front of `ts` the rule does not match. -/
def Rejects (rule : Rule) (ts : List Token) : Prop :=
  ∀ ⦃s : TokenStream⦄, s.Settled → s.ahead = ts → ∃ why, rule.parse s = .mismatched why s

/-- In front of `ts` the rules do not all match one after the other. -/
def RejectsChain (rules : List Rule) (ts : List Token) : Prop :=
  ∀ ⦃s : TokenStream⦄, s.Settled → s.ahead = ts → ∃ why t, parseChain rules s = .mismatched why t

variable {rule : Rule} {rules : List Rule} {ts us rest : List Token} {c : Capture}

/-! ## Single tokens -/

theorem takes_token {p : Token → Bool} (hp : ∀ t, p t.unplaced = p t) {token : Token}
    (h : p token = true) (expected : Text) (rest : List Token) :
    Takes Capture.bare (parseToken p expected) [token] rest (.leaf [token]) := by
  intro s hs hahead
  obtain ⟨found, hcurrent, rfl, hnext⟩ := exists_current hs hahead
  rw [hp] at h
  refine ⟨.leaf [found], s.next, ?_, next_reaches hs, hnext, ?_⟩
  · simp only [parseToken, hcurrent, if_pos h]
  · rw [Capture.bare, Token.bare_singleton_of_significant (hs.significant hcurrent)]

theorem reads_token {kind : TokenKind} {token : Token} (h : token.kind = kind)
    (rest : List Token) : (Rule.token kind).Reads [token] rest (.leaf [token]) := by
  intro s hs hahead
  simp only [parse]
  exact takes_token (fun _ => rfl) (by simpa using h) _ rest hs hahead

theorem reads_lexeme {text : Text} {token : Token} (h : token.lexeme = text)
    (rest : List Token) : (lexeme text).Reads [token] rest (.leaf [token]) := by
  intro s hs hahead
  simp only [parse]
  exact takes_token (fun _ => rfl) (by simpa using h) _ rest hs hahead

/-- A rule that the first token rules out does not match. -/
theorem rejects_of_ruledOut (h : rule.quickCheck ts.head? = some false) : rule.Rejects ts := by
  intro s hs hahead
  have hcheck : rule.toOpen.quickCheck s.current = some false := by
    rw [quickCheck_toOpen, ← quickCheck_unplaced, current_map_unplaced hs, hahead, h]
  obtain ⟨why, hfails⟩ := OpenRule.fails_of_ruledOut true rule.toOpen hs hcheck
  rw [run_toOpen] at hfails
  exact ⟨why, hfails⟩

/-- The first of the tokens, if there is any, does not have this lexeme. -/
def NotNext (t : Text) (ts : List Token) : Prop :=
  ∀ token ∈ ts.head?, token.lexeme ≠ t

theorem notNext_nil (t : Text) : NotNext t [] :=
  fun _ htoken => absurd htoken (Option.not_mem_none _)

theorem notNext_cons {t : Text} {token : Token} (h : token.lexeme ≠ t) (ts : List Token) :
    NotNext t (token :: ts) := by
  intro found hfound
  obtain rfl := Option.mem_some.1 hfound
  exact h

theorem NotNext.append {t : Text} (hts : NotNext t ts) (hus : NotNext t us) :
    NotNext t (ts ++ us) := by
  cases ts with
  | nil => exact hus
  | cons token ts => exact notNext_cons (hts token rfl) _

theorem rejects_lexeme {text : Text} (h : NotNext text ts) : (lexeme text).Rejects ts := by
  refine rejects_of_ruledOut ?_
  cases ts with
  | nil => rfl
  | cons token ts => simpa [quickCheck] using h token rfl

theorem rejects_token {kind : TokenKind} (h : ∀ token ∈ ts.head?, token.kind ≠ kind) :
    (Rule.token kind).Rejects ts := by
  refine rejects_of_ruledOut ?_
  cases ts with
  | nil => rfl
  | cons token ts => simpa [quickCheck] using h token rfl

/-- A token cannot be ruled out in front of what the rule reads. -/
theorem not_ruledOut_of_matched {s t : TokenStream} {d : Capture} (hs : s.Settled)
    (h : rule.parse s = .matched d t) : ¬ rule.quickCheck s.current = some false := by
  intro hcheck
  have hopen : rule.toOpen.quickCheck s.current = some false := by
    rw [quickCheck_toOpen, hcheck]
  obtain ⟨why, hfails⟩ := OpenRule.fails_of_ruledOut true rule.toOpen hs hopen
  rw [run_toOpen, h] at hfails
  cases hfails

/-! ## Labels, sequence and choice -/

theorem reads_labelled (label : Label) (h : rule.Reads ts rest c) :
    (labelled label rule).Reads ts rest (.labelled label c) := by
  intro s hs hahead
  obtain ⟨d, t, hparse, hst, ht, rfl⟩ := h hs hahead
  refine ⟨.labelled label d, t, ?_, hst, ht, ?_⟩
  · simp only [parse, hparse, Parsed.map]
  · simp only [Capture.labelled, Capture.bare, bareEntries, tokens_bare]

theorem rejects_labelled (label : Label) (h : rule.Rejects ts) :
    (labelled label rule).Rejects ts := by
  intro s hs hahead
  obtain ⟨why, hparse⟩ := h hs hahead
  exact ⟨why, by simp only [parse, hparse, Parsed.map]⟩

theorem takes_chain_nil (rest : List Token) : Takes bareEntries (parseChain []) [] rest [] := by
  intro s hs hahead
  exact ⟨[], s, rfl, .refl hs, hahead, rfl⟩

theorem takes_chain_cons {entries : Entries} (h : rule.Reads ts (us ++ rest) c)
    (hrules : Takes bareEntries (parseChain rules) us rest entries) :
    Takes bareEntries (parseChain (rule :: rules)) (ts ++ us) rest (c.entries ++ entries) := by
  intro s hs hahead
  rw [List.append_assoc] at hahead
  obtain ⟨d, t, hparse, hst, ht, rfl⟩ := h hs hahead
  obtain ⟨es, u, hchain, htu, hu, rfl⟩ := hrules hst.settled ht
  refine ⟨d.entries ++ es, u, ?_, hst.trans htu, hu, ?_⟩
  · simp only [parseChain, hparse, hchain, Parsed.map]
  · rw [bareEntries_append, entries_bare]

theorem takes_chain_last (h : rule.Reads ts rest c) :
    Takes bareEntries (parseChain [rule]) ts rest c.entries := by
  have hchain : Takes bareEntries (parseChain [rule]) (ts ++ []) rest (c.entries ++ []) :=
    takes_chain_cons h (takes_chain_nil rest)
  rwa [List.append_nil, List.append_nil] at hchain

theorem reads_chain {entries : Entries} (h : Takes bareEntries (parseChain rules) ts rest entries) :
    (chain rules).Reads ts rest (.tree ts entries) := by
  intro s hs hahead
  obtain ⟨es, t, hchain, hst, ht, rfl⟩ := h hs hahead
  refine ⟨.tree (t.spanFrom s.cursor) es, t, ?_, hst, ht, ?_⟩
  · simp only [parse, hchain]
  · rw [Capture.bare, bare_spanFrom_of_ahead hst hahead ht]

theorem rejectsChain_head (h : rule.Rejects ts) : RejectsChain (rule :: rules) ts := by
  intro s hs hahead
  obtain ⟨why, hparse⟩ := h hs hahead
  exact ⟨why, s, by simp only [parseChain, hparse]⟩

/-- A chain also rejects a text if its first rule reads a front of it and the others reject the
rest. -/
theorem rejectsChain_tail (h : rule.Reads ts rest c) (hrules : RejectsChain rules rest) :
    RejectsChain (rule :: rules) (ts ++ rest) := by
  intro s hs hahead
  obtain ⟨d, t, hparse, hst, ht, -⟩ := h hs hahead
  obtain ⟨why, u, hchain⟩ := hrules hst.settled ht
  exact ⟨why, u, by simp only [parseChain, hparse, hchain, Parsed.map]⟩

/-- If the rules of a chain fail in the middle, the chain gives everything back. -/
theorem rejects_chain (h : RejectsChain rules ts) : (chain rules).Rejects ts := by
  intro s hs hahead
  obtain ⟨why, t, hchain⟩ := h hs hahead
  have hwithin := parseChain_within rules hs
  rw [hchain] at hwithin
  cases hwithin with
  | mismatched hst =>
    refine ⟨why, ?_⟩
    simp only [parse, hchain, restore_checkpoint hs hst.tokens_eq]

/-- A choice reads what its first alternative that matches reads. -/
theorem reads_either (before after : List Rule) (hbefore : ∀ r ∈ before, r.Rejects (ts ++ rest))
    (h : rule.Reads ts rest c) : (either (before ++ rule :: after)).Reads ts rest c := by
  intro s hs hahead
  obtain ⟨d, t, hparse, hmatch⟩ := h hs hahead
  refine ⟨d, t, ?_, hmatch⟩
  rw [parse]
  generalize (either (before ++ rule :: after)).expected = expected
  induction before with
  | nil =>
    rw [List.nil_append, parseEither, if_neg (not_ruledOut_of_matched hs hparse)]
    simp only [hparse]
  | cons r before ih =>
    rw [List.forall_mem_cons] at hbefore
    obtain ⟨why, hrejects⟩ := hbefore.1 hs hahead
    rw [List.cons_append, parseEither]
    split
    · exact ih hbefore.2
    · simp only [hrejects, restore_checkpoint hs rfl]
      exact ih hbefore.2

theorem reads_either_head (after : List Rule) (h : rule.Reads ts rest c) :
    (either (rule :: after)).Reads ts rest c :=
  reads_either [] after (fun _ hr => absurd hr List.not_mem_nil) h

theorem rejects_either (h : ∀ r ∈ rules, r.Rejects ts) : (either rules).Rejects ts := by
  intro s hs hahead
  rw [parse]
  generalize (either rules).expected = expected
  induction rules with
  | nil => exact ⟨_, rfl⟩
  | cons r rules ih =>
    rw [List.forall_mem_cons] at h
    obtain ⟨why, hrejects⟩ := h.1 hs hahead
    rw [parseEither]
    split
    · exact ih h.2
    · simp only [hrejects, restore_checkpoint hs rfl]
      exact ih h.2

theorem reads_optional (h : rule.Reads ts rest c) : (optional rule).Reads ts rest c := by
  intro s hs hahead
  obtain ⟨d, t, hparse, hmatch⟩ := h hs hahead
  exact ⟨d, t, by simp only [parse, hparse], hmatch⟩

theorem reads_optional_absent (h : rule.Rejects rest) : (optional rule).Reads [] rest .empty := by
  intro s hs hahead
  obtain ⟨why, hparse⟩ := h hs hahead
  refine ⟨.empty, s, ?_, .refl hs, hahead, rfl⟩
  simp only [parse, hparse, restore_checkpoint hs rfl]

/-- An optional part, written out or not. -/
theorem reads_optionally {α : Type} {x : Option α} {tokens : α → List Token} {capture : α → Capture}
    (hsome : ∀ y ∈ x, rule.Reads (tokens y) rest (capture y))
    (hnone : x = none → rule.Rejects rest) :
    (optional rule).Reads (x.elim [] tokens) rest (x.elim .empty capture) := by
  cases x with
  | none => exact reads_optional_absent (hnone rfl)
  | some y => exact reads_optional (hsome y rfl)

/-- The token, if it is there. -/
def optionalToken (present : Bool) (token : Token) : List Token :=
  if present then [token] else []

/-- An optional rule for a single token reads it if it is there, and otherwise must find something
else. -/
theorem reads_optionalToken {present : Bool} {token : Token}
    (hread : rule.Reads [token] rest (.leaf [token]))
    (habsent : present = false → rule.Rejects rest) :
    (optional rule).Reads (optionalToken present token) rest
      (.leaf (optionalToken present token)) := by
  cases present with
  | false => exact reads_optional_absent (habsent rfl)
  | true => exact reads_optional hread

/-! ## Repetition -/

/-- A list of runs that are not empty is no longer than the runs together. -/
theorem length_le_length_flatMap {α : Type} (run : α → List Token) {xs : List α}
    (hne : ∀ x ∈ xs, run x ≠ []) : xs.length ≤ (xs.flatMap run).length := by
  induction xs with
  | nil => exact Nat.le_refl _
  | cons x xs ih =>
    rw [List.forall_mem_cons] at hne
    have hpos := List.length_pos_iff.2 hne.1
    have hle := ih hne.2
    rw [List.flatMap_cons, List.length_append, List.length_cons]
    omega

section Repetition

variable {α : Type} {item separator : Rule} {follow : List Token → Prop} {tokens : α → List Token}
  {capture : α → Capture}

/-- A repetition takes the written forms of all its items, up to something that the item rejects.
The count of rounds is large enough, as no written form is empty. -/
theorem takes_many {xs : List α}
    (hitem : ∀ x ∈ xs, ∀ rest, follow rest → item.Reads (tokens x) rest (capture x))
    (hne : ∀ x ∈ xs, tokens x ≠ []) (hnext : ∀ x ∈ xs, ∀ rest, follow (tokens x ++ rest))
    (hend : follow rest) (hstop : item.Rejects rest) {fuel : Nat} (hfuel : xs.length < fuel) :
    Takes bareItems (parseMany item.parse fuel) (xs.flatMap tokens) rest (xs.map capture) := by
  induction xs generalizing fuel with
  | nil =>
    intro s hs hahead
    obtain ⟨why, hparse⟩ := hstop hs hahead
    obtain ⟨fuel, rfl⟩ := Nat.exists_eq_add_one.2 (Nat.zero_lt_of_lt hfuel)
    refine ⟨[], s, ?_, .refl hs, hahead, rfl⟩
    simp only [parseMany, hparse, restore_checkpoint hs rfl]
  | cons x xs ih =>
    intro s hs hahead
    obtain ⟨fuel, rfl⟩ := Nat.exists_eq_add_one.2 (Nat.zero_lt_of_lt hfuel)
    rw [List.forall_mem_cons] at hitem hne hnext
    have hfollow : follow (xs.flatMap tokens ++ rest) := by
      cases xs with
      | nil => exact hend
      | cons y ys =>
        rw [List.flatMap_cons, List.append_assoc]
        exact hnext.2 y List.mem_cons_self _
    rw [List.flatMap_cons, List.append_assoc] at hahead
    obtain ⟨d, t, hparse, hst, ht, hcapture⟩ := hitem.1 _ hfollow hs hahead
    obtain ⟨ds, u, hmany, htu, hu, hcaptures⟩ :=
      ih hitem.2 hne.2 hnext.2 (Nat.lt_of_succ_lt_succ hfuel) hst.settled ht
    refine ⟨d :: ds, u, ?_, hst.trans htu, hu, ?_⟩
    · have hmoved := cursor_ne_of_ahead hs hst hahead ht hne.1
      simp only [parseMany, hparse, if_neg hmoved, hmany, Parsed.map]
    · rw [bareItems, hcapture, hcaptures, List.map_cons]

/-- A repetition reads a list of things, where each may stand in front of the next one and the last
one in front of the rest. -/
theorem reads_many {xs : List α}
    (hitem : ∀ x ∈ xs, ∀ rest, follow rest → item.Reads (tokens x) rest (capture x))
    (hne : ∀ x ∈ xs, tokens x ≠ []) (hnext : ∀ x ∈ xs, ∀ rest, follow (tokens x ++ rest))
    (hend : follow rest) (hstop : item.Rejects rest) :
    (many item).Reads (xs.flatMap tokens) rest (.list (xs.flatMap tokens) (xs.map capture)) := by
  intro s hs hahead
  have hfuel : xs.length < s.left + 1 := by
    have hlen := length_le_length_flatMap tokens hne
    have htotal := congrArg List.length hahead
    rw [List.length_append, length_ahead] at htotal
    have hleft := length_remaining_le_left s
    omega
  obtain ⟨ds, t, hmany, hst, ht, hcaptures⟩ :=
    takes_many hitem hne hnext hend hstop hfuel hs hahead
  refine ⟨.list (t.spanFrom s.cursor) ds, t, ?_, hst, ht, ?_⟩
  · simp only [parse, hmany]
  · rw [Capture.bare, bare_spanFrom_of_ahead hst hahead ht, hcaptures]

/-- A list takes the written forms of all its further items with the separator before each, up to
something that the separator rejects. -/
theorem takes_separated {mark : Token} {d : Capture} {xs : List α}
    (hitem : ∀ x ∈ xs, ∀ rest, follow rest → item.Reads (tokens x) rest (capture x))
    (hseparator : ∀ rest, separator.Reads [mark] rest d) (hnext : ∀ rest, follow (mark :: rest))
    (hend : follow rest) (hstop : separator.Rejects rest) {fuel : Nat} (hfuel : xs.length < fuel) :
    Takes bareItems (parseSeparated item.parse separator.parse fuel)
      (xs.flatMap fun x => mark :: tokens x) rest (xs.map capture) := by
  induction xs generalizing fuel with
  | nil =>
    intro s hs hahead
    obtain ⟨why, hparse⟩ := hstop hs hahead
    obtain ⟨fuel, rfl⟩ := Nat.exists_eq_add_one.2 (Nat.zero_lt_of_lt hfuel)
    refine ⟨[], s, ?_, .refl hs, hahead, rfl⟩
    simp only [parseSeparated, hparse]
  | cons x xs ih =>
    intro s hs hahead
    obtain ⟨fuel, rfl⟩ := Nat.exists_eq_add_one.2 (Nat.zero_lt_of_lt hfuel)
    rw [List.forall_mem_cons] at hitem
    have hfollow : follow ((xs.flatMap fun x => mark :: tokens x) ++ rest) := by
      cases xs with
      | nil => exact hend
      | cons y ys => exact hnext _
    rw [List.flatMap_cons, List.append_assoc] at hahead
    obtain ⟨gap, t, hgap, hst, ht, -⟩ := hseparator _ hs hahead
    obtain ⟨e, u, hparse, htu, hu, hcapture⟩ := hitem.1 _ hfollow hst.settled ht
    obtain ⟨es, v, hmore, huv, hv, hcaptures⟩ :=
      ih hitem.2 (Nat.lt_of_succ_lt_succ hfuel) htu.settled hu
    refine ⟨e :: es, v, ?_, (hst.trans htu).trans huv, hv, ?_⟩
    · simp only [parseSeparated, hgap, hparse, hmore, Parsed.map]
    · rw [bareItems, hcapture, hcaptures, List.map_cons]

/-- Runs with a mark between them. -/
def listed (mark : Token) (tokens : α → List Token) : List α → List Token
  | [] => []
  | x :: xs => tokens x ++ xs.flatMap fun y => mark :: tokens y

/-- A separated list reads things with a mark between them, where each may stand in front of a mark
and the last one in front of the rest. -/
theorem reads_separated {mark : Token} {d : Capture} {x : α} {xs : List α}
    (hitem : ∀ y ∈ x :: xs, ∀ rest, follow rest → item.Reads (tokens y) rest (capture y))
    (hseparator : ∀ rest, separator.Reads [mark] rest d) (hnext : ∀ rest, follow (mark :: rest))
    (hend : follow rest) (hstop : separator.Rejects rest) :
    (separated item separator).Reads (listed mark tokens (x :: xs)) rest
      (.list (listed mark tokens (x :: xs)) ((x :: xs).map capture)) := by
  intro s hs hahead
  rw [List.forall_mem_cons] at hitem
  have hfollow : follow ((xs.flatMap fun y => mark :: tokens y) ++ rest) := by
    cases xs with
    | nil => exact hend
    | cons y ys => exact hnext _
  have hsplit := hahead
  rw [listed, List.append_assoc] at hsplit
  obtain ⟨e, t, hparse, hst, ht, hcapture⟩ := hitem.1 _ hfollow hs hsplit
  have hfuel : xs.length < t.left + 1 := by
    have hlen : xs.length ≤ _ := length_le_length_flatMap (fun y => mark :: tokens y)
      fun y _ => List.cons_ne_nil mark (tokens y)
    have htotal := congrArg List.length ht
    rw [List.length_append, length_ahead] at htotal
    have hleft := length_remaining_le_left t
    omega
  obtain ⟨es, u, hmore, htu, hu, hcaptures⟩ :=
    takes_separated hitem.2 hseparator hnext hend hstop hfuel hst.settled ht
  have hsu := hst.trans htu
  refine ⟨.list (u.spanFrom s.cursor) (e :: es), u, ?_, hsu, hu, ?_⟩
  · simp only [parse, hparse, hmore]
  · rw [Capture.bare, bare_spanFrom_of_ahead hsu hahead hu, bareItems, hcapture, hcaptures,
      List.map_cons]

theorem rejects_separated (h : item.Rejects ts) : (separated item separator).Rejects ts := by
  intro s hs hahead
  obtain ⟨why, hparse⟩ := h hs hahead
  exact ⟨why, by simp only [parse, hparse]⟩

end Repetition

/-! ## Qualified names -/

/-- The mark between the parts of a qualified name. -/
def nameSeparator : Token :=
  .synthetic .punctuation ['\\']

/-- All further parts of a written name are gone over, up to something that is no backslash. -/
theorem ahead_skipNameParts {parts : List Token} (hparts : ∀ part ∈ parts, part.isIdentifier = true)
    (hrest : rest.head?.any Token.isNameSeparator = false) {fuel : Nat}
    (hfuel : parts.length ≤ fuel) {s : TokenStream} (hs : s.Settled)
    (hahead : s.ahead = (parts.flatMap fun part => [nameSeparator, part]) ++ rest) :
    (skipNameParts fuel s).ahead = rest := by
  induction parts generalizing fuel s with
  | nil =>
    have hstop : s.current.any Token.isNameSeparator = false := by
      rw [any_current_of_ahead hs fun _ => rfl, hahead]
      exact hrest
    cases fuel with
    | zero => exact hahead
    | succ fuel =>
      rw [skipNameParts, hstop, Bool.false_and, if_neg Bool.false_ne_true]
      exact hahead
  | cons part parts ih =>
    obtain ⟨fuel, rfl⟩ := Nat.exists_eq_add_one.2 (Nat.lt_of_lt_of_le (Nat.zero_lt_succ _) hfuel)
    rw [List.forall_mem_cons] at hparts
    have hsplit : s.ahead = nameSeparator :: part ::
        ((parts.flatMap fun part => [nameSeparator, part]) ++ rest) := hahead
    have hnext := next_reaches hs
    obtain ⟨-, -, -, hbehind⟩ := exists_current hs hsplit
    obtain ⟨-, -, -, hmore⟩ := exists_current hnext.settled hbehind
    have hmark : s.current.any Token.isNameSeparator = true := by
      rw [any_current_of_ahead hs fun _ => rfl, hsplit]
      rfl
    have hname : s.next.current.any Token.isIdentifier = true := by
      rw [any_current_of_ahead hnext.settled fun _ => rfl, hbehind]
      exact hparts.1
    rw [skipNameParts, hmark, hname, Bool.true_and, if_pos rfl]
    exact ih hparts.2 (Nat.le_of_succ_le_succ hfuel) (next_reaches hnext.settled).settled hmore

/-- A name starts behind the backslash in front of it, if there is one. -/
theorem exists_nameStart (leading : Bool) {first : Token} (hfirst : first.isIdentifier = true)
    {s : TokenStream} (hs : s.Settled)
    (hahead : s.ahead = optionalToken leading nameSeparator ++ first :: us) :
    ∃ start, (if s.current.any Token.isNameSeparator then s.next else s) = start ∧
      s.Reaches start ∧ start.ahead = first :: us := by
  have hmark := any_current_of_ahead hs (p := Token.isNameSeparator) fun _ => rfl
  rw [hahead] at hmark
  cases leading with
  | true =>
    obtain ⟨-, -, -, hnext⟩ := exists_current hs hahead
    exact ⟨s.next, if_pos hmark, next_reaches hs, hnext⟩
  | false =>
    have hnone : first.isNameSeparator = false := by
      rw [Token.isIdentifier, beq_iff_eq] at hfirst
      simp [Token.isNameSeparator, Token.is, hfirst]
    have hother : s.current.any Token.isNameSeparator = false := hmark.trans hnone
    exact ⟨s, if_neg (by rw [hother]; exact Bool.false_ne_true), .refl hs, hahead⟩

/-- A qualified name is read up to a token that is no backslash. -/
theorem reads_qualifiedName (leading : Bool) {first : Token} {parts : List Token}
    (hfirst : first.isIdentifier = true) (hparts : ∀ part ∈ parts, part.isIdentifier = true)
    (hrest : rest.head?.any Token.isNameSeparator = false) :
    qualifiedName.Reads
      (optionalToken leading nameSeparator ++
        first :: parts.flatMap fun part => [nameSeparator, part]) rest
      (.leaf (optionalToken leading nameSeparator ++
        first :: parts.flatMap fun part => [nameSeparator, part])) := by
  intro s hs hahead
  have hsplit := hahead
  rw [List.append_assoc, List.cons_append] at hsplit
  obtain ⟨start, hstart, hreach, hbegin⟩ := exists_nameStart leading hfirst hs hsplit
  have hname : start.current.any Token.isIdentifier = true := by
    rw [any_current_of_ahead hreach.settled fun _ => rfl, hbegin]
    exact hfirst
  obtain ⟨-, -, -, hbehind⟩ := exists_current hreach.settled hbegin
  have hnext : s.Reaches start.next := hreach.trans (next_reaches hreach.settled)
  have hfuel : parts.length ≤ s.left := by
    have hlen : parts.length ≤ _ :=
      length_le_length_flatMap (fun part => [nameSeparator, part]) fun _ _ => List.cons_ne_nil _ _
    have htotal := congrArg List.length hbehind
    have hle := hnext.length_remaining_le
    have hleft := length_remaining_le_left s
    rw [List.length_append, length_ahead] at htotal
    omega
  have hend := ahead_skipNameParts hparts hrest hfuel hnext.settled hbehind
  have hst := hnext.trans (skipNameParts_reaches s.left hnext.settled)
  refine ⟨.leaf ((skipNameParts s.left start.next).spanFrom s.cursor),
    skipNameParts s.left start.next, ?_, hst, hend, ?_⟩
  · simp only [parse, parseQualifiedName, hstart, hname, if_true]
  · rw [Capture.bare, bare_spanFrom_of_ahead hst hahead hend]

/-! ## Balanced runs -/

/-- In the run all brackets nest and close, and no token outside of them has one of the lexemes
`ends`. -/
inductive Balanced : (ends : List Text) → (ts : List Token) → Prop
  | nil {ends : List Text} : Balanced ends []
  | neutral {ends : List Text} {token : Token} {ts : List Token}
      (hneutral : token.delimiter = .neutral) (hends : token.lexeme ∉ ends)
      (hts : Balanced ends ts) : Balanced ends (token :: ts)
  | pair {ends : List Text} {opening closing : Token} {closer : Text} {inner ts : List Token}
      (hopens : opening.delimiter = .opens closer) (hends : opening.lexeme ∉ ends)
      (hinner : Balanced [] inner) (hcloses : closing.delimiter = .closes closer)
      (hts : Balanced ends ts) : Balanced ends (opening :: inner ++ closing :: ts)

/-- A balanced run ends in front of the rest: nothing is left, or the next token closes a bracket or
has one of the lexemes `ends`. -/
def Stops (ends : List Text) (rest : List Token) : Prop :=
  ∀ token ∈ rest.head?, token.lexeme ∈ ends ∨ ∃ closer, token.delimiter = .closes closer

section Scan

variable {terminators : List Text} {waiting : List Text} {closer : Text} {s : TokenStream}
  {token : Token}

theorem skipBalanced_neutral (hcurrent : s.current = some token)
    (hgo : (waiting.isEmpty && terminators.contains token.lexeme) = false)
    (hneutral : token.delimiter = .neutral) (fuel : Nat) :
    skipBalanced terminators (fuel + 1) waiting s
      = skipBalanced terminators fuel waiting s.next := by
  conv => lhs; unfold skipBalanced
  simp only [hcurrent, hgo, hneutral, Bool.false_eq_true, if_false]

/-- One step of the scan over an opening bracket, whose partner waits from then on. -/
theorem skipBalanced_opens (hcurrent : s.current = some token)
    (hgo : (waiting.isEmpty && terminators.contains token.lexeme) = false)
    (hopens : token.delimiter = .opens closer) (fuel : Nat) :
    skipBalanced terminators (fuel + 1) waiting s
      = skipBalanced terminators fuel (closer :: waiting) s.next := by
  conv => lhs; unfold skipBalanced
  simp only [hcurrent, hgo, hopens, Bool.false_eq_true, if_false]

theorem skipBalanced_closes (hcurrent : s.current = some token)
    (hcloses : token.delimiter = .closes closer) (fuel : Nat) :
    skipBalanced terminators (fuel + 1) (closer :: waiting) s
      = skipBalanced terminators fuel waiting s.next := by
  conv => lhs; unfold skipBalanced
  simp only [hcurrent, hcloses, List.isEmpty_cons, Bool.false_and, Bool.false_eq_true, if_false,
    if_true]

end Scan

/-- The scan passes over a balanced run, whatever closing brackets it waits for. -/
theorem skipBalanced_balanced {terminators ends : List Text} (h : Balanced ends ts)
    {waiting : List Text}
    (hends : ∀ text, text ∉ ends → (waiting.isEmpty && terminators.contains text) = false)
    {s : TokenStream} (hs : s.Settled) (hahead : s.ahead = ts ++ rest) :
    ∃ t, s.Reaches t ∧ t.ahead = rest ∧ ∀ fuel,
      skipBalanced terminators (ts.length + fuel) waiting s
        = skipBalanced terminators fuel waiting t := by
  induction h generalizing waiting rest s with
  | nil => exact ⟨s, .refl hs, hahead, fun fuel => by rw [List.length_nil, Nat.zero_add]⟩
  | @neutral ends token ts hneutral hlexeme _ ih =>
    obtain ⟨found, hcurrent, rfl, hnext⟩ := exists_current hs hahead
    have hst := next_reaches hs
    obtain ⟨t, htu, ht, hskip⟩ := ih hends hst.settled hnext
    refine ⟨t, hst.trans htu, ht, fun fuel => ?_⟩
    rw [List.length_cons, Nat.add_right_comm,
      skipBalanced_neutral hcurrent (hends _ hlexeme) hneutral, hskip]
  | @pair ends opening closing closer inner ts hopens hlexeme _ hcloses _ ihInner ih =>
    rw [List.append_assoc] at hahead
    obtain ⟨found, hcurrent, rfl, hnext⟩ := exists_current hs hahead
    have hst := next_reaches hs
    -- Inside the brackets nothing ends the run.
    have hnone : ∀ text, text ∉ ([] : List Text) →
        ((closer :: waiting).isEmpty && terminators.contains text) = false := fun _ _ => rfl
    obtain ⟨t, htu, ht, hinside⟩ := ihInner hnone hst.settled hnext
    obtain ⟨last, hlast, rfl, hbehind⟩ := exists_current htu.settled ht
    have huv := next_reaches htu.settled
    obtain ⟨v, hvw, hv, hskip⟩ := ih hends huv.settled hbehind
    refine ⟨v, ((hst.trans htu).trans huv).trans hvw, hv, fun fuel => ?_⟩
    have hlength : (found.unplaced :: inner ++ last.unplaced :: ts).length + fuel
        = (inner.length + ((ts.length + fuel) + 1)) + 1 := by
      simp only [List.length_append, List.length_cons]
      omega
    rw [hlength, skipBalanced_opens hcurrent (hends _ hlexeme) hopens, hinside,
      skipBalanced_closes hlast hcloses, hskip]

/-- Outside all brackets the scan stops at a terminator, at a closing bracket and at the end. -/
theorem skipBalanced_stops {terminators : List Text} (h : Stops terminators rest) {s : TokenStream}
    (hs : s.Settled) (hahead : s.ahead = rest) (fuel : Nat) :
    skipBalanced terminators (fuel + 1) [] s = .matched () s := by
  cases rest with
  | nil => simp only [skipBalanced, current_of_ahead_eq_nil hs hahead]
  | cons token rest =>
    obtain ⟨found, hcurrent, rfl, -⟩ := exists_current hs hahead
    simp only [skipBalanced, hcurrent, List.isEmpty_nil, Bool.true_and]
    split
    · rfl
    · next hgo =>
      rcases h found.unplaced rfl with hlexeme | ⟨closer, hcloses⟩
      · exact absurd (List.contains_iff_mem.2 hlexeme) hgo
      · have hclosing : found.delimiter = .closes closer := hcloses
        simp only [hclosing]

/-- A scan goes over a whole balanced run and stops behind it. -/
theorem balancedRun_eq {terminators : List Text} (h : Balanced terminators ts)
    (hstop : Stops terminators rest) {s : TokenStream} (hs : s.Settled)
    (hahead : s.ahead = ts ++ rest) :
    ∃ t, s.balancedRun terminators = .matched () t ∧ s.Reaches t ∧ t.ahead = rest := by
  have hends : ∀ text, text ∉ terminators →
      (([] : List Text).isEmpty && terminators.contains text) = false := by
    intro text htext
    rw [Bool.and_eq_false_iff]
    exact .inr (Bool.eq_false_iff.2 fun hmem => htext (List.contains_iff_mem.1 hmem))
  obtain ⟨t, hst, ht, hskip⟩ := skipBalanced_balanced h hends hs hahead
  obtain ⟨more, hmore⟩ : ∃ more, s.left = ts.length + more := by
    have hlen := congrArg List.length hahead
    have hleft := length_remaining_le_left s
    rw [length_ahead, List.length_append] at hlen
    exact ⟨s.left - ts.length, by omega⟩
  refine ⟨t, ?_, hst, ht⟩
  rw [balancedRun, hmore, Nat.add_assoc, hskip, skipBalanced_stops hstop hst.settled ht]

theorem reads_block (h : Balanced [] ts) (hstop : Stops [] rest) :
    block.Reads ts rest (.leaf ts) := by
  intro s hs hahead
  obtain ⟨t, hrun, hst, ht⟩ := balancedRun_eq h hstop hs hahead
  refine ⟨.leaf (t.spanFrom s.cursor), t, ?_, hst, ht, ?_⟩
  · simp only [parse, parseBlock, hrun]
  · rw [Capture.bare, bare_spanFrom_of_ahead hst hahead ht]

/-- The expression rule reads any balanced run that is not empty and keeps clear of the
terminators. -/
theorem reads_expression (h : Balanced expressionEnds ts) (hne : ts ≠ [])
    (hstop : Stops expressionEnds rest) : expression.Reads ts rest (.leaf ts) := by
  intro s hs hahead
  obtain ⟨t, hrun, hst, ht⟩ := balancedRun_eq h hstop hs hahead
  refine ⟨.leaf (t.spanFrom s.cursor), t, ?_, hst, ht, ?_⟩
  · have hmoved := cursor_ne_of_ahead hs hst hahead ht hne
    simp only [parse, parseExpression, hrun, if_neg hmoved]
  · rw [Capture.bare, bare_spanFrom_of_ahead hst hahead ht]

/-- Where a balanced run ends at once there is no expression. -/
theorem rejects_expression (hstop : Stops expressionEnds rest) : expression.Rejects rest := by
  intro s hs hahead
  obtain ⟨t, hrun, hst, ht⟩ := balancedRun_eq .nil hstop hs hahead
  have hstay : t.cursor = s.cursor := by
    rw [hst.cursor_eq_iff hs, ← length_ahead, ← length_ahead, ht, hahead]
  refine ⟨.atCursor t expression.expected, ?_⟩
  simp only [parse, parseExpression, hrun, if_true, hst.eq_of_cursor_eq hstay]

end Rule

end SourceMacros

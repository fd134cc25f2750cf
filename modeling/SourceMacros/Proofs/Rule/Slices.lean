import SourceMacros.Proofs.Lexing.Lossless
import SourceMacros.Proofs.Rule.Derivation

/-!
# Captures are slices

The tokens of a capture are the run between two cursors without the trivia that trails it, and at
every node the parts lie in the tokens of the node as slices from left to right, none overlapping
the next (`Capture.Ordered`). A rule takes its span and its structure from different places, so the
proof keeps both against the consumed run: parts of consecutive matches are laid out one behind the
other (`InOrder.append`), and cutting off trailing trivia never cuts into a part (`InOrder.trim`),
since no part ends in trivia.
-/

namespace SourceMacros

open TokenStream

/-! ## Slices from left to right -/

/-- The parts lie in `whole` as contiguous slices, from left to right and without overlapping. -/
inductive InOrder : (whole : List Token) → (parts : List (List Token)) → Prop
  | nil {whole : List Token} : InOrder whole []
  | cons {gap part rest : List Token} {parts : List (List Token)} (h : InOrder rest parts) :
      InOrder (gap ++ part ++ rest) (part :: parts)

namespace InOrder

variable {xs ys : List Token} {ps qs : List (List Token)}

theorem whole (xs : List Token) : InOrder xs [xs] := by
  have h : InOrder ([] ++ xs ++ []) [xs] := .cons .nil
  rwa [List.nil_append, List.append_nil] at h

theorem prepend (front : List Token) (h : InOrder xs ps) : InOrder (front ++ xs) ps := by
  cases h with
  | nil => exact .nil
  | cons hrest =>
    rw [← List.append_assoc, ← List.append_assoc]
    exact .cons hrest

theorem append (hxs : InOrder xs ps) (hys : InOrder ys qs) : InOrder (xs ++ ys) (ps ++ qs) := by
  induction hxs with
  | nil => exact hys.prepend _
  | cons hrest ih =>
    rw [List.append_assoc, List.cons_append]
    exact .cons ih

theorem append_right (ys : List Token) (hxs : InOrder xs ps) : InOrder (xs ++ ys) ps := by
  have h := hxs.append (.nil : InOrder ys [])
  rwa [List.append_nil] at h

/-- Trailing trivia belongs to no part, so it can be cut off. -/
theorem trim (h : InOrder xs ps) (htight : ∀ p ∈ ps, Tight p) :
    InOrder (dropTrailingTrivia xs) ps := by
  induction h with
  | nil => exact .nil
  | @cons gap part rest parts hrest ih =>
    have ihRest := ih fun p hp => htight p (List.mem_cons_of_mem _ hp)
    by_cases hnil : dropTrailingTrivia rest = []
    · -- Nothing but trivia follows the part: the cut is in the part's own run or in front of it.
      obtain ⟨trail, hsplit, htrail⟩ := exists_trailing rest
      rw [hnil, List.nil_append] at hsplit
      rw [hsplit, dropTrailingTrivia_append_trivia htrail]
      rw [hnil] at ihRest
      by_cases hpart : part = []
      · rw [hpart, List.append_nil]
        have h : InOrder (dropTrailingTrivia gap ++ [] ++ []) ([] :: parts) := .cons ihRest
        rwa [List.append_nil, List.append_nil] at h
      · have hkeep : dropTrailingTrivia part = part :=
          dropTrailingTrivia_of_tight (htight part List.mem_cons_self)
        rw [dropTrailingTrivia_append (by rwa [hkeep]), hkeep, ← List.append_nil (gap ++ part)]
        exact .cons ihRest
    · rw [dropTrailingTrivia_append hnil]
      exact .cons ihRest

end InOrder

/-! ## Captures whose parts are in order -/

/-- At every node the tokens do not end in trivia, and the entries or items are slices of them from
left to right. -/
inductive Capture.Ordered : Capture → Prop
  | leaf {ts : List Token} (htight : Tight ts) : Ordered (.leaf ts)
  | tree {ts : List Token} {es : List (Label × Capture)} (htight : Tight ts)
      (hparts : InOrder ts (es.map fun e => e.2.tokens)) (hordered : ∀ e ∈ es, e.2.Ordered) :
      Ordered (.tree ts es)
  | list {ts : List Token} {cs : List Capture} (htight : Tight ts)
      (hparts : InOrder ts (cs.map Capture.tokens)) (hordered : ∀ c ∈ cs, c.Ordered) :
      Ordered (.list ts cs)

theorem Capture.Ordered.tight {c : Capture} (h : c.Ordered) : Tight c.tokens := by
  cases h with
  | leaf htight => exact htight
  | tree htight _ _ => exact htight
  | list htight _ _ => exact htight

/-- Entries or items laid out in a run, each of them ordered in itself. -/
structure LaidOut (run : List Token) (parts : List Capture) : Prop where
  inOrder : InOrder run (parts.map Capture.tokens)
  ordered : ∀ c ∈ parts, c.Ordered

/-- The capture has the tokens from `s` to `t` without the trivia that trails them, and its parts
are in order. -/
structure Covers (s t : TokenStream) (c : Capture) : Prop where
  tokens_eq : c.tokens = dropTrailingTrivia (s.consumed t)
  ordered : c.Ordered

namespace LaidOut

variable {xs ys : List Token} {cs ds : List Capture}

theorem nil : LaidOut xs [] :=
  ⟨.nil, fun _ h => by cases h⟩

theorem append (hxs : LaidOut xs cs) (hys : LaidOut ys ds) : LaidOut (xs ++ ys) (cs ++ ds) := by
  constructor
  · rw [List.map_append]
    exact hxs.inOrder.append hys.inOrder
  · intro c hc
    rcases List.mem_append.1 hc with h | h
    · exact hxs.ordered c h
    · exact hys.ordered c h

theorem prepend (front : List Token) (h : LaidOut xs cs) : LaidOut (front ++ xs) cs :=
  ⟨h.inOrder.prepend front, h.ordered⟩

theorem append_right (ys : List Token) (h : LaidOut xs cs) : LaidOut (xs ++ ys) cs :=
  ⟨h.inOrder.append_right ys, h.ordered⟩

theorem trim (h : LaidOut xs cs) : LaidOut (dropTrailingTrivia xs) cs := by
  refine ⟨h.inOrder.trim fun p hp => ?_, h.ordered⟩
  obtain ⟨c, hc, rfl⟩ := List.mem_map.1 hp
  exact (h.ordered c hc).tight

theorem ofEntries {c : Capture} (h : c.Ordered) : LaidOut c.tokens (c.entries.map Prod.snd) := by
  cases h with
  | leaf _ => exact .nil
  | list _ _ _ => exact .nil
  | tree _ hparts hordered =>
    constructor
    · rw [Capture.entries, List.map_map]
      exact hparts
    · intro d hd
      obtain ⟨e, he, rfl⟩ := List.mem_map.1 hd
      exact hordered e he

end LaidOut

namespace Covers

variable {s t : TokenStream} {c : Capture}

theorem exists_trail (h : Covers s t c) :
    ∃ trail, s.consumed t = c.tokens ++ trail ∧ ∀ x ∈ trail, x.isTrivia = true := by
  rw [h.tokens_eq]
  exact exists_trailing _

/-- A capture lies in the run it was made from. -/
theorem laidOut (h : Covers s t c) : LaidOut (s.consumed t) [c] := by
  obtain ⟨trail, hsplit, -⟩ := h.exists_trail
  rw [hsplit]
  refine LaidOut.append_right trail ⟨.whole _, ?_⟩
  intro d hd
  rw [List.mem_singleton.1 hd]
  exact h.ordered

/-- So do its entries. -/
theorem laidOut_entries (h : Covers s t c) : LaidOut (s.consumed t) (c.entries.map Prod.snd) := by
  obtain ⟨trail, hsplit, -⟩ := h.exists_trail
  rw [hsplit]
  exact (LaidOut.ofEntries h.ordered).append_right trail

/-- One token and the trivia behind it. -/
theorem next {token : Token} (hs : s.Settled) (h : s.current = some token) :
    Covers s s.next (.leaf [token]) := by
  have htight : Tight [token] := tight_singleton (hs.significant h)
  refine ⟨?_, .leaf htight⟩
  have htrivia : ∀ x ∈ (s.tokens.drop (s.cursor + 1)).takeWhile Token.isTrivia,
      x.isTrivia = true := fun x hx => List.mem_takeWhile_imp hx
  rw [consumed_next h]
  exact ((dropTrailingTrivia_append_trivia htrivia).trans (dropTrailingTrivia_of_tight htight)).symm

theorem leaf (h : s.Reaches t) : Covers s t (.leaf (t.spanFrom s.cursor)) := by
  rw [spanFrom_eq h.tokens_eq]
  exact ⟨rfl, .leaf (tight_dropTrailingTrivia _)⟩

theorem tree {entries : Entries} (h : s.Reaches t)
    (hparts : LaidOut (s.consumed t) (entries.map Prod.snd)) :
    Covers s t (.tree (t.spanFrom s.cursor) entries) := by
  rw [spanFrom_eq h.tokens_eq]
  refine ⟨rfl, .tree (tight_dropTrailingTrivia _) ?_ ?_⟩
  · have hinOrder := hparts.trim.inOrder
    rwa [List.map_map] at hinOrder
  · intro e he
    exact hparts.ordered e.2 (List.mem_map_of_mem he)

theorem list {items : List Capture} (h : s.Reaches t) (hparts : LaidOut (s.consumed t) items) :
    Covers s t (.list (t.spanFrom s.cursor) items) := by
  rw [spanFrom_eq h.tokens_eq]
  exact ⟨rfl, .list (tight_dropTrailingTrivia _) hparts.trim.inOrder hparts.ordered⟩

theorem empty (s : TokenStream) : Covers s s .empty := by
  refine ⟨?_, .leaf tight_nil⟩
  rw [consumed_self]
  rfl

theorem labelled (label : Label) (h : Covers s t c) : Covers s t (.labelled label c) := by
  refine ⟨h.tokens_eq, .tree h.ordered.tight (.whole _) ?_⟩
  intro e he
  rw [List.mem_singleton.1 he]
  exact h.ordered

end Covers

/-! ## Derivations cover what they consume -/

mutual

/-- A derived capture covers the way from its start to its end. -/
theorem Derives.covers {rule : Rule} {s t : TokenStream} {c : Capture} :
    Derives rule s c t → s.Settled → Covers s t c
  | .any h, hs => .next hs h
  | .token h _, hs => .next hs h
  | .lexeme h _, hs => .next hs h
  | .chain h, hs => .tree (h.reaches hs) (h.laidOut hs)
  | .either _ h, hs => h.covers hs
  | .present h, hs => h.covers hs
  | .absent, _ => .empty _
  | .many h, hs => .list (h.reaches hs) (h.laidOut hs)
  | .separated hfirst hrest, hs => by
    have hst := hfirst.reaches hs
    have htu := hrest.reaches hst.settled
    refine .list (hst.trans htu) ?_
    rw [consumed_append hst htu]
    exact (hfirst.covers hs).laidOut.append (hrest.laidOut hst.settled)
  | .block h, _ => .leaf h
  | .qualifiedName h _, _ => .leaf h
  | .expression h _, _ => .leaf h
  | .labelled h, hs => (h.covers hs).labelled _

theorem DerivesChain.laidOut {rules : List Rule} {s t : TokenStream} {entries : Entries} :
    DerivesChain rules s entries t → s.Settled →
      LaidOut (s.consumed t) (entries.map Prod.snd)
  | .nil, _ => .nil
  | .cons hfirst hrest, hs => by
    have hst := hfirst.reaches hs
    have htu := hrest.reaches hst.settled
    rw [consumed_append hst htu, List.map_append]
    exact (hfirst.covers hs).laidOut_entries.append (hrest.laidOut hst.settled)

theorem DerivesMany.laidOut {rule : Rule} {s t : TokenStream} {items : List Capture} :
    DerivesMany rule s items t → s.Settled → LaidOut (s.consumed t) items
  | .nil, _ => .nil
  | .cons hfirst _ hrest, hs => by
    have hst := hfirst.reaches hs
    have htu := hrest.reaches hst.settled
    rw [consumed_append hst htu]
    exact (hfirst.covers hs).laidOut.append (hrest.laidOut hst.settled)

theorem DerivesSeparated.laidOut {item separator : Rule} {s t : TokenStream}
    {items : List Capture} :
    DerivesSeparated item separator s items t → s.Settled → LaidOut (s.consumed t) items
  | .nil, _ => .nil
  | .cons hseparator hitem hrest, hs => by
    -- The run of the separator is a gap between two items.
    have hst := hseparator.reaches hs
    have htu := hitem.reaches hst.settled
    have huv := hrest.reaches htu.settled
    rw [consumed_append hst (htu.trans huv), consumed_append htu huv]
    exact ((hitem.covers hst.settled).laidOut.append (hrest.laidOut htu.settled)).prepend _

end

namespace Rule

/-- Whatever a rule captures covers the way from where it started to where it ended. -/
theorem covers_of_matched {rule : Rule} {s t : TokenStream} {c : Capture} (hs : s.Settled)
    (h : rule.parse s = .matched c t) : Covers s t c :=
  (derives_of_matched rule hs h).covers hs

/-- A match from one cursor to another captures the tokens between them without the trivia that
trails these, so its text stands in one piece in the source; and at every node of the capture the
entries or items are slices of the tokens of that node, from left to right and without overlapping.
-/
theorem parse_captures_slices (rule : Rule) {s t : TokenStream} {c : Capture} (hs : s.Settled)
    (h : rule.parse s = .matched c t) :
    (∃ trail, (s.tokens.take t.cursor).drop s.cursor = c.tokens ++ trail ∧
      (∀ x ∈ trail, x.isTrivia = true) ∧ Tight c.tokens) ∧
    (∀ source, lex source = .ok s.tokens → c.text <:+: source) ∧
    c.Ordered := by
  have hcovers := covers_of_matched hs h
  obtain ⟨trail, hsplit, htrail⟩ := hcovers.exists_trail
  refine ⟨⟨trail, hsplit, htrail, hcovers.ordered.tight⟩, ?_, hcovers.ordered⟩
  intro source hlex
  have hinfix : c.tokens <:+: s.tokens := by
    have hrun : s.consumed t <:+: s.tokens :=
      (List.drop_suffix _ _).isInfix.trans (List.take_prefix _ _).isInfix
    rw [hsplit] at hrun
    exact (List.prefix_append c.tokens trail).isInfix.trans hrun
  obtain ⟨before, after, htokens⟩ := hinfix
  refine ⟨Token.text before, Token.text after, ?_⟩
  rw [← text_lex hlex, ← htokens, Token.text_append, Token.text_append, Capture.text]

/-- Two names with a comma between them: the last comma is not part of the match, and neither is the
blank in front of it. -/
theorem parse_captures_slices_separated :
    ∃ s c t, lex "a, b ,".toList = .ok s.tokens ∧ s.Settled ∧
      (separated (token .identifier) (lexeme [','])).parse s = .matched c t ∧
      c.text = "a, b".toList ∧ c.text <:+: "a, b ,".toList ∧ c.Ordered := by
  obtain ⟨tokens, c, t, hlex, h, htext⟩ : ∃ tokens c t, lex "a, b ,".toList = .ok tokens ∧
      (separated (token .identifier) (lexeme [','])).parse (ofTokens tokens) = .matched c t ∧
      c.text = "a, b".toList := ⟨_, _, _, rfl, rfl, rfl⟩
  have hs := ofTokens_settled tokens
  obtain ⟨-, hinfix, hordered⟩ := parse_captures_slices _ hs h
  exact ⟨_, c, t, hlex, hs, h, htext, hinfix _ hlex, hordered⟩

end Rule

end SourceMacros

import SourceMacros.Proofs.Engine.Expansion
import SourceMacros.Proofs.Rule.Slices

/-!
# An expansion in pieces

An expansion cuts the tokens of its source into pieces. A piece is a token copied as it is, or the
tokens of a match, in whose place stands the nested expansion of a filled-in template. Nothing falls
between two pieces and nothing is in two of them: side by side the pieces are the source, and their
outputs are the output (`expand_cuts_into_pieces`). The units that a walk keeps come from its
pieces, too, if filling in a template keeps none.

The engine writes trivia by looking back from the cursor, after it has moved over it, while the
tokens of a match end in front of their trailing trivia. So the walk is followed with a split of the
tokens at the cursor: what is written so far ends in a significant token, and the trivia between
that token and the cursor is still to be written.
-/

namespace SourceMacros

open TokenStream

/-- A piece of an expansion. -/
inductive Piece where
  /-- A token copied as it is. -/
  | copied (token : Token)
  /-- The match of a macro, and what stands in its place. -/
  | replaced (definition : Macro) (capture : Capture) (output : Text)

namespace Piece

/-- The tokens of the source that the piece takes. -/
def tokens : Piece → List Token
  | copied token => [token]
  | replaced _ capture _ => capture.tokens

/-- The part of the source that the piece takes. -/
def source : Piece → Text
  | copied token => token.lexeme
  | replaced _ capture _ => capture.text

/-- The part of the output that the piece gives. -/
def output : Piece → Text
  | copied token => token.lexeme
  | replaced _ _ output => output

/-- The units that the nested expansion of the piece adds. -/
def added (e : Engine) (gc : GcMode) : Piece → List Expansion
  | copied _ => []
  | replaced m capture _ =>
    match (e.deeper.render e.deeper.answer m capture).result with
    | .ok rendered => e.deeper.added ⟨rendered, m.name, gc⟩
    | .error _ => []

theorem source_eq (p : Piece) : p.source = Token.text p.tokens := by
  cases p with
  | copied token => simp [source, tokens, Token.text]
  | replaced m c output => rfl

end Piece

/-- The stream with `front` behind its cursor and `rest` ahead of it. -/
def TokenStream.split (front rest : List Token) : TokenStream :=
  ⟨front ++ rest, front.length⟩

theorem TokenStream.split_take_drop {s : TokenStream} (hs : s.Settled) :
    split (s.tokens.take s.cursor) (s.tokens.drop s.cursor) = s := by
  rw [split, List.take_append_drop, List.length_take_of_le hs.cursor_le]

namespace Engine

/-- The pieces of `rest`, behind the tokens `front`. Trivia is copied. A significant token is copied
only if every macro declines there; otherwise the first macro that applies there takes the tokens of
its capture and gives the nested expansion of its filled-in template. -/
inductive Pieces (e : Engine) (gc : GcMode) : (front rest : List Token) → List Piece → Prop
  | nil {front : List Token} : Pieces e gc front [] []
  | trivia {front rest : List Token} {token : Token} {ps : List Piece}
      (htrivia : token.isTrivia = true) (hrest : Pieces e gc (front ++ [token]) rest ps) :
      Pieces e gc front (token :: rest) (.copied token :: ps)
  | copied {front rest : List Token} {token : Token} {ps : List Piece}
      (hsignificant : token.isSignificant = true)
      (hdeclines : ∀ m ∈ e.macros, m.Declines (split front (token :: rest)))
      (hrest : Pieces e gc (front ++ [token]) rest ps) :
      Pieces e gc front (token :: rest) (.copied token :: ps)
  | replaced {front rest : List Token} {token : Token} {m : Macro} {c : Capture}
      {rendered output : Text} {ps : List Piece}
      (hhead : c.tokens.head? = some token) (hsignificant : token.isSignificant = true)
      (hfirst : m.IsFirst e.macros (split front (c.tokens ++ rest)) c)
      (hrender : (e.deeper.render e.deeper.answer m c).result = .ok rendered)
      (houtput : (e.deeper.expand ⟨rendered, m.name, gc⟩).1 = .ok output)
      (hrest : Pieces e gc (front ++ c.tokens) rest ps) :
      Pieces e gc front (c.tokens ++ rest) (.replaced m c output :: ps)

namespace Pieces

variable {e : Engine} {gc : GcMode} {front rest trail : List Token} {ps : List Piece}

theorem flatMap_tokens (h : Pieces e gc front rest ps) : ps.flatMap Piece.tokens = rest := by
  induction h with
  | nil => rfl
  | trivia _ _ ih => rw [List.flatMap_cons, ih]; rfl
  | copied _ _ _ ih => rw [List.flatMap_cons, ih]; rfl
  | replaced _ _ _ _ _ _ ih => rw [List.flatMap_cons, ih]; rfl

/-- The sources of the pieces make up the text of the region. -/
theorem flatMap_source (h : Pieces e gc front rest ps) :
    ps.flatMap Piece.source = Token.text rest := by
  rw [← h.flatMap_tokens, Token.text, List.flatMap_assoc]
  exact List.flatMap_congr fun p _ => p.source_eq

/-- A run of trivia is copied token by token. -/
theorem copyTrivia (htrail : ∀ x ∈ trail, x.isTrivia = true)
    (h : Pieces e gc (front ++ trail) rest ps) :
    Pieces e gc front (trail ++ rest) (trail.map .copied ++ ps) := by
  induction trail generalizing front with
  | nil => rwa [List.append_nil] at h
  | cons token trail ih =>
    refine .trivia (htrail token List.mem_cons_self) ?_
    refine ih (fun x hx => htrail x (List.mem_cons_of_mem _ hx)) ?_
    rwa [List.append_assoc, List.singleton_append]

theorem flatMap_output_copied (ts : List Token) :
    (ts.map Piece.copied).flatMap Piece.output = Token.text ts := by
  rw [List.flatMap_map]
  rfl

/-- What one step writes: the trivia up to a piece, and the piece. -/
theorem flatMap_output_step (trail : List Token) (p : Piece) (ps : List Piece) :
    (trail.map Piece.copied ++ p :: ps).flatMap Piece.output
      = Token.text trail ++ p.output ++ ps.flatMap Piece.output := by
  rw [List.flatMap_append, flatMap_output_copied, List.flatMap_cons, List.append_assoc]

theorem flatMap_added_copied (e : Engine) (gc : GcMode) (ts : List Token) :
    (ts.map Piece.copied).flatMap (Piece.added e gc) = [] := by
  rw [List.flatMap_map]
  exact List.flatMap_eq_nil_iff.2 fun _ _ => rfl

theorem flatMap_added_step (e : Engine) (gc : GcMode) (trail : List Token) (p : Piece)
    (ps : List Piece) :
    (trail.map Piece.copied ++ p :: ps).flatMap (Piece.added e gc)
      = p.added e gc ++ ps.flatMap (Piece.added e gc) := by
  rw [List.flatMap_append, flatMap_added_copied, List.nil_append, List.flatMap_cons]

/-- Where no macro applies, every piece is a copy. -/
theorem output_eq_source (h : Pieces e gc front rest ps)
    (hdeclines : ∀ before token after, front ++ rest = before ++ token :: after →
      token.isSignificant = true → ∀ m ∈ e.macros, m.Declines (split before (token :: after))) :
    ps.flatMap Piece.output = Token.text rest := by
  induction h with
  | nil => rfl
  | trivia _ _ ih =>
    rw [List.flatMap_cons, ih (by rwa [List.append_assoc, List.singleton_append]), Token.text_cons]
    rfl
  | copied _ _ _ ih =>
    rw [List.flatMap_cons, ih (by rwa [List.append_assoc, List.singleton_append]), Token.text_cons]
    rfl
  | @replaced front rest token m c _ _ _ hhead hsignificant hfirst =>
    have happlies := hfirst.applies
    obtain ⟨more, hmore⟩ := List.head?_eq_some_iff.1 hhead
    rw [hmore, List.cons_append] at happlies hdeclines
    exact absurd (hdeclines front token _ rfl hsignificant m hfirst.mem) happlies.not_declines

end Pieces

/-! ## The walk gives the pieces -/

/-- A match that moves the cursor has the current token as its first. -/
theorem head?_of_covers {s t : TokenStream} {token : Token} {c : Capture} (hs : s.Settled)
    (hcurrent : s.current = some token) (hlt : s.cursor < t.cursor) (hcovers : Covers s t c) :
    c.tokens.head? = some token := by
  obtain ⟨trail, hsplit, htrail⟩ := hcovers.exists_trail
  have hhead : (s.consumed t).head? = some token := by
    rw [consumed, List.head?_drop, List.getElem?_take_of_lt hlt]
    exact hcurrent
  cases htokens : c.tokens with
  | nil =>
    -- All that was consumed would be trivia, but the current token is not.
    rw [hsplit, htokens, List.nil_append] at hhead
    have htrivia := htrail token (List.mem_of_head? hhead)
    have hsignificant := hs.significant hcurrent
    simp [Token.isSignificant, htrivia] at hsignificant
  | cons first more =>
    rw [hsplit, htokens, List.cons_append, List.head?_cons] at hhead
    rw [List.head?_cons, hhead]

/-- One step of the walk. What is taken at the cursor of `s` goes behind it, and the trivia up to
the cursor of `t` is what the next step writes first. -/
theorem split_step {s t : TokenStream} {front trail taken behind : List Token}
    (hsplit : s.tokens.take s.cursor = front ++ trail) (hst : s.Reaches t)
    (hconsumed : s.consumed t = taken ++ behind) (htight : Tight taken) (hne : taken ≠ []) :
    t.tokens.take t.cursor = (front ++ trail ++ taken) ++ behind ∧
      Tight (front ++ trail ++ taken) ∧
      s.tokens.drop s.cursor = taken ++ (behind ++ t.tokens.drop t.cursor) := by
  refine ⟨?_, htight.append hne, ?_⟩
  · rw [hst.tokens_eq, ← take_append_consumed hst, hsplit, hconsumed, List.append_assoc _ taken]
  · rw [← consumed_append_drop hst, hconsumed, List.append_assoc]

/-- No unit is kept while a template is filled in one level deeper. -/
def FillsInSilently (e : Engine) : Prop :=
  ∀ m ∈ e.macros, ∀ c, (e.deeper.render e.deeper.answer m c).units = []

/-- A walk that succeeds cuts what it has not yet written into pieces. If only nested expansions
keep units, those that the walk keeps are those of its pieces, from left to right. -/
theorem pieces_of_expandStream (e : Engine) (gc : GcMode) (fuel : Nat) {s : TokenStream}
    {front trail : List Token} {output : Text} (hs : s.Settled)
    (hsplit : s.tokens.take s.cursor = front ++ trail) (hfront : Tight front)
    (htrail : ∀ x ∈ trail, x.isTrivia = true)
    (h : (e.expandStream e.deeper.answer gc fuel s).result = .ok output) :
    ∃ ps, Pieces e gc front (trail ++ s.tokens.drop s.cursor) ps ∧
      ps.flatMap Piece.output = output ∧
      (e.FillsInSilently →
        (e.expandStream e.deeper.answer gc fuel s).units = ps.flatMap (Piece.added e gc)) := by
  induction fuel generalizing s front trail output with
  | zero => exact absurd h Expanded.result_fail_ne_ok
  | succ fuel ih =>
    have hhere : split (front ++ trail) (s.tokens.drop s.cursor) = s := by
      rw [← hsplit, split_take_drop hs]
    unfold expandStream at h
    rw [triviaBefore_eq hsplit hfront htrail] at h
    cases hcurrent : s.current with
    | none =>
      simp only [hcurrent, Expanded.result_pure_eq_ok] at h
      refine ⟨trail.map .copied ++ [], ?_, ?_, ?_⟩
      · rw [List.drop_eq_nil_of_le (List.getElem?_eq_none_iff.1 hcurrent)]
        exact Pieces.copyTrivia htrail .nil
      · rw [List.append_nil, Pieces.flatMap_output_copied, h]
      · intro _
        rw [List.append_nil, Pieces.flatMap_added_copied]
        simp only [expandStream, hcurrent, Expanded.pure]
    | some token =>
      simp only [hcurrent] at h
      cases hfound : firstMatch e.macros s with
      | nothing =>
        simp only [hfound, Expanded.result_map_eq_ok] at h
        obtain ⟨later, hlater, rfl⟩ := h
        have hsignificant := hs.significant hcurrent
        obtain ⟨hnext, htight, hdrop⟩ := split_step hsplit (next_reaches hs)
          (consumed_next hcurrent) (tight_singleton hsignificant) (List.cons_ne_nil _ _)
        obtain ⟨ps, hps, rfl, hunits⟩ := ih (next_reaches hs).settled hnext htight
          (fun x hx => List.mem_takeWhile_imp hx) hlater
        -- The token is copied. The trivia behind it are copied when the next piece is known.
        rw [List.singleton_append] at hdrop
        rw [hdrop] at hhere ⊢
        refine ⟨trail.map .copied ++ .copied token :: ps, ?_, ?_, ?_⟩
        · refine Pieces.copyTrivia htrail (.copied hsignificant ?_ hps)
          intro m hm
          rw [hhere]
          exact (firstMatch_eq_nothing_iff hs).1 hfound m hm
        · exact Pieces.flatMap_output_step _ _ _
        · intro hsilent
          rw [Pieces.flatMap_added_step, ← hunits hsilent]
          simp only [expandStream, hcurrent, hfound, Expanded.units_map, Piece.added,
            List.nil_append]
      | macroAt m c t =>
        simp only [hfound, Expanded.result_bind_eq_ok, Expanded.result_map_eq_ok] at h
        obtain ⟨rendered, hrender, out, hout, later, hlater, rfl⟩ := h
        obtain ⟨hfirst, hmatch, hlt⟩ := firstMatch_eq_macroAt hs hfound
        have hst : s.Reaches t := Rule.reaches_of_matched hs hmatch
        have hcovers : Covers s t c := Rule.covers_of_matched hs hmatch
        have hhead := head?_of_covers hs hcurrent hlt hcovers
        -- What the match consumed may end in trivia, which the capture leaves to later pieces.
        obtain ⟨behind, hconsumed, hbehind⟩ := hcovers.exists_trail
        have hne : c.tokens ≠ [] := by
          intro hnil
          rw [hnil] at hhead
          cases hhead
        obtain ⟨hnext, htight, hdrop⟩ := split_step hsplit hst hconsumed hcovers.ordered.tight hne
        rw [← @render_congr e.deeper e rfl] at hrender
        obtain ⟨ps, hps, rfl, hunits⟩ := ih hst.settled hnext htight hbehind hlater
        rw [hdrop] at hhere ⊢
        refine ⟨trail.map .copied ++ .replaced m c out :: ps, ?_, ?_, ?_⟩
        · refine Pieces.copyTrivia htrail
            (.replaced hhead (hs.significant hcurrent) ?_ hrender hout hps)
          rw [hhere]
          exact hfirst
        · exact Pieces.flatMap_output_step _ _ _
        · intro hsilent
          rw [Pieces.flatMap_added_step, ← hunits hsilent]
          simp only [expandStream, hcurrent, hfound, Piece.added, hrender, added_eq]
          rw [← @render_congr e.deeper e rfl, Expanded.units_bind_of_ok hrender,
            hsilent m hfirst.mem c, List.nil_append, Expanded.units_bind_of_ok hout,
            Expanded.units_map]
      | endless =>
        simp only [hfound] at h
        exact absurd h Expanded.result_fail_ne_ok

/-- Where every macro declines, the walk reaches the end: each step uses up a token. -/
theorem expandStream_succeeds (e : Engine) (answer : Request → Expanded Text) (gc : GcMode)
    {fuel : Nat} {s : TokenStream} (hs : s.Settled) (hfuel : s.left < fuel)
    (hdeclines : ∀ t token, s.Reaches t → t.current = some token → ∀ m ∈ e.macros, m.Declines t) :
    ∃ output, (e.expandStream answer gc fuel s).result = .ok output := by
  induction fuel generalizing s with
  | zero => exact absurd hfuel (Nat.not_lt_zero _)
  | succ fuel ih =>
    unfold expandStream
    cases hcurrent : s.current with
    | none => exact ⟨_, rfl⟩
    | some token =>
      have hnext := next_reaches hs
      have hleft : s.next.left < fuel := by
        have hlt := hnext.left_lt (cursor_lt_next hcurrent)
        omega
      have hnothing : firstMatch e.macros s = .nothing :=
        (firstMatch_eq_nothing_iff hs).2 (hdeclines s token (.refl hs) hcurrent)
      obtain ⟨later, hlater⟩ := ih hnext.settled hleft
        fun t token' hnt => hdeclines t token' (hnext.trans hnt)
      simp only [hnothing]
      exact ⟨_, Expanded.result_map_eq_ok.2 ⟨later, hlater, rfl⟩⟩

/-- The pieces of a walk over a whole source. -/
theorem pieces_of_tokens {e : Engine} {gc : GcMode} {fuel : Nat} {tokens : List Token}
    {output : Text}
    (h : (e.expandStream e.deeper.answer gc fuel (ofTokens tokens)).result = .ok output) :
    ∃ ps, Pieces e gc [] tokens ps ∧ ps.flatMap Piece.output = output ∧
      (e.FillsInSilently →
        (e.expandStream e.deeper.answer gc fuel (ofTokens tokens)).units
          = ps.flatMap (Piece.added e gc)) := by
  have hstart : (ofTokens tokens).tokens.take (ofTokens tokens).cursor
      = [] ++ tokens.takeWhile Token.isTrivia := drop_take_settle tokens 0
  obtain ⟨ps, hps, houtput, hunits⟩ := pieces_of_expandStream e gc _ (ofTokens_settled tokens)
    hstart tight_nil (fun x hx => List.mem_takeWhile_imp hx) h
  refine ⟨ps, ?_, houtput, hunits⟩
  rwa [← List.nil_append (tokens.takeWhile _), ← hstart, List.take_append_drop] at hps

/-- A request that succeeds has pieces, whose output is its result. -/
theorem exists_pieces {e : Engine} {r : Request} {output : Text}
    (h : (e.expand r).1 = .ok output) :
    ∃ tokens ps, lex r.source = .ok tokens ∧ Pieces e r.gc [] tokens ps ∧
      ps.flatMap Piece.output = output := by
  obtain ⟨-, tokens, hlex, hwalk⟩ := expand_eq_ok_iff.1 h
  obtain ⟨ps, hps, houtput, -⟩ := pieces_of_tokens hwalk
  exact ⟨tokens, ps, hlex, hps, houtput⟩

/-- A successful expansion cuts the tokens of its source into pieces: the parts of the source that
they take are the source, and the parts of the output that they give are the output. A source in
which every macro declines at every significant token comes back unchanged. -/
theorem expand_cuts_into_pieces (e : Engine) (r : Request) :
    (∀ output, (e.expand r).1 = .ok output →
      ∃ tokens ps, lex r.source = .ok tokens ∧ Pieces e r.gc [] tokens ps ∧
        ps.flatMap Piece.source = r.source ∧ ps.flatMap Piece.output = output) ∧
    (∀ tokens, lex r.source = .ok tokens → e.depth < e.maxDepth →
      (∀ before token after, tokens = before ++ token :: after → token.isSignificant = true →
        ∀ m ∈ e.macros, m.Declines (split before (token :: after))) →
      (e.expand r).1 = .ok r.source) := by
  constructor
  · intro output h
    obtain ⟨tokens, ps, hlex, hps, hout⟩ := exists_pieces h
    exact ⟨tokens, ps, hlex, hps, hps.flatMap_source.trans (text_lex hlex), hout⟩
  · intro tokens hlex hdepth hdeclines
    have hsettled := ofTokens_settled tokens
    obtain ⟨output, hwalk⟩ := expandStream_succeeds e e.deeper.answer r.gc hsettled
      (Nat.lt_succ_self _) (by
        intro t token hreach hcurrent m hm
        have hdrop : t.tokens.drop t.cursor = token :: t.tokens.drop (t.cursor + 1) := by
          rw [List.drop_eq_getElem_cons (cursor_lt_length hcurrent),
            (List.getElem?_eq_some_iff.1 hcurrent).2]
        rw [← split_take_drop hreach.settled, hdrop]
        refine hdeclines _ token _ ?_ (hreach.settled.significant hcurrent) m hm
        rw [← hdrop, List.take_append_drop]
        exact hreach.tokens_eq.symm)
    have hok : (e.expand r).1 = .ok output := expand_eq_ok_iff.2 ⟨hdepth, tokens, hlex, hwalk⟩
    obtain ⟨tokens', ps, hlex', hps, hout⟩ := exists_pieces hok
    obtain rfl : tokens = tokens' := Except.ok.inj (hlex.symm.trans hlex')
    rw [hok, ← hout, hps.output_eq_source hdeclines, text_lex hlex]

/-- A macro that writes the name behind `twice` two times. The trivia in the match is gone, the
trivia behind it stays. -/
theorem expand_cuts_into_pieces_twice :
    ∃ (e : Engine) (r : Request), r.source = "twice  a # end".toList ∧
      (e.expand r).1 = .ok "a a # end".toList ∧
      ∃ tokens ps, lex r.source = .ok tokens ∧ Pieces e r.gc [] tokens ps ∧
        ps.flatMap Piece.source = r.source ∧ ps.flatMap Piece.output = "a a # end".toList := by
  obtain ⟨e, r, hsource, h⟩ : ∃ (e : Engine) (r : Request), r.source = "twice  a # end".toList ∧
      (e.expand r).1 = .ok "a a # end".toList := by
    refine ⟨{ new 2 false with macros := [⟨"twice".toList, ⟨.chain [.lexeme "twice".toList,
        .labelled (.ofText ['x']) (.token .identifier)], by decide⟩,
        ⟨[.capture ['x'] [], .text [' '], .capture ['x'] []]⟩⟩] },
      ⟨"twice  a # end".toList, [], .disabled⟩, rfl, ?_⟩
    decide +kernel
  exact ⟨e, r, hsource, h, (expand_cuts_into_pieces e r).1 _ h⟩

end Engine

end SourceMacros

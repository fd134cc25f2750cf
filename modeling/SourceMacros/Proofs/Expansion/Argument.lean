import SourceMacros.Proofs.Engine.InPlace
import SourceMacros.Proofs.Token

/-!
# Where an argument is cut

A default value that has to be evaluated is replaced by `null`. The argument expander does not parse
it: it looks for the first significant token that creates an object, or that opens a call, and cuts
there. In a call the name in front of the parenthesis goes as well. The scan looks one token ahead,
while the rule is about what stands behind (`Kept`); one step of it never passes a stop, and never
makes one (`Kept.cons`).

What is kept goes to the engine in one request. That holds of any engine that can expand a source
and read a text (`Host`), not only of the one that expands in place.
-/

namespace SourceMacros

/-! ## Engines in general -/

/-- What an expander asks of an engine: to expand a source, and to read the outcome. -/
structure Host (σ : Type) where
  expand : Request → ExceptT ExpandError (StateM σ) Text
  read : Text → ExceptT ExpandError (StateM σ) TokenStream

namespace Host

variable {σ : Type} (host : Host σ)

/-- Expands the text of some tokens; the unit is not kept. -/
def resubmit (tokens : List Token) (context : Text) :
    ExceptT ExpandError (StateM σ) TokenStream := do
  host.read (← host.expand ⟨Token.text tokens, context, .disabled⟩)

def carryOut : Plan → ExceptT ExpandError (StateM σ) TokenStream
  | .keep s => pure s
  | .expand r => do host.read (← host.expand r)
  | .reject err => throw err

/-- The argument expander at work: what it gives, and whether the default value was changed. -/
def argumentWithNullability (s : TokenStream) :
    ExceptT ExpandError (StateM σ) (TokenStream × Bool) := do
  let (plan, cut) := Expander.argumentWithNullability s
  return (← host.carryOut plan, cut)

/-- The same engine, with a record of all requests for expansion. -/
def recorded : Host (σ × List Request) where
  expand r := fun (e, log) =>
    let (outcome, e) := host.expand r e
    (outcome, e, log ++ [r])
  read text := fun (e, log) =>
    let (outcome, e) := host.read text e
    (outcome, e, log)

/-- Carrying out a plan makes the requests of the plan, whether they succeed or not. -/
theorem recorded_carryOut (plan : Plan) (e : σ) (log : List Request) :
    host.recorded.carryOut plan (e, log) =
      ((host.carryOut plan e).1, (host.carryOut plan e).2, log ++ plan.requests) := by
  cases plan with
  | keep s =>
    simp only [Plan.requests, List.append_nil]
    rfl
  | reject err =>
    simp only [Plan.requests, List.append_nil]
    rfl
  | expand r =>
    simp only [carryOut, InPlace.bind_apply, recorded, Plan.requests]
    rcases host.expand r e with ⟨_ | output, e'⟩ <;> rfl

/-- The engine of this library. -/
def ofEngine (rounds : Nat) : Host Engine where
  expand := InPlace.expand rounds
  read := InPlace.read

/-- With enough rounds, the host made from an engine carries out a plan as the engine does. -/
theorem carryOut_ofEngine {rounds : Nat} (e : Engine) (hrounds : e.maxDepth - e.depth < rounds)
    (plan : Plan) : (ofEngine rounds).carryOut plan e = e.carryOut plan := by
  rw [← InPlace.carryOut_eq e hrounds]
  cases plan <;> rfl

end Host

/-! ## What is kept -/

namespace Argument

/-- The keyword that creates an object stands at this index, in any letter case. -/
def CreatesAt (ts : List Token) (i : Nat) : Prop :=
  ∃ t, ts[i]? = some t ∧ t.kind = .keyword ∧ Text.eqIgnoreAsciiCase t.lexeme "new".toList = true

/-- An opening parenthesis stands at this index, and an identifier directly in front of it. -/
def CallsAt (ts : List Token) (i : Nat) : Prop :=
  0 < i ∧ (∃ name, ts[i - 1]? = some name ∧ name.kind = .identifier) ∧
    ∃ t, ts[i]? = some t ∧ t.kind = .punctuation ∧ t.lexeme = ['(']

def StopsAt (ts : List Token) (i : Nat) : Prop :=
  CreatesAt ts i ∨ CallsAt ts i

/-- The tokens that are kept, and whether `null` takes the place of the others: all of them, those
in front of the first creation of an object, or those in front of the name that is called first. -/
inductive Kept (ts : List Token) : List Token → Bool → Prop
  | whole (h : ∀ i, ¬ StopsAt ts i) : Kept ts ts false
  | creation {i : Nat} (h : CreatesAt ts i) (hfirst : ∀ j < i, ¬ StopsAt ts j) :
    Kept ts (ts.take i ++ [nullToken]) true
  | call {i : Nat} (h : CallsAt ts i) (hfirst : ∀ j < i, ¬ StopsAt ts j) :
    Kept ts (ts.take (i - 1) ++ [nullToken]) true

variable {t : Token} {ts kept : List Token} {cut : Bool}

theorem createsAt_zero_iff : CreatesAt (t :: ts) 0 ↔ t.isNew = true := by
  simp [CreatesAt, Token.isNew]

theorem stopsAt_zero_iff : StopsAt (t :: ts) 0 ↔ t.isNew = true := by
  simp [StopsAt, CallsAt, createsAt_zero_iff]

theorem callsAt_one_iff : CallsAt (t :: ts) 1 ↔
    t.isIdentifier = true ∧ ts.head?.any (·.is .punctuation ['(']) = true := by
  cases ts <;> simp [CallsAt, Token.isIdentifier, Token.is]

/-- Behind a name that is not called, the calls are those behind the name. -/
theorem callsAt_succ_iff (hcall : ¬ CallsAt (t :: ts) 1) {i : Nat} :
    CallsAt (t :: ts) (i + 1) ↔ CallsAt ts i := by
  cases i with
  | zero => exact iff_of_false hcall fun h => Nat.lt_irrefl 0 h.1
  | succ i => simp [CallsAt]

theorem stopsAt_succ_iff (hcall : ¬ CallsAt (t :: ts) 1) {i : Nat} :
    StopsAt (t :: ts) (i + 1) ↔ StopsAt ts i :=
  or_congr Iff.rfl (callsAt_succ_iff hcall)

/-- A token that stops nothing, and that is not the name of a call, stays in front. -/
theorem Kept.cons (h : Kept ts kept cut) (hnew : t.isNew = false) (hcall : ¬ CallsAt (t :: ts) 1) :
    Kept (t :: ts) (t :: kept) cut := by
  have hbefore : ∀ {i}, (∀ j < i, ¬ StopsAt ts j) → ∀ j < i + 1, ¬ StopsAt (t :: ts) j := by
    intro i hfirst j hj
    cases j with
    | zero => simp [stopsAt_zero_iff, hnew]
    | succ j =>
      rw [stopsAt_succ_iff hcall]
      exact hfirst j (Nat.lt_of_succ_lt_succ hj)
  cases h with
  | whole h => exact .whole fun i => hbefore (i := i) (fun j _ => h j) i (Nat.lt_succ_self i)
  | creation h hfirst => exact .creation (i := _ + 1) h (hbefore hfirst)
  | @call i h hfirst =>
    have hcalls := (callsAt_succ_iff hcall).2 h
    obtain ⟨hpos, -⟩ := h
    cases i with
    | zero => exact absurd hpos (Nat.lt_irrefl 0)
    | succ i => exact .call hcalls (hbefore hfirst)

/-- The scan keeps what is to be kept. -/
theorem kept_cutDefault (ts : List Token) : Kept ts (cutDefault ts).1 (cutDefault ts).2 := by
  induction ts with
  | nil => exact .whole fun i h => by simp [StopsAt, CreatesAt, CallsAt] at h
  | cons t ts ih =>
    have hcalls := @callsAt_one_iff t ts
    rw [← Bool.and_eq_true] at hcalls
    rw [cutDefault]
    cases hnew : t.isNew with
    | true =>
      have hcreates : CreatesAt (t :: ts) 0 := createsAt_zero_iff.2 hnew
      exact .creation hcreates fun j hj => absurd hj (Nat.not_lt_zero j)
    | false =>
      cases hcall : t.isIdentifier && ts.head?.any (·.is .punctuation ['(']) with
      | true =>
        refine .call (hcalls.2 hcall) fun j hj => ?_
        rw [Nat.lt_one_iff.1 hj, stopsAt_zero_iff, hnew]
        exact Bool.false_ne_true
      | false => exact ih.cons hnew fun h => by simp [hcalls.1 h] at hcall

theorem Kept.cut_iff (h : Kept ts kept cut) : cut = true ↔ ∃ i, StopsAt ts i := by
  cases h with
  | whole h => exact iff_of_false Bool.false_ne_true fun ⟨i, hi⟩ => h i hi
  | @creation i h _ => exact iff_of_true rfl ⟨i, .inl h⟩
  | @call i h _ => exact iff_of_true rfl ⟨i, .inr h⟩

/-! ## What is written -/

/-- What is written between a token and the next: a space, but nothing in empty square brackets. -/
def gap (t u : Token) : List Token :=
  if t.lexeme = ['['] ∧ u.lexeme = [']'] then [] else [.synthetic .whitespace [' ']]

/-- The tokens in order, with the gap in front of each but the first. -/
def spaced : List Token → List Token
  | [] => []
  | t :: ts => t :: ((t :: ts).zip ts).flatMap fun (before, u) => gap before u ++ [u]

theorem spaced_cons_cons (t u : Token) (ts : List Token) :
    spaced (t :: u :: ts) = t :: gap t u ++ spaced (u :: ts) := by
  simp [spaced]

theorem text_spaced (ts : List Token) : Token.text (spaced ts) = spacedText ts := by
  induction ts with
  | nil => rfl
  | cons t ts ih =>
    cases ts with
    | nil => simp [spaced, spacedText, Token.text]
    | cons u ts =>
      rw [spaced_cons_cons, Token.text_append, ih, Token.text_cons, spacedText, gap]
      split <;> rfl

/-- The text ends in the last token. -/
theorem lexeme_suffix_text_spaced (ts : List Token) (t : Token) :
    t.lexeme <:+ Token.text (spaced (ts ++ [t])) := by
  induction ts with
  | nil => simp [spaced, Token.text]
  | cons u ts ih =>
    obtain ⟨v, rest, hrest⟩ := List.exists_cons_of_ne_nil (List.concat_ne_nil t ts)
    rw [hrest] at ih
    rw [List.cons_append, hrest, spaced_cons_cons, Token.text_append]
    exact ih.trans (List.suffix_append _ _)

/-- Where something is cut off, the text ends in `null`. -/
theorem Kept.null_suffix (h : Kept ts kept true) : "null".toList <:+ Token.text (spaced kept) := by
  obtain ⟨front, rfl⟩ : ∃ front, kept = front ++ [nullToken] := by
    cases h with
    | creation => exact ⟨_, rfl⟩
    | call => exact ⟨_, rfl⟩
  exact lexeme_suffix_text_spaced front nullToken

/-! ## Positions -/

theorem cutDefault_unplaced (ts : List Token) : cutDefault (ts.map Token.unplaced) =
    ((cutDefault ts).1.map Token.unplaced, (cutDefault ts).2) := by
  induction ts with
  | nil => rfl
  | cons t ts ih =>
    have hnext : (ts.map Token.unplaced).head?.any (·.is .punctuation ['(']) =
        ts.head?.any (·.is .punctuation ['(']) := by
      rw [List.head?_map]
      exact Token.any_map_unplaced (fun _ => rfl) _
    have hnew : t.unplaced.isNew = t.isNew := rfl
    have hname : t.unplaced.isIdentifier = t.isIdentifier := rfl
    rw [List.map_cons, cutDefault, cutDefault, hnext, hnew, hname, ih]
    split <;> rfl

theorem spacedText_unplaced (ts : List Token) :
    spacedText (ts.map Token.unplaced) = spacedText ts := by
  induction ts with
  | nil => rfl
  | cons t ts ih =>
    cases ts with
    | nil => rfl
    | cons u ts =>
      rw [List.map_cons, List.map_cons, spacedText, spacedText, ← List.map_cons, ih]
      rfl

/-- The expander sees the kinds and lexemes of the significant tokens, and nothing else. -/
theorem argumentWithNullability_congr {s t : TokenStream}
    (h : s.remaining.map Token.unplaced = t.remaining.map Token.unplaced) :
    Expander.argumentWithNullability s = Expander.argumentWithNullability t := by
  have hcut := (cutDefault_unplaced s.remaining).symm.trans (h ▸ cutDefault_unplaced t.remaining)
  obtain ⟨hkept, hflag⟩ := Prod.mk.inj hcut
  have htext : spacedText (cutDefault s.remaining).1 = spacedText (cutDefault t.remaining).1 := by
    rw [← spacedText_unplaced, hkept, spacedText_unplaced]
  simp only [Expander.argumentWithNullability, htext, hflag]

end Argument

/-! ## One request -/

namespace Host

open Argument

variable {σ : Type} (host : Host σ)

/-- The engine carries out the plan of the expander, and the flag is known before. -/
theorem argumentWithNullability_apply (s : TokenStream) (e : σ) :
    host.argumentWithNullability s e =
      ((host.carryOut (Expander.argument s) e).1.map (·, (cutDefault s.remaining).2),
        (host.carryOut (Expander.argument s) e).2) := by
  change (host.carryOut (Expander.argument s) >>=
    fun t => pure (t, (cutDefault s.remaining).2)) e = _
  rw [InPlace.bind_apply]
  rcases host.carryOut (Expander.argument s) e with ⟨_ | t, e'⟩ <;> rfl

theorem recorded_argumentWithNullability (s : TokenStream) (e : σ) (log : List Request) :
    host.recorded.argumentWithNullability s (e, log) =
      ((host.argumentWithNullability s e).1, (host.argumentWithNullability s e).2,
        log ++ [⟨spacedText (cutDefault s.remaining).1, [], .disabled⟩]) := by
  rw [argumentWithNullability_apply, argumentWithNullability_apply, recorded_carryOut]
  rfl

/-- A result that is returned says whether there was a place to cut at. -/
theorem nullable_eq_of_ok {s t : TokenStream} {e e' : σ} {nullable : Bool}
    (h : host.argumentWithNullability s e = (.ok (t, nullable), e')) :
    nullable = (cutDefault s.remaining).2 := by
  rw [argumentWithNullability_apply] at h
  have houtcome := (Prod.mk.inj h).1
  cases hcarried : (host.carryOut (Expander.argument s) e).1 with
  | error err =>
    rw [hcarried] at houtcome
    cases houtcome
  | ok stream =>
    rw [hcarried] at houtcome
    cases houtcome
    rfl

/-- On any engine, the argument expander makes one request: the source is that of the tokens to be
kept, there is no context, and the unit is not retained. If it succeeds, it says whether there was a
place to cut at. White space, comments and positions have no part in this. -/
theorem argument_cut_at_first_stop (s : TokenStream) :
    ∃ kept cut, Kept s.remaining kept cut ∧
      host.argumentWithNullability s = (do return (← host.resubmit (spaced kept) [], cut)) ∧
      (∀ e log, host.recorded.argumentWithNullability s (e, log) =
        ((host.argumentWithNullability s e).1, (host.argumentWithNullability s e).2,
          log ++ [⟨Token.text (spaced kept), [], .disabled⟩])) ∧
      (∀ e e' t nullable, host.argumentWithNullability s e = (.ok (t, nullable), e') →
        (nullable = true ↔ ∃ i, StopsAt s.remaining i)) ∧
      ((∃ i, StopsAt s.remaining i) → "null".toList <:+ Token.text (spaced kept)) ∧
      ∀ t : TokenStream, s.remaining.map Token.unplaced = t.remaining.map Token.unplaced →
        Expander.argumentWithNullability s = Expander.argumentWithNullability t := by
  have hkept := kept_cutDefault s.remaining
  refine ⟨_, _, hkept, ?_, ?_, ?_, ?_, fun t => argumentWithNullability_congr⟩
  · rw [resubmit, text_spaced]
    rfl
  · intro e log
    rw [text_spaced]
    exact host.recorded_argumentWithNullability s e log
  · intro e e' t nullable hok
    rw [host.nullable_eq_of_ok hok]
    exact hkept.cut_iff
  · intro hstop
    rw [hkept.cut_iff.2 hstop] at hkept
    exact hkept.null_suffix

/-- A name in front of a parenthesis is cut off also if a comment stands between the two. -/
example : Expander.argumentWithNullability (.ofTokens
    [.synthetic .variableName ['$', 'x'], .synthetic .punctuation ['='],
      .synthetic .punctuation ['['], .synthetic .whitespace [' '], .synthetic .punctuation [']'],
      .synthetic .punctuation ['.'], .synthetic .identifier ['f'],
      .synthetic .comment "/**/".toList, .synthetic .punctuation ['('],
      .synthetic .punctuation [')']]) = (.reexpand "$x = [] . null".toList, true) := rfl

/-- On the engine of this library the work of the expander is what the engine does with its plan. -/
theorem argumentWithNullability_ofEngine {rounds : Nat} (e : Engine)
    (hrounds : e.maxDepth - e.depth < rounds) (s : TokenStream) :
    (ofEngine rounds).argumentWithNullability s e =
      ((e.carryOut (Expander.argument s)).1.map (·, (Expander.argumentWithNullability s).2),
        (e.carryOut (Expander.argument s)).2) := by
  rw [argumentWithNullability_apply, carryOut_ofEngine e hrounds]
  rfl

end Host

end SourceMacros

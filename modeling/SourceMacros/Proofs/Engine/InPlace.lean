import SourceMacros.Proofs.Engine.Expansion

/-!
# Expansion in place

`Engine.expand` answers a request from an engine that stays as it is, and puts the units behind the
kept ones at the end. Here the same work is done step by step on an engine that changes: the depth
is raised in front of a walk and lowered behind it, units are kept one by one, expanders ask the
engine in the middle of a walk, and what a failure leaves behind stays. The two agree
(`InPlace.expand_eq`), so neither the result nor the engine that is left can tell them apart. In
particular the depth comes back to where it was, however the request ends.

The number of rounds bounds the nesting of requests. One round more than there are levels is enough.
-/

namespace SourceMacros

open TokenStream

/-- A step that works on the engine itself. What it did before it failed stays done. -/
abbrev InPlace := ExceptT ExpandError (StateM Engine)

namespace InPlace

variable {α β : Type}

def read (source : Text) : InPlace TokenStream :=
  match ofSource source with
  | .error err => throw (.lex err)
  | .ok s => pure s

def carryOut (answer : Request → InPlace Text) : Plan → InPlace TokenStream
  | .keep s => pure s
  | .expand r => do read (← answer r)
  | .reject err => throw err

/-- Sends a region through expanders, which are looked up one by one. -/
def applyExpanders (answer : Request → InPlace Text) (owner : Text) :
    List Text → TokenStream → InPlace TokenStream
  | [], s => pure s
  | name :: names, s => do
    let e ← get
    match e.expander? name with
    | none => throw (.unknownExpander owner name)
    | some x => applyExpanders answer owner names (← carryOut answer (x s))

def render (answer : Request → InPlace Text) (owner : Text) (capture : Capture) :
    List Segment → InPlace Text
  | [] => pure []
  | .text t :: segments => do return t ++ (← render answer owner capture segments)
  | .capture label names :: segments =>
    match capture.find? label with
    | none => render answer owner capture segments
    | some found => do
      let s ← applyExpanders answer owner names found.stream
      return s.text ++ (← render answer owner capture segments)

/-- Expands a stream from its cursor on, with the macros of the moment. -/
def walk (answer : Request → InPlace Text) (gc : GcMode) : (fuel : Nat) → TokenStream → InPlace Text
  | 0, _ => throw .endless
  | fuel + 1, s => do
    let trivia := Token.text s.triviaBefore
    match s.current with
    | none => return trivia
    | some token =>
      let e ← get
      match Engine.firstMatch e.macros s with
      | .endless => throw .endless
      | .nothing => return trivia ++ token.lexeme ++ (← walk answer gc fuel s.next)
      | .macroAt m capture rest =>
        let rendered ← render answer m.name capture m.template.segments
        let output ← answer ⟨rendered, m.name, gc⟩
        return trivia ++ output ++ (← walk answer gc fuel rest)

/-- Works one level deeper, and comes back up also from a failure. -/
def nested (task : InPlace α) : InPlace α := fun e =>
  let (outcome, e) := task e.deeper
  (outcome, { e with depth := e.depth - 1 })

def keep (unit : Expansion) : InPlace Unit :=
  modify fun e => { e with retained := e.retained ++ [unit] }

/-- Expands every macro in a source, at most `rounds` requests deep. -/
def expand : (rounds : Nat) → Request → InPlace Text
  | 0, _ => throw .endless
  | rounds + 1, r => do
    let e ← get
    if e.maxDepth ≤ e.depth then throw (.recursionLimit e.maxDepth r.context)
    else
      let s ← read r.source
      let output ← nested (walk (expand rounds) r.gc (s.left + 1) s)
      if r.gc = .enabled ∧ e.retainIntermediate then keep ⟨r.context, output⟩
      return output

/-! ## Agreement -/

/-- On this engine, whatever it has kept before, the task has the outcome `x`: it ends with the
result of `x`, and all it does to the engine is to keep the units of `x`. -/
def Yields (e : Engine) (task : InPlace α) (x : Expanded α) : Prop :=
  ∀ kept, task { e with retained := kept } = { e with retained := kept }.retain x

variable {e : Engine}

theorem yields_pure (a : α) : Yields e (pure a) (.pure a) := by
  intro kept
  simp only [Engine.retain, Expanded.pure, List.append_nil]
  rfl

theorem yields_throw (err : ExpandError) : Yields e (throw err : InPlace α) (.fail err) := by
  intro kept
  simp only [Engine.retain, Expanded.fail, List.append_nil]
  rfl

theorem bind_apply {σ : Type} (task : ExceptT ExpandError (StateM σ) α)
    (f : α → ExceptT ExpandError (StateM σ) β) (e : σ) :
    (task >>= f) e = match task e with
      | (.ok a, e') => f a e'
      | (.error err, e') => (.error err, e') := by
  change (ExceptT.bindCont f (task e).1) (task e).2 = _
  rcases task e with ⟨_ | a, e'⟩ <;> rfl

theorem get_apply (e : Engine) : (get : InPlace Engine) e = (.ok e, e) := rfl

/-- Tasks in sequence yield what the sequence of their results yields, units in order. -/
theorem Yields.bind {task : InPlace α} {x : Expanded α} {f : α → InPlace β} {g : α → Expanded β}
    (hx : Yields e task x) (hf : ∀ a, Yields e (f a) (g a)) : Yields e (task >>= f) (x.bind g) := by
  intro kept
  rw [bind_apply, hx kept, Engine.retain, Expanded.bind]
  cases x.result with
  | error err => rfl
  | ok a =>
    refine (hf a (kept ++ x.units)).trans ?_
    simp only [Engine.retain, List.append_assoc]

theorem Yields.map {task : InPlace α} {x : Expanded α} (f : α → β) (hx : Yields e task x) :
    Yields e (task >>= fun a => pure (f a)) (x.map f) := by
  rw [Expanded.map_eq_bind]
  exact hx.bind fun a => yields_pure (f a)

/-- What a task reads off the engine is the engine, but for the kept units. -/
theorem yields_get {f : Engine → InPlace α} {x : Expanded α}
    (h : ∀ kept, Yields e (f { e with retained := kept }) x) : Yields e (get >>= f) x := by
  intro kept
  rw [bind_apply, get_apply]
  exact h kept kept

theorem yields_keep (unit : Expansion) : Yields e (keep unit) ⟨.ok (), [unit]⟩ :=
  fun _ => rfl

theorem yields_read (source : Text) : Yields e (read source) (expandable source) := by
  unfold read expandable
  cases ofSource source with
  | error err => exact yields_throw _
  | ok s => exact yields_pure s

theorem Yields.nested {task : InPlace α} {x : Expanded α} (h : Yields e.deeper task x) :
    Yields e (nested task) x := by
  intro kept
  have hdeep := h kept
  simp only [InPlace.nested]
  rw [show Engine.deeper { e with retained := kept } = { e.deeper with retained := kept } from rfl,
    hdeep]
  rfl

section Answers

variable {answer : Request → InPlace Text} {answer' : Request → Expanded Text}
  (h : ∀ r, Yields e (answer r) (answer' r))

include h

theorem yields_carryOut (plan : Plan) :
    Yields e (carryOut answer plan) (plan.carryOut answer') := by
  cases plan with
  | keep s => exact yields_pure s
  | expand r => exact (h r).bind yields_read
  | reject err => exact yields_throw err

/-- A chain of expanders in place yields what the chain yields, by induction on their names. -/
theorem yields_applyExpanders (owner : Text) (names : List Text) (s : TokenStream) :
    Yields e (applyExpanders answer owner names s) (e.applyExpanders answer' owner names s) := by
  induction names generalizing s with
  | nil => exact yields_pure s
  | cons name names ih =>
    refine yields_get fun kept => ?_
    unfold Engine.applyExpanders
    change Yields e (match e.expander? name with
      | none => _
      | some x => _) _
    cases e.expander? name with
    | none => exact yields_throw _
    | some x => exact (yields_carryOut h (x s)).bind ih

/-- Rendering a template in place yields what the template gives, by induction on its segments. -/
theorem yields_render (owner : Text) (capture : Capture) (segments : List Segment) :
    Yields e (render answer owner capture segments)
      (e.renderSegments answer' owner capture segments) := by
  induction segments with
  | nil => exact yields_pure []
  | cons segment segments ih =>
    cases segment with
    | text t => exact ih.map (t ++ ·)
    | capture label names =>
      unfold render Engine.renderSegments
      cases capture.find? label with
      | none => exact ih
      | some found =>
        exact (yields_applyExpanders h owner names found.stream).bind fun s => ih.map (s.text ++ ·)

/-- Walking over a stream in place yields its expansion, by induction on the rounds. -/
theorem yields_walk (gc : GcMode) (fuel : Nat) (s : TokenStream) :
    Yields e (walk answer gc fuel s) (e.expandStream answer' gc fuel s) := by
  induction fuel generalizing s with
  | zero => exact yields_throw .endless
  | succ fuel ih =>
    unfold walk Engine.expandStream
    cases s.current with
    | none => exact yields_pure _
    | some token =>
      refine yields_get fun kept => ?_
      change Yields e (match Engine.firstMatch e.macros s with
        | .endless => _
        | .nothing => _
        | .macroAt m capture rest => _) _
      cases Engine.firstMatch e.macros s with
      | endless => exact yields_throw .endless
      | nothing => exact (ih s.next).map (Token.text s.triviaBefore ++ token.lexeme ++ ·)
      | macroAt m capture rest =>
        refine (yields_render h m.name capture m.template.segments).bind fun rendered => ?_
        refine (h ⟨rendered, m.name, gc⟩).bind fun output => ?_
        exact (ih rest).map (Token.text s.triviaBefore ++ output ++ ·)

end Answers

/-- A request in place has the outcome that the engine answers with. -/
theorem yields_expand {rounds : Nat} (e : Engine) (hrounds : e.maxDepth - e.depth < rounds)
    (r : Request) : Yields e (expand rounds r) (e.answer r) := by
  induction rounds generalizing e r with
  | zero => exact absurd hrounds (Nat.not_lt_zero _)
  | succ rounds ih =>
    refine yields_get fun kept => ?_
    rw [Engine.answer]
    cases hlevels : e.maxDepth - e.depth with
    | zero =>
      have hnone : e.maxDepth ≤ e.depth := by omega
      simp only [hnone, if_true, Engine.expandWithin]
      exact yields_throw _
    | succ levels =>
      have hsome : ¬ e.maxDepth ≤ e.depth := by omega
      -- The walk runs on the engine with its depth raised, so its requests are answered there.
      have hdeeper : ∀ r, Yields e.deeper (expand rounds r) (e.expandWithin levels r) := by
        intro r
        rw [← Engine.answer_deeper e hlevels]
        refine ih e.deeper ?_ r
        simp only [Engine.deeper]
        omega
      simp only [hsome, if_false, Engine.expandWithin]
      refine (yields_read r.source).bind fun s => ?_
      have hwalk := yields_walk hdeeper r.gc (s.left + 1) s
      rw [@Engine.expandStream_congr e.deeper e rfl rfl] at hwalk
      refine hwalk.nested.bind fun output => ?_
      by_cases hkeep : r.gc = .enabled ∧ e.retainIntermediate = true
      · simp only [hkeep, and_self, if_true]
        exact (yields_keep ⟨r.context, output⟩).map fun _ => output
      · simp only [hkeep, if_false]
        exact yields_pure output

/-- Expanding in place is what `Engine.expand` says: it gives that result and leaves that engine. -/
theorem expand_eq {rounds : Nat} (e : Engine) (hrounds : e.maxDepth - e.depth < rounds)
    (r : Request) : expand rounds r e = e.expand r :=
  yields_expand e hrounds r e.retained

/-- Rendering in place on an engine at any depth is rendering, with the units retained. -/
theorem render_eq {rounds : Nat} (e : Engine) (hrounds : e.maxDepth - e.depth < rounds) (m : Macro)
    (capture : Capture) :
    render (expand rounds) m.name capture m.template.segments e
      = e.retain (e.render e.answer m capture) :=
  yields_render (yields_expand e hrounds) m.name capture m.template.segments e.retained

theorem carryOut_eq {rounds : Nat} (e : Engine) (hrounds : e.maxDepth - e.depth < rounds)
    (plan : Plan) : carryOut (expand rounds) plan e = e.carryOut plan :=
  yields_carryOut (yields_expand e hrounds) plan e.retained

end InPlace

end SourceMacros

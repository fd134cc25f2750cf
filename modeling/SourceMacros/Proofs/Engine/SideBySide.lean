import SourceMacros.Proofs.Engine.Expansion

/-!
# Two expansions side by side

Two walks over one stream take the same steps: the same macros match, the same templates are filled
in, and the same requests are made. They can differ in the answers to these requests only. So a
relation between answers that lasts when both sides go on (`Expanded.Lasting`) is a relation between
the walks (`Engine.Parallel.expandStream`). A property of one walk is the case of a relation that
does not look at its second side.
-/

namespace SourceMacros

open TokenStream

/-- The relation holds of equal values, and lasts when both sides go on with a value. -/
structure Expanded.Lasting (R : ∀ α : Type, Expanded α → Expanded α → Prop) : Prop where
  pure : ∀ {α : Type} (a : α), R α (.pure a) (.pure a)
  bind : ∀ {α β : Type} {x y : Expanded α} {f g : α → Expanded β}, R α x y →
    (∀ a, x.result = .ok a → R β (f a) (g a)) → R β (x.bind f) (y.bind g)

theorem Expanded.Lasting.map {R : ∀ α : Type, Expanded α → Expanded α → Prop} (h : Lasting R)
    {α β : Type} {x y : Expanded α} (f : α → β) (hxy : R α x y) : R β (x.map f) (y.map f) := by
  rw [map_eq_bind, map_eq_bind]
  exact h.bind hxy fun a _ => h.pure (f a)

/-- A standard expander asks for one expansion, and splits its output into tokens. -/
theorem Expanded.Lasting.plan {R : ∀ α : Type, Expanded α → Expanded α → Prop} (h : Lasting R)
    {answer answer' : Request → Expanded Text} {x : Expander} (hx : x.IsStandard) (s : TokenStream)
    (hanswer : ∀ source, R Text (answer ⟨source, [], .disabled⟩) (answer' ⟨source, [], .disabled⟩))
    (hread : ∀ source, R TokenStream (expandable source) (expandable source)) :
    R TokenStream ((x s).carryOut answer) ((x s).carryOut answer') := by
  obtain ⟨source, hplan⟩ := hx.eq_reexpand s
  rw [hplan]
  exact h.bind (hanswer source) fun output _ => hread output

namespace Engine

/-- The relation lasts, and holds wherever a walk of the engine gets something from outside: the
regions that expanders give, the complaint about an expander that is missing, and a pattern that
never ends. -/
structure Parallel (e : Engine) (R : ∀ α : Type, Expanded α → Expanded α → Prop)
    (answer answer' : Request → Expanded Text) : Prop extends Expanded.Lasting R where
  plan : ∀ {name : Text} {x : Expander} (s : TokenStream), e.expander? name = some x →
    R TokenStream ((x s).carryOut answer) ((x s).carryOut answer')
  unknown : ∀ {m : Macro} {name : Text}, m ∈ e.macros → name ∈ m.template.expanders →
    e.expander? name = none →
    R TokenStream (.fail (.unknownExpander m.name name)) (.fail (.unknownExpander m.name name))
  endless : ∀ {m : Macro} {s : TokenStream}, m ∈ e.macros → s.Settled →
    m.pattern.parse s = .endless → R Text (.fail .endless) (.fail .endless)

/-- An expander cannot look at a failure, so its plan passes on what relates the answers. -/
theorem parallel_of_refl (e : Engine) {R : ∀ α : Type, Expanded α → Expanded α → Prop}
    {answer answer' : Request → Expanded Text} (hR : Expanded.Lasting R)
    (hrefl : ∀ {α : Type} (x : Expanded α), R α x x) (h : ∀ r, R Text (answer r) (answer' r)) :
    e.Parallel R answer answer' where
  toLasting := hR
  plan {name x} s _ := by
    cases x s with
    | keep t => exact hrefl _
    | expand r => exact hR.bind (h r) fun _ _ => hrefl _
    | reject err => exact hrefl _
  unknown _ _ _ := hrefl _
  endless _ _ _ := hrefl _

namespace Parallel

variable {e : Engine} {R : ∀ α : Type, Expanded α → Expanded α → Prop}
  {answer answer' : Request → Expanded Text} {m : Macro} (h : e.Parallel R answer answer')

include h

theorem applyExpanders (hm : m ∈ e.macros) {names : List Text}
    (hnames : ∀ name ∈ names, name ∈ m.template.expanders) (s : TokenStream) :
    R TokenStream (e.applyExpanders answer m.name names s)
      (e.applyExpanders answer' m.name names s) := by
  induction names generalizing s with
  | nil => exact h.pure s
  | cons name names ih =>
    unfold Engine.applyExpanders
    cases hx : e.expander? name with
    | none => exact h.unknown hm (hnames name List.mem_cons_self) hx
    | some x =>
      refine h.bind (h.plan s hx) fun t _ => ?_
      exact ih (fun other hother => hnames other (List.mem_cons_of_mem _ hother)) t

/-- A template keeps the two computations side by side. -/
theorem renderSegments (hm : m ∈ e.macros) (c : Capture) {segments : List Segment}
    (hsegments : segments ⊆ m.template.segments) :
    R Text (e.renderSegments answer m.name c segments)
      (e.renderSegments answer' m.name c segments) := by
  induction segments with
  | nil => exact h.pure []
  | cons segment segments ih =>
    have hrest := ih fun _ hmem => hsegments (List.mem_cons_of_mem _ hmem)
    cases segment with
    | text t => exact h.toLasting.map (t ++ ·) hrest
    | capture label names =>
      unfold Engine.renderSegments
      cases c.find? label with
      | none => exact hrest
      | some found =>
        have hnames : ∀ name ∈ names, name ∈ m.template.expanders := by
          intro name hname
          exact List.mem_flatMap.2 ⟨_, hsegments List.mem_cons_self, hname⟩
        refine h.bind (h.applyExpanders hm hnames found.stream) fun s _ => ?_
        exact h.toLasting.map (s.text ++ ·) hrest

theorem render (hm : m ∈ e.macros) (c : Capture) :
    R Text (e.render answer m c) (e.render answer' m c) :=
  h.renderSegments hm c (List.Subset.refl _)

/-- Walks are related if the answers to the requests of their macros are. -/
theorem expandStream (gc gc' : GcMode)
    (hanswer : ∀ source context,
      R Text (answer ⟨source, context, gc⟩) (answer' ⟨source, context, gc'⟩))
    {fuel : Nat} {s : TokenStream} (hs : s.Settled) (hfuel : s.left < fuel) :
    R Text (e.expandStream answer gc fuel s) (e.expandStream answer' gc' fuel s) := by
  induction fuel generalizing s with
  | zero => exact absurd hfuel (Nat.not_lt_zero _)
  | succ fuel ih =>
    -- Every step uses up a token, so the fuel lasts.
    have hstep : ∀ {t}, s.Reaches t → s.cursor < t.cursor →
        R Text (e.expandStream answer gc fuel t) (e.expandStream answer' gc' fuel t) := by
      intro t hst hlt
      have hleft := hst.left_lt hlt
      exact ih hst.settled (by omega)
    unfold Engine.expandStream
    cases hcurrent : s.current with
    | none => exact h.pure _
    | some token =>
      cases hfound : firstMatch e.macros s with
      | nothing => exact h.toLasting.map _ (hstep (next_reaches hs) (cursor_lt_next hcurrent))
      | macroAt m c t =>
        obtain ⟨hfirst, hmatch, hlt⟩ := firstMatch_eq_macroAt hs hfound
        refine h.bind (h.render hfirst.mem c) fun rendered _ => ?_
        refine h.bind (hanswer rendered m.name) fun output _ => ?_
        exact h.toLasting.map _ (hstep (Rule.reaches_of_matched hs hmatch) hlt)
      | endless =>
        obtain ⟨m, hm, hparse⟩ := firstMatch_eq_endless hs hfound
        exact h.endless hm hs hparse

/-- Whole sources, up to what is done with the output of the walk. -/
theorem source (gc gc' : GcMode)
    (hanswer : ∀ source context,
      R Text (answer ⟨source, context, gc⟩) (answer' ⟨source, context, gc'⟩))
    (text : Text) (hread : R TokenStream (expandable text) (expandable text))
    {f g : Text → Expanded Text} (hfg : ∀ output, R Text (f output) (g output)) :
    R Text
      ((expandable text).bind fun s => (e.expandStream answer gc (s.left + 1) s).bind f)
      ((expandable text).bind fun s => (e.expandStream answer' gc' (s.left + 1) s).bind g) := by
  refine h.bind hread fun s hs => ?_
  obtain ⟨tokens, -, rfl⟩ := result_expandable_eq_ok.1 hs
  refine h.bind (h.expandStream gc gc' hanswer (ofTokens_settled tokens) (Nat.lt_succ_self _)) ?_
  exact fun output _ => hfg output

end Parallel

end Engine

end SourceMacros

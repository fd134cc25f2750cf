import SourceMacros.Proofs.Engine.InPlace
import SourceMacros.Proofs.Engine.Pieces
import SourceMacros.Proofs.Engine.SideBySide

/-!
# Which units are kept

An expansion that keeps units keeps those of its nested expansions first, in the order of the
matches they replace, and its own unit last (`expand_keeps_in_order`). The mode of a request goes on
to the templates of macros, but not to expanders: what a standard expander asks for is never kept,
and neither is anything below it. So filling in a template leaves no trace.
-/

namespace SourceMacros

open TokenStream

/-- The first side leaves no trace. -/
def Expanded.Silent (α : Type) (x _y : Expanded α) : Prop :=
  x.units = []

theorem Expanded.silent_lasting : Lasting Silent where
  pure _ := rfl
  bind {α β x y f g} hx hf := by
    unfold Silent bind
    cases hresult : x.result with
    | error err => exact hx
    | ok a => exact List.append_eq_nil_iff.2 ⟨hx, hf a hresult⟩

theorem TokenStream.expandable_silent (source : Text) :
    Expanded.Silent TokenStream (expandable source) (expandable source) := by
  unfold expandable
  cases ofSource source with
  | error err => rfl
  | ok s => rfl

namespace Engine

open Expanded

variable {e : Engine}

/-- Where requests that are not to be retained add no units, rendering adds none. -/
theorem parallel_silent (hstandard : e.Standard) {answer : Request → Expanded Text}
    (h : ∀ source context, Silent Text (answer ⟨source, context, .disabled⟩)
      (answer ⟨source, context, .disabled⟩)) :
    e.Parallel Silent answer answer where
  toLasting := silent_lasting
  plan s hx :=
    silent_lasting.plan (hstandard _ _ hx) s (fun source => h source []) expandable_silent
  unknown _ _ _ := rfl
  endless _ _ _ := rfl

/-- Where a request keeps no unit of its own, nothing below it keeps one. -/
theorem expandWithin_silent (hstandard : e.Standard) (levels : Nat) {r : Request}
    (hquiet : r.gc = .disabled ∨ e.retainIntermediate = false) :
    Silent Text (e.expandWithin levels r) (e.expandWithin levels r) := by
  induction levels generalizing r with
  | zero => rfl
  | succ levels ih =>
    -- The mode is passed on to the macros, so the induction hypothesis covers their requests. Those
    -- of expanders are covered whatever the mode.
    have hown : ¬ (r.gc = .enabled ∧ e.retainIntermediate = true) := by
      rintro ⟨hgc, hretain⟩
      rcases hquiet with hdisabled | hoff
      · rw [hgc] at hdisabled
        cases hdisabled
      · rw [hretain] at hoff
        cases hoff
    have hparallel := parallel_silent hstandard fun source context =>
      ih (r := ⟨source, context, .disabled⟩) (.inl rfl)
    simp only [expandWithin, hown, if_false]
    exact hparallel.source r.gc r.gc (fun source context => ih hquiet) r.source
      (expandable_silent r.source) fun _ => rfl

/-- Rendering alone adds no unit, since standard expanders ask for none to be retained. -/
theorem render_silent (hstandard : e.Standard) {m : Macro} (hm : m ∈ e.macros) (c : Capture) :
    (e.render e.answer m c).units = [] := by
  refine (parallel_silent hstandard fun source context => ?_).render hm c
  exact expandWithin_silent hstandard _ (.inl rfl)

/-- A request that keeps units keeps those of the pieces of its source, from left to right, and then
its own. Filling in a template in place leaves the engine as it was, at every depth. A request that
keeps nothing of its own leaves the engine as it was, however it ends. In place or not, and however
the request ends, what was kept before stays in front. -/
theorem expand_keeps_in_order (e : Engine) (hstandard : e.Standard) (source context : Text) :
    (∀ output, e.retainIntermediate = true →
      (e.expand ⟨source, context, .enabled⟩).1 = .ok output →
      ∃ tokens ps, lex source = .ok tokens ∧ Pieces e .enabled [] tokens ps ∧
        ps.flatMap Piece.output = output ∧
        (e.expand ⟨source, context, .enabled⟩).2.retained
          = e.retained ++ ps.flatMap (Piece.added e .enabled) ++ [⟨context, output⟩]) ∧
    (∀ depth, ∀ m ∈ e.macros, ∀ capture,
      (InPlace.render (InPlace.expand (e.maxDepth + 1)) m.name capture m.template.segments
        { e with depth := depth }).2 = { e with depth := depth }) ∧
    (∀ gc, gc = .disabled ∨ e.retainIntermediate = false →
      (e.expand ⟨source, context, gc⟩).2 = e) ∧
    (∀ gc, InPlace.expand (e.maxDepth + 1) ⟨source, context, gc⟩ e
        = e.expand ⟨source, context, gc⟩ ∧
      e.retained <+: (e.expand ⟨source, context, gc⟩).2.retained) := by
  refine ⟨?_, ?_, ?_, ?_⟩
  · intro output hretain hok
    obtain ⟨hdepth, tokens, hlex, hwalk⟩ := expand_eq_ok_iff.1 hok
    obtain ⟨ps, hps, houtput, hunits⟩ := pieces_of_tokens hwalk
    refine ⟨tokens, ps, hlex, hps, houtput, ?_⟩
    have hsilent : e.FillsInSilently := fun m hm c => @render_silent e.deeper hstandard m hm c
    rw [retained_expand, added_eq, answer_eq hdepth hlex, units_bind_of_ok hwalk, hunits hsilent]
    simp only [hretain, and_self, if_true, List.append_assoc]
  · intro depth m hm capture
    have hunits := @render_silent { e with depth := depth } hstandard m hm capture
    rw [InPlace.render_eq _ (by simp only; omega), retain, hunits, List.append_nil]
  · intro gc hquiet
    have hunits : (e.answer ⟨source, context, gc⟩).units = [] :=
      expandWithin_silent hstandard _ hquiet
    rw [expand, retain, hunits, List.append_nil]
  · intro gc
    refine ⟨InPlace.expand_eq e (by omega) _, ?_⟩
    rw [retained_expand]
    exact List.prefix_append _ _

/-- The greeting in the brackets is expanded by an expander and leaves no unit; the one behind them
is a match of its own. -/
theorem expand_keeps_in_order_brackets :
    ∃ e : Engine, e.Standard ∧ e.retainIntermediate = true ∧
      (e.expand ⟨"wrap hi hi".toList, ['m'], .enabled⟩).1 = .ok "(bye) bye".toList ∧
      (e.expand ⟨"wrap hi hi".toList, ['m'], .enabled⟩).2.retained
        = [⟨"wrap".toList, "(bye)".toList⟩, ⟨"hi".toList, "bye".toList⟩,
          ⟨['m'], "(bye) bye".toList⟩] ∧
      ∃ tokens ps, lex "wrap hi hi".toList = .ok tokens ∧ Pieces e .enabled [] tokens ps ∧
        ps.flatMap Piece.output = "(bye) bye".toList ∧
        (e.expand ⟨"wrap hi hi".toList, ['m'], .enabled⟩).2.retained
          = e.retained ++ ps.flatMap (Piece.added e .enabled) ++ [⟨['m'], "(bye) bye".toList⟩] := by
  obtain ⟨e, hexpanders, hretain, hok, hunits⟩ : ∃ e : Engine, e.expanders = Expander.standard ∧
      e.retainIntermediate = true ∧
      (e.expand ⟨"wrap hi hi".toList, ['m'], .enabled⟩).1 = .ok "(bye) bye".toList ∧
      (e.expand ⟨"wrap hi hi".toList, ['m'], .enabled⟩).2.retained
        = [⟨"wrap".toList, "(bye)".toList⟩, ⟨"hi".toList, "bye".toList⟩,
          ⟨['m'], "(bye) bye".toList⟩] := by
    refine ⟨{ new 8 true with macros := [
      ⟨"wrap".toList, ⟨.chain [.lexeme "wrap".toList,
        .labelled (.ofText ['x']) (.token .identifier)], by decide⟩,
        ⟨[.text ['('], .capture ['x'] ["trim".toList], .text [')']]⟩⟩,
      ⟨"hi".toList, ⟨.lexeme "hi".toList, by decide⟩, ⟨[.text "bye".toList]⟩⟩] }, rfl, rfl, ?_⟩
    decide +kernel
  have hstandard := standard_of_expanders_eq hexpanders
  exact ⟨e, hstandard, hretain, hok, hunits,
    (expand_keeps_in_order e hstandard "wrap hi hi".toList ['m']).1 _ hretain hok⟩

end Engine

end SourceMacros

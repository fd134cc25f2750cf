import SourceMacros.Proofs.Engine.InPlace
import SourceMacros.Proofs.Engine.SideBySide

/-!
# Bookkeeping stays out of the output

Next to what it expands with, an engine carries what it only writes down: the units it has kept,
whether it keeps more of them, and the passes for later. A request carries its context and its mode
through every nested expansion for the same purpose. None of this shows in a result
(`expand_ignores_bookkeeping`).

The context is looked at in one place only, where the levels have run out. There it names the macro
or the expander whose request is refused, not the outermost request. So two requests may start with
different contexts if a level is left for them, and below them the contexts agree.
-/

namespace SourceMacros

open TokenStream

/-- The two outcomes have one result, whatever was kept on the way. -/
def Expanded.SameResult (α : Type) (x y : Expanded α) : Prop :=
  x.result = y.result

/-- Work that goes on from equal results has equal results. -/
theorem Expanded.sameResult_lasting : Lasting SameResult where
  pure _ := rfl
  bind {α β x y f g} hxy hfg := by
    have hresult : x.result = y.result := hxy
    unfold SameResult bind
    rw [← hresult]
    cases hx : x.result with
    | error err => rfl
    | ok a => exact hfg a hx

namespace Engine

open Expanded

variable {e e' : Engine}

section SameTools

variable (hmacros : e.macros = e'.macros) (hexpanders : e.expanders = e'.expanders)

include hmacros hexpanders

/-- A request with a level left is answered without a look at its context, if the requests below it
are answered without a look at the mode. -/
theorem expandWithin_succ_sameResult {levels : Nat}
    (hbelow : ∀ source context gc gc', SameResult Text
      (e.expandWithin levels ⟨source, context, gc⟩) (e'.expandWithin levels ⟨source, context, gc'⟩))
    (source context context' : Text) (gc gc' : GcMode) :
    SameResult Text (e.expandWithin (levels + 1) ⟨source, context, gc⟩)
      (e'.expandWithin (levels + 1) ⟨source, context', gc'⟩) := by
  have hparallel : e.Parallel SameResult (e.expandWithin levels) (e'.expandWithin levels) :=
    e.parallel_of_refl sameResult_lasting (fun _ => rfl)
      fun r => hbelow r.source r.context r.gc r.gc
  simp only [expandWithin, ← expandStream_congr hmacros hexpanders]
  refine hparallel.source gc gc' (fun source context => hbelow source context gc gc') source rfl ?_
  -- A unit may be kept behind the walk. The result is the output of the walk in any case.
  intro output
  unfold SameResult
  split <;> split <;> rfl

/-- Within the same number of levels, neither the context nor the mode of a request shows in its
result, and of the engine only what it does with requests. -/
theorem expandWithin_sameResult (hlimit : e.maxDepth = e'.maxDepth) (levels : Nat)
    (source context : Text) (gc gc' : GcMode) :
    SameResult Text (e.expandWithin levels ⟨source, context, gc⟩)
      (e'.expandWithin levels ⟨source, context, gc'⟩) := by
  induction levels generalizing source context gc gc' with
  | zero =>
    unfold SameResult expandWithin
    rw [hlimit]
  | succ levels ih =>
    exact expandWithin_succ_sameResult hmacros hexpanders ih source context context gc gc'

end SameTools

/-- Two engines with the same macros and expanders, as deep in their work and with the same limit,
give the same result for a source, if they have a level left: the same output or the same failure.
The units they have kept, whether they keep more, and their compiler passes may differ, and so may
the contexts and the modes of the two requests. Step by step in place it is the same. -/
theorem expand_ignores_bookkeeping (hmacros : e.macros = e'.macros)
    (hexpanders : e.expanders = e'.expanders) (hdepth : e.depth = e'.depth)
    (hlimit : e.maxDepth = e'.maxDepth) (hlevel : e.depth < e.maxDepth)
    (source context context' : Text) (gc gc' : GcMode) :
    (e.expand ⟨source, context, gc⟩).1 = (e'.expand ⟨source, context', gc'⟩).1 ∧
    ∀ rounds, e.maxDepth - e.depth < rounds →
      (InPlace.expand rounds ⟨source, context, gc⟩ e).1
        = (InPlace.expand rounds ⟨source, context', gc'⟩ e').1 := by
  have hresult : (e.expand ⟨source, context, gc⟩).1 = (e'.expand ⟨source, context', gc'⟩).1 := by
    obtain ⟨levels, hlevels⟩ : ∃ levels, e.maxDepth - e.depth = levels + 1 :=
      ⟨e.maxDepth - e.depth - 1, by omega⟩
    have hlevels' : e'.maxDepth - e'.depth = levels + 1 := by rw [← hlimit, ← hdepth, hlevels]
    simp only [expand, retain, answer, hlevels, hlevels']
    exact expandWithin_succ_sameResult hmacros hexpanders
      (expandWithin_sameResult hmacros hexpanders hlimit levels) source context context' gc gc'
  refine ⟨hresult, fun rounds hrounds => ?_⟩
  have hrounds' : e'.maxDepth - e'.depth < rounds := by rwa [← hlimit, ← hdepth]
  rw [InPlace.expand_eq e hrounds, InPlace.expand_eq e' hrounds', hresult]

/-- An engine that keeps units and one with a compiler pass that keeps none. Both expand two macros
one inside the other, and both run into the limit in the second of them, where the failure names the
macro and neither of the two contexts. -/
theorem expand_ignores_bookkeeping_limit :
    ∃ (e e' : Engine) (source : Text), e.macros = e'.macros ∧ e.expanders = e'.expanders ∧
      e.depth = e'.depth ∧ e.maxDepth = e'.maxDepth ∧ e.depth < e.maxDepth ∧
      e.retainIntermediate = true ∧ e'.retainIntermediate = false ∧
      e.retained ≠ e'.retained ∧ e'.compilers ≠ [] ∧
      (e.expand ⟨source, "one".toList, .enabled⟩).1 = .error (.recursionLimit 2 "deep".toList) ∧
      (e.expand ⟨source, "one".toList, .enabled⟩).1
        = (e'.expand ⟨source, "two".toList, .disabled⟩).1 ∧
      (InPlace.expand 3 ⟨source, "one".toList, .enabled⟩ e).1
        = (InPlace.expand 3 ⟨source, "two".toList, .disabled⟩ e').1 := by
  obtain ⟨e, e', source, hmacros, hexpanders, hdepth, hlimit, hlevel, hkeeps, hkeepsNone, hretained,
      hcompilers, hthree, hfailure⟩ : ∃ (e e' : Engine) (source : Text), e.macros = e'.macros ∧
      e.expanders = e'.expanders ∧ e.depth = e'.depth ∧ e.maxDepth = e'.maxDepth ∧
      e.depth < e.maxDepth ∧ e.retainIntermediate = true ∧ e'.retainIntermediate = false ∧
      e.retained ≠ e'.retained ∧ e'.compilers ≠ [] ∧ e.maxDepth - e.depth < 3 ∧
      (e.expand ⟨source, "one".toList, .enabled⟩).1 = .error (.recursionLimit 2 "deep".toList) := by
    refine ⟨{ new 2 true with
        macros := [⟨"outer".toList, ⟨.lexeme "outer".toList, by decide⟩, ⟨[.text "deep".toList]⟩⟩,
          ⟨"deep".toList, ⟨.lexeme "deep".toList, by decide⟩, ⟨[.text "x".toList]⟩⟩]
        retained := [⟨"old".toList, "unit".toList⟩] },
      { new 2 false with
        macros := [⟨"outer".toList, ⟨.lexeme "outer".toList, by decide⟩, ⟨[.text "deep".toList]⟩⟩,
          ⟨"deep".toList, ⟨.lexeme "deep".toList, by decide⟩, ⟨[.text "x".toList]⟩⟩]
        compilers := [("pass".toList, fun code => .ok code)] },
      "outer".toList, rfl, rfl, rfl, rfl, by decide, rfl, rfl, by decide, by simp, by decide, ?_⟩
    decide +kernel
  have hsame := expand_ignores_bookkeeping hmacros hexpanders hdepth hlimit hlevel source
    "one".toList "two".toList .enabled .disabled
  exact ⟨e, e', source, hmacros, hexpanders, hdepth, hlimit, hlevel, hkeeps, hkeepsNone, hretained,
    hcompilers, hfailure, hsame.1, hsame.2 3 hthree⟩

end Engine

end SourceMacros

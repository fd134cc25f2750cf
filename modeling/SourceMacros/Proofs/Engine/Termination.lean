import SourceMacros.Proofs.ClassMember.Kinds
import SourceMacros.Proofs.Engine.InPlace
import SourceMacros.Proofs.Engine.SideBySide

/-!
# Expansion comes to an end

The outcome `endless` stands for a loop that never ends. It comes from a separated list that stands
still, and goes through everything above it, up to the request for an expansion. Where no list in
the patterns can stand still, nothing else can go on forever: a walk uses up a token in every step,
and a request for a nested expansion uses up a level. So a macro that writes itself runs into the
limit.

Expanders are not part of the engine. What is asked of them is that they come to an end themselves,
and every standard expander does.
-/

namespace SourceMacros

open TokenStream

/-- The first side does not fail in this way. -/
def Expanded.Avoids (err : ExpandError) (α : Type) (x _y : Expanded α) : Prop :=
  x.result ≠ .error err

theorem Expanded.avoids_lasting (err : ExpandError) : Lasting (Avoids err) where
  pure _ := by simp [Avoids, Expanded.pure]
  bind {α β x y f g} hx hf := by
    unfold Avoids bind
    cases hresult : x.result with
    | error why =>
      intro hwhy
      cases hwhy
      exact hx hresult
    | ok a => exact hf a hresult

theorem TokenStream.expandable_ne_endless (source : Text) :
    (expandable source).result ≠ .error .endless := by
  unfold expandable
  cases ofSource source with
  | error why => exact nofun
  | ok s => exact nofun

namespace Engine

open Expanded

/-- No list in a pattern can stand still. -/
def PatternsMove (e : Engine) : Prop :=
  ∀ m ∈ e.macros, m.pattern.rule.ListsMove

/-- Every expander comes to an end, whatever it is given. -/
def ExpandersEnd (e : Engine) : Prop :=
  ∀ name x s, e.expander? name = some x → x s ≠ .reject .endless

theorem Standard.expandersEnd {e : Engine} (h : e.Standard) : e.ExpandersEnd := by
  intro name x s hx
  obtain ⟨source, hplan⟩ := (h name x hx).eq_reexpand s
  rw [hplan]
  exact nofun

variable {e : Engine}

/-- If all answers come to an end, so does rendering, as no pattern and no expander runs forever. -/
theorem parallel_avoids_endless (hpatterns : e.PatternsMove) (hexpanders : e.ExpandersEnd)
    {answer : Request → Expanded Text} (hanswer : ∀ r, (answer r).result ≠ .error .endless) :
    e.Parallel (Avoids .endless) answer answer where
  toLasting := avoids_lasting .endless
  plan {name x} s hx := by
    cases hplan : x s with
    | keep t => exact nofun
    | expand r =>
      exact (avoids_lasting .endless).bind (hanswer r) fun source _ => expandable_ne_endless source
    | reject err =>
      intro herr
      cases herr
      exact hexpanders name x s hx hplan
  unknown _ _ _ := nofun
  endless {m s} hm hs hparse := by
    -- The patterns do not get there.
    rcases Rule.returns_of_listsMove (hpatterns m hm) hs.inRange with ⟨c, t, hmatch⟩ | ⟨why, hmiss⟩
    · exact absurd (hparse.symm.trans hmatch) nofun
    · exact absurd (hparse.symm.trans hmiss) nofun

/-- The induction is on the levels of nesting that are left. -/
theorem expandWithin_avoids_endless (hpatterns : e.PatternsMove) (hexpanders : e.ExpandersEnd)
    (levels : Nat) (r : Request) :
    Avoids .endless Text (e.expandWithin levels r) (e.expandWithin levels r) := by
  induction levels generalizing r with
  | zero => exact nofun
  | succ levels ih =>
    have hparallel := parallel_avoids_endless hpatterns hexpanders ih
    refine hparallel.source r.gc r.gc (fun source context => ih _) r.source
      (expandable_ne_endless r.source) fun output => ?_
    unfold Avoids
    split <;> exact nofun

/-- A rule whose lists move returns on every stream, and the rules for class members are such rules
in every scope. An engine with such patterns answers every request, at any depth and under any
limit, and in place it does so in as many rounds as there are levels. Without the condition it is
different: a list whose item and separator match without moving the cursor goes on forever, whatever
number of rounds it is given, where a repetition of the same item stops. -/
theorem parsing_and_expansion_return :
    (∀ (rule : Rule) (s : TokenStream), rule.ListsMove → s.InRange →
      (∃ c t, rule.parse s = .matched c t) ∨ ∃ why, rule.parse s = .mismatched why s) ∧
    (∀ (kind : ClassMember.Kind) (scope : Option Label), (kind.rule scope).ListsMove) ∧
    (∀ (e : Engine) (r : Request), e.PatternsMove → e.ExpandersEnd →
      (e.expand r).1 ≠ .error .endless ∧
      ∀ rounds, e.maxDepth - e.depth < rounds →
        (InPlace.expand rounds r e).1 ≠ .error .endless) ∧
    (∀ (item separator : Rule) (s t u : TokenStream) (c d : Capture), s.InRange →
      item.parse s = .matched c t → t.cursor = s.cursor →
      separator.parse s = .matched d u → u.cursor = s.cursor →
      (∀ fuel, Rule.parseSeparated item.parse separator.parse fuel s = .endless) ∧
      (Rule.separated item separator).parse s = .endless ∧
      (Rule.many item).parse s = .matched (.list [] []) s) := by
  refine ⟨?_, ClassMember.Kind.listsMove, ?_, ?_⟩
  · intro rule s hmove hs
    exact Rule.returns_of_listsMove hmove hs
  · intro e r hpatterns hexpanders
    have hends : (e.expand r).1 ≠ .error .endless :=
      expandWithin_avoids_endless hpatterns hexpanders _ r
    refine ⟨hends, fun rounds hrounds => ?_⟩
    rw [InPlace.expand_eq e hrounds]
    exact hends
  · intro item separator s t u c d hs hitem htstill hseparator hustill
    obtain rfl := Rule.eq_of_matched_still hs hitem htstill
    obtain rfl := Rule.eq_of_matched_still hs hseparator hustill
    obtain ⟨hrounds, hendless⟩ := Rule.separated_of_still hitem hseparator
    exact ⟨hrounds, hendless, Rule.many_of_still hitem⟩

/-- A macro for a list of names that writes itself runs into the limit. A list of nothing but
optional parts goes on forever where none of them is found. -/
theorem parsing_and_expansion_return_again :
    (∃ (e : Engine) (r : Request), e.PatternsMove ∧ e.ExpandersEnd ∧
      (e.expand r).1 = .error (.recursionLimit 4 "again".toList) ∧
      (InPlace.expand 5 r e).1 ≠ .error .endless) ∧
    ∃ (item separator : Rule) (s : TokenStream), s.InRange ∧
      ¬ (Rule.separated item separator).ListsMove ∧
      (Rule.separated item separator).parse s = .endless ∧
      (Rule.many item).parse s = .matched (.list [] []) s := by
  obtain ⟨-, -, hexpand, hstill⟩ := parsing_and_expansion_return
  refine ⟨?_, ?_⟩
  · obtain ⟨e, r, hrounds, hpatterns, hexpanders, hlimit⟩ : ∃ (e : Engine) (r : Request),
        e.maxDepth - e.depth < 5 ∧ e.PatternsMove ∧ e.expanders = Expander.standard ∧
        (e.expand r).1 = .error (.recursionLimit 4 "again".toList) := by
      refine ⟨{ new 4 true with
          macros := [⟨"again".toList, ⟨.chain [.lexeme "again".toList,
            .optional (.separated (.token .identifier) (.lexeme ",".toList))], by decide⟩,
            ⟨[.text "again".toList]⟩⟩] },
        ⟨"again a, b".toList, [], .enabled⟩, by decide, ?_, rfl, ?_⟩
      · unfold PatternsMove
        decide
      · decide +kernel
    have hends := (standard_of_expanders_eq hexpanders).expandersEnd
    exact ⟨e, r, hpatterns, hends, hlimit, (hexpand e r hpatterns hends).2 5 hrounds⟩
  · have hlist := hstill (.optional (.lexeme ",".toList)) (.optional (.lexeme ";".toList))
      (.ofTokens []) _ _ _ _ (Nat.le_refl _) rfl rfl rfl rfl
    exact ⟨_, _, _, Nat.le_refl _, by decide, hlist.2.1, hlist.2.2⟩

end Engine

end SourceMacros

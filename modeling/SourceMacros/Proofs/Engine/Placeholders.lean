import SourceMacros.Proofs.Engine.Operations
import SourceMacros.Proofs.Rule.Recording

/-!
# Placeholders without a capture

An engine takes a macro only if its pattern has a label for every placeholder of its template. This
is a check of the form. Whether a match of the pattern then has a capture for the placeholder
depends on which labelled parts are recorded, and a placeholder without a capture stays empty. So a
part can match some tokens, and the placeholder with the name of its label can stay empty all the
same: the part stands in a separator, or in a list that a chain drops (`labelled_parts_are_lost`).
Any other labelled part that matches a token is found (`labelled_parts_are_found`).
-/

namespace SourceMacros

open TokenStream Rule

/-- The grammar matches at the cursor, with a part of this label that matches a token, and still the
name of the label is not found in the capture. -/
def Grammar.Loses (g : Grammar) (s : TokenStream) (label : Label) : Prop :=
  ∃ (t : TokenStream) (c : Capture), g.parse s = .matched c t ∧ c.find? label.name = none ∧
    ∃ (q : Rule) (path : List Step) (a b : TokenStream) (d : Capture),
      TakesPart (labelled label q) a path g.rule s ∧ (labelled label q).parse a = .matched d b ∧
      a.cursor < b.cursor

namespace Engine

/-- A labelled part that matches a token is found by its name in the capture of the match, unless it
stands in a separator or in a list that a chain drops. And a placeholder of a macro that an engine
takes has the name of a label of the pattern; for a match, it is without a capture exactly if no
part with a label of this name is recorded. -/
theorem labelled_parts_are_found {g : Grammar} {s t : TokenStream} {c : Capture} (hs : s.InRange)
    (hmatch : g.parse s = .matched c t) :
    (∀ (label : Label) (q : Rule) (path : List Step) (a b : TokenStream) (d : Capture),
      TakesPart (labelled label q) a path g.rule s → (labelled label q).parse a = .matched d b →
      a.cursor < b.cursor → isDropped path = false → (c.find? label.name).isSome) ∧
    ∀ (e e' : Engine) (m : Macro), m.pattern = g → e.addMacro m = .ok e' →
      ∀ name ∈ m.template.labels, (∃ label ∈ g.labels, label.name = name) ∧
        (c.find? name = none ↔ ¬ ∃ path, RecordedPart name g.rule s path) := by
  refine ⟨?_, ?_⟩
  · intro label q path a b d hpart hq hmoves hkept
    have hidle := hpart.idle_not_mem hs hmatch hq hmoves
    exact (hpart.find?_isSome hs hmatch hidle hkept).1
  · rintro e e' m rfl hadd name hname
    obtain ⟨-, hlabels, -⟩ := addMacro_eq_ok_iff.1 hadd
    refine ⟨hlabels name hname, ?_⟩
    rw [← find?_isSome_iff hs hmatch, Bool.not_eq_true, Option.isSome_eq_false_iff,
      Option.isNone_iff_eq_none]

/-- The tokens of `a,b`. -/
def pairTokens : List Token :=
  [.synthetic .identifier ['a'], .synthetic .punctuation [','], .synthetic .identifier ['b']]

/-- The tokens of `go a`. -/
def goTokens : List Token :=
  [.synthetic .identifier ['g', 'o'], .synthetic .whitespace [' '], .synthetic .identifier ['a']]

/-- A name, with the label `x`. -/
def nameRule : Rule :=
  .labelled (.ofText ['x']) (.token .identifier)

/-- A comma, with the label `x`. -/
def commaRule : Rule :=
  .labelled (.ofText ['x']) (.lexeme [','])

/-- A list of names that has a label of its own, and perhaps a number. -/
def labelledList : Grammar :=
  ⟨.chain [.labelled (.ofText ['l']) (.separated nameRule (.lexeme [','])),
    .optional (.labelled (.ofText ['y']) (.token .number))], by decide⟩

/-- The names in a list are found if the list has a label. A number that may stand behind it, and
does not, leaves its placeholder without a capture. -/
theorem labelled_parts_are_found_names :
    ∃ (s t : TokenStream) (c : Capture) (e e' : Engine) (m : Macro),
      s.text = "a,b".toList ∧ s.InRange ∧ m.pattern.parse s = .matched c t ∧ e.addMacro m = .ok e' ∧
      m.template.labels = [['x'], ['y']] ∧ (c.find? ['x']).isSome ∧ c.find? ['y'] = none ∧
      ¬ ∃ path, RecordedPart ['y'] m.pattern.rule s path := by
  have hs : InRange ⟨pairTokens, 0⟩ := Nat.zero_le _
  obtain ⟨c, hmatch, hnumber⟩ :
      ∃ c, labelledList.parse ⟨pairTokens, 0⟩ = .matched c ⟨pairTokens, 3⟩ ∧
        c.find? ['y'] = none := by
    refine ⟨.tree pairTokens [(.ofText ['l'], .list pairTokens
      [.labelled (.ofText ['x']) (.leaf [.synthetic .identifier ['a']]),
        .labelled (.ofText ['x']) (.leaf [.synthetic .identifier ['b']])])], rfl, rfl⟩
  have hpart : TakesPart nameRule ⟨pairTokens, 2⟩ [.part, .content, .item] labelledList.rule
      ⟨pairTokens, 0⟩ :=
    .inside (@Enters.part [] _ _ _ _ _ rfl)
      (.inside .content (.inside (.item (Turns.refl.snoc rfl rfl) rfl) .self))
  obtain ⟨hfound, hplaceholders⟩ := labelled_parts_are_found hs hmatch
  have hx := hfound (.ofText ['x']) _ _ _ ⟨pairTokens, 3⟩ _ hpart rfl (by decide) rfl
  obtain ⟨m, e', hm, hlabels, hadd⟩ : ∃ (m : Macro) (e' : Engine), m.pattern = labelledList ∧
      m.template.labels = [['x'], ['y']] ∧ (new 4 true).addMacro m = .ok e' :=
    ⟨⟨['m'], labelledList, ⟨[.capture ['x'] [], .capture ['y'] []]⟩⟩, _, rfl, rfl, rfl⟩
  have hnone := (hplaceholders _ _ m hm hadd ['y'] (by simp [hlabels])).2.1 hnumber
  rw [← hm] at hmatch hnone
  exact ⟨_, _, c, _, _, m, rfl, hs, hmatch, hadd, hlabels, hx, hnumber, hnone⟩

/-- Two parts with the label `x` that match a token and are not found. The first stands in a
repetition that is a part of a chain, and the second is a separator. An engine takes a macro for
each of them, and its placeholder stays empty. -/
theorem labelled_parts_are_lost :
    ∃ (g h : Grammar) (s u : TokenStream) (e e₁ e₂ : Engine) (template : Template),
      g.rule = .chain [.lexeme ['g', 'o'], .many nameRule] ∧
      s.text = "go a".toList ∧ g.Loses s (.ofText ['x']) ∧
      h.rule = .separated (.token .identifier) commaRule ∧
      u.text = "a,b".toList ∧ h.Loses u (.ofText ['x']) ∧
      Template.ofSource "<$(x)>".toList = .ok template ∧
      e.addMacro ⟨['m'], g, template⟩ = .ok e₁ ∧
      (e₁.expand ⟨"go a".toList, [], .enabled⟩).1 = .ok "<>".toList ∧
      e.addMacro ⟨['m'], h, template⟩ = .ok e₂ ∧
      (e₂.expand ⟨"a,b".toList, [], .enabled⟩).1 = .ok "<>".toList := by
  refine ⟨⟨_, ?_⟩, ⟨_, ?_⟩, ⟨goTokens, 0⟩, ⟨pairTokens, 0⟩, new 4 true, _, _,
    ⟨[.text ['<'], .capture ['x'] [], .text ['>']]⟩, rfl, rfl, ?_, rfl, rfl, ?_, ?_, rfl, ?_, rfl,
    ?_⟩
  · decide
  · decide
  · have hpart : TakesPart nameRule ⟨goTokens, 2⟩ [.part, .item]
        (.chain [.lexeme ['g', 'o'], .many nameRule]) ⟨goTokens, 0⟩ :=
      .inside (@Enters.part [_] [] _ _ _ _ rfl)
        (.inside (@Enters.round _ _ _ ⟨goTokens, 3⟩ _ .refl rfl (by decide)) .self)
    exact ⟨⟨goTokens, 3⟩, .tree goTokens [], rfl, rfl, _, _, _, ⟨goTokens, 3⟩, _, hpart, rfl,
      by decide⟩
  · have hpart : TakesPart commaRule ⟨pairTokens, 1⟩ [.separator]
        (.separated (.token .identifier) commaRule) ⟨pairTokens, 0⟩ :=
      .inside (.separator .refl rfl rfl rfl) .self
    refine ⟨⟨pairTokens, 3⟩, .list pairTokens [.leaf [.synthetic .identifier ['a']],
      .leaf [.synthetic .identifier ['b']]], rfl, rfl, _, _, _, ⟨pairTokens, 2⟩, _, hpart, rfl, ?_⟩
    decide
  · decide +kernel
  · decide +kernel
  · decide +kernel

end Engine

end SourceMacros

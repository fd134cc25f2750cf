import SourceMacros.Proofs.Engine.Operations
import SourceMacros.Proofs.Rule.Labels
import SourceMacros.Proofs.Rule.Recording

/-!
# Macros that an engine refuses for a placeholder

An engine refuses a macro if a placeholder of its template has the name of no label of its pattern.
Only the form of the pattern is looked at, and no stream. Still nothing is refused that could ever
be filled in: the list of labels holds whatever can stand in a capture of the pattern, at any depth,
so a name that is missing there is found in no capture (`refused_labels_are_never_captured`).
-/

namespace SourceMacros

open TokenStream Rule

/-- The label that a macro is refused for is named in its template and nowhere in its pattern. -/
theorem Macro.unknownLabel?_eq_some {m : Macro} {label : Text} (h : m.unknownLabel? = some label) :
    label ∈ m.template.labels ∧ ∀ l ∈ m.pattern.labels, l.name ≠ label := by
  refine ⟨List.mem_of_find?_eq_some h, ?_⟩
  have hunknown := List.find?_some h
  simpa [Macro.captureNames] using hunknown

namespace Engine

/-- An engine refuses a macro for a label only after it found that no other macro has its name. -/
theorem addMacro_eq_unknownCapture_iff {e : Engine} {m : Macro} {owner label : Text} :
    e.addMacro m = .error (.unknownCapture owner label) ↔
      m.name ∉ e.macros.map Macro.name ∧ m.unknownLabel? = some label ∧ owner = m.name := by
  have hnew : e.macros.any (·.name == m.name) = false ↔ m.name ∉ e.macros.map Macro.name := by
    simp
  rw [← hnew]
  unfold addMacro
  cases e.macros.any (·.name == m.name) with
  | true => simp
  | false =>
    cases m.unknownLabel? with
    | some name => simp [and_comm, eq_comm]
    | none => cases e.unknownExpander? m <;> simp

/-- The labels that are listed for a rule are those that stand on a rule inside it, and each is
listed once. Every label in a capture that the rule gives, at whatever depth, is one of them. So if
an engine refuses a macro for an unknown label, this is a placeholder of the template, and it is
found in no capture of the pattern, whatever the stream. -/
theorem refused_labels_are_never_captured (rule : Rule) :
    ((rule.collectLabels []).Nodup ∧ ∀ l, l ∈ rule.collectLabels [] ↔ rule.HasLabel l) ∧
    (∀ (s t : TokenStream) (c : Capture), rule.parse s = .matched c t →
      ∀ d : Capture, d.OccursIn c → ∀ e ∈ d.entries, e.1 ∈ rule.collectLabels []) ∧
    ∀ (e : Engine) (m : Macro) (owner label : Text), m.pattern.rule = rule →
      e.addMacro m = .error (.unknownCapture owner label) →
      m.pattern.labels = rule.collectLabels [] ∧ label ∈ m.template.labels ∧
      ∀ (s t : TokenStream) (c : Capture), m.pattern.parse s = .matched c t →
        c.find? label = none := by
  have hmem : ∀ l, l ∈ rule.collectLabels [] ↔ rule.HasLabel l := by
    intro l
    rw [mem_collectLabels_iff]
    exact or_iff_right List.not_mem_nil
  refine ⟨⟨nodup_collectLabels rule List.nodup_nil, hmem⟩, ?_, ?_⟩
  · intro s t c h d hd e he
    exact (hmem e.1).2 (hasLabel_of_occurs h hd he)
  · rintro e m owner label rfl hrefused
    obtain ⟨-, hlabel, -⟩ := addMacro_eq_unknownCapture_iff.1 hrefused
    obtain ⟨hplaceholder, hunknown⟩ := Macro.unknownLabel?_eq_some hlabel
    refine ⟨rfl, hplaceholder, fun s t c h => ?_⟩
    by_contra hfound
    rw [← ne_eq, Option.ne_none_iff_isSome, c.find?_isSome_iff_occurs] at hfound
    obtain ⟨d, hd, entry, hentry, hname⟩ := hfound
    exact hunknown entry.1 ((hmem _).2 (hasLabel_of_occurs h hd hentry)) hname

/-- Two alternatives whose labels differ and have one name. -/
def namesakes : Grammar :=
  ⟨.either [.labelled ⟨['a'], [['b']]⟩ (.token .identifier),
    .labelled (.ofText ['a', 'B']) (.many (.labelled (.ofText ['x']) (.token .number)))], by decide⟩

/-- Both labels are listed, and so is that of the items, which a match of `1 2` captures. A macro
that asks for something else is refused. -/
theorem refused_labels_are_never_captured_items :
    ∃ (m : Macro) (s t : TokenStream) (c d n : Capture) (x : Label),
      m.pattern.rule = namesakes.rule ∧
      namesakes.rule.collectLabels [] = [⟨['a'], [['b']]⟩, .ofText ['a', 'B'], x] ∧
      (namesakes.rule.collectLabels []).Nodup ∧ m.pattern.parse s = .matched c t ∧
      d.OccursIn c ∧ (x, n) ∈ d.entries ∧ x ∈ namesakes.rule.collectLabels [] ∧
      m.template.labels = [x.name, ['y']] ∧
      (new 4 true).addMacro m = .error (.unknownCapture m.name ['y']) ∧ c.find? ['y'] = none := by
  obtain ⟨m, hm, hlabels, hrefused⟩ : ∃ m : Macro, m.pattern = namesakes ∧
      m.template.labels = [['x'], ['y']] ∧
      (new 4 true).addMacro m = .error (.unknownCapture m.name ['y']) :=
    ⟨⟨['m'], namesakes, ⟨[.capture ['x'] [], .capture ['y'] []]⟩⟩, rfl, rfl, rfl⟩
  obtain ⟨s, t, c, d, n, hmatch, hd, hn⟩ : ∃ (s t : TokenStream) (c d n : Capture),
      namesakes.parse s = .matched c t ∧ d.OccursIn c ∧ (.ofText ['x'], n) ∈ d.entries := by
    refine ⟨.ofTokens [.synthetic .number ['1'], .synthetic .whitespace [' '],
      .synthetic .number ['2']], _, _, .labelled (.ofText ['x']) (.leaf [.synthetic .number ['1']]),
      _, rfl, ?_, List.mem_singleton.2 rfl⟩
    exact .entry (.item .refl List.mem_cons_self) (List.mem_singleton.2 rfl)
  rw [← hm] at hmatch
  have hrule : m.pattern.rule = namesakes.rule := congrArg Grammar.rule hm
  obtain ⟨⟨hnodup, -⟩, hcaptured, hnever⟩ := refused_labels_are_never_captured namesakes.rule
  obtain ⟨-, -, hnone⟩ := hnever _ m _ _ hrule hrefused
  have hx := hcaptured s t c (hrule ▸ hmatch) d hd _ hn
  exact ⟨m, s, t, c, d, n, .ofText ['x'], hrule, rfl, hnodup, hmatch, hd, hn, hx, hlabels, hrefused,
    hnone s t c hmatch⟩

end Engine

end SourceMacros

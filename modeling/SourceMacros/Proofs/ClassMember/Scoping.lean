import SourceMacros.Proofs.ClassMember.Kinds
import SourceMacros.Proofs.Rule.Labels

/-!
# Labels in a scope

A rule for class members gets a scope for its labels, and gives each rule inside it a scope of its
own below that. So every label should stand below the scope. One does not: a return type names its
type without any scope, and so does a method, through its return type. All other labels of the nine
rules are below the scope (`Kind.hasLabel_below`).

Hence the labels of seven rules are all below the scope, whatever it is. Those of a return type and
of a method are so only if the scope is `type` itself (`Kind.labels_below_scope_iff`).
-/

namespace SourceMacros

open TokenStream

namespace Label

/-- The label is the other one, or stands somewhere below it. -/
def Below (l p : Label) : Prop :=
  p.segments <+: l.segments

instance (l p : Label) : Decidable (l.Below p) :=
  inferInstanceAs (Decidable (p.segments <+: l.segments))

/-- A label of one segment is below no other. -/
theorem ofText_below_iff {name : Text} {p : Label} : (ofText name).Below p ↔ p = ofText name := by
  constructor
  · intro h
    obtain ⟨first, rest⟩ := p
    simpa [Below, ofText, segments, List.cons_prefix_cons] using h
  · rintro rfl
    exact List.prefix_rfl

end Label

namespace ClassMember

open Rule

/-- The label of a type in a return type, which stands in no scope. -/
def bareType : Label :=
  named none "type"

namespace Kind

/-- Does the rule name the type of a return type? -/
def HasReturnType (kind : Kind) : Prop :=
  kind = function ∨ kind = returnType

/-- The labels of a rule are below its scope, but for the type of a return type. -/
theorem hasLabel_below {kind : Kind} {p l : Label} (h : (kind.rule (some p)).HasLabel l) :
    l.Below p ∨ (kind.HasReturnType ∧ l = bareType) := by
  -- The labels of each rule in a row, with `p` left open. Each has `p` in front.
  have hall : ∀ l ∈ (kind.rule (some p)).rulesWithin.filterMap ownLabel?,
      l.Below p ∨ (kind.HasReturnType ∧ l = bareType) := by
    cases kind <;>
      simp only [rule, ClassMember.visibilityModifiers, ClassMember.type, ClassMember.argument,
        ClassMember.arguments, ClassMember.constant, ClassMember.property, ClassMember.function,
        ClassMember.returnType, ClassMember.traitUse, traitResolution, traitReference, word,
        rulesWithin, rulesWithinAll, ownLabel?, List.cons_append, List.nil_append, List.append_nil,
        List.filterMap_cons, List.filterMap_nil, List.forall_mem_cons] <;>
      simp [Label.Below, named, Label.within, Label.segments_child, HasReturnType, bareType]
  exact hall l (hasLabel_iff_mem.1 h)

/-- A rule with a return type holds the label of the type in no scope. -/
theorem hasLabel_bareType {kind : Kind} (h : kind.HasReturnType) (scope : Option Label) :
    (kind.rule scope).HasLabel bareType := by
  have hreturn : ∀ scope, (ClassMember.returnType scope).HasLabel bareType := by
    intro scope
    have hlabels : (ClassMember.returnType scope).rulesWithin.filterMap ownLabel? =
        [named scope "returnType", named scope "returnTypeNullable", named scope "returnTypeName",
          bareType] := rfl
    rw [hasLabel_iff_mem, hlabels]
    simp
  rcases h with rfl | rfl
  · have hoptional : (optional (ClassMember.returnType
        (some (named scope "classFunction")))).HasLabel bareType :=
      (hreturn _).of_child List.mem_cons_self
    refine HasLabel.of_child (hoptional.of_child ?_) List.mem_cons_self
    simp [children]
  · exact hreturn scope

/-- All labels of a rule are below its scope exactly if no return type is part of it, or if the
scope is the label that a return type leaves bare. In a capture of the rule, at any depth, there is
no other label out of scope. -/
theorem labels_below_scope_iff (kind : Kind) (p : Label) :
    ((∀ l ∈ (kind.grammar (some p)).labels, l.Below p) ↔ ¬ kind.HasReturnType ∨ p = bareType) ∧
    ∀ (s t : TokenStream) (c : Capture), (kind.grammar (some p)).parse s = .matched c t →
      ∀ d : Capture, d.OccursIn c → ∀ e ∈ d.entries,
        e.1.Below p ∨ (kind.HasReturnType ∧ e.1 = bareType) := by
  have hmem : ∀ l, l ∈ (kind.grammar (some p)).labels ↔ (kind.rule (some p)).HasLabel l := by
    intro l
    rw [Grammar.labels, mem_collectLabels_iff]
    exact or_iff_right List.not_mem_nil
  refine ⟨⟨fun hall => ?_, fun h l hl => ?_⟩, ?_⟩
  · by_cases hreturn : kind.HasReturnType
    · have hbare := hall bareType ((hmem _).2 (hasLabel_bareType hreturn _))
      exact .inr (Label.ofText_below_iff.1 hbare)
    · exact .inl hreturn
  · rcases hasLabel_below ((hmem l).1 hl) with hbelow | ⟨hreturn, rfl⟩
    · exact hbelow
    · rcases h with hnot | rfl
      · exact absurd hreturn hnot
      · exact Label.ofText_below_iff.2 rfl
  · intro s t c hmatch d hd e he
    obtain ⟨q, hq, hgives⟩ := (gives_of_matched _ hmatch).occurrence_origin hd
    obtain ⟨r, hr, -⟩ := hgives.entry_origin e he
    exact hasLabel_below ⟨r, hr.trans hq⟩

/-- A return type in the scope `p` captures its type under a label that is not below `p`. So the
name `type` finds it, as if a type on its own had been captured. -/
theorem returnType_leaves_type_bare :
    ∃ s c t, TokenStream.ofSource ": int".toList = .ok s ∧
      (returnType.grammar (some (.ofText ['p']))).parse s = .matched c t ∧
      (c.find? "type".toList).map Capture.text = some "int".toList ∧
      bareType ∈ (returnType.grammar (some (.ofText ['p']))).labels ∧
      ¬ bareType.Below (.ofText ['p']) := by
  refine ⟨_, _, _, rfl, rfl, ?_⟩
  decide +kernel

end Kind

end ClassMember

end SourceMacros

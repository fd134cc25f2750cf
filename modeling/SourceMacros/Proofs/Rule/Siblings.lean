import Mathlib.Data.List.Nodup
import SourceMacros.Proofs.Rule.DistinctNames

/-!
# Levels without a name twice

The labels that the rules directly inside a rule contribute stand side by side. A rule is `Apart` if
no two of them have one name, at no level of the rule. This is what the check of a grammar asks for,
and a little more: alternatives that share a name are not let through here, since nothing is
dropped.

The condition is made for proofs that follow the rule. A rule around a single other one adds nothing
to it, and a chain only has to look at its own level.
-/

namespace SourceMacros

namespace Rule

/-- The names of the labels that the rules directly inside a rule contribute, one by one. -/
def siblingNames (rule : Rule) : List Text :=
  (labelsOfAll rule.children).map Label.name

/-- At no level of the rule do two sibling labels have one name. -/
def Apart (rule : Rule) : Prop :=
  ∀ q : Rule, q.Inside rule → q.siblingNames.Nodup

variable {rule : Rule} {rules : List Rule}

/-- The names in a rule are apart if those on its own level are, and those in each rule directly
inside it. -/
theorem apart_iff : rule.Apart ↔ rule.siblingNames.Nodup ∧ ∀ q ∈ rule.children, q.Apart := by
  constructor
  · intro h
    exact ⟨h rule .refl, fun q hq r hr => h r (.child hr hq)⟩
  · rintro ⟨hlevel, hchildren⟩ q hq
    rcases inside_iff.1 hq with rfl | ⟨child, hchild, hinside⟩
    · exact hlevel
    · exact hchildren child hchild q hinside

theorem distinctNames_sublist (ls : List Label) : (distinctNames ls).Sublist ls := by
  induction ls with
  | nil => exact .refl _
  | cons l ls ih => exact (List.filter_sublist.trans ih).cons_cons l

/-- What a rule contributes to its own level is no more than what the rules inside it contribute. -/
theorem nodup_names (h : rule.siblingNames.Nodup) : rule.names.Nodup := by
  cases rule with
  | chain rules => exact h
  | either rules => exact h.sublist ((distinctNames_sublist _).map Label.name)
  | optional rule =>
    rw [siblingNames, children, labelsOfAll, labelsOfAll, List.append_nil] at h
    exact h
  | labelled label rule => exact List.nodup_singleton _
  | any | token | lexeme | many | separated | block | qualifiedName | expression =>
    exact List.nodup_nil

/-- A rule whose levels are apart passes the check of a grammar. -/
theorem Apart.repeatedLabel?_eq_none (h : rule.Apart) : rule.repeatedLabel? = none :=
  (repeatedLabel?_eq_none_iff_inside rule).2 fun q hq => nodup_names (h q hq)

/-! ## The forms of a rule -/

theorem apart_leaf (h : rule.children = []) : rule.Apart := by
  rw [apart_iff, siblingNames, h]
  exact ⟨List.nodup_nil, List.forall_mem_nil _⟩

/-- Around a single rule there is no further level with more than one rule in it. -/
theorem apart_single {child : Rule} (h : rule.children = [child]) : rule.Apart ↔ child.Apart := by
  rw [apart_iff, siblingNames, h, labelsOfAll, labelsOfAll, List.append_nil,
    List.forall_mem_singleton]
  exact and_iff_right_of_imp fun hchild => nodup_names (hchild child .refl)

@[simp]
theorem apart_optional : (optional rule).Apart ↔ rule.Apart :=
  apart_single rfl

@[simp]
theorem apart_many : (many rule).Apart ↔ rule.Apart :=
  apart_single rfl

@[simp]
theorem apart_labelled {label : Label} : (labelled label rule).Apart ↔ rule.Apart :=
  apart_single rfl

/-- In a chain the labels of all parts share a level. -/
theorem apart_chain : (chain rules).Apart ↔
    ((labelsOfAll rules).map Label.name).Nodup ∧ ∀ rule ∈ rules, rule.Apart :=
  apart_iff

theorem apart_either : (either rules).Apart ↔
    ((labelsOfAll rules).map Label.name).Nodup ∧ ∀ rule ∈ rules, rule.Apart :=
  apart_iff

theorem apart_separated {item separator : Rule} : (separated item separator).Apart ↔
    ((labelsOfAll [item, separator]).map Label.name).Nodup ∧ item.Apart ∧ separator.Apart := by
  rw [apart_iff, children, List.forall_mem_cons, List.forall_mem_singleton]
  rfl

@[simp]
theorem apart_token (kind : TokenKind) : (token kind).Apart :=
  apart_leaf rfl

@[simp]
theorem apart_lexeme (text : Text) : (lexeme text).Apart :=
  apart_leaf rfl

@[simp]
theorem apart_qualifiedName : qualifiedName.Apart :=
  apart_leaf rfl

@[simp]
theorem apart_block : block.Apart :=
  apart_leaf rfl

@[simp]
theorem apart_expression : expression.Apart :=
  apart_leaf rfl

end Rule

end SourceMacros

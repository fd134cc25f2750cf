import SourceMacros.Proofs.ClassMember.Siblings
import SourceMacros.Proofs.Rule.Progress

/-!
# The rules for class members, all together

What holds of every rule for class members is said of a `ClassMember.Kind` and a scope. Most of it
does not depend on the scope, so that it can be computed from the form of the nine rules. That each
of them is a grammar, in any scope, does depend on it, and is put together from the levels of each.
-/

namespace SourceMacros

namespace ClassMember

open Rule

/-- The rules for class members, by name. -/
inductive Kind where
  | visibilityModifiers
  | type
  | argument
  | arguments
  | constant
  | property
  | function
  | returnType
  | traitUse
  deriving DecidableEq

namespace Kind

/-- The rule of this name, with its labels in a scope. -/
def rule : Kind → (scope : Option Label) → Rule
  | visibilityModifiers => ClassMember.visibilityModifiers
  | type => ClassMember.type
  | argument => ClassMember.argument
  | arguments => ClassMember.arguments
  | constant => ClassMember.constant
  | property => ClassMember.property
  | function => ClassMember.function
  | returnType => ClassMember.returnType
  | traitUse => ClassMember.traitUse

/-- Their lists, of arguments and of trait names, have a comma between the items. -/
theorem listsMove (kind : Kind) (scope : Option Label) : (kind.rule scope).ListsMove := by
  rw [Rule.listsMove_iff]
  cases kind <;> rfl

/-- No level of the rules has two labels of one name, whatever the scope is called. -/
theorem apart (kind : Kind) (scope : Option Label) : (kind.rule scope).Apart := by
  cases kind with
  | visibilityModifiers => exact visibilityModifiers_apart scope
  | type => exact type_apart scope
  | argument => exact argument_apart scope
  | arguments => exact arguments_apart scope
  | constant => exact constant_apart scope
  | property => exact property_apart scope
  | function => exact function_apart scope
  | returnType => exact returnType_apart scope
  | traitUse => exact traitUse_apart scope

theorem distinct (kind : Kind) (scope : Option Label) : (kind.rule scope).repeatedLabel? = none :=
  (kind.apart scope).repeatedLabel?_eq_none

/-- The rule as a grammar. -/
def grammar (kind : Kind) (scope : Option Label) : Grammar :=
  ⟨kind.rule scope, kind.distinct scope⟩

/-- Every rule for class members passes the check of a grammar, whatever its scope is, empty
segments included. At no level of it do two sibling labels have one name, even if alternatives are
compared with each other, which the check does not ask for. -/
theorem accepted_in_every_scope (kind : Kind) (scope : Option Label) :
    Grammar.ofRule (kind.rule scope) = .ok (kind.grammar scope) ∧
    ∀ q : Rule, q.Inside (kind.rule scope) → q.names.Nodup ∧ q.siblingNames.Nodup := by
  constructor
  · exact Grammar.ofRule_rule (kind.grammar scope)
  · intro q hq
    have hlevel := kind.apart scope q hq
    exact ⟨nodup_names hlevel, hlevel⟩

end Kind

end ClassMember

end SourceMacros

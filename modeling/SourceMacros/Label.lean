import SourceMacros.Text.UpperCase

/-!
# Labels

A label names a part of a match. It is a path of segments: a rule used inside
another one gets its labels as children of the outer label, so that they stay
apart. Templates refer to a label by its name, the segments in camel case.
Different labels can have the same name.
-/

namespace SourceMacros

/-- A path of one or more segments. -/
structure Label where
  first : Text
  rest : List Text
  deriving DecidableEq

namespace Label

/-- A label of one segment. -/
def ofText (name : Text) : Label := ⟨name, []⟩

/-- The label one segment below. -/
def child (l : Label) (name : Text) : Label :=
  ⟨l.first, l.rest ++ [name]⟩

/-- The label `name` below `scope`, or on its own. -/
def within (scope : Option Label) (name : Text) : Label :=
  match scope with
  | some l => l.child name
  | none => ofText name

/-- The segments, outermost first. -/
def segments (l : Label) : List Text :=
  l.first :: l.rest

/-- The segments in one word; all but the first start in upper case. -/
def name (l : Label) : Text :=
  l.first ++ l.rest.flatMap Text.capitalize

/-- Is this the name of the label? -/
def isNamed (l : Label) (name : Text) : Bool :=
  l.name == name

theorem segments_child (l : Label) (name : Text) :
    (l.child name).segments = l.segments ++ [name] := rfl

theorem name_child (l : Label) (name : Text) :
    (l.child name).name = l.name ++ name.capitalize := by
  simp [Label.name, child]

end Label

end SourceMacros

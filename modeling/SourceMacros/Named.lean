import SourceMacros.Text.Basic

/-!
# Named values

Short lists of values with names, in the order in which the names were first
given. Looking up is `List.lookup`.
-/

namespace SourceMacros

/-- Replaces the value of a name, or adds the pair at the end. -/
def setNamed {α : Type} (name : Text) (value : α) :
    List (Text × α) → List (Text × α)
  | [] => [(name, value)]
  | p :: ps =>
    if p.1 = name then (name, value) :: ps else p :: setNamed name value ps

theorem lookup_setNamed_self {α : Type} (name : Text) (value : α)
    (ps : List (Text × α)) :
    (setNamed name value ps).lookup name = some value := by
  induction ps with
  | nil => simp [setNamed]
  | cons p ps ih =>
    obtain ⟨known, old⟩ := p
    by_cases h : known = name
    · simp [setNamed, h]
    · have h' : (name == known) = false := by simpa using Ne.symm h
      simp [setNamed, h, List.lookup_cons, h', ih]

theorem lookup_setNamed_of_ne {α : Type} {name other : Text} (value : α)
    (ps : List (Text × α)) (h : other ≠ name) :
    (setNamed name value ps).lookup other = ps.lookup other := by
  have h' : (other == name) = false := by simpa using h
  induction ps with
  | nil => simp [setNamed, List.lookup_cons, h']
  | cons p ps ih =>
    obtain ⟨known, old⟩ := p
    by_cases hk : known = name
    · simp [setNamed, hk, List.lookup_cons, h']
    · simp [setNamed, hk, List.lookup_cons, ih]

/-- The list of names grows only by a new name. -/
theorem map_fst_setNamed {α : Type} (name : Text) (value : α)
    (ps : List (Text × α)) :
    (setNamed name value ps).map Prod.fst
      = if name ∈ ps.map Prod.fst then ps.map Prod.fst
        else ps.map Prod.fst ++ [name] := by
  induction ps with
  | nil => rfl
  | cons p ps ih =>
    by_cases h : p.1 = name
    · simp [setNamed, h]
    · have h' : name ≠ p.1 := Ne.symm h
      simp only [setNamed, h, if_false, List.map_cons, ih, List.mem_cons, h',
        false_or]
      split
      · rfl
      · rfl

end SourceMacros

import SourceMacros.Token

/-!
# Tokens without trivia and positions

What a rule can see of a token sequence: the significant tokens, each with its kind and its lexeme,
but not where it stands (`Token.bare`). Two sequences that are equal in this sense differ in white
space, comments and positions only.
-/

namespace SourceMacros

namespace Token

/-- The token without its position. -/
def unplaced (t : Token) : Token :=
  .synthetic t.kind t.lexeme

/-- Without their positions, tokens differ in kind or lexeme only. -/
theorem unplaced_eq_iff {t u : Token} :
    t.unplaced = u.unplaced ↔ t.kind = u.kind ∧ t.lexeme = u.lexeme := by
  simp only [unplaced, synthetic, mk.injEq, and_true]

/-- The significant tokens without their positions. -/
def bare (ts : List Token) : List Token :=
  (ts.filter isSignificant).map unplaced

theorem bare_append (ts us : List Token) : bare (ts ++ us) = bare ts ++ bare us := by
  simp only [bare, List.filter_append, List.map_append]

theorem bare_of_trivia {ts : List Token} (h : ∀ x ∈ ts, x.isTrivia = true) : bare ts = [] := by
  have hnone : ∀ x ∈ ts, ¬ x.isSignificant = true := by
    intro x hx
    simp [isSignificant, h x hx]
  rw [bare, List.filter_eq_nil_iff.2 hnone, List.map_nil]

theorem bare_cons (t : Token) (ts : List Token) : bare (t :: ts) = bare [t] ++ bare ts :=
  bare_append [t] ts

theorem bare_singleton_of_trivia {t : Token} (h : t.isTrivia = true) : bare [t] = [] :=
  bare_of_trivia (List.forall_mem_singleton.2 h)

theorem bare_singleton_of_significant {t : Token} (h : t.isSignificant = true) :
    bare [t] = [t.unplaced] := by
  rw [bare, List.filter_cons_of_pos h, List.filter_nil, List.map_singleton]

/-- A test that does not look at positions gives the same answer without them. -/
theorem any_map_unplaced {p : Token → Bool} (hp : ∀ t, p t.unplaced = p t) (o : Option Token) :
    (o.map unplaced).any p = o.any p := by
  cases o with
  | none => rfl
  | some t => exact hp t

end Token

end SourceMacros

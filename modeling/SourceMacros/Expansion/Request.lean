import SourceMacros.Expansion.Error

/-!
# Requests for expansion

A request asks for a source to be expanded. Its context names the macro that the
source comes from, and its mode says whether the finished unit may be kept. The
answer is a text or a failure, and in either case the units that were kept on
the way, in the order in which they were finished.
-/

namespace SourceMacros

/-- Is a finished expansion kept until garbage is collected? -/
inductive GcMode where
  | enabled
  | disabled
  deriving DecidableEq

/-- A source to be expanded. -/
structure Request where
  source : Text
  context : Text
  gc : GcMode
  deriving DecidableEq

/-- A finished expansion: the context of its request and its output. -/
structure Expansion where
  context : Text
  output : Text
  deriving DecidableEq

/-- A result, and the units kept on the way to it. -/
structure Expanded (α : Type) where
  result : Except ExpandError α
  units : List Expansion

namespace Expanded

/-- A value for which nothing was kept. -/
def pure {α : Type} (a : α) : Expanded α := ⟨.ok a, []⟩

/-- A failure. -/
def fail {α : Type} (e : ExpandError) : Expanded α := ⟨.error e, []⟩

/-- A result for which nothing was kept. -/
def ofExcept {α : Type} (r : Except ExpandError α) : Expanded α := ⟨r, []⟩

/-- Goes on with the value. Units kept before a failure stay kept. -/
def bind {α β : Type} (x : Expanded α) (f : α → Expanded β) : Expanded β :=
  match x.result with
  | .error e => ⟨.error e, x.units⟩
  | .ok a => ⟨(f a).result, x.units ++ (f a).units⟩

/-- Changes the value. -/
def map {α β : Type} (f : α → β) (x : Expanded α) : Expanded β :=
  ⟨x.result.map f, x.units⟩

/-- Keeps one more unit behind the others. -/
def keep {α : Type} (unit : Expansion) (x : Expanded α) : Expanded α :=
  ⟨x.result, x.units ++ [unit]⟩

end Expanded

/-- A stream over the tokens of a source, as a step of an expansion. -/
def TokenStream.expandable (source : Text) : Expanded TokenStream :=
  match TokenStream.ofSource source with
  | .error e => .fail (.lex e)
  | .ok s => .pure s

end SourceMacros

import SourceMacros.Grammar
import SourceMacros.Template

/-!
# Macros

A macro replaces what its pattern matches by its template, filled in with the
captures of the match.
-/

namespace SourceMacros

/-- A pattern and what its matches become. -/
structure Macro where
  name : Text
  pattern : Grammar
  template : Template

namespace Macro

/-- A macro from the source of its template. -/
def ofTemplate (name : Text) (pattern : Grammar) (template : Text) :
    Except TemplateError Macro :=
  (Template.ofSource template).map (⟨name, pattern, ·⟩)

/-- The names that the captures of the pattern can have. -/
def captureNames (m : Macro) : List Text :=
  m.pattern.labels.map Label.name

/-- The first placeholder that no capture of the pattern can fill. -/
def unknownLabel? (m : Macro) : Option Text :=
  m.template.labels.find? (!m.captureNames.contains ·)

end Macro

end SourceMacros

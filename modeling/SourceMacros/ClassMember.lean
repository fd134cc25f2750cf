import SourceMacros.Rule.Basic

/-!
# Rules for class members

The members of a class of the host language, from a single argument to a whole
method or trait use. Every rule takes a scope for its labels. A rule used inside
another one gets a scope below the outer one, so that the names of arguments in
a method, say, are never taken for those of an argument on its own.
-/

namespace SourceMacros

namespace ClassMember

open Rule

/-- A label below the scope. -/
def named (scope : Option Label) (name : String) : Label :=
  Label.within scope name.toList

/-- One token with this very lexeme. -/
def word (text : String) : Rule :=
  lexeme text.toList

/-- Visibility keywords and the keyword for static members, in any number and
order. -/
def visibilityModifiers (scope : Option Label) : Rule :=
  labelled (named scope "visibilityModifiers")
    (many (labelled (named scope "visibilityModifier")
      (either [word "public", word "protected", word "private",
        word "static"])))

/-- A qualified name, or one of the two types that are keywords. -/
def type (scope : Option Label) : Rule :=
  labelled (named scope "type")
    (either [qualifiedName, word "array", word "callable"])

/-- One argument: its type and default value are optional. -/
def argument (scope : Option Label) : Rule :=
  labelled (named scope "argument")
    (chain [
      labelled (named scope "argumentNullable") (optional (word "?")),
      optional (type (named scope "argument")),
      labelled (named scope "argumentName") (token .variableName),
      optional (word "="),
      labelled (named scope "argumentNew") (optional (word "new")),
      labelled (named scope "argumentValue") (optional expression)])

/-- One or more arguments with commas between them. -/
def arguments (scope : Option Label) : Rule :=
  labelled (named scope "arguments") (separated (argument scope) (word ","))

/-- A class constant with its value. -/
def constant (scope : Option Label) : Rule :=
  labelled (named scope "classConstant")
    (chain [
      optional (visibilityModifiers (named scope "classConstant")),
      word "const",
      labelled (named scope "classConstantName") (token .identifier),
      word "=",
      labelled (named scope "classConstantValue") expression,
      optional (word ";")])

/-- A class property; its type and value are optional. -/
def property (scope : Option Label) : Rule :=
  labelled (named scope "classProperty")
    (chain [
      visibilityModifiers (named scope "classProperty"),
      optional (type (named scope "classProperty")),
      labelled (named scope "classPropertyName") (token .variableName),
      optional (word "="),
      labelled (named scope "classPropertyValue") (optional expression),
      optional (word ";")])

/-- A return type with its colon. -/
def returnType (scope : Option Label) : Rule :=
  labelled (named scope "returnType")
    (chain [
      word ":",
      labelled (named scope "returnTypeNullable") (optional (word "?")),
      labelled (named scope "returnTypeName") (type none)])

/-- A method. Its body is any balanced block. -/
def function (scope : Option Label) : Rule :=
  let inner := some (named scope "classFunction")
  labelled (named scope "classFunction")
    (chain [
      optional (visibilityModifiers inner),
      word "function",
      labelled (named scope "classFunctionName") qualifiedName,
      word "(",
      optional (arguments inner),
      word ")",
      optional (returnType inner),
      word "\x7b",
      labelled (named scope "classFunctionBody") block,
      word "\x7d"])

/-- A method name with an optional class name, on one side of a trait
resolution. -/
def traitReference (scope : Option Label) (side : String) : Rule :=
  labelled (named scope ("classTraitAlias" ++ side))
    (chain [
      optional (chain [
        labelled (named scope ("classTraitAlias" ++ side ++ "Class"))
          (token .identifier),
        word "::"]),
      labelled (named scope ("classTraitAlias" ++ side ++ "Method"))
        (token .identifier)])

/-- One resolution inside the braces of a trait use. -/
def traitResolution (scope : Option Label) : Rule :=
  labelled (named scope "classTraitAlias")
    (chain [
      traitReference scope "Left",
      either [
        labelled (named scope "classTraitAliasInsteadOf") (word "insteadof"),
        labelled (named scope "classTraitAliasAs")
          (chain [
            word "as",
            optional (visibilityModifiers (named scope "classTraitAlias"))])],
      traitReference scope "Right",
      optional (word ";")])

/-- A use of traits, closed by a semicolon or by resolutions in braces. -/
def traitUse (scope : Option Label) : Rule :=
  labelled (named scope "classTrait")
    (chain [
      word "use",
      labelled (named scope "classTraitNames")
        (separated (labelled (named scope "classTraitName") qualifiedName)
          (word ",")),
      either [
        labelled (named scope "classTraitBody")
          (chain [
            word "\x7b",
            labelled (named scope "classTraitAliases")
              (many (traitResolution scope)),
            word "\x7d"]),
        optional (word ";")]])

end ClassMember

end SourceMacros

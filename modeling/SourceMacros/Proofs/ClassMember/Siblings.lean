import SourceMacros.ClassMember
import SourceMacros.Proofs.Rule.Siblings

/-!
# The levels of the rules for class members

The names of the labels at one level of a rule are all made in the same way: the name of the scope
goes in front, and a word comes after it. Where a rule inside has a scope of its own, the two words
run together, as if they were one: the type of an argument is called `argumentType`.

So each level comes down to a list of words, whatever the scope is (`nodup_named`). Below a scope
the words start in upper case, and on their own they do not; that they differ in upper case is
enough for both. From the inside out, no level of any rule has a name twice.
-/

namespace SourceMacros

open Rule

/-- Only the first character of a text that is not empty decides its capital. -/
theorem Text.capitalize_append {t : Text} (h : t ≠ []) (u : Text) :
    Text.capitalize (t ++ u) = Text.capitalize t ++ u := by
  cases t with
  | nil => exact absurd rfl h
  | cons c t => simp [Text.capitalize]

namespace ClassMember

/-- A label below another one has the name of a label that stands there by itself: the words of both
are glued together. -/
theorem name_glued (scope : Option Label) (outer inner whole : String) (houter : outer.toList ≠ [])
    (hwhole : outer.toList ++ Text.capitalize inner.toList = whole.toList) :
    (named (some (named scope outer)) inner).name = (named scope whole).name := by
  cases scope with
  | none =>
    simp only [named, Label.within, Label.name_child, ← hwhole]
    simp [Label.ofText, Label.name]
  | some p =>
    simp only [named, Label.within, Label.name_child, ← hwhole, Text.capitalize_append houter,
      List.append_assoc]

/-- In any scope, words that differ even in upper case give labels of different names. -/
theorem nodup_named (scope : Option Label) (words : List String)
    (h : (words.map fun word => Text.capitalize word.toList).Nodup) :
    (words.map fun word => (named scope word).name).Nodup := by
  cases scope with
  | none =>
    refine List.Nodup.of_map Text.capitalize ?_
    simpa [named, Label.within, Label.ofText, Label.name, Function.comp_def] using h
  | some p =>
    have hnames := h.map (List.append_right_injective p.name)
    simpa [named, Label.within, Label.name_child, Function.comp_def] using hnames

variable (scope : Option Label)

/-! ## What the rules contribute to the level they stand in -/

@[simp]
theorem labels_word (text : String) : (word text).labels = [] := rfl

@[simp]
theorem labels_visibilityModifiers :
    (visibilityModifiers scope).labels = [named scope "visibilityModifiers"] := rfl

@[simp]
theorem labels_type : (type scope).labels = [named scope "type"] := rfl

@[simp]
theorem labels_argument : (argument scope).labels = [named scope "argument"] := rfl

@[simp]
theorem labels_arguments : (arguments scope).labels = [named scope "arguments"] := rfl

@[simp]
theorem labels_returnType : (returnType scope).labels = [named scope "returnType"] := rfl

@[simp]
theorem labels_traitReference (side : String) :
    (traitReference scope side).labels = [named scope ("classTraitAlias" ++ side)] := rfl

/-! ## The levels inside the rules -/

@[simp]
theorem word_apart (text : String) : (word text).Apart :=
  apart_lexeme _

@[simp]
theorem visibilityModifiers_apart : (visibilityModifiers scope).Apart := by
  simp [visibilityModifiers, apart_either, labelsOfAll]

@[simp]
theorem type_apart : (type scope).Apart := by
  simp [type, apart_either, labelsOfAll, labels]

/-- The labels of an argument share a scope and end differently, and so do those of every other rule
here. -/
@[simp]
theorem argument_apart : (argument scope).Apart := by
  have hnames := nodup_named scope ["argumentNullable", "argumentType", "argumentName",
    "argumentNew", "argumentValue"] (by decide +kernel)
  have htype := name_glued scope "argument" "type" "argumentType" (by decide) (by decide +kernel)
  rw [argument, apart_labelled, apart_chain]
  constructor
  · simpa [labelsOfAll, labels, htype] using hnames
  · simp

@[simp]
theorem arguments_apart : (arguments scope).Apart := by
  simp [arguments, apart_separated, labelsOfAll]

theorem constant_apart : (constant scope).Apart := by
  have hnames := nodup_named scope ["classConstantVisibilityModifiers", "classConstantName",
    "classConstantValue"] (by decide +kernel)
  have hmodifiers := name_glued scope "classConstant" "visibilityModifiers"
    "classConstantVisibilityModifiers" (by decide) (by decide +kernel)
  rw [constant, apart_labelled, apart_chain]
  constructor
  · simpa [labelsOfAll, labels, hmodifiers] using hnames
  · simp

theorem property_apart : (property scope).Apart := by
  have hnames := nodup_named scope ["classPropertyVisibilityModifiers", "classPropertyType",
    "classPropertyName", "classPropertyValue"] (by decide +kernel)
  have hmodifiers := name_glued scope "classProperty" "visibilityModifiers"
    "classPropertyVisibilityModifiers" (by decide) (by decide +kernel)
  have htype := name_glued scope "classProperty" "type" "classPropertyType" (by decide)
    (by decide +kernel)
  rw [property, apart_labelled, apart_chain]
  constructor
  · simpa [labelsOfAll, labels, hmodifiers, htype] using hnames
  · simp

@[simp]
theorem returnType_apart : (returnType scope).Apart := by
  have hnames := nodup_named scope ["returnTypeNullable", "returnTypeName"] (by decide +kernel)
  rw [returnType, apart_labelled, apart_chain]
  constructor
  · simpa [labelsOfAll, labels] using hnames
  · simp

theorem function_apart : (function scope).Apart := by
  have hnames := nodup_named scope ["classFunctionVisibilityModifiers", "classFunctionName",
    "classFunctionArguments", "classFunctionReturnType", "classFunctionBody"] (by decide +kernel)
  have hmodifiers := name_glued scope "classFunction" "visibilityModifiers"
    "classFunctionVisibilityModifiers" (by decide) (by decide +kernel)
  have harguments := name_glued scope "classFunction" "arguments" "classFunctionArguments"
    (by decide) (by decide +kernel)
  have hreturn := name_glued scope "classFunction" "returnType" "classFunctionReturnType"
    (by decide) (by decide +kernel)
  rw [function, apart_labelled, apart_chain]
  constructor
  · simpa [labelsOfAll, labels, hmodifiers, harguments, hreturn] using hnames
  · simp

/-- The two sides of a resolution are told apart by their names. -/
theorem traitReference_apart {side : String} (hside : side = "Left" ∨ side = "Right") :
    (traitReference scope side).Apart := by
  have hnames : ([named scope ("classTraitAlias" ++ side ++ "Class"),
      named scope ("classTraitAlias" ++ side ++ "Method")].map Label.name).Nodup := by
    rcases hside with rfl | rfl
    · exact nodup_named scope ["classTraitAliasLeftClass", "classTraitAliasLeftMethod"]
        (by decide +kernel)
    · exact nodup_named scope ["classTraitAliasRightClass", "classTraitAliasRightMethod"]
        (by decide +kernel)
  rw [traitReference, apart_labelled, apart_chain]
  constructor
  · simpa [labelsOfAll, labels] using hnames
  · simp [apart_chain, labelsOfAll, labels]

@[simp]
theorem traitResolution_apart : (traitResolution scope).Apart := by
  have hnames := nodup_named scope ["classTraitAliasLeft", "classTraitAliasInsteadOf",
    "classTraitAliasAs", "classTraitAliasRight"] (by decide +kernel)
  -- The labels of the two alternatives have different names, so that both stay.
  have hsides : (named scope "classTraitAliasAs").name ≠
      (named scope "classTraitAliasInsteadOf").name := by
    intro heq
    simp [heq] at hnames
  rw [traitResolution, apart_labelled, apart_chain]
  constructor
  · simpa [labelsOfAll, labels, distinctNames, hsides] using hnames
  · simp [apart_either, apart_chain, labelsOfAll, labels, hsides.symm, traitReference_apart]

theorem traitUse_apart : (traitUse scope).Apart := by
  have hnames := nodup_named scope ["classTraitNames", "classTraitBody"] (by decide +kernel)
  rw [traitUse, apart_labelled, apart_chain]
  constructor
  · simpa [labelsOfAll, labels, distinctNames] using hnames
  · simp [apart_chain, apart_either, apart_separated, labelsOfAll, labels]

end ClassMember

end SourceMacros

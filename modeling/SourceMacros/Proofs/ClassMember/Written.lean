import SourceMacros.ClassMember
import SourceMacros.Proofs.Lexing.Kinds
import SourceMacros.Proofs.Rule.Reading

/-!
# Names, types and modifiers, written out

The small parts that class members are put together from. Each is a piece of syntax with its tokens,
and the rule for it reads these tokens up to what may follow.

Words are told apart by their lexemes alone, whatever kind of token has them. So that a name is
never taken for a reserved word or for an operator, the names here are those that the lexer makes
(`Identifier.of_lexes`, `Variable.of_lexes`).
-/

namespace SourceMacros

open Lexer

namespace ClassMember

open Rule

/-! ## Tokens -/

/-- A token of punctuation. -/
def mark (text : String) : Token :=
  .synthetic .punctuation text.toList

/-- A reserved word as a token. -/
def keyword (text : String) : Token :=
  .synthetic .keyword text.toList

/-- Does the text start as a word, and is it not reserved? -/
def isIdentifier (t : Text) : Bool :=
  t.head?.any isWordStart && !isKeyword t

/-- Does the text start with a dollar sign? -/
def isVariable (t : Text) : Bool :=
  t.head? == some '$'

/-- An identifier. -/
structure Identifier where
  lexeme : Text
  valid : isIdentifier lexeme = true

/-- A name after a dollar sign. -/
structure Variable where
  lexeme : Text
  valid : isVariable lexeme = true

/-- The identifier as a token. -/
def Identifier.token (i : Identifier) : Token :=
  .synthetic .identifier i.lexeme

/-- The variable as a token. -/
def Variable.token (v : Variable) : Token :=
  .synthetic .variableName v.lexeme

theorem Identifier.lexeme_ne (i : Identifier) {t : Text} (h : isIdentifier t = false) :
    i.token.lexeme ≠ t := by
  rintro rfl
  exact Bool.false_ne_true (h.symm.trans i.valid)

theorem Variable.lexeme_ne (v : Variable) {t : Text} (h : isVariable t = false) :
    v.token.lexeme ≠ t := by
  rintro rfl
  exact Bool.false_ne_true (h.symm.trans v.valid)

/-- No reserved word is a single letter. -/
theorem isIdentifier_singleton {c : Char} (h : isWordStart c = true) : isIdentifier [c] = true := by
  have hlonger : ∀ reserved ∈ keywords, reserved.length ≠ 1 := by decide
  have hfree : isKeyword [c] = false := by
    rw [isKeyword, List.any_eq_false]
    intro reserved hreserved hsame
    have hlength := congrArg List.length (beq_iff_eq.1 hsame)
    rw [List.length_map, List.length_map] at hlength
    exact hlonger reserved hreserved hlength
  rw [isIdentifier, hfree, List.head?_cons, Option.any_some, h]
  rfl

/-- A letter as an identifier. -/
def Identifier.letter (c : Char) (h : isWordStart c = true) : Identifier :=
  ⟨[c], isIdentifier_singleton h⟩

/-- A reserved word is no other text. -/
theorem ne_of_isKeyword {t u : Text} (ht : isKeyword t = true) (hu : isKeyword u = false) :
    t ≠ u := by
  rintro rfl
  exact Bool.false_ne_true (hu.symm.trans ht)

section Lexed

variable {p : Position} {t : Text} {tokens : List Token} {token : Token}

/-- Every identifier that the lexer makes is one of these. -/
theorem Identifier.of_lexes (h : Lexes standard.rules p t tokens) (hmem : token ∈ tokens)
    (hkind : token.kind = .identifier) : ∃ i : Identifier, i.token = token.unplaced := by
  obtain ⟨r, hr, u, hscan⟩ := h.exists_scan token hmem
  rw [hkind] at hscan
  obtain rfl : r = .word :=
    LexRule.eq_of_mem_kinds hr (by decide) (r.kind_mem_kinds hscan) (by decide)
  obtain ⟨hword, hstart⟩ := LexRule.isWordStart_of_scanWord hscan
  have hfree : isKeyword token.lexeme = false := by
    cases hreserved : isKeyword token.lexeme with
    | false => rfl
    | true =>
      rw [hreserved] at hword
      cases hword
  have hvalid : isIdentifier token.lexeme = true := by
    rw [isIdentifier, hstart, hfree]
    rfl
  exact ⟨⟨token.lexeme, hvalid⟩, by rw [Token.unplaced, hkind]; rfl⟩

/-- Every variable that the lexer makes is one of these. -/
theorem Variable.of_lexes (h : Lexes standard.rules p t tokens) (hmem : token ∈ tokens)
    (hkind : token.kind = .variableName) : ∃ v : Variable, v.token = token.unplaced := by
  obtain ⟨r, hr, u, hscan⟩ := h.exists_scan token hmem
  rw [hkind] at hscan
  obtain rfl : r = .variableName :=
    LexRule.eq_of_mem_kinds hr (by decide) (r.kind_mem_kinds hscan) (by decide)
  have hvalid : isVariable token.lexeme = true :=
    beq_iff_eq.2 (LexRule.eq_cons_of_scanVariable hscan).2
  exact ⟨⟨token.lexeme, hvalid⟩, by rw [Token.unplaced, hkind]; rfl⟩

end Lexed

/-! ## Words -/

theorem reads_word (kind : TokenKind) (text : String) (rest : List Token) :
    (word text).Reads [.synthetic kind text.toList] rest (.leaf [.synthetic kind text.toList]) :=
  reads_lexeme rfl rest

theorem rejects_word {text : String} {ts : List Token} (h : NotNext text.toList ts) :
    (word text).Rejects ts :=
  rejects_lexeme h

/-- An optional word, which may be there or not. -/
theorem reads_optionalWord (kind : TokenKind) (text : String) {present : Bool} {rest : List Token}
    (habsent : present = false → NotNext text.toList rest) :
    (optional (word text)).Reads (optionalToken present (.synthetic kind text.toList)) rest
      (.leaf (optionalToken present (.synthetic kind text.toList))) :=
  reads_optionalToken (reads_word kind text rest) fun h => rejects_word (habsent h)

/-- A choice among words reads the first of them that a token has as its lexeme. -/
theorem reads_oneOf (kind : TokenKind) (before after : List String) (text : String)
    (hbefore : ∀ other ∈ before, text.toList ≠ other.toList) (rest : List Token) :
    (either ((before ++ text :: after).map word)).Reads [.synthetic kind text.toList] rest
      (.leaf [.synthetic kind text.toList]) := by
  rw [List.map_append, List.map_cons]
  refine reads_either _ _ (fun r hr => ?_) (reads_word kind text rest)
  obtain ⟨other, hother, rfl⟩ := List.mem_map.1 hr
  exact rejects_word (notNext_cons (hbefore other hother) rest)

/-! ## Names and types -/

/-- A qualified name. -/
structure QualifiedName where
  /-- Does a backslash stand in front? -/
  leading : Bool
  first : Identifier
  further : List Identifier

/-- The tokens of a qualified name. -/
def QualifiedName.tokens (n : QualifiedName) : List Token :=
  optionalToken n.leading nameSeparator ++
    n.first.token :: n.further.flatMap fun i => [nameSeparator, i.token]

/-- A type of an argument or of a result. -/
inductive TypeName where
  | named (name : QualifiedName)
  | array
  | callable

/-- The tokens of a type. -/
def TypeName.tokens : TypeName → List Token
  | named name => name.tokens
  | array => [keyword "array"]
  | callable => [keyword "callable"]

section Names

variable {rest : List Token}

theorem QualifiedName.reads (n : QualifiedName)
    (hrest : rest.head?.any Token.isNameSeparator = false) :
    qualifiedName.Reads n.tokens rest (.leaf n.tokens) := by
  have hparts : ∀ part ∈ n.further.map Identifier.token, part.isIdentifier = true := by
    intro part hpart
    obtain ⟨i, -, rfl⟩ := List.mem_map.1 hpart
    rfl
  have hfirst : n.first.token.isIdentifier = true := rfl
  have hread := reads_qualifiedName n.leading hfirst hparts hrest
  rwa [List.flatMap_map] at hread

/-- A qualified name starts with a backslash or an identifier. -/
theorem QualifiedName.notNext (n : QualifiedName) {t : Text} (hmark : nameSeparator.lexeme ≠ t)
    (hname : isIdentifier t = false) : NotNext t n.tokens := by
  obtain ⟨leading, first, further⟩ := n
  cases leading with
  | true => exact notNext_cons hmark _
  | false => exact notNext_cons (first.lexeme_ne hname) _

theorem TypeName.notNext (type : TypeName) {t : Text} (hmark : nameSeparator.lexeme ≠ t)
    (hname : isIdentifier t = false) (hfree : isKeyword t = false) : NotNext t type.tokens := by
  cases type with
  | named name => exact name.notNext hmark hname
  | array => exact notNext_cons (ne_of_isKeyword (by decide) hfree) []
  | callable => exact notNext_cons (ne_of_isKeyword (by decide) hfree) []

theorem TypeName.reads (scope : Option Label) (type : TypeName)
    (hrest : rest.head?.any Token.isNameSeparator = false) :
    (ClassMember.type scope).Reads type.tokens rest
      (.labelled (ClassMember.named scope "type") (.leaf type.tokens)) := by
  refine reads_labelled _ ?_
  have hname (text : String) : qualifiedName.Rejects (keyword text :: rest) :=
    rejects_of_ruledOut rfl
  cases type with
  | named name => exact reads_either_head _ (name.reads hrest)
  | array =>
    exact reads_either [qualifiedName] _ (List.forall_mem_singleton.2 (hname _))
      (reads_word .keyword "array" rest)
  | callable =>
    have harray : (word "array").Rejects (keyword "callable" :: rest) :=
      rejects_word (notNext_cons (by decide) rest)
    refine reads_either [qualifiedName, word "array"] _ ?_ (reads_word .keyword "callable" rest)
    exact List.forall_mem_cons.2 ⟨hname _, List.forall_mem_singleton.2 harray⟩

/-- There is no type in front of a token that is no name and no reserved word for one. -/
theorem rejects_type (scope : Option Label) {token : Token} (hkind : token.kind ≠ .identifier)
    (hlexeme : ∀ t ∈ [['\\'], "array".toList, "callable".toList], token.lexeme ≠ t)
    (ts : List Token) : (ClassMember.type scope).Rejects (token :: ts) := by
  simp only [List.forall_mem_cons] at hlexeme
  obtain ⟨hseparator, harray, hcallable, -⟩ := hlexeme
  have hname : qualifiedName.Rejects (token :: ts) := by
    have hmark : token.isNameSeparator = false := Bool.and_eq_false_imp.2 fun _ =>
      beq_false_of_ne hseparator
    have hother : token.isIdentifier = false := beq_false_of_ne hkind
    refine rejects_of_ruledOut ?_
    simp only [quickCheck, List.head?_cons, Option.any_some, hmark, hother, Bool.or_false]
  refine rejects_labelled _ (rejects_either ?_)
  simp only [List.forall_mem_cons]
  exact ⟨hname, rejects_word (notNext_cons harray ts), rejects_word (notNext_cons hcallable ts),
    List.forall_mem_nil _⟩

/-- What an optional type is captured as. If there is none, it has no entry. -/
def optionalType (scope : Option Label) (type : Option TypeName) : Capture :=
  type.elim .empty fun t => .labelled (named scope "type") (.leaf t.tokens)

/-- In front of a variable an optional type is read, if it is there. -/
theorem reads_optionalType (scope : Option Label) (type : Option TypeName) (v : Variable)
    (ts : List Token) :
    (optional (ClassMember.type scope)).Reads (type.elim [] TypeName.tokens) (v.token :: ts)
      (optionalType scope type) := by
  refine reads_optionally (fun t _ => t.reads scope rfl) fun _ => ?_
  have hkind : v.token.kind ≠ .identifier := show TokenKind.variableName ≠ .identifier by decide
  refine rejects_type scope hkind ?_ ts
  simp only [List.forall_mem_cons]
  exact ⟨v.lexeme_ne (by decide), v.lexeme_ne (by decide), v.lexeme_ne (by decide),
    List.forall_mem_nil _⟩

end Names

/-! ## Modifiers -/

/-- A modifier of a member. -/
inductive Modifier where
  | publicMember
  | protectedMember
  | privateMember
  | staticMember

/-- The reserved word for a modifier. -/
def Modifier.text : Modifier → String
  | publicMember => "public"
  | protectedMember => "protected"
  | privateMember => "private"
  | staticMember => "static"

/-- The modifier as a token. -/
def Modifier.token (m : Modifier) : Token :=
  keyword m.text

/-- What a list of modifiers is captured as. -/
def modifierItems (scope : Option Label) (ms : List Modifier) : Capture :=
  .list (ms.map Modifier.token)
    (ms.map fun m => .labelled (named scope "visibilityModifier") (.leaf [m.token]))

/-- Each of the four modifiers is read as a labelled word. -/
theorem Modifier.reads (scope : Option Label) (m : Modifier) (rest : List Token) :
    (labelled (named scope "visibilityModifier")
      (either [word "public", word "protected", word "private", word "static"])).Reads
      [m.token] rest (.labelled (named scope "visibilityModifier") (.leaf [m.token])) := by
  refine reads_labelled _ ?_
  cases m with
  | publicMember =>
    exact reads_oneOf .keyword [] ["protected", "private", "static"] "public" (by decide) rest
  | protectedMember =>
    exact reads_oneOf .keyword ["public"] ["private", "static"] "protected" (by decide) rest
  | privateMember =>
    exact reads_oneOf .keyword ["public", "protected"] ["static"] "private" (by decide) rest
  | staticMember =>
    exact reads_oneOf .keyword ["public", "protected", "private"] [] "static" (by decide) rest

/-- A list of modifiers is read up to a token that is none. -/
theorem reads_modifiers (scope : Option Label) (ms : List Modifier) {rest : List Token}
    (hrest : ∀ m : Modifier, NotNext m.text.toList rest) :
    (visibilityModifiers scope).Reads (ms.map Modifier.token) rest
      (.labelled (named scope "visibilityModifiers") (modifierItems scope ms)) := by
  have hstop : (labelled (named scope "visibilityModifier")
      (either [word "public", word "protected", word "private", word "static"])).Rejects rest := by
    refine rejects_labelled _ (rejects_either ?_)
    simp only [List.forall_mem_cons]
    exact ⟨rejects_word (hrest .publicMember), rejects_word (hrest .protectedMember),
      rejects_word (hrest .privateMember), rejects_word (hrest .staticMember),
      List.forall_mem_nil _⟩
  rw [modifierItems, List.map_eq_flatMap]
  exact reads_labelled _ (reads_many (fun m _ rest (_ : True) => m.reads scope rest)
    (fun m _ => List.cons_ne_nil m.token []) (fun _ _ _ => trivial) trivial hstop)

end ClassMember

end SourceMacros

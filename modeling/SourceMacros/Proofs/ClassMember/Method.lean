import SourceMacros.Proofs.ClassMember.Written

/-!
# Methods, written out

Arguments, return types and methods as they are written, with the captures that their rules take
them under. A rule reads the whole of what is written, and no more: an optional part that is not
there does not match what comes next, and a part that could go on, such as a default value, is
stopped by what stands behind it. From the small parts up to methods
(`Method.parse_function_written`), for lists of any length and values of any nesting.
-/

namespace SourceMacros

open TokenStream

namespace ClassMember

open Rule

/-! ## Arguments -/

/-- A default value of an argument. -/
structure Default where
  /-- Does `new` stand in front of the value? -/
  isNew : Bool
  value : List Token
  ne_nil : value ≠ []
  balanced : Balanced expressionEnds value
  /-- Otherwise the value does not start with `new`. -/
  plain : isNew = false → NotNext "new".toList value

/-- An argument. -/
structure Argument where
  nullable : Bool
  type : Option TypeName
  name : Variable
  default : Option Default

/-- The tokens of a default value, with the equals sign. -/
def Default.tokens (d : Default) : List Token :=
  [mark "="] ++ (optionalToken d.isNew (keyword "new") ++ d.value)

/-- The tokens of an argument. -/
def Argument.tokens (a : Argument) : List Token :=
  optionalToken a.nullable (mark "?") ++ (a.type.elim [] TypeName.tokens ++
    ([a.name.token] ++ a.default.elim [] Default.tokens))

/-- The entries for a default value. They are there without one too, with nothing in them. -/
def defaultEntries (scope : Option Label) (d : Option Default) : Entries :=
  [(named scope "argumentNew", .leaf (optionalToken (d.any Default.isNew) (keyword "new"))),
    (named scope "argumentValue", .leaf (d.elim [] Default.value))]

/-- What an argument is captured as. -/
def Argument.capture (scope : Option Label) (a : Argument) : Capture :=
  .labelled (named scope "argument") (.tree a.tokens
    ([(named scope "argumentNullable", .leaf (optionalToken a.nullable (mark "?")))] ++
      ((optionalType (named scope "argument") a.type).entries ++
      ([(named scope "argumentName", .leaf [a.name.token])] ++ defaultEntries scope a.default))))

/-- Behind an argument comes the next one, or the list is at its end. -/
def EndsArgument (rest : List Token) : Prop :=
  rest.head? = some (mark ",") ∨ rest.head? = some (mark ")")

section Arguments

variable {rest : List Token}

theorem EndsArgument.head_eq (h : EndsArgument rest) {token : Token} (htoken : token ∈ rest.head?) :
    token = mark "," ∨ token = mark ")" := by
  rcases h with h | h
  · exact .inl (Option.some.inj (htoken.symm.trans h))
  · exact .inr (Option.some.inj (htoken.symm.trans h))

theorem EndsArgument.notNext (h : EndsArgument rest) {t : Text} (hcomma : [','] ≠ t)
    (hclose : [')'] ≠ t) : NotNext t rest := by
  intro token htoken
  rcases h.head_eq htoken with rfl | rfl
  · exact hcomma
  · exact hclose

theorem EndsArgument.stops (h : EndsArgument rest) : Stops expressionEnds rest := by
  intro token htoken
  rcases h.head_eq htoken with rfl | rfl
  · exact .inl (by decide)
  · exact .inr ⟨[')'], by decide⟩

/-- The default of an argument is read up to the end of the argument, or it is absent. -/
theorem takes_default (scope : Option Label) (d : Option Default) (hrest : EndsArgument rest) :
    Takes Capture.bareEntries
      (parseChain [optional (word "="),
        labelled (named scope "argumentNew") (optional (word "new")),
        labelled (named scope "argumentValue") (optional expression)])
      (d.elim [] Default.tokens) rest (defaultEntries scope d) := by
  have hequals : NotNext "=".toList rest := hrest.notNext (by decide) (by decide)
  have hnone : NotNext "new".toList rest := hrest.notNext (by decide) (by decide)
  cases d with
  | none =>
    have hvalue := takes_chain_last (reads_labelled (named scope "argumentValue")
      (reads_optional_absent (rejects_expression hrest.stops)))
    have hnew := takes_chain_cons (reads_labelled (named scope "argumentNew")
      (reads_optional_absent (rejects_word hnone))) hvalue
    exact takes_chain_cons (reads_optional_absent (rejects_word hequals)) hnew
  | some d =>
    have hplain (h : d.isNew = false) : NotNext "new".toList (d.value ++ rest) :=
      (d.plain h).append hnone
    have hvalue := takes_chain_last (reads_labelled (named scope "argumentValue")
      (reads_optional (reads_expression d.balanced d.ne_nil hrest.stops)))
    have hnew := takes_chain_cons (reads_labelled (named scope "argumentNew")
      (reads_optionalWord .keyword "new" hplain)) hvalue
    exact takes_chain_cons (reads_optional (reads_word .punctuation "=" _)) hnew

/-- A written argument is read up to the comma or parenthesis behind it. -/
theorem Argument.reads (scope : Option Label) (a : Argument) (hrest : EndsArgument rest) :
    (argument scope).Reads a.tokens rest (a.capture scope) := by
  have hvariable : a.name.token.kind = .variableName := rfl
  have hbehind := takes_chain_cons (reads_labelled (named scope "argumentName")
    (reads_token hvariable _)) (takes_default scope a.default hrest)
  have htype :=
    takes_chain_cons (reads_optionalType (named scope "argument") a.type a.name _) hbehind
  have hnext : NotNext "?".toList (a.type.elim [] TypeName.tokens) := by
    cases a.type with
    | none => exact notNext_nil _
    | some type => exact type.notNext (by decide) (by decide) (by decide)
  have hname : NotNext "?".toList [a.name.token] := notNext_cons (a.name.lexeme_ne (by decide)) []
  have hdefault : NotNext "?".toList (a.default.elim [] Default.tokens) := by
    cases a.default with
    | none => exact notNext_nil _
    | some d => exact notNext_cons (by decide) _
  have hquestion := (hnext.append (hname.append hdefault)).append
    (hrest.notNext (by decide) (by decide))
  have hnullable := takes_chain_cons (reads_labelled (named scope "argumentNullable")
    (reads_optionalWord .punctuation "?" fun _ : a.nullable = false => hquestion)) htype
  exact reads_labelled _ (reads_chain hnullable)

/-- There is no argument where a list of arguments is at its end. -/
theorem rejects_argument (scope : Option Label) (ts : List Token) :
    (argument scope).Rejects (mark ")" :: ts) := by
  have hquestion : NotNext "?".toList (mark ")" :: ts) := notNext_cons (by decide) ts
  have htype : (ClassMember.type (named scope "argument")).Rejects (mark ")" :: ts) :=
    rejects_type _ (by decide) (by decide) ts
  have hname : (token .variableName).Rejects (mark ")" :: ts) := rejects_of_ruledOut rfl
  refine rejects_labelled _ (rejects_chain ?_)
  exact rejectsChain_tail (reads_labelled _ (reads_optional_absent (rejects_word hquestion)))
    (rejectsChain_tail (reads_optional_absent htype) (rejectsChain_head (rejects_labelled _ hname)))

/-- What an optional list of arguments is captured as. If there are none, it has no entry. -/
def optionalArguments (scope : Option Label) : List Argument → Capture
  | [] => .empty
  | a :: as => .labelled (named scope "arguments")
      (.list (listed (mark ",") Argument.tokens (a :: as)) ((a :: as).map (Argument.capture scope)))

/-- Arguments are read with commas between them, up to the closing parenthesis. -/
theorem reads_optionalArguments (scope : Option Label) (as : List Argument) (ts : List Token) :
    (optional (arguments scope)).Reads (listed (mark ",") Argument.tokens as) (mark ")" :: ts)
      (optionalArguments scope as) := by
  have hclose : NotNext ",".toList (mark ")" :: ts) := notNext_cons (by decide) ts
  cases as with
  | nil =>
    have hnone := rejects_argument scope ts
    exact reads_optional_absent (rejects_labelled _ (rejects_separated hnone))
  | cons a as =>
    refine reads_optional (reads_labelled _ ?_)
    exact reads_separated (fun a _ rest hrest => a.reads scope hrest)
      (reads_word .punctuation ",") (fun _ => .inl rfl) (.inr rfl) (rejects_word hclose)

end Arguments

/-! ## Return types -/

/-- A return type. -/
structure ReturnType where
  nullable : Bool
  type : TypeName

/-- The tokens of a return type, with the colon. -/
def ReturnType.tokens (r : ReturnType) : List Token :=
  [mark ":"] ++ (optionalToken r.nullable (mark "?") ++ r.type.tokens)

/-- What an optional return type is captured as. If there is none, it has no entry. The type in it
is not labelled in the scope. -/
def optionalReturnType (scope : Option Label) (r : Option ReturnType) : Capture :=
  r.elim .empty fun r => .labelled (named scope "returnType") (.tree r.tokens
    [(named scope "returnTypeNullable", .leaf (optionalToken r.nullable (mark "?"))),
      (named scope "returnTypeName",
        .labelled (named none "type") (.leaf r.type.tokens))])

/-- A return type is read up to the brace of the body, or it is absent. -/
theorem reads_optionalReturnType (scope : Option Label) (r : Option ReturnType) (ts : List Token) :
    (optional (returnType scope)).Reads (r.elim [] ReturnType.tokens) (mark "\x7b" :: ts)
      (optionalReturnType scope r) := by
  have hbrace : (mark "\x7b" :: ts).head?.any Token.isNameSeparator = false := rfl
  refine reads_optionally (fun r _ => ?_) fun _ => ?_
  · have hquestion : NotNext "?".toList (r.type.tokens ++ mark "\x7b" :: ts) :=
      (r.type.notNext (by decide) (by decide) (by decide)).append (notNext_cons (by decide) ts)
    have hname :=
      takes_chain_last (reads_labelled (named scope "returnTypeName") (r.type.reads none hbrace))
    have hnullable := takes_chain_cons (reads_labelled (named scope "returnTypeNullable")
      (reads_optionalWord .punctuation "?" fun _ : r.nullable = false => hquestion)) hname
    refine reads_labelled _ (reads_chain ?_)
    exact takes_chain_cons (reads_word .punctuation ":" _) hnullable
  · refine rejects_labelled _ (rejects_chain (rejectsChain_head (rejects_word ?_)))
    exact notNext_cons (by decide) ts

/-! ## Methods -/

/-- A method. -/
structure Method where
  modifiers : List Modifier
  name : QualifiedName
  arguments : List Argument
  returnType : Option ReturnType
  body : List Token
  balanced : Balanced [] body

namespace Method

/-- The tokens of a method. -/
def tokens (m : Method) : List Token :=
  m.modifiers.map Modifier.token ++ ([keyword "function"] ++ (m.name.tokens ++ ([mark "("] ++
    (listed (mark ",") Argument.tokens m.arguments ++ ([mark ")"] ++
      (m.returnType.elim [] ReturnType.tokens ++ ([mark "\x7b"] ++ (m.body ++ [mark "\x7d"]))))))))

/-- What a method is captured as. -/
def capture (scope : Option Label) (m : Method) : Capture :=
  let inner := some (named scope "classFunction")
  .labelled (named scope "classFunction") (.tree m.tokens
    ([(named inner "visibilityModifiers", modifierItems inner m.modifiers)] ++
      ([(named scope "classFunctionName", .leaf m.name.tokens)] ++
        ((optionalArguments inner m.arguments).entries ++
          ((optionalReturnType inner m.returnType).entries ++
            [(named scope "classFunctionBody", .leaf m.body)])))))

/-- A written method is read, whatever follows it. -/
theorem reads (scope : Option Label) (m : Method) (rest : List Token) :
    (function scope).Reads m.tokens rest (m.capture scope) := by
  have hstop : Stops [] (mark "\x7d" :: rest) := by
    intro token htoken
    obtain rfl := Option.mem_some.1 htoken
    exact .inr ⟨['\x7d'], by decide⟩
  have hclose := takes_chain_last (reads_word .punctuation "\x7d" rest)
  have hbody := takes_chain_cons (reads_labelled (named scope "classFunctionBody")
    (reads_block m.balanced hstop)) hclose
  have hopen := takes_chain_cons (reads_word .punctuation "\x7b" _) hbody
  have hreturn := takes_chain_cons
    (reads_optionalReturnType (named scope "classFunction") m.returnType _) hopen
  have hparen := takes_chain_cons (reads_word .punctuation ")" _) hreturn
  have harguments := takes_chain_cons
    (reads_optionalArguments (named scope "classFunction") m.arguments _) hparen
  have hstart := takes_chain_cons (reads_word .punctuation "(" _) harguments
  have hname := takes_chain_cons (reads_labelled (named scope "classFunctionName")
    (m.name.reads rfl)) hstart
  have hfunction := takes_chain_cons (reads_word .keyword "function" _) hname
  have hmodifiers := takes_chain_cons
    (reads_optional (reads_modifiers (named scope "classFunction") m.modifiers fun modifier =>
      notNext_cons (by cases modifier <;> decide) _)) hfunction
  exact reads_labelled _ (reads_chain hmodifiers)

/-- In front of a method that is written out the rule matches. It takes the method and nothing
behind it, and captures its parts as they are written, in order, and nothing else. -/
theorem parse_function_written (scope : Option Label) (m : Method) {rest : List Token}
    {s : TokenStream} (hs : s.Settled) (hahead : s.ahead = m.tokens ++ rest) :
    ∃ c t, (function scope).parse s = .matched c t ∧ s.Reaches t ∧ t.ahead = rest ∧
      t.current.map Token.unplaced = rest.head? ∧ c.bare = m.capture scope := by
  obtain ⟨c, t, hparse, hst, ht, hcapture⟩ := m.reads scope rest hs hahead
  refine ⟨c, t, hparse, hst, ht, ?_, hcapture⟩
  rw [current_map_unplaced hst.settled, ht]

/-- A static method with two arguments, the first one with a type and a new object as its default.
-/
def withDefault : Method where
  modifiers := [.staticMember]
  name := ⟨false, .letter 'f' rfl, []⟩
  arguments :=
    [⟨true, some (.named ⟨true, .letter 'A' rfl, [.letter 'B' rfl]⟩),
      ⟨"$x".toList, by decide⟩,
      some ⟨true, [.synthetic .identifier "C".toList, mark "(", .synthetic .number "1".toList,
          mark ",", mark "[", mark "]", mark ")"], List.cons_ne_nil _ _,
        .neutral rfl (by decide) (.pair rfl (by decide)
          (.neutral rfl (by decide) (.neutral rfl (by decide)
            (.pair rfl (by decide) .nil rfl .nil))) rfl .nil), nofun⟩⟩,
      ⟨false, none, ⟨"$y".toList, by decide⟩, none⟩]
  returnType := some ⟨true, .array⟩
  body := [keyword "return", mark "[", mark "]", mark ";"]
  balanced :=
    .neutral rfl (by decide) (.pair rfl (by decide) .nil rfl (.neutral rfl (by decide) .nil))

/-- A method in front of a brace that does not belong to it. A comment between its words leaves no
trace in the capture. -/
theorem parse_function_written_withDefault :
    ∃ s, TokenStream.ofSource
        ("static /* one */ function f(?\\A\\B $x = new C(1, []), $y): ?array " ++
          "\x7b return []; \x7d \x7d").toList = .ok s ∧
      s.ahead = withDefault.tokens ++ [mark "\x7d"] ∧
      ∃ c t, (function none).parse s = .matched c t ∧ s.Reaches t ∧ t.ahead = [mark "\x7d"] ∧
        t.current.map Token.unplaced = some (mark "\x7d") ∧ c.bare = withDefault.capture none := by
  refine (exists_ofSource ?_).imp fun s ⟨hsource, hs, hahead⟩ =>
    ⟨hsource, hahead, parse_function_written none withDefault hs hahead⟩
  decide +kernel

end Method

end ClassMember

end SourceMacros

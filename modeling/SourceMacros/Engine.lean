import SourceMacros.Expansion.Expander
import SourceMacros.Macro
import SourceMacros.Named

/-!
# The engine

An engine holds macros, expanders and compiler passes. It expands a source from
left to right: where a macro matches, the match is replaced by the expansion of
its filled-in template, and every other token is copied. A finished expansion is
kept as a unit if the request and the settings of the engine allow it.

Expansion recurses on the levels of nesting that are left. Inside one level the
stream is walked once; each step uses up at least one token.
-/

namespace SourceMacros

/-- A pass over fully expanded text. -/
abbrev Compiler := Text → Except ExpandError Text

/-- Puts a text in front of the first that is greater or equal. -/
def Text.insertSorted (t : Text) : List Text → List Text
  | [] => [t]
  | u :: us => if t ≤ u then t :: u :: us else u :: insertSorted t us

/-- The texts in the order of their code points. -/
def Text.sorted : List Text → List Text
  | [] => []
  | t :: ts => t.insertSorted (sorted ts)

/-- Macros, expanders and compiler passes, and the units kept so far. -/
structure Engine where
  macros : List Macro
  compilers : List (Text × Compiler)
  expanders : List (Text × Expander)
  retained : List Expansion
  /-- The number of expansions that are under way. -/
  depth : Nat
  maxDepth : Nat
  retainIntermediate : Bool

namespace Engine

/-- An engine with the standard expanders and nothing else. -/
def new (maxDepth : Nat) (retainIntermediate : Bool) : Engine where
  macros := []
  compilers := []
  expanders := Expander.standard
  retained := []
  depth := 0
  maxDepth := maxDepth
  retainIntermediate := retainIntermediate

/-! ## Registration -/

/-- The expander with the given name. -/
def expander? (e : Engine) (name : Text) : Option Expander :=
  e.expanders.lookup name

/-- Gives a name to an expander. A name can be given again. -/
def registerExpander (e : Engine) (name : Text) (x : Expander) : Engine :=
  { e with expanders := setNamed name x e.expanders }

/-- The first expander of a macro that has no meaning here. -/
def unknownExpander? (e : Engine) (m : Macro) : Option Text :=
  m.template.expanders.find? fun name => (e.expander? name).isNone

/-- Adds a macro behind the others. Its name must be new, the pattern must have
every capture of the template, and the engine every expander. -/
def addMacro (e : Engine) (m : Macro) : Except ExpandError Engine :=
  if e.macros.any (·.name == m.name) then .error (.duplicateMacro m.name)
  else
    match m.unknownLabel? with
    | some label => .error (.unknownCapture m.name label)
    | none =>
      match e.unknownExpander? m with
      | some name => .error (.unknownExpander m.name name)
      | none => .ok { e with macros := e.macros ++ [m] }

/-- Removes the macro with the given name. Was there one? -/
def removeMacro (e : Engine) (name : Text) : Bool × Engine :=
  (e.macros.any (·.name == name),
    { e with macros := e.macros.filter (·.name != name) })

/-- Adds a compiler pass behind the others, or replaces the one of that name
where it stands. -/
def addCompiler (e : Engine) (name : Text) (pass : Compiler) : Engine :=
  { e with compilers := setNamed name pass e.compilers }

/-- Removes the compiler pass with the given name. Was there one? -/
def removeCompiler (e : Engine) (name : Text) : Bool × Engine :=
  (e.compilers.any (·.1 == name),
    { e with compilers := e.compilers.filter (·.1 != name) })

/-- Runs all compiler passes in order, up to the first that fails. -/
def runCompilers (e : Engine) (code : Text) : Except ExpandError Text :=
  e.compilers.foldlM (fun code pass => pass.2 code) code

/-- Drops the units kept so far. How many were there? -/
def collectGarbage (e : Engine) : Nat × Engine :=
  (e.retained.length, { e with retained := [] })

/-! ## Expansion -/

/-- The answer to the question which macro matches. -/
inductive Found where
  | macroAt (definition : Macro) (capture : Capture) (rest : TokenStream)
  | nothing
  | endless

/-- The first macro that matches at the cursor and moves it. -/
def firstMatch : List Macro → TokenStream → Found
  | [], _ => .nothing
  | m :: ms, s =>
    match m.pattern.parse s with
    | .matched c t =>
      if t.cursor = s.cursor then firstMatch ms t else .macroAt m c t
    | .mismatched _ t => firstMatch ms (t.restore s.checkpoint)
    | .endless => .endless

/-- Sends a region through expanders, one after the other. -/
def applyExpanders (e : Engine) (answer : Request → Expanded Text)
    (owner : Text) : List Text → TokenStream → Expanded TokenStream
  | [], s => .pure s
  | name :: names, s =>
    match e.expander? name with
    | none => .fail (.unknownExpander owner name)
    | some x =>
      ((x s).carryOut answer).bind (e.applyExpanders answer owner names)

/-- Fills in the pieces of a template. A placeholder without a capture stays
empty. -/
def renderSegments (e : Engine) (answer : Request → Expanded Text)
    (owner : Text) (capture : Capture) : List Segment → Expanded Text
  | [] => .pure []
  | .text t :: segments =>
    (e.renderSegments answer owner capture segments).map (t ++ ·)
  | .capture label names :: segments =>
    match capture.find? label with
    | none => e.renderSegments answer owner capture segments
    | some found =>
      (e.applyExpanders answer owner names found.stream).bind fun s =>
        (e.renderSegments answer owner capture segments).map (s.text ++ ·)

/-- Fills in the template of a macro with the captures of a match. -/
def render (e : Engine) (answer : Request → Expanded Text) (m : Macro)
    (capture : Capture) : Expanded Text :=
  e.renderSegments answer m.name capture m.template.segments

/-- Expands a stream from its cursor on, in at most `fuel` steps, given the
answers to nested requests. -/
def expandStream (e : Engine) (answer : Request → Expanded Text)
    (gc : GcMode) : (fuel : Nat) → TokenStream → Expanded Text
  | 0, _ => .fail .endless
  | fuel + 1, s =>
    let trivia := Token.text s.triviaBefore
    match s.current with
    | none => .pure trivia
    | some token =>
      match firstMatch e.macros s with
      | .endless => .fail .endless
      | .nothing =>
        (e.expandStream answer gc fuel s.next).map
          (trivia ++ token.lexeme ++ ·)
      | .macroAt m capture rest =>
        (e.render answer m capture).bind fun rendered =>
          (answer ⟨rendered, m.name, gc⟩).bind fun output =>
            (e.expandStream answer gc fuel rest).map (trivia ++ output ++ ·)

/-- Answers a request with the given number of nested levels left. -/
def expandWithin (e : Engine) : (levels : Nat) → Request → Expanded Text
  | 0, r => .fail (.recursionLimit e.maxDepth r.context)
  | levels + 1, r =>
    (TokenStream.expandable r.source).bind fun s =>
      (e.expandStream (e.expandWithin levels) r.gc (s.left + 1) s).bind
        fun output =>
          if r.gc = .enabled ∧ e.retainIntermediate then
            ⟨.ok output, [⟨r.context, output⟩]⟩
          else .pure output

/-- Puts the units of an outcome behind those kept before. -/
def retain {α : Type} (e : Engine) (x : Expanded α) :
    Except ExpandError α × Engine :=
  (x.result, { e with retained := e.retained ++ x.units })

/-- Answers a request with all the levels that are left. -/
def answer (e : Engine) (r : Request) : Expanded Text :=
  e.expandWithin (e.maxDepth - e.depth) r

/-- Expands every macro in a source, recursively. -/
def expand (e : Engine) (r : Request) : Except ExpandError Text × Engine :=
  e.retain (e.answer r)

/-- Carries out the plan of an expander. -/
def carryOut (e : Engine) (plan : Plan) :
    Except ExpandError TokenStream × Engine :=
  e.retain (plan.carryOut e.answer)

/-- Expands the text of some tokens; the unit is not kept. -/
def resubmit (e : Engine) (tokens : List Token) (context : Text) :
    Except ExpandError TokenStream × Engine :=
  e.carryOut (.expand ⟨Token.text tokens, context, .disabled⟩)

/-! ## Description -/

/-- Quoted texts between brackets. -/
def quotedList (ts : List Text) : Text :=
  '[' :: Text.joinWith ", ".toList (ts.map Text.quotedText) ++ [']']

/-- The state of an engine in one line: its names and counters. -/
def describe (e : Engine) : Text :=
  "Engine \x7b macros: ".toList ++ quotedList (e.macros.map Macro.name)
    ++ ", compilers: ".toList ++ quotedList (e.compilers.map Prod.fst)
    ++ ", expanders: ".toList
    ++ quotedList (Text.sorted (e.expanders.map Prod.fst))
    ++ ", retained: ".toList ++ Nat.toDigits 10 e.retained.length
    ++ ", depth: ".toList ++ Nat.toDigits 10 e.depth ++ " \x7d".toList

end Engine

end SourceMacros

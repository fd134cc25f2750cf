import SourceMacros.Proofs.ClassMember.Written

/-!
# Trait uses, written out

A trait use names traits, and ends with a semicolon or with a block of resolutions. Its rule reads
every one that is written out (`parse_traitUse_written`).

Between resolutions the semicolons may be missing. Then the next resolution starts directly behind
the method name that ends the one before, and what keeps the two apart is that the next word is not
`::`: so the optional class name of a reference is tried and given up again. The braces are no part
of any resolution, so the block is read to its end.
-/

namespace SourceMacros

open TokenStream

namespace ClassMember

open Rule

/-! ## References -/

/-- A method, perhaps with the class it comes from. -/
structure Reference where
  owner : Option Identifier
  method : Identifier

/-- The tokens of a class name in front of a method. -/
def ownerTokens (owner : Identifier) : List Token :=
  [owner.token] ++ [mark "::"]

/-- The tokens of a reference. -/
def Reference.tokens (r : Reference) : List Token :=
  r.owner.elim [] ownerTokens ++ [r.method.token]

/-- What the optional class name in front of a method is captured as. -/
def optionalOwner (scope : Option Label) (side : String) (owner : Option Identifier) : Capture :=
  owner.elim .empty fun owner => .tree (ownerTokens owner)
    [(named scope ("classTraitAlias" ++ side ++ "Class"), .leaf [owner.token])]

/-- What a reference is captured as. -/
def Reference.capture (scope : Option Label) (side : String) (r : Reference) : Capture :=
  .labelled (named scope ("classTraitAlias" ++ side)) (.tree r.tokens
    ((optionalOwner scope side r.owner).entries ++
      [(named scope ("classTraitAlias" ++ side ++ "Method"), .leaf [r.method.token])]))

section References

variable {rest : List Token}

theorem Reference.notNext (r : Reference) {t : Text} (h : isIdentifier t = false)
    (rest : List Token) : NotNext t (r.tokens ++ rest) := by
  obtain ⟨owner, method⟩ := r
  cases owner with
  | none => exact notNext_cons (method.lexeme_ne h) rest
  | some owner => exact notNext_cons (owner.lexeme_ne h) _

/-- A reference is read up to a token that is no double colon. -/
theorem Reference.reads (scope : Option Label) (side : String) (r : Reference)
    (hrest : NotNext "::".toList rest) :
    (traitReference scope side).Reads r.tokens rest (r.capture scope side) := by
  have hkind (i : Identifier) : i.token.kind = .identifier := rfl
  have howner : (optional (chain [
      labelled (named scope ("classTraitAlias" ++ side ++ "Class")) (token .identifier),
      word "::"])).Reads (r.owner.elim [] ownerTokens) ([r.method.token] ++ rest)
        (optionalOwner scope side r.owner) := by
    refine reads_optionally (fun owner _ => ?_) fun _ => ?_
    · have hcolons := takes_chain_last (reads_word .punctuation "::" ([r.method.token] ++ rest))
      exact reads_chain (takes_chain_cons (reads_labelled _ (reads_token (hkind owner) _)) hcolons)
    · -- The method itself is taken for a class name first, until no double colon comes.
      exact rejects_chain (rejectsChain_tail (reads_labelled _ (reads_token (hkind r.method) _))
        (rejectsChain_head (rejects_word hrest)))
  have hmethod := takes_chain_last (reads_labelled
    (named scope ("classTraitAlias" ++ side ++ "Method")) (reads_token (hkind r.method) rest))
  exact reads_labelled _ (reads_chain (takes_chain_cons howner hmethod))

theorem rejects_reference (scope : Option Label) (side : String)
    (h : ∀ token ∈ rest.head?, token.kind ≠ .identifier) :
    (traitReference scope side).Rejects rest := by
  have hname (label : Label) : (labelled label (token .identifier)).Rejects rest :=
    rejects_labelled label (rejects_token h)
  refine rejects_labelled _ (rejects_chain (rejectsChain_tail (reads_optional_absent ?_)
    (rejectsChain_head (hname _))))
  exact rejects_chain (rejectsChain_head (hname _))

end References

/-! ## Resolutions -/

/-- What stands between the references of a resolution. -/
inductive Clause where
  | insteadOf
  | as (modifiers : List Modifier)

/-- The tokens between the references of a resolution. -/
def Clause.tokens : Clause → List Token
  | insteadOf => [keyword "insteadof"]
  | as ms => [keyword "as"] ++ ms.map Modifier.token

/-- What stands between the references is captured as its mark. -/
def Clause.capture (scope : Option Label) : Clause → Capture
  | insteadOf => .labelled (named scope "classTraitAliasInsteadOf") (.leaf [keyword "insteadof"])
  | as ms =>
    .labelled (named scope "classTraitAliasAs") (.tree ([keyword "as"] ++ ms.map Modifier.token)
      [(named (named scope "classTraitAlias") "visibilityModifiers",
        modifierItems (named scope "classTraitAlias") ms)])

/-- A resolution: the method on the left is taken instead of the one on the right, or gets it as
another name. -/
structure Resolution where
  left : Reference
  clause : Clause
  right : Reference
  semicolon : Bool

/-- The tokens of a resolution. -/
def Resolution.tokens (r : Resolution) : List Token :=
  r.left.tokens ++ (r.clause.tokens ++ (r.right.tokens ++ optionalToken r.semicolon (mark ";")))

/-- What a resolution is captured as. -/
def Resolution.capture (scope : Option Label) (r : Resolution) : Capture :=
  .labelled (named scope "classTraitAlias") (.tree r.tokens
    ((r.left.capture scope "Left").entries ++
      ((r.clause.capture scope).entries ++ (r.right.capture scope "Right").entries)))

section Resolutions

variable {rest : List Token}

theorem Clause.notNext (clause : Clause) {t : Text} (h : isKeyword t = false) (rest : List Token) :
    NotNext t (clause.tokens ++ rest) := by
  cases clause with
  | insteadOf => exact notNext_cons (ne_of_isKeyword (by decide) h) rest
  | as ms => exact notNext_cons (ne_of_isKeyword (by decide) h) _

/-- The clause of a resolution is read up to something that is no modifier. -/
theorem Clause.reads (scope : Option Label) (clause : Clause)
    (hrest : ∀ m : Modifier, NotNext m.text.toList rest) :
    (either [
      labelled (named scope "classTraitAliasInsteadOf") (word "insteadof"),
      labelled (named scope "classTraitAliasAs") (chain [word "as",
        optional (visibilityModifiers (named scope "classTraitAlias"))])]).Reads clause.tokens rest
      (clause.capture scope) := by
  cases clause with
  | insteadOf => exact reads_either_head _ (reads_labelled _ (reads_word .keyword "insteadof" rest))
  | as ms =>
    have hother : (word "insteadof").Rejects ([keyword "as"] ++ ms.map Modifier.token ++ rest) :=
      rejects_word (notNext_cons (by decide) _)
    have hmodifiers := takes_chain_last
      (reads_optional (reads_modifiers (named scope "classTraitAlias") ms hrest))
    refine reads_either [_] _ (List.forall_mem_singleton.2 (rejects_labelled _ hother)) ?_
    exact reads_labelled _ (reads_chain (takes_chain_cons (reads_word .keyword "as" _) hmodifiers))

/-- Behind a resolution comes neither a double colon nor another semicolon. -/
def EndsResolution (rest : List Token) : Prop :=
  NotNext "::".toList rest ∧ NotNext ";".toList rest

/-- A written resolution is read up to something that could not belong to it. -/
theorem Resolution.reads (scope : Option Label) (r : Resolution) (hrest : EndsResolution rest) :
    (traitResolution scope).Reads r.tokens rest (r.capture scope) := by
  obtain ⟨hcolons, hsemicolon⟩ := hrest
  have hend := takes_chain_last
    (reads_optionalWord .punctuation ";" fun _ : r.semicolon = false => hsemicolon)
  have hbehind : NotNext "::".toList (optionalToken r.semicolon (mark ";") ++ rest) := by
    cases r.semicolon with
    | false => exact hcolons
    | true => exact notNext_cons (by decide) rest
  have hright := takes_chain_cons (r.right.reads scope "Right" hbehind) hend
  have hmodifiers (m : Modifier) : NotNext m.text.toList
      (r.right.tokens ++ optionalToken r.semicolon (mark ";") ++ rest) := by
    rw [List.append_assoc]
    exact r.right.notNext (by cases m <;> decide) _
  have hclause := takes_chain_cons (r.clause.reads scope hmodifiers) hright
  have hword : NotNext "::".toList (r.clause.tokens ++
      (r.right.tokens ++ optionalToken r.semicolon (mark ";")) ++ rest) := by
    rw [List.append_assoc]
    exact r.clause.notNext (by decide) _
  exact reads_labelled _ (reads_chain
    (takes_chain_cons (r.left.reads scope "Left" hword) hclause))

theorem rejects_resolution (scope : Option Label)
    (h : ∀ token ∈ rest.head?, token.kind ≠ .identifier) :
    (traitResolution scope).Rejects rest :=
  rejects_labelled _ (rejects_chain (rejectsChain_head (rejects_reference scope "Left" h)))

theorem Resolution.tokens_ne_nil (r : Resolution) : r.tokens ≠ [] := by
  rw [Resolution.tokens, Reference.tokens, List.append_assoc]
  exact List.append_ne_nil_of_right_ne_nil _ (List.cons_ne_nil _ _)

/-- Another resolution may stand behind a resolution, with no semicolon between them. -/
theorem endsResolution_append (r : Resolution) (rest : List Token) :
    EndsResolution (r.tokens ++ rest) := by
  rw [Resolution.tokens, List.append_assoc]
  exact ⟨r.left.notNext (by decide) _, r.left.notNext (by decide) _⟩

end Resolutions

/-! ## Trait uses -/

/-- What ends a trait use. -/
inductive Tail where
  | semicolon
  | block (resolutions : List Resolution)

/-- The tokens at the end of a trait use. -/
def Tail.tokens : Tail → List Token
  | semicolon => [mark ";"]
  | block rs => [mark "\x7b"] ++ (rs.flatMap Resolution.tokens ++ [mark "\x7d"])

/-- What the end of a trait use is captured as. -/
def Tail.capture (scope : Option Label) : Tail → Capture
  | semicolon => .leaf [mark ";"]
  | block rs => .labelled (named scope "classTraitBody") (.tree (block rs).tokens
      [(named scope "classTraitAliases",
        .list (rs.flatMap Resolution.tokens) (rs.map (Resolution.capture scope)))])

/-- A use of one or more traits. -/
structure TraitUse where
  first : QualifiedName
  others : List QualifiedName
  tail : Tail

namespace TraitUse

/-- The traits that are used. -/
def names (u : TraitUse) : List QualifiedName :=
  u.first :: u.others

/-- The tokens of a trait use. -/
def tokens (u : TraitUse) : List Token :=
  [keyword "use"] ++ (listed (mark ",") QualifiedName.tokens u.names ++ u.tail.tokens)

/-- What a trait use is captured as. -/
def capture (scope : Option Label) (u : TraitUse) : Capture :=
  .labelled (named scope "classTrait") (.tree u.tokens
    ([(named scope "classTraitNames", .list (listed (mark ",") QualifiedName.tokens u.names)
        (u.names.map fun n => .labelled (named scope "classTraitName") (.leaf n.tokens)))] ++
      (u.tail.capture scope).entries))

end TraitUse

/-- What stands behind the names, a block or a semicolon, is read whatever follows it. -/
theorem Tail.reads (scope : Option Label) (tail : Tail) (rest : List Token) :
    (either [
      labelled (named scope "classTraitBody") (chain [word "\x7b",
        labelled (named scope "classTraitAliases") (many (traitResolution scope)), word "\x7d"]),
      optional (word ";")]).Reads tail.tokens rest (tail.capture scope) := by
  cases tail with
  | semicolon =>
    have hbrace : (word "\x7b").Rejects ([mark ";"] ++ rest) :=
      rejects_word (notNext_cons (by decide) rest)
    refine reads_either [_] _ (List.forall_mem_singleton.2 ?_)
      (reads_optional (reads_word .punctuation ";" rest))
    exact rejects_labelled _ (rejects_chain (rejectsChain_head hbrace))
  | block rs =>
    have hends : EndsResolution ([mark "\x7d"] ++ rest) :=
      ⟨notNext_cons (by decide) rest, notNext_cons (by decide) rest⟩
    have hstop : (traitResolution scope).Rejects ([mark "\x7d"] ++ rest) := by
      refine rejects_resolution scope fun token htoken => ?_
      obtain rfl := Option.mem_some.1 htoken
      exact nofun
    have hresolutions : (many (traitResolution scope)).Reads (rs.flatMap Resolution.tokens)
        ([mark "\x7d"] ++ rest)
        (.list (rs.flatMap Resolution.tokens) (rs.map (Resolution.capture scope))) :=
      reads_many (fun r _ _ hrest => r.reads scope hrest) (fun r _ => r.tokens_ne_nil)
        (fun r _ rest => endsResolution_append r rest) hends hstop
    have hclose := takes_chain_last (reads_word .punctuation "\x7d" rest)
    have haliases := takes_chain_cons
      (reads_labelled (named scope "classTraitAliases") hresolutions) hclose
    exact reads_either_head _ (reads_labelled _ (reads_chain
      (takes_chain_cons (reads_word .punctuation "\x7b" _) haliases)))

namespace TraitUse

/-- A written use of traits is read, whatever follows it. -/
theorem reads (scope : Option Label) (u : TraitUse) (rest : List Token) :
    (traitUse scope).Reads u.tokens rest (u.capture scope) := by
  have hname (n : QualifiedName) (rest : List Token)
      (hrest : rest.head?.any Token.isNameSeparator = false) :
      (labelled (named scope "classTraitName") qualifiedName).Reads n.tokens rest
        (.labelled (named scope "classTraitName") (.leaf n.tokens)) :=
    reads_labelled _ (n.reads hrest)
  have hend : (u.tail.tokens ++ rest).head?.any Token.isNameSeparator = false ∧
      NotNext ",".toList (u.tail.tokens ++ rest) := by
    cases u.tail with
    | semicolon => exact ⟨rfl, notNext_cons (by decide) _⟩
    | block rs => exact ⟨rfl, notNext_cons (by decide) _⟩
  have hnames := reads_separated (fun n (_ : n ∈ u.names) => hname n)
    (reads_word .punctuation ",") (fun _ => rfl) hend.1 (rejects_word hend.2)
  have htail := takes_chain_last (u.tail.reads scope rest)
  have hlisted := takes_chain_cons (reads_labelled (named scope "classTraitNames") hnames) htail
  exact reads_labelled _ (reads_chain (takes_chain_cons (reads_word .keyword "use" _) hlisted))

/-- In front of a trait use that is written out the rule matches. It takes the trait use and nothing
behind it, and captures the names and the resolutions as they are written, in order, and nothing
else. -/
theorem parse_traitUse_written (scope : Option Label) (u : TraitUse) {rest : List Token}
    {s : TokenStream} (hs : s.Settled) (hahead : s.ahead = u.tokens ++ rest) :
    ∃ c t, (traitUse scope).parse s = .matched c t ∧ s.Reaches t ∧ t.ahead = rest ∧
      t.current.map Token.unplaced = rest.head? ∧ c.bare = u.capture scope := by
  obtain ⟨c, t, hparse, hst, ht, hcapture⟩ := u.reads scope rest hs hahead
  refine ⟨c, t, hparse, hst, ht, ?_, hcapture⟩
  rw [current_map_unplaced hst.settled, ht]

/-- Two traits with three resolutions, of which the second has no semicolon. -/
def withResolutions : TraitUse where
  first := ⟨false, .letter 'T' rfl, []⟩
  others := [⟨true, .letter 'U' rfl, []⟩]
  tail := .block
    [⟨⟨some (.letter 'T' rfl), .letter 'm' rfl⟩, .insteadOf, ⟨none, .letter 'U' rfl⟩, true⟩,
      ⟨⟨none, .letter 'm' rfl⟩, .as [.protectedMember, .staticMember], ⟨none, .letter 'n' rfl⟩,
        false⟩,
      ⟨⟨none, .letter 'k' rfl⟩, .as [], ⟨some (.letter 'T' rfl), .letter 'l' rfl⟩, false⟩]

/-- A use of two traits with three resolutions. The semicolon behind the block does not belong to
it. -/
theorem parse_traitUse_written_withResolutions :
    ∃ s, TokenStream.ofSource
        ("use T, \\U \x7b T::m insteadof U; m as protected static n /* none */ " ++
          "k as T::l \x7d ;").toList = .ok s ∧
      s.ahead = withResolutions.tokens ++ [mark ";"] ∧
      ∃ c t, (traitUse none).parse s = .matched c t ∧ s.Reaches t ∧ t.ahead = [mark ";"] ∧
        t.current.map Token.unplaced = some (mark ";") ∧ c.bare = withResolutions.capture none := by
  refine (exists_ofSource ?_).imp fun s ⟨hsource, hs, hahead⟩ =>
    ⟨hsource, hahead, parse_traitUse_written none withResolutions hs hahead⟩
  decide +kernel

end TraitUse

end ClassMember

end SourceMacros

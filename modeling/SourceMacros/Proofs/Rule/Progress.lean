import SourceMacros.Proofs.Rule.Origins

/-!
# Which rules return

A rule returns on a stream if it matches or fails there, and does not repeat itself forever. What
can repeat itself is a loop that goes round without moving the cursor. A repetition guards against
this. A separated list does not: it goes on as long as its separator and its item match one after
the other, and where both match nothing it never ends (`Rule.separated_of_still`).

Whether a rule can match nothing is seen from its form (`Rule.nullable`). If no separated list
inside a rule has both a nullable item and a nullable separator (`Rule.ListsMove`), the rule returns
on every stream (`Rule.returns_of_listsMove`). The proof is one induction over the rule. It says of
each outcome that a match keeps the tokens and moves the cursor, unless the rule is nullable, that a
mismatch hands back the stream, and that there is no third outcome, unless some list has two
nullable parts.

The cursor may start on trivia here, as it does behind a checkpoint that is not one of the stream.
-/

namespace SourceMacros

open TokenStream

/-! ## Rules that can match nothing -/

namespace Rule

mutual

/-- Can the rule match without moving the cursor, judged by its form? -/
def nullable : Rule → Bool
  | chain rules => allNullable rules
  | either rules => anyNullable rules
  | optional _ => true
  | many _ => true
  | separated item _ => item.nullable
  | block => true
  | labelled _ rule => rule.nullable
  | _ => false

/-- Can all of the rules match without moving? -/
def allNullable : List Rule → Bool
  | [] => true
  | rule :: rules => rule.nullable && allNullable rules

/-- Can one of the rules match without moving? -/
def anyNullable : List Rule → Bool
  | [] => false
  | rule :: rules => rule.nullable || anyNullable rules

end

/-- No separated list inside the rule has both a nullable item and a nullable separator. -/
def ListsMove (rule : Rule) : Prop :=
  ∀ item separator, (separated item separator).Inside rule →
    ¬ (item.nullable = true ∧ separator.nullable = true)

theorem ListsMove.child {child rule : Rule} (h : rule.ListsMove) (hchild : child ∈ rule.children) :
    child.ListsMove :=
  fun item separator hinside => h item separator (.child hinside hchild)

/-- If the rule is a separated list, does one of its two parts move the cursor? -/
def roundsMove : Rule → Bool
  | separated item separator => !(item.nullable && separator.nullable)
  | _ => true

/-- Whether the lists inside a rule move can be decided by going through the rules within it. -/
theorem listsMove_iff (rule : Rule) :
    rule.ListsMove ↔ rule.rulesWithin.all roundsMove = true := by
  have hlist : ∀ item separator, (separated item separator).roundsMove = true ↔
      ¬ (item.nullable = true ∧ separator.nullable = true) := by
    intro item separator
    rw [roundsMove, Bool.not_eq_true', ← Bool.not_eq_true, Bool.and_eq_true]
  simp only [List.all_eq_true, mem_rulesWithin_iff]
  constructor
  · intro h q hq
    cases q with
    | separated item separator => exact (hlist item separator).2 (h item separator hq)
    | _ => rfl
  · intro h item separator hinside
    exact (hlist item separator).1 (h _ hinside)

instance : DecidablePred ListsMove :=
  fun rule => decidable_of_iff _ (listsMove_iff rule).symm

end Rule

/-! ## Outcomes -/

namespace Parsed

variable {α β : Type}

/-- An outcome at `s`. A match goes over the tokens of `s` and stands still only if `still`, a
mismatch leaves a stream with the property `back`, and there is no end only if not `ends`. -/
inductive Proceeds (s : TokenStream) (still ends : Prop) (back : TokenStream → Prop) :
    Parsed α → Prop
  | matched {a : α} {t : TokenStream} (h : s.Onward t) (hmoves : s.cursor < t.cursor ∨ still) :
      Proceeds s still ends back (.matched a t)
  | mismatched {why : Mismatch} {t : TokenStream} (h : back t) :
      Proceeds s still ends back (.mismatched why t)
  | endless (h : ¬ ends) : Proceeds s still ends back .endless

variable {s : TokenStream} {still ends : Prop} {back : TokenStream → Prop} {x : Parsed α}

theorem Proceeds.map (f : α → β) (h : x.Proceeds s still ends back) :
    (x.map f).Proceeds s still ends back := by
  cases h with
  | matched hst hmoves => exact .matched hst hmoves
  | mismatched hback => exact .mismatched hback
  | endless hends => exact .endless hends

theorem Proceeds.mono {still' ends' : Prop} {back' : TokenStream → Prop}
    (h : x.Proceeds s still ends back) (hstill : still → still') (hends : ends' → ends)
    (hback : ∀ t, back t → back' t) : x.Proceeds s still' ends' back' := by
  cases h with
  | matched hst hmoves => exact .matched hst (hmoves.imp_right hstill)
  | mismatched h => exact .mismatched (hback _ h)
  | endless h => exact .endless fun h' => h (hends h')

/-- Two moves stand still together only if both do. -/
theorem Proceeds.behind {t : TokenStream} {still' : Prop} (hst : s.Onward t)
    (hmoves : s.cursor < t.cursor ∨ still') (h : x.Proceeds t still ends back) :
    x.Proceeds s (still' ∧ still) ends back := by
  cases h with
  | matched htu hmoves' =>
    refine .matched (hst.trans htu) ?_
    rcases hmoves with hlt | hstill'
    · exact .inl (Nat.lt_of_lt_of_le hlt htu.cursor_le)
    · rcases hmoves' with hlt | hstill
      · exact .inl (Nat.lt_of_le_of_lt hst.cursor_le hlt)
      · exact .inr ⟨hstill', hstill⟩
  | mismatched hback => exact .mismatched hback
  | endless hends => exact .endless hends

end Parsed

/-- Wherever the parser is run, it proceeds, and a mismatch hands back the stream it was given. -/
def ProceedingParser {α : Type} (p : TokenStream → Parsed α) (still ends : Prop) : Prop :=
  ∀ {s : TokenStream}, s.InRange → (p s).Proceeds s still ends (· = s)

section ProceedingParser

variable {α : Type} {p : TokenStream → Parsed α} {still ends : Prop} {s t : TokenStream}

theorem ProceedingParser.onward_of_matched {a : α} (hp : ProceedingParser p still ends)
    (hs : s.InRange) (h : p s = .matched a t) : s.Onward t := by
  have hproceeds := hp hs
  rw [h] at hproceeds
  cases hproceeds with
  | matched hst _ => exact hst

theorem ProceedingParser.eq_of_mismatched {why : Mismatch} (hp : ProceedingParser p still ends)
    (hs : s.InRange) (h : p s = .mismatched why t) : t = s := by
  have hproceeds := hp hs
  rw [h] at hproceeds
  cases hproceeds with
  | mismatched heq => exact heq

end ProceedingParser

namespace Rule

/-! ## Tokens and scans -/

theorem parseToken_proceeds (p : Token → Bool) (expected : Text) :
    ProceedingParser (parseToken p expected) False True := by
  intro s hs
  unfold parseToken
  cases hcurrent : s.current with
  | none => exact .mismatched rfl
  | some token =>
    simp only
    split
    · exact .matched (next_onward hs) (.inl (cursor_lt_next hcurrent))
    · exact .mismatched rfl

/-- Every round of the scan moves over a token, so the rounds last. -/
theorem skipBalanced_proceeds (terminators : List Text) {fuel : Nat} (waiting : List Text)
    {s : TokenStream} (hs : s.InRange) (hfuel : s.left < fuel) :
    (skipBalanced terminators fuel waiting s).Proceeds s True True (·.tokens = s.tokens) := by
  induction fuel generalizing waiting s with
  | zero => exact absurd hfuel (Nat.not_lt_zero _)
  | succ fuel ih =>
    have hhere : (Parsed.matched () s).Proceeds s True True (·.tokens = s.tokens) :=
      .matched (.refl hs) (.inr trivial)
    unfold skipBalanced
    cases hcurrent : s.current with
    | none =>
      cases waiting with
      | nil => exact hhere
      | cons closer waiting => exact .mismatched rfl
    | some token =>
      have hnext := next_onward hs
      have hleft := hnext.left_lt (cursor_lt_next hcurrent)
      have hstep : ∀ waiting, (skipBalanced terminators fuel waiting s.next).Proceeds s True True
          (·.tokens = s.tokens) := by
        intro waiting
        have hrest := (ih waiting hnext.inRange (by omega)).behind hnext (.inr trivial)
        exact hrest.mono (fun _ => trivial) id fun t ht => ht.trans hnext.tokens_eq
      simp only
      split
      · exact hhere
      · split
        · exact hstep _
        · exact hhere
        · split
          · exact hstep _
          · exact .mismatched rfl
        · exact hstep _

theorem balancedRun_proceeds (terminators : List Text) {s : TokenStream} (hs : s.InRange) :
    (s.balancedRun terminators).Proceeds s True True (·.tokens = s.tokens) :=
  skipBalanced_proceeds terminators [] hs (Nat.lt_succ_self _)

/-- A block may be empty, and then it stands still. -/
theorem parseBlock_proceeds : ProceedingParser parseBlock True True := by
  intro s hs
  have h := balancedRun_proceeds [] hs
  unfold parseBlock
  generalize s.balancedRun [] = x at h ⊢
  cases h with
  | matched hst hmoves => exact .matched hst hmoves
  | mismatched htokens => exact .mismatched (restore_of_tokens_eq hs htokens)
  | endless hends => exact .endless hends

/-- An expression that matches always moves, since an empty one is a mismatch. -/
theorem parseExpression_proceeds : ProceedingParser parseExpression False True := by
  intro s hs
  have h := balancedRun_proceeds expressionEnds hs
  unfold parseExpression
  generalize s.balancedRun expressionEnds = x at h ⊢
  cases h with
  | matched hst _ =>
    simp only
    split
    · next heq => exact .mismatched (hst.eq_of_cursor_eq heq)
    · next hne => exact .matched hst (.inl (hst.cursor_lt_of_ne hne))
  | mismatched htokens => exact .mismatched (restore_of_tokens_eq hs htokens)
  | endless hends => exact .endless hends

theorem skipNameParts_onward (fuel : Nat) {s : TokenStream} (hs : s.InRange) :
    s.Onward (skipNameParts fuel s) := by
  induction fuel generalizing s with
  | zero => exact .refl hs
  | succ fuel ih =>
    unfold skipNameParts
    split
    · have hfirst := next_onward hs
      have hsecond := next_onward hfirst.inRange
      exact (hfirst.trans hsecond).trans (ih hsecond.inRange)
    · exact .refl hs

/-- A qualified name that matches always moves, since it has an identifier. -/
theorem parseQualifiedName_proceeds : ProceedingParser parseQualifiedName False True := by
  intro s hs
  have hstart : s.Onward (if s.current.any Token.isNameSeparator then s.next else s) := by
    split
    · exact next_onward hs
    · exact .refl hs
  unfold parseQualifiedName
  simp only
  generalize (if s.current.any Token.isNameSeparator then s.next else s) = start at hstart ⊢
  split
  · next hidentifier =>
    obtain ⟨token, hcurrent, -⟩ := (Option.any_eq_true _ _).1 hidentifier
    have hnext := next_onward hstart.inRange
    have hparts := skipNameParts_onward s.left hnext.inRange
    refine .matched ((hstart.trans hnext).trans hparts) (.inl ?_)
    have hlt := cursor_lt_next hcurrent
    exact Nat.lt_of_le_of_lt hstart.cursor_le (Nat.lt_of_lt_of_le hlt hparts.cursor_le)
  · exact .mismatched (restore_of_tokens_eq hs hstart.tokens_eq)

/-! ## Repetition -/

section Repetition

variable {item separator : TokenStream → Parsed Capture} {still still' ends ends' : Prop}

/-- A repetition cannot fail, and it stops in front of a round that would stand still. -/
theorem parseMany_proceeds (hitem : ProceedingParser item still ends) {fuel : Nat} {s : TokenStream}
    (hs : s.InRange) (hfuel : s.left < fuel ∨ ¬ ends) :
    (parseMany item fuel s).Proceeds s True ends fun _ => False := by
  induction fuel generalizing s with
  | zero => exact .endless (hfuel.resolve_left (Nat.not_lt_zero _))
  | succ fuel ih =>
    have h := hitem hs
    unfold parseMany
    generalize item s = x at h ⊢
    cases h with
    | @matched _ t hst _ =>
      simp only
      split
      · exact .matched hst (.inr trivial)
      · next hne =>
        have hleft := hst.left_lt (hst.cursor_lt_of_ne hne)
        have hlast : t.left < fuel ∨ ¬ ends := hfuel.imp_left fun hlt => by omega
        have hrest := (ih hst.inRange hlast).behind hst (.inr trivial)
        exact (hrest.mono (fun _ => trivial) id fun _ => id).map _
    | mismatched heq =>
      subst heq
      simp only [restore_of_tokens_eq hs rfl]
      exact .matched (.refl hs) (.inr trivial)
    | endless hends => exact .endless hends

/-- The further items of a list. That its rounds last is known only where one of its two parts moves
the cursor. -/
theorem parseSeparated_proceeds (hitem : ProceedingParser item still ends)
    (hseparator : ProceedingParser separator still' ends') {fuel : Nat} {s : TokenStream}
    (hs : s.InRange) (hfuel : s.left < fuel ∨ (still ∧ still')) :
    (parseSeparated item separator fuel s).Proceeds s True (ends ∧ ends' ∧ ¬ (still ∧ still'))
      fun _ => False := by
  induction fuel generalizing s with
  | zero =>
    have hstill := hfuel.resolve_left (Nat.not_lt_zero _)
    exact .endless fun h => h.2.2 hstill
  | succ fuel ih =>
    have hhere : ∀ {items : List Capture}, (Parsed.matched items s).Proceeds s True
        (ends ∧ ends' ∧ ¬ (still ∧ still')) fun _ => False :=
      .matched (.refl hs) (.inr trivial)
    have hsep := hseparator hs
    unfold parseSeparated
    generalize separator s = x at hsep ⊢
    cases hsep with
    | @matched _ t hst hmoves =>
      have hit := hitem hst.inRange
      simp only
      generalize item t = y at hit ⊢
      cases hit with
      | @matched _ u htu hmoves' =>
        have hsu := hst.trans htu
        -- A round that stands still has a separator and an item that do.
        have hround : u.left < s.left ∨ (still ∧ still') := by
          rcases hmoves with hlt | hstill'
          · exact .inl (hsu.left_lt (Nat.lt_of_lt_of_le hlt htu.cursor_le))
          · rcases hmoves' with hlt | hstill
            · exact .inl (hsu.left_lt (Nat.lt_of_le_of_lt hst.cursor_le hlt))
            · exact .inr ⟨hstill, hstill'⟩
        have hlast : u.left < fuel ∨ (still ∧ still') := by
          rcases hfuel with hleft | hstill
          · exact hround.imp_left fun hlt => by omega
          · exact .inr hstill
        have hrest := (ih hsu.inRange hlast).behind hsu (.inr trivial)
        exact (hrest.mono (fun _ => trivial) id fun _ => id).map _
      | mismatched heq =>
        subst heq
        simp only [restore_of_tokens_eq hs hst.tokens_eq]
        exact hhere
      | endless hends => exact .endless fun h => hends h.1
    | mismatched heq =>
      subst heq
      exact hhere
    | endless hends => exact .endless fun h => hends h.2.1

end Repetition

/-! ## Sequence and choice -/

/-- A chain stands still only if all its parts do, and ends if all of them end. -/
theorem parseChain_proceeds {rules : List Rule}
    (hrules : ∀ rule ∈ rules, ProceedingParser rule.parse (rule.nullable = true) rule.ListsMove)
    {s : TokenStream} (hs : s.InRange) :
    (parseChain rules s).Proceeds s (allNullable rules = true) (∀ rule ∈ rules, rule.ListsMove)
      (·.tokens = s.tokens) := by
  induction rules generalizing s with
  | nil => exact .matched (.refl hs) (.inr rfl)
  | cons rule rules ih =>
    have h := hrules rule List.mem_cons_self hs
    unfold parseChain
    generalize rule.parse s = x at h ⊢
    cases h with
    | matched hst hmoves =>
      have hrest := ih (fun r hr => hrules r (List.mem_cons_of_mem _ hr)) hst.inRange
      refine ((hrest.behind hst hmoves).mono ?_ ?_ ?_).map _
      · rintro ⟨hfirst, hothers⟩
        simp only [allNullable, hfirst, hothers, Bool.and_self]
      · exact fun hall r hr => hall r (List.mem_cons_of_mem _ hr)
      · exact fun t ht => ht.trans hst.tokens_eq
    | mismatched heq => exact .mismatched (by rw [heq])
    | endless hends => exact .endless fun hall => hends (hall rule List.mem_cons_self)

/-- A choice stands still only if some alternative does, and ends if all of them end. -/
theorem parseEither_proceeds (expected : Text) {rules : List Rule}
    (hrules : ∀ rule ∈ rules, ProceedingParser rule.parse (rule.nullable = true) rule.ListsMove) :
    ProceedingParser (parseEither expected rules) (anyNullable rules = true)
      (∀ rule ∈ rules, rule.ListsMove) := by
  intro s hs
  induction rules with
  | nil => exact .mismatched rfl
  | cons rule rules ih =>
    have hrest : (parseEither expected rules s).Proceeds s (anyNullable (rule :: rules) = true)
        (∀ r ∈ rule :: rules, r.ListsMove) (· = s) := by
      refine (ih fun r hr => hrules r (List.mem_cons_of_mem _ hr)).mono ?_ ?_ fun _ => id
      · exact fun hlater => by simp only [anyNullable, hlater, Bool.or_true]
      · exact fun hall r hr => hall r (List.mem_cons_of_mem _ hr)
    have h := hrules rule List.mem_cons_self hs
    unfold parseEither
    split
    · exact hrest
    · generalize rule.parse s = x at h ⊢
      cases h with
      | matched hst hmoves =>
        refine .matched hst (hmoves.imp_right fun hfirst => ?_)
        simp only [anyNullable, hfirst, Bool.true_or]
      | mismatched heq =>
        subst heq
        simp only [restore_of_tokens_eq hs rfl]
        exact hrest
      | endless hends => exact .endless fun hall => hends (hall rule List.mem_cons_self)

/-! ## All rules -/

/-- Every rule proceeds, on settled streams and others. The induction is over the rule. -/
theorem parse_proceeds (rule : Rule) :
    ProceedingParser rule.parse (rule.nullable = true) rule.ListsMove := by
  induction rule with
  | any =>
    intro s hs
    exact (parseToken_proceeds _ _ hs).mono False.elim (fun _ => trivial) fun _ => id
  | token kind =>
    intro s hs
    exact (parseToken_proceeds _ _ hs).mono False.elim (fun _ => trivial) fun _ => id
  | lexeme text =>
    intro s hs
    exact (parseToken_proceeds _ _ hs).mono False.elim (fun _ => trivial) fun _ => id
  | chain rules ih =>
    intro s hs
    have h := parseChain_proceeds ih hs
    unfold parse
    generalize parseChain rules s = x at h ⊢
    cases h with
    | matched hst hmoves => exact .matched hst hmoves
    | mismatched htokens => exact .mismatched (restore_of_tokens_eq hs htokens)
    | endless hends => exact .endless fun hmove => hends fun r hr => hmove.child hr
  | either rules ih =>
    intro s hs
    unfold parse
    exact (parseEither_proceeds _ ih hs).mono id (fun hmove r hr => hmove.child hr) fun _ => id
  | optional rule ih =>
    intro s hs
    have h := ih hs
    unfold parse
    generalize rule.parse s = x at h ⊢
    cases h with
    | matched hst hmoves => exact .matched hst (.inr rfl)
    | mismatched heq =>
      subst heq
      simp only [restore_of_tokens_eq hs rfl]
      exact .matched (.refl hs) (.inr rfl)
    | endless hends => exact .endless fun hmove => hends (hmove.child List.mem_cons_self)
  | many rule ih =>
    intro s hs
    have h := parseMany_proceeds ih hs (.inl (Nat.lt_succ_self s.left))
    unfold parse
    generalize parseMany rule.parse (s.left + 1) s = x at h ⊢
    cases h with
    | matched hst _ => exact .matched hst (.inr rfl)
    | mismatched hfalse => exact hfalse.elim
    | endless hends => exact .endless fun hmove => hends (hmove.child List.mem_cons_self)
  | separated item separator ihItem ihSeparator =>
    intro s hs
    have h := ihItem hs
    unfold parse
    generalize item.parse s = x at h ⊢
    cases h with
    | @matched _ t hst hmoves =>
      have hlist := parseSeparated_proceeds ihItem ihSeparator hst.inRange
        (.inl (Nat.lt_succ_self t.left))
      simp only
      generalize parseSeparated item.parse separator.parse (t.left + 1) t = y at hlist ⊢
      cases hlist with
      | matched htu _ =>
        refine .matched (hst.trans htu) (hmoves.imp_left fun hlt => ?_)
        exact Nat.lt_of_lt_of_le hlt htu.cursor_le
      | mismatched hfalse => exact hfalse.elim
      | endless hends =>
        refine .endless fun hmove => hends ⟨?_, ?_, hmove item separator .refl⟩
        · exact hmove.child List.mem_cons_self
        · exact hmove.child (List.mem_cons_of_mem _ List.mem_cons_self)
    | mismatched heq => exact .mismatched heq
    | endless hends => exact .endless fun hmove => hends (hmove.child List.mem_cons_self)
  | block =>
    intro s hs
    exact (parseBlock_proceeds hs).mono (fun _ => rfl) (fun _ => trivial) fun _ => id
  | qualifiedName =>
    intro s hs
    exact (parseQualifiedName_proceeds hs).mono False.elim (fun _ => trivial) fun _ => id
  | expression =>
    intro s hs
    exact (parseExpression_proceeds hs).mono False.elim (fun _ => trivial) fun _ => id
  | labelled label rule ih =>
    intro s hs
    unfold parse
    refine ((ih hs).mono id (fun hmove => ?_) fun _ => id).map _
    exact hmove.child List.mem_cons_self

/-- A rule whose lists move returns on every stream: it matches, or it hands back the stream. -/
theorem returns_of_listsMove {rule : Rule} (hmove : rule.ListsMove) {s : TokenStream}
    (hs : s.InRange) :
    (∃ c t, rule.parse s = .matched c t) ∨ ∃ why, rule.parse s = .mismatched why s := by
  have h := parse_proceeds rule hs
  generalize rule.parse s = x at h ⊢
  cases h with
  | @matched c t _ _ => exact .inl ⟨c, t, rfl⟩
  | @mismatched why _ heq => exact .inr ⟨why, by rw [heq]⟩
  | endless hends => exact absurd hmove hends

theorem onward_of_matched {rule : Rule} {s t : TokenStream} {c : Capture} (hs : s.InRange)
    (h : rule.parse s = .matched c t) : s.Onward t :=
  ProceedingParser.onward_of_matched (parse_proceeds rule) hs h

/-- The checkpoint of a rule that fails leads back to where it was run. -/
theorem restore_of_mismatched {rule : Rule} {s t : TokenStream} {why : Mismatch} (hs : s.InRange)
    (h : rule.parse s = .mismatched why t) : t.restore s.checkpoint = s := by
  rw [ProceedingParser.eq_of_mismatched (parse_proceeds rule) hs h, restore_of_tokens_eq hs rfl]

/-! ## Lists that stand still -/

theorem eq_of_matched_still {rule : Rule} {s t : TokenStream} {c : Capture} (hs : s.InRange)
    (h : rule.parse s = .matched c t) (hstill : t.cursor = s.cursor) : t = s :=
  (onward_of_matched hs h).eq_of_cursor_eq hstill

/-- Where item and separator match without moving, the list never ends, however many rounds are
counted. -/
theorem separated_of_still {item separator : Rule} {s : TokenStream} {c d : Capture}
    (hitem : item.parse s = .matched c s) (hseparator : separator.parse s = .matched d s) :
    (∀ fuel, parseSeparated item.parse separator.parse fuel s = .endless) ∧
      (separated item separator).parse s = .endless := by
  have hrounds := parseSeparated_endless hseparator hitem
  refine ⟨hrounds, ?_⟩
  simp only [parse, hitem, hrounds]

/-- A repetition whose item matches without moving stops in its place. -/
theorem many_of_still {item : Rule} {s : TokenStream} {c : Capture}
    (h : item.parse s = .matched c s) : (many item).parse s = .matched (.list [] []) s := by
  have hspan : s.spanFrom s.cursor = [] := by
    rw [spanFrom_eq rfl, consumed_self]
    rfl
  simp only [parse, parseMany, h, if_true, hspan]

end Rule

end SourceMacros

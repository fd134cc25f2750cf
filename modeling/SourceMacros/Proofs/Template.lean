import Mathlib.Data.List.Forall2
import SourceMacros.Template
import SourceMacros.Proofs.Lexing.Reflow
import SourceMacros.Proofs.Text.Splitting

/-!
# Templates and how they are written

Reading a template is inverse to printing it. A printing puts any white space around the names of a
placeholder, so there are many of them; but each is read as what was printed, and whatever can be
read is a printing of what it is read as (`Template.readFrom_eq_ok_iff`). What cannot be read has a
place where it goes wrong: an opening of a placeholder that cannot be completed, behind a text that
can be read (`Template.breaksAt_of_readFrom_error`).

All of it is by induction along the source, in the steps in which it is read
(`Template.reading_cases`): one character of text, or one placeholder.
-/

namespace SourceMacros

open Text

/-! ## Printing -/

/-- How a piece of a template can be written. -/
inductive Segment.Prints : Segment → Text → Prop
  | text (t : Text) : Prints (.text t) t
  | capture {label : Text} {expanders printed : List Text}
      (h : List.Forall₂ Padded (label :: expanders) printed) :
      Prints (.capture label expanders) ('$' :: '(' :: (joinWith ['|'] printed ++ [')']))

/-- Is the piece text? -/
def Segment.isText : Segment → Bool
  | .text _ => true
  | .capture .. => false

/-- Texts are not empty and open no placeholder, and names are names. -/
def Segment.Normal : Segment → Prop
  | .text t => t ≠ [] ∧ ¬ ['$', '('] <:+: t
  | .capture label expanders => ∀ name ∈ label :: expanders, Template.isName name = true

namespace Template

/-- How the pieces of a template can be written, one after the other. -/
inductive Prints : List Segment → Text → Prop
  | nil : Prints [] []
  | cons {segment : Segment} {segments : List Segment} {front rest : Text}
      (hsegment : segment.Prints front) (hsegments : Prints segments rest) :
      Prints (segment :: segments) (front ++ rest)

/-- Every piece is normal, and no text stands next to another. -/
structure Normal (segments : List Segment) : Prop where
  normal : ∀ segment ∈ segments, segment.Normal
  apart : segments.IsChain fun a b => ¬ (a.isText = true ∧ b.isText = true)

/-! ## Placeholders -/

section Placeholders

variable {body label name : Text} {expanders printed : List Text}

theorem isSolid_of_isName (h : isName name = true) : ∀ c ∈ name, isSolid c = true := by
  rw [isName, Bool.and_eq_true, List.all_eq_true] at h
  exact fun c hc => isSolid_of_isAsciiWordChar c (h.2 c hc)

theorem not_mem_of_isName (h : isName name = true) {c : Char} (hc : isAsciiWordChar c = false) :
    c ∉ name := by
  rw [isName, Bool.and_eq_true, List.all_eq_true] at h
  exact fun hmem => Bool.false_ne_true (hc.symm.trans (h.2 c hmem))

theorem exists_of_readPlaceholder {segment : Segment} (h : readPlaceholder body = .ok segment) :
    ∃ label expanders, segment = .capture label expanders := by
  unfold readPlaceholder at h
  split at h
  · cases h
  · split at h
    · split at h
      · cases h
      · exact ⟨_, _, (Except.ok.inj h).symm⟩
    · cases h

/-- A placeholder can be read if the pieces between its bars are names, up to white space around
them. -/
theorem readPlaceholder_eq_ok :
    readPlaceholder body = .ok (.capture label expanders) ↔
      (body.splitWhere (· == '|')).map trim = label :: expanders ∧
        ∀ name ∈ label :: expanders, isName name = true := by
  unfold readPlaceholder
  generalize (body.splitWhere (· == '|')).map trim = parts
  cases parts with
  | nil => simp
  | cons first others =>
    by_cases hfirst : isName first = true
    · cases hfind : others.find? (!isName ·) with
      | some bad =>
        have hbad := List.find?_some hfind
        have hmem := List.mem_of_find?_eq_some hfind
        simp only [hfirst, hfind, if_true, reduceCtorEq, false_iff, List.cons.injEq]
        rintro ⟨⟨rfl, rfl⟩, hall⟩
        rw [hall bad (List.mem_cons_of_mem _ hmem)] at hbad
        cases hbad
      | none =>
        simp only [hfirst, hfind, if_true, Except.ok.injEq, Segment.capture.injEq, List.cons.injEq]
        refine ⟨?_, And.left⟩
        rintro ⟨rfl, rfl⟩
        refine ⟨⟨rfl, rfl⟩, List.forall_mem_cons.2 ⟨hfirst, fun name hname => ?_⟩⟩
        simpa using List.find?_eq_none.1 hfind name hname
    · simp only [if_neg hfirst, reduceCtorEq, false_iff, List.cons.injEq]
      rintro ⟨⟨rfl, rfl⟩, hall⟩
      exact hfirst (hall _ List.mem_cons_self)

/-- Trimmed, printed names are the names again. -/
theorem map_trim_of_forall₂ {names : List Text} (h : List.Forall₂ Padded names printed)
    (hnames : ∀ name ∈ names, isName name = true) : printed.map trim = names := by
  induction h with
  | nil => rfl
  | cons hfirst _ ih =>
    rw [List.forall_mem_cons] at hnames
    rw [List.map_cons, ih hnames.2, hfirst.trim_eq (isSolid_of_isName hnames.1)]

/-- A character that is in no name and no white space is not in printed names either. -/
theorem not_mem_of_forall₂ {names : List Text} (h : List.Forall₂ Padded names printed)
    (hnames : ∀ name ∈ names, isName name = true) {c : Char} (hword : isAsciiWordChar c = false)
    (hblank : isWhiteSpace c = false) : ∀ t ∈ printed, c ∉ t := by
  induction h with
  | nil => exact fun t ht => absurd ht List.not_mem_nil
  | cons hfirst _ ih =>
    rw [List.forall_mem_cons] at hnames
    exact List.forall_mem_cons.2
      ⟨hfirst.not_mem (not_mem_of_isName hnames.1 hword) hblank, ih hnames.2⟩

/-- Between the parentheses of a placeholder stand its names, with white space around them. -/
theorem readPlaceholder_eq_ok_iff :
    readPlaceholder body = .ok (.capture label expanders) ↔
      (∀ name ∈ label :: expanders, isName name = true) ∧
        ∃ printed, List.Forall₂ Padded (label :: expanders) printed ∧
          body = joinWith ['|'] printed := by
  rw [readPlaceholder_eq_ok]
  constructor
  · rintro ⟨hparts, hnames⟩
    refine ⟨hnames, body.splitWhere (· == '|'), ?_, (joinWith_splitWhere '|' body).symm⟩
    rw [← hparts, List.forall₂_map_left_iff, List.forall₂_same]
    exact fun t _ => padded_trim t
  · rintro ⟨hnames, printed, hprinted, rfl⟩
    have hbar := not_mem_of_forall₂ hprinted hnames (show isAsciiWordChar '|' = false by decide)
      (by decide)
    have hne : printed ≠ [] := by
      rintro rfl
      cases hprinted
    rw [splitWhere_joinWith hne hbar]
    exact ⟨map_trim_of_forall₂ hprinted hnames, hnames⟩

end Placeholders

/-! ## Steps of reading -/

theorem map_eq_ok_iff {ε α β : Type} {f : α → β} {x : Except ε α} {b : β} :
    x.map f = .ok b ↔ ∃ a, x = .ok a ∧ f a = b := by
  cases x <;> simp [Except.map]

theorem map_eq_error_iff {ε α β : Type} {f : α → β} {x : Except ε α} {e : ε} :
    x.map f = .error e ↔ x = .error e := by
  cases x <;> simp [Except.map]

section Steps

variable {c : Char} {t body rest : Text}

/-- The characters `$` and `(` open a placeholder. -/
def Opens (c : Char) (t : Text) : Prop :=
  c = '$' ∧ t.head? = some '('

/-- Characters of a placeholder that was read already are gone over. -/
theorem readFrom_pending (front rest : Text) (offset : Nat) :
    readFrom front.length offset (front ++ rest) = readFrom 0 (offset + byteLength front) rest := by
  induction front generalizing offset with
  | nil => rfl
  | cons c front ih =>
    rw [List.cons_append, List.length_cons, readFrom, ih, byteLength_cons, Nat.add_assoc]

/-- A character that opens no placeholder is text. -/
theorem readFrom_plain (h : ¬ Opens c t) (offset : Nat) :
    readFrom 0 offset (c :: t) = (readFrom 0 (offset + c.utf8Size) t).map (consChar c) := by
  unfold Opens at h
  rw [readFrom, if_neg h]
  cases readFrom 0 (offset + c.utf8Size) t <;> rfl

theorem takeWhile_body (h : ')' ∉ body) (rest : Text) :
    (body ++ ')' :: rest).takeWhile (fun c => decide (c ≠ ')')) = body := by
  have hall : ∀ c ∈ body, decide (c ≠ ')') = true := by
    intro c hc
    rw [decide_eq_true_eq]
    rintro rfl
    exact h hc
  rw [List.takeWhile_append_of_pos hall, List.takeWhile_cons_of_neg (by decide), List.append_nil]

/-- Without a closing parenthesis the opening is reported where it stands. -/
theorem readFrom_unclosed (h : ')' ∉ t) (offset : Nat) :
    readFrom 0 offset ('$' :: '(' :: t) = .error ⟨offset, .unterminated⟩ := by
  have hall : t.takeWhile (fun c => decide (c ≠ ')')) = t := by
    rw [List.takeWhile_eq_self_iff]
    intro c hc
    rw [decide_eq_true_eq]
    rintro rfl
    exact h hc
  simp only [readFrom, List.head?_cons, List.tail_cons, hall, and_self, if_true]

/-- A placeholder is read on its own, and what follows it from behind its closing parenthesis. -/
theorem readFrom_placeholder (h : ')' ∉ body) (rest : Text) (offset : Nat) :
    readFrom 0 offset ('$' :: '(' :: (body ++ ')' :: rest)) =
      match readPlaceholder body with
      | .error fault => .error ⟨offset, fault⟩
      | .ok segment =>
        (readFrom 0 (offset + byteLength ('$' :: '(' :: (body ++ [')']))) rest).map
          (segment :: ·) := by
  have hne : body.length ≠ (body ++ ')' :: rest).length := by
    rw [List.length_append, List.length_cons]
    omega
  have hpending := readFrom_pending ('(' :: (body ++ [')'])) rest (offset + '$'.utf8Size)
  rw [List.length_cons, List.length_append, List.length_singleton, List.cons_append,
    List.append_assoc, List.singleton_append] at hpending
  rw [byteLength_cons, ← Nat.add_assoc, ← hpending]
  simp only [readFrom, List.head?_cons, List.tail_cons, takeWhile_body h, if_neg hne, and_self,
    if_true]
  cases readPlaceholder body with
  | error fault => rfl
  | ok segment =>
    simp only
    cases readFrom (body.length + 1) (offset + '$'.utf8Size + '('.utf8Size)
      (body ++ ')' :: rest) <;> rfl

/-- A template goes on with a character of text, with a placeholder, or with one that is not closed.
-/
theorem reading_cases {motive : Text → Prop} (nil : motive [])
    (plain : ∀ c t, ¬ Opens c t → motive t → motive (c :: t))
    (placeholder : ∀ body rest, ')' ∉ body → motive rest →
      motive ('$' :: '(' :: (body ++ ')' :: rest)))
    (unclosed : ∀ t, ')' ∉ t → motive ('$' :: '(' :: t)) (t : Text) : motive t := by
  induction hn : t.length using Nat.strong_induction_on generalizing t with
  | _ n ih =>
    subst hn
    cases t with
    | nil => exact nil
    | cons c t =>
      by_cases h : Opens c t
      · obtain ⟨rfl, hparen⟩ := h
        obtain ⟨u, rfl⟩ := List.head?_eq_some_iff.1 hparen
        by_cases hclose : ')' ∈ u
        · obtain ⟨body, rest, rfl, hbody⟩ := List.eq_append_cons_of_mem hclose
          refine placeholder body rest hbody (ih rest.length ?_ rest rfl)
          simp only [List.length_cons, List.length_append]
          omega
        · exact unclosed u hclose
      · exact plain c t h (ih t.length (Nat.lt_succ_self _) t rfl)

end Steps

/-! ## What is read is printed -/

theorem normal_text_singleton (c : Char) : (Segment.text [c]).Normal := by
  refine ⟨List.cons_ne_nil c [], fun hinfix => ?_⟩
  exact absurd hinfix.length_le (by simp)

/-- A character that opens no placeholder can go in front of a text. -/
theorem normal_text_cons {c : Char} {front rest : Text} (h : ¬ Opens c (front ++ rest))
    (hfront : (Segment.text front).Normal) : (Segment.text (c :: front)).Normal := by
  refine ⟨List.cons_ne_nil c front, fun hinfix => ?_⟩
  rcases List.infix_cons_iff.1 hinfix with ⟨more, hmore⟩ | hinside
  · rw [List.cons_append, List.cons.injEq] at hmore
    obtain ⟨rfl, rfl⟩ := hmore
    exact h ⟨rfl, rfl⟩
  · exact hfront.2 hinside

/-- A plain character in front of a text goes to the front of its first segment. The segments stay
normal, and they print the longer text. -/
theorem normal_and_prints_consChar {c : Char} {t : Text} {segments : List Segment} (h : ¬ Opens c t)
    (hnormal : Normal segments) (hprints : Prints segments t) :
    Normal (consChar c segments) ∧ Prints (consChar c segments) (c :: t) := by
  have hsingle := normal_text_singleton c
  obtain ⟨hall, hapart⟩ := hnormal
  cases hprints with
  | nil => exact ⟨⟨List.forall_mem_singleton.2 hsingle, .singleton _⟩, .cons (.text [c]) .nil⟩
  | @cons segment segments front rest hsegment hsegments =>
    cases hsegment with
    | capture hnames =>
      refine ⟨⟨List.forall_mem_cons.2 ⟨hsingle, hall⟩, .cons_cons (fun h => ?_) hapart⟩,
        .cons (.text [c]) (.cons (.capture hnames) hsegments)⟩
      exact Bool.false_ne_true h.2
    | text =>
      rw [List.forall_mem_cons] at hall
      have hlonger := normal_text_cons h hall.1
      refine ⟨⟨List.forall_mem_cons.2 ⟨hlonger, hall.2⟩, ?_⟩, .cons (.text (c :: front)) hsegments⟩
      -- The longer text stands where the text stood.
      cases hapart with
      | singleton => exact .singleton _
      | cons_cons hnext hrest => exact .cons_cons hnext hrest

/-- What is read from a text is normal and prints this text. The induction follows the ways in which
a text can start. -/
theorem normal_and_prints_of_readFrom (t : Text) : ∀ {offset : Nat} {segments : List Segment},
    readFrom 0 offset t = .ok segments → Normal segments ∧ Prints segments t := by
  induction t using reading_cases with
  | nil =>
    intro offset segments h
    obtain rfl : [] = segments := Except.ok.inj h
    exact ⟨⟨nofun, .nil⟩, .nil⟩
  | plain c t hplain ih =>
    intro offset segments h
    rw [readFrom_plain hplain, map_eq_ok_iff] at h
    obtain ⟨others, hrest, rfl⟩ := h
    obtain ⟨hnormal, hprints⟩ := ih hrest
    exact normal_and_prints_consChar hplain hnormal hprints
  | placeholder body rest hbody ih =>
    intro offset segments h
    rw [readFrom_placeholder hbody] at h
    cases hread : readPlaceholder body with
    | error fault =>
      rw [hread] at h
      cases h
    | ok segment =>
      obtain ⟨label, expanders, rfl⟩ := exists_of_readPlaceholder hread
      simp only [hread, map_eq_ok_iff] at h
      obtain ⟨others, hrest, rfl⟩ := h
      obtain ⟨⟨hall, hapart⟩, hprints⟩ := ih hrest
      obtain ⟨hnames, printed, hprinted, rfl⟩ := readPlaceholder_eq_ok_iff.1 hread
      have hcapture := Prints.cons (.capture hprinted) hprints
      rw [List.cons_append, List.cons_append, List.append_assoc, List.singleton_append] at hcapture
      refine ⟨⟨List.forall_mem_cons.2 ⟨hnames, hall⟩, ?_⟩, hcapture⟩
      -- Only two texts in a row could spoil the normal form, and the first segment is none.
      cases others with
      | nil => exact .singleton _
      | cons next others => exact .cons_cons (fun h => Bool.false_ne_true h.1) hapart
  | unclosed t ht =>
    intro offset segments h
    rw [readFrom_unclosed ht] at h
    cases h

/-! ## What is printed is read -/

/-- A text without an opening is read character by character, whatever comes behind it, as long as
that does not make its last dollar sign open a placeholder. -/
theorem readFrom_text {t rest : Text} (h : ¬ ['$', '('] <:+: t) (hrest : rest.head? ≠ some '(')
    (offset : Nat) :
    readFrom 0 offset (t ++ rest)
      = (readFrom 0 (offset + byteLength t) rest).map
        fun segments => t.foldr consChar segments := by
  induction t generalizing offset with
  | nil =>
    rw [List.nil_append, byteLength_nil, Nat.add_zero]
    cases readFrom 0 offset rest <;> rfl
  | cons c t ih =>
    have hplain : ¬ Opens c (t ++ rest) := by
      rintro ⟨rfl, hparen⟩
      cases t with
      | nil => exact hrest hparen
      | cons d t =>
        obtain rfl : d = '(' := Option.some.inj hparen
        exact h ⟨[], t, rfl⟩
    have hfree : ¬ ['$', '('] <:+: t := fun hinfix => h (List.infix_cons hinfix)
    rw [List.cons_append, readFrom_plain hplain, ih hfree, byteLength_cons, Nat.add_assoc]
    cases readFrom 0 (offset + (c.utf8Size + byteLength t)) rest <;> rfl

/-- In front of pieces that start with no text, characters make up a text of their own. -/
theorem foldr_consChar {t : Text} {segments : List Segment} (ht : t ≠ [])
    (h : ∀ segment ∈ segments.head?, segment.isText = false) :
    t.foldr consChar segments = .text t :: segments := by
  induction t with
  | nil => exact absurd rfl ht
  | cons c t ih =>
    cases t with
    | nil =>
      cases segments with
      | nil => rfl
      | cons segment segments =>
        cases segment with
        | text u => cases h _ rfl
        | capture label expanders => rfl
    | cons d t => rw [List.foldr_cons, ih (List.cons_ne_nil d t)]; rfl

/-- Behind a text that is a piece of its own comes a placeholder, or nothing. -/
theorem Normal.behind_text {t rest : Text} {segments : List Segment}
    (h : Normal (.text t :: segments)) (hrest : Prints segments rest) :
    (∀ segment ∈ segments.head?, segment.isText = false) ∧ rest.head? ≠ some '(' := by
  cases hrest with
  | nil => exact ⟨nofun, nofun⟩
  | cons hnext hsegments =>
    cases hnext with
    | text =>
      cases h.apart with
      | cons_cons hnot _ => exact absurd ⟨rfl, rfl⟩ hnot
    | capture hnames =>
      refine ⟨fun segment hsegment => ?_, nofun⟩
      obtain rfl := Option.mem_some.1 hsegment
      rfl

theorem Normal.tail {segment : Segment} {segments : List Segment}
    (h : Normal (segment :: segments)) : Normal segments := by
  refine ⟨(List.forall_mem_cons.1 h.normal).2, ?_⟩
  cases h.apart with
  | singleton => exact .nil
  | cons_cons _ hrest => exact hrest

/-- Segments in normal form are read back from any text that they print. -/
theorem readFrom_of_prints {t : Text} {segments : List Segment} (hnormal : Normal segments)
    (h : Prints segments t) (offset : Nat) : readFrom 0 offset t = .ok segments := by
  induction h generalizing offset with
  | nil => rfl
  | @cons segment segments front rest hsegment hsegments ih =>
    have hrest := ih hnormal.tail
    cases hsegment with
    | text =>
      obtain ⟨hne, hfree⟩ := hnormal.normal _ List.mem_cons_self
      obtain ⟨hnext, hopen⟩ := hnormal.behind_text hsegments
      rw [readFrom_text hfree hopen, hrest, Except.map, foldr_consChar hne hnext]
    | @capture label expanders printed hprinted =>
      have hnames := hnormal.normal _ List.mem_cons_self
      have hread := readPlaceholder_eq_ok_iff.2 ⟨hnames, printed, hprinted, rfl⟩
      have hclose := not_mem_of_forall₂ hprinted hnames (show isAsciiWordChar ')' = false by decide)
        (by decide)
      rw [List.cons_append, List.cons_append, List.append_assoc, List.singleton_append,
        readFrom_placeholder (not_mem_joinWith (by decide) hclose), hread]
      simp only [hrest, Except.map]

/-- Reading a template is inverse to printing it. -/
theorem readFrom_eq_ok_iff {t : Text} {offset : Nat} {segments : List Segment} :
    readFrom 0 offset t = .ok segments ↔ Normal segments ∧ Prints segments t :=
  ⟨normal_and_prints_of_readFrom t, fun h => readFrom_of_prints h.1 h.2 offset⟩

/-! ## Where reading goes wrong -/

/-- No placeholder with names in it stands at the front of the text. -/
def NoPlaceholder (t : Text) : Prop :=
  ∀ label expanders front, (Segment.capture label expanders).Normal →
    (Segment.capture label expanders).Prints front → ¬ front <+: t

section Faults

variable {body t : Text}

theorem noPlaceholder_unclosed (h : ')' ∉ t) : NoPlaceholder ('$' :: '(' :: t) := by
  rintro label expanders front - hprints ⟨more, hmore⟩
  cases hprints with
  | capture hprinted =>
    simp only [List.cons_append, List.append_assoc, List.nil_append, List.cons.injEq, true_and]
      at hmore
    exact h (hmore ▸ List.mem_append_right _ List.mem_cons_self)

/-- A body with a fault is no body of a placeholder, however the text goes on. -/
theorem noPlaceholder_fault {fault : PlaceholderFault} (h : ')' ∉ body)
    (hread : readPlaceholder body = .error fault) (rest : Text) :
    NoPlaceholder ('$' :: '(' :: (body ++ ')' :: rest)) := by
  rintro label expanders front hnames hprints ⟨more, hmore⟩
  cases hprints with
  | @capture _ _ printed hprinted =>
    have hclose := not_mem_of_forall₂ hprinted hnames (show isAsciiWordChar ')' = false by decide)
      (by decide)
    simp only [List.cons_append, List.append_assoc, List.nil_append, List.cons.injEq, true_and]
      at hmore
    -- Both go up to the first closing parenthesis.
    have hfree : ')' ∉ joinWith ['|'] printed := not_mem_joinWith (by decide) hclose
    have hsame := takeWhile_body hfree more
    rw [hmore, takeWhile_body h] at hsame
    rw [hsame, readPlaceholder_eq_ok_iff.2 ⟨hnames, printed, hprinted, rfl⟩] at hread
    cases hread

/-- So many bytes in stands the opening of a placeholder that no text completes, behind a text that
can be read. -/
def BreaksAt (t : Text) (place : Nat) : Prop :=
  ∃ before after, t = before ++ '$' :: '(' :: after ∧ place = byteLength before ∧
    (∃ segments, ∀ offset, readFrom 0 offset before = .ok segments) ∧
    NoPlaceholder ('$' :: '(' :: after)

theorem breaksAt_zero (h : NoPlaceholder ('$' :: '(' :: t)) : BreaksAt ('$' :: '(' :: t) 0 :=
  ⟨[], t, rfl, rfl, ⟨[], fun _ => rfl⟩, h⟩

theorem BreaksAt.plain {c : Char} {place : Nat} (h : BreaksAt t place) (hplain : ¬ Opens c t) :
    BreaksAt (c :: t) (c.utf8Size + place) := by
  obtain ⟨before, after, rfl, rfl, ⟨segments, hbefore⟩, hnone⟩ := h
  have hfront : ¬ Opens c before := by
    rintro ⟨rfl, hparen⟩
    cases before with
    | nil => cases hparen
    | cons d before => exact hplain ⟨rfl, hparen⟩
  refine ⟨c :: before, after, rfl, rfl, ⟨consChar c segments, fun offset => ?_⟩, hnone⟩
  rw [readFrom_plain hfront, hbefore, Except.map]

theorem BreaksAt.placeholder {segment : Segment} {place : Nat} (h : BreaksAt t place)
    (hbody : ')' ∉ body) (hread : readPlaceholder body = .ok segment) :
    BreaksAt ('$' :: '(' :: (body ++ ')' :: t))
      (byteLength ('$' :: '(' :: (body ++ [')'])) + place) := by
  obtain ⟨before, after, rfl, rfl, ⟨segments, hbefore⟩, hnone⟩ := h
  refine ⟨'$' :: '(' :: (body ++ ')' :: before), after, ?_, ?_,
    ⟨segment :: segments, fun offset => ?_⟩, hnone⟩
  · simp only [List.cons_append, List.append_assoc]
  · simp only [byteLength_cons, byteLength_append, byteLength_nil]
    omega
  · simp only [readFrom_placeholder hbody, hread, hbefore, Except.map]

/-- If a template cannot be read, it breaks off at the offset. -/
theorem breaksAt_of_readFrom_error (t : Text) : ∀ {offset : Nat} {e : TemplateError},
    readFrom 0 offset t = .error e → ∃ place, e.offset = offset + place ∧ BreaksAt t place := by
  induction t using reading_cases with
  | nil =>
    intro offset e h
    cases h
  | plain c t hplain ih =>
    intro offset e h
    rw [readFrom_plain hplain, map_eq_error_iff] at h
    obtain ⟨place, hoffset, hbreaks⟩ := ih h
    exact ⟨_, by rw [hoffset, Nat.add_assoc], hbreaks.plain hplain⟩
  | placeholder body rest hbody ih =>
    intro offset e h
    rw [readFrom_placeholder hbody] at h
    cases hread : readPlaceholder body with
    | error fault =>
      rw [hread] at h
      obtain rfl := Except.error.inj h
      exact ⟨0, rfl, breaksAt_zero (noPlaceholder_fault hbody hread rest)⟩
    | ok segment =>
      simp only [hread, map_eq_error_iff] at h
      obtain ⟨place, hoffset, hbreaks⟩ := ih h
      exact ⟨_, by rw [hoffset, Nat.add_assoc], hbreaks.placeholder hbody hread⟩
  | unclosed t ht =>
    intro offset e h
    rw [readFrom_unclosed ht] at h
    obtain rfl := Except.error.inj h
    exact ⟨0, rfl, breaksAt_zero (noPlaceholder_unclosed ht)⟩

/-- A source is read as these pieces exactly if they are normal and the source is a way to write
them. Otherwise the offset is that of an opening that no text completes to a placeholder, behind a
text that can be read. -/
theorem ofSource_inverse_to_printing (source : Text) :
    (∀ template, ofSource source = .ok template ↔
      Normal template.segments ∧ Prints template.segments source) ∧
    ∀ e, ofSource source = .error e →
      ∃ before after, source = before ++ '$' :: '(' :: after ∧ e.offset = byteLength before ∧
        (∃ template, ofSource before = .ok template) ∧ NoPlaceholder ('$' :: '(' :: after) := by
  constructor
  · intro template
    rw [ofSource, map_eq_ok_iff, ← @readFrom_eq_ok_iff source 0]
    constructor
    · rintro ⟨segments, h, rfl⟩
      exact h
    · exact fun h => ⟨template.segments, h, rfl⟩
  · intro e h
    rw [ofSource, map_eq_error_iff] at h
    obtain ⟨_, hoffset, before, after, hsource, rfl, ⟨segments, hbefore⟩, hnone⟩ :=
      breaksAt_of_readFrom_error source h
    refine ⟨before, after, hsource, ?_, ⟨⟨segments⟩, ?_⟩, hnone⟩
    · rw [hoffset, Nat.zero_add]
    · rw [ofSource, hbefore, Except.map]

/-- A dollar sign directly in front of a placeholder is text, and offsets are in bytes. -/
theorem ofSource_inverse_to_printing_dollar :
    (ofSource "é$$( x |y)".toList = .ok ⟨[.text ['é', '$'], .capture ['x'] [['y']]]⟩ ∧
      Normal [.text ['é', '$'], .capture ['x'] [['y']]] ∧
      Prints [.text ['é', '$'], .capture ['x'] [['y']]] "é$$( x |y)".toList) ∧
    ofSource "é$(x)$(y".toList = .error ⟨6, .unterminated⟩ ∧
      ∃ before after, "é$(x)$(y".toList = before ++ '$' :: '(' :: after ∧ 6 = byteLength before ∧
        (∃ template, ofSource before = .ok template) ∧ NoPlaceholder ('$' :: '(' :: after) := by
  have hread : ofSource "é$$( x |y)".toList = .ok ⟨[.text ['é', '$'], .capture ['x'] [['y']]]⟩ := by
    decide +kernel
  have hfault : ofSource "é$(x)$(y".toList = .error ⟨6, .unterminated⟩ := by decide +kernel
  exact ⟨⟨hread, ((ofSource_inverse_to_printing _).1 _).1 hread⟩, hfault,
    (ofSource_inverse_to_printing _).2 _ hfault⟩

end Faults

end Template

end SourceMacros

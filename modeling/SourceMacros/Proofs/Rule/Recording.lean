import SourceMacros.Proofs.Rule.Parts

/-!
# What a match records

Not everything that takes part in a match is recorded. A chain takes over the entries of its parts,
and a list has none; so what stands in a list is lost if nothing but alternatives lies between the
list and the chain. The captures of separators are lost in any case, and so is that of a last round
which stands still. Apart from these, nothing is lost and nothing is made up: a name is found in a
capture exactly if some part with a label of this name is recorded (`find?_isSome_iff`).
-/

namespace SourceMacros

open TokenStream

/-! ## Finding a name -/

/-- One of the entries has the name, or holds it further inside. -/
def Entries.Holds (es : Entries) (name : Text) : Prop :=
  ∃ e ∈ es, e.1.name = name ∨ (e.2.find? name).isSome

theorem Entries.Holds.mono {name : Text} {es fs : Entries} (h : es.Holds name) (hsub : es ⊆ fs) :
    fs.Holds name := by
  obtain ⟨e, he, hname⟩ := h
  exact ⟨e, hsub he, hname⟩

namespace Capture

variable {name : Text}

theorem findInEntries?_isSome_iff {es : Entries} :
    (findInEntries? name es).isSome ↔ ∃ e ∈ es, (e.2.find? name).isSome := by
  induction es with
  | nil => simp [findInEntries?]
  | cons e es ih =>
    rw [findInEntries?]
    cases h : e.2.find? name with
    | none => simp [ih, h]
    | some c => simp [h]

theorem findInItems?_isSome_iff {cs : List Capture} :
    (findInItems? name cs).isSome ↔ ∃ c ∈ cs, (c.find? name).isSome := by
  induction cs with
  | nil => simp [findInItems?]
  | cons c cs ih =>
    rw [findInItems?]
    cases h : c.find? name with
    | none => simp [ih, h]
    | some c => simp [h]

/-- A name is found among the entries of a capture, below them, or in an item. -/
theorem find?_isSome_iff_holds (c : Capture) :
    (c.find? name).isSome ↔
      Entries.Holds c.entries name ∨ ∃ x ∈ c.items, (x.find? name).isSome := by
  cases c with
  | leaf ts => simp [find?, Entries.Holds, entries, items]
  | list ts cs => simp [find?, Entries.Holds, entries, items, findInItems?_isSome_iff]
  | tree ts es =>
    have hget : ((tree ts es).get? name).isSome ↔ ∃ e ∈ es, e.1.name = name := by
      simp [get?, entries, Label.isNamed]
    simp only [items, List.not_mem_nil, false_and, exists_false, or_false, Entries.Holds, entries]
    rw [find?]
    constructor
    · intro h
      cases hfound : (tree ts es).get? name with
      | some c =>
        obtain ⟨e, he, hname⟩ := hget.1 (by rw [hfound]; rfl)
        exact ⟨e, he, .inl hname⟩
      | none =>
        simp only [hfound] at h
        obtain ⟨e, he, hinner⟩ := findInEntries?_isSome_iff.1 h
        exact ⟨e, he, .inr hinner⟩
    · rintro ⟨e, he, hname | hinner⟩
      · obtain ⟨c, hfound⟩ := Option.isSome_iff_exists.1 (hget.2 ⟨e, he, hname⟩)
        rw [hfound]
        rfl
      · cases (tree ts es).get? name with
        | some c => rfl
        | none => exact findInEntries?_isSome_iff.2 ⟨e, he, hinner⟩

/-- Induction over a capture that does not tell its forms apart: what holds of a capture if it holds
of its entries and items holds of all captures. -/
theorem induct_parts {P : Capture → Prop}
    (step : ∀ c : Capture, (∀ e ∈ c.entries, P e.2) → (∀ x ∈ c.items, P x) → P c) (c : Capture) :
    P c := by
  refine @Capture.rec P (fun es => ∀ e ∈ es, P e.2) (fun cs => ∀ x ∈ cs, P x) (fun e => P e.2)
    ?_ ?_ ?_ ?_ ?_ ?_ ?_ ?_ c
  · intro ts
    exact step _ (List.forall_mem_nil _) (List.forall_mem_nil _)
  · intro ts es hes
    exact step _ hes (List.forall_mem_nil _)
  · intro ts cs hcs
    exact step _ (List.forall_mem_nil _) hcs
  · exact List.forall_mem_nil _
  · intro e es he hes
    exact List.forall_mem_cons.2 ⟨he, hes⟩
  · exact List.forall_mem_nil _
  · intro x cs hx hcs
    exact List.forall_mem_cons.2 ⟨hx, hcs⟩
  · intro l c hc
    exact hc

/-- A name is found exactly if an entry has it, at whatever depth. -/
theorem find?_isSome_iff_occurs (c : Capture) :
    (c.find? name).isSome ↔ ∃ d : Capture, d.OccursIn c ∧ ∃ e ∈ d.entries, e.1.name = name := by
  constructor
  · induction c using induct_parts with
    | step c hentries hitems =>
      intro h
      rcases c.find?_isSome_iff_holds.1 h with ⟨e, he, hname | hinner⟩ | ⟨x, hx, hinner⟩
      · exact ⟨c, .refl, e, he, hname⟩
      · obtain ⟨d, hd, hentry⟩ := hentries e he hinner
        exact ⟨d, .entry hd he, hentry⟩
      · obtain ⟨d, hd, hentry⟩ := hitems x hx hinner
        exact ⟨d, .item hd hx, hentry⟩
  · rintro ⟨d, hd, e, he, hname⟩
    induction hd with
    | refl => exact (find?_isSome_iff_holds _).2 (.inl ⟨e, he, .inl hname⟩)
    | entry _ hentry ih => exact (find?_isSome_iff_holds _).2 (.inl ⟨_, hentry, .inr ih⟩)
    | item _ hx ih => exact (find?_isSome_iff_holds _).2 (.inr ⟨_, hx, ih⟩)

end Capture

namespace Rule

/-- The steps lead to an item of a list through nothing but alternatives. -/
def leadsIntoList : List Step → Bool
  | .choice :: path => leadsIntoList path
  | .item :: _ => true
  | _ => false

/-- The steps lead into a separator, or into a list that is a part of a chain without a label
between the chain and the list. -/
def isDropped : List Step → Bool
  | [] => false
  | .separator :: _ => true
  | .part :: path => leadsIntoList path || isDropped path
  | _ :: path => isDropped path

variable {step : Step} {path : List Step} {rule child q : Rule} {s t u a : TokenStream}
  {c : Capture} {label : Label}

/-- A labelled part that is not dropped is found by its name. If the steps do not lead into a list,
it is even found through an entry, so that a chain around the rule has it too. -/
theorem TakesPart.find?_isSome (h : TakesPart (labelled label q) a path rule s) (hs : s.InRange)
    (hmatch : rule.parse s = .matched c t) (hidle : .idle ∉ path) (hkept : isDropped path = false) :
    (c.find? label.name).isSome ∧
      (leadsIntoList path = false → Entries.Holds c.entries label.name) := by
  have hentries : ∀ {c : Capture} {p : Prop}, Entries.Holds c.entries label.name →
      (c.find? label.name).isSome ∧ (p → Entries.Holds c.entries label.name) := fun hholds =>
    ⟨(Capture.find?_isSome_iff_holds _).2 (.inl hholds), fun _ => hholds⟩
  induction h generalizing c t with
  | self =>
    rw [parse] at hmatch
    obtain ⟨d, -, rfl⟩ := Parsed.map_eq_matched hmatch
    exact hentries ⟨_, List.mem_cons_self, .inl rfl⟩
  | @inside step path rule child s u hstep _ ih =>
    obtain ⟨d, v, hchild, -, hrecords⟩ := hstep.matched hs hmatch
    rw [List.mem_cons, not_or] at hidle
    obtain ⟨hnot, hidle'⟩ := hidle
    have hinner := ih (hstep.onward hs).inRange hchild hidle'
    cases step with
    | part =>
      -- A chain drops lists, but the way to the label leads into none.
      obtain ⟨hlist, hkept'⟩ := Bool.or_eq_false_iff.1 hkept
      exact hentries (((hinner hkept').2 hlist).mono hrecords)
    | choice =>
      cases hrecords
      exact hinner hkept
    | item =>
      -- The search goes through the items, although they are no entries.
      refine ⟨c.find?_isSome_iff_holds.2 (.inr ⟨d, hrecords, (hinner hkept).1⟩), ?_⟩
      rintro ⟨⟩
    | idle => exact absurd rfl hnot
    | separator => cases hkept
    | content =>
      obtain ⟨l, heq⟩ := hrecords
      refine hentries ?_
      rw [heq]
      exact ⟨_, List.mem_cons_self, .inr (hinner hkept).1⟩

/-- A part with a label of this name that is recorded in a match of the rule at `s`. -/
structure RecordedPart (name : Text) (rule : Rule) (s : TokenStream) (path : List Step) : Prop where
  exists_part : ∃ label q a, label.name = name ∧ TakesPart (labelled label q) a path rule s
  idle_not_mem : .idle ∉ path
  kept : isDropped path = false

/-- A recorded part of a rule is one of the rule around it, unless the step to it drops the
capture. -/
theorem RecordedPart.inside {name : Text} (h : RecordedPart name child u path)
    (hstep : Enters step rule s child u) (hidle : step ≠ .idle)
    (hkept : isDropped (step :: path) = false) : RecordedPart name rule s (step :: path) where
  exists_part := by
    obtain ⟨label, q, a, hname, hpart⟩ := h.exists_part
    exact ⟨label, q, a, hname, .inside hstep hpart⟩
  idle_not_mem := by
    rw [List.mem_cons, not_or]
    exact ⟨hidle.symm, h.idle_not_mem⟩
  kept := hkept

/-- What is found by a name was recorded under it. The induction is over the rule. -/
theorem exists_recordedPart {name : Text} (rule : Rule) (hs : s.InRange)
    (hmatch : rule.parse s = .matched c t) :
    ((c.find? name).isSome → ∃ path, RecordedPart name rule s path) ∧
      (Entries.Holds c.entries name →
        ∃ path, RecordedPart name rule s path ∧ leadsIntoList path = false) := by
  induction rule using induct_children generalizing s t c with
  | step rule ih =>
    obtain ⟨hentries, hitems⟩ := enters_of_matched hs hmatch
    have hholds : Entries.Holds c.entries name →
        ∃ path, RecordedPart name rule s path ∧ leadsIntoList path = false := by
      rintro ⟨e, he, hname⟩
      rcases hentries e he with ⟨child, rfl, hchild⟩ |
        ⟨step, child, u, d, v, hstep, henters, hchild, hd⟩
      · rcases hname with hname | hfound
        · exact ⟨[], ⟨⟨e.1, child, s, hname, .self⟩, List.not_mem_nil, rfl⟩, rfl⟩
        · obtain ⟨path, hpath⟩ := (ih child List.mem_cons_self hs hchild).1 hfound
          exact ⟨_, hpath.inside .content nofun hpath.kept, rfl⟩
      · have hu := (henters.onward hs).inRange
        obtain ⟨path, hpath, hlist⟩ := (ih child henters.mem_children hu hchild).2 ⟨e, hd, hname⟩
        rcases hstep with rfl | rfl
        · refine ⟨_, hpath.inside henters nofun ?_, rfl⟩
          rw [isDropped, hlist, hpath.kept, Bool.or_false]
        · exact ⟨_, hpath.inside henters nofun hpath.kept, hlist⟩
    refine ⟨fun hfound => ?_, hholds⟩
    rcases c.find?_isSome_iff_holds.1 hfound with hentry | ⟨x, hx, hinner⟩
    · obtain ⟨path, hpath, -⟩ := hholds hentry
      exact ⟨path, hpath⟩
    · rcases hitems x hx with ⟨child, u, v, henters, hchild⟩ | ⟨child, henters, hchild⟩
      · have hu := (henters.onward hs).inRange
        obtain ⟨path, hpath⟩ := (ih child henters.mem_children hu hchild).1 hinner
        exact ⟨_, hpath.inside henters nofun hpath.kept⟩
      · obtain ⟨path, hpath⟩ := (ih child henters.mem_children hs hchild).1 hfound
        exact ⟨_, hpath.inside henters nofun hpath.kept⟩

/-- In the capture of a match, a name is found exactly if a part with a label of this name is
recorded. -/
theorem find?_isSome_iff {name : Text} (hs : s.InRange) (hmatch : rule.parse s = .matched c t) :
    (c.find? name).isSome ↔ ∃ path, RecordedPart name rule s path := by
  constructor
  · exact (exists_recordedPart rule hs hmatch).1
  · rintro ⟨path, ⟨label, q, a, rfl, hpart⟩, hidle, hkept⟩
    exact (hpart.find?_isSome hs hmatch hidle hkept).1

end Rule

end SourceMacros

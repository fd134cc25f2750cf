import SourceMacros.Grammar
import SourceMacros.Proofs.Rule.Origins

/-!
# A name finds one entry

A grammar is checked once, on the labels of its rule, while the entries of a capture are put
together during a match: chains collect the entries of their parts, and an optional part or an
alternative may add to them or not. The two meet in the names. The names of a capture are among
those of the rule that gave it (`Gives.names_subset`), and a chain whose parts have no name in
common cannot collect one twice (`Gives.names_nodup`). Alternatives may share names, since only one
of them is taken.
-/

namespace SourceMacros

/-- The names of the entries, in order. -/
def Entries.names (es : Entries) : List Text :=
  es.map fun e => e.1.name

/-- The names of the entries of a capture. Only a tree has any. -/
def Capture.names (c : Capture) : List Text :=
  Entries.names c.entries

/-- The names of the labels that a rule contributes. -/
def Rule.names (rule : Rule) : List Text :=
  rule.labels.map Label.name

/-! ## The check of a grammar -/

/-- The search for a repeated name finds none if the names differ from each other and from those
seen before. -/
theorem firstRepeated_eq_none_iff {seen names : List Text} :
    firstRepeated seen names = none ↔ names.Nodup ∧ ∀ name ∈ names, name ∉ seen := by
  induction names generalizing seen with
  | nil => simp [firstRepeated]
  | cons name names ih =>
    by_cases h : name ∈ seen
    · simp [firstRepeated, h]
    · simp only [firstRepeated, List.contains_iff_mem, h, if_false, ih]
      constructor
      · rintro ⟨hnodup, hfresh⟩
        have hname : name ∉ names := fun hmem => hfresh name hmem List.mem_cons_self
        have hothers : ∀ other ∈ names, other ∉ seen := fun other hmem hseen =>
          hfresh other hmem (List.mem_cons_of_mem _ hseen)
        exact ⟨List.nodup_cons.2 ⟨hname, hnodup⟩, List.forall_mem_cons.2 ⟨h, hothers⟩⟩
      · rintro ⟨hnodup, hfresh⟩
        obtain ⟨hname, hrest⟩ := List.nodup_cons.1 hnodup
        refine ⟨hrest, fun other hmem hseen => ?_⟩
        rcases List.mem_cons.1 hseen with rfl | hold
        · exact hname hmem
        · exact hfresh other (List.mem_cons_of_mem _ hmem) hold

namespace Rule

theorem repeatedLabelIn?_eq_none_iff {rules : List Rule} :
    repeatedLabelIn? rules = none ↔ ∀ rule ∈ rules, rule.repeatedLabel? = none := by
  induction rules with
  | nil => simp [repeatedLabelIn?]
  | cons rule rules ih =>
    rw [List.forall_mem_cons, ← ih, repeatedLabelIn?]
    cases rule.repeatedLabel? with
    | none => simp
    | some name => simp

/-- A rule passes the check if its own labels have different names and the rules directly inside it
pass. -/
theorem repeatedLabel?_eq_none_iff (rule : Rule) :
    rule.repeatedLabel? = none ↔
      rule.names.Nodup ∧ ∀ q ∈ rule.children, q.repeatedLabel? = none := by
  have hlevel : ∀ {names : List Text}, firstRepeated [] names = none ↔ names.Nodup := by
    intro names
    simp [firstRepeated_eq_none_iff]
  cases rule with
  | chain rules =>
    rw [repeatedLabel?, names, ← hlevel, children, ← repeatedLabelIn?_eq_none_iff]
    cases firstRepeated [] ((chain rules).labels.map Label.name) <;> simp
  | either rules =>
    rw [repeatedLabel?, names, ← hlevel, children, ← repeatedLabelIn?_eq_none_iff]
    cases firstRepeated [] ((either rules).labels.map Label.name) <;> simp
  | optional rule =>
    rw [repeatedLabel?, names, labels, ← hlevel, children, List.forall_mem_singleton]
    cases firstRepeated [] (rule.labels.map Label.name) <;> simp
  | many rule => simp [repeatedLabel?, names, labels, children]
  | separated item separator =>
    simp only [repeatedLabel?, names, labels, children, List.map_nil, List.nodup_nil, true_and,
      List.forall_mem_cons]
    cases item.repeatedLabel? <;> simp
  | labelled label rule => simp [repeatedLabel?, names, labels, children]
  | any | token kind | lexeme text | block | qualifiedName | expression =>
    simp [repeatedLabel?, names, labels, children]

/-- The check reaches every rule inside the rule. -/
theorem repeatedLabel?_of_inside {r rule : Rule} (h : rule.repeatedLabel? = none)
    (hr : r.Inside rule) : r.repeatedLabel? = none := by
  induction hr with
  | refl => exact h
  | child _ hq ih => exact ih (((repeatedLabel?_eq_none_iff _).1 h).2 _ hq)

/-- A rule passes the check if no rule inside it contributes two labels of one name. -/
theorem repeatedLabel?_eq_none_iff_inside (rule : Rule) :
    rule.repeatedLabel? = none ↔ ∀ q : Rule, q.Inside rule → q.names.Nodup := by
  constructor
  · intro h q hq
    exact ((repeatedLabel?_eq_none_iff q).1 (repeatedLabel?_of_inside h hq)).1
  · intro h
    induction rule using induct_children with
    | step rule ih =>
      have hchildren : ∀ q ∈ rule.children, q.repeatedLabel? = none := fun q hq =>
        ih q hq fun r hr => h r (.child hr hq)
      exact (repeatedLabel?_eq_none_iff rule).2 ⟨h rule .refl, hchildren⟩

/-! ## Names of alternatives -/

/-- Leaving out labels whose name came before loses no name. -/
theorem mem_names_distinctNames {name : Text} {ls : List Label} :
    name ∈ (distinctNames ls).map Label.name ↔ name ∈ ls.map Label.name := by
  induction ls with
  | nil => simp [distinctNames]
  | cons l ls ih =>
    rw [distinctNames, List.map_cons, List.map_cons, List.mem_cons, List.mem_cons, ← ih]
    by_cases h : name = l.name
    · simp [h]
    · -- Filtering drops only labels with the name of `l`.
      simp only [h, false_or, List.mem_map, List.mem_filter, bne_iff_ne, ne_eq]
      constructor
      · rintro ⟨m, ⟨hm, -⟩, rfl⟩
        exact ⟨m, hm, rfl⟩
      · rintro ⟨m, hm, rfl⟩
        exact ⟨m, ⟨hm, h⟩, rfl⟩

theorem names_subset_labelsOfAll {rule : Rule} {rules : List Rule} (h : rule ∈ rules) :
    rule.names ⊆ (labelsOfAll rules).map Label.name := by
  induction rules with
  | nil => cases h
  | cons first rules ih =>
    rw [labelsOfAll, List.map_append]
    rcases List.mem_cons.1 h with rfl | hmem
    · exact List.subset_append_left _ _
    · exact List.subset_append_of_subset_right _ (ih hmem)

/-- Dropping labels of equal name loses no name. -/
theorem names_subset_either {rule : Rule} {rules : List Rule} (h : rule ∈ rules) :
    rule.names ⊆ (either rules).names := by
  intro name hname
  rw [names, labels, mem_names_distinctNames]
  exact names_subset_labelsOfAll h hname

end Rule

/-! ## Names of captures -/

@[simp]
theorem Entries.names_append (es fs : Entries) :
    Entries.names (es ++ fs) = Entries.names es ++ Entries.names fs :=
  List.map_append

mutual

/-- The entries of a capture have names that its rule announces. -/
theorem Gives.names_subset {rule : Rule} {c : Capture} : Gives rule c → c.names ⊆ rule.names
  | .chain h => h.names_subset
  | .either hmem h => List.Subset.trans h.names_subset (Rule.names_subset_either hmem)
  | .present h => h.names_subset
  | .labelled _ => List.Subset.refl _
  | .any | .token | .lexeme | .absent | .many _ | .separated _ | .block | .qualifiedName
  | .expression => List.nil_subset _

theorem GivesChain.names_subset {rules : List Rule} {entries : Entries} :
    GivesChain rules entries → Entries.names entries ⊆ (Rule.labelsOfAll rules).map Label.name
  | .nil => List.nil_subset _
  | .cons hfirst hrest => by
    rw [Entries.names_append, Rule.labelsOfAll, List.map_append]
    intro name hname
    rcases List.mem_append.1 hname with hmem | hmem
    · exact List.mem_append_left _ (hfirst.names_subset hmem)
    · exact List.mem_append_right _ (hrest.names_subset hmem)

end

mutual

/-- A capture of a checked rule has no name twice among its own entries. -/
theorem Gives.names_nodup {rule : Rule} {c : Capture} :
    Gives rule c → rule.repeatedLabel? = none → c.names.Nodup
  | .chain h, hrule => by
    obtain ⟨hlevel, hparts⟩ := (Rule.repeatedLabel?_eq_none_iff _).1 hrule
    exact h.names_nodup hlevel hparts
  | .either hmem h, hrule => h.names_nodup (((Rule.repeatedLabel?_eq_none_iff _).1 hrule).2 _ hmem)
  | .present h, hrule =>
    h.names_nodup (((Rule.repeatedLabel?_eq_none_iff _).1 hrule).2 _ (List.mem_singleton.2 rfl))
  | .labelled _, _ => List.nodup_cons.2 ⟨List.not_mem_nil, List.nodup_nil⟩
  | .any, _ | .token, _ | .lexeme, _ | .absent, _ | .many _, _ | .separated _, _ | .block, _
  | .qualifiedName, _ | .expression, _ => List.nodup_nil

/-- The parts of a chain whose labels have different names give entries of different names. -/
theorem GivesChain.names_nodup {rules : List Rule} {entries : Entries} :
    GivesChain rules entries → ((Rule.labelsOfAll rules).map Label.name).Nodup →
      (∀ rule ∈ rules, rule.repeatedLabel? = none) → (Entries.names entries).Nodup
  | .nil, _, _ => List.nodup_nil
  | .cons hfirst hrest, hlevel, hparts => by
    rw [Rule.labelsOfAll, List.map_append] at hlevel
    obtain ⟨-, hbehind, hapart⟩ := List.nodup_append.1 hlevel
    obtain ⟨hhead, htail⟩ := List.forall_mem_cons.1 hparts
    have hnames := hfirst.names_nodup hhead
    have hothers := hrest.names_nodup hbehind htail
    rw [Entries.names_append]
    -- The two runs of names are apart because the labels of the rules are.
    refine List.nodup_append.2 ⟨hnames, hothers, fun name hname other hother => ?_⟩
    exact hapart name (hfirst.names_subset hname) other (hrest.names_subset hother)

end

/-! ## Checked rules -/

/-- A grammar is made only of a rule in which no name is repeated. -/
theorem Grammar.repeatedLabel?_of_ofRule {rule : Rule} {g : Grammar} (h : ofRule rule = .ok g) :
    rule.repeatedLabel? = none := by
  unfold ofRule at h
  split at h
  · assumption
  · cases h

/-- The rule of a grammar passes the check again. -/
theorem Grammar.ofRule_rule (g : Grammar) : ofRule g.rule = .ok g := by
  unfold ofRule
  split
  · rfl
  · next hname =>
    rw [g.distinct] at hname
    cases hname

/-- A rule that passes the check of a grammar gives captures in which no node, at any depth, has two
entries of one name, whatever the stream it is run on. -/
theorem Grammar.no_name_twice_in_capture {rule : Rule} {g : Grammar}
    (hg : Grammar.ofRule rule = .ok g) {s t : TokenStream} {c d : Capture}
    (h : rule.parse s = .matched c t) (hd : d.OccursIn c) : d.names.Nodup := by
  have hchecked := repeatedLabel?_of_ofRule hg
  have hgives := Rule.gives_of_matched rule h
  obtain ⟨r, hr, hpart⟩ := hgives.occurrence_origin hd
  exact hpart.names_nodup (Rule.repeatedLabel?_of_inside hchecked hr)

/-- Two alternatives with labels that differ and have one name, in front of a list whose items have
an optional entry. Of `int $a=1`, the whole has a tree and so has the item. -/
theorem Grammar.no_name_twice_in_capture_item :
    ∃ (rule : Rule) (g : Grammar) (s t : TokenStream) (c d : Capture),
      Grammar.ofRule rule = .ok g ∧ rule.parse s = .matched c t ∧ d.OccursIn c ∧
      c.names = ["argumentType".toList, "names".toList] ∧ c.names.Nodup ∧
      d.names = ["name".toList, "value".toList] ∧ d.names.Nodup := by
  obtain ⟨rule, g, s, t, c, e, d, hg, h, he, hitem, hnames, hinner⟩ :
      ∃ (rule : Rule) (g : Grammar) (s t : TokenStream) (c : Capture) (e : Label × Capture)
        (d : Capture), Grammar.ofRule rule = .ok g ∧ rule.parse s = .matched c t ∧
        c.entries[1]? = some e ∧ e.2.items = [d] ∧
        c.names = ["argumentType".toList, "names".toList] ∧
        d.names = ["name".toList, "value".toList] :=
    ⟨.chain [
        .either [.labelled ⟨"argument".toList, ["type".toList]⟩ (.token .identifier),
          .labelled (.ofText "argumentType".toList) (.token .number)],
        .optional (.labelled (.ofText "names".toList) (.separated
          (.chain [.labelled (.ofText "name".toList) (.token .variableName),
            .optional (.chain [.lexeme ['='],
              .labelled (.ofText "value".toList) (.token .number)])])
          (.lexeme [','])))],
      _, .ofTokens [.synthetic .identifier "int".toList, .synthetic .whitespace [' '],
        .synthetic .variableName "$a".toList, .synthetic .punctuation ['='],
        .synthetic .number ['1']],
      _, _, _, _, rfl, rfl, rfl, rfl, rfl, rfl⟩
  have hoccurs : d.OccursIn c := by
    have hd : d.OccursIn e.2 := .item .refl (hitem ▸ List.mem_singleton.2 rfl)
    exact .entry hd (List.mem_of_getElem? he)
  have hwhole := no_name_twice_in_capture hg h .refl
  have hpart := no_name_twice_in_capture hg h hoccurs
  exact ⟨rule, g, s, t, c, d, hg, h, hoccurs, hnames, hwhole, hinner, hpart⟩

end SourceMacros

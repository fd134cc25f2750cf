import Mathlib.Data.List.Nodup
import SourceMacros.Grammar
import SourceMacros.Proofs.Rule.Origins

/-!
# The labels of a rule

A grammar lists the labels of its rule by going through it level by level: first what a rule
contributes to its own level, then what is inside it, and each label once. The list holds the labels
that stand somewhere in the rule and nothing else (`mem_collectLabels_iff`). Alternatives with
labels of one name contribute one of them to their level, and the others turn up below.
-/

namespace SourceMacros

namespace Rule

/-! ## Labels inside a rule -/

/-- The label stands on a rule inside the rule, at any depth. -/
def HasLabel (rule : Rule) (l : Label) : Prop :=
  ∃ r, (labelled l r).Inside rule

variable {l : Label} {rule : Rule} {rules : List Rule}

/-- A label stands in a rule if the rule itself is labelled so, or a rule directly inside it has the
label. -/
theorem hasLabel_iff :
    rule.HasLabel l ↔ (∃ r, labelled l r = rule) ∨ ∃ q ∈ rule.children, q.HasLabel l := by
  constructor
  · rintro ⟨r, hr⟩
    rcases inside_iff.1 hr with heq | ⟨q, hq, hinside⟩
    · exact .inl ⟨r, heq⟩
    · exact .inr ⟨q, hq, r, hinside⟩
  · rintro (⟨r, heq⟩ | ⟨q, hq, r, hinside⟩)
    · exact ⟨r, inside_iff.2 (.inl heq)⟩
    · exact ⟨r, .child hinside hq⟩

theorem HasLabel.of_child {child : Rule} (h : child.HasLabel l) (hchild : child ∈ rule.children) :
    rule.HasLabel l :=
  hasLabel_iff.2 (.inr ⟨child, hchild, h⟩)

/-- The label of a labelled rule. -/
def ownLabel? : Rule → Option Label
  | labelled label _ => some label
  | _ => none

/-- The labels that stand in the rule, one by one. -/
theorem hasLabel_iff_mem : rule.HasLabel l ↔ l ∈ rule.rulesWithin.filterMap ownLabel? := by
  rw [List.mem_filterMap]
  constructor
  · rintro ⟨r, hr⟩
    exact ⟨_, (mem_rulesWithin_iff rule).2 hr, rfl⟩
  · rintro ⟨q, hq, hlabel⟩
    cases q with
    | labelled label r =>
      cases hlabel
      exact ⟨r, (mem_rulesWithin_iff rule).1 hq⟩
    | _ => cases hlabel

/-! ## The labels of one level -/

theorem mem_of_mem_distinctNames {ls : List Label} (h : l ∈ distinctNames ls) : l ∈ ls := by
  induction ls with
  | nil => exact h
  | cons first ls ih =>
    rcases List.mem_cons.1 h with rfl | hrest
    · exact List.mem_cons_self
    · exact List.mem_cons_of_mem _ (ih (List.mem_of_mem_filter hrest))

theorem mem_labelsOfAll : l ∈ labelsOfAll rules ↔ ∃ rule ∈ rules, l ∈ rule.labels := by
  induction rules with
  | nil => simp [labelsOfAll]
  | cons rule rules ih => simp [labelsOfAll, ih]

/-- What a rule contributes to its level stands in it. -/
theorem hasLabel_of_mem_labels (h : l ∈ rule.labels) : rule.HasLabel l := by
  induction rule with
  | chain rules ih =>
    obtain ⟨rule, hrule, hl⟩ := mem_labelsOfAll.1 h
    exact (ih rule hrule hl).of_child hrule
  | either rules ih =>
    obtain ⟨rule, hrule, hl⟩ := mem_labelsOfAll.1 (mem_of_mem_distinctNames h)
    exact (ih rule hrule hl).of_child hrule
  | optional rule ih => exact (ih h).of_child List.mem_cons_self
  | labelled label rule _ =>
    rw [List.mem_singleton.1 h]
    exact ⟨rule, .refl⟩
  | any | token | lexeme | many | separated | block | qualifiedName | expression => cases h

/-! ## All labels -/

theorem mem_addLabels {seen ls : List Label} : l ∈ addLabels seen ls ↔ l ∈ seen ∨ l ∈ ls := by
  induction ls generalizing seen with
  | nil => simp [addLabels]
  | cons first ls ih =>
    rw [addLabels, ih, List.mem_cons]
    by_cases h : first ∈ seen
    · simp only [List.contains_iff_mem, h, if_true]
      constructor
      · exact fun hl => hl.imp_right .inr
      · rintro (hl | rfl | hl)
        · exact .inl hl
        · exact .inl h
        · exact .inr hl
    · simp [h, or_assoc]

/-- Labels that stand in a rule anyhow need not be added first. -/
theorem mem_addLabels_or {seen ls : List Label} {p : Prop} (h : l ∈ ls → p) :
    (l ∈ addLabels seen ls ∨ p) ↔ l ∈ seen ∨ p := by
  rw [mem_addLabels, or_assoc, or_iff_right_of_imp h]

theorem mem_collectLabelsOfAll_iff
    (hrules : ∀ rule ∈ rules, ∀ seen, l ∈ rule.collectLabels seen ↔ l ∈ seen ∨ rule.HasLabel l)
    {seen : List Label} :
    l ∈ collectLabelsOfAll seen rules ↔ l ∈ seen ∨ ∃ rule ∈ rules, rule.HasLabel l := by
  induction rules generalizing seen with
  | nil => simp [collectLabelsOfAll]
  | cons rule rules ih =>
    have hrest := @ih (fun r hr => hrules r (List.mem_cons_of_mem _ hr)) (rule.collectLabels seen)
    rw [collectLabelsOfAll, hrest, hrules rule List.mem_cons_self]
    simp [or_assoc]

/-- The labels that are collected from a rule are those that stand in it. -/
theorem mem_collectLabels_iff (rule : Rule) (seen : List Label) :
    l ∈ rule.collectLabels seen ↔ l ∈ seen ∨ rule.HasLabel l := by
  induction rule generalizing seen with
  | chain rules ih =>
    have hchain : (chain rules).HasLabel l ↔ ∃ rule ∈ rules, rule.HasLabel l := by
      rw [hasLabel_iff]
      simp [children]
    rw [collectLabels, mem_collectLabelsOfAll_iff ih, ← hchain]
    exact mem_addLabels_or hasLabel_of_mem_labels
  | either rules ih =>
    have heither : (either rules).HasLabel l ↔ ∃ rule ∈ rules, rule.HasLabel l := by
      rw [hasLabel_iff]
      simp [children]
    rw [collectLabels, mem_collectLabelsOfAll_iff ih, ← heither]
    exact mem_addLabels_or hasLabel_of_mem_labels
  | optional rule ih =>
    rw [collectLabels, ih, mem_addLabels_or hasLabel_of_mem_labels, @hasLabel_iff _ (optional rule)]
    simp [children]
  | many rule ih =>
    rw [collectLabels, ih, @hasLabel_iff _ (many rule)]
    simp [children]
  | separated item separator ihItem ihSeparator =>
    rw [collectLabels, ihSeparator, ihItem, @hasLabel_iff _ (separated item separator)]
    simp [children, or_assoc]
  | labelled label rule ih =>
    rw [collectLabels, ih, mem_addLabels, @hasLabel_iff _ (labelled label rule)]
    simp [children, or_assoc, eq_comm]
  | any | token | lexeme | block | qualifiedName | expression =>
    rw [hasLabel_iff]
    simp [collectLabels, children]

/-! ## Each label once -/

theorem nodup_addLabels {seen ls : List Label} (h : seen.Nodup) : (addLabels seen ls).Nodup := by
  induction ls generalizing seen with
  | nil => exact h
  | cons l ls ih =>
    rw [addLabels]
    refine ih ?_
    split
    · exact h
    · next hnew =>
      rw [List.contains_iff_mem] at hnew
      rw [← List.concat_eq_append]
      exact List.Nodup.concat hnew h

theorem nodup_collectLabelsOfAll {rules : List Rule}
    (hrules : ∀ rule ∈ rules, ∀ {seen : List Label}, seen.Nodup → (rule.collectLabels seen).Nodup)
    {seen : List Label} (h : seen.Nodup) : (collectLabelsOfAll seen rules).Nodup := by
  induction rules generalizing seen with
  | nil => exact h
  | cons rule rules ih =>
    obtain ⟨hrule, hothers⟩ := List.forall_mem_cons.1 hrules
    exact ih hothers (hrule h)

/-- Collecting the labels of a rule adds no label twice. -/
theorem nodup_collectLabels (rule : Rule) {seen : List Label} (h : seen.Nodup) :
    (rule.collectLabels seen).Nodup := by
  induction rule generalizing seen with
  | chain rules ih | either rules ih => exact nodup_collectLabelsOfAll ih (nodup_addLabels h)
  | optional rule ih | labelled label rule ih => exact ih (nodup_addLabels h)
  | many rule ih => exact ih h
  | separated item separator ihItem ihSeparator => exact ihSeparator (ihItem h)
  | any | token | lexeme | block | qualifiedName | expression => exact h

/-! ## The labels of captures -/

/-- Whatever label stands in a capture, at any depth, stands in the rule that gave it. -/
theorem hasLabel_of_occurs {rule : Rule} {s t : TokenStream} {c d : Capture} {e : Label × Capture}
    (h : rule.parse s = .matched c t) (hd : d.OccursIn c) (he : e ∈ d.entries) :
    rule.HasLabel e.1 := by
  obtain ⟨q, hq, hgives⟩ := (gives_of_matched rule h).occurrence_origin hd
  obtain ⟨r, hr, -⟩ := hgives.entry_origin e he
  exact ⟨r, hr.trans hq⟩

end Rule

end SourceMacros

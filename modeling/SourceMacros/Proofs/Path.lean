import Mathlib.Data.List.DropRight
import SourceMacros.Path
import SourceMacros.Proofs.Text.Splitting

/-!
# Paths by their parts

A path is its parts with slashes between them (`Path.ofParts_parts`). Where it starts and whether it
is empty is seen from them, and so is what the operations on paths do. Where the last part is a
name, a new extension changes this part alone, and it does not make it void
(`Path.withExtension_parts`). The parent of the path has the same parts in front of the name, up to
void ones (`Path.exists_parent?`).
-/

namespace SourceMacros

open Text

namespace Path

variable {p : Path} {front ps : List Text} {first name ext : Text}

/-! ## Parts -/

theorem ofParts_parts (p : Path) : ofParts p.parts = p := by
  rw [ofParts, parts, joinWith_splitWhere]

theorem slash_not_mem_of_mem_parts {part : Text} (h : part ∈ p.parts) : '/' ∉ part := by
  intro hmem
  have hslash := of_mem_splitWhere h '/' hmem
  rw [beq_self_eq_true] at hslash
  cases hslash

theorem parts_ofParts (hne : ps ≠ []) (h : ∀ part ∈ ps, '/' ∉ part) : (ofParts ps).parts = ps :=
  splitWhere_joinWith hne h

theorem eq_of_parts_eq {q : Path} (h : p.parts = q.parts) : p = q := by
  rw [← ofParts_parts p, h, ofParts_parts]

theorem text_isEmpty_of_parts (h : p.parts = first :: ps) :
    p.text.isEmpty = (first.isEmpty && ps.isEmpty) := by
  rw [← ofParts_parts p, h, ofParts]
  cases ps with
  | nil => simp [joinWith]
  | cons part ps => simp [joinWith]

theorem isAbsolute_of_parts (h : p.parts = first :: ps) :
    p.isAbsolute = (first.isEmpty && !ps.isEmpty) := by
  have hslash : '/' ∉ first := slash_not_mem_of_mem_parts (h ▸ List.mem_cons_self)
  rw [← ofParts_parts p, h, isAbsolute, ofParts]
  cases first with
  | nil => cases ps <;> simp [joinWith]
  | cons c first =>
    have hc : c ≠ '/' := fun heq => hslash (heq ▸ List.mem_cons_self)
    cases ps <;> simp [joinWith, hc]

theorem isAbsolute_eq_of_concat {q : Path} {other : Text} (hp : p.parts = front ++ [name])
    (hq : q.parts = front ++ [other]) : q.isAbsolute = p.isAbsolute := by
  cases front with
  | nil => simp [isAbsolute_of_parts hp, isAbsolute_of_parts hq]
  | cons first front =>
    rw [List.cons_append] at hp hq
    have hne (part : Text) : (front ++ [part]).isEmpty = false := by simp
    rw [isAbsolute_of_parts hp, isAbsolute_of_parts hq, hne, hne]

/-! ## Void parts -/

/-- The parts that mean something. -/
def names (ps : List Text) : List Text :=
  ps.filter (!isVoid ·)

theorem names_append (ps qs : List Text) : names (ps ++ qs) = names ps ++ names qs :=
  List.filter_append ps qs

theorem names_cons (first : Text) (ps : List Text) :
    names (first :: ps) = names [first] ++ names ps :=
  names_append [first] ps

theorem names_dropVoid (ps : List Text) : names (dropVoid ps) = names ps := by
  have hsplit : dropVoid ps ++ ps.rtakeWhile isVoid = ps := List.rdropWhile_append_rtakeWhile
  have hvoid : names (ps.rtakeWhile isVoid) = [] := by
    refine List.filter_eq_nil_iff.2 fun part hpart => ?_
    rw [List.mem_rtakeWhile_imp hpart]
    exact Bool.false_ne_true
  conv => rhs; rw [← hsplit, names_append, hvoid, List.append_nil]

theorem dropVoid_concat (hname : isVoid name = false) : dropVoid (ps ++ [name]) = ps ++ [name] :=
  List.rdropWhile_concat_neg _ _ _ (by simp [hname])

theorem isVoid_of_two_le (h : 2 ≤ name.length) : isVoid name = false := by
  rcases name with _ | ⟨c, _ | ⟨d, name⟩⟩
  · cases h
  · exact absurd h (by simp)
  · simp [isVoid, dot]

theorem text_isEmpty_of_concat (h : p.parts = front ++ [name]) (hname : isVoid name = false) :
    p.text.isEmpty = false := by
  cases front with
  | nil =>
    have hne : name.isEmpty = false := (Bool.or_eq_false_iff.1 hname).1
    rw [text_isEmpty_of_parts h, hne, Bool.false_and]
  | cons first front =>
    rw [List.cons_append] at h
    have hne : (front ++ [name]).isEmpty = false := by simp
    rw [text_isEmpty_of_parts h, hne, Bool.and_false]

/-! ## The last part -/

theorem fileName?_of_parts (h : p.parts = front ++ [name]) (hname : isVoid name = false) :
    p.fileName? = if name == dotDot then none else some (front, name) := by
  unfold fileName?
  rw [h]
  cases front with
  | nil => simp [dropVoid, hname]
  | cons first front =>
    simp only [List.cons_append, dropVoid_concat hname]
    cases hlist : front ++ [name] with
    | nil => simp at hlist
    | cons part ps =>
      simp only [← hlist, List.getLast?_concat, List.dropLast_concat]

theorem dropVoid_subset (ps : List Text) : dropVoid ps ⊆ ps :=
  (List.rdropWhile_prefix isVoid (l := ps)).subset

/-- The parent of a path that ends in a name is the empty path, or it starts where the path does and
means the same as the parts in front of the name. -/
theorem exists_parent? (h : p.parts = front ++ [name]) (hname : isVoid name = false) :
    ∃ q, p.parent? = some q ∧ (q.text.isEmpty = true ∨
      q.text.isEmpty = false ∧ q.isAbsolute = p.isAbsolute ∧ names q.parts = names front) := by
  have hslash : ∀ part ∈ front, '/' ∉ part := fun part hpart =>
    slash_not_mem_of_mem_parts (h ▸ List.mem_append_left _ hpart)
  unfold parent?
  rw [h]
  cases front with
  | nil =>
    have hne : name.isEmpty = false := (Bool.or_eq_false_iff.1 hname).1
    exact ⟨⟨[]⟩, by simp [dropVoid, hne], .inl rfl⟩
  | cons first front =>
    rw [List.forall_mem_cons] at hslash
    have habsolute : p.isAbsolute = first.isEmpty := by
      rw [isAbsolute_of_parts h]
      simp
    have hnames : names (first :: dropVoid front) = names (first :: front) := by
      rw [names_cons, names_dropVoid, ← names_cons]
    have hlast : (front ++ [name]).dropLast = front := List.dropLast_concat
    simp only [List.cons_append, dropVoid_concat hname]
    cases hlist : front ++ [name] with
    | nil => simp at hlist
    | cons part ps =>
      simp only [← hlist, hlast]
      cases habove : dropVoid front with
      | cons above aboves =>
        have hparts : (ofParts (first :: dropVoid front)).parts = first :: dropVoid front :=
          parts_ofParts (List.cons_ne_nil _ _) (List.forall_mem_cons.2
            ⟨hslash.1, fun part hpart => hslash.2 part (dropVoid_subset front hpart)⟩)
        rw [habove] at hparts hnames
        refine ⟨_, rfl, .inr ⟨?_, ?_, ?_⟩⟩
        · rw [text_isEmpty_of_parts hparts]
          simp
        · rw [isAbsolute_of_parts hparts, habsolute]
          simp
        · rw [hparts, hnames]
      | nil =>
        -- All that is left is the first part, which is the root if it is empty.
        rw [habove] at hnames
        cases first with
        | nil => exact ⟨_, rfl, .inr ⟨rfl, habsolute.symm, hnames⟩⟩
        | cons c first =>
          have hparts : (Path.mk (c :: first)).parts = [c :: first] :=
            parts_ofParts (List.cons_ne_nil _ _) (List.forall_mem_singleton.2 hslash.1)
          refine ⟨_, rfl, .inr ⟨rfl, ?_, ?_⟩⟩
          · rw [habsolute]
            exact isAbsolute_of_parts hparts
          · simp only [List.isEmpty_cons, Bool.false_eq_true, if_false, hparts, hnames]

example : (Path.mk "a/./b".toList).parent? = some ⟨['a']⟩ := by
  decide

/-! ## Extensions -/

/-- A name is its stem, or its stem with a dot and the extension behind it. -/
theorem stem_cases (name : Text) :
    (stem name = name ∧ extension name = []) ∨
    (stem name ≠ [] ∧ '.' ∉ extension name ∧ name = stem name ++ '.' :: extension name) := by
  have hsplit := name.reverse.takeWhile_append_dropWhile (p := (· ≠ '.'))
  have hplain (h : stem name = name) : stem name = name ∧ extension name = [] := by
    rw [extension, h, List.drop_length, List.drop_nil]
    exact ⟨rfl, rfl⟩
  have hbehind {u v : Text} (h : name = u ++ '.' :: v) : (name.drop u.length).drop 1 = v := by
    rw [h, List.drop_left, List.drop_one, List.tail_cons]
  cases hrest : name.reverse.dropWhile (· ≠ '.') with
  | nil => exact .inl (hplain (by rw [stem, hrest, List.tail_nil]))
  | cons d front =>
    have hd : d = '.' := by
      have hnot := List.head?_dropWhile_not (· ≠ '.') name.reverse
      rw [hrest] at hnot
      simpa using hnot
    cases front with
    | nil => exact .inl (hplain (by rw [stem, hrest, List.tail_cons]))
    | cons c front =>
      have hstem : stem name = (c :: front).reverse := by rw [stem, hrest, List.tail_cons]
      have hname : name = stem name ++ '.' :: (name.reverse.takeWhile (· ≠ '.')).reverse := by
        have hreverse := congrArg List.reverse hsplit
        rw [hrest, hd, List.reverse_append, List.reverse_cons, List.reverse_reverse, ← hstem,
          List.append_assoc, List.singleton_append] at hreverse
        exact hreverse.symm
      have hextension : extension name = (name.reverse.takeWhile (· ≠ '.')).reverse := hbehind hname
      refine .inr ⟨?_, ?_, ?_⟩
      · rw [hstem]
        simp
      · rw [hextension, List.mem_reverse]
        intro hmem
        have hdot := List.mem_takeWhile_imp hmem
        simp at hdot
      · rw [hextension]
        exact hname

/-- A dot at the end of a name has no extension behind it. -/
theorem extension_concat_dot (t : Text) : extension (t ++ ['.']) = [] := by
  rcases stem_cases (t ++ ['.']) with ⟨-, hnone⟩ | ⟨-, hdot, hsplit⟩
  · exact hnone
  · rcases List.eq_nil_or_concat' (extension (t ++ ['.'])) with hnil | ⟨u, c, hconcat⟩
    · exact hnil
    · rw [hconcat] at hsplit hdot
      have hsame : t ++ ['.'] = (stem (t ++ ['.']) ++ '.' :: u) ++ [c] := by
        rw [List.append_assoc, List.cons_append]
        exact hsplit
      have hlast : ['.'] = [c] := (List.append_inj' hsame rfl).2
      rw [← hlast] at hdot
      exact absurd (List.mem_append_right u List.mem_cons_self) hdot

/-- Without its extension a name keeps the dot in front of it, and has no extension any more. -/
theorem exists_withoutExtension (hname : isVoid name = false) :
    ∃ kept, name = kept ++ extension name ∧ isVoid kept = false ∧ extension kept = [] := by
  rcases stem_cases name with ⟨-, hnone⟩ | ⟨hstem, -, hsplit⟩
  · exact ⟨name, by rw [hnone, List.append_nil], hname, hnone⟩
  · refine ⟨stem name ++ ['.'], ?_, ?_, extension_concat_dot _⟩
    · rw [List.append_assoc, List.singleton_append]
      exact hsplit
    · have hpos := List.length_pos_iff.2 hstem
      exact isVoid_of_two_le (by simp; omega)

/-- What stands in front of the last part of a path does not depend on this part. -/
theorem exists_joinWith_concat (front : List Text) :
    ∃ lead : Text, ∀ part, joinWith ['/'] (front ++ [part]) = lead ++ part := by
  induction front with
  | nil => exact ⟨[], fun part => rfl⟩
  | cons first front ih =>
    obtain ⟨lead, hlead⟩ := ih
    refine ⟨first ++ ['/'] ++ lead, fun part => ?_⟩
    cases hlist : front ++ [part] with
    | nil => simp at hlist
    | cons next rest =>
      rw [List.cons_append, hlist, joinWith, ← hlist, hlead, List.append_assoc _ lead]

/-- Cutting the extension off a path changes its last part alone. -/
theorem cutExtension_parts (h : p.parts = front ++ [name]) (hname : isVoid name = false)
    (hup : name ≠ dotDot) {kept : Text} (hkept : name = kept ++ extension name) :
    p.cutExtension.parts = front ++ [kept] := by
  have hslash : ∀ part ∈ front ++ [name], '/' ∉ part := fun part hpart =>
    slash_not_mem_of_mem_parts (h ▸ hpart)
  have hcut : p.cutExtension = ofParts (front ++ [kept]) := by
    obtain ⟨lead, hlead⟩ := exists_joinWith_concat front
    have htext : p.text = lead ++ kept ++ extension name := by
      rw [← ofParts_parts p, h, ofParts, hlead, List.append_assoc, ← hkept]
    rw [cutExtension, fileName?_of_parts h hname, if_neg (by simp [hup]), ofParts, hlead]
    have hlength : p.text.length - (extension name).length = (lead ++ kept).length := by
      rw [htext, List.length_append, Nat.add_sub_cancel]
    simp only [hlength]
    rw [htext, List.take_left]
  rw [hcut, parts_ofParts (by simp)]
  rw [List.forall_mem_append, List.forall_mem_singleton] at hslash ⊢
  refine ⟨hslash.1, fun hmem => hslash.2 ?_⟩
  rw [hkept]
  exact List.mem_append_left _ hmem

theorem stem_subset (name : Text) : stem name ⊆ name := by
  rcases stem_cases name with ⟨hstem, -⟩ | ⟨-, -, hsplit⟩
  · rw [hstem]
    exact List.Subset.refl name
  · conv => rhs; rw [hsplit]
    exact List.subset_append_left _ _

/-- A name without an extension does not become void by getting one, and neither does its stem. -/
theorem isVoid_stem_append (hname : isVoid name = false) (hup : name ≠ dotDot)
    (hnone : extension name = []) (ext : Text) :
    isVoid (stem name ++ if ext.isEmpty then [] else '.' :: ext) = false := by
  have hstem : isVoid (stem name) = false := by
    rcases stem_cases name with ⟨heq, -⟩ | ⟨hne, -, hsplit⟩
    · rw [heq, hname]
    · have hdot : stem name ≠ dot := by
        intro hdot
        refine hup ?_
        rw [hsplit, hnone, hdot]
        rfl
      exact Bool.or_eq_false_iff.2 ⟨List.isEmpty_eq_false_iff.2 hne, beq_false_of_ne hdot⟩
  cases ext with
  | nil => simpa using hstem
  | cons c ext =>
    have hne : stem name ≠ [] := List.isEmpty_eq_false_iff.1 (Bool.or_eq_false_iff.1 hstem).1
    have hpos := List.length_pos_iff.2 hne
    exact isVoid_of_two_le (by simp; omega)

/-- A path that ends in a name has a last part with a meaning under another extension too, and
nothing in front of it has changed. -/
theorem withExtension_parts (h : p.parts = front ++ [name]) (hname : isVoid name = false)
    (hup : name ≠ dotDot) (hext : '/' ∉ ext) :
    ∃ other, isVoid other = false ∧ (p.withExtension ext).parts = front ++ [other] := by
  obtain ⟨kept, hkept, hvoid, hnone⟩ := exists_withoutExtension hname
  have hcut := cutExtension_parts h hname hup hkept
  have hslash : ∀ part ∈ front ++ [kept], '/' ∉ part := fun part hpart =>
    slash_not_mem_of_mem_parts (hcut ▸ hpart)
  rw [withExtension, replaceExtension, mapFileName, fileName?_of_parts hcut hvoid]
  by_cases hdots : kept = dotDot
  · exact ⟨kept, hvoid, by simp [hdots, hcut]⟩
  · rw [if_neg (by simp [hdots])]
    refine ⟨_, isVoid_stem_append hvoid hdots hnone ext, parts_ofParts (by simp) ?_⟩
    rw [List.forall_mem_append, List.forall_mem_singleton] at hslash ⊢
    refine ⟨hslash.1, fun hmem => ?_⟩
    rcases List.mem_append.1 hmem with hmem | hmem
    · exact hslash.2 (stem_subset kept hmem)
    · split at hmem
      · cases hmem
      · exact hext ((List.mem_cons.1 hmem).resolve_left (by decide))

/-- Without the dot in front of it, the extension of `..a` leaves a name that means the directory
above. Such a name gets no extension. -/
example : ((Path.mk "d/..a".toList).withExtension "php".toList).text = "d/..".toList := by
  decide

end Path

end SourceMacros

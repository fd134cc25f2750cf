import Mathlib.Data.List.Infix
import SourceMacros.FileSystem
import SourceMacros.Proofs.Path

/-!
# Following paths through a file system

A path is followed through directories only, so what stands at a place that is no directory has no
say in where other paths lead (`FileSystem.follow_put`). The places above one that a path leads to
are directories (`FileSystem.Grounded`). A path to a file therefore ends in the name of that file,
in a directory that the parts in front lead to (`FileSystem.exists_name_of_find`), and the directory
is there already when the file or a neighbour is written
(`FileSystem.makeDirectories_of_directory`).
-/

namespace SourceMacros

open SourceMacros.Path

namespace FileSystem

variable {fs fs' : FileSystem} {l m n : Location} {p q : Path} {ps front : List Text}
  {part name t : Text} {e : Entry}

/-! ## What stands where -/

theorem lookup_filter_of_ne {entries : List (Location × Entry)} (hne : m ≠ l) :
    (entries.filter (·.1 != l)).lookup m = entries.lookup m := by
  induction entries with
  | nil => rfl
  | cons entry entries ih =>
    obtain ⟨k, e⟩ := entry
    by_cases hk : k = l
    · have hother : (m == k) = false := beq_false_of_ne (hk ▸ hne)
      simp [hk, ih, List.lookup_cons, hk ▸ hother]
    · simp [hk, ih, List.lookup_cons]

theorem entryAt_put_of_ne (hne : m ≠ l) : (fs.put l e).entryAt m = fs.entryAt m := by
  have hother : (m == l) = false := beq_false_of_ne hne
  simp only [entryAt, put, List.lookup_cons, hother, lookup_filter_of_ne hne]

/-- What is put in a place is there, unless a directory is in the way. -/
theorem entryAt_put (h : fs.entryAt l ≠ some .directory) : (fs.put l e).entryAt l = some e := by
  have hinside : ¬ l <+: fs.workingDirectory := fun hprefix => h (if_pos hprefix)
  simp only [entryAt, put, if_neg hinside, List.lookup_cons, beq_self_eq_true]

theorem requireDirectory_eq_ok_iff :
    fs.requireDirectory l = .ok () ↔ fs.entryAt l = some .directory := by
  unfold requireDirectory
  cases fs.entryAt l with
  | none => simp
  | some e => cases e <;> simp

/-! ## Following parts -/

theorem follow_cons_eq_ok_iff : fs.follow l (part :: ps) = .ok m ↔
    fs.entryAt l = some .directory ∧ fs.follow (step l part) ps = .ok m := by
  rw [follow, ← requireDirectory_eq_ok_iff]
  cases fs.requireDirectory l <;> simp

theorem follow_nil_eq_ok_iff : fs.follow l [] = .ok m ↔ l = m := by
  rw [follow, Except.ok.injEq]

theorem follow_append_eq_ok_iff {qs : List Text} : fs.follow l (ps ++ qs) = .ok m ↔
    ∃ n, fs.follow l ps = .ok n ∧ fs.follow n qs = .ok m := by
  induction ps generalizing l with
  | nil => simp [follow]
  | cons part ps ih =>
    simp only [List.cons_append, follow_cons_eq_ok_iff, ih, and_assoc, exists_and_left]

theorem follow_concat_eq_ok_iff : fs.follow l (ps ++ [part]) = .ok m ↔
    ∃ n, fs.follow l ps = .ok n ∧ fs.entryAt n = some .directory ∧ step n part = m := by
  simp only [follow_append_eq_ok_iff, follow_cons_eq_ok_iff, follow_nil_eq_ok_iff]

theorem locate_eq_ok_iff : fs.locate p = .ok l ↔
    p.text.isEmpty = false ∧ fs.follow (fs.start p) p.parts = .ok l := by
  unfold locate
  cases p.text.isEmpty <;> simp

theorem step_of_isVoid (h : isVoid part = true) : step l part = l :=
  if_pos h

theorem step_name (hvoid : isVoid part = false) (hup : part ≠ dotDot) :
    step l part = l ++ [part] := by
  simp [step, hvoid, hup]

/-- What is put where no directory stands is in the way of no path that leads anywhere. -/
theorem follow_put (hl : fs.entryAt l ≠ some .directory) (h : fs.follow m ps = .ok n) :
    (fs.put l e).follow m ps = .ok n := by
  induction ps generalizing m with
  | nil => exact h
  | cons part ps ih =>
    obtain ⟨hdirectory, hrest⟩ := follow_cons_eq_ok_iff.1 h
    have hne : m ≠ l := fun heq => hl (heq ▸ hdirectory)
    exact follow_cons_eq_ok_iff.2 ⟨(entryAt_put_of_ne hne).trans hdirectory, ih hrest⟩

/-- A path leads to the same place after something other than a directory was put somewhere. -/
theorem locate_put (hl : fs.entryAt l ≠ some .directory) (h : fs.locate p = .ok m) :
    (fs.put l e).locate p = .ok m := by
  obtain ⟨hne, hfollow⟩ := locate_eq_ok_iff.1 h
  exact locate_eq_ok_iff.2 ⟨hne, follow_put hl hfollow⟩

theorem directory_of_follow (h : fs.follow l ps = .ok m) (hm : fs.entryAt m = some .directory) :
    fs.entryAt l = some .directory := by
  cases ps with
  | nil =>
    cases h
    exact hm
  | cons part ps => exact (follow_cons_eq_ok_iff.1 h).1

/-- On the way to a directory void parts make no difference. -/
theorem follow_names_iff (hm : fs.entryAt m = some .directory) :
    fs.follow l (names ps) = .ok m ↔ fs.follow l ps = .ok m := by
  induction ps generalizing l with
  | nil => rfl
  | cons part ps ih =>
    cases hvoid : isVoid part with
    | true =>
      have hnames : names (part :: ps) = names ps := by simp [names, hvoid]
      rw [hnames, ih, follow_cons_eq_ok_iff, step_of_isVoid hvoid]
      exact ⟨fun h => ⟨directory_of_follow h hm, h⟩, And.right⟩
    | false =>
      have hnames : names (part :: ps) = part :: names ps := by simp [names, hvoid]
      rw [hnames, follow_cons_eq_ok_iff, follow_cons_eq_ok_iff, ih]

/-- Void parts lead nowhere else. -/
theorem eq_of_follow_void (hvoid : ∀ part ∈ ps, isVoid part = true) (h : fs.follow l ps = .ok m) :
    m = l := by
  induction ps with
  | nil =>
    cases h
    rfl
  | cons part ps ih =>
    rw [List.forall_mem_cons] at hvoid
    have hrest := (follow_cons_eq_ok_iff.1 h).2
    rw [step_of_isVoid hvoid.1] at hrest
    exact ih hvoid.2 hrest

/-! ## Places above -/

/-- All places above this one are directories. -/
def Grounded (fs : FileSystem) (l : Location) : Prop :=
  ∀ m, m <+: l → m ≠ l → fs.entryAt m = some .directory

/-- Paths start where every place above is a directory. -/
theorem grounded_start (fs : FileSystem) (p : Path) : fs.Grounded (fs.start p) := by
  intro m hm hne
  refine if_pos (hm.trans ?_)
  unfold start
  split
  · exact List.nil_prefix
  · exact List.prefix_refl _

theorem Grounded.dropLast (h : fs.Grounded l) : fs.entryAt l.dropLast = some .directory := by
  rcases List.eq_nil_or_concat' l with rfl | ⟨m, name, rfl⟩
  · exact if_pos List.nil_prefix
  · rw [List.dropLast_concat]
    exact h m (List.prefix_append m [name]) (by simp)

/-- A step from a directory does not leave the grounded places. -/
theorem Grounded.step (h : fs.Grounded l) (hl : fs.entryAt l = some .directory) :
    fs.Grounded (step l part) := by
  unfold FileSystem.step
  split
  · exact h
  · split
    · intro m hm hne
      by_cases heq : m = l
      · rw [heq]
        exact hl
      · exact h m (hm.trans (List.dropLast_prefix l)) heq
    · intro m hm hne
      rcases List.prefix_concat_iff.1 hm with rfl | hm
      · exact absurd rfl hne
      · by_cases heq : m = l
        · rw [heq]
          exact hl
        · exact h m hm heq

/-- A way from a grounded place ends in one. -/
theorem Grounded.follow (h : fs.Grounded l) (hfollow : fs.follow l ps = .ok m) : fs.Grounded m := by
  induction ps generalizing l with
  | nil =>
    cases hfollow
    exact h
  | cons part ps ih =>
    obtain ⟨hl, hrest⟩ := follow_cons_eq_ok_iff.1 hfollow
    exact ih (h.step hl) hrest

/-! ## Paths that end in a name -/

theorem find_eq_ok_iff :
    fs.find p = .ok e ↔ ∃ l, fs.locate p = .ok l ∧ fs.entryAt l = some e := by
  unfold find
  cases fs.locate p with
  | error why => simp
  | ok l => cases h : fs.entryAt l <;> simp [h]

/-- Exactly the files that hold text can be read. -/
theorem read_eq_ok_iff : fs.read p = .ok t ↔ fs.find p = .ok (.file (.text t)) := by
  unfold read
  cases fs.find p with
  | error why => simp
  | ok e =>
    cases e with
    | directory => simp
    | file content => cases content <;> simp

/-- A path to a file ends in its name, and what is in front of the name leads to its directory. -/
theorem exists_name_of_find {content : Content} (h : fs.find p = .ok (.file content)) :
    ∃ front name dir, p.parts = front ++ [name] ∧ isVoid name = false ∧ name ≠ dotDot ∧
      fs.follow (fs.start p) front = .ok dir ∧ fs.entryAt dir = some .directory ∧
      fs.locate p = .ok (dir ++ [name]) ∧ fs.entryAt (dir ++ [name]) = some (.file content) := by
  obtain ⟨l, hlocate, hentry⟩ := find_eq_ok_iff.1 h
  have hfile : fs.entryAt l ≠ some .directory := by
    rw [hentry]
    nofun
  rcases List.eq_nil_or_concat' p.parts with hnil | ⟨front, name, hparts⟩
  · exact absurd hnil (Text.splitWhere_ne_nil _ _)
  · obtain ⟨-, hfollow⟩ := locate_eq_ok_iff.1 hlocate
    rw [hparts] at hfollow
    obtain ⟨dir, hfront, hdir, hstep⟩ := follow_concat_eq_ok_iff.1 hfollow
    have hvoid : isVoid name = false := by
      rw [Bool.eq_false_iff]
      intro hvoid
      rw [step_of_isVoid hvoid] at hstep
      exact hfile (hstep ▸ hdir)
    have hup : name ≠ dotDot := by
      rintro rfl
      have habove := ((grounded_start fs p).follow hfront).dropLast
      exact hfile (hstep ▸ habove)
    rw [step_name hvoid hup] at hstep
    subst hstep
    exact ⟨front, name, dir, hparts, hvoid, hup, hfront, hdir, hlocate, hentry⟩

section Names

variable (h : p.parts = front ++ [name]) (hvoid : isVoid name = false)
  (hfront : fs.follow (fs.start p) front = .ok l) (hl : fs.entryAt l = some .directory)

include h hvoid hfront hl

/-- A path that ends in a name leads to that name in the directory in front of it. -/
theorem locate_of_parts (hup : name ≠ dotDot) : fs.locate p = .ok (l ++ [name]) := by
  refine locate_eq_ok_iff.2 ⟨text_isEmpty_of_concat h hvoid, ?_⟩
  rw [h]
  exact follow_concat_eq_ok_iff.2 ⟨l, hfront, hl, step_name hvoid hup⟩

/-- What a path to a name would write to is the place below its directory, unless the name leads
up. -/
theorem target_of_parts : fs.target p = .ok (if name = dotDot then .existing
    else .location (l ++ [name]) (p.text.getLast? == some '/')) := by
  obtain ⟨hempty, hdot⟩ := Bool.or_eq_false_iff.1 hvoid
  have hkept : (p.parts.reverse.dropWhile List.isEmpty).reverse = front ++ [name] := by
    rw [h]
    exact List.rdropWhile_concat_neg _ _ _ (by simp [hempty])
  have hname : name ≠ dot := ne_of_beq_false hdot
  unfold target
  simp only [text_isEmpty_of_concat h hvoid, Bool.false_eq_true, if_false, hkept,
    List.dropLast_concat, List.getLast?_concat, hfront, requireDirectory_eq_ok_iff.2 hl, hname,
    false_or]
  split <;> rfl

/-- Writing puts a text where no directory stands. -/
theorem write_eq_ok (hwrite : fs.write p t = .ok fs') :
    name ≠ dotDot ∧ fs.entryAt (l ++ [name]) ≠ some .directory ∧
      fs' = fs.put (l ++ [name]) (.file (.text t)) := by
  rw [write, target_of_parts h hvoid hfront hl] at hwrite
  by_cases hup : name = dotDot
  · rw [if_pos hup] at hwrite
    cases hwrite
  · simp only [if_neg hup] at hwrite
    split at hwrite
    · cases hwrite
    · split at hwrite
      · cases hwrite
      · next hentry =>
        cases hwrite
        exact ⟨hup, hentry, rfl⟩

end Names

/-! ## Directories that exist -/

/-- A path would put something new where it leads to. -/
theorem location_of_target {slashed : Bool} (htarget : fs.target p = .ok (.location m slashed))
    (hlocate : fs.locate p = .ok l) : l = m := by
  obtain ⟨hne, hfollow⟩ := locate_eq_ok_iff.1 hlocate
  have hsplit : p.parts.rdropWhile List.isEmpty ++ p.parts.rtakeWhile List.isEmpty = p.parts :=
    List.rdropWhile_append_rtakeWhile
  have hslashes : ∀ part ∈ p.parts.rtakeWhile List.isEmpty, isVoid part = true := fun part hpart =>
    Bool.or_eq_true_iff.2 (.inl (List.mem_rtakeWhile_imp hpart))
  unfold target at htarget
  simp only [hne, Bool.false_eq_true, if_false] at htarget
  split at htarget
  · cases htarget
  · cases htarget
  · next n last hfront hlast =>
    split at htarget
    · cases htarget
    · next hn =>
      split at htarget
      · cases htarget
      · next hdots =>
        cases htarget
        obtain ⟨ys, hkept⟩ := List.getLast?_eq_some_iff.1 hlast
        have hempty : last.isEmpty = false := by
          have hnot := List.head?_dropWhile_not List.isEmpty p.parts.reverse
          rw [List.getLast?_reverse] at hlast
          rw [hlast] at hnot
          simpa using hnot
        have hvoid : isVoid last = false :=
          Bool.or_eq_false_iff.2 ⟨hempty, beq_false_of_ne fun hdot => hdots (.inl hdot)⟩
        rw [hkept, List.dropLast_concat] at hfront
        rw [← hsplit, show p.parts.rdropWhile List.isEmpty = ys ++ [last] from hkept] at hfollow
        obtain ⟨k, hk, hrest⟩ := follow_append_eq_ok_iff.1 hfollow
        obtain ⟨n', hfront', -, hstep⟩ := follow_concat_eq_ok_iff.1 hk
        cases hfront.symm.trans hfront'
        -- Behind the name there are only empty parts, which lead nowhere else.
        rw [step_name hvoid fun hup => hdots (.inr hup)] at hstep
        rw [hstep]
        exact eq_of_follow_void hslashes hrest

theorem makeDirectory_of_find (h : fs.find p = .ok e) : ∃ why, fs.makeDirectory p = .error why := by
  obtain ⟨l, hlocate, hentry⟩ := find_eq_ok_iff.1 h
  unfold makeDirectory
  cases htarget : fs.target p with
  | error why => exact ⟨_, rfl⟩
  | ok target =>
    cases target with
    | existing => exact ⟨_, rfl⟩
    | location m slashed =>
      rw [location_of_target htarget hlocate] at hentry
      simp only [hentry]
      exact ⟨_, rfl⟩

/-- Where a directory exists, nothing is made. -/
theorem makeDirectories_of_directory (h : fs.find p = .ok .directory) :
    fs.makeDirectories p = (.ok (), fs) := by
  have hdirectory : fs.isDirectory p = true := by rw [isDirectory, h]
  have hensure : fs.ensureDirectory p = .ok fs := by
    obtain ⟨why, hwhy⟩ := makeDirectory_of_find h
    rw [ensureDirectory, hwhy]
    exact if_pos hdirectory
  rw [makeDirectories, makeDirectoriesWithin, hensure]
  split <;> rfl

end FileSystem

end SourceMacros

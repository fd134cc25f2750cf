import SourceMacros.Proofs.FileSystem
import SourceMacros.Toolkit

/-!
# Compiling a file next to itself

A file is compiled into its neighbour with another extension. The source has been read by the time
that anything is written, so its path ends in a name, and the new extension changes this name alone
(`Path.withExtension_parts`). The target lies in the same directory then, no directory has to be
made for it, and since it is not the source itself the source stays as it is
(`Toolkit.process_keeps_source`).
-/

namespace SourceMacros

open SourceMacros.Path

namespace Toolkit

variable {k k' : Toolkit} {fs fs' : FileSystem} {source target : Path} {front : List Text}
  {name code : Text} {dir : Location}

theorem settings_parse (k : Toolkit) (text : Text) : (k.parse text).2.settings = k.settings := by
  unfold parse
  simp only
  split <;> rfl

/-! ## Writing a neighbour -/

/-- The parent of a path that ends in a name is there if the parts in front of the name lead to a
directory. -/
theorem parent_exists (h : target.parts = front ++ [name]) (hvoid : isVoid name = false)
    (hfront : fs.follow (fs.start target) front = .ok dir)
    (hdir : fs.entryAt dir = some .directory) :
    ∃ q, target.parent? = some q ∧
      (q.text.isEmpty = true ∨ q.text.isEmpty = false ∧ fs.find q = .ok .directory) := by
  obtain ⟨q, hparent, hempty | ⟨hne, habsolute, hnames⟩⟩ := exists_parent? h hvoid
  · exact ⟨q, hparent, .inl hempty⟩
  · refine ⟨q, hparent, .inr ⟨hne, FileSystem.find_eq_ok_iff.2 ⟨dir, ?_, hdir⟩⟩⟩
    have hstart : fs.start q = fs.start target := by
      rw [FileSystem.start, FileSystem.start, habsolute]
    rw [FileSystem.locate_eq_ok_iff, ← FileSystem.follow_names_iff hdir, hnames, hstart,
      FileSystem.follow_names_iff hdir]
    exact ⟨hne, hfront⟩

/-- A text goes to a name in a directory that is there, where no directory has that name, or it goes
nowhere. Nothing else happens. -/
theorem emit_cases (h : target.parts = front ++ [name]) (hvoid : isVoid name = false)
    (hfront : fs.follow (fs.start target) front = .ok dir) (hdir : fs.entryAt dir = some .directory)
    (code : Text) :
    (∃ e, emit fs target code = (.error e, fs)) ∨
    (name ≠ dotDot ∧ fs.entryAt (dir ++ [name]) ≠ some .directory ∧
      emit fs target code = (.ok (), fs.put (dir ++ [name]) (.file (.text code)))) := by
  have hemit : emit fs target code
      = (((fs.write target code).map fun _ => ()).mapError (.file target),
        (fs.write target code).toOption.getD fs) := by
    obtain ⟨q, hparent, hempty | ⟨hne, hfind⟩⟩ := parent_exists h hvoid hfront hdir
    · simp only [emit, hparent, hempty, if_true]
      cases fs.write target code <;> rfl
    · simp only [emit, hparent, hne, FileSystem.makeDirectories_of_directory hfind,
        Bool.false_eq_true, if_false]
      cases fs.write target code <;> rfl
  cases hwrite : fs.write target code with
  | error e =>
    rw [hwrite] at hemit
    exact .inl ⟨.file target e, hemit⟩
  | ok fs' =>
    obtain ⟨hup, hfile, rfl⟩ := FileSystem.write_eq_ok h hvoid hfront hdir hwrite
    rw [hwrite] at hemit
    exact .inr ⟨hup, hfile, hemit⟩

/-! ## Compiling -/

/-- Nothing is done to the files unless the source can be read and all passes over it succeed. -/
theorem compile_cases (k : Toolkit) (fs : FileSystem) (source target : Path)
    (format comment : Bool) :
    (∃ e k', k.compile fs source target format comment = (.error e, k', fs)) ∨
    ∃ text code k', fs.read source = .ok text ∧ k.parse text = (.ok code, k') ∧
      k.compile fs source target format comment =
        ((emit fs target (k.finish format comment code)).1.map
            fun _ => k.finish format comment code,
          k', (emit fs target (k.finish format comment code)).2) := by
  cases hread : fs.read source with
  | error e => exact .inl ⟨.file source e, k, by simp only [compile, hread]⟩
  | ok text =>
    cases hparse : k.parse text with
    | mk result k' =>
      cases result with
      | error e => exact .inl ⟨.expand e, k', by simp only [compile, hread, hparse]⟩
      | ok code =>
        have hsettings : k'.settings = k.settings := by
          rw [← settings_parse k text, hparse]
        have hfinish : k'.finish format comment code = k.finish format comment code := by
          rw [finish, finish, hsettings]
        refine .inr ⟨text, code, k', rfl, hparse, ?_⟩
        simp only [compile, hread, hparse, hfinish]
        rcases emit fs target (k.finish format comment code) with ⟨_ | _, fs'⟩ <;> rfl

/-- A file that can be read is compiled into another one in its directory, or nothing is done. -/
theorem emit_neighbour {ext text : Text} (hext : '/' ∉ ext) (hread : fs.read source = .ok text)
    (hother : (source.withExtension ext).same source = false) (code : Text) :
    (∃ e, emit fs (source.withExtension ext) code = (.error e, fs)) ∨
    ∃ dir a b, a ≠ b ∧ fs.locate source = .ok (dir ++ [a]) ∧
      fs.locate (source.withExtension ext) = .ok (dir ++ [b]) ∧
      fs.entryAt (dir ++ [b]) ≠ some .directory ∧
      emit fs (source.withExtension ext) code
        = (.ok (), fs.put (dir ++ [b]) (.file (.text code))) := by
  obtain ⟨front, a, dir, hparts, hvoid, hup, hfront, hdir, hlocate, -⟩ :=
    FileSystem.exists_name_of_find (FileSystem.read_eq_ok_iff.1 hread)
  obtain ⟨b, hvoid', hparts'⟩ := withExtension_parts hparts hvoid hup hext
  have hne : a ≠ b := by
    rintro rfl
    rw [eq_of_parts_eq (hparts'.trans hparts.symm), same, beq_self_eq_true] at hother
    cases hother
  have hstart : fs.start (source.withExtension ext) = fs.start source := by
    rw [FileSystem.start, FileSystem.start, isAbsolute_eq_of_concat hparts hparts']
  rw [← hstart] at hfront
  rcases emit_cases hparts' hvoid' hfront hdir code with hfails | ⟨hup', hfile, hemit⟩
  · exact .inl hfails
  · have hlocate' := FileSystem.locate_of_parts hparts' hvoid' hfront hdir hup'
    exact .inr ⟨dir, a, b, hne, hlocate, hlocate', hfile, hemit⟩

/-- Compiling a file next to itself fails without a trace, or it puts the result at the place of
another name in the same directory. -/
theorem process_cases (k : Toolkit) (fs : FileSystem) (source : Path)
    (hext : '/' ∉ k.settings.extension) :
    (∃ e k', k.process fs source = (.error e, k', fs)) ∨
    ∃ target k' dir a b text code, a ≠ b ∧ fs.locate source = .ok (dir ++ [a]) ∧
      fs.locate target = .ok (dir ++ [b]) ∧ fs.entryAt (dir ++ [b]) ≠ some .directory ∧
      fs.read source = .ok text ∧ k.parse text = (.ok code, k') ∧
      (k.compile fs source target true true).1 = .ok (k.finish true true code) ∧
      k.process fs source
        = (.ok target, k', fs.put (dir ++ [b]) (.file (.text (k.finish true true code)))) := by
  obtain ⟨target, htarget⟩ : ∃ target, target = source.withExtension k.settings.extension :=
    ⟨_, rfl⟩
  cases hsame : target.same source with
  | true => exact .inl ⟨.sameTarget target, k, by simp only [process, ← htarget, hsame, if_true]⟩
  | false =>
    have hprocess : k.process fs source =
        ((k.compile fs source target true true).1.map fun _ => target,
          (k.compile fs source target true true).2) := by
      simp only [process, ← htarget, hsame, Bool.false_eq_true, if_false]
      rcases k.compile fs source target true true with ⟨_ | _, k', fs'⟩ <;> rfl
    rcases compile_cases k fs source target true true with
      ⟨e, k', hcompile⟩ | ⟨text, code, k', hread, hparse, hcompile⟩
    · rw [hcompile] at hprocess
      exact .inl ⟨e, k', hprocess⟩
    · rw [htarget] at hsame
      rcases emit_neighbour hext hread hsame (k.finish true true code) with
        ⟨e, hemit⟩ | ⟨dir, a, b, hne, hsource, hlocate, hfile, hemit⟩
      · rw [← htarget] at hemit
        rw [hcompile, hemit] at hprocess
        exact .inl ⟨e, k', hprocess⟩
      · rw [← htarget] at hlocate hemit
        rw [hemit] at hcompile
        rw [hcompile] at hprocess
        exact .inr ⟨target, k', dir, a, b, text, code, hne, hsource, hlocate, hfile, hread, hparse,
          congrArg Prod.fst hcompile, hprocess⟩

/-- Compiling a file next to itself leaves it as it is, whatever comes of it. If it fails, no file
and no directory is made or changed. If it gives a target, this names another file in the same
directory. That is the only place where anything has changed, and it holds the source, read,
expanded and passed through all compiler passes, with the comment put in and the layout made normal.
-/
theorem process_keeps_source {result : Except ToolkitError Path}
    (hext : '/' ∉ k.settings.extension) (h : k.process fs source = (result, k', fs')) :
    fs'.find source = fs.find source ∧
    (∀ e, result = .error e → fs' = fs) ∧
    ∀ target, result = .ok target →
      ∃ dir a b, a ≠ b ∧ fs.locate source = .ok (dir ++ [a]) ∧
        fs'.locate target = .ok (dir ++ [b]) ∧
        (∀ l, l ≠ dir ++ [b] → fs'.entryAt l = fs.entryAt l) ∧
        ∃ text code, fs.read source = .ok text ∧ k.parse text = (.ok code, k') ∧
          (k.compile fs source target true true).1
            = .ok (code.insertComment k.settings.comment).format ∧
          fs'.read target = .ok (code.insertComment k.settings.comment).format := by
  rcases process_cases k fs source hext with ⟨e, k'', hprocess⟩ |
    ⟨target, k'', dir, a, b, text, code, hne, hsource, htarget, hfile, hread, hparse, hcompile,
      hprocess⟩
  · cases h.symm.trans hprocess
    exact ⟨rfl, fun _ _ => rfl, nofun⟩
  · have hfinish : k.finish true true code = (code.insertComment k.settings.comment).format := by
      simp only [finish, if_true]
    rw [hfinish] at hcompile hprocess
    cases h.symm.trans hprocess
    have hplaces : dir ++ [a] ≠ dir ++ [b] := by simp [hne]
    refine ⟨?_, nofun, fun target' heq => ?_⟩
    · have hfind := FileSystem.read_eq_ok_iff.1 hread
      obtain ⟨l, hl, hentry⟩ := FileSystem.find_eq_ok_iff.1 hfind
      cases hsource.symm.trans hl
      rw [hfind]
      exact FileSystem.find_eq_ok_iff.2 ⟨dir ++ [a], FileSystem.locate_put hfile hsource,
        (FileSystem.entryAt_put_of_ne hplaces).trans hentry⟩
    · cases heq
      refine ⟨dir, a, b, hne, hsource, FileSystem.locate_put hfile htarget,
        fun l hl => FileSystem.entryAt_put_of_ne hl, text, code, hread, hparse, hcompile, ?_⟩
      exact FileSystem.read_eq_ok_iff.2 (FileSystem.find_eq_ok_iff.2
        ⟨_, FileSystem.locate_put hfile htarget, FileSystem.entryAt_put hfile⟩)

/-- A file in a directory below the working directory, by a path with a part that means nothing. -/
theorem process_keeps_source_below :
    ∃ (k : Toolkit) (fs : FileSystem) (source target : Path), source.text = "d/./a.pre".toList ∧
      target.text = "d/./a.php".toList ∧ '/' ∉ k.settings.extension ∧
      fs.read source = .ok "<?php x".toList ∧ (k.process fs source).1 = .ok target ∧
      (k.process fs source).2.2.find source = fs.find source ∧
      (k.process fs source).2.2.read target = .ok "<?php\n\n// made\n x\n".toList := by
  obtain ⟨k, fs, source, target, hsource, htarget, hext, hread, hprocess, hparse, hout⟩ :
      ∃ (k : Toolkit) (fs : FileSystem) (source target : Path), source.text = "d/./a.pre".toList ∧
        target.text = "d/./a.php".toList ∧ '/' ∉ k.settings.extension ∧
        fs.read source = .ok "<?php x".toList ∧ (k.process fs source).1 = .ok target ∧
        (k.parse "<?php x".toList).1 = .ok "<?php x".toList ∧
        (Text.insertComment "<?php x".toList k.settings.comment).format
          = "<?php\n\n// made\n x\n".toList := by
    refine ⟨.ofSettings ⟨4, false, "php".toList, "// made".toList, ".git".toList, 9⟩,
      ⟨[['w']], [([['w'], ['d']], .directory),
        ([['w'], ['d'], "a.pre".toList], .file (.text "<?php x".toList))]⟩,
      ⟨"d/./a.pre".toList⟩, ⟨"d/./a.php".toList⟩, rfl, rfl, ?_, ?_, ?_, ?_, ?_⟩ <;> decide +kernel
  have hresult : k.process fs source
      = ((k.process fs source).1, (k.process fs source).2.1, (k.process fs source).2.2) := rfl
  obtain ⟨hkept, -, hok⟩ := process_keeps_source hext hresult
  obtain ⟨dir, a, b, -, -, -, -, text, code, hread', hparse', -, hwritten⟩ := hok target hprocess
  cases hread.symm.trans hread'
  rw [hparse'] at hparse
  cases hparse
  rw [hout] at hwritten
  exact ⟨k, fs, source, target, hsource, htarget, hext, hread, hprocess, hkept, hwritten⟩

end Toolkit

end SourceMacros

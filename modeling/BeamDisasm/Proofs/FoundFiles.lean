import BeamDisasm.Proofs.ArchiveMembers
import BeamDisasm.Proofs.OutputFiles

/-!
# Files that are found and files that are named

The modules of a file are loaded when it is found in a directory that is searched, or when its path is given. A search
passes over whatever cannot be loaded. A file that is named is passed over only if it is no module file, and an archive
with a member that is none gives no list of modules at all.
-/
namespace BeamDisasm

namespace Path

theorem hasEnding_iff {ending p : String} :
    hasEnding ending p = true ↔ ending.toList <:+ p.toList.map Char.toLower := by
  rw [hasEnding, List.isPrefixOf_iff_prefix, List.reverse_prefix]

theorem suffix_join (dir name : String) : name.toList <:+ (join dir name).toList := by
  rw [toList_join]
  by_cases hhead : name.toList.head? = some '/'
  · rw [joinChars_of_absolute _ hhead]
  · rw [joinChars_of_relative _ hhead]
    exact List.suffix_append _ _

/-- A path ends as its name does. -/
theorem hasEnding_join {ending name : String} (dir : String) (h : hasEnding ending name = true) :
    hasEnding ending (join dir name) = true := by
  rw [hasEnding_iff] at h ⊢
  exact h.trans ((suffix_join dir name).map _)

end Path

namespace Loading

/-- No path ends both as module files and as archives do. -/
theorem not_isArchivePath {path : String} (h : isModulePath path = true) : isArchivePath path = false := by
  rw [Bool.eq_false_iff]
  intro h'
  rw [isModulePath, Path.hasEnding_iff] at h
  rw [isArchivePath, Path.hasEnding_iff] at h'
  exact absurd (List.suffix_of_suffix_length_le h' h (by decide)) (by decide)

theorem orUnknown_eq_error {x : Except Fault Module} {f : Fault} (h : orUnknown x = .error f) :
    f = .unknownFormat := by
  cases x with
  | ok m => cases h
  | error e => exact (Except.error.inj h).symm

/-- Nothing but the chunks of a module file can be at fault. -/
theorem load_faults_unknown_iff (p : Buffering) (b : Bytes) :
    (∀ f, (load p b).result = .error f → f = .unknownFormat) ↔
      (Module.HasHeader b → ∃ m, Module.parse b = .ok m) := by
  by_cases hheader : Module.HasHeader b
  · rw [load_of_hasHeader hheader]
    change (∀ f, Module.parse b = .error f → f = .unknownFormat) ↔ _
    cases hparse : Module.parse b with
    | ok m => simp
    | error f =>
        have hf : f ≠ .unknownFormat := by
          rintro rfl
          exact (Module.parse_eq_unknownFormat_iff b).1 hparse hheader
        simp [hheader, hf]
  · simp only [hheader, false_implies, iff_true, load_of_not_hasHeader hheader]
    exact fun f => orUnknown_eq_error

end Loading

namespace FileTree

variable {t : FileTree} {dir name : String} {b : Bytes}

/-- The directory at a path holds one file and nothing else. -/
structure HoldsOnly (t : FileTree) (dir name : String) (b : Bytes) : Prop where
  alone : ∃ l, t.locate dir = .ok l ∧ t.isDirectory l = true ∧ namesBelow l (t.files.map Prod.fst) = [name] ∧
    namesBelow l t.directories = []
  read_eq : t.read (Path.join dir name) = .ok b

theorem HoldsOnly.search_eq (h : t.HoldsOnly dir name b) : t.search dir = [(Path.join dir name, name)] := by
  obtain ⟨l, hl, hdir, hfiles, hdirs⟩ := h.alone
  rw [search, hl]
  simp [hdir, filesBelow, hfiles, hdirs]

end FileTree

namespace Command

open Session Loading

variable {w : World} {dir name : String} {b : Bytes}

theorem run_get_bind {α : Type} (f : World → Session α) (w : World) :
    ((get : Session World) >>= f).run w = (f w).run w :=
  rfl

theorem run_say_bind {α : Type} (s : String) (f : Unit → Session α) (w : World) :
    (say s >>= f).run w = (f ()).run { w with output := w.output ++ s } :=
  rfl

theorem result_tolerate (a : Attempt (List Module)) (w : World) :
    ((tolerate a).run w).1 = .ok (a.result.toOption.getD []) := by
  obtain ⟨notices, _ | ms⟩ := a <;> rfl

/-- A search takes what it finds in the only file of a directory. -/
theorem result_searchModules (h : w.tree.HoldsOnly dir name b) :
    ((searchModules dir).run w).1 = ((loadFound (Path.join dir name) name).run w).1 := by
  rw [searchModules, run_get_bind, h.search_eq, loadAllFound]
  rcases hrun : (loadFound (Path.join dir name) name).run w with ⟨f | ms, v⟩
  · rw [ExceptT.run_bind]
    simp only [Bind.bind, StateT.bind, hrun]
    rfl
  · rw [run_bind_of_ok hrun]
    exact congrArg Except.ok (List.append_nil ms)

theorem result_searchModules_of_module (h : w.tree.HoldsOnly dir name b) (hname : isModulePath name = true) :
    ((searchModules dir).run w).1 = .ok (load w.buffering b).result.toOption.toList := by
  have hpath : isModulePath (Path.join dir name) = true := Path.hasEnding_join dir hname
  rw [result_searchModules h, loadFound, run_get_bind, if_pos hpath, run_say_bind, result_tolerate, h.read_eq]
  cases hload : (load w.buffering b).result <;> simp [Attempt.ofFile, Attempt.map, hload, Except.map, Except.toOption]

theorem result_searchModules_of_archive (h : w.tree.HoldsOnly dir name b) (hname : isArchivePath name = true) :
    ((searchModules dir).run w).1 = .ok ((loadArchive w.buffering b).result.toOption.join.getD []) := by
  have hpath : isArchivePath (Path.join dir name) = true := Path.hasEnding_join dir hname
  have hother : ¬ isModulePath (Path.join dir name) = true := by
    intro hmodule
    simp [not_isArchivePath hmodule] at hpath
  rw [result_searchModules h, loadFound, run_get_bind, if_neg hother, if_pos hpath, run_say_bind, result_tolerate,
    h.read_eq]
  cases hload : (loadArchive w.buffering b).result <;>
    simp [Attempt.ofFile, Attempt.map, hload, Except.map, Except.toOption]

theorem result_loadModules {path : String} (h : w.tree.read path = .ok b) :
    ((loadModules path).run w).1 = (loadFile w.buffering path b).result := by
  have hread : (readFile path).run w = (.ok b, w) := by
    rw [readFile, run_get_bind, h]
    rfl
  rw [loadModules, run_get_bind, run_bind_of_ok hread, ofAttempt, run_say_bind]
  cases (loadFile w.buffering path b).result <;> rfl

/-- A module file that is named gives its module, and none if it is no module file. -/
theorem result_loadModules_of_module (h : w.tree.HoldsOnly dir name b) (hname : isModulePath name = true) :
    ((loadModules (Path.join dir name)).run w).1 =
      match (load w.buffering b).result with
      | .ok m => .ok (some [m])
      | .error f => if f = .unknownFormat then .ok (some []) else .error f := by
  have hpath := not_isArchivePath (Path.hasEnding_join dir hname)
  rw [result_loadModules h.read_eq, loadFile, hpath]
  obtain ⟨notices, f | m⟩ := load w.buffering b
  · by_cases hf : f = .unknownFormat
    · simp [Attempt.map, Except.map, hf]
    · simp [Attempt.map, Except.map, hf]
  · rfl

/-- An archive that is named gives what is loaded from it. -/
theorem result_loadModules_of_archive (h : w.tree.HoldsOnly dir name b) (hname : isArchivePath name = true) :
    ((loadModules (Path.join dir name)).run w).1 = (loadArchive w.buffering b).result := by
  have hpath : isArchivePath (Path.join dir name) = true := Path.hasEnding_join dir hname
  rw [result_loadModules h.read_eq, loadFile, if_pos hpath]
  split
  · next hunknown => exact absurd hunknown (known_loadArchive w.buffering b)
  · rfl

/-- A tree with a directory that holds one file. -/
def oneFile (name : String) (b : Bytes) : World :=
  { tree := ⟨[["work"], ["work", "in"]], [(["work", "in", name], b)], ["work"]⟩ }

theorem holdsOnly_blankFile : (oneFile "M.Beam" blankFile).tree.HoldsOnly "in" "M.Beam" blankFile :=
  ⟨⟨["work", "in"], rfl, rfl, by with_unfolding_all rfl, by with_unfolding_all rfl⟩, rfl⟩

/-- A header that announces four bytes of chunks, and nothing behind it. -/
def cutFile : Bytes :=
  Bytes.ofAscii "FOR1" ++ [0, 0, 0, 8] ++ Bytes.ofAscii "BEAM"

theorem holdsOnly_cutFile : (oneFile "m.beam" cutFile).tree.HoldsOnly "in" "m.beam" cutFile :=
  ⟨⟨["work", "in"], rfl, rfl, by with_unfolding_all rfl, by with_unfolding_all rfl⟩, rfl⟩

end Command

end BeamDisasm

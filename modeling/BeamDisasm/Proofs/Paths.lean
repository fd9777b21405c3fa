import BeamDisasm.Command.FileTree
import BeamDisasm.Proofs.Steps
import Mathlib.Data.List.Basic

/-!
# Paths in a file tree

A component is a name that leads one step down. A path that is a directory joined with a component leads to the file
or directory of this name directly below the directory. Which location a path leads to is settled by the directories
alone, so writing files does not change it.
-/
namespace BeamDisasm

namespace Path

/-- A name of something in a directory: it holds no slash, and is not one of the names that lead nowhere or up. -/
structure IsComponent (c : String) : Prop where
  no_slash : '/' ∉ c.toList
  ne_empty : c ≠ ""
  ne_dot : c ≠ "."
  ne_dots : c ≠ ".."

/-- The path is a directory joined with one component. -/
def Directly (dir path : String) : Prop :=
  ∃ c, IsComponent c ∧ path = join dir c

/-! ## Joining -/

/-- What stands in front of a name that is joined to a directory. -/
def front (dir : List Char) : List Char :=
  if dir = [] ∨ dir.getLast? = some '/' then dir else dir ++ ['/']

theorem toList_join (dir p : String) : (join dir p).toList = joinChars dir.toList p.toList := by
  simp [join]

theorem joinChars_of_absolute (dir : List Char) {p : List Char} (h : p.head? = some '/') : joinChars dir p = p := by
  simp [joinChars, h]

theorem joinChars_of_relative (dir : List Char) {p : List Char} (h : p.head? ≠ some '/') :
    joinChars dir p = front dir ++ p := by
  rw [joinChars, if_neg h, front]
  split <;> simp

theorem head?_ne_of_not_mem {p : List Char} (h : '/' ∉ p) : p.head? ≠ some '/' :=
  fun hp => h (List.mem_of_mem_head? (by simp [hp]))

/-- A name is set off from the directory by a slash, which the directory may end with. -/
theorem front_of_ne_nil {dir : List Char} (h : dir ≠ []) :
    ∃ d, front dir = d ++ ['/'] ∧ (dir = d ∨ dir = d ++ ['/']) := by
  by_cases hlast : dir.getLast? = some '/'
  · have hdir : dir = dir.dropLast ++ ['/'] := (List.dropLast_append_getLast? _ hlast).symm
    exact ⟨dir.dropLast, by rw [front, if_pos (.inr hlast), ← hdir], .inr hdir⟩
  · exact ⟨dir, by rw [front, if_neg (by simp [h, hlast])], .inl rfl⟩

/-! ## Components -/

theorem cutChars_ne_nil (cs : List Char) : cutChars cs ≠ [] := by
  induction cs with
  | nil => simp [cutChars]
  | cons c cs ih =>
      rw [cutChars]
      split
      · simp
      · split <;> simp

theorem cutChars_of_not_mem {cs : List Char} (h : '/' ∉ cs) : cutChars cs = [cs] := by
  induction cs with
  | nil => rfl
  | cons c cs ih =>
      have hc : c ≠ '/' := fun heq => h (by simp [heq])
      simp [cutChars, ih fun hmem => h (by simp [hmem]), hc]

/-- A slash ends a component. -/
theorem cutChars_append (a b : List Char) : cutChars (a ++ '/' :: b) = cutChars a ++ cutChars b := by
  induction a with
  | nil =>
      rw [List.nil_append, cutChars]
      cases hb : cutChars b with
      | nil => exact absurd hb (cutChars_ne_nil b)
      | cons part parts => simp [cutChars, hb]
  | cons c a ih =>
      rw [List.cons_append, cutChars, cutChars, ih]
      cases ha : cutChars a with
      | nil => exact absurd ha (cutChars_ne_nil a)
      | cons part parts =>
          by_cases hc : c = '/'
          · simp [hc]
          · simp [hc]

end Path

namespace FileTree

open BeamDisasm.Path (IsComponent components cutChars front joinChars)

variable {t t' : FileTree} {l : Location}

/-! ## Locations -/

/-- Where the components of a path start. -/
def start (t : FileTree) (path : String) : Location :=
  if path.toList.head? = some '/' then [] else t.here

theorem locate_eq_ok_iff {path : String} :
    t.locate path = .ok l ↔ Char.ofNat 0 ∉ path.toList ∧ path ≠ "" ∧ path.utf8ByteSize ≤ longestPath ∧
      t.follow (t.start path) (components path) = .ok l := by
  rw [locate, start]
  by_cases hzero : Char.ofNat 0 ∈ path.toList
  · simp [hzero]
  · by_cases hempty : path = ""
    · simp [hempty]
    · by_cases hlong : longestPath < path.utf8ByteSize
      · simp [hzero, hempty, hlong, Nat.not_le.mpr hlong]
      · by_cases hhead : path.toList.head? = some '/' <;> simp [hzero, hempty, hlong, hhead, Nat.not_lt.mp hlong]

theorem follow_append (t : FileTree) (l : Location) (xs ys : List String) :
    t.follow l (xs ++ ys) = t.follow l xs >>= fun l' => t.follow l' ys := by
  induction xs generalizing l with
  | nil => rfl
  | cons x xs ih =>
      simp only [List.cons_append, follow]
      cases t.checkDirectory l with
      | error e => rfl
      | ok u =>
          change (if _ then _ else _) = (if _ then _ else _ : Except Fault Location) >>= _
          split
          · exact ih l
          · split
            · exact ih _
            · split
              · rfl
              · exact ih _

/-- A component leads one step down from a directory. -/
theorem follow_component {c : String} {l' : Location} (hc : IsComponent c) (h : t.follow l [c] = .ok l') :
    t.checkDirectory l = .ok () ∧ l' = l ++ [c] := by
  rw [follow] at h
  obtain ⟨u, hdir, h⟩ := exists_of_bind h
  rw [if_neg (by simp [hc.ne_empty, hc.ne_dot]), if_neg hc.ne_dots] at h
  split at h
  · cases h
  · exact ⟨hdir, (Except.ok.inj h).symm⟩

/-- A slash at the end of a path asks for a directory. -/
theorem follow_empty (h : t.checkDirectory l = .ok ()) : t.follow l [""] = .ok l := by
  rw [follow, h]
  rfl

theorem components_slash {path : String} {a b : List Char} (h : path.toList = a ++ '/' :: b) :
    components path = (cutChars a).map String.ofList ++ (cutChars b).map String.ofList := by
  rw [components, h, Path.cutChars_append, List.map_append]

/-- A directory joined with a component leads directly below the place that the directory's own path leads to. -/
theorem locate_join {dir c : String} (hdir : dir ≠ "") (hc : IsComponent c)
    (h : t.locate (Path.join dir c) = .ok l) : ∃ below, t.locate dir = .ok below ∧ l = below ++ [c] := by
  have hne : dir.toList ≠ [] := by simpa using hdir
  obtain ⟨d, hfront, hd⟩ := Path.front_of_ne_nil hne
  have hpath : (Path.join dir c).toList = d ++ '/' :: c.toList := by
    rw [Path.toList_join, Path.joinChars_of_relative _ (Path.head?_ne_of_not_mem hc.no_slash), hfront]
    simp
  have hinitial : ∃ rest, Path.join dir c = dir ++ rest := by
    rcases hd with hd | hd
    · exact ⟨String.ofList ('/' :: c.toList), String.toList_inj.mp (by simp [hpath, hd])⟩
    · exact ⟨c, String.toList_inj.mp (by simp [hpath, hd])⟩
  obtain ⟨rest, hrest⟩ := hinitial
  obtain ⟨hzero, -, hlong, hfollow⟩ := locate_eq_ok_iff.mp h
  have hcomponents : components (Path.join dir c) = (cutChars d).map String.ofList ++ [c] := by
    rw [components_slash hpath, Path.cutChars_of_not_mem hc.no_slash]
    simp
  rw [hcomponents, follow_append] at hfollow
  obtain ⟨below, hbelow, hlast⟩ := exists_of_bind hfollow
  obtain ⟨hdirectory, rfl⟩ := follow_component hc hlast
  have hstart : t.start (Path.join dir c) = t.start dir := by
    rw [start, start, hrest, String.toList_append, List.head?_append_of_ne_nil _ hne]
  refine ⟨below, locate_eq_ok_iff.mpr ⟨?_, hdir, ?_, ?_⟩, rfl⟩
  · intro hmem
    exact hzero (by simp [hrest, hmem])
  · rw [hrest, String.utf8ByteSize_append] at hlong
    omega
  · rw [hstart] at hbelow
    rcases hd with hd | hd
    · rw [components, hd, hbelow]
    · rw [components_slash hd, follow_append, hbelow]
      exact follow_empty hdirectory

/-! ## Files -/

theorem checkDirectory_eq_ok_iff : t.checkDirectory l = .ok () ↔ t.isDirectory l = true := by
  rw [checkDirectory]
  split
  · next h => simp [h]
  · next h => split <;> simp [h]

theorem follow_of_directories (hdirs : t'.directories = t.directories) {cs : List String} {l' : Location}
    (h : t.follow l cs = .ok l') : t'.follow l cs = .ok l' := by
  have hcheck : ∀ m, t.checkDirectory m = .ok () → t'.checkDirectory m = .ok () := by
    intro m hm
    rw [checkDirectory_eq_ok_iff, isDirectory] at hm ⊢
    rwa [hdirs]
  induction cs generalizing l with
  | nil => exact h
  | cons c cs ih =>
      rw [follow] at h ⊢
      obtain ⟨u, hu, h⟩ := exists_of_bind h
      rw [hcheck l hu]
      change (if _ then _ else _) = _
      split at h
      · next hc => rw [if_pos hc]; exact ih h
      · next hc =>
        rw [if_neg hc]
        split at h
        · next hup => rw [if_pos hup]; exact ih h
        · next hup =>
          rw [if_neg hup]
          split at h
          · cases h
          · next hlong => rw [if_neg hlong]; exact ih h

/-- Where a path leads is settled by the directories. -/
theorem locate_of_directories (hdirs : t'.directories = t.directories) (hhere : t'.here = t.here) {path : String}
    (h : t.locate path = .ok l) : t'.locate path = .ok l := by
  rw [locate_eq_ok_iff] at h ⊢
  obtain ⟨hzero, hempty, hlong, hfollow⟩ := h
  refine ⟨hzero, hempty, hlong, ?_⟩
  rw [start, hhere]
  exact follow_of_directories hdirs hfollow

@[simp] theorem directories_put (t : FileTree) (l : Location) (b : Bytes) :
    (t.put l b).directories = t.directories := by
  rw [put]
  split <;> rfl

@[simp] theorem here_put (t : FileTree) (l : Location) (b : Bytes) : (t.put l b).here = t.here := by
  rw [put]
  split <;> rfl

/-- A file is put at one location. -/
theorem contentAt?_put_of_ne {m : Location} (h : m ≠ l) (b : Bytes) :
    (t.put l b).contentAt? m = t.contentAt? m := by
  have hne : (m == l) = false := beq_eq_false_iff_ne.mpr h
  have hmap : ∀ fs : List (Location × Bytes),
      (fs.map fun f => if f.1 = l then (l, b) else f).lookup m = fs.lookup m := by
    intro fs
    induction fs with
    | nil => rfl
    | cons f fs ih =>
        obtain ⟨place, content⟩ := f
        by_cases hplace : place = l
        · simp [List.lookup_cons, hplace, ih, hne]
        · simp [List.lookup_cons, hplace, ih]
  rw [put]
  split
  · exact hmap t.files
  · simp [contentAt?, List.lookup_append, List.lookup_cons, hne]

theorem makeDirectory_spec {path : List Char} (h : t.makeDirectory path = .ok t') :
    t'.files = t.files ∧ t'.here = t.here := by
  rw [makeDirectory] at h
  obtain ⟨m, -, h⟩ := exists_of_bind h
  split at h
  · cases h
  · rw [← Except.ok.inj h]
    exact ⟨rfl, rfl⟩

/-- Making directories leaves the files alone. -/
theorem makeDirectories_spec {fuel : Nat} {path : List Char} (h : t.makeDirectories fuel path = .ok t') :
    t'.files = t.files ∧ t'.here = t.here := by
  induction fuel generalizing t t' path with
  | zero => exact makeDirectory_spec h
  | succ fuel ih =>
      simp only [makeDirectories] at h
      split at h
      · cases hhead : t.makeDirectories fuel (splitLast path).1 with
        | error e =>
            simp only [hhead] at h
            split at h
            · split at h
              · rw [← Except.ok.inj h]
                exact ⟨rfl, rfl⟩
              · exact makeDirectory_spec h
            · cases h
        | ok above =>
            simp only [hhead] at h
            split at h
            · rw [← Except.ok.inj h]
              exact ih hhead
            · have habove := ih hhead
              have hlast := makeDirectory_spec h
              exact ⟨hlast.1.trans habove.1, hlast.2.trans habove.2⟩
      · exact makeDirectory_spec h

end FileTree

end BeamDisasm

import BeamDisasm.Command.Run
import BeamDisasm.Proofs.MarkEffects
import BeamDisasm.Proofs.Paths

/-!
# Files that a command writes

A command opens one file for each module, and its path is the output directory joined with the name of the module
and an ending. Nothing else is changed. The name is not looked at, so the file is in the output directory only if the
name keeps it there.
-/
namespace BeamDisasm

namespace Path

/-- The name of a module keeps its listing in a directory: it has no slash, or it is absolute and leads there by
itself. -/
def Confined (dir name : String) : Prop :=
  '/' ∉ name.toList ∨ name.toList.head? = some '/' ∧ ∃ stem : String, '/' ∉ stem.toList ∧ name = join dir stem

theorem toList_join_of_not_mem (dir : String) {name : String} (h : '/' ∉ name.toList) :
    (join dir name).toList = front dir.toList ++ name.toList := by
  rw [toList_join, joinChars_of_relative _ (head?_ne_of_not_mem h)]

/-- A name with an ending is a component if it has no slash. -/
theorem isComponent_listing {name : String} (h : '/' ∉ name.toList) : IsComponent (name ++ ".beamc") := by
  have hlong : ∀ short : String, short.toList.length < 6 → name ++ ".beamc" ≠ short := by
    rintro _ hshort rfl
    simp at hshort
  exact ⟨by simp [h], hlong _ (by decide), hlong _ (by decide), hlong _ (by decide)⟩

/-- A name that leads to a place in the directory by itself spells the directory out. -/
theorem exists_stem {dir name c : String} (hc : '/' ∉ c.toList) (h : name ++ ".beamc" = join dir c) :
    ∃ stem : String, '/' ∉ stem.toList ∧ name = join dir stem := by
  have hchars : name.toList ++ ".beamc".toList = front dir.toList ++ c.toList := by
    rw [← toList_join_of_not_mem dir hc, ← h, String.toList_append]
  rcases List.append_eq_append_iff.mp hchars with ⟨rest, hfront, hending⟩ | ⟨stem, hname', hstem⟩
  · -- The directory would reach into the ending, which has no slash.
    have hrest : rest = [] := by
      by_contra hne
      have hdir : dir.toList ≠ [] := by
        intro hnil
        simp [front, hnil, hne] at hfront
      obtain ⟨d, hd, -⟩ := front_of_ne_nil hdir
      have hlast : rest.getLast? = some '/' := by
        rw [← List.getLast?_append_of_ne_nil name.toList hne, ← hfront, hd]
        simp
      have hmem : '/' ∈ ".beamc".toList := by
        rw [hending]
        exact List.mem_append_left _ (List.mem_of_getLast? hlast)
      exact absurd hmem (by decide)
    refine ⟨"", by simp, String.toList_inj.mp ?_⟩
    rw [toList_join_of_not_mem dir (by simp), hfront, hrest]
    simp
  · have hslash : '/' ∉ stem := fun hmem => hc (by simp [hstem, hmem])
    refine ⟨String.ofList stem, by simpa using hslash, String.toList_inj.mp ?_⟩
    rw [toList_join_of_not_mem dir (by simpa using hslash), hname']
    simp

/-- Where the listing of a module is, by the name of the module. -/
theorem directly_listingPath_iff (dir name : String) :
    Directly dir (Command.listingPath dir name) ↔ Confined dir name := by
  rw [Command.listingPath]
  constructor
  · rintro ⟨c, hc, h⟩
    by_cases hhead : (name ++ ".beamc").toList.head? = some '/'
    · have hself : join dir (name ++ ".beamc") = name ++ ".beamc" :=
        String.toList_inj.mp (by rw [toList_join, joinChars_of_absolute _ hhead])
      have hname : name.toList.head? = some '/' := by
        cases hlist : name.toList with
        | nil => simp [hlist] at hhead
        | cons d ds => simpa [hlist] using hhead
      exact .inr ⟨hname, exists_stem hc.no_slash (hself ▸ h)⟩
    · left
      intro hmem
      have hchars := congrArg String.toList h
      rw [toList_join, joinChars_of_relative _ hhead, toList_join_of_not_mem dir hc.no_slash,
        List.append_cancel_left_eq] at hchars
      exact hc.no_slash (by simp [← hchars, hmem])
  · rintro (hslash | ⟨hhead, stem, hstem, rfl⟩)
    · exact ⟨_, isComponent_listing hslash, rfl⟩
    · refine ⟨_, isComponent_listing hstem, String.toList_inj.mp ?_⟩
      have hne : (join dir stem).toList ≠ [] := by
        intro hnil
        simp [hnil] at hhead
      rw [toList_join, joinChars_of_absolute, toList_join_of_not_mem _ (isComponent_listing hstem).no_slash,
        String.toList_append, toList_join_of_not_mem dir hstem]
      · simp
      · rw [String.toList_append, List.head?_append_of_ne_nil _ hne, hhead]

end Path

/-! ## Parts of a command -/

namespace Session

variable {α β : Type} {x : Session α} {f : α → Session β} {w : World}

/-- A part of a command that starts in `w` ends with what `Q` says, with a result or with a fault. -/
def Ends (x : Session α) (w : World) (Q : Except Fault α → World → Prop) : Prop :=
  Q (x.run w).1 (x.run w).2

theorem Ends.mono {P Q : Except Fault α → World → Prop} (h : x.Ends w P) (hPQ : ∀ r v, P r v → Q r v) : x.Ends w Q :=
  hPQ _ _ h

/-- Two parts one after the other: the second starts where the first ends, unless that was a fault. -/
theorem Ends.bind {P : Except Fault α → World → Prop} {Q : Except Fault β → World → Prop} (hx : x.Ends w P)
    (hok : ∀ a v, P (.ok a) v → (f a).Ends v Q) (herror : ∀ e v, P (.error e) v → Q (.error e) v) :
    (x >>= f).Ends w Q := by
  rw [Ends] at hx ⊢
  rw [ExceptT.run_bind]
  simp only [Bind.bind, StateT.bind]
  rcases hrun : x.run w with ⟨e | a, v⟩
  · rw [hrun] at hx
    exact herror e v hx
  · rw [hrun] at hx
    exact hok a v hx

/-- A first part that cannot fail. -/
theorem Ends.bind_ok {a : α} {P : World → Prop} {Q : Except Fault β → World → Prop}
    (hx : x.Ends w fun r v => r = .ok a ∧ P v) (hok : ∀ v, P v → (f a).Ends v Q) : (x >>= f).Ends w Q := by
  refine hx.bind ?_ ?_
  · rintro b v ⟨hb, hv⟩
    rw [Except.ok.inj hb]
    exact hok v hv
  · rintro e v ⟨⟨⟩, -⟩

theorem run_bind_of_ok {a : α} {v : World} (h : x.run w = (.ok a, v)) (f : α → Session β) :
    (x >>= f).run w = (f a).run v := by
  rw [ExceptT.run_bind]
  simp only [Bind.bind, StateT.bind]
  rw [h]

theorem Ends.get_bind {f : World → Session β} {Q : Except Fault β → World → Prop} (h : (f w).Ends w Q) :
    ((get : Session World) >>= f).Ends w Q :=
  h

/-- Nothing but the output has changed. -/
structure Quiet (w v : World) : Prop where
  tree_eq : v.tree = w.tree
  opened_eq : v.opened = w.opened

theorem Quiet.refl (w : World) : Quiet w w := ⟨rfl, rfl⟩

theorem Quiet.trans {u v : World} (h : Quiet w v) (h' : Quiet v u) : Quiet w u :=
  ⟨h'.tree_eq.trans h.tree_eq, h'.opened_eq.trans h.opened_eq⟩

theorem ends_ofResult (r : Except Fault α) (w : World) : (ofResult r).Ends w fun r' v => r' = r ∧ v = w := by
  cases r <;> exact ⟨rfl, rfl⟩

theorem ends_say (s : String) (w : World) : (say s).Ends w fun r v => r = .ok () ∧ Quiet w v :=
  ⟨rfl, rfl, rfl⟩

/-- A result that is needed: the rest starts where it was asked for. -/
theorem Ends.ofResult_bind {r : Except Fault α} {Q : Except Fault β → World → Prop}
    (hok : ∀ a, r = .ok a → (f a).Ends w Q) (herror : ∀ e, r = .error e → Q (.error e) w) :
    (ofResult r >>= f).Ends w Q := by
  refine (ends_ofResult r w).bind ?_ ?_
  · rintro a v ⟨ha, rfl⟩
    exact hok a ha.symm
  · rintro e v ⟨he, rfl⟩
    exact herror e he.symm

/-- A text that is printed first. -/
theorem Ends.say_bind {s : String} {f : Unit → Session β} {Q : Except Fault β → World → Prop}
    (h : ∀ v, Quiet w v → (f ()).Ends v Q) : (say s >>= f).Ends w Q :=
  (ends_say s w).bind_ok h

end Session

namespace Command

open Session

theorem ends_nameOf (m : Module) (w : World) : (nameOf m).Ends w fun r v =>
    (∀ name, r = .ok name → ∃ atom, m.name = .ok atom ∧ name = Module.orNone atom) ∧ v = w := by
  refine Ends.ofResult_bind ?_ ?_
  · intro atom hatom
    refine ⟨?_, rfl⟩
    intro name hname
    exact ⟨atom, hatom, (Except.ok.inj hname).symm⟩
  · intro e _
    exact ⟨by simp, rfl⟩

/-- The analyses are those of the modules, and nothing is written meanwhile. -/
theorem ends_analyseAll (ms : List Module) (w : World) : (analyseAll ms).Ends w fun r v =>
    (∀ as, r = .ok as → as.map Analysis.module = ms) ∧ Quiet w v := by
  induction ms generalizing w with
  | nil =>
      refine ⟨?_, Quiet.refl w⟩
      intro as has
      rw [← Except.ok.inj has, List.map_nil]
  | cons m ms ih =>
      refine (ends_nameOf m w).bind ?_ fun e v h => ⟨by simp, h.2 ▸ Quiet.refl w⟩
      rintro name _ ⟨-, rfl⟩
      refine Ends.say_bind fun v hv => Ends.ofResult_bind ?_ fun e _ => ⟨by simp, hv⟩
      rintro ⟨a, warnings⟩ hbuild
      refine Ends.say_bind fun u hu => (ih u).bind ?_ fun e t h => ⟨by simp, (hv.trans hu).trans h.2⟩
      rintro as t ⟨has, ht⟩
      refine ⟨?_, (hv.trans hu).trans ht⟩
      rintro _ hall
      obtain ⟨code, bs, fs, -, -, -, rfl⟩ := Analysis.exists_of_build hbuild
      rw [← Except.ok.inj hall, List.map_cons, has as rfl]

/-- Annotations leave the modules as they are, and nothing is written meanwhile. -/
theorem ends_annotateAll (is : List Nat) (as : List Analysis) (w : World) : (annotateAll is as).Ends w fun r v =>
    (∀ bs, r = .ok bs → bs.map Analysis.module = as.map Analysis.module) ∧ Quiet w v := by
  induction is generalizing as w with
  | nil =>
      refine ⟨?_, Quiet.refl w⟩
      intro bs hbs
      rw [← Except.ok.inj hbs]
  | cons i is ih =>
      rw [annotateAll]
      cases as[i]? with
      | none => exact ih as w
      | some a =>
          refine (ends_nameOf a.module w).bind ?_ fun e v h => ⟨by simp, h.2 ▸ Quiet.refl w⟩
          rintro name _ ⟨-, rfl⟩
          refine Ends.say_bind fun v hv => ?_
          rcases hstep : Analysis.annotate as i (List.range as.length) with ⟨marked, _ | e⟩
          · obtain ⟨_, -, -, hgain⟩ := Analysis.annotate_spec hstep
            refine (ih marked v).mono ?_
            rintro r u ⟨hr, hu⟩
            exact ⟨fun bs hbs => (hr bs hbs).trans hgain.map_module, hv.trans hu⟩
          · exact ⟨by rintro bs ⟨⟩, hv⟩

/-- Making the output directory changes no file. A directory without a path cannot be made. -/
theorem ends_ensureDirectory (dir : String) (w : World) : (ensureDirectory dir).Ends w fun r v =>
    (r = .ok () → dir ≠ "") ∧ v.tree.files = w.tree.files ∧ v.tree.here = w.tree.here ∧ v.opened = w.opened := by
  have hleads : w.tree.pathLeads dir = true → dir ≠ "" := by
    rintro h rfl
    simp [FileTree.pathLeads, FileTree.locate] at h
  refine Ends.get_bind ?_
  split
  · next h => exact ⟨fun _ => hleads h, rfl, rfl, rfl⟩
  · refine Ends.ofResult_bind ?_ fun e _ => ⟨by simp, rfl, rfl, rfl⟩
    intro tree htree
    have hkeeps := FileTree.makeDirectories_spec htree
    refine ⟨?_, hkeeps.1, hkeeps.2, rfl⟩
    rintro - rfl
    simp [FileTree.makeDirectories, FileTree.makeDirectory, FileTree.locate, bind, Except.bind] at htree

/-! ## Listings -/

/-- The files at the paths have been opened for writing one after the other, and nothing but their content has
changed. -/
structure Wrote (paths : List String) (w v : World) : Prop where
  opened_eq : v.opened = w.opened ++ paths
  directories_eq : v.tree.directories = w.tree.directories
  here_eq : v.tree.here = w.tree.here
  leads : ∀ p ∈ paths, ∃ l, w.tree.locate p = .ok l
  kept : ∀ l, (∀ p ∈ paths, w.tree.locate p ≠ .ok l) → v.tree.contentAt? l = w.tree.contentAt? l

namespace Wrote

variable {w v u : World} {ps qs : List String}

theorem of_quiet (h : Quiet w v) : Wrote [] w v :=
  ⟨by simp [h.opened_eq], by rw [h.tree_eq], by rw [h.tree_eq], by simp, fun l _ => by rw [h.tree_eq]⟩

/-- Writing does not change where paths lead. -/
theorem locate (h : Wrote ps w v) {path : String} {l : Location} :
    v.tree.locate path = .ok l ↔ w.tree.locate path = .ok l :=
  ⟨FileTree.locate_of_directories h.directories_eq.symm h.here_eq.symm,
    FileTree.locate_of_directories h.directories_eq h.here_eq⟩

theorem trans (h : Wrote ps w v) (h' : Wrote qs v u) : Wrote (ps ++ qs) w u where
  opened_eq := by rw [h'.opened_eq, h.opened_eq, List.append_assoc]
  directories_eq := h'.directories_eq.trans h.directories_eq
  here_eq := h'.here_eq.trans h.here_eq
  leads p hp := by
    rcases List.mem_append.mp hp with hp | hp
    · exact h.leads p hp
    · obtain ⟨l, hl⟩ := h'.leads p hp
      exact ⟨l, h.locate.mp hl⟩
  kept l hl := by
    rw [h'.kept l, h.kept l]
    · exact fun p hp => hl p (by simp [hp])
    · intro p hp hlocate
      exact hl p (by simp [hp]) (h.locate.mp hlocate)

theorem of_opened {path : String} {l : Location} (hl : w.tree.locate path = .ok l) :
    Wrote [path] w { w with opened := w.opened ++ [path] } :=
  ⟨rfl, rfl, rfl, fun p hp => ⟨l, by rwa [List.mem_singleton.mp hp]⟩, fun _ _ => rfl⟩

/-- A file that is open can be written. -/
theorem put (h : Wrote ps w v) {path : String} (hp : path ∈ ps) {l : Location} (hl : w.tree.locate path = .ok l)
    (b : Bytes) : Wrote ps w { v with tree := v.tree.put l b } where
  opened_eq := h.opened_eq
  directories_eq := by simp [h.directories_eq]
  here_eq := by simp [h.here_eq]
  leads := h.leads
  kept m hm := by
    have hne : m ≠ l := by
      rintro rfl
      exact hm path hp hl
    exact (FileTree.contentAt?_put_of_ne hne b).trans (h.kept m hm)

end Wrote

theorem ends_createFile (path : String) (w : World) : (createFile path).Ends w fun r v =>
    (∀ l, r = .ok l → w.tree.locate path = .ok l ∧ Wrote [path] w v) ∧ ∀ e, r = .error e → v = w := by
  refine Ends.get_bind (Ends.ofResult_bind ?_ fun e _ => ⟨by simp, fun _ _ => rfl⟩)
  rintro ⟨tree, l⟩ hcreate
  rw [FileTree.create] at hcreate
  obtain ⟨m, hm, hcreate⟩ := exists_of_bind hcreate
  split at hcreate
  · cases hcreate
  · obtain ⟨rfl, rfl⟩ := Prod.mk.inj (Except.ok.inj hcreate)
    refine ⟨?_, by rintro e ⟨⟩⟩
    rintro _ ⟨⟩
    exact ⟨hm, (Wrote.of_opened hm).put (by simp) hm []⟩

/-- The path at which the listing of a module is written. -/
def ListedAt (dir : String) (m : Module) (path : String) : Prop :=
  ∃ atom, m.name = .ok atom ∧ path = listingPath dir (Module.orNone atom)

/-- The listing is written to its file, or there is a fault: before the file is opened, or afterwards. -/
theorem ends_writeListing (dir : String) (a : Analysis) (w : World) : (writeListing dir a).Ends w fun r v =>
    (r ≠ .ok () ∧ Wrote [] w v) ∨ ∃ path, ListedAt dir a.module path ∧ Wrote [path] w v := by
  refine (ends_nameOf a.module w).bind ?_ fun e v h => .inl ⟨by simp, .of_quiet (h.2 ▸ Quiet.refl w)⟩
  rintro name w ⟨hname, rfl⟩
  obtain ⟨atom, hatom, rfl⟩ := hname name rfl
  refine Ends.say_bind fun v hv => (ends_createFile _ v).bind ?_ ?_
  · rintro l u ⟨hok, -⟩
    obtain ⟨hl, hwrote⟩ := hok l rfl
    have hopened : Wrote [listingPath dir (Module.orNone atom)] w u := (Wrote.of_quiet hv).trans hwrote
    refine Ends.ofResult_bind (fun text _ => ?_) fun e _ => .inr ⟨_, ⟨atom, hatom, rfl⟩, hopened⟩
    exact .inr ⟨_, ⟨atom, hatom, rfl⟩, hopened.put (List.mem_singleton_self _) (by rwa [← hv.tree_eq]) _⟩
  · rintro e u ⟨-, herror⟩
    exact .inl ⟨by simp, herror e rfl ▸ .of_quiet hv⟩

/-- Listings are written one after the other, up to the first fault. -/
theorem ends_writeAll (dir : String) (as : List Analysis) (w : World) : (writeAll dir as).Ends w fun r v =>
    ∃ paths, List.Forall₂ (ListedAt dir) ((as.map Analysis.module).take paths.length) paths ∧ Wrote paths w v ∧
      (r = .ok () → paths.length = as.length) := by
  induction as generalizing w with
  | nil => exact ⟨[], by simp, .of_quiet (Quiet.refl w), fun _ => rfl⟩
  | cons a as ih =>
      refine (ends_writeListing dir a w).bind ?_ ?_
      · rintro _ v (⟨hfault, -⟩ | ⟨path, hpath, hwrote⟩)
        · exact absurd rfl hfault
        · refine (ih v).mono ?_
          rintro r u ⟨paths, hlisted, hmore, hall⟩
          exact ⟨path :: paths, .cons hpath hlisted, hwrote.trans hmore, fun hr => by simp [hall hr]⟩
      · rintro e v (⟨-, hwrote⟩ | ⟨path, hpath, hwrote⟩)
        · exact ⟨[], by simp, hwrote, by simp⟩
        · exact ⟨[path], by simp [hpath], hwrote, by simp⟩

/-- Once the directory is there, nothing happens but that listings are written. -/
theorem ends_disassemble (ms : List Module) (dir : String) (w : World) : (disassemble ms dir).Ends w fun r v =>
    ∃ u paths, u.tree.files = w.tree.files ∧ u.opened = w.opened ∧ Wrote paths u v ∧ (paths ≠ [] → dir ≠ "") ∧
      List.Forall₂ (ListedAt dir) (ms.take paths.length) paths ∧ (r = .ok () → paths.length = ms.length) := by
  have hstops : ∀ e : Fault, ∀ v, v.tree.files = w.tree.files → v.opened = w.opened →
      ∃ u paths, u.tree.files = w.tree.files ∧ u.opened = w.opened ∧ Wrote paths u v ∧ (paths ≠ [] → dir ≠ "") ∧
        List.Forall₂ (ListedAt dir) (ms.take paths.length) paths ∧
        ((.error e : Except Fault Unit) = .ok () → paths.length = ms.length) :=
    fun e v hfiles hopened => ⟨v, [], hfiles, hopened, .of_quiet (Quiet.refl v), by simp, by simp, by simp⟩
  refine (ends_analyseAll ms w).bind ?_ fun e v h => hstops e v (by rw [h.2.tree_eq]) h.2.opened_eq
  rintro as v ⟨has, hv⟩
  refine (ends_annotateAll _ as v).bind ?_ ?_
  · rintro bs u ⟨hbs, hu⟩
    have hquiet := hv.trans hu
    have hmodules : bs.map Analysis.module = ms := (hbs bs rfl).trans (has as rfl)
    refine (ends_ensureDirectory dir u).bind ?_ ?_
    · rintro _ t ⟨hdir, hfiles, -, hopened⟩
      refine (ends_writeAll dir bs t).mono ?_
      rintro r s ⟨paths, hlisted, hwrote, hall⟩
      have hlength : bs.length = ms.length := by rw [← hmodules, List.length_map]
      refine ⟨t, paths, hfiles.trans (by rw [hquiet.tree_eq]), hopened.trans hquiet.opened_eq, hwrote,
        fun _ => hdir rfl, hmodules ▸ hlisted, fun hr => (hall hr).trans hlength⟩
    · rintro e t ⟨-, hfiles, -, hopened⟩
      exact hstops e t (hfiles.trans (by rw [hquiet.tree_eq])) (hopened.trans hquiet.opened_eq)
  · rintro e u ⟨-, hu⟩
    have hquiet := hv.trans hu
    exact hstops e u (by rw [hquiet.tree_eq]) hquiet.opened_eq

/-- The listings are in the directory if the names of their modules keep them there. -/
theorem directly_iff_of_listedAt {dir : String} {ms : List Module} {paths : List String}
    (h : List.Forall₂ (ListedAt dir) ms paths) : (∀ p ∈ paths, Path.Directly dir p) ↔
      ∀ m ∈ ms, ∃ atom, m.name = .ok atom ∧ Path.Confined dir (Module.orNone atom) := by
  induction h with
  | nil => simp
  | @cons m p ms paths hp _ ih =>
      obtain ⟨atom, hatom, rfl⟩ := hp
      simp [ih, hatom, Path.directly_listingPath_iff]

/-- The files that are opened are those of the listings, in the order of the modules, and nothing else is changed.
They are all directly in the output directory if and only if the names of the modules have no slash, or are absolute
and spell the output directory out. -/
theorem disassemble_opens_directly_iff (ms : List Module) (dir : String) (w : World) :
    ∃ r v paths, (disassemble ms dir).run w = (r, v) ∧ v.opened = w.opened ++ paths ∧
      List.Forall₂ (ListedAt dir) (ms.take paths.length) paths ∧ (r = .ok () → paths.length = ms.length) ∧
      ((∀ p ∈ paths, Path.Directly dir p) ↔
        ∀ m ∈ ms.take paths.length, ∃ atom, m.name = .ok atom ∧ Path.Confined dir (Module.orNone atom)) ∧
      (∀ l, v.tree.contentAt? l ≠ w.tree.contentAt? l → ∃ p ∈ paths, v.tree.locate p = .ok l) ∧
      ∀ p ∈ paths, Path.Directly dir p →
        ∃ below c, v.tree.locate dir = .ok below ∧ v.tree.locate p = .ok (below ++ [c]) := by
  have hends := ends_disassemble ms dir w
  rcases hrun : (disassemble ms dir).run w with ⟨r, v⟩
  rw [Ends, hrun] at hends
  obtain ⟨u, paths, hfiles, hopened, hwrote, hdir, hlisted, hall⟩ := hends
  refine ⟨r, v, paths, rfl, by rw [hwrote.opened_eq, hopened], hlisted, hall, directly_iff_of_listedAt hlisted, ?_, ?_⟩
  · intro l hl
    by_contra hnone
    refine hl ((hwrote.kept l ?_).trans (by rw [FileTree.contentAt?, hfiles]; rfl))
    intro p hp hlocate
    exact hnone ⟨p, hp, hwrote.locate.mpr hlocate⟩
  · rintro p hp ⟨c, hc, rfl⟩
    obtain ⟨l, hl⟩ := hwrote.leads _ hp
    obtain ⟨below, hbelow, rfl⟩ := FileTree.locate_join (hdir (List.ne_nil_of_mem hp)) hc hl
    exact ⟨below, c, hwrote.locate.mpr hbelow, hwrote.locate.mpr hl⟩

/-- A module with a name that leads out of the directory, and no code. -/
def climbing : Module :=
  { atoms := some ⟨AtomTable.placeholder :: [Bytes.ofText "../evil"]⟩
    code := some [] }

/-- What is found out about `climbing`. -/
def climbingAnalysis : Analysis :=
  { module := climbing, functions := [], blocks := [] }

theorem run_nameOf_climbing (w : World) : (nameOf climbing).run w = (.ok "../evil", w) := by
  have hname : climbing.name = .ok (some "../evil") := by with_unfolding_all rfl
  rw [nameOf, hname]
  rfl

theorem ends_analyseAll_climbing (w : World) : (analyseAll [climbing]).Ends w fun r v =>
    r = .ok [climbingAnalysis] ∧ Quiet w v := by
  have hbuild : Analysis.build climbing = .ok (climbingAnalysis, 0) := by with_unfolding_all rfl
  rw [Ends, analyseAll, run_bind_of_ok (run_nameOf_climbing w), hbuild]
  exact ⟨rfl, rfl, rfl⟩

theorem ends_annotateAll_climbing (w : World) : (annotateAll [0] [climbingAnalysis]).Ends w fun r v =>
    r = .ok [climbingAnalysis] ∧ Quiet w v := by
  have hrun : (annotateAll [0] [climbingAnalysis]).run w = _ := run_bind_of_ok (run_nameOf_climbing w) _
  rw [Ends, hrun]
  exact ⟨rfl, rfl, rfl⟩

theorem ends_writeListing_climbing {w : World} (h : w.tree = ⟨[["work"], ["work", "out"]], [], ["work"]⟩) :
    (writeListing "out" climbingAnalysis).Ends w fun r v => r = .ok () ∧
      v.opened = w.opened ++ ["out/../evil.beamc"] ∧ v.tree.directories = [["work"], ["work", "out"]] ∧
      v.tree.files = [(["work", "evil.beamc"], Bytes.ofText "; Module: ../evil\n\n")] := by
  have htext : climbingAnalysis.text = .ok "; Module: ../evil\n\n" := by with_unfolding_all rfl
  have hmodule : climbingAnalysis.module = climbing := rfl
  obtain ⟨tree, output, opened⟩ := w
  subst h
  rw [Ends, writeListing, htext, hmodule, run_bind_of_ok (run_nameOf_climbing _)]
  exact ⟨rfl, rfl, rfl, rfl⟩

/-- The listing of the module is next to the output directory. -/
theorem disassemble_opens_outside :
    ∃ v, (disassemble [climbing] "out").run { tree := ⟨[["work"]], [], ["work"]⟩ } = (.ok (), v) ∧
      v.opened = ["out/../evil.beamc"] ∧ ¬ Path.Directly "out" "out/../evil.beamc" ∧
      v.tree.directories = [["work"], ["work", "out"]] ∧
      v.tree.files = [(["work", "evil.beamc"], Bytes.ofText "; Module: ../evil\n\n")] := by
  have hslash : ¬ Path.Directly "out" (listingPath "out" "../evil") := by
    rw [Path.directly_listingPath_iff, Path.Confined]
    simp
  have hends : (disassemble [climbing] "out").Ends { tree := ⟨[["work"]], [], ["work"]⟩ } fun r v => r = .ok () ∧
      v.opened = ["out/../evil.beamc"] ∧ v.tree.directories = [["work"], ["work", "out"]] ∧
      v.tree.files = [(["work", "evil.beamc"], Bytes.ofText "; Module: ../evil\n\n")] := by
    refine (ends_analyseAll_climbing _).bind_ok fun v hv => (ends_annotateAll_climbing v).bind_ok fun u hu => ?_
    obtain ⟨tree, output, opened⟩ := u
    obtain ⟨rfl, rfl⟩ := hv.trans hu
    -- The directory is not there yet, so it is made, whatever has been printed so far.
    refine Ends.bind_ok (a := ()) (P := (· = _)) ⟨rfl, rfl⟩ ?_
    rintro _ rfl
    exact (ends_writeListing_climbing rfl).bind_ok fun v hv => ⟨rfl, hv⟩
  rcases hrun : (disassemble [climbing] "out").run { tree := ⟨[["work"]], [], ["work"]⟩ } with ⟨r, v⟩
  rw [Ends, hrun] at hends
  obtain ⟨rfl, hopened, hdirectories, hfiles⟩ := hends
  exact ⟨v, rfl, hopened, hslash, hdirectories, hfiles⟩

end Command

end BeamDisasm

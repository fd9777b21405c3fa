import BeamDisasm.Proofs.CrossReferences
import BeamDisasm.Proofs.OutputFiles
import BeamDisasm.Proofs.Utf8

/-!
# Listings that are kept

A command writes the listing of every module, one after the other, to a file that is named for the module. A file that
has been written already is written over. So a listing is lost if a later one goes to the same file, unless some module
with the same listing keeps its file.
-/
namespace BeamDisasm

namespace Bytes

/-- Texts with the same bytes are the same. -/
theorem ofText_injective : Function.Injective ofText := by
  intro s t h
  have hs := Text.utf8_ofText s
  rw [h, Text.utf8_ofText] at hs
  exact (Except.ok.inj hs).symm

end Bytes

/-! ## Files that have been written -/

namespace FileTree

variable {t : FileTree} {l : Location} {path : String}

theorem walk_of_follow {cs : List String} {l' : Location} (h : t.follow l cs = .ok l') : walk l cs = l' := by
  induction cs generalizing l with
  | nil => exact Except.ok.inj h
  | cons c cs ih =>
      rw [follow] at h
      obtain ⟨_, -, h⟩ := exists_of_bind h
      rw [walk]
      split at h
      · next hc => rw [if_pos hc, ih h]
      · next hc =>
        rw [if_neg hc]
        split at h
        · next hup => rw [if_pos hup, ih h]
        · next hup =>
          rw [if_neg hup]
          split at h
          · cases h
          · exact ih h

/-- A path that leads somewhere leads where it says. -/
theorem destination_of_locate (h : t.locate path = .ok l) : destination t.here path = l :=
  walk_of_follow (locate_eq_ok_iff.mp h).2.2.2

theorem contentAt?_put_self (t : FileTree) (l : Location) (b : Bytes) : (t.put l b).contentAt? l = some b := by
  have hmap : ∀ fs : List (Location × Bytes), (fs.lookup l).isSome = true →
      (fs.map fun f => if f.1 = l then (l, b) else f).lookup l = some b := by
    intro fs hfs
    induction fs with
    | nil => simp at hfs
    | cons f fs ih =>
        obtain ⟨place, content⟩ := f
        by_cases hplace : place = l
        · simp [hplace]
        · have hne : (l == place) = false := beq_eq_false_iff_ne.mpr (Ne.symm hplace)
          simp only [List.lookup_cons, hne] at hfs
          simp [List.lookup_cons, hplace, hne, ih hfs]
  rw [put]
  split
  · next h => exact hmap t.files h
  · next h =>
    have hnone : t.files.lookup l = none := Option.not_isSome_iff_eq_none.mp h
    simp [contentAt?, List.lookup_append, hnone]

theorem isDirectory_put (t : FileTree) (l m : Location) (b : Bytes) :
    (t.put l b).isDirectory m = t.isDirectory m := by
  rw [isDirectory, directories_put, isDirectory]

/-- A file that has been put where a path leads is read there. -/
theorem read_put_self (hl : t.locate path = .ok l) (hdir : t.isDirectory l = false) (b : Bytes) :
    (t.put l b).read path = .ok b := by
  have hlocate : (t.put l b).locate path = .ok l :=
    locate_of_directories (directories_put t l b) (here_put t l b) hl
  rw [read, hlocate]
  simp [bind, Except.bind, isDirectory_put, hdir, contentAt?_put_self, pure, Except.pure]

/-- What is read at a path depends on the place that it leads to. -/
theorem read_eq_of_locate {path' : String} (hl : t.locate path = .ok l) (hl' : t.locate path' = .ok l) :
    t.read path = t.read path' := by
  rw [read, read, hl, hl']

/-- Directly below a directory, different paths lead to different places. -/
theorem eq_of_directly {dir path' : String} (hdir : dir ≠ "") (hp : Path.Directly dir path)
    (hp' : Path.Directly dir path') (hl : t.locate path = .ok l) (hl' : t.locate path' = .ok l) : path = path' := by
  obtain ⟨c, hc, rfl⟩ := hp
  obtain ⟨c', hc', rfl⟩ := hp'
  obtain ⟨below, -, rfl⟩ := locate_join hdir hc hl
  obtain ⟨below', -, hsame⟩ := locate_join hdir hc' hl'
  have hname : c = c' := by simpa using (List.append_inj' hsame rfl).2
  rw [hname]

theorem exists_of_create {t' : FileTree} (h : t.create path = .ok (t', l)) :
    t.locate path = .ok l ∧ t.isDirectory l = false ∧ t' = t.put l [] := by
  rw [create] at h
  obtain ⟨m, hm, h⟩ := exists_of_bind h
  split at h
  · cases h
  · next hdir =>
    obtain ⟨rfl, rfl⟩ := Prod.mk.inj (Except.ok.inj h)
    exact ⟨hm, by simpa using hdir, rfl⟩

end FileTree

/-! ## Listings -/

namespace Analysis

/-- The listings of modules that are disassembled together. -/
def listings (ms : List Module) : Except Fault (List String) := do
  let as ← ms.mapM fun m => (build m).map Prod.fst
  let as ← annotateEach (List.range as.length) as
  as.mapM text

end Analysis

namespace Session

theorem Ends.and {α : Type} {x : Session α} {w : World} {P Q : Except Fault α → World → Prop} (hP : x.Ends w P)
    (hQ : x.Ends w Q) : x.Ends w fun r v => P r v ∧ Q r v :=
  ⟨hP, hQ⟩

end Session

namespace Command

open Session

variable {dir : String} {w v : World} {here : Location} {listed : List (String × String)}

theorem ends_analyseAll_build (ms : List Module) (w : World) : (analyseAll ms).Ends w fun r _ =>
    ∀ as, r = .ok as → (ms.mapM fun m => (Analysis.build m).map Prod.fst) = .ok as := by
  induction ms generalizing w with
  | nil =>
      intro as has
      rw [← Except.ok.inj has]
      rfl
  | cons m ms ih =>
      refine (ends_nameOf m w).bind ?_ fun e v _ => by simp
      rintro name v -
      refine Ends.say_bind fun u _ => Ends.ofResult_bind ?_ fun e _ => by simp
      rintro ⟨a, warnings⟩ hbuild
      refine Ends.say_bind fun t _ => (ih t).bind ?_ fun e s _ => by simp
      intro as s has bs hbs
      rw [List.mapM_cons, hbuild, has as rfl, ← Except.ok.inj hbs]
      rfl

theorem Wrote.isDirectory_eq {paths : List String} (h : Wrote paths w v) (l : Location) :
    v.tree.isDirectory l = w.tree.isDirectory l := by
  rw [FileTree.isDirectory, h.directories_eq, FileTree.isDirectory]

/-- A file stays as it is while others are written. -/
theorem Wrote.read_eq {paths : List String} {path : String} {l : Location} (h : Wrote paths w v)
    (hl : w.tree.locate path = .ok l) (hne : ∀ p ∈ paths, w.tree.locate p ≠ .ok l) :
    v.tree.read path = w.tree.read path := by
  rw [FileTree.read, FileTree.read, h.locate.mpr hl, hl]
  change (if _ then _ else _) = (if _ then _ else _)
  rw [h.isDirectory_eq, h.kept l hne]

theorem ends_createFile_place (path : String) (w : World) : (createFile path).Ends w fun r _ =>
    ∀ l, r = .ok l → w.tree.isDirectory l = false := by
  refine Ends.get_bind (Ends.ofResult_bind ?_ fun e _ => by simp)
  rintro ⟨tree, l⟩ hcreate
  rintro _ ⟨⟩
  exact (FileTree.exists_of_create hcreate).2.1

/-- A listing that has been written is in its file. -/
theorem ends_writeListing_read (dir : String) (a : Analysis) (w : World) : (writeListing dir a).Ends w fun r v =>
    r = .ok () → ∃ path text, ListedAt dir a.module path ∧ a.text = .ok text ∧ Wrote [path] w v ∧
      v.tree.read path = .ok (Bytes.ofText text) := by
  refine (ends_nameOf a.module w).bind ?_ fun e v _ => by simp
  rintro name w ⟨hname, rfl⟩
  obtain ⟨atom, hatom, rfl⟩ := hname name rfl
  refine Ends.say_bind fun v hv => ?_
  refine ((ends_createFile _ v).and (ends_createFile_place _ v)).bind ?_ fun e u _ => by simp
  rintro l u ⟨⟨hok, -⟩, hplace⟩
  obtain ⟨hl, hwrote⟩ := hok l rfl
  refine Ends.ofResult_bind (fun text htext => ?_) fun e _ => by simp
  have hopened : Wrote [listingPath dir (Module.orNone atom)] w u := (Wrote.of_quiet hv).trans hwrote
  have hplaced : w.tree.locate (listingPath dir (Module.orNone atom)) = .ok l := hv.tree_eq ▸ hl
  rintro -
  refine ⟨_, text, ⟨atom, hatom, rfl⟩, htext, hopened.put (List.mem_singleton_self _) hplaced _, ?_⟩
  exact FileTree.read_put_self (hwrote.locate.mpr hl) ((hwrote.isDirectory_eq l).trans (hplace l rfl)) _

/-- The listing is the last of those that go where its path says. -/
def Lasting (here : Location) (listed : List (String × String)) (y : String × String) : Prop :=
  ∃ before after, listed = before ++ y :: after ∧
    ∀ z ∈ after, FileTree.destination here z.1 ≠ FileTree.destination here y.1

theorem Lasting.mem {y : String × String} (h : Lasting here listed y) : y ∈ listed := by
  obtain ⟨before, after, rfl, -⟩ := h
  simp

theorem lasting_cons_iff {x y : String × String} : Lasting here (x :: listed) y ↔
    (y = x ∧ ∀ z ∈ listed, FileTree.destination here z.1 ≠ FileTree.destination here x.1) ∨ Lasting here listed y := by
  constructor
  · rintro ⟨_ | ⟨b, before⟩, after, hsplit, hafter⟩
    · obtain ⟨rfl, rfl⟩ := List.cons.inj hsplit
      exact .inl ⟨rfl, hafter⟩
    · exact .inr ⟨before, after, (List.cons.inj hsplit).2, hafter⟩
  · rintro (⟨rfl, hafter⟩ | ⟨before, after, rfl, hafter⟩)
    · exact ⟨[], listed, rfl, hafter⟩
    · exact ⟨x :: before, after, rfl, hafter⟩

/-- Wherever a listing goes, there is a last one that goes there. -/
theorem exists_lasting {x : String × String} (hx : x ∈ listed) : ∃ y, Lasting here listed y ∧
    FileTree.destination here y.1 = FileTree.destination here x.1 := by
  induction listed generalizing x with
  | nil => simp at hx
  | cons a listed ih =>
      by_cases hlater : ∃ z ∈ listed, FileTree.destination here z.1 = FileTree.destination here x.1
      · obtain ⟨z, hz, hsame⟩ := hlater
        obtain ⟨y, hy, hplace⟩ := ih hz
        exact ⟨y, lasting_cons_iff.mpr (.inr hy), hplace.trans hsame⟩
      · obtain rfl | hmem := List.mem_cons.mp hx
        · exact ⟨x, lasting_cons_iff.mpr (.inl ⟨rfl, by simpa using hlater⟩), rfl⟩
        · exact absurd ⟨x, hmem, rfl⟩ hlater

/-- The listings have been written, and those that are the last in their places can be read. -/
structure Keeps (listed : List (String × String)) (w v : World) : Prop where
  wrote : Wrote (listed.map Prod.fst) w v
  read_eq : ∀ y, Lasting w.tree.here listed y → v.tree.read y.1 = .ok (Bytes.ofText y.2)

theorem ends_writeAll_keeps (dir : String) (as : List Analysis) (w : World) : (writeAll dir as).Ends w fun r v =>
    r = .ok () → ∃ listed, as.mapM Analysis.text = .ok (listed.map Prod.snd) ∧
      List.Forall₂ (ListedAt dir) (as.map Analysis.module) (listed.map Prod.fst) ∧ Keeps listed w v := by
  induction as generalizing w with
  | nil =>
      rintro -
      refine ⟨[], rfl, .nil, .of_quiet (Quiet.refl w), ?_⟩
      intro y hy
      simpa using hy.mem
  | cons a as ih =>
      refine (ends_writeListing_read dir a w).bind ?_ fun e v _ => by simp
      intro _ v hfirst
      obtain ⟨path, text, hpath, htext, hwrote, hread⟩ := hfirst rfl
      refine (ih v).mono ?_
      intro r u hrest hr
      obtain ⟨listed, htexts, hlisted, hkeeps⟩ := hrest hr
      refine ⟨(path, text) :: listed, ?_, .cons hpath hlisted, hwrote.trans hkeeps.wrote, ?_⟩
      · rw [List.mapM_cons, htext, htexts]
        rfl
      · intro y hy
        obtain ⟨rfl, hlater⟩ | hy := lasting_cons_iff.mp hy
        · -- Nothing else is written to the file of the first listing.
          obtain ⟨l, hl⟩ := hwrote.leads path (List.mem_singleton_self path)
          rw [hkeeps.wrote.read_eq (hwrote.locate.mpr hl), hread]
          intro p hp hp'
          obtain ⟨z, hz, rfl⟩ := List.mem_map.mp hp
          refine hlater z hz ?_
          rw [FileTree.destination_of_locate hl, FileTree.destination_of_locate (hwrote.locate.mp hp')]
        · exact hkeeps.read_eq y (hwrote.here_eq ▸ hy)

/-- Once the directory is there, the listings are written that the modules have together. -/
theorem ends_disassemble_keeps (ms : List Module) (dir : String) (w : World) : (disassemble ms dir).Ends w fun r v =>
    r = .ok () → ∃ u listed, u.opened = w.opened ∧ u.tree.here = w.tree.here ∧ dir ≠ "" ∧
      Analysis.listings ms = .ok (listed.map Prod.snd) ∧ List.Forall₂ (ListedAt dir) ms (listed.map Prod.fst) ∧
      Keeps listed u v := by
  refine ((ends_analyseAll ms w).and (ends_analyseAll_build ms w)).bind ?_ fun e v _ => by simp
  rintro as v ⟨⟨has, hv⟩, hbuilt⟩
  have hannotate : (annotateAll (List.range as.length) as).Ends v fun r _ =>
      ∀ bs, r = .ok bs → Analysis.annotateEach (List.range as.length) as = .ok bs :=
    fun bs hbs => annotateEach_of_annotateAll (fun i hi => List.mem_range.mp hi) (Prod.ext hbs rfl)
  refine ((ends_annotateAll _ as v).and hannotate).bind ?_ fun e u _ => by simp
  rintro bs u ⟨⟨hbs, hu⟩, heach⟩
  have hquiet := hv.trans hu
  have hmodules : bs.map Analysis.module = ms := (hbs bs rfl).trans (has as rfl)
  refine (ends_ensureDirectory dir u).bind ?_ fun e t _ => by simp
  rintro _ t ⟨hdir, -, hhere, hopened⟩
  refine (ends_writeAll_keeps dir bs t).mono ?_
  intro r s hkept hr
  obtain ⟨listed, htexts, hlisted, hkeeps⟩ := hkept hr
  have hlistings : Analysis.listings ms = .ok (listed.map Prod.snd) := by
    rw [Analysis.listings, hbuilt as rfl]
    change (Analysis.annotateEach (List.range as.length) as >>= _) = _
    rw [heach bs rfl]
    exact htexts
  exact ⟨t, listed, hopened.trans hquiet.opened_eq, hhere.trans (by rw [hquiet.tree_eq]), hdir rfl, hlistings,
    hmodules ▸ hlisted, hkeeps⟩

theorem listedAt_unique {ms : List Module} {paths paths' : List String} (h : List.Forall₂ (ListedAt dir) ms paths)
    (h' : List.Forall₂ (ListedAt dir) ms paths') : paths = paths' := by
  refine List.right_unique_forall₂' ?_ h h'
  rintro m _ _ ⟨atom, hatom, rfl⟩ ⟨atom', hatom', rfl⟩
  rw [hatom, Except.ok.injEq] at hatom'
  rw [hatom']

/-- After modules have been disassembled, there is a file with the listing of every module if and only if every listing
is also that of a module whose file is not written over by the listing of a later one. No listing is lost if the files
are directly in the output directory and all different. -/
theorem disassemble_keeps_listings_iff {ms : List Module} (h : (disassemble ms dir).run w = (.ok (), v)) :
    ∃ listed, Analysis.listings ms = .ok (listed.map Prod.snd) ∧
      List.Forall₂ (ListedAt dir) ms (listed.map Prod.fst) ∧ v.opened = w.opened ++ listed.map Prod.fst ∧
      ((∀ x ∈ listed, ∃ y ∈ listed, v.tree.read y.1 = .ok (Bytes.ofText x.2)) ↔
        ∀ x ∈ listed, ∃ y, Lasting w.tree.here listed y ∧ y.2 = x.2) ∧
      ((∀ x ∈ listed, Path.Directly dir x.1) → (listed.map Prod.fst).Nodup →
        ∀ x ∈ listed, v.tree.read x.1 = .ok (Bytes.ofText x.2)) := by
  have hends := ends_disassemble_keeps ms dir w
  rw [Ends, h] at hends
  obtain ⟨u, listed, hopened, hhere, hdir, hlistings, hlisted, hwrote, hread⟩ := hends rfl
  have hleads : ∀ x ∈ listed, v.tree.locate x.1 = .ok (FileTree.destination u.tree.here x.1) := by
    intro x hx
    obtain ⟨l, hl⟩ := hwrote.leads x.1 (List.mem_map_of_mem hx)
    rw [hwrote.locate, FileTree.destination_of_locate hl, hl]
  -- Whatever is read in a file that was written is the listing that was the last to go there.
  have hlast : ∀ x ∈ listed, ∃ y, Lasting u.tree.here listed y ∧
      v.tree.locate y.1 = .ok (FileTree.destination u.tree.here x.1) ∧ v.tree.read x.1 = .ok (Bytes.ofText y.2) := by
    intro x hx
    obtain ⟨y, hy, hplace⟩ := exists_lasting hx
    have hlocate := hplace ▸ hleads y hy.mem
    exact ⟨y, hy, hlocate, (FileTree.read_eq_of_locate (hleads x hx) hlocate).trans (hread y hy)⟩
  rw [← hhere]
  refine ⟨listed, hlistings, hlisted, by rw [hwrote.opened_eq, hopened], ⟨?_, ?_⟩, ?_⟩
  · intro hkept x hx
    obtain ⟨z, hz, hx⟩ := hkept x hx
    obtain ⟨y, hy, -, hlastRead⟩ := hlast z hz
    rw [hlastRead, Except.ok.injEq] at hx
    exact ⟨y, hy, Bytes.ofText_injective hx⟩
  · intro hlasting x hx
    obtain ⟨y, hy, hsame⟩ := hlasting x hx
    exact ⟨y, hy.mem, hsame ▸ hread y hy⟩
  · intro hdirectly hnodup x hx
    obtain ⟨y, hy, hlocate, hlastRead⟩ := hlast x hx
    have hpath : y.1 = x.1 :=
      FileTree.eq_of_directly hdir (hdirectly y hy.mem) (hdirectly x hx) hlocate (hleads x hx)
    rw [hlastRead, List.inj_on_of_nodup_map hnodup hy.mem hx hpath]

/-! ## Disassemblies that get through -/

theorem ends_nameOf_of_name {m : Module} {atom : Option String} (h : m.name = .ok atom) (w : World) :
    (nameOf m).Ends w fun r v => r = .ok (Module.orNone atom) ∧ v = w := by
  rw [nameOf, h]
  exact ⟨rfl, rfl⟩

theorem completes_analyseAll {ms : List Module} {as : List Analysis}
    (h : (ms.mapM fun m => (Analysis.build m).map Prod.fst) = .ok as) (hnames : ∀ m ∈ ms, ∃ atom, m.name = .ok atom)
    (w : World) : (analyseAll ms).Ends w fun r v => r = .ok as ∧ Quiet w v := by
  induction ms generalizing as w with
  | nil => exact ⟨h, Quiet.refl w⟩
  | cons m ms ih =>
      rw [List.mapM_cons] at h
      obtain ⟨a, ha, h⟩ := exists_of_bind h
      obtain ⟨bs, hbs, h⟩ := exists_of_bind h
      obtain ⟨atom, hatom⟩ := hnames m List.mem_cons_self
      refine (ends_nameOf_of_name hatom w).bind_ok ?_
      rintro _ rfl
      refine Ends.say_bind fun v hv => Ends.ofResult_bind ?_ ?_
      · rintro ⟨b, warnings⟩ hbuild
        rw [hbuild] at ha
        refine Ends.say_bind fun u hu => ?_
        refine (ih hbs (fun n hn => hnames n (List.mem_cons_of_mem m hn)) u).bind_ok fun t ht => ?_
        refine ⟨?_, (hv.trans hu).trans ht⟩
        rw [← h, ← Except.ok.inj ha]
        rfl
      · intro e he
        rw [he] at ha
        cases ha

theorem completes_annotateAll {is : List Nat} {as bs : List Analysis} (h : Analysis.annotateEach is as = .ok bs)
    (hnames : ∀ m ∈ as.map Analysis.module, ∃ atom, m.name = .ok atom) (w : World) :
    (annotateAll is as).Ends w fun r v => r = .ok bs ∧ Quiet w v := by
  induction is generalizing as w with
  | nil => exact ⟨h, Quiet.refl w⟩
  | cons i is ih =>
      rw [Analysis.annotateEach] at h
      rcases hstep : Analysis.annotate as i (List.range as.length) with ⟨marked, _ | e⟩
      · rw [hstep] at h
        obtain ⟨a, ha, -, hgain⟩ := Analysis.annotate_spec hstep
        obtain ⟨atom, hatom⟩ := hnames a.module (List.mem_map_of_mem (List.mem_of_getElem? ha))
        rw [annotateAll, ha]
        refine (ends_nameOf_of_name hatom w).bind_ok ?_
        rintro _ rfl
        refine Ends.say_bind fun v hv => ?_
        rw [hstep]
        refine (ih h (hgain.map_module ▸ hnames) v).mono ?_
        rintro r u ⟨hr, hu⟩
        exact ⟨hr, hv.trans hu⟩
      · rw [hstep] at h
        cases h

theorem completes_createFile {path : String} {l : Location} (hl : w.tree.locate path = .ok l)
    (hdir : w.tree.isDirectory l = false) : (createFile path).Ends w fun r _ => r = .ok l := by
  have hcreate : w.tree.create path = .ok (w.tree.put l [], l) := by
    rw [FileTree.create, hl]
    simp [bind, Except.bind, hdir, pure, Except.pure]
  refine Ends.get_bind (Ends.ofResult_bind ?_ ?_)
  · rintro ⟨tree, m⟩ hm
    rw [hcreate] at hm
    exact congrArg Except.ok (Prod.mk.inj (Except.ok.inj hm)).2.symm
  · intro e he
    rw [hcreate] at he
    cases he

/-- The listing of a module can be written: its path leads to a place that is no directory. -/
def HasPlace (dir : String) (t : FileTree) (m : Module) : Prop :=
  ∃ path l, ListedAt dir m path ∧ t.locate path = .ok l ∧ t.isDirectory l = false

theorem completes_writeListing {a : Analysis} {text : String} (htext : a.text = .ok text)
    (hplace : HasPlace dir w.tree a.module) : (writeListing dir a).Ends w fun r _ => r = .ok () := by
  obtain ⟨path, l, ⟨atom, hatom, rfl⟩, hl, hdir⟩ := hplace
  refine (ends_nameOf_of_name hatom w).bind_ok ?_
  rintro _ rfl
  refine Ends.say_bind fun v hv => ?_
  rw [← hv.tree_eq] at hl hdir
  refine (completes_createFile hl hdir).bind ?_ ?_
  · intro m u _
    refine Ends.ofResult_bind (fun text _ => rfl) ?_
    intro e he
    rw [htext] at he
    cases he
  · intro e u he
    cases he

theorem completes_writeAll {as : List Analysis} {texts : List String} (h : as.mapM Analysis.text = .ok texts)
    (hplaces : ∀ m ∈ as.map Analysis.module, HasPlace dir w.tree m) :
    (writeAll dir as).Ends w fun r _ => r = .ok () := by
  induction as generalizing texts w with
  | nil => rfl
  | cons a as ih =>
      rw [List.mapM_cons] at h
      obtain ⟨text, htext, h⟩ := exists_of_bind h
      obtain ⟨more, hmore, -⟩ := exists_of_bind h
      have hfirst := completes_writeListing htext (hplaces a.module List.mem_cons_self)
      refine (hfirst.and (ends_writeListing dir a w)).bind ?_ ?_
      · rintro _ v ⟨-, ⟨hfault, -⟩ | ⟨path, -, hwrote⟩⟩
        · exact absurd rfl hfault
        · refine ih hmore fun m hm => ?_
          obtain ⟨p, l, hp, hl, hdir⟩ := hplaces m (List.mem_cons_of_mem _ hm)
          exact ⟨p, l, hp, hwrote.locate.mpr hl, (hwrote.isDirectory_eq l).trans hdir⟩
      · rintro e v ⟨he, -⟩
        cases he

/-- A disassembly gets through if the modules have listings, the directory can be made, and no directory is where a
listing goes. -/
theorem completes_disassemble {ms : List Module} {texts : List String} {t : FileTree}
    (h : Analysis.listings ms = .ok texts)
    (hdir : ∀ u, Quiet w u → (ensureDirectory dir).Ends u fun r v => r = .ok () ∧ v.tree = t)
    (hplaces : ∀ m ∈ ms, HasPlace dir t m) : ((disassemble ms dir).run w).1 = .ok () := by
  have hnames : ∀ m ∈ ms, ∃ atom, m.name = .ok atom := by
    intro m hm
    obtain ⟨path, l, ⟨atom, hatom, -⟩, -⟩ := hplaces m hm
    exact ⟨atom, hatom⟩
  obtain ⟨as, has, h⟩ := exists_of_bind h
  obtain ⟨bs, hbs, h⟩ := exists_of_bind h
  change (disassemble ms dir).Ends w fun r _ => r = .ok ()
  refine ((completes_analyseAll has hnames w).and (ends_analyseAll ms w)).bind ?_ ?_
  · rintro _ v ⟨⟨⟨⟩, hv⟩, hmodules, -⟩
    have hmodules := hmodules as rfl
    refine ((completes_annotateAll hbs (hmodules ▸ hnames) v).and (ends_annotateAll _ as v)).bind ?_ ?_
    · rintro _ u ⟨⟨⟨⟩, hu⟩, hsame, -⟩
      refine (hdir u (hv.trans hu)).bind_ok ?_
      rintro s rfl
      refine completes_writeAll h ?_
      rw [hsame bs rfl, hmodules]
      exact hplaces
    · rintro e u ⟨⟨he, -⟩, -⟩
      cases he
  · rintro e v ⟨⟨he, -⟩, -⟩
    cases he

/-- A directory with nothing in it. -/
def emptyWork : World := { tree := ⟨[["work"]], [], ["work"]⟩ }

/-- The directory with another one for listings. -/
def outTree : FileTree := ⟨[["work"], ["work", "out"]], [], ["work"]⟩

theorem ends_ensureDirectory_emptyWork {u : World} (h : Quiet emptyWork u) :
    (ensureDirectory "out").Ends u fun r v => r = .ok () ∧ v.tree = outTree := by
  obtain ⟨tree, output, opened⟩ := u
  obtain ⟨rfl, rfl⟩ := h
  exact ⟨rfl, rfl⟩

/-- Two modules are disassembled to an empty directory, and this fixes their files and listings. -/
theorem exists_run_of_two {m m' : Module} {path path' text text' : String}
    (hlistings : Analysis.listings [m, m'] = .ok [text, text']) (hm : ListedAt "out" m path)
    (hm' : ListedAt "out" m' path')
    (hplaces : ∀ p ∈ [path, path'], ∃ l, outTree.locate p = .ok l ∧ outTree.isDirectory l = false) :
    ∃ v, (disassemble [m, m'] "out").run emptyWork = (.ok (), v) ∧
      ∀ listed : List (String × String), Analysis.listings [m, m'] = .ok (listed.map Prod.snd) →
        List.Forall₂ (ListedAt "out") [m, m'] (listed.map Prod.fst) → listed = [(path, text), (path', text')] := by
  have hpaths : List.Forall₂ (ListedAt "out") [m, m'] [path, path'] := .cons hm (.cons hm' .nil)
  refine ⟨_, Prod.ext (completes_disassemble hlistings (fun u => ends_ensureDirectory_emptyWork) ?_) rfl, ?_⟩
  · intro x hx
    obtain ⟨p, hp, hlisted⟩ := exists_right_of_forall₂ hpaths hx
    obtain ⟨l, hl⟩ := hplaces p hp
    exact ⟨p, l, hlisted, hl⟩
  · intro listed htexts hlisted
    rw [hlistings] at htexts
    exact List.zip_of_prod (listedAt_unique hlisted hpaths) (Except.ok.inj htexts).symm

/-- A module with a name and code. -/
def named (name : String) (code : List Instruction) : Module :=
  { atoms := some ⟨AtomTable.placeholder :: [Bytes.ofText name]⟩
    code := some code }

/-- Code with a label and nothing else. -/
def oneLabel : List Instruction :=
  Analysis.assembled [(1, [.literal 1])]

/-- The listings of two modules with different names are both kept. -/
theorem disassemble_keeps_listings_of_two :
    ∃ v, (disassemble [named "a" oneLabel, named "b" []] "out").run emptyWork = (.ok (), v) ∧
      v.tree.read "out/a.beamc" = .ok (Bytes.ofText "; Module: a\n\nlabel1:\n\n") ∧
      v.tree.read "out/b.beamc" = .ok (Bytes.ofText "; Module: b\n\n") := by
  have hlistings : Analysis.listings [named "a" oneLabel, named "b" []] =
      .ok ["; Module: a\n\nlabel1:\n\n", "; Module: b\n\n"] := by cbv
  have hname : (named "a" oneLabel).name = .ok (some "a") := by cbv
  have hname' : (named "b" []).name = .ok (some "b") := by cbv
  have hplaces : ∀ p ∈ ["out/a.beamc", "out/b.beamc"],
      ∃ l, outTree.locate p = .ok l ∧ outTree.isDirectory l = false := by
    simp only [List.forall_mem_cons]
    exact ⟨⟨["work", "out", "a.beamc"], rfl, rfl⟩, ⟨["work", "out", "b.beamc"], rfl, rfl⟩, by simp⟩
  obtain ⟨v, hv, hfixed⟩ := exists_run_of_two hlistings ⟨_, hname, by decide⟩ ⟨_, hname', by decide⟩ hplaces
  obtain ⟨listed, htexts, hlisted, -, -, hkept⟩ := disassemble_keeps_listings_iff hv
  obtain rfl := hfixed listed htexts hlisted
  have hdirectly := (directly_iff_of_listedAt hlisted).mpr (by
    simp only [List.forall_mem_cons]
    exact ⟨⟨_, hname, .inl (by decide)⟩, ⟨_, hname', .inl (by decide)⟩, by simp⟩)
  have hread := hkept (fun x hx => hdirectly x.1 (List.mem_map_of_mem hx)) (by decide)
  exact ⟨v, hv, hread ("out/a.beamc", _) (.head _), hread ("out/b.beamc", _) (.tail _ (.head _))⟩

/-- Of two modules with the same name the second is written over the first, whose listing is in no file. -/
theorem disassemble_loses_listing :
    ∃ v, (disassemble [named "m" oneLabel, named "m" []] "out").run emptyWork = (.ok (), v) ∧
      Analysis.listings [named "m" oneLabel, named "m" []] =
        .ok ["; Module: m\n\nlabel1:\n\n", "; Module: m\n\n"] ∧
      v.opened = ["out/m.beamc", "out/m.beamc"] ∧
      v.tree.read "out/m.beamc" = .ok (Bytes.ofText "; Module: m\n\n") ∧
      ∀ p ∈ v.opened, v.tree.read p ≠ .ok (Bytes.ofText "; Module: m\n\nlabel1:\n\n") := by
  have hlistings : Analysis.listings [named "m" oneLabel, named "m" []] =
      .ok ["; Module: m\n\nlabel1:\n\n", "; Module: m\n\n"] := by cbv
  have hplaces : ∀ p ∈ ["out/m.beamc", "out/m.beamc"],
      ∃ l, outTree.locate p = .ok l ∧ outTree.isDirectory l = false := by
    simp only [List.forall_mem_cons]
    exact ⟨⟨["work", "out", "m.beamc"], rfl, rfl⟩, ⟨["work", "out", "m.beamc"], rfl, rfl⟩, by simp⟩
  obtain ⟨v, hv, hfixed⟩ :=
    exists_run_of_two hlistings ⟨some "m", by cbv, by decide⟩ ⟨some "m", by cbv, by decide⟩ hplaces
  have hends := ends_disassemble_keeps [named "m" oneLabel, named "m" []] "out" emptyWork
  rw [Ends, hv] at hends
  obtain ⟨u, listed, hopened, -, -, htexts, hlisted, hkeeps⟩ := hends rfl
  obtain rfl := hfixed listed htexts hlisted
  have hopenedBoth : v.opened = ["out/m.beamc", "out/m.beamc"] := by
    rw [hkeeps.wrote.opened_eq, hopened]
    rfl
  have hread : v.tree.read "out/m.beamc" = .ok (Bytes.ofText "; Module: m\n\n") :=
    hkeeps.read_eq ("out/m.beamc", _) ⟨[_], [], rfl, by simp⟩
  refine ⟨v, hv, hlistings, hopenedBoth, hread, ?_⟩
  intro p hp hother
  obtain rfl : p = "out/m.beamc" := by simpa [hopenedBoth] using hp
  rw [hread, Except.ok.injEq] at hother
  exact absurd (Bytes.ofText_injective hother) (by decide)

end Command

end BeamDisasm

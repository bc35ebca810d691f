import PikoRT.Fs.MountedImage
import PikoRT.Fs.SysStat

/-! # Opens that succeed (`kernel/fs/fs.c`)

Where the heap has room for the dentries of a path and for the inodes of its part in an image, and a
descriptor is free, `sys_open` opens the file that the image has there. -/
namespace PikoRT.Fs.OpenReturns
open PikoRT.Kernel.Bitops PikoRT.Libc PikoRT.Libc.Printf
open PikoRT.Fs.Romfs PikoRT.Fs.RomfsLookup PikoRT.Fs.Vfs PikoRT.Fs.Open PikoRT.Fs.Dentries PikoRT.Fs.OpenWalk
open PikoRT.Fs.Serving PikoRT.Fs.MountedImage
open PikoRT.Fs.RomfsRead (contents)
open PikoRT.Fs.OpenClose (account_init note testBit_singleton)
open PikoRT.Fs.SilentWalk (found target)
open PikoRT.Libc.Malloc (Region Allocation)
open PikoRT.Libc.HeapLedger (Holding)

/-- What the names of a path ask for: those up to the root of the image, and those below it. -/
def requests (mount names : List (List Byte)) : List Word :=
  mount.map (fun _ => sizeofDentry) ++ names.flatMap fun _ => [sizeofDentry, sizeofInode]

theorem modest_requests {mount names : List (List Byte)} {size : Word} (h : size ∈ requests mount names) :
    HeapRun.Modest size := by
  rcases List.mem_append.mp h with h | h
  · obtain ⟨n, -, rfl⟩ := List.mem_map.mp h
    exact modest_sizeofDentry
  · obtain ⟨n, -, h⟩ := List.mem_flatMap.mp h
    rcases List.mem_cons.mp h with rfl | h
    · exact modest_sizeofDentry
    · exact List.mem_singleton.mp h ▸ RomfsLookup.modest_sizeofInode

section

variable {g : Region} {xs : List Lib.Tiling.Seg} {s : System} {dir p : Ptr} {name : List Byte}
  {names : List (List Byte)} {sizes : List Word} {rs d h : Word} {l : Layout} {x : Session} {t₀ : System}

/-! ## The names -/

/-- One name through a directory of tmpfs. -/
theorem openNames_cons_found (parent : Ptr) {f : Ptr × DentryOperations} {addr n : ℕ} {k : Malloc.Heap}
    (hf : found dir name s = some f)
    (hm : ∀ fuel ≥ n, s.malloc fuel sizeofDentry = some (some addr, s.setHeap sizeofDentry (some addr, k))) :
    ∀ fuel ≥ n, openNames fuel (name :: names) dir parent s =
      openNames fuel names f.1 (.heap addr) (fillDentry addr f (withDentry addr k parent name s)) := by
  intro fuel hle
  have hf' : found dir name (withDentry addr k parent name s) = some f := (found_congr rfl rfl).trans hf
  rw [openNames, hm fuel hle, Option.bind_some]
  dsimp only
  rw [initDentry_short (SysStat.short_of_found hf), vfsLookup_found hf', Option.bind_some]

theorem openNames_mount (parent : Ptr) (hi : HeapRun.Inv g s.heap xs) (ht : target names dir s = some p)
    (hg : Grants s.heap (names.map (fun _ => sizeofDentry) ++ sizes)) :
    ∃ n dentry t, (∀ fuel ≥ n, openNames fuel names dir parent s = some (.ok (p, dentry), t)) ∧
    Grants t.heap sizes := by
  induction names generalizing dir parent s xs with
  | nil => exact ⟨0, parent, s, fun _ _ => by rw [openNames, Option.some.inj ht], hg⟩
  | cons name names ih =>
    obtain ⟨f, hf, ht⟩ := Option.bind_eq_some_iff.mp ht
    obtain ⟨n, addr, k, hm, -, ⟨ys, hi'⟩, hg⟩ := malloc_granted hi modest_sizeofDentry hg
    have ht' : target names f.1 (fillDentry addr f (withDentry addr k parent name s)) = some p := by
      rw [← ht]
      exact target_congr rfl rfl
    obtain ⟨m, dentry, t, hopen, hg⟩ :=
      ih (s := fillDentry addr f (withDentry addr k parent name s)) (.heap addr) hi' ht' hg
    refine ⟨max n m, dentry, t, fun fuel hle => ?_, hg⟩
    rw [openNames_cons_found parent hf hm fuel (le_of_max_le_left hle)]
    exact hopen fuel (le_of_max_le_right hle)

/-- One name through a directory of the image. -/
theorem openNames_cons_image (parent : Ptr) (names : List (List Byte)) (hi : HeapRun.Inv g s.heap xs)
    (hw : WellFormed s.rom rs l)
    (hd : IsDir s.rom rs l d) (hdir : DirectoryAt s rs d dir) (hname : 0 ∉ name ∧ name.length < NAME_MAX)
    (hf : l.find d name = some h) (hs : Seen l d name) (hg : Grants s.heap (sizeofDentry :: sizeofInode :: sizes)) :
    ∃ n addr a k j ys,
      let u := withInode (withDentry addr k parent name s) dir rs h a j
      (∀ fuel ≥ n, openNames fuel (name :: names) dir parent s =
        openNames fuel names (.heap a) (.heap addr) (fillDentry addr (.heap a, .romfs) u)) ∧
      HeapRun.Inv g u.heap ys ∧ Grants u.heap sizes := by
  obtain ⟨n, addr, k, hm, -, ⟨ys, hi'⟩, hg⟩ := malloc_granted hi modest_sizeofDentry hg
  have hdir' : DirectoryAt (withDentry addr k parent name s) rs d dir := DirectoryAt.congr hdir rfl rfl
  obtain ⟨m, r, q, hr, hq, hcase⟩ := vfsLookup_spec (s := withDentry addr k parent name s) hi' hw hd hdir' hname.1
  obtain ⟨a, ha, hg⟩ := (grants_cons hr).mp hg
  rcases hcase with ⟨e, b, he, -, hb, rfl⟩ | ⟨-, hno⟩
  · obtain rfl := Option.some.inj (hf.symm.trans he)
    obtain rfl := Option.some.inj (ha.symm.trans hb)
    have hmalloc := hr m le_rfl
    rcases HeapRun.inv_malloc hi' RomfsLookup.modest_sizeofInode hmalloc with ⟨w, zs, -, hw', hinv, -⟩ | ⟨-, hnone⟩
    · obtain rfl : a = HeapRun.payload w := Option.some.inj (ha.symm.trans hw')
      refine ⟨max n m, addr, _, k, r.2, zs, fun fuel hle => ?_, hinv, hg⟩
      rw [openNames, hm fuel (le_of_max_le_left hle), Option.bind_some]
      dsimp only
      rw [initDentry_short hname.2, hq fuel (le_of_max_le_right hle), Option.bind_some]
    · rw [hnone] at ha
      cases ha
  · rcases hno with hno | hno | hno
    · rw [hf] at hno
      cases hno
    · exact absurd hs hno
    · rw [ha] at hno
      cases hno

/-- **The names of a path below a directory of an image** can all be opened, if there is such a path. -/
theorem openNames_below (parent : Ptr) (hi : HeapRun.Inv g s.heap xs) (hw : WellFormed s.rom rs l)
    (hd : IsDir s.rom rs l d)
    (hdir : DirectoryAt s rs d dir) (hnames : ∀ n ∈ names, 0 ∉ n ∧ n.length < NAME_MAX)
    (hr : names ≠ [] → resolve s.rom rs l d (names.map ofBytes) = some h) (hs : AllSeen l d (names.map ofBytes))
    (hg : Grants s.heap (names.flatMap fun _ => [sizeofDentry, sizeofInode])) :
    ∃ n q t, ∀ fuel ≥ n, openNames fuel names dir parent s = some (.ok q, t) := by
  induction names generalizing s dir parent xs d with
  | nil => exact ⟨0, _, _, fun _ _ => rfl⟩
  | cons name names ih =>
    have hname := hnames name List.mem_cons_self
    have htext := ofBytes_text hname.1
    obtain ⟨hseen, hs⟩ := hs
    rw [htext] at hseen hs
    have hr := hr (List.cons_ne_nil _ _)
    cases names with
    | nil =>
      rw [List.map_cons, List.map_nil, resolve, htext] at hr
      obtain ⟨n, addr, a, k, j, ys, hopen, -⟩ := openNames_cons_image parent [] hi hw hd hdir hname hr hseen hg
      exact ⟨n, _, _, fun fuel hle => hopen fuel hle⟩
    | cons m ms =>
      rw [List.map_cons, List.map_cons, resolve, htext] at hr
      · obtain ⟨e, he, hr⟩ := Option.bind_eq_some_iff.mp hr
        obtain ⟨ht, hr⟩ := Option.ite_none_right_eq_some.mp hr
        obtain ⟨n, addr, a, k, j, ys, hopen, hinv, hg⟩ :=
          openNames_cons_image parent (m :: ms) hi hw hd hdir hname he hseen hg
        have hnext :
          DirectoryAt (fillDentry addr (.heap a, .romfs) (withInode (withDentry addr k parent name s) dir rs e a j))
            rs e (.heap a) :=
          DirectoryAt.congr
          (directoryAt_withInode (s := withDentry addr k parent name s) (DirectoryAt.congr hdir rfl rfl) ht a j)
            rfl rfl
        obtain ⟨i, q, t, hrest⟩ :=
          ih (s := fillDentry addr (.heap a, .romfs) (withInode (withDentry addr k parent name s) dir rs e a j))
          (.heap addr) hinv hw (.entry hd (List.mem_of_find?_eq_some he) ht) hnext
          (fun n hn => hnames n (List.mem_cons_of_mem _ hn)) (fun _ => hr) (hs e he) hg
        refine ⟨max n i, q, t, fun fuel hle => ?_⟩
        rw [hopen fuel (le_of_max_le_left hle)]
        exact hrest fuel (le_of_max_le_right hle)
      · exact List.cons_ne_nil _ _

/-! ## The descriptor -/

theorem getfd_ne_none {fd : ℕ} (hlt : fd < FILE_MAX) (hfree : s.filemap.getLsbD fd = false) : (getfd s).1 ≠ none := by
  have hfits : FILE_MAX ≤ 32 * [s.filemap].length := show 8 ≤ 32 * 1 by omega
  obtain ⟨hle, -, hlow⟩ := findFirstZeroBit_spec hfits
  have hne : findFirstZeroBit [s.filemap] FILE_MAX ≠ FILE_MAX := by
    intro he
    have hmax : FILE_MAX = 8 := rfl
    have hset := hlow fd (by omega)
    rw [testBit_singleton s.filemap (by omega), hfree] at hset
    cases hset
  simp [getfd, if_neg hne]

/-! ## The open -/

/-- There is a file of the image at the path, its names are in reach of the lookups, and memory for them. -/
structure Ready (rom : Rom) (mount : List (List Byte)) (rs : Word) (l : Layout) (heap : Malloc.State)
    (pathname : Pathname)
    (bs : List Byte) : Prop where
  fits : OpenClose.Fits pathname
  file : ∃ rest h, pathNames pathname.next = mount ++ rest ∧ rest ≠ [] ∧ fileAt rom rs l rest = some h ∧
    contents rom rs l h = bs ∧ AllSeen l l.root (rest.map ofBytes) ∧ Grants heap (requests mount rest)

/-- **A file of the image can be opened** when a descriptor is free, and the descriptor shows it. -/
theorem openPath_returns {bs : List Byte} {pathname : Pathname} {mount : List (List Byte)}
    (hi : HeapRun.Inv g s.heap xs)
    (hm : MountedAt mount rs l s) (hready : Ready s.rom mount rs l s.heap pathname bs)
    (hfree : ∃ fd < FILE_MAX, s.filemap.getLsbD fd = false) :
    ∃ n fd t, (∀ fuel ≥ n, openPath fuel pathname 0 s = some (.ok fd, t)) ∧
    Shows rs l t (note pathname fd t) bs 0 := by
  obtain ⟨rest, h, hnames, hne, hfile, hbs, hseen, hg⟩ := hready.file
  have ha := account_init hi
  have hpath : ∀ n ∈ pathNames pathname.next, 0 ∉ n ∧ n.length < NAME_MAX :=
    fun n hn => ⟨nul_notMem_pathNames hn, hready.fits n hn⟩
  have hfiles : files s.rom rs l mount (pathNames pathname.next) = some bs := by
    rw [files, hnames, if_pos ⟨List.prefix_append _ _, by simpa using hne⟩, List.drop_left, hfile, Option.map_some,
      hbs]
  obtain ⟨p, hp, -⟩ := hm.root
  obtain ⟨n, dentry, t, hmount, hg⟩ := openNames_mount rootDentry hi hp hg
  -- up to the root of the image
  obtain ⟨ns, hh, hgrows, -⟩ :=
    openNames_spec (fun n hn => (hpath n (hnames ▸ List.mem_append_left _ hn)).2) (.refl hi)
    hm.tree hm.tree.root chained_root (fun _ hv => (nomatch hv)) (hmount n le_rfl)
  have hrom : t.rom = s.rom := openNames_rom (hmount n le_rfl)
  have hm' := hm.keeps hgrows.toKeeps hrom
  obtain ⟨q, hq, hdir, -⟩ := hm'.root
  obtain rfl : q = p := Option.some.inj (hq.symm.trans ((target_keeps hm.tree hm.tree.root hgrows.toKeeps).trans hp))
  obtain ⟨-, ys, -, hi', -⟩ := hh.blocks
  -- and from there on
  obtain ⟨m, found, u, hbelow⟩ := openNames_below dentry hi' hm'.wellFormed .root hdir
    (fun n hn => hpath n (hnames ▸ List.mem_append_right _ hn)) (fun _ => hrom ▸ (fileAt_some hfile).1) hseen hg
  have hopen : ∀ fuel ≥ max n m, openNames fuel (pathNames pathname.next) rootInode rootDentry s =
      some (.ok found, u) := by
    intro fuel hle
    rw [hnames, openNames_append, hmount fuel (le_of_max_le_left hle), Option.bind_some]
    exact hbelow fuel (le_of_max_le_right hle)
  obtain ⟨e, sb, -, -, hleads, -⟩ := openNames_files (.refl hi) hm hpath hfiles (hopen _ le_rfl)
  obtain ⟨-, -, hgrows', -⟩ := openNames_spec (fun n hn => (hpath n hn).2) (.refl hi) hm.tree hm.tree.root chained_root
    (fun _ hv => (nomatch hv)) (hopen _ le_rfl)
  obtain ⟨fd, hlt, hbit⟩ := hfree
  have hgetfd : (getfd u).1 ≠ none := by
    rw [SysStat.fst_getfd hgrows'.filemap]
    exact getfd_ne_none hlt hbit
  have hfop : (u.inodes (u.dentries found.2).dInode).iFop ≠ none := by
    obtain ⟨k, -, hinode, -⟩ := hleads.dentryAt
    obtain ⟨a, -, hop, -⟩ := hleads.inodeAt
    rw [hinode, hop]
    exact Option.some_ne_none _
  obtain ⟨fd, v, hv⟩ := SysStat.openFile_returns hgetfd hfop
  have hpathOpen : ∀ fuel ≥ max n m, openPath fuel pathname 0 s = some (.ok fd, v) := by
    intro fuel hle
    rw [openPath, hopen fuel hle, Option.bind_some]
    exact hv
  exact ⟨max n m, fd, v, hpathOpen, shows_of_open ha hm rfl hready.fits (hpathOpen _ le_rfl) hfiles⟩

end

end PikoRT.Fs.OpenReturns

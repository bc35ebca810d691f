import PikoRT.Fs.OpenClose
import PikoRT.Fs.SilentWalk

/-! # `sys_stat` (`kernel/fs/fs.c`)

`inode_from_pathname` walks a path as `sys_open` does, with one dentry on the stack in place of one
on the heap for every name. What it finds in an image has an inode that nobody gives back. -/
namespace PikoRT.Fs.SysStat
open PikoRT.Kernel.Bitops PikoRT.Libc PikoRT.Libc.Printf
open PikoRT.Fs.Romfs PikoRT.Fs.Vfs PikoRT.Fs.Open PikoRT.Fs.Dentries PikoRT.Fs.OpenClose PikoRT.Fs.SilentWalk
open PikoRT.Fs.RomfsLookup (Grants grants_cons text)

def inodeFromPathname (fuel : ℕ) (pathname : Pathname) (s : System) : Option (Option Ptr × System) :=
  lookupPath fuel (pathNames pathname.next) rootInode s

/-- What `sys_stat` sets of a `struct stat`. -/
structure Stat where
  stIno : Word
  stMode : Mode
  stSize : Word

def Stat.of (i : Inode) : Stat where
  stIno := i.iIno
  stMode := i.iMode
  stSize := i.iSize

/-- `sys_stat`, with what it puts into `buf`. -/
def sysStat (fuel : ℕ) (pathname : Pathname) (s : System) : Option (ℤ × Option Stat × System) :=
  (inodeFromPathname fuel pathname s).map fun r =>
    match r.1 with
    | none => (-1, none, r.2.fail .ENOENT)
    | some inode => (0, some (.of (r.2.inodes inode)), r.2)

/-! ## What `sys_stat` should say -/

/-- `sys_open` succeeds, and the inode of the file is `i`. -/
def Binds (pathname : Pathname) (s : System) (i : Inode) : Prop :=
  ∃ n fd t dentry, (∀ fuel ≥ n, openPath fuel pathname 0 s = some (.ok fd, t)) ∧
    (t.filetable fd).fDentry = some dentry ∧ t.inodes (t.dentries dentry).dInode = i

/-- The live blocks, the directories and their inodes, and the files are the same. -/
structure Untouched (s t : System) : Prop where
  live : t.heap.live = s.heap.live
  inodes : t.inodes = s.inodes
  superBlocks : t.superBlocks = s.superBlocks
  dirlists : t.dirlists = s.dirlists
  filemap : t.filemap = s.filemap
  filetable : t.filetable = s.filetable

structure Right (pathname : Pathname) (s : System) (r : ℤ × Option Stat × System) : Prop where
  success : r.1 = 0 ↔ ∃ i, Binds pathname s i
  same : ∀ st i, r.2.1 = some st → Binds pathname s i → st.stMode = i.iMode ∧ st.stSize = i.iSize
  untouched : Untouched s r.2.2

/-- `sys_stat` comes back, agrees with `sys_open` and leaves no trace. -/
def StatAgrees (pathname : Pathname) (s : System) : Prop :=
  ∃ n r, (∀ fuel ≥ n, sysStat fuel pathname s = some r) ∧ Right pathname s r

/-- A dentry and an inode for every name. -/
def requests (pathname : Pathname) : List Word :=
  (pathNames pathname.next).flatMap fun _ => [sizeofDentry, sizeofInode]

/-- There is enough memory and a free descriptor. -/
structure Ready (pathname : Pathname) (s : System) : Prop where
  memory : ∀ sizes, sizes.Sublist (requests pathname) → Grants s.heap sizes
  descriptor : (getfd s).1 ≠ none
  root : (s.dentries rootDentry).dInode = rootInode

/-- No lookup of the walk finds an entry of an image, and what is found at the end can be opened. -/
structure InTmpfs (pathname : Pathname) (s : System) : Prop where
  silent : Silent (pathNames pathname.next) rootInode s
  fop : ∀ inode ∈ target (pathNames pathname.next) rootInode s, (s.inodes inode).iFop ≠ none

/-! ## `sys_open` on a silent walk -/

/-- The two states have the same directories. -/
structure Sees (s u : System) : Prop where
  inodes : u.inodes = s.inodes
  superBlocks : u.superBlocks = s.superBlocks
  dirlists : u.dirlists = s.dirlists
  rom : u.rom = s.rom

section

variable {pathname : Pathname} {s t u : System} {inode parent dir : Ptr} {name : List Byte} {names : List (List Byte)}
  {fuel addr : ℕ} {flags : Word}

theorem sees_initDentry (h : Sees s u) {size : Word} {r : Option ℕ × Malloc.Heap} :
    Sees s (initDentry addr parent name (u.setHeap size r)) := by
  unfold initDentry endName
  split <;> exact ⟨h.inodes, h.superBlocks, h.dirlists, h.rom⟩

theorem Sees.found_eq (h : Sees s u) (dir : Ptr) (name : List Byte) : found dir name u = found dir name s := by
  unfold found tmpfsLookup
  rw [h.inodes, h.dirlists]

/-- With memory for an inode a lookup stays quiet whatever the heap is. -/
theorem Sees.quiet (h : Sees s u) (hmem : ¬ Refused s) (hq : Quiet dir name s) : Quiet dir name u := by
  intro hdir hop
  rw [h.inodes] at hdir hop
  obtain ⟨ri, ⟨n, hn⟩, hri⟩ := hq hdir hop
  refine ⟨ri, ⟨n, ?_⟩, .inl (hri.resolve_right hmem)⟩
  rw [h.inodes, h.superBlocks, h.rom]
  exact hn

/-- The state after the lookup of a name. -/
theorem sees_fillDentry (h : Sees s u) (f : Ptr × DentryOperations) : Sees s (fillDentry addr f u) :=
  ⟨h.inodes, h.superBlocks, h.dirlists, h.rom⟩

/-- What `sys_open` finds is what is in tmpfs. -/
theorem openNames_ok {q : Ptr × Ptr} (hs : Silent names inode s) (hmem : names ≠ [] → ¬ Refused s) (hsees : Sees s u)
    (hd : (u.dentries parent).dInode = inode) (h : openNames fuel names inode parent u = some (.ok q, t)) :
    target names inode s = some q.1 ∧ Sees s t ∧ (t.dentries q.2).dInode = q.1 := by
  induction names generalizing inode parent u with
  | nil =>
    obtain ⟨hok, rfl⟩ := Prod.mk.inj (Option.some.inj h)
    obtain rfl := Except.ok.inj hok
    exact ⟨rfl, hsees, hd⟩
  | cons name names ih =>
    have hroom := hmem (List.cons_ne_nil name names)
    obtain ⟨⟨o, v⟩, hm, h⟩ := Option.bind_eq_some_iff.mp h
    cases o with
    | none => cases h
    | some addr =>
      obtain ⟨k, -, rfl⟩ := malloc_cases hm
      obtain ⟨⟨o, w⟩, hl, h⟩ := Option.bind_eq_some_iff.mp h
      have hinit : Sees s (initDentry addr parent name (u.setHeap sizeofDentry (some addr, k))) :=
        sees_initDentry hsees
      obtain ⟨rfl, rfl⟩ := quiet_vfsLookup_eq (hinit.quiet hroom hs.1) hl
      rw [hinit.found_eq] at h
      rw [target]
      cases hf : found inode name s with
      | none =>
        rw [hf] at h
        obtain ⟨p, -, h⟩ := Option.map_eq_some_iff.mp h
        cases h
      | some f =>
        rw [hf] at h
        have hfill : (fillDentry addr f (initDentry addr parent name (u.setHeap sizeofDentry (some addr, k)))).dentries
            (.heap addr) = _ := Function.update_self ..
        exact ih (hs.2 f hf) (fun _ => hroom) (sees_fillDentry hinit f) (by rw [hfill]) h

theorem short_of_found {f : Ptr × DentryOperations} (h : found dir name s = some f) : name.length < NAME_MAX := by
  unfold found at h
  split at h
  · obtain ⟨e, he, -⟩ := Option.map_eq_some_iff.mp h
    have hname : e.name.text = name := by simpa using List.find?_some he
    exact hname ▸ e.short
  · cases h

/-- With memory for the dentries `sys_open` comes as far as the walk. -/
theorem openNames_returns {p : Ptr} (hs : Silent names inode s) (hmem : names ≠ [] → ¬ Refused s) (hsees : Sees s u)
    (hg : Grants u.heap (List.replicate names.length sizeofDentry)) (ht : target names inode s = some p) :
    ∃ n q t, (∀ fuel ≥ n, openNames fuel names inode parent u = some (.ok q, t)) ∧ t.filemap = u.filemap := by
  induction names generalizing inode parent u with
  | nil => exact ⟨0, _, _, fun _ _ => rfl, rfl⟩
  | cons name names ih =>
    have hroom := hmem (List.cons_ne_nil name names)
    rw [List.length_cons, List.replicate_succ] at hg
    obtain ⟨m, q, hq⟩ := id hg
    obtain ⟨⟨o, k⟩, hk, -⟩ := Option.bind_eq_some_iff.mp hq
    have hk' : ∀ fuel ≥ m, Malloc.malloc fuel sizeofDentry u.heap.heap = some (o, k) :=
      fun fuel hle => HeapRestore.malloc_mono hle hk
    obtain ⟨addr, rfl, hrest⟩ := (grants_cons hk').mp hg
    obtain ⟨f, hf, ht⟩ := Option.bind_eq_some_iff.mp ht
    have hinit : Sees s (withDentry addr k parent name u) :=
      ⟨hsees.inodes, hsees.superBlocks, hsees.dirlists, hsees.rom⟩
    obtain ⟨n, hn⟩ := quiet_vfsLookup (hinit.quiet hroom hs.1)
    rw [hinit.found_eq, hf] at hn
    obtain ⟨i, q, t, ht, hmap⟩ := ih (hs.2 f hf) (fun _ => hroom) (sees_fillDentry hinit f) hrest ht
    refine ⟨max m (max n i), q, t, fun fuel hle => ?_, hmap⟩
    rw [openNames, System.malloc, hk' fuel (le_of_max_le_left hle), Option.map_some, Option.bind_some]
    dsimp only
    rw [initDentry_short (short_of_found hf), hn fuel (le_of_max_le_left (le_of_max_le_right hle)), Option.bind_some]
    exact ht fuel (le_of_max_le_right (le_of_max_le_right hle))

/-! ## The file -/

theorem fst_getfd (h : t.filemap = s.filemap) : (getfd t).1 = (getfd s).1 := by
  unfold getfd
  rw [h]
  dsimp only
  split <;> rfl

theorem openFile_fop {fd : ℕ} {dentry : Ptr} (h : openFile flags inode dentry s = some (.ok fd, t)) :
    (s.inodes (s.dentries dentry).dInode).iFop ≠ none := by
  unfold openFile at h
  split at h
  · cases h
  · cases hg : getfd s with
    | mk o u =>
      rw [hg] at h
      cases o with
      | none => cases h
      | some fd' =>
        obtain ⟨-, -, -, rfl⟩ := getfd_some hg
        obtain ⟨op, hop, -⟩ := Option.map_eq_some_iff.mp h
        exact fun hnone => Option.some_ne_none op (hop.symm.trans hnone)

theorem openFile_returns {dentry : Ptr} (hfd : (getfd s).1 ≠ none)
    (hop : (s.inodes (s.dentries dentry).dInode).iFop ≠ none) :
    ∃ fd t, openFile 0 inode dentry s = some (.ok fd, t) := by
  obtain ⟨op, hop⟩ := Option.ne_none_iff_exists'.mp hop
  cases hg : getfd s with
  | mk o u =>
    rw [hg] at hfd
    obtain ⟨fd, rfl⟩ := Option.ne_none_iff_exists'.mp hfd
    obtain ⟨-, -, -, rfl⟩ := getfd_some hg
    unfold openFile
    rw [if_neg (fun h => h.1 rfl), hg]
    dsimp only
    rw [hop]
    exact ⟨fd, _, rfl⟩

/-! ## Both walks -/

theorem Ready.not_refused (h : Ready pathname s) (hne : pathNames pathname.next ≠ []) : ¬ Refused s := by
  refine SilentWalk.not_refused (h.memory _ ?_)
  unfold requests
  cases hn : pathNames pathname.next with
  | nil => exact absurd hn hne
  | cons name names =>
    rw [List.flatMap_cons, List.singleton_sublist]
    exact List.mem_append_left _ (List.mem_cons_of_mem _ List.mem_cons_self)

theorem Ready.dentries (h : Ready pathname s) :
    Grants s.heap (List.replicate (pathNames pathname.next).length sizeofDentry) := by
  refine h.memory _ ?_
  unfold requests
  induction pathNames pathname.next with
  | nil => exact List.Sublist.refl _
  | cons name names ih => exact (ih.cons sizeofInode).cons_cons sizeofDentry

/-- What an open binds after a silent walk. -/
theorem binds_iff (hr : Ready pathname s) (hs : Silent (pathNames pathname.next) rootInode s) (i : Inode) :
    Binds pathname s i ↔
      ∃ p, target (pathNames pathname.next) rootInode s = some p ∧ s.inodes p = i ∧ (s.inodes p).iFop ≠ none := by
  have hsees : Sees s s := ⟨rfl, rfl, rfl, rfl⟩
  constructor
  · intro h
    obtain ⟨n, fd, t, dentry, ht, hfile, rfl⟩ := h
    obtain ⟨inode, d, u, hn, ho⟩ := openPath_ok (ht n le_rfl)
    obtain ⟨htarget, hu, hd⟩ := openNames_ok hs hr.not_refused hsees hr.root hn
    have hfop := openFile_fop ho
    obtain ⟨file, hf, -, -, -, rfl⟩ := openFile_ok ho
    obtain rfl : d = dentry := by
      refine Option.some.inj (hf.symm.trans (Eq.trans ?_ hfile))
      exact (congrArg File.fDentry (Function.update_self ..)).symm
    rw [hd, hu.inodes] at hfop
    refine ⟨inode, htarget, ?_, hfop⟩
    show s.inodes inode = u.inodes (u.dentries d).dInode
    rw [hd, hu.inodes]
  · intro h
    obtain ⟨p, hp, rfl, hfop⟩ := h
    obtain ⟨n, q, u, hu, hmap⟩ := openNames_returns hs hr.not_refused hsees hr.dentries hp
    obtain ⟨htarget, hsu, hd⟩ := openNames_ok hs hr.not_refused hsees hr.root (hu n le_rfl)
    obtain rfl := Option.some.inj (htarget.symm.trans hp)
    have hfd : (getfd u).1 ≠ none := by
      rw [fst_getfd hmap]
      exact hr.descriptor
    have hop : (u.inodes (u.dentries q.2).dInode).iFop ≠ none := by
      rw [hd, hsu.inodes]
      exact hfop
    obtain ⟨fd, t, ht⟩ : ∃ fd t, openFile 0 q.1 q.2 u = some (.ok fd, t) := openFile_returns hfd hop
    refine ⟨n, fd, t, q.2, fun fuel hle => ?_, ?_⟩
    · rw [openPath, hu fuel hle, Option.bind_some]
      exact ht
    · obtain ⟨file, hf, -, -, -, rfl⟩ := openFile_ok ht
      refine ⟨(congrArg File.fDentry (Function.update_self ..)).trans hf, ?_⟩
      show u.inodes (u.dentries q.2).dInode = _
      rw [hd, hsu.inodes]

theorem sysStat_eq (hs : Silent (pathNames pathname.next) rootInode s) :
    ∃ n, ∀ fuel ≥ n, sysStat fuel pathname s = some (match target (pathNames pathname.next) rootInode s with
      | none => (-1, none, s.fail .ENOENT)
      | some inode => (0, some (.of (s.inodes inode)), s)) := by
  obtain ⟨n, hn⟩ := silent_lookupPath hs
  exact ⟨n, fun fuel hle => by rw [sysStat, inodeFromPathname, hn fuel hle, Option.map_some]⟩

/-- The live blocks tell whether the walk was silent. -/
theorem silent_of_untouched {n : ℕ} {r : ℤ × Option Stat × System} (h : ∀ fuel ≥ n, sysStat fuel pathname s = some r)
    (hu : Untouched s r.2.2) : Silent (pathNames pathname.next) rootInode s := by
  obtain ⟨q, hq, rfl⟩ := Option.map_eq_some_iff.mp (h n le_rfl)
  have hlive : q.2.heap.live = s.heap.live := by
    refine Eq.trans ?_ hu.live
    cases q.1 <;> rfl
  exact silent_iff.mp ⟨n, q, fun fuel hle => lookupPath_mono hle hq, hlive⟩

end

/-- **`sys_stat` agrees with `sys_open` and leaves no trace** exactly when the path does not lead to an entry
of an image, and what it leads to has its file operations. -/
theorem stat_agrees_iff {pathname : Pathname} {s : System} (hr : Ready pathname s) :
    StatAgrees pathname s ↔ InTmpfs pathname s := by
  constructor
  · intro h
    obtain ⟨n, r, hn, hright⟩ := h
    have hs := silent_of_untouched hn hright.untouched
    refine ⟨hs, fun inode hinode => ?_⟩
    obtain ⟨m, hm⟩ := sysStat_eq hs
    have hres := (hn _ (le_max_left n m)).symm.trans (hm _ (le_max_right n m))
    rw [hinode] at hres
    obtain rfl := Option.some.inj hres
    obtain ⟨i, hi⟩ := hright.success.mp rfl
    obtain ⟨p, hp, -, hfop⟩ := (binds_iff hr hs i).mp hi
    obtain rfl := Option.some.inj (hinode.symm.trans hp)
    exact hfop
  · intro h
    obtain ⟨n, hn⟩ := sysStat_eq h.silent
    refine ⟨n, _, hn, ?_⟩
    cases ht : target (pathNames pathname.next) rootInode s with
    | none =>
      have hfails : ¬ ∃ i, Binds pathname s i := fun hb => by
        obtain ⟨i, hi⟩ := hb
        obtain ⟨p, hp, -⟩ := (binds_iff hr h.silent i).mp hi
        rw [ht] at hp
        cases hp
      exact ⟨iff_of_false (neg_ne_zero.mpr one_ne_zero) hfails, fun st i hst => (Option.some_ne_none st hst.symm).elim,
        ⟨rfl, rfl, rfl, rfl, rfl, rfl⟩⟩
    | some inode =>
      refine ⟨iff_of_true rfl ⟨_, (binds_iff hr h.silent _).mpr ⟨inode, ht, rfl, h.fop inode ht⟩⟩,
        fun st i hst hi => ?_,
        ⟨rfl, rfl, rfl, rfl, rfl, rfl⟩⟩
      obtain ⟨p, hp, rfl, -⟩ := (binds_iff hr h.silent i).mp hi
      obtain rfl := Option.some.inj (ht.symm.trans hp)
      obtain rfl := Option.some.inj hst
      exact ⟨rfl, rfl⟩

/-! ## A path into an image -/

/-- A path that stays outside of the image. -/
theorem ready_dev : Ready (path "/dev") longSystem where
  memory sizes h := by
    have hall : ∀ sizes ∈ (requests (path "/dev")).sublists, (Malloc.mallocs 10 sizes longSystem.heap).isSome =
        true := by
      decide +kernel
    exact ⟨10, Option.isSome_iff_exists.mp (hall sizes (List.mem_sublists.mpr h))⟩
  descriptor := by decide +kernel
  root := rfl

theorem stat_agrees_iff_dev : StatAgrees (path "/dev") longSystem := by
  have hnames : pathNames (path "/dev").next = [(text "dev").text] := by decide +kernel
  have hop : (longSystem.inodes rootInode).iOp ≠ .romfs := by decide +kernel
  have hfop : (target [(text "dev").text] rootInode longSystem).all
      (fun inode => decide ((longSystem.inodes inode).iFop ≠ none)) = true := by decide +kernel
  refine (stat_agrees_iff ready_dev).mpr ⟨?_, fun inode hinode => ?_⟩
  · rw [hnames]
    exact ⟨fun _ himage => absurd himage hop, fun _ _ => trivial⟩
  · rw [hnames] at hinode
    rw [Option.mem_def.mp hinode] at hfop
    exact of_decide_eq_true hfop

/-- The path of a directory of the image. -/
def entryPath : Pathname := path "/dev/flash/aaaaaaaaaaaaaaaaaaaaaaaaaaaaaaa"

theorem ready_entryPath : Ready entryPath longSystem where
  memory sizes h := by
    have hall : ∀ sizes ∈ (requests entryPath).sublists, (Malloc.mallocs 10 sizes longSystem.heap).isSome = true := by
      decide +kernel
    exact ⟨10, Option.isSome_iff_exists.mp (hall sizes (List.mem_sublists.mpr h))⟩
  descriptor := by decide +kernel
  root := rfl

/-- The inode of the directory stays allocated. -/
theorem stat_leaks_inode :
    Ready entryPath longSystem ∧
      (∃ r, sysStat 20 entryPath longSystem = some r ∧ r.1 = 0 ∧
        r.2.2.heap.live.length = longSystem.heap.live.length + 1) ∧
      ¬ StatAgrees entryPath longSystem := by
  have hrun : (sysStat 20 entryPath longSystem).map (fun r => (r.1, r.2.2.heap.live.length)) =
      some (0, longSystem.heap.live.length + 1) := by
    decide +kernel
  obtain ⟨r, hr, he⟩ := Option.map_eq_some_iff.mp hrun
  obtain ⟨hzero, hlive⟩ := Prod.mk.inj he
  refine ⟨ready_entryPath, ⟨r, hr, hzero, hlive⟩, fun h => ?_⟩
  obtain ⟨n, q, hq, hright⟩ := h
  obtain ⟨w, hw, rfl⟩ := Option.map_eq_some_iff.mp hr
  have hw' : inodeFromPathname (max n 20) entryPath longSystem = some w := lookupPath_mono (Nat.le_max_right n 20) hw
  have hres := hq (max n 20) (Nat.le_max_left n 20)
  rw [sysStat, hw', Option.map_some] at hres
  obtain rfl := Option.some.inj hres
  exact Nat.succ_ne_self _ (hlive.symm.trans (congrArg List.length hright.untouched.live))

end PikoRT.Fs.SysStat

import PikoRT.Fs.Drivers
import PikoRT.Fs.SysStat
import PikoRT.Fs.Tmpfs

/-! # Mounting an image (`fs/romfs.c`)

`romfs_mount` makes an inode, links it into `/dev` under the last name of the target, and then makes the
super block. The inode is in the directory before all of it is there. -/
namespace PikoRT.Fs.Mount
open PikoRT.Kernel.Bitops PikoRT.Libc PikoRT.Libc.Printf
open PikoRT.Fs.Romfs PikoRT.Fs.RomfsLookup PikoRT.Fs.Vfs PikoRT.Fs.Open PikoRT.Fs.Dentries PikoRT.Fs.OpenClose
open PikoRT.Fs.Drivers (MtdInfo)
open PikoRT.Fs.SilentWalk PikoRT.Fs.SysStat PikoRT.Fs.Tmpfs

/-- `sizeof(struct super_block)`. -/
def sizeofSuperBlock : Word := 8

def devInode : Ptr := .static 1

/-- `basename`: what is behind the last slash. -/
def basename (filename : CString) : CString where
  text := (filename.text.reverse.takeWhile fun c => decide (c ≠ ch '/')).reverse
  noNul h := filename.noNul (List.mem_reverse.mp ((List.takeWhile_sublist _).subset (List.mem_reverse.mp h)))

/-- `vfs_link`; an image has no `link`. -/
def vfsLink (fuel : ℕ) (dir : Ptr) (entry : Dirlist) (s : System) : Option (ℤ × System) :=
  match (s.inodes dir).iOp with
  | .tmpfs => tmpfsLink fuel dir entry s
  | .romfs => some (-1, s)

/-- The new inode: `init_tmpfs_inode`, whose counter is at `ino`, and what the mount sets at once. Nobody sets
`i_fop`. -/
def mountInode (ino : Word) (i : Inode) : Inode :=
  { i with iIno := ino, iOp := .romfs, iMode := sIfdir, iSize := 0, iFop := none }

/-- The super block, and what the inode at `addr` gets with it. -/
def mountSuper (fuel addr : ℕ) (mtd : MtdInfo) (s : System) : Option (ℤ × System) :=
  (s.malloc fuel sizeofSuperBlock).bind fun r =>
    match r.1 with
    | none => some (-1, r.2)
    | some sb =>
      (offsetofFirstDeviceInode r.2.rom fuel mtd.priv).map fun offset =>
        (0, { r.2 with superBlocks := Function.update r.2.superBlocks sb ⟨mtd.priv, mtd.size, .heap addr⟩ }.setInode
          (.heap addr) { r.2.inodes (.heap addr) with iSb := sb, iPrivate := offset })

/-- What follows on the `malloc` of the inode at `addr`. The name goes into a dentry on the stack, and behind it if
it is too long. -/
def mountAt (mtd : Word → MtdInfo) (ino : Word) (fuel addr : ℕ) (sInode : Ptr) (target : CString) (s : System) :
    Option (ℤ × System) :=
  if h : (basename target).strlen < NAME_MAX then
    (vfsLink fuel devInode ⟨.heap addr, basename target, h⟩
      (s.setInode (.heap addr) (mountInode ino (s.inodes (.heap addr))))).bind fun r =>
        mountSuper fuel addr (mtd (r.2.inodes sInode).iPrivate) r.2
  else none

/-- `romfs_mount`, with the inode that it makes. -/
def romfsMount (mtd : Word → MtdInfo) (ino : Word) (fuel : ℕ) (source target : Pathname) (s : System) :
    Option (ℤ × Option Ptr × System) :=
  (inodeFromPathname fuel source s).bind fun r =>
    match r.1 with
    | none => some (-1, none, r.2)
    | some sInode =>
      (r.2.malloc fuel sizeofInode).bind fun q =>
        match q.1 with
        | none => some (-1, none, q.2)
        | some addr =>
          (mountAt mtd ino fuel addr sInode target.toCString q.2).map fun p => (p.1, some (.heap addr), p.2)

/-! ## What a mount should do -/

/-- The fields of the root of the image on the device. -/
structure Initialised (mtd : MtdInfo) (inode : Ptr) (t : System) : Prop where
  op : (t.inodes inode).iOp = .romfs
  fop : (t.inodes inode).iFop ≠ none
  sb : t.superBlocks (t.inodes inode).iSb = ⟨mtd.priv, mtd.size, inode⟩
  mode : sIsdir (t.inodes inode).iMode = true
  offset : ∃ fuel, offsetofFirstDeviceInode t.rom fuel mtd.priv = some (t.inodes inode).iPrivate

/-- The target leads to the new inode, it can be opened, and the names below it are those of the image. -/
structure Mounted (mtd : MtdInfo) (target : Pathname) (inode : Ptr) (t : System) : Prop where
  resolves : ∃ n u, ∀ fuel ≥ n, inodeFromPathname fuel target t = some (some inode, u)
  initialised : Initialised mtd inode t
  below : ∀ l, WellFormed t.rom mtd.priv l → ∀ names : List CString, names ≠ [] →
    Served t.heap t.rom mtd.priv l l.root names →
    ∃ n r, (∀ fuel ≥ n, lookupPath fuel (names.map CString.text) inode t = some r) ∧
    Exact t.rom mtd.priv l l.root names r

/-- A mount that fails leaves everything as it was, and one that succeeds has mounted the device of the source. -/
def AllOrNothing (mtd : Word → MtdInfo) (ino : Word) (source target : Pathname) (s : System) : Prop :=
  ∃ n r, (∀ fuel ≥ n, romfsMount mtd ino fuel source target s = some r) ∧
    (r.1 ≠ 0 → Untouched s r.2.2) ∧
    (r.1 = 0 → ∃ m sInode u inode, (∀ fuel ≥ m, inodeFromPathname fuel source s = some (some sInode, u)) ∧
      r.2.1 = some inode ∧ Mounted (mtd (s.inodes sInode).iPrivate) target inode r.2.2)

/-- The walk of the source allocates nothing, and leads nowhere or there is no memory for the new inode. -/
def FailsAtOnce (source : Pathname) (s : System) : Prop :=
  Silent (pathNames source.next) rootInode s ∧ (target (pathNames source.next) rootInode s = none ∨ Refused s)

section

variable {mtd : Word → MtdInfo} {ino : Word} {source dest : Pathname} {s t u : System} {fuel addr : ℕ} {r : ℤ × System}

/-! ## What a mount has done -/

theorem malloc_live {size : Word} {p : Option ℕ} (h : s.malloc fuel size = some (p, t)) :
    s.heap.live.length ≤ t.heap.live.length := by
  obtain ⟨k, -, rfl⟩ := malloc_cases h
  cases p with
  | none => exact le_rfl
  | some a => exact Nat.le_succ _

theorem malloc_inodes {size : Word} {p : Option ℕ} (h : s.malloc fuel size = some (p, t)) : t.inodes = s.inodes := by
  obtain ⟨k, -, rfl⟩ := malloc_cases h
  rfl

theorem inodes_addEntry_of_ne {dir p : Ptr} {entry : Dirlist} (h : p ≠ dir) :
    (addEntry dir entry s).inodes p = s.inodes p :=
  Function.update_of_ne h ..

/-- A link takes no block away, and leaves the inodes on the heap alone. -/
theorem vfsLink_spec {entry : Dirlist} {n : ℕ} (h : vfsLink fuel (.static n) entry s = some r) :
    s.heap.live.length ≤ r.2.heap.live.length ∧ ∀ a, r.2.inodes (.heap a) = s.inodes (.heap a) := by
  unfold vfsLink at h
  split at h
  · obtain ⟨⟨p, t⟩, hm, rfl⟩ := Option.map_eq_some_iff.mp h
    have hlive := malloc_live hm
    have hinodes := malloc_inodes hm
    cases p with
    | none => exact ⟨hlive, fun a => congrFun hinodes _⟩
    | some b =>
      refine ⟨hlive, fun a => (inodes_addEntry_of_ne (fun h => ?_)).trans (congrFun hinodes _)⟩
      cases h
  · obtain rfl := Option.some.inj h
    exact ⟨le_rfl, fun _ => rfl⟩

theorem mountSuper_spec {m : MtdInfo} (h : mountSuper fuel addr m s = some r) :
    s.heap.live.length ≤ r.2.heap.live.length ∧ (r.2.inodes (.heap addr)).iFop = (s.inodes (.heap addr)).iFop := by
  obtain ⟨⟨p, t⟩, hm, h⟩ := Option.bind_eq_some_iff.mp h
  have hlive := malloc_live hm
  have hfop : (t.inodes (.heap addr)).iFop = (s.inodes (.heap addr)).iFop := by rw [malloc_inodes hm]
  cases p with
  | none =>
    obtain rfl := Option.some.inj h
    exact ⟨hlive, hfop⟩
  | some sb =>
    obtain ⟨offset, -, rfl⟩ := Option.map_eq_some_iff.mp h
    have hroot : ∀ i : Inode, (Function.update t.inodes (.heap addr) i) (.heap addr) = i :=
      fun i => Function.update_self ..
    exact ⟨hlive, (congrArg Inode.iFop (hroot _)).trans hfop⟩

/-- Whatever becomes of the link and of the super block, the inode stays allocated and has no `i_fop`. -/
theorem mountAt_spec {sInode : Ptr} {name : CString} (h : mountAt mtd ino fuel addr sInode name s = some r) :
    s.heap.live.length ≤ r.2.heap.live.length ∧ (r.2.inodes (.heap addr)).iFop = none := by
  unfold mountAt at h
  split at h
  · obtain ⟨q, hlink, hsuper⟩ := Option.bind_eq_some_iff.mp h
    obtain ⟨hlive, hkept⟩ := vfsLink_spec hlink
    obtain ⟨hlive', hfop⟩ := mountSuper_spec hsuper
    refine ⟨hlive.trans hlive', hfop.trans ?_⟩
    have hnew : (s.setInode (.heap addr) (mountInode ino (s.inodes (.heap addr)))).inodes (.heap addr) =
        mountInode ino (s.inodes (.heap addr)) := Function.update_self ..
    rw [hkept, hnew]
    rfl
  · cases h

/-! ## When it is all or nothing -/

theorem failsAtOnce_of_allOrNothing (h : AllOrNothing mtd ino source dest s) : FailsAtOnce source s := by
  obtain ⟨n, r, hr, hfails, hsucceeds⟩ := h
  obtain ⟨⟨o, t⟩, ht, hrest⟩ := Option.bind_eq_some_iff.mp (hr n le_rfl)
  have hwalk := lookupPath_live ht
  have hsilent : t.heap.live.length ≤ s.heap.live.length →
      Silent (pathNames source.next) rootInode s ∧ target (pathNames source.next) rootInode s = o ∧ t = s :=
      fun hlive => by
    have hs := silent_of_live (fun fuel hle => lookupPath_mono hle ht) hlive
    obtain ⟨m, hm⟩ := silent_lookupPath hs
    have heq := (hm _ (le_max_right n m)).symm.trans (lookupPath_mono (le_max_left n m) ht)
    obtain ⟨ho, hst⟩ := Prod.mk.inj (Option.some.inj heq)
    exact ⟨hs, ho, hst.symm⟩
  cases o with
  | none =>
    obtain rfl := Option.some.inj hrest
    have hu := hfails (neg_ne_zero.mpr one_ne_zero)
    obtain ⟨hs, hnone, -⟩ := hsilent (congrArg List.length hu.live).le
    exact ⟨hs, .inl hnone⟩
  | some sInode =>
    obtain ⟨⟨p, v⟩, hm, hrest⟩ := Option.bind_eq_some_iff.mp hrest
    obtain ⟨k, hk, rfl⟩ := malloc_cases hm
    cases p with
    | none =>
      obtain rfl := Option.some.inj hrest
      have hu := hfails (neg_ne_zero.mpr one_ne_zero)
      obtain ⟨hs, -, rfl⟩ := hsilent (congrArg List.length hu.live).le
      exact ⟨hs, .inr ⟨n, k, hk⟩⟩
    | some addr =>
      obtain ⟨q, hq, rfl⟩ := Option.map_eq_some_iff.mp hrest
      obtain ⟨hlive, hfop⟩ := mountAt_spec hq
      by_cases hz : q.1 = 0
      · obtain ⟨m, sInode, u, inode, -, hinode, hmounted⟩ := hsucceeds hz
        obtain rfl : Ptr.heap addr = inode := Option.some.inj hinode
        exact absurd hfop hmounted.initialised.fop
      · have hu : q.2.heap.live.length = s.heap.live.length := congrArg List.length (hfails hz).live
        have hgrown : t.heap.live.length + 1 ≤ q.2.heap.live.length := hlive
        have hwalk' : s.heap.live.length ≤ t.heap.live.length := hwalk
        omega

theorem FailsAtOnce.allOrNothing (h : FailsAtOnce source s) : AllOrNothing mtd ino source dest s := by
  obtain ⟨hs, hwhy⟩ := h
  obtain ⟨n, hn⟩ := silent_lookupPath hs
  have hunchanged : Untouched s s := ⟨rfl, rfl, rfl, rfl, rfl, rfl⟩
  have hreturns : ∃ m, ∀ fuel ≥ m, romfsMount mtd ino fuel source dest s = some (-1, none, s) := by
    cases ht : target (pathNames source.next) rootInode s with
    | none =>
      refine ⟨n, fun fuel hle => ?_⟩
      rw [romfsMount, inodeFromPathname, hn fuel hle, ht]
      rfl
    | some sInode =>
      obtain ⟨m, k, hk⟩ := hwhy.resolve_left (by rw [ht]; exact Option.some_ne_none sInode)
      refine ⟨max n m, fun fuel hle => ?_⟩
      rw [romfsMount, inodeFromPathname, hn fuel (le_of_max_le_left hle), ht, Option.bind_some]
      dsimp only
      rw [System.malloc, HeapRestore.malloc_mono (le_of_max_le_right hle) hk, Option.map_some, Option.bind_some,
        setHeap_none hk]
  obtain ⟨m, hm⟩ := hreturns
  exact ⟨m, _, hm, fun _ => hunchanged, fun hz => absurd hz (neg_ne_zero.mpr one_ne_zero)⟩

end

/-- **A mount is all or nothing** exactly when it fails before it has made anything: no mount that succeeds is
complete, and no other failure is without a trace. -/
theorem mount_all_or_nothing_iff (mtd : Word → MtdInfo) (ino : Word) (source target : Pathname) (s : System) :
    AllOrNothing mtd ino source target s ↔ FailsAtOnce source s :=
  ⟨failsAtOnce_of_allOrNothing, FailsAtOnce.allOrNothing⟩

/-! ## A device in `/dev` -/

theorem short_mtd : (text "mtd").strlen < NAME_MAX := by decide

/-- `/dev/mtd`, with nothing mounted. -/
def mtdSystem : System :=
  { longSystem with
    heap := Malloc.init longRegion HeapRun.zeroed
    inodes := fun p =>
      if p = rootInode then ⟨sIfdir, 1, 1, .tmpfs, some .tmpfs, 0, 0⟩
      else if p = devInode then ⟨sIfdir, 2, 1, .tmpfs, some .tmpfs, 0, 1⟩
      else ⟨sIfchr, 3, 0, .tmpfs, some .mtdchar, 0, 0x20001000⟩
    dirlists := fun k =>
      if k = 0 then [devEntry] else if k = 1 then [⟨.static 3, text "mtd", short_mtd⟩] else [] }

def flashInfo : Word → MtdInfo := fun _ => ⟨0x400, flash⟩

/-- The mount succeeds, and what it has mounted cannot be opened. -/
theorem mounted_root_has_no_fop :
    (∃ r, romfsMount flashInfo 9000 10 (path "/dev/mtd") (path "/dev/flash") mtdSystem = some r ∧ r.1 = 0 ∧
      ∃ inode, r.2.1 = some inode ∧ (r.2.2.inodes inode).iFop = none) ∧
    ¬ AllOrNothing flashInfo 9000 (path "/dev/mtd") (path "/dev/flash") mtdSystem := by
  have hrun : (romfsMount flashInfo 9000 10 (path "/dev/mtd") (path "/dev/flash") mtdSystem).map (fun r =>
      (r.1, r.2.1.map fun inode => (r.2.2.inodes inode).iFop)) = some (0, some none) := by
    decide +kernel
  obtain ⟨r, hr, he⟩ := Option.map_eq_some_iff.mp hrun
  obtain ⟨hzero, hfop⟩ := Prod.mk.inj he
  obtain ⟨inode, hinode, hfop⟩ := Option.map_eq_some_iff.mp hfop
  refine ⟨⟨r, hr, hzero, inode, hinode, hfop⟩, fun h => ?_⟩
  rcases (failsAtOnce_of_allOrNothing h).2 with hnone | hrefused
  · have hsome : target (pathNames (path "/dev/mtd").next) rootInode mtdSystem = some (.static 3) := by decide +kernel
    rw [hsome] at hnone
    cases hnone
  · have hgrants : Grants mtdSystem.heap [sizeofInode] := ⟨10, Option.isSome_iff_exists.mp (by decide +kernel)⟩
    exact not_refused hgrants hrefused

end PikoRT.Fs.Mount

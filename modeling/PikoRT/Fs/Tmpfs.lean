import PikoRT.Fs.Files
import PikoRT.Fs.RomfsLookup
import PikoRT.Libc.HeapLedger

/-! # Directories of tmpfs (`fs/tmpfs.c`)

A directory is a list of entries, and its size is counted apart from it. A reader has a position
in the list, and new entries come to its end. -/
namespace PikoRT.Fs.Tmpfs
open PikoRT.Kernel.Bitops PikoRT.Libc PikoRT.Libc.Printf PikoRT.Lib.Run
open PikoRT.Fs.Romfs PikoRT.Fs.Vfs PikoRT.Fs.Open PikoRT.Fs.Files
open PikoRT.Libc.Malloc (Allocation Region)
open PikoRT.Libc.HeapRun (Inv Modest inv_malloc)

/-- `sizeof(struct dirlist)`. -/
def sizeofDirlist : Word := 44

/-- The entries of a directory. -/
def entries (dir : Ptr) (s : System) : List Dirlist := s.dirlists (s.inodes dir).iPrivate

/-- `list_add_tail` and `dir->i_size++`. -/
def addEntry (dir : Ptr) (entry : Dirlist) (s : System) : System :=
  { s with dirlists := Function.update s.dirlists (s.inodes dir).iPrivate (entries dir s ++ [entry]) }.setInode dir
    { s.inodes dir with iSize := (s.inodes dir).iSize + 1 }

/-- `tmpfs_link`, of a name that fits. -/
def tmpfsLink (fuel : ℕ) (dir : Ptr) (entry : Dirlist) (s : System) : Option (ℤ × System) :=
  (s.malloc fuel sizeofDirlist).map fun r =>
    match r.1 with
    | none => (-1, r.2)
    | some _ => (0, addEntry dir entry r.2)

/-! ## Links and reads in any order -/

/-- The descriptors that were opened on the directory have the results of their reads; the blocks of
the heap that are not entries are known. -/
structure Session where
  sys : System
  others : List ℕ
  results : ℤ → Option (List (Option Dirent))

inductive Act where
  | link (fuel : ℕ) (entry : Dirlist)
  /-- `f_op` and `f_dentry` are set, and `f_pos` is 0. -/
  | opened (fd : ℤ) (dentry : Ptr)
  | readdir (fd : ℤ)
  /-- Others use the heap. -/
  | take (fuel : ℕ) (size : Word)
  | give (ptr : ℕ)

instance (size : Word) : Decidable (Modest size) := inferInstanceAs (Decidable (_ ≤ _))

def step (dir : Ptr) (s : Session) : Act → Option Session
  | .link fuel entry => (tmpfsLink fuel dir entry s.sys).map fun r => { s with sys := r.2 }
  | .opened fd dentry =>
    if 0 ≤ fd ∧ fd < FILE_MAX ∧ (s.sys.dentries dentry).dInode = dir then
      some { s with
        sys := setFile fd (initFile .tmpfs (s.sys.inodes dir) dentry (s.sys.filetable fd.toNat)) s.sys
        results := Function.update s.results fd (some []) }
    else none
  | .readdir fd =>
    (s.results fd).bind fun rs => (sysReaddirR fd s.sys).map fun r =>
      { s with sys := r.2.2, results := Function.update s.results fd (some (rs ++ [r.2.1])) }
  | .take fuel size =>
    if Modest size then
      (s.sys.malloc fuel size).map fun r => { s with sys := r.2, others := r.1.toList ++ s.others }
    else none
  | .give ptr =>
    if ptr ∈ s.others then
      (s.sys.free (.heap ptr)).map fun sys => { s with sys := sys, others := s.others.erase ptr }
    else none

/-! ## What a listing is -/

/-- `.`, `..` and the entries in the order of their links. -/
def listing (dir dentry : Ptr) (s : System) : List Dirent :=
  ⟨(s.inodes dir).iIno, [ch '.']⟩ :: ⟨(s.inodes (s.dentries (s.dentries dentry).dParent).dInode).iIno,
    [ch '.', ch '.']⟩ ::
    (entries dir s).map fun e => ⟨(s.inodes e.inode).iIno, e.name.text⟩

/-- What the results of a reader give. -/
def given (rs : List (Option Dirent)) : List Dirent := rs.filterMap id

/-- What `readdir_r` has given is the beginning of the listing, and the next call gives the next of it, or
NULL if there is none. -/
structure Reads (dir : Ptr) (s : Session) (fd : ℤ) (rs : List (Option Dirent)) (dentry : Ptr) : Prop where
  file : (fdToFile fd s.sys).bind File.fDentry = some dentry
  before : given rs <+: listing dir dentry s.sys
  next : ∃ t, step dir s (.readdir fd) = some t ∧
    t.results fd = some (rs ++ [(listing dir dentry s.sys)[(given rs).length]?])

/-- A link that succeeds adds its entry at the end, and one that fails changes nothing. -/
def Links (dir : Ptr) (s : System) (entry : Dirlist) : Prop :=
  ∃ n r, (∀ fuel ≥ n, tmpfsLink fuel dir entry s = some r) ∧
    (r.1 = 0 ∧ entries dir r.2 = entries dir s ++ [entry] ∨ r.1 = -1 ∧ entries dir r.2 = entries dir s)

structure Exact (dir : Ptr) (s : Session) : Prop where
  size : (s.sys.inodes dir).iSize.toInt = (entries dir s.sys).length
  links : ∀ entry, Links dir s.sys entry
  reads : ∀ fd rs, s.results fd = some rs → ∃ dentry, Reads dir s fd rs dentry

/-- An empty directory, or the root with its two entries; nobody reads it. -/
structure Fresh (g : Region) (dir : Ptr) (s : Session) : Prop where
  heap : ∃ xs, Inv g s.sys.heap xs
  others : s.others = s.sys.heap.live.map Allocation.ptr
  results : s.results = fun _ => none
  size : (s.sys.inodes dir).iSize = BitVec.ofNat 32 (entries dir s.sys).length
  few : (entries dir s.sys).length ≤ 2

section

variable {g : Region} {dir dentry : Ptr} {s t : Session} {sys : System} {fd : ℤ} {entry : Dirlist} {fuel : ℕ}
  {rs : List (Option Dirent)} {xs : List Lib.Tiling.Seg}

/-! ## The number of blocks -/

theorem length_live_lt {h : Malloc.State} (hi : Inv g h xs) : h.live.length < 2 ^ 30 := by
  have hle := hi.layout.tiles.length_le hi.layout.pos
  have hstop := HeapRun.Region.stop_lt g
  have hperm := hi.users.length_eq
  rw [List.length_map, List.length_map] at hperm
  have hfilter : (Lib.Tiling.live xs).length ≤ xs.length := List.length_filter_le _ _
  omega

/-! ## The invariant -/

/-- A reader of the directory. -/
structure Cursor (dir : Ptr) (s : Session) (fd : ℤ) (rs : List (Option Dirent)) (dentry : Ptr)
    (file : File) : Prop where
  toFile : fdToFile fd s.sys = some file
  op : file.fOp = some .tmpfs
  fDentry : file.fDentry = some dentry
  inode : (s.sys.dentries dentry).dInode = dir
  pos : file.fPos = BitVec.ofNat 32 (given rs).length
  before : given rs <+: listing dir dentry s.sys

structure Kept (g : Region) (dir : Ptr) (s : Session) : Prop where
  heap : ∃ xs, Inv g s.sys.heap xs
  size : (s.sys.inodes dir).iSize = BitVec.ofNat 32 (entries dir s.sys).length
  /-- Every entry but the two of the root has a block. -/
  blocks : (entries dir s.sys).length + s.others.length ≤ 2 + s.sys.heap.live.length
  cursors : ∀ fd rs, s.results fd = some rs → ∃ dentry file, Cursor dir s fd rs dentry file

theorem Kept.small (hk : Kept g dir s) : (entries dir s.sys).length + 2 < 2 ^ 31 := by
  obtain ⟨xs, hi⟩ := hk.heap
  have hlive := length_live_lt hi
  have hblocks := hk.blocks
  omega

theorem Fresh.kept (h : Fresh g dir s) : Kept g dir s := by
  refine ⟨h.heap, h.size, ?_, fun fd rs hrs => ?_⟩
  · have hfew := h.few
    rw [h.others, List.length_map]
    omega
  · rw [h.results] at hrs
    cases hrs

theorem length_listing (dir dentry : Ptr) (s : System) :
    (listing dir dentry s).length = (entries dir s).length + 2 := by
  rw [listing, List.length_cons, List.length_cons, List.length_map]

/-! ## The heap -/

theorem malloc_spec {t : System} {p : Option ℕ} {size : Word} (hi : Inv g sys.heap xs) (hm : Modest size)
    (h : sys.malloc fuel size = some (p, t)) :
    ∃ h', t = { sys with heap := h' } ∧ (∃ ys, Inv g h' ys) ∧
    h'.live.length = p.toList.length + sys.heap.live.length := by
  obtain ⟨r, hr, hrt⟩ := Option.map_eq_some_iff.mp h
  obtain ⟨rfl, rfl⟩ := Prod.mk.inj hrt
  rcases inv_malloc hi hm hr with ⟨w, ys, -, hptr, hinv, -⟩ | ⟨-, rfl⟩
  · refine ⟨_, rfl, ⟨ys, ?_⟩, ?_⟩
    · rw [hptr]
      exact hinv
    · rw [hptr]
      exact Nat.add_comm ..
  · exact ⟨_, rfl, ⟨xs, hi⟩, (Nat.zero_add _).symm⟩

theorem free_spec {ptr : ℕ} (hi : Inv g sys.heap xs) {t : System} (h : sys.free (.heap ptr) = some t) :
    ∃ h', t = { sys with heap := h' } ∧ (∃ ys, Inv g h' ys) ∧ h'.live.length + 1 = sys.heap.live.length := by
  obtain ⟨h', hstep, rfl⟩ := Option.map_eq_some_iff.mp h
  refine ⟨h', rfl, HeapRun.step_inv hi (show HeapRun.Act.Modest (.free ptr) from trivial) hstep, ?_⟩
  rw [Malloc.step] at hstep
  split at hstep
  · rename_i hu
    obtain ⟨u, hu, hptr⟩ := hu
    obtain ⟨k, -, rfl⟩ := Option.map_eq_some_iff.mp hstep
    have hpos := List.length_pos_of_mem hu
    rw [List.length_eraseP_of_mem hu (by simpa using hptr)]
    omega
  · cases hstep

theorem modest_sizeofDirlist : Modest sizeofDirlist := by
  unfold Modest sizeofDirlist
  decide

/-! ## The listing -/

theorem inodes_addEntry (q : Ptr) : ((addEntry dir entry sys).inodes q).iIno = (sys.inodes q).iIno := by
  show (Function.update sys.inodes dir { sys.inodes dir with iSize := (sys.inodes dir).iSize + 1 } q).iIno = _
  by_cases hq : q = dir
  · rw [hq, Function.update_self]
  · rw [Function.update_of_ne hq]

theorem inode_addEntry :
    (addEntry dir entry sys).inodes dir = { sys.inodes dir with iSize := (sys.inodes dir).iSize + 1 } :=
  Function.update_self ..

theorem entries_addEntry : entries dir (addEntry dir entry sys) = entries dir sys ++ [entry] := by
  show (addEntry dir entry sys).dirlists ((addEntry dir entry sys).inodes dir).iPrivate = _
  rw [inode_addEntry]
  exact Function.update_self ..

theorem listing_addEntry (p : Ptr) :
    listing dir p (addEntry dir entry sys) = listing dir p sys ++
    [⟨(sys.inodes entry.inode).iIno, entry.name.text⟩] := by
  unfold listing
  rw [entries_addEntry, List.map_append, List.map_singleton]
  simp only [inodes_addEntry]
  rfl

/-! ## One read -/

/-- The entry at the position. -/
theorem emitted_eq {c : ℕ} (hc : c < (entries dir sys).length + 2) (hsmall : (entries dir sys).length + 2 < 2 ^ 31) :
    emitted (sys.dentries dentry) (sys.inodes dir) (BitVec.ofNat 32 c) sys = (listing dir dentry sys)[c]? := by
  have hnat : (BitVec.ofNat 32 c).toNat = c := by
    rw [BitVec.toNat_ofNat]
    exact Nat.mod_eq_of_lt (by omega)
  have hint : (BitVec.ofNat 32 c).toInt = c := by
    rw [BitVec.toInt_eq_toNat_of_lt (by omega), hnat]
  unfold emitted
  rcases c with _ | _ | c
  · exact if_pos rfl
  · exact (if_neg (by decide)).trans (if_pos rfl)
  · have hzero : BitVec.ofNat 32 (c + 1 + 1) ≠ 0 := fun h => by
      rw [h] at hnat
      cases hnat
    have hone : BitVec.ofNat 32 (c + 1 + 1) ≠ 1 := fun h => by
      rw [h] at hnat
      cases hnat
    rw [if_neg hzero, if_neg hone, hint, if_neg (by omega), hnat, show c + 1 + 1 - 2 = c from rfl, listing,
      List.getElem?_cons_succ,
      List.getElem?_cons_succ, List.getElem?_map]
    rfl

theorem given_append (rs : List (Option Dirent)) (r : Option Dirent) : given (rs ++ [r]) = given rs ++ r.toList := by
  rw [given, List.filterMap_append]
  cases r <;> rfl

/-- What is given next goes on with the listing. -/
theorem given_next {l : List Dirent} (h : given rs <+: l) : given (rs ++ [l[(given rs).length]?]) <+: l := by
  obtain ⟨rest, hl⟩ := h
  rw [given_append]
  cases rest with
  | nil =>
    rw [List.append_nil] at hl
    rw [← hl, List.getElem?_eq_none le_rfl, Option.toList_none, List.append_nil]
  | cons e rest =>
    rw [← hl, List.getElem?_append_right le_rfl, Nat.sub_self, List.getElem?_cons_zero, Option.toList_some]
    exact ⟨rest, by rw [List.append_assoc, List.singleton_append]⟩

/-- The position after a read. -/
def advanced (file : File) (r : Option Dirent) : File :=
  { file with fPos := file.fPos + BitVec.ofNat 32 r.toList.length }

theorem tmpfsIterate_eq {file : File} (hk : Kept g dir s) (hc : Cursor dir s fd rs dentry file) :
    tmpfsIterate (s.sys.dentries dentry) file s.sys =
      ((listing dir dentry s.sys)[(given rs).length]?,
        advanced file (listing dir dentry s.sys)[(given rs).length]?) := by
  have hlen := hc.before.length_le
  rw [length_listing] at hlen
  have hsmall := hk.small
  have hsize : (s.sys.inodes dir).iSize + 2 = BitVec.ofNat 32 ((entries dir s.sys).length + 2) := by
    rw [hk.size, BitVec.ofNat_add]
    rfl
  unfold tmpfsIterate
  rw [hc.inode]
  dsimp only
  by_cases hend : (given rs).length = (entries dir s.sys).length + 2
  · have hnone : (listing dir dentry s.sys)[(given rs).length]? = none :=
      List.getElem?_eq_none (by rw [length_listing]; omega)
    rw [if_pos (by rw [hc.pos, hsize, hend]), hnone]
    exact congrArg _ (by rw [advanced, Option.toList_none, List.length_nil]; simp)
  · have hlt : (given rs).length < (listing dir dentry s.sys).length := by
      rw [length_listing]
      omega
    have hne : file.fPos ≠ (s.sys.inodes dir).iSize + 2 := fun h => by
      rw [hc.pos, hsize, ← BitVec.toNat_inj, BitVec.toNat_ofNat, BitVec.toNat_ofNat, Nat.mod_eq_of_lt (by omega),
        Nat.mod_eq_of_lt (by omega)] at h
      exact hend h
    rw [if_neg hne, hc.pos, emitted_eq (by omega) hsmall, List.getElem?_eq_getElem hlt]
    exact congrArg _ (by rw [advanced, hc.pos]; rfl)

/-- **One read** of a descriptor. -/
theorem readdir_eq {file : File} (hk : Kept g dir s) (hrs : s.results fd = some rs)
    (hc : Cursor dir s fd rs dentry file) :
    step dir s (.readdir fd) = some { s with
      sys := setFile fd (advanced file (listing dir dentry s.sys)[(given rs).length]?) s.sys
      results := Function.update s.results fd (some (rs ++ [(listing dir dentry s.sys)[(given rs).length]?])) } := by
  have hread : sysReaddirR fd s.sys = some (0, (listing dir dentry s.sys)[(given rs).length]?,
      setFile fd (advanced file (listing dir dentry s.sys)[(given rs).length]?) s.sys) := by
    rw [sysReaddirR, hc.toFile, Option.bind_some, hc.op, Option.bind_some]
    dsimp only
    rw [hc.fDentry, Option.map_some, tmpfsIterate_eq hk hc]
  rw [step, hrs, Option.bind_some, hread]
  rfl

/-! ## The steps keep it -/

theorem Cursor.moved {file : File} (hc : Cursor dir s fd rs dentry file) (hf : fdToFile fd t.sys = fdToFile fd s.sys)
    (hd : t.sys.dentries = s.sys.dentries) (hl : listing dir dentry s.sys <+: listing dir dentry t.sys) :
    Cursor dir t fd rs dentry file :=
  ⟨hf.trans hc.toFile, hc.op, hc.fDentry, by rw [hd]; exact hc.inode, hc.pos, hc.before.trans hl⟩

/-- Others have used the heap. -/
theorem Kept.reheap {h' : Malloc.State} {others : List ℕ} (hk : Kept g dir s) (hi : ∃ ys, Inv g h' ys)
    (hblocks : (entries dir s.sys).length + others.length ≤ 2 + h'.live.length) :
    Kept g dir ⟨{ s.sys with heap := h' }, others, s.results⟩ := by
  refine ⟨hi, hk.size, hblocks, fun fd rs hrs => ?_⟩
  obtain ⟨dentry, file, hc⟩ := hk.cursors fd rs hrs
  exact ⟨dentry, file, hc.moved rfl rfl (List.prefix_refl _)⟩

theorem Kept.link (hk : Kept g dir s) (ht : step dir s (.link fuel entry) = some t) : Kept g dir t := by
  obtain ⟨xs, hi⟩ := hk.heap
  obtain ⟨r, hr, rfl⟩ := Option.map_eq_some_iff.mp ht
  obtain ⟨⟨p, sys⟩, hm, rfl⟩ := Option.map_eq_some_iff.mp hr
  obtain ⟨h', rfl, hinv, hlive⟩ := malloc_spec hi modest_sizeofDirlist hm
  have hblocks := hk.blocks
  cases p with
  | none => exact hk.reheap hinv (by rw [hlive]; simpa using hblocks)
  | some addr =>
    rw [Option.toList_some, List.length_singleton] at hlive
    refine ⟨hinv, ?_, ?_, fun fd rs hrs => ?_⟩
    · show ((addEntry dir entry { s.sys with heap := h' }).inodes dir).iSize =
        BitVec.ofNat 32 (entries dir (addEntry dir entry { s.sys with heap := h' })).length
      rw [inode_addEntry, entries_addEntry]
      show (s.sys.inodes dir).iSize + 1 = BitVec.ofNat 32 (entries dir s.sys ++ [entry]).length
      rw [List.length_append, BitVec.ofNat_add, hk.size]
      rfl
    · show (entries dir (addEntry dir entry { s.sys with heap := h' })).length + _ ≤ 2 + h'.live.length
      rw [entries_addEntry, List.length_append, List.length_singleton, hlive]
      show (entries dir s.sys).length + 1 + s.others.length ≤ _
      omega
    · obtain ⟨dentry, file, hc⟩ := hk.cursors fd rs hrs
      refine ⟨dentry, file, hc.moved rfl rfl ?_⟩
      show _ <+: listing dir dentry (addEntry dir entry { s.sys with heap := h' })
      rw [listing_addEntry]
      exact List.prefix_append ..

/-- A descriptor that is set on the directory, or moves on. -/
theorem Kept.set {file : File} (hk : Kept g dir s) (hfd : 0 ≤ fd)
    (hc : Cursor dir ⟨setFile fd file s.sys, s.others, Function.update s.results fd (some rs)⟩ fd rs dentry file) :
    Kept g dir ⟨setFile fd file s.sys, s.others, Function.update s.results fd (some rs)⟩ := by
  refine ⟨hk.heap, hk.size, hk.blocks, fun fd' rs' hrs => ?_⟩
  replace hrs : Function.update s.results fd (some rs) fd' = some rs' := hrs
  by_cases hne : fd' = fd
  · subst hne
    rw [Function.update_self, Option.some.injEq] at hrs
    exact hrs ▸ ⟨dentry, file, hc⟩
  · rw [Function.update_of_ne hne] at hrs
    obtain ⟨dentry', file', hc'⟩ := hk.cursors fd' rs' hrs
    exact ⟨dentry', file', hc'.moved (fdToFile_setFile_of_ne hne hfd file) rfl (List.prefix_refl _)⟩

theorem Kept.opened (hk : Kept g dir s) (ht : step dir s (.opened fd dentry) = some t) : Kept g dir t := by
  rw [step] at ht
  split at ht
  · rename_i h
    obtain ⟨hlo, hhi, hinode⟩ := h
    obtain rfl := Option.some.inj ht
    have hfile : fdToFile fd s.sys = some (s.sys.filetable fd.toNat) := if_pos ⟨hlo, hhi⟩
    exact hk.set hlo (Cursor.mk (fdToFile_setFile hfile) rfl rfl hinode rfl List.nil_prefix)
  · cases ht

theorem Cursor.nonneg {file : File} (hc : Cursor dir s fd rs dentry file) : 0 ≤ fd := by
  have hfile := hc.toFile
  unfold fdToFile at hfile
  split at hfile
  · rename_i h
    exact h.1
  · cases hfile

theorem Kept.readdir (hk : Kept g dir s) (ht : step dir s (.readdir fd) = some t) : Kept g dir t := by
  have hret := ht
  obtain ⟨rs, hrs, -⟩ := Option.bind_eq_some_iff.mp hret
  obtain ⟨dentry, file, hc⟩ := hk.cursors fd rs hrs
  rw [readdir_eq hk hrs hc] at ht
  obtain rfl := Option.some.inj ht
  refine hk.set hc.nonneg ⟨fdToFile_setFile hc.toFile, hc.op, hc.fDentry, hc.inode, ?_, given_next hc.before⟩
  show file.fPos + _ = _
  rw [hc.pos, given_append, List.length_append, BitVec.ofNat_add]

theorem step_kept {a : Act} (hk : Kept g dir s) (ht : step dir s a = some t) : Kept g dir t := by
  cases a with
  | link fuel entry => exact hk.link ht
  | opened fd dentry => exact hk.opened ht
  | readdir fd => exact hk.readdir ht
  | take fuel size =>
    obtain ⟨xs, hi⟩ := hk.heap
    have hblocks := hk.blocks
    rw [step] at ht
    split at ht
    · rename_i hm
      obtain ⟨⟨p, sys⟩, hr, rfl⟩ := Option.map_eq_some_iff.mp ht
      obtain ⟨h', rfl, hinv, hlive⟩ := malloc_spec hi hm hr
      have hothers : (p.toList ++ s.others).length = p.toList.length + s.others.length := List.length_append
      exact hk.reheap hinv (by dsimp only; omega)
    · cases ht
  | give ptr =>
    obtain ⟨xs, hi⟩ := hk.heap
    have hblocks := hk.blocks
    rw [step] at ht
    split at ht
    · rename_i hmem
      obtain ⟨sys, hr, rfl⟩ := Option.map_eq_some_iff.mp ht
      obtain ⟨h', rfl, hinv, hlive⟩ := free_spec hi hr
      refine hk.reheap hinv ?_
      have hpos := List.length_pos_of_mem hmem
      rw [List.length_erase_of_mem hmem]
      omega
    · cases ht

/-! ## Every state of a run -/

theorem Kept.links (hk : Kept g dir s) (entry : Dirlist) : Links dir s.sys entry := by
  obtain ⟨xs, hi⟩ := hk.heap
  obtain ⟨r, hr⟩ :=
    Blocks.mallocFrom_some (Malloc.blockSize sizeofDirlist) hi.layout (HeapRun.Region.stop_lt g) hi.holds
  have hmalloc : ∀ fuel ≥ xs.length + 1, s.sys.malloc fuel sizeofDirlist = some (r.1, s.sys.setHeap sizeofDirlist r) :=
    fun fuel hle => Option.map_eq_some_iff.mpr ⟨r, Blocks.mallocFrom_mono hle hr, rfl⟩
  cases hp : r.1 with
  | none =>
    refine ⟨xs.length + 1, (-1, s.sys.setHeap sizeofDirlist r), fun fuel hle => ?_, .inr ⟨rfl, rfl⟩⟩
    rw [tmpfsLink, hmalloc fuel hle, hp]
    rfl
  | some addr =>
    refine ⟨xs.length + 1, (0, addEntry dir entry (s.sys.setHeap sizeofDirlist r)), fun fuel hle => ?_,
      .inl ⟨rfl, entries_addEntry⟩⟩
    rw [tmpfsLink, hmalloc fuel hle, hp]
    rfl

theorem Kept.exact (hk : Kept g dir s) : Exact dir s := by
  have hsmall := hk.small
  refine ⟨?_, hk.links, fun fd rs hrs => ?_⟩
  · rw [hk.size, BitVec.toInt_eq_toNat_of_lt] <;> rw [BitVec.toNat_ofNat, Nat.mod_eq_of_lt (by omega)]
    omega
  · obtain ⟨dentry, file, hc⟩ := hk.cursors fd rs hrs
    refine ⟨dentry, ⟨?_, hc.before, _, readdir_eq hk hrs hc, Function.update_self ..⟩⟩
    rw [hc.toFile]
    exact hc.fDentry

end

/-- **Listings are complete and exact**, in every order of links, openings and reads. -/
theorem listings_exact {g : Region} {dir : Ptr} {s t : Session} {acts : List Act} (hs : Fresh g dir s)
    (hr : run (step dir) s acts = some t) : Exact dir t :=
  (run_invariant (I := Kept g dir) (fun _ _ _ hk ht => step_kept hk ht) hr hs.kept).exact

/-! ## An entry that is linked between two reads -/

/-- The root of tmpfs, with no entries. -/
def emptyRoot : Session where
  sys := { RomfsLookup.farSystem with inodes := fun _ => ⟨sIfdir, 0, 0, .tmpfs, some .tmpfs, 0, 0⟩ }
  others := []
  results _ := none

theorem short_dev : (RomfsLookup.text "dev").strlen < NAME_MAX := by decide

def devEntry : Dirlist := ⟨.static 1, RomfsLookup.text "dev", short_dev⟩

theorem fresh_emptyRoot : Fresh HeapRun.smallRegion rootInode emptyRoot :=
  ⟨⟨_, HeapRun.inv_init HeapRun.smallRegion HeapRun.zeroed⟩, rfl, rfl, rfl, Nat.zero_le 2⟩

theorem listings_exact_emptyRoot :
    ∃ t, run (step rootInode) emptyRoot [.opened 0 rootDentry, .readdir 0, .link 2 devEntry, .readdir 0, .readdir 0]
    = some t ∧
      Exact rootInode t := by
  have hsome : (run (step rootInode) emptyRoot
      [.opened 0 rootDentry, .readdir 0, .link 2 devEntry, .readdir 0, .readdir 0]).isSome = true := by
    decide +kernel
  obtain ⟨t, ht⟩ := Option.isSome_iff_exists.mp hsome
  exact ⟨t, ht, listings_exact fresh_emptyRoot ht⟩

end PikoRT.Fs.Tmpfs

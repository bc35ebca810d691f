import PikoRT.Fs.Vfs
import PikoRT.Libc.HeapRestore

/-! # What a lookup in an image finds

`romfs_lookup` walks the headers of a directory, and stops at the first one whose offset
is not below the size of the image. It reads the size without turning its bytes around,
so that it can stop too early. -/
namespace PikoRT.Fs.RomfsLookup
open PikoRT.Kernel.Bitops PikoRT.Libc PikoRT.Libc.Printf PikoRT.Fs.Romfs PikoRT.Fs.Vfs
open PikoRT.Libc.Malloc (Region mallocs)
open PikoRT.Libc.HeapRun (Inv Modest inv_malloc)

section

variable {rom : Rom} {rs : Word} {l : Layout} {name : List Byte}

/-! ## The walk -/

theorem ntohl_ntohl (w : Word) : ntohl (ntohl w) = w := by
  refine BitVec.eq_of_getLsbD_eq fun i hi => ?_
  unfold ntohl
  simp only [BitVec.getLsbD_append, BitVec.getLsbD_extractLsb']
  grind

theorem align_of_dvd {x : Word} (h : 16 ∣ x.toNat) : align x = x := by
  refine BitVec.eq_of_toNat_eq ?_
  have hnat : (align x).toNat = x.toNat / 16 * 16 := toNat_and_not_lowMask x 4
  rw [hnat]
  exact Nat.div_mul_cancel h

theorem strEq_iff {str : Word} {t : List Byte} (ht : StringAt rom str t) (hn : 0 ∉ name) :
    strEq rom str name = true ↔ t = name := by
  induction t generalizing str name with
  | nil =>
    have hz : rom str = 0 := ht
    cases name with
    | nil => simp [strEq, hz]
    | cons c s =>
      have hc : (0 == c) = false := beq_eq_false_iff_ne.mpr fun h => hn (h ▸ List.mem_cons_self)
      rw [strEq, hz, hc]
      simp
  | cons b t ih =>
    obtain ⟨hb, hb0, ht⟩ := ht
    cases name with
    | nil =>
      rw [strEq, hb, beq_iff_eq]
      exact ⟨fun h => absurd h hb0, fun h => (nomatch h)⟩
    | cons c s =>
      have hs : 0 ∉ s := fun h => hn (List.mem_cons_of_mem c h)
      rw [strEq, Bool.and_eq_true, ih ht hs, beq_iff_eq, hb, List.cons.injEq]

/-- `Seen`, of the headers that are left. -/
def SeenIn (l : Layout) (bound : Word) (hs : List Word) (name : List Byte) : Prop :=
  (∀ h ∈ hs.takeWhile fun h => decide (l.name h ≠ name), h < bound) ∧
    ∀ h ∈ hs.find? fun h => decide (l.name h = name), h < bound

theorem seenIn_cons {bound h : Word} {hs : List Word} :
    SeenIn l bound (h :: hs) name ↔ h < bound ∧ (l.name h ≠ name → SeenIn l bound hs name) := by
  unfold SeenIn
  by_cases hn : l.name h = name
  · simp [hn]
  · simp [hn, and_assoc]

/-- The loop finds the first header with the name if it sees it, and nothing otherwise. -/
theorem lookupFrom_spec {hs : List Word} {next : Word} {fuel : ℕ} (hn : 0 ∉ name)
    (hc : Chain rom rs l next hs) (hne : hs ≠ []) (hf : hs.length ≤ fuel) :
    (SeenIn l (fullSize rom rs) hs name → lookupFrom rom rs name fuel next =
      some ((hs.find? fun h => decide (l.name h = name)).map (romfsInode rs))) ∧
    (¬ SeenIn l (fullSize rom rs) hs name → lookupFrom rom rs name fuel next = some none) := by
  induction hs generalizing next fuel with
  | nil => exact absurd rfl hne
  | cons h hs ih =>
    obtain ⟨rfl, -, -, -, hstr, hc⟩ := hc
    obtain ⟨fuel, rfl⟩ : ∃ n, fuel = n + 1 := ⟨fuel - 1, by rw [List.length_cons] at hf; omega⟩
    rw [List.length_cons] at hf
    rw [seenIn_cons, lookupFrom]
    by_cases hlt : next < fullSize rom rs
    · rw [if_pos hlt]
      by_cases he : l.name next = name
      · have hstr' : strEq rom (fileName (romfsInode rs next)) name = true := (strEq_iff hstr hn).mpr he
        rw [if_pos hstr']
        exact ⟨fun _ => by simp [he], fun h => absurd ⟨hlt, fun hne => absurd he hne⟩ h⟩
      · have hstr' : ¬ strEq rom (fileName (romfsInode rs next)) name = true :=
          fun h => he ((strEq_iff hstr hn).mp h)
        rw [if_neg hstr']
        have hfind : ((next :: hs).find? fun h => decide (l.name h = name)) =
            hs.find? fun h => decide (l.name h = name) := by simp [he]
        rw [hfind]
        cases hs with
        | nil =>
          -- the last header: its link is zero
          have hz : align (ntohl (nextFilehdr rom (romfsInode rs next))) = 0 := hc
          simp [hz]
        | cons h' hs =>
          have hnz : align (ntohl (nextFilehdr rom (romfsInode rs next))) ≠ 0 := hc.1 ▸ hc.2.1
          obtain ⟨hseen, hnot⟩ := ih hc (List.cons_ne_nil _ _) (Nat.le_of_succ_le_succ hf)
          simp only [if_neg hnz]
          exact ⟨fun h => hseen (h.2 he), fun h => hnot fun hs => h ⟨hlt, fun _ => hs⟩⟩
    · rw [if_neg hlt]
      exact ⟨fun h => absurd h.1 hlt, fun _ => rfl⟩

theorem WellFormed.fullSize_eq (hw : WellFormed rom rs l) : fullSize rom rs = ntohl l.size := by
  rw [← hw.fullSize, ntohl_ntohl]

theorem seen_iff (hw : WellFormed rom rs l) (d : Word) :
    Seen l d name ↔ SeenIn l (fullSize rom rs) (l.entries d) name := by
  rw [WellFormed.fullSize_eq hw]
  rfl

/-- `lookup` in a directory of the image. -/
theorem lookup_spec {d : Word} {fuel : ℕ} (hw : WellFormed rom rs l) (hd : IsDir rom rs l d) (hn : 0 ∉ name)
    (hf : (l.entries d).length ≤ fuel) :
    (Seen l d name → lookup rom fuel rs d name = some ((l.find d name).map (romfsInode rs))) ∧
      (¬ Seen l d name → lookup rom fuel rs d name = some none) := by
  have hspec := lookupFrom_spec hn (hw.chain hd) (hw.nonempty hd) hf
  rw [← seen_iff hw d] at hspec
  rw [lookup, align_of_dvd (hw.aligned hd)]
  exact hspec

/-- The mount finds the directory of the first header. -/
theorem strlen_of_stringAt {t : List Byte} {str : Word} {fuel : ℕ} (ht : StringAt rom str t)
    (hf : t.length < fuel) : strlen rom fuel str = some (BitVec.ofNat 32 t.length) := by
  induction t generalizing str fuel with
  | nil =>
    obtain ⟨fuel, rfl⟩ : ∃ n, fuel = n + 1 := ⟨fuel - 1, by omega⟩
    have hz : rom str = 0 := ht
    rw [strlen, if_pos hz]
    rfl
  | cons b t ih =>
    obtain ⟨hb, hb0, ht⟩ := ht
    rw [List.length_cons] at hf
    obtain ⟨fuel, rfl⟩ : ∃ n, fuel = n + 1 := ⟨fuel - 1, by omega⟩
    rw [strlen, if_neg (hb ▸ hb0), ih ht (by omega), Option.map_some, List.length_cons, BitVec.ofNat_add]
    rfl

theorem offsetofFirstDeviceInode_eq (hw : WellFormed rom rs l) {fuel : ℕ} (hf : l.volume.length < fuel) :
    offsetofFirstDeviceInode rom fuel rs = some l.root := by
  rw [offsetofFirstDeviceInode, strlen_of_stringAt hw.volume hf]
  rfl

end

/-! ## The memory for the inodes -/

/-- The requests are all granted. -/
def Grants (s : Malloc.State) (sizes : List Word) : Prop := ∃ fuel q, mallocs fuel sizes s = some q

theorem modest_sizeofInode : Modest sizeofInode := by
  unfold Modest sizeofInode
  decide

section

variable {g : Region} {s t : System} {xs : List Lib.Tiling.Seg}

theorem grants_cons {h : Malloc.State} {size : Word} {sizes : List Word} {n : ℕ} {r : Option ℕ × Malloc.Heap}
    (hr : ∀ fuel ≥ n, Malloc.malloc fuel size h.heap = some r) :
    Grants h (size :: sizes) ↔ ∃ ptr, r.1 = some ptr ∧ Grants ⟨r.2, ⟨ptr, size⟩ :: h.live⟩ sizes := by
  constructor
  · intro hg
    obtain ⟨fuel, q, hq⟩ := hg
    have hq' := HeapRestore.mallocs_mono (Nat.le_max_left fuel n) hq
    rw [mallocs, hr _ (Nat.le_max_right fuel n), Option.bind_some] at hq'
    obtain ⟨ptr, hptr, hq'⟩ := Option.bind_eq_some_iff.mp hq'
    obtain ⟨q', hq', -⟩ := Option.map_eq_some_iff.mp hq'
    exact ⟨ptr, hptr, _, q', hq'⟩
  · intro hg
    obtain ⟨ptr, hptr, fuel, q, hq⟩ := hg
    have hq' := HeapRestore.mallocs_mono (Nat.le_max_left fuel n) hq
    refine ⟨max fuel n, (ptr :: q.1, q.2), ?_⟩
    rw [mallocs, hr _ (Nat.le_max_right fuel n), Option.bind_some, hptr, Option.bind_some, hq', Option.map_some]

/-- `malloc` comes back, with the same result from some fuel on. -/
theorem malloc_returns (hi : Inv g s.heap xs) (size : Word) :
    ∃ r, ∀ fuel ≥ xs.length + 1, Malloc.malloc fuel size s.heap.heap = some r := by
  obtain ⟨r, hr⟩ := Blocks.mallocFrom_some (Malloc.blockSize size) hi.layout (HeapRun.Region.stop_lt g) hi.holds
  exact ⟨r, fun fuel hle => Blocks.mallocFrom_mono hle hr⟩

/-! ## One lookup -/

/-- `dir` is an inode of the directory `d` of the image at `rs`. -/
structure DirectoryAt (s : System) (rs d : Word) (dir : Ptr) : Prop where
  mode : sIsdir (s.inodes dir).iMode = true
  op : (s.inodes dir).iOp = .romfs
  image : (s.superBlocks (s.inodes dir).iSb).rs = rs
  offset : (s.inodes dir).iPrivate = d

/-- The inode has the place, the size and the type of the file at the offset `h`. -/
structure Describes (rom : Rom) (rs h : Word) (i : Inode) : Prop where
  offset : i.iPrivate = h
  size : i.iSize = ntohl (size rom (romfsInode rs h))
  mode : i.iMode = modeOf (fileType rom (romfsInode rs h))

variable {rs d : Word} {l : Layout} {dir : Ptr} {name : List Byte}

/-- `s` with an inode at `addr` for the file at the offset `h`. -/
def withInode (s : System) (dir : Ptr) (rs h : Word) (addr : ℕ) (heap : Malloc.Heap) : System :=
  fillInode addr (romfsInode rs h) (s.inodes dir).iSb (s.setHeap sizeofInode (some addr, heap))

theorem vfsLookup_spec (hi : Inv g s.heap xs) (hw : WellFormed s.rom rs l) (hd : IsDir s.rom rs l d)
    (hdir : DirectoryAt s rs d dir) (hn : 0 ∉ name) :
    ∃ n r q, (∀ fuel ≥ n, Malloc.malloc fuel sizeofInode s.heap.heap = some r) ∧
      (∀ fuel ≥ n, vfsLookup fuel dir name s = some q) ∧
      ((∃ h addr, l.find d name = some h ∧ Seen l d name ∧ r.1 = some addr ∧
          q = (some (.heap addr, .romfs), withInode s dir rs h addr r.2)) ∨
        q.1 = none ∧ (l.find d name = none ∨ ¬ Seen l d name ∨ r.1 = none)) := by
  obtain ⟨r, hr⟩ := malloc_returns hi sizeofInode
  have hr' : ∀ fuel ≥ max (xs.length + 1) (l.entries d).length,
      Malloc.malloc fuel sizeofInode s.heap.heap = some r := fun fuel hle => hr fuel (le_of_max_le_left hle)
  have hstep : ∀ fuel, vfsLookup fuel dir name s = romfsLookup fuel dir name s := by
    intro fuel
    rw [vfsLookup, if_pos hdir.mode, hdir.op]
  have hspec : ∀ fuel ≥ max (xs.length + 1) (l.entries d).length, _ :=
    fun fuel hle => lookup_spec hw hd hn (le_of_max_le_right hle)
  by_cases hs : Seen l d name
  · cases hf : l.find d name with
    | none =>
      refine ⟨_, r, (none, s), hr', fun fuel hle => ?_, .inr ⟨rfl, .inl rfl⟩⟩
      rw [hstep, romfsLookup, hdir.image, hdir.offset, (hspec fuel hle).1 hs, hf]
      rfl
    | some h =>
      have hres : ∀ fuel ≥ max (xs.length + 1) (l.entries d).length, vfsLookup fuel dir name s =
          (allocInode fuel (romfsInode rs h) (s.inodes dir).iSb s).map fun q =>
            (q.1.map fun inode => (inode, .romfs), q.2) := by
        intro fuel hle
        rw [hstep, romfsLookup, hdir.image, hdir.offset, (hspec fuel hle).1 hs, hf]
        rfl
      obtain ⟨p, heap⟩ := r
      cases p with
      | none =>
        refine ⟨_, (none, heap), (none, s.setHeap sizeofInode (none, heap)), hr', fun fuel hle => ?_,
          .inr ⟨rfl, .inr (.inr rfl)⟩⟩
        rw [hres fuel hle, allocInode, System.malloc, hr' fuel hle]
        rfl
      | some addr =>
        refine ⟨_, (some addr, heap), _, hr', fun fuel hle => ?_, .inl ⟨h, addr, rfl, hs, rfl, rfl⟩⟩
        rw [hres fuel hle, allocInode, System.malloc, hr' fuel hle]
        rfl
  · refine ⟨_, r, (none, s), hr', fun fuel hle => ?_, .inr ⟨rfl, .inr (.inl hs)⟩⟩
    rw [hstep, romfsLookup, hdir.image, hdir.offset, (hspec fuel hle).2 hs]
    rfl

theorem withInode_inode (s : System) (dir : Ptr) (rs h : Word) (addr : ℕ) (heap : Malloc.Heap) :
    (withInode s dir rs h addr heap).inodes (.heap addr) =
      deviceInode (romfsInode rs h) (s.inodes dir).iSb s :=
  Function.update_self ..

theorem sIsdir_allocMode (t : FileType) : sIsdir (allocMode t) = decide (t = .dir) := by
  cases t <;> rfl

theorem allocMode_eq_iff (t : FileType) : allocMode t = modeOf t ↔ t ≠ .socket := by
  cases t <;> decide

/-- The inode of a directory that was found. -/
theorem directoryAt_withInode {h : Word} (hdir : DirectoryAt s rs d dir)
    (ht : fileType s.rom (romfsInode rs h) = .dir) (addr : ℕ) (heap : Malloc.Heap) :
    DirectoryAt (withInode s dir rs h addr heap) rs h (.heap addr) := by
  constructor
  · rw [withInode_inode]
    show sIsdir (allocMode (fileType s.rom (romfsInode rs h))) = true
    rw [ht]
    rfl
  · rw [withInode_inode]
    rfl
  · rw [withInode_inode]
    exact hdir.image
  · rw [withInode_inode]
    show romfsInode rs h - (s.superBlocks (s.inodes dir).iSb).rs = h
    rw [hdir.image, romfsInode, add_sub_cancel_left]

/-- The inode is right unless the file is a socket. -/
theorem describes_withInode {h : Word} (hdir : DirectoryAt s rs d dir) (addr : ℕ) (heap : Malloc.Heap) :
    Describes s.rom rs h ((withInode s dir rs h addr heap).inodes (.heap addr)) ↔
      fileType s.rom (romfsInode rs h) ≠ .socket := by
  rw [withInode_inode, ← allocMode_eq_iff]
  refine ⟨fun hd => hd.mode, fun hm => ⟨?_, rfl, hm⟩⟩
  show romfsInode rs h - (s.superBlocks (s.inodes dir).iSb).rs = h
  rw [hdir.image, romfsInode, add_sub_cancel_left]

/-! ## A path -/

/-- What the lookups along a path have to return. -/
def Exact (rom : Rom) (rs : Word) (l : Layout) (d : Word) (names : List CString) (r : Option Ptr × System) : Prop :=
  match resolve rom rs l d names with
  | none => r.1 = none
  | some h => ∃ inode, r.1 = some inode ∧ Describes rom rs h (r.2.inodes inode)

/-- If the image has a file at the path, the lookups see it, there is memory for their
inodes, and the file is not a socket. -/
def Served (heap : Malloc.State) (rom : Rom) (rs : Word) (l : Layout) (d : Word) (names : List CString) : Prop :=
  ∀ h, resolve rom rs l d names = some h →
    AllSeen l d names ∧ Grants heap (List.replicate names.length sizeofInode) ∧
      fileType rom (romfsInode rs h) ≠ .socket

theorem exact_none {rom : Rom} {names : List CString} {t : System} :
    Exact rom rs l d names (none, t) ↔ resolve rom rs l d names = none := by
  unfold Exact
  cases resolve rom rs l d names with
  | none => simp
  | some h => simp

theorem exact_some {rom : Rom} {names : List CString} {h : Word} {inode : Ptr} {t : System}
    (hr : resolve rom rs l d names = some h) :
    Exact rom rs l d names (some inode, t) ↔ Describes rom rs h (t.inodes inode) := by
  simp [Exact, hr]

/-- What fails at the first name leaves nothing to return. -/
theorem exact_none_iff_served {n : CString} {ns : List CString} {k : ℕ} {r : Option ℕ × Malloc.Heap} {t : System}
    (hr : ∀ fuel ≥ k, Malloc.malloc fuel sizeofInode s.heap.heap = some r)
    (hno : l.find d n.text = none ∨ ¬ Seen l d n.text ∨ r.1 = none) :
    Exact s.rom rs l d (n :: ns) (none, t) ↔ Served s.heap s.rom rs l d (n :: ns) := by
  rw [exact_none]
  constructor
  · intro hres h hh
    rw [hres] at hh
    cases hh
  · intro hserved
    rw [Option.eq_none_iff_forall_ne_some]
    intro h hh
    obtain ⟨hseen, hgrants, -⟩ := hserved h hh
    rcases hno with hf | hs | hm
    · cases ns with
      | nil =>
        rw [resolve, hf] at hh
        cases hh
      | cons n' ns =>
        rw [resolve, hf] at hh
        · cases hh
        · exact fun h => (nomatch h)
    · exact hs hseen.1
    · obtain ⟨ptr, hptr, -⟩ := (grants_cons hr).mp hgrants
      rw [hm] at hptr
      cases hptr

/-- The file is found under the last name. -/
theorem exact_last_iff {n : CString} {h : Word} {k addr : ℕ} {r : Option ℕ × Malloc.Heap}
    (hdir : DirectoryAt s rs d dir)
    (hr : ∀ fuel ≥ k, Malloc.malloc fuel sizeofInode s.heap.heap = some r) (hf : l.find d n.text = some h)
    (hs : Seen l d n.text) (hptr : r.1 = some addr) :
    Exact s.rom rs l d [n] (some (.heap addr), withInode s dir rs h addr r.2) ↔ Served s.heap s.rom rs l d [n] := by
  have hres : resolve s.rom rs l d [n] = some h := hf
  rw [exact_some hres, describes_withInode hdir]
  unfold Served
  rw [hres]
  constructor
  · intro ht e he
    obtain rfl : h = e := Option.some.inj he
    refine ⟨⟨hs, fun _ _ => trivial⟩, ?_, ht⟩
    exact (grants_cons hr).mpr ⟨addr, hptr, 0, ([], _), rfl⟩
  · exact fun hall => (hall h rfl).2.2

/-- The rest of a path, after the directory `h` was found under the first name. -/
theorem served_cons_iff {n n' : CString} {ns : List CString} {h : Word} {k addr : ℕ}
    {r : Option ℕ × Malloc.Heap} (hr : ∀ fuel ≥ k, Malloc.malloc fuel sizeofInode s.heap.heap = some r)
    (hf : l.find d n.text = some h) (hs : Seen l d n.text) (hptr : r.1 = some addr)
    (hres : resolve s.rom rs l d (n :: n' :: ns) = resolve s.rom rs l h (n' :: ns)) :
    Served s.heap s.rom rs l d (n :: n' :: ns) ↔
      Served ⟨r.2, ⟨addr, sizeofInode⟩ :: s.heap.live⟩ s.rom rs l h (n' :: ns) := by
  unfold Served
  rw [hres]
  refine forall₂_congr fun e he => ?_
  have hseen : AllSeen l d (n :: n' :: ns) ↔ AllSeen l h (n' :: ns) := by
    rw [AllSeen, hf]
    simp [hs]
  have hgrants : Grants s.heap (List.replicate (n :: n' :: ns).length sizeofInode) ↔
      Grants ⟨r.2, ⟨addr, sizeofInode⟩ :: s.heap.live⟩ (List.replicate (n' :: ns).length sizeofInode) := by
    rw [List.length_cons, List.replicate_succ, grants_cons hr, hptr]
    simp
  rw [hseen, hgrants]

/-- **Lookups along a path of an image** come back, and they reach exactly the file that
the image has at the path, with the inode of the first entry of each name, if and only
if the path is served. -/
theorem lookups_exact_iff {g : Region} {xs : List Lib.Tiling.Seg} (s : System) (hi : Inv g s.heap xs) {rs d : Word}
    {l : Layout} {dir : Ptr} (hw : WellFormed s.rom rs l) (hd : IsDir s.rom rs l d)
    (hdir : DirectoryAt s rs d dir) (names : List CString) (hne : names ≠ []) :
    ∃ n r, (∀ fuel ≥ n, lookupPath fuel (names.map CString.text) dir s = some r) ∧
      (Exact s.rom rs l d names r ↔ Served s.heap s.rom rs l d names) := by
  induction names generalizing s xs d dir with
  | nil => exact absurd rfl hne
  | cons n ns ih =>
    obtain ⟨k, r, q, hr, hq, hcase⟩ := vfsLookup_spec hi hw hd hdir n.noNul
    have hstep : ∀ fuel ≥ k, lookupPath fuel ((n :: ns).map CString.text) dir s =
        q.1.elim (some (none, q.2)) fun found => lookupPath fuel (ns.map CString.text) found.1 q.2 := by
      intro fuel hle
      rw [List.map_cons, lookupPath, hq fuel hle, Option.bind_some]
      cases q.1 with
      | none => rfl
      | some found => rfl
    rcases hcase with ⟨h, addr, hf, hs, hptr, rfl⟩ | ⟨hnone, hno⟩
    · cases ns with
      | nil =>
        exact ⟨k, (some (.heap addr), withInode s dir rs h addr r.2), hstep, exact_last_iff hdir hr hf hs hptr⟩
      | cons n' ns =>
        have hres : resolve s.rom rs l d (n :: n' :: ns) =
            if fileType s.rom (romfsInode rs h) = .dir then resolve s.rom rs l h (n' :: ns) else none := by
          rw [resolve, hf, Option.bind_some]
          exact fun h => (nomatch h)
        by_cases ht : fileType s.rom (romfsInode rs h) = .dir
        · rw [if_pos ht] at hres
          rcases inv_malloc hi modest_sizeofInode (hr k le_rfl) with ⟨w, ys, -, hw', hinv, -⟩ | ⟨-, hno⟩
          · obtain rfl : addr = HeapRun.payload w := Option.some.inj (hptr.symm.trans hw')
            have hentry : IsDir s.rom rs l h := .entry hd (List.mem_of_find?_eq_some hf) ht
            obtain ⟨k', r', hpath, hiff⟩ := ih (withInode s dir rs h (HeapRun.payload w) r.2) hinv hw hentry
              (directoryAt_withInode hdir ht _ _) (List.cons_ne_nil _ _)
            refine ⟨max k k', r', fun fuel hle => ?_, ?_⟩
            · rw [hstep fuel (le_of_max_le_left hle)]
              exact hpath fuel (le_of_max_le_right hle)
            · rw [served_cons_iff hr hf hs hptr hres]
              unfold Exact
              rw [hres]
              exact hiff
          · rw [hno] at hptr
            cases hptr
        · -- the next lookup is in something that is no directory
          rw [if_neg ht] at hres
          refine ⟨k, (none, withInode s dir rs h addr r.2), fun fuel hle => ?_, ?_⟩
          · rw [hstep fuel hle]
            have hmode : sIsdir ((withInode s dir rs h addr r.2).inodes (.heap addr)).iMode = false := by
              rw [withInode_inode]
              exact (sIsdir_allocMode _).trans (decide_eq_false ht)
            simp [lookupPath, vfsLookup, hmode]
          · rw [exact_none]
            unfold Served
            rw [hres]
            simp
    · refine ⟨k, (none, q.2), fun fuel hle => ?_, exact_none_iff_served hr hno⟩
      rw [hstep fuel hle, hnone]
      rfl

end

/-! ## An image of 64 KiB -/

/-- A string of the source text, up to a NUL in it. -/
def text (s : String) : CString where
  text := (s.toList.map ch).takeWhile fun c => decide (c ≠ 0)
  noNul h := by simpa using List.mem_takeWhile_imp h

/-- A big-endian word. -/
def be32 (w : Word) : List Byte :=
  [w.extractLsb' 24 8, w.extractLsb' 16 8, w.extractLsb' 8 8, w.extractLsb' 0 8]

/-- A string with its padding to 16 bytes. -/
def padded (s : CString) : List Byte := s.text ++ List.replicate (16 - s.strlen) 0

def header (next spec size : Word) (name : CString) : List Byte :=
  be32 next ++ be32 spec ++ be32 size ++ be32 0 ++ padded name

/-- The directory `.` at the offset `0x20`, and a file at the offset `0x100`. -/
def farBytes : List Byte :=
  (text "-rom1fs-").text ++ be32 0x10000 ++ be32 0 ++ padded (text "rom") ++
    header 0x101 0x20 0 (text ".") ++ List.replicate 192 0 ++ header 2 0 5 (text "far")

/-- Where the flash is. -/
def flash : Word := 0x08000000

def farRom : Rom := fun addr => farBytes.getD (addr - flash).toNat 0

def farLayout : Layout where
  size := 0x10000
  volume := (text "rom").text
  entries d := if d = 0x20 then [0x20, 0x100] else []
  name h := if h = 0x20 then (text ".").text else (text "far").text

theorem farLayout_root : farLayout.root = 0x20 := by decide

theorem isDir_farRoot : IsDir farRom flash farLayout 0x20 := farLayout_root ▸ .root

theorem isDir_farLayout {d : Word} (hd : IsDir farRom flash farLayout d) : d = 0x20 := by
  induction hd with
  | root => exact farLayout_root
  | entry hd hh ht ih =>
    subst ih
    rcases List.mem_cons.mp hh with rfl | hh
    · rfl
    · obtain rfl := List.mem_singleton.mp hh
      exact absurd ht (by decide +kernel)

theorem farRom_wellFormed : WellFormed farRom flash farLayout where
  small := by decide
  fits := by decide
  fullSize := by decide +kernel
  volume := by decide +kernel
  volumeInside := by decide
  rootInside := by decide
  aligned hd := by
    rw [isDir_farLayout hd]
    decide +kernel
  nonempty hd := by
    rw [isDir_farLayout hd]
    decide
  chain hd := by
    rw [isDir_farLayout hd]
    decide +kernel

/-- The root of the image is mounted, with a heap of 64 bytes. -/
def farSystem : System where
  heap := Malloc.init HeapRun.smallRegion HeapRun.zeroed
  inodes _ := ⟨sIfdir, 9000, 0, .romfs, none, 0, 0x20⟩
  dentries _ := ⟨0, rootInode, .tmpfs, rootDentry, []⟩
  superBlocks _ := ⟨flash, 0x10000, .static 3⟩
  dirlists _ := []
  rom := farRom
  ino := 0xbeef
  errno := none
  filemap := 0
  filetable _ := ⟨none, none, 0, 0⟩

theorem directoryAt_farSystem : DirectoryAt farSystem flash 0x20 (.static 3) := ⟨rfl, rfl, rfl, rfl⟩

theorem lookups_exact_dot :
    ∃ n r, (∀ fuel ≥ n, lookupPath fuel [(text ".").text] (.static 3) farSystem = some r) ∧
      Exact farRom flash farLayout 0x20 [text "."] r := by
  obtain ⟨n, r, hr, hiff⟩ := lookups_exact_iff farSystem (HeapRun.inv_init HeapRun.smallRegion HeapRun.zeroed)
    farRom_wellFormed isDir_farRoot directoryAt_farSystem [text "."] (List.cons_ne_nil _ _)
  have hres : resolve farRom flash farLayout 0x20 [text "."] = some 0x20 := by decide +kernel
  refine ⟨n, r, hr, hiff.mpr fun h hh => ?_⟩
  obtain rfl : 0x20 = h := Option.some.inj (hres.symm.trans hh)
  refine ⟨⟨⟨fun e he => ?_, fun e he => ?_⟩, fun _ _ => trivial⟩, ⟨2, ?_⟩, ?_⟩
  · have hempty : (farLayout.entries 0x20).takeWhile (fun h => decide (farLayout.name h ≠ (text ".").text)) = [] := by
      decide +kernel
    rw [hempty] at he
    cases he
  · obtain rfl : 0x20 = e := Option.some.inj (hres.symm.trans he)
    decide
  · exact Option.isSome_iff_exists.mp (by decide +kernel)
  · decide +kernel

/-- The size of the image with its bytes reversed is `0x100`, and the walk stops there. -/
theorem far_entry_not_found :
    WellFormed farRom flash farLayout ∧ IsDir farRom flash farLayout 0x20 ∧
      DirectoryAt farSystem flash 0x20 (.static 3) ∧ Grants farSystem.heap [sizeofInode] ∧
      resolve farRom flash farLayout 0x20 [text "far"] = some 0x100 ∧
      ∃ r, lookupPath 5 [(text "far").text] (.static 3) farSystem = some r ∧ r.1 = none ∧
        ¬ Exact farRom flash farLayout 0x20 [text "far"] r := by
  have hres : resolve farRom flash farLayout 0x20 [text "far"] = some 0x100 := by decide +kernel
  have hnone : (lookupPath 5 [(text "far").text] (.static 3) farSystem).map Prod.fst = some none := by
    decide +kernel
  obtain ⟨r, hr, hr1⟩ := Option.map_eq_some_iff.mp hnone
  refine ⟨farRom_wellFormed, isDir_farRoot, directoryAt_farSystem, ⟨2, ?_⟩, hres, r, hr, hr1, ?_⟩
  · exact Option.isSome_iff_exists.mp (by decide +kernel)
  · unfold Exact
    rw [hres]
    intro hex
    obtain ⟨inode, hinode, -⟩ := hex
    rw [hr1] at hinode
    cases hinode

end PikoRT.Fs.RomfsLookup

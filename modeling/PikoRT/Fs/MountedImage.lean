import PikoRT.Fs.Mount
import PikoRT.Fs.Serving

/-! # From the mount of an image to its files

Where there is memory for it, `romfs_mount` makes the image on its device available under the name of the
target, and what a task reads below that name are the files of the image. -/
namespace PikoRT.Fs.MountedImage
open PikoRT.Lib.Run PikoRT.Lib.Cursors PikoRT.Kernel.Bitops PikoRT.Libc PikoRT.Libc.Printf
open PikoRT.Fs.Romfs PikoRT.Fs.RomfsLookup PikoRT.Fs.Vfs PikoRT.Fs.Open PikoRT.Fs.Drivers
open PikoRT.Fs.Dentries PikoRT.Fs.OpenWalk PikoRT.Fs.Serving
open PikoRT.Fs.OpenClose (path longRegion)
open PikoRT.Fs.SilentWalk (target)
open PikoRT.Libc.Malloc (Region Allocation)
open PikoRT.Libc.HeapLedger (Holding)

/-! ## A mount -/

/-- `t` is `s` with a new inode that is linked under a name, and a new super block. -/
structure Gains (s t : System) (key : Word) (sb : ℕ) (entry : Dirlist) : Prop where
  alive : ∀ p, Alive s.heap p → Alive t.heap p
  inodes : ∀ p, Alive s.heap p → (t.inodes p).iMode = (s.inodes p).iMode ∧ (t.inodes p).iOp = (s.inodes p).iOp ∧
    (t.inodes p).iSb = (s.inodes p).iSb ∧ (t.inodes p).iPrivate = (s.inodes p).iPrivate
  superBlocks : ∀ k, k ≠ sb → t.superBlocks k = s.superBlocks k
  dirlists : t.dirlists = Function.update s.dirlists key (s.dirlists key ++ [entry])
  aliveNew : Alive t.heap entry.inode
  root : (t.superBlocks sb).sIroot = entry.inode
  newSb : (t.inodes entry.inode).iSb = sb

section

variable {g : Region} {xs : List Lib.Tiling.Seg} {s t : System} {key : Word} {sb : ℕ} {entry : Dirlist} {p dir : Ptr}
  {name : List Byte} {names : List (List Byte)}

theorem Gains.inTree (h : Gains s t key sb entry) (hp : InTree s p) : InTree t p := by
  obtain ⟨-, hop, hsb, -⟩ := h.inodes p hp.alive
  refine ⟨h.alive p hp.alive, fun ho => ?_⟩
  rw [hsb]
  by_cases hk : (s.inodes p).iSb = sb
  · rw [hk, h.root]
    exact h.aliveNew
  · rw [h.superBlocks _ hk]
    exact h.alive _ (hp.root (hop ▸ ho))

theorem Gains.mem {e : Dirlist} {k : Word} (h : Gains s t key sb entry) (he : e ∈ t.dirlists k) :
    e ∈ s.dirlists k ∨ e = entry := by
  rw [h.dirlists] at he
  by_cases hk : k = key
  · subst hk
    rw [Function.update_self] at he
    exact (List.mem_append.mp he).imp_right List.mem_singleton.mp
  · rw [Function.update_of_ne hk] at he
    exact .inl he

theorem Gains.tree (h : Gains s t key sb entry) (hs : Tree s) : Tree t := by
  refine ⟨h.inTree hs.root, fun k e he => ?_⟩
  rcases h.mem he with he | rfl
  · exact h.inTree (hs.entries k e he)
  · refine ⟨h.aliveNew, fun _ => ?_⟩
    rw [h.newSb, h.root]
    exact h.aliveNew

/-- What was found is found, since the new entry is the last one. -/
theorem Gains.found {f : Ptr × DentryOperations} (h : Gains s t key sb entry) (hdir : Alive s.heap dir)
    (hf : SilentWalk.found dir name s = some f) : SilentWalk.found dir name t = some f := by
  obtain ⟨hmode, hop, -, hpriv⟩ := h.inodes dir hdir
  obtain ⟨hd, hf⟩ := Option.ite_none_right_eq_some.mp hf
  obtain ⟨e, he, rfl⟩ := Option.map_eq_some_iff.mp hf
  unfold SilentWalk.found tmpfsLookup
  rw [hmode, hop, if_pos hd, hpriv, h.dirlists]
  by_cases hk : (s.inodes dir).iPrivate = key
  · rw [hk] at he ⊢
    rw [Function.update_self, List.find?_append, he]
    rfl
  · rw [Function.update_of_ne hk, he]
    rfl

theorem Gains.target (h : Gains s t key sb entry) (hs : Tree s) (hdir : InTree s dir)
    (hp : SilentWalk.target names dir s = some p) : SilentWalk.target names dir t = some p := by
  induction names generalizing dir with
  | nil => exact hp
  | cons n ns ih =>
    obtain ⟨f, hf, hp⟩ := Option.bind_eq_some_iff.mp hp
    rw [SilentWalk.target, h.found hdir.alive hf, Option.bind_some]
    exact ih (InTree.found hs hf) hp

theorem target_concat (hp : SilentWalk.target names dir s = some p) :
    SilentWalk.target (names ++ [name]) dir s = (SilentWalk.found p name s).map Prod.fst := by
  induction names generalizing dir with
  | nil =>
    obtain rfl := Option.some.inj hp
    rw [List.nil_append, SilentWalk.target, Option.map_eq_bind]
    rfl
  | cons n ns ih =>
    obtain ⟨f, hf, hp⟩ := Option.bind_eq_some_iff.mp hp
    rw [List.cons_append, SilentWalk.target, hf]
    exact ih hp

/-- The last entry is found under its name, if no other has it. -/
theorem found_last (hd : sIsdir (t.inodes dir).iMode = true ∧ (t.inodes dir).iOp = .tmpfs)
    (h : t.dirlists (t.inodes dir).iPrivate = s.dirlists key ++ [entry])
    (hfresh : ∀ e ∈ s.dirlists key, e.name.text ≠ entry.name.text) :
    SilentWalk.found dir entry.name.text t = some (entry.inode, .tmpfs) := by
  unfold SilentWalk.found tmpfsLookup
  rw [if_pos hd, h, List.find?_append, List.find?_eq_none.mpr fun e he => by simpa using hfresh e he]
  simp

/-- A request that is granted. -/
theorem malloc_granted {size : Word} {sizes : List Word} (hi : HeapRun.Inv g s.heap xs) (hm : HeapRun.Modest size)
    (hg : Grants s.heap (size :: sizes)) :
    ∃ n a k, (∀ fuel ≥ n, s.malloc fuel size = some (some a, s.setHeap size (some a, k))) ∧
      a ∉ s.heap.live.map Allocation.ptr ∧ (∃ ys, HeapRun.Inv g ⟨k, ⟨a, size⟩ :: s.heap.live⟩ ys) ∧
      Grants ⟨k, ⟨a, size⟩ :: s.heap.live⟩ sizes := by
  obtain ⟨⟨o, k⟩, hr⟩ := malloc_returns hi size
  obtain ⟨a, ha, hg⟩ := (grants_cons hr).mp hg
  obtain rfl : o = some a := ha
  obtain ⟨hh, hfresh⟩ := (Holding.refl hi).malloc hm (hr _ le_rfl)
  obtain ⟨-, ys, -, hinv, -⟩ := hh.blocks
  exact ⟨_, a, k, fun fuel hle => by rw [System.malloc, hr fuel hle]; rfl, hfresh, ⟨ys, hinv⟩, hg⟩

end

/-- The source is the device with the image, the directory of the mount is at the path `dev`, and has no entry of
the name of the target. -/
structure Mountable (mtd : Word → MtdInfo) (source dest : Pathname) (dev : List (List Byte)) (rs : Word) (l : Layout)
    (s : System) : Prop where
  tree : Tree s
  source : ∃ p, SilentWalk.Silent (pathNames source.next) rootInode s ∧ target (pathNames source.next) rootInode s =
    some p ∧
    (mtd (s.inodes p).iPrivate).priv = rs ∧ l.size ≤ (mtd (s.inodes p).iPrivate).size
  wellFormed : WellFormed s.rom rs l
  devAt : target dev rootInode s = some Mount.devInode
  devDir : sIsdir (s.inodes Mount.devInode).iMode = true ∧ (s.inodes Mount.devInode).iOp = .tmpfs
  short : (Mount.basename dest.toCString).strlen < NAME_MAX
  fresh : ∀ e ∈ s.dirlists (s.inodes Mount.devInode).iPrivate, e.name.text ≠ (Mount.basename dest.toCString).text
  memory : Grants s.heap [sizeofInode, Tmpfs.sizeofDirlist, Mount.sizeofSuperBlock]

section

variable {g : Region} {xs : List Lib.Tiling.Seg} {s : System} {mtd : Word → MtdInfo} {source dest : Pathname}
  {dev : List (List Byte)} {rs : Word} {l : Layout}

/-- `s` with the new inode. -/
def inodeMade (ino : Word) (addr : ℕ) (k : Malloc.Heap) (s : System) : System :=
  (s.setHeap sizeofInode (some addr, k)).setInode (.heap addr) (Mount.mountInode ino (s.inodes (.heap addr)))

/-- And linked into `/dev`. -/
def linked (ino : Word) (addr b : ℕ) (k k' : Malloc.Heap) (entry : Dirlist) (s : System) : System :=
  Tmpfs.addEntry Mount.devInode entry ((inodeMade ino addr k s).setHeap Tmpfs.sizeofDirlist (some b, k'))

/-- And with the super block. -/
def superMade (addr sb : ℕ) (k : Malloc.Heap) (m : MtdInfo) (offset : Word) (s : System) : System :=
  { s.setHeap Mount.sizeofSuperBlock (some sb, k) with
    superBlocks := Function.update s.superBlocks sb ⟨m.priv, m.size, .heap addr⟩ }.setInode
      (.heap addr) { s.inodes (.heap addr) with iSb := sb, iPrivate := offset }

theorem alive_ne {a : ℕ} {p : Ptr} (hfresh : a ∉ s.heap.live.map Allocation.ptr) (hp : Alive s.heap p) :
    p ≠ .heap a := by
  rintro rfl
  exact hfresh hp

theorem devInode_ne (a : ℕ) : Mount.devInode ≠ .heap a := by
  unfold Mount.devInode
  exact fun h => (nomatch h)

theorem inodes_setInode_self (p : Ptr) (i : Inode) (s : System) : (s.setInode p i).inodes p = i :=
  Function.update_self ..

theorem inodes_setInode_of_ne {p q : Ptr} (h : q ≠ p) (i : Inode) (s : System) :
    (s.setInode p i).inodes q = s.inodes q :=
  Function.update_of_ne h ..

theorem inodeMade_dev (ino : Word) (addr : ℕ) (k : Malloc.Heap) (s : System) :
    (inodeMade ino addr k s).inodes Mount.devInode = s.inodes Mount.devInode :=
  inodes_setInode_of_ne (devInode_ne addr) ..

theorem linked_inodes {ino : Word} {addr b : ℕ} {k k' : Malloc.Heap} {entry : Dirlist} {p : Ptr}
    (hp : p ≠ .heap addr) :
    ∃ n, (linked ino addr b k k' entry s).inodes p = { s.inodes p with iSize := n } := by
  by_cases hd : p = Mount.devInode
  · subst hd
    have hnew : (linked ino addr b k k' entry s).inodes Mount.devInode =
        { (inodeMade ino addr k s).inodes Mount.devInode with
          iSize := ((inodeMade ino addr k s).inodes Mount.devInode).iSize + 1 } := Tmpfs.inode_addEntry
    rw [inodeMade_dev] at hnew
    exact ⟨_, hnew⟩
  · have hkept : (linked ino addr b k k' entry s).inodes p = (inodeMade ino addr k s).inodes p :=
      Mount.inodes_addEntry_of_ne hd
    exact ⟨(s.inodes p).iSize, hkept.trans (inodes_setInode_of_ne hp ..)⟩

theorem linked_new {ino : Word} {addr b : ℕ} {k k' : Malloc.Heap} {entry : Dirlist} :
    (linked ino addr b k k' entry s).inodes (.heap addr) = Mount.mountInode ino (s.inodes (.heap addr)) := by
  have hkept : (linked ino addr b k k' entry s).inodes (.heap addr) = (inodeMade ino addr k s).inodes (.heap addr) :=
    Mount.inodes_addEntry_of_ne (devInode_ne addr).symm
  exact hkept.trans (inodes_setInode_self ..)

theorem gains_mount {ino : Word} {addr b sb : ℕ} {k k' k'' : Malloc.Heap} {m : MtdInfo} {offset : Word}
    {entry : Dirlist}
    (hfresh : addr ∉ s.heap.live.map Allocation.ptr) (hentry : entry.inode = .heap addr) :
    Gains s (superMade addr sb k'' m offset (linked ino addr b k k' entry s)) (s.inodes Mount.devInode).iPrivate sb
    entry where
  alive p hp := by
    cases p with
    | static n => trivial
    | heap a => exact List.mem_cons_of_mem _ (List.mem_cons_of_mem _ (List.mem_cons_of_mem _ hp))
  inodes p hp := by
    have hne := alive_ne hfresh hp
    obtain ⟨n, hn⟩ : ∃ n, (linked ino addr b k k' entry s).inodes p = { s.inodes p with iSize := n } :=
      linked_inodes hne
    have hsame : (superMade addr sb k'' m offset (linked ino addr b k k' entry s)).inodes p =
      { s.inodes p with iSize := n } :=
      (Function.update_of_ne hne ..).trans hn
    rw [hsame]
    exact ⟨rfl, rfl, rfl, rfl⟩
  superBlocks j hj := Function.update_of_ne hj ..
  dirlists := by
    have hdev : ((inodeMade ino addr k s).setHeap Tmpfs.sizeofDirlist (some b, k')).inodes Mount.devInode =
        s.inodes Mount.devInode := inodeMade_dev ino addr k s
    show Function.update s.dirlists _ (Tmpfs.entries Mount.devInode _ ++ [entry]) = _
    rw [Tmpfs.entries, hdev]
    rfl
  aliveNew := by
    rw [hentry]
    exact List.mem_cons_of_mem _ (List.mem_cons_of_mem _ List.mem_cons_self)
  root := by
    have hsb : (superMade addr sb k'' m offset (linked ino addr b k k' entry s)).superBlocks sb =
        ⟨m.priv, m.size, .heap addr⟩ := Function.update_self ..
    rw [hsb, hentry]
  newSb := by
    have hroot : (superMade addr sb k'' m offset (linked ino addr b k k' entry s)).inodes (.heap addr) =
        { (linked ino addr b k k' entry s).inodes (.heap addr) with iSb := sb, iPrivate := offset } :=
        Function.update_self ..
    rw [hentry, hroot]

/-- The mount, when there is memory. -/
theorem romfsMount_eq (hm : Mountable mtd source dest dev rs l s) (hi : HeapRun.Inv g s.heap xs) (ino : Word) :
    ∃ n addr b sb k k' k'' size, addr ∉ s.heap.live.map Allocation.ptr ∧ l.size ≤ size ∧
      let t := superMade addr sb k'' ⟨size, rs⟩ l.root
        (linked ino addr b k k' ⟨.heap addr, Mount.basename dest.toCString, hm.short⟩ s)
      (∀ fuel ≥ n, Mount.romfsMount mtd ino fuel source dest s = some (0, some (.heap addr), t)) ∧
        ∃ ys, HeapRun.Inv g t.heap ys := by
  obtain ⟨p, hsilent, hp, hpriv, hsize⟩ := hm.source
  obtain ⟨n₀, hwalk⟩ := SilentWalk.silent_lookupPath hsilent
  obtain ⟨n₁, addr, k, h₁, hfresh, ⟨ys, hi₁⟩, hg⟩ := malloc_granted hi Dentries.modest_sizeofInode hm.memory
  let s₁ := inodeMade ino addr k s
  obtain ⟨n₂, b, k', h₂, -, ⟨zs, hi₂⟩, hg⟩ := malloc_granted (s := s₁) hi₁ Tmpfs.modest_sizeofDirlist hg
  let entry : Dirlist := ⟨.heap addr, Mount.basename dest.toCString, hm.short⟩
  have hmodest : HeapRun.Modest Mount.sizeofSuperBlock := by
    unfold HeapRun.Modest Mount.sizeofSuperBlock
    decide
  obtain ⟨n₃, sb, k'', h₃, -, hi₃, -⟩ := malloc_granted (s := linked ino addr b k k' entry s) hi₂ hmodest hg
  refine ⟨max (max n₀ n₁) (max (max n₂ n₃) (l.volume.length + 1)), addr, b, sb, k, k', k'', _, hfresh, hsize,
    fun fuel hle => ?_, hi₃⟩
  have halive : p ≠ .heap addr := alive_ne hfresh (InTree.target hm.tree hm.tree.root hp).alive
  obtain ⟨sz, hinode⟩ : ∃ sz, (linked ino addr b k k' entry s).inodes p = { s.inodes p with iSize := sz } :=
    linked_inodes halive
  have hoffset : offsetofFirstDeviceInode s.rom fuel rs = some l.root :=
    offsetofFirstDeviceInode_eq hm.wellFormed (by omega)
  have hlink : Mount.vfsLink fuel Mount.devInode entry s₁ = some (0, linked ino addr b k k' entry s) := by
    have hdev : s₁.inodes Mount.devInode = s.inodes Mount.devInode := inodeMade_dev ..
    rw [Mount.vfsLink, hdev, hm.devDir.2]
    show Tmpfs.tmpfsLink fuel Mount.devInode entry s₁ = _
    rw [Tmpfs.tmpfsLink, h₂ fuel (by omega)]
    rfl
  have hmtd : mtd ((linked ino addr b k k' entry s).inodes p).iPrivate = ⟨(mtd (s.inodes p).iPrivate).size, rs⟩ := by
    rw [hinode, ← hpriv]
  rw [Mount.romfsMount, SysStat.inodeFromPathname, hwalk fuel (by omega), hp, Option.bind_some]
  dsimp only
  rw [h₁ fuel (by omega), Option.bind_some]
  dsimp only
  rw [Mount.mountAt, dif_pos hm.short]
  rw [show (s.setHeap sizeofInode (some addr, k)).setInode (.heap addr)
    (Mount.mountInode ino ((s.setHeap sizeofInode (some addr, k)).inodes (.heap addr))) = s₁ from rfl, hlink,
      Option.bind_some]
  dsimp only
  rw [hmtd, Mount.mountSuper, h₃ fuel (by omega), Option.bind_some]
  dsimp only
  rw [show ((linked ino addr b k k' entry s).setHeap Mount.sizeofSuperBlock (some sb, k'')).rom = s.rom from rfl,
    hoffset]
  rfl

/-- **A mount makes the image available** under the name of the target. -/
theorem mountedAt_of_mount (hm : Mountable mtd source dest dev rs l s) (hi : HeapRun.Inv g s.heap xs) (ino : Word) :
    ∃ n root t, (∀ fuel ≥ n, Mount.romfsMount mtd ino fuel source dest s = some (0, some root, t)) ∧
      MountedAt (dev ++ [(Mount.basename dest.toCString).text]) rs l t ∧ (∃ ys, HeapRun.Inv g t.heap ys) ∧
      t.filemap = s.filemap ∧ t.rom = s.rom := by
  obtain ⟨n, addr, b, sb, k, k', k'', size, hfresh, hsize, hmount, hinv⟩ := romfsMount_eq hm hi ino
  let entry : Dirlist := ⟨.heap addr, Mount.basename dest.toCString, hm.short⟩
  let u := linked ino addr b k k' entry s
  let t := superMade addr sb k'' ⟨size, rs⟩ l.root u
  have hgains : Gains s t (s.inodes Mount.devInode).iPrivate sb entry := gains_mount hfresh rfl
  have hdev := hgains.target hm.tree hm.tree.root hm.devAt
  obtain ⟨hmode, hop, -, hpriv⟩ := hgains.inodes Mount.devInode trivial
  have hfound : SilentWalk.found Mount.devInode (Mount.basename dest.toCString).text t =
      some (.heap addr, .tmpfs) := by
    have hlist : t.dirlists (t.inodes Mount.devInode).iPrivate =
        s.dirlists (s.inodes Mount.devInode).iPrivate ++ [entry] := by
      rw [hpriv, hgains.dirlists, Function.update_self]
    exact found_last ⟨hmode.symm ▸ hm.devDir.1, hop.trans hm.devDir.2⟩ hlist hm.fresh
  have hroot : t.inodes (.heap addr) = { u.inodes (.heap addr) with iSb := sb, iPrivate := l.root } :=
    Function.update_self ..
  have hsb : t.superBlocks sb = ⟨rs, size, .heap addr⟩ := Function.update_self ..
  have hnew : u.inodes (.heap addr) = Mount.mountInode ino (s.inodes (.heap addr)) := linked_new
  refine ⟨n, .heap addr, t, hmount, ⟨hgains.tree hm.tree, hm.wellFormed, .heap addr, ?_, ?_, ?_⟩, hinv, rfl, rfl⟩
  · rw [target_concat hdev, hfound]
    rfl
  · constructor
    · rw [hroot, hnew]
      show sIsdir sIfdir = true
      decide
    · rw [hroot, hnew]
      rfl
    · rw [hroot, hsb]
    · rw [hroot]
  · rw [hroot, hsb]
    exact hsize

end

/-- **An image that is mounted is served.** Where there is memory for a mount, it succeeds; and whatever a task
opens, reads and closes afterwards, with opens that fail among it, is what a table of cursors on the files of the
image shows below the name of the target, each handle the least that is free and each read as far as the file goes. -/
theorem mounted_image_served (dev : Devices) {g : Region} {xs : List Lib.Tiling.Seg} {s : System}
    {mtd : Word → MtdInfo}
    {source dest : Pathname} {devPath : List (List Byte)} {rs : Word} {l : Layout} (hi : HeapRun.Inv g s.heap xs)
    (hm : Mountable mtd source dest devPath rs l s) (ino : Word) :
    ∃ n root t, (∀ fuel ≥ n, Mount.romfsMount mtd ino fuel source dest s = some (0, some root, t)) ∧
      ∀ (as : List Act) (x : Session), (∀ a ∈ as, a.Fits) → run (step dev) ⟨⟨t, []⟩, []⟩ as = some x →
        ∃ T, run (serve inReach (files s.rom rs l (devPath ++ [(Mount.basename dest.toCString).text]))) (inUse s)
        x.events =
            some T ∧
          (∀ fd < 32, (T fd).isSome = x.sys.filemap.getLsbD fd) ∧
          ∀ fd bs p, T fd = some (.file bs p) → gathered fd x.events = bs.take p := by
  obtain ⟨n, root, t, hmount, hat, ⟨ys, hinv⟩, hmap, hrom⟩ := mountedAt_of_mount hm hi ino
  refine ⟨n, root, t, hmount, fun as x hfits hr => ?_⟩
  obtain ⟨T, hT, hbits, -⟩ := (run_serves (serves_init hinv hat) hfits hr).table
  have huse : inUse t = inUse s := by
    unfold inUse
    rw [hmap]
  rw [huse, hrom] at hT
  refine ⟨T, hT, hbits, fun fd bs p hp => run_gathered (fun k items position h => ?_) hT hp⟩
  unfold inUse at h
  split at h <;> cases h

/-! ## An image with one file -/

/-- The directory `.` at the offset `0x20`, and the file `a` at the offset `0x40` with its data behind it. -/
def helloBytes : List Byte :=
  (text "-rom1fs-").text ++ be32 0x80 ++ be32 0 ++ padded (text "rom") ++
    header 0x41 0x20 0 (text ".") ++ header 2 0 5 (text "a") ++ (text "hello").text

def helloRom : Rom := fun addr => helloBytes.getD (addr - flash).toNat 0

def helloLayout : Layout where
  size := 0x80
  volume := (text "rom").text
  entries d := if d = 0x20 then [0x20, 0x40] else []
  name h := if h = 0x20 then (text ".").text else (text "a").text

theorem helloLayout_root : helloLayout.root = 0x20 := by decide

theorem isDir_helloLayout {d : Word} (hd : IsDir helloRom flash helloLayout d) : d = 0x20 := by
  induction hd with
  | root => exact helloLayout_root
  | entry hd hh ht ih =>
    subst ih
    rcases List.mem_cons.mp hh with rfl | hh
    · rfl
    · obtain rfl := List.mem_singleton.mp hh
      exact absurd ht (by decide +kernel)

theorem helloRom_wellFormed : WellFormed helloRom flash helloLayout where
  small := by decide
  fits := by decide
  fullSize := by decide +kernel
  volume := by decide +kernel
  volumeInside := by decide
  rootInside := by decide
  aligned hd := by
    rw [isDir_helloLayout hd]
    decide +kernel
  nonempty hd := by
    rw [isDir_helloLayout hd]
    decide
  chain hd := by
    rw [isDir_helloLayout hd]
    decide +kernel

/-- A heap of 1024 bytes. -/
def helloRegion : Region where
  start := longRegion.start
  size := 1024#32
  aligned := longRegion.aligned
  words := by decide
  atLeast := by decide
  atMost := by decide

/-- The image in the device `/dev/mtd`. -/
def helloSystem : System := { Mount.mtdSystem with rom := helloRom, heap := Malloc.init helloRegion HeapRun.zeroed }

def helloInfo : Word → MtdInfo := fun _ => ⟨0x80, flash⟩

theorem helloSystem_tmpfs (p : Ptr) : (helloSystem.inodes p).iOp = .tmpfs := by
  unfold helloSystem Mount.mtdSystem
  dsimp only
  split
  · rfl
  · split <;> rfl

theorem silent_of_tmpfs {s : System} (h : ∀ p, (s.inodes p).iOp = .tmpfs) (names : List (List Byte)) (p : Ptr) :
    SilentWalk.Silent names p s := by
  induction names generalizing p with
  | nil => trivial
  | cons name names ih => exact ⟨fun _ hop => (nomatch (h p).symm.trans hop), fun f _ => ih f.1⟩

theorem tree_helloSystem : Tree helloSystem := by
  refine ⟨⟨trivial, fun hop => (nomatch (helloSystem_tmpfs rootInode).symm.trans hop)⟩, fun k e he =>
    ⟨?_, fun hop => (nomatch (helloSystem_tmpfs e.inode).symm.trans hop)⟩⟩
  change e ∈ (if k = 0 then _ else if k = 1 then _ else []) at he
  split at he
  · obtain rfl := List.mem_singleton.mp he
    trivial
  · split at he
    · obtain rfl := List.mem_singleton.mp he
      trivial
    · cases he

theorem mountable_hello :
    Mountable helloInfo (path "/dev/mtd") (path "/dev/flash") [(text "dev").text] flash helloLayout helloSystem where
  tree := tree_helloSystem
  source := ⟨.static 3, silent_of_tmpfs helloSystem_tmpfs _ _, by decide +kernel, rfl, by decide⟩
  wellFormed := helloRom_wellFormed
  devAt := by decide +kernel
  devDir := by decide +kernel
  short := by decide +kernel
  fresh := by decide +kernel
  memory := ⟨10, Option.isSome_iff_exists.mp (by decide +kernel)⟩

/-- A file is opened twice and another is not there; both handles read it, and one is closed. -/
def helloRun : List Act :=
  [.open 12 (path "/dev/flash/a") 0, .read 12 0 3, .open 12 (path "/dev/flash/b") 0, .open 12 (path "/dev/flash/a") 0,
    .read 12 1 10, .read 12 0 10, .close 12 0]

theorem fits_helloRun : ∀ a ∈ helloRun, a.Fits := by
  unfold helloRun
  simp only [List.forall_mem_cons]
  refine ⟨?_, trivial, ?_, ?_, trivial, trivial, trivial, fun _ h => (nomatch h)⟩ <;>
  · show OpenClose.Fits _
    decide +kernel

theorem strlen_mono {rom : Rom} {str n : Word} {fuel fuel' : ℕ} (hle : fuel ≤ fuel')
    (h : strlen rom fuel str = some n) :
    strlen rom fuel' str = some n := by
  induction fuel generalizing fuel' str n with
  | zero => cases h
  | succ fuel ih =>
    obtain ⟨fuel', rfl⟩ : ∃ k, fuel' = k + 1 := ⟨fuel' - 1, by omega⟩
    rw [strlen] at h ⊢
    split
    · rwa [if_pos ‹_›] at h
    · rw [if_neg ‹_›] at h
      obtain ⟨m, hm, rfl⟩ := Option.map_eq_some_iff.mp h
      rw [ih (Nat.le_of_succ_le_succ hle) hm]
      rfl

theorem system_malloc_mono {s : System} {size : Word} {r : Option ℕ × System} {fuel fuel' : ℕ} (hle : fuel ≤ fuel')
    (h : s.malloc fuel size = some r) : s.malloc fuel' size = some r := by
  obtain ⟨q, hq, rfl⟩ := Option.map_eq_some_iff.mp h
  rw [System.malloc, HeapRestore.malloc_mono hle hq]
  rfl

theorem mountAt_mono {mtd : Word → MtdInfo} {ino : Word} {addr : ℕ} {sInode : Ptr} {name : CString} {s : System}
    {r : ℤ × System} {fuel fuel' : ℕ} (hle : fuel ≤ fuel')
    (h : Mount.mountAt mtd ino fuel addr sInode name s = some r) :
    Mount.mountAt mtd ino fuel' addr sInode name s = some r := by
  unfold Mount.mountAt at h ⊢
  split
  · rename_i hshort
    rw [dif_pos hshort] at h
    obtain ⟨q, hq, h⟩ := Option.bind_eq_some_iff.mp h
    refine Option.bind_eq_some_iff.mpr ⟨q, ?_, ?_⟩
    · unfold Mount.vfsLink at hq ⊢
      split
      · rename_i hop
        rw [hop] at hq
        obtain ⟨p, hp, rfl⟩ := Option.map_eq_some_iff.mp hq
        exact Option.map_eq_some_iff.mpr ⟨p, system_malloc_mono hle hp, rfl⟩
      · rename_i hop
        rw [hop] at hq
        exact hq
    · obtain ⟨⟨o, v⟩, hv, h⟩ := Option.bind_eq_some_iff.mp h
      refine Option.bind_eq_some_iff.mpr ⟨(o, v), system_malloc_mono hle hv, ?_⟩
      cases o with
      | none => exact h
      | some sb =>
        obtain ⟨offset, ho, rfl⟩ := Option.map_eq_some_iff.mp h
        obtain ⟨n, hn, rfl⟩ := Option.map_eq_some_iff.mp ho
        exact Option.map_eq_some_iff.mpr ⟨_, Option.map_eq_some_iff.mpr ⟨n, strlen_mono hle hn, rfl⟩, rfl⟩
  · rename_i hlong
    rw [dif_neg hlong] at h
    cases h

/-- More fuel gives the same mount. -/
theorem romfsMount_mono {mtd : Word → MtdInfo} {ino : Word} {source dest : Pathname} {s : System}
    {r : ℤ × Option Ptr × System} {fuel fuel' : ℕ} (hle : fuel ≤ fuel')
    (h : Mount.romfsMount mtd ino fuel source dest s = some r) :
      Mount.romfsMount mtd ino fuel' source dest s = some r := by
  obtain ⟨⟨o, t⟩, ht, h⟩ := Option.bind_eq_some_iff.mp h
  refine Option.bind_eq_some_iff.mpr ⟨(o, t), SilentWalk.lookupPath_mono hle ht, ?_⟩
  cases o with
  | none => exact h
  | some sInode =>
    obtain ⟨⟨p, v⟩, hv, h⟩ := Option.bind_eq_some_iff.mp h
    refine Option.bind_eq_some_iff.mpr ⟨(p, v), system_malloc_mono hle hv, ?_⟩
    cases p with
    | none => exact h
    | some addr =>
      obtain ⟨q, hq, rfl⟩ := Option.map_eq_some_iff.mp h
      exact Option.map_eq_some_iff.mpr ⟨q, mountAt_mono hle hq, rfl⟩

/-- The session from the mount on. -/
def helloSession : Option Session :=
  (Mount.romfsMount helloInfo 9000 12 (path "/dev/mtd") (path "/dev/flash") helloSystem).bind fun r =>
    run (step Transfers.smallDevices) ⟨⟨r.2.2, []⟩, []⟩ helloRun

theorem mounted_image_served_hello :
    ∃ x, helloSession = some x ∧ ∃ T,
      run (serve inReach (files helloRom flash helloLayout [(text "dev").text, (text "flash").text]))
      (inUse helloSystem)
        x.events = some T ∧
      gathered 1 x.events = (text "hello").text ∧ ∀ fd bs p, T fd = some (.file bs p) →
      gathered fd x.events = bs.take p := by
  obtain ⟨n, root, t, hmount, hserved⟩ := mounted_image_served Transfers.smallDevices
    (HeapRun.inv_init helloRegion HeapRun.zeroed) mountable_hello 9000
  have hsome : helloSession.isSome = true := by decide +kernel
  obtain ⟨x, hx⟩ := Option.isSome_iff_exists.mp hsome
  have hbytes : helloSession.map (fun x => gathered 1 x.events) = some (text "hello").text := by decide +kernel
  rw [hx] at hbytes
  obtain ⟨r, hr, hrun⟩ := Option.bind_eq_some_iff.mp hx
  obtain rfl :=
    Option.some.inj ((romfsMount_mono (Nat.le_max_left 12 n) hr).symm.trans (hmount _ (Nat.le_max_right 12 n)))
  obtain ⟨T, hT, -, hgathered⟩ := hserved helloRun x fits_helloRun hrun
  exact ⟨x, hx, T, hT, Option.some.inj hbytes, hgathered⟩

end PikoRT.Fs.MountedImage

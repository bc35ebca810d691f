import PikoRT.Fs.OpenWalk
import PikoRT.Lib.Cursors

/-! # Serving the files of an image

A task opens files by their paths, reads them and closes them again, in any order, and some opens
fail. Below the path where an image is mounted it sees what a table of cursors on the files of the
image would show it, in spite of the heap, the dentries, the inodes and the file table behind. -/
namespace PikoRT.Fs.Serving
open PikoRT.Lib.Run PikoRT.Lib.Cursors PikoRT.Kernel.Bitops PikoRT.Libc PikoRT.Libc.Printf
open PikoRT.Fs.Romfs PikoRT.Fs.RomfsLookup PikoRT.Fs.Vfs PikoRT.Fs.Open PikoRT.Fs.Files PikoRT.Fs.Drivers
open PikoRT.Fs.Dentries PikoRT.Fs.OpenClose PikoRT.Fs.OpenWalk
open PikoRT.Fs.RomfsRead (IsFile OpenOn Right contents dataOffset fileSize)
open PikoRT.Fs.SilentWalk (target)
open PikoRT.Fs.Transfers (transfer sysCall sysCall_eq)
open PikoRT.Libc.Malloc (Region Allocation)
open PikoRT.Libc.HeapLedger (Holding)

/-! ## What a task does and sees -/

abbrev Seen := Event (List (List Byte)) Byte

structure Session extends OpenClose.Session where
  events : List Seen

inductive Act where
  | open (fuel : ℕ) (pathname : Pathname) (flags : Word)
  | read (fuel fd : ℕ) (count : Word)
  | close (fuel fd : ℕ)

/-- What is noted of a file after a read. -/
def moved (fd : ℕ) (file : File) (f : Held) : Held := if f.fd = fd then { f with file := file } else f

/-- A `sys_open`, or a `sys_read` or a `sys_close` of a file that the session has open. -/
def step (dev : Devices) (x : Session) : Act → Option Session
  | .open fuel pathname flags =>
    (openPath fuel pathname flags x.sys).map fun r =>
      match r.1 with
      | .ok fd => ⟨⟨r.2, note pathname fd r.2 :: x.opened⟩, x.events ++ [.opened (pathNames pathname.next) fd]⟩
      | .error e => ⟨⟨r.2.fail e, x.opened⟩, x.events ++ [.refused (pathNames pathname.next)]⟩
  | .read fuel fd count =>
    (x.opened.find? fun f => decide (f.fd = fd)).bind fun f => f.file.fOp.bind fun op =>
      (transfer dev fuel 0 op f.file count x.sys .read).bind fun v =>
        (sysCall dev fuel 0 fd count x.sys .read).map fun r =>
          ⟨⟨r.2, x.opened.map (moved fd (r.2.filetable fd))⟩, x.events ++ [.read fd count.toNat r.1.toNat v.2]⟩
  | .close fuel fd =>
    (x.opened.find? fun f => decide (f.fd = fd)).bind fun f =>
      (sysClose fuel fd x.sys).map fun r => ⟨⟨r.2, x.opened.erase f⟩, x.events ++ [.closed fd]⟩

/-- No name of a path that is opened fills `d_name`. -/
def Act.Fits : Act → Prop
  | .open _ pathname _ => OpenClose.Fits pathname
  | .read .. | .close .. => True

/-! ## What it has to see -/

/-- A read goes to the device only while the position and the count do not wrap around. -/
def inReach (position count : ℕ) : Bool := decide (position + count < 2 ^ 32)

/-- The regular file, with its data inside of the image, that a path below the root of the image leads to. -/
def fileAt (rom : Rom) (rs : Word) (l : Layout) (names : List (List Byte)) : Option Word :=
  (resolve rom rs l l.root (names.map ofBytes)).filter fun h =>
    decide (fileType rom (romfsInode rs h) = .reg ∧ dataOffset l h + (fileSize rom rs h).toNat ≤ l.size.toNat)

/-- The files below the path `mount`. -/
def files (rom : Rom) (rs : Word) (l : Layout) (mount names : List (List Byte)) : Option (List Byte) :=
  if mount <+: names ∧ names ≠ mount then (fileAt rom rs l (names.drop mount.length)).map (contents rom rs l) else none

/-- The table at the start: what is open already. -/
def inUse (s : System) : Table Byte := fun fd => if s.filemap.getLsbD fd then some .other else none

/-- The image is mounted at the path `mount`. -/
structure MountedAt (mount : List (List Byte)) (rs : Word) (l : Layout) (s : System) : Prop where
  tree : Tree s
  wellFormed : WellFormed s.rom rs l
  root : ∃ p, target mount rootInode s = some p ∧ DirectoryAt s rs l.root p ∧
    l.size ≤ (s.superBlocks (s.inodes p).iSb).mtdSize

/-- The descriptor of the file is at the position `p` of the bytes `bs` of a file of the image. -/
structure Shows (rs : Word) (l : Layout) (s : System) (f : Held) (bs : List Byte) (p : ℕ) : Prop where
  node : ∃ n ns a, f.nodes = n :: ns ∧ f.file.fDentry = some (.heap n.addr) ∧ n.dentry.dOp = .romfs ∧
    n.dentry.dInode = .heap a
  opened : ∃ h inode, OpenOn l rs h f.fd s f.file inode ∧ IsFile s.rom rs l h ∧ contents s.rom rs l h = bs
  position : f.file.fPos.toNat = p

/-- The invariant of a session that started in `t₀`: its resources are accounted for, and its table of cursors
is right. -/
structure Serves (g : Region) (mount : List (List Byte)) (rs : Word) (l : Layout) (t₀ : System)
    (x : Session) : Prop where
  account : ∃ s₀, Account g s₀ x.toSession ∧ MountedAt mount rs l s₀ ∧ s₀.rom = t₀.rom
  rom : x.sys.rom = t₀.rom
  table : ∃ T, run (serve inReach (files t₀.rom rs l mount)) (inUse t₀) x.events = some T ∧
    (∀ fd < 32, (T fd).isSome = x.sys.filemap.getLsbD fd) ∧
    ∀ f ∈ x.opened, ∀ bs p, T f.fd = some (.file bs p) → Shows rs l x.sys f bs p

section

variable {g : Region} {mount names : List (List Byte)} {rs d h : Word} {l : Layout} {s t t₀ : System} {x y : Session}
  {f : Held} {bs : List Byte} {p : ℕ} {dev : Devices} {fuel : ℕ}

/-! ## Where nothing changes -/

/-- Nothing of what belongs to the file is different. -/
structure Frame (f : Held) (s t : System) : Prop where
  dentries : ∀ v ∈ held f.nodes, t.dentries (.heap v.ptr) = s.dentries (.heap v.ptr)
  inodes : ∀ v ∈ held f.nodes, t.inodes (.heap v.ptr) = s.inodes (.heap v.ptr)
  superBlocks : t.superBlocks = s.superBlocks
  rom : t.rom = s.rom
  entry : t.filetable f.fd = s.filetable f.fd

theorem fileInode_frame (hs : Shows rs l s f bs p) (hf : Frame f s t) (hn : f.Kept s) :
    fileInode f.file t = fileInode f.file s := by
  obtain ⟨n, ns, a, hnodes, hdentry, hop, ha⟩ := hs.node
  obtain ⟨-, -, q, hq, hc⟩ := hn
  rw [hnodes] at hc
  obtain ⟨-, hn, -⟩ := hc
  have hmem : ⟨n.addr, sizeofDentry⟩ ∈ held f.nodes := hnodes ▸ mem_held_of_mem List.mem_cons_self
  have hmem' : ⟨a, sizeofInode⟩ ∈ held f.nodes := by
    rw [hnodes, held_cons, Node.blocks, hop, ha]
    simp [inodeBlocks]
  unfold fileInode
  rw [hdentry, Option.map_some, Option.map_some, hf.dentries _ hmem, hn, ha, hf.inodes _ hmem']

theorem Shows.frame (hs : Shows rs l s f bs p) (hk : f.Kept s) (hf : Frame f s t) : Shows rs l t f bs p := by
  obtain ⟨h, inode, ho, hfile, hbs⟩ := hs.opened
  refine ⟨hs.node, ⟨h, inode, ⟨?_, ?_, ho.op, ?_, ?_, ?_, ho.nonneg⟩, hf.rom ▸ hfile, hf.rom ▸ hbs⟩, hs.position⟩
  · have hentry := ho.toFile
    unfold fdToFile at hentry ⊢
    rw [Int.toNat_natCast, hf.entry]
    rw [Int.toNat_natCast] at hentry
    exact hentry
  · exact (fileInode_frame hs hf hk).trans ho.toInode
  · exact hf.rom ▸ ho.describes
  · rw [hf.superBlocks]
    exact ho.image
  · rw [hf.superBlocks]
    exact ho.fits

theorem MountedAt.keeps (hm : MountedAt mount rs l s) (hk : Keeps s t) (hrom : t.rom = s.rom) :
    MountedAt mount rs l t := by
  obtain ⟨p, hp, hdir, hsize⟩ := hm.root
  have halive := (InTree.target hm.tree hm.tree.root hp).alive
  refine ⟨hm.tree.keeps hk, hrom ▸ hm.wellFormed, p, (target_keeps hm.tree hm.tree.root hk).trans hp, ?_, ?_⟩
  · constructor
    · rw [hk.inodes p halive]
      exact hdir.mode
    · rw [hk.inodes p halive]
      exact hdir.op
    · rw [hk.inodes p halive, hk.superBlocks]
      exact hdir.image
    · rw [hk.inodes p halive]
      exact hdir.offset
  · rw [hk.inodes p halive, hk.superBlocks]
    exact hsize

/-! ## Opening a file of the image -/

theorem resolve_entry {rom : Rom} {ns : List CString} (hd : IsDir rom rs l d) (hne : ns ≠ [])
    (hr : resolve rom rs l d ns = some h) : ∃ e, IsDir rom rs l e ∧ h ∈ l.entries e := by
  induction ns generalizing d with
  | nil => exact absurd rfl hne
  | cons n ns ih =>
    cases ns with
    | nil => exact ⟨d, hd, List.mem_of_find?_eq_some hr⟩
    | cons m ms =>
      rw [resolve] at hr
      · obtain ⟨e, he, hr⟩ := Option.bind_eq_some_iff.mp hr
        obtain ⟨ht, hr⟩ := Option.ite_none_right_eq_some.mp hr
        exact ih (.entry hd (List.mem_of_find?_eq_some he) ht) (List.cons_ne_nil _ _) hr
      · exact List.cons_ne_nil m ms

theorem fileAt_some (hr : fileAt s.rom rs l names = some h) : resolve s.rom rs l l.root (names.map ofBytes) = some h ∧
    fileType s.rom (romfsInode rs h) = .reg ∧ dataOffset l h + (fileSize s.rom rs h).toNat ≤ l.size.toNat := by
  obtain ⟨hr, hp⟩ := Option.filter_eq_some_iff.mp hr
  exact ⟨hr, of_decide_eq_true hp⟩

theorem isFile_of_fileAt (hw : WellFormed s.rom rs l) (hne : names ≠ []) (hr : fileAt s.rom rs l names = some h) :
    IsFile s.rom rs l h := by
  obtain ⟨hr, ht, hin⟩ := fileAt_some hr
  exact ⟨hw, resolve_entry .root (List.map_eq_nil_iff.not.mpr hne) hr, ht, hin⟩

/-- The entry of the file table after an open. -/
theorem openFile_entry {flags : Word} {inode dentry : Ptr} {fd : ℕ}
    (h : openFile flags inode dentry s = some (.ok fd, t)) :
    ∃ op, (s.inodes (s.dentries dentry).dInode).iFop = some op ∧
      t.filetable fd = initFile op (s.inodes inode) dentry (s.filetable fd) := by
  unfold openFile at h
  split at h
  · cases h
  · cases hg : getfd s with
    | mk o u =>
      rw [hg] at h
      cases o with
      | none => cases h
      | some k =>
        obtain ⟨op, hop, h⟩ := Option.map_eq_some_iff.mp h
        obtain ⟨hok, rfl⟩ := Prod.mk.inj h
        obtain rfl := Except.ok.inj hok
        obtain ⟨-, -, -, rfl⟩ := getfd_some hg
        exact ⟨op, hop, Function.update_self ..⟩

theorem nul_notMem_pathNames {pathname : Pathname} {name : List Byte} (h : name ∈ pathNames pathname.next) :
    0 ∉ name := by
  intro h0
  have hnext : (0 : Byte) ∈ pathname.next := PathWalk.mem_of_mem_pathNamesFrom h h0
  unfold Pathname.next at hnext
  split at hnext
  · exact pathname.behind.noNul hnext
  · rename_i htext
    exact pathname.noNul (htext ▸ List.mem_cons_of_mem _ hnext)

/-- What an open that succeeds has done: the descriptor, and the inode and the dentry behind it. -/
theorem openPath_opened {s₀ : System} {z : OpenClose.Session} {pathname : Pathname} {flags : Word} {fd : ℕ}
    (ha : Account g s₀ z)
    (htree : Tree s₀) (hfits : OpenClose.Fits pathname) (h : openPath fuel pathname flags z.sys = some (.ok fd, t)) :
    ∃ inode dentry u ns op, openNames fuel (pathNames pathname.next) rootInode rootDentry z.sys =
    some (.ok (inode, dentry), u) ∧
      Keeps z.sys t ∧ t.inodes = u.inodes ∧ t.dentries = u.dentries ∧ t.superBlocks = u.superBlocks ∧ t.rom = u.rom ∧
      (u.inodes (u.dentries dentry).dInode).iFop = some op ∧
      t.filetable = Function.update z.sys.filetable fd (initFile op (u.inodes inode) dentry (z.sys.filetable fd)) ∧
      t.filemap = setBit fd z.sys.filemap ∧ fd < FILE_MAX ∧ z.sys.filemap.getLsbD fd = false ∧
      (∀ j < fd, z.sys.filemap.getLsbD j = true) ∧
      Chained u dentry ns ∧ ns.length = (pathNames pathname.next).length ∧ (note pathname fd t).nodes = ns := by
  obtain ⟨inode, dentry, u, hn, hf⟩ := openPath_ok h
  have htree' := htree.keeps ha.keeps
  obtain ⟨ns, -, hgrows, hc, hlen⟩ := openNames_spec hfits ha.holding htree' htree'.root chained_root
    (fun _ hv => (nomatch hv)) hn
  rw [List.append_nil] at hc
  obtain ⟨op, hop, hentry⟩ := openFile_entry hf
  obtain ⟨file, hdentry, hlt, hfree, hlow, rfl⟩ := openFile_ok hf
  have hfile : Function.update u.filetable fd file fd = file := Function.update_self ..
  obtain rfl := hfile.symm.trans hentry
  rw [hgrows.filemap] at hfree hlow
  refine ⟨inode, dentry, u, ns, op, hn,
    ⟨hgrows.alive, hgrows.inodes, hgrows.dentries, hgrows.superBlocks, hgrows.dirlists⟩,
    rfl, rfl, rfl, rfl, hop, ?_, ?_, hlt, hfree, hlow, hc, hlen, ?_⟩
  · show Function.update u.filetable fd _ = _
    rw [hgrows.filetable]
  · show setBit fd u.filemap = _
    rw [hgrows.filemap]
  · simp only [note, hfile, hdentry, Option.getD_some]
    exact dentriesFrom_eq (hc.frame (fun _ _ => rfl) (fun _ _ => rfl) rfl) hlen.le

theorem initFile_fDentry (op : FileOperations) (inode : Inode) (dentry : Ptr) (file : File) :
    (initFile op inode dentry file).fDentry = some dentry ∧ (initFile op inode dentry file).fOp = some op ∧
      (initFile op inode dentry file).fPos = 0 := by
  unfold initFile openHook
  split <;> exact ⟨rfl, rfl, rfl⟩

theorem files_some (hf : files s.rom rs l mount names = some bs) : ∃ rest h, names = mount ++ rest ∧ rest ≠ [] ∧
    fileAt s.rom rs l rest = some h ∧ contents s.rom rs l h = bs := by
  obtain ⟨⟨hstarts, hne⟩, hf⟩ := Option.ite_none_right_eq_some.mp hf
  obtain ⟨rest, rfl⟩ := hstarts
  rw [List.drop_left] at hf
  obtain ⟨h, hr, hbs⟩ := Option.map_eq_some_iff.mp hf
  exact ⟨rest, h, rfl, fun hnil => hne (by rw [hnil, List.append_nil]), hr, hbs⟩

/-- A path below the root of the image leads to the file that the image has there. -/
theorem openNames_files {inode dentry : Ptr} {h₀ : Malloc.State} {us : List Allocation} (hh : Holding g h₀ s.heap us)
    (hm : MountedAt mount rs l s) (hnames : ∀ n ∈ names, 0 ∉ n ∧ n.length < NAME_MAX)
    (hf : files s.rom rs l mount names = some bs)
    (hn : openNames fuel names rootInode rootDentry s = some (.ok (inode, dentry), t)) :
    ∃ h sb, IsFile s.rom rs l h ∧ contents s.rom rs l h = bs ∧ LeadsTo t rs sb h inode dentry ∧
      (t.superBlocks sb).rs = rs ∧ l.size ≤ (t.superBlocks sb).mtdSize := by
  obtain ⟨rest, h, rfl, hne, hr, hbs⟩ := files_some hf
  obtain ⟨p, hp, hdir, hsize⟩ := hm.root
  rw [openNames_append] at hn
  obtain ⟨⟨o, v⟩, hfirst, hn⟩ := Option.bind_eq_some_iff.mp hn
  cases o with
  | error e => cases hn
  | ok found =>
    obtain ⟨i, d⟩ := found
    obtain rfl := openNames_target hp hfirst
    obtain ⟨ns, hh', hgrows, hc, -⟩ := openNames_spec (fun n hn => (hnames n (List.mem_append_left _ hn)).2) hh
      hm.tree hm.tree.root chained_root (fun _ hv => (nomatch hv)) hfirst
    rw [List.append_nil] at hc
    have hrom : v.rom = s.rom := openNames_rom hfirst
    have hrom' : t.rom = v.rom := openNames_rom hn
    obtain ⟨q, hq, hdir', hsize'⟩ := (hm.keeps hgrows.toKeeps hrom).root
    obtain rfl : q = i := Option.some.inj (hq.symm.trans ((target_keeps hm.tree hm.tree.root hgrows.toKeeps).trans hp))
    obtain ⟨e, he, hleads⟩ := openNames_image hh' (hrom ▸ hm.wellFormed) .root hdir'
      (fun n hn => hnames n (List.mem_append_right _ hn)) hne hn
    obtain ⟨hres, -, -⟩ := fileAt_some hr
    rw [hrom, hres] at he
    obtain rfl := Option.some.inj he
    obtain ⟨-, -, hgrows', -, -⟩ := openNames_spec (fun n hn => (hnames n (List.mem_append_right _ hn)).2) hh'
      (hm.tree.keeps hgrows.toKeeps) ((InTree.target hm.tree hm.tree.root hp).keeps hgrows.toKeeps) hc
      (fun _ hv => hh'.mem_live (List.mem_append_left _ (List.mem_append_left _ hv))) hn
    refine ⟨h, _, isFile_of_fileAt hm.wellFormed hne hr, hbs, hleads, ?_, ?_⟩
    · rw [hgrows'.superBlocks]
      exact hdir'.image
    · rw [hgrows'.superBlocks]
      exact hsize'

/-! ## One call -/

/-- An open of a file of the image. -/
theorem shows_of_open {s₀ : System} {z : OpenClose.Session} {pathname : Pathname} {flags : Word} {fd : ℕ}
    (ha : Account g s₀ z) (hm : MountedAt mount rs l s₀) (hrom : z.sys.rom = s₀.rom) (hfits : OpenClose.Fits pathname)
    (h : openPath fuel pathname flags z.sys = some (.ok fd, t))
    (hf : files z.sys.rom rs l mount (pathNames pathname.next) = some bs) :
    Shows rs l t (note pathname fd t) bs 0 := by
  obtain ⟨inode, dentry, u, ns, op, hn, -, hinodes, hdentries, hsb, hrom', hop, hfile, -, hlt, -, -, hc, hlen,
    hnote⟩ :=
    openPath_opened ha hm.tree hfits h
  have hm' := hm.keeps ha.keeps hrom
  obtain ⟨e, sb, hisfile, hbs, hleads, himage, hsize⟩ := openNames_files ha.holding hm'
    (fun n hn => ⟨nul_notMem_pathNames hn, hfits n hn⟩) hf hn
  obtain ⟨a, rfl, hfop, hisb, hmode, hpriv, hisize⟩ := hleads.inodeAt
  obtain ⟨k, rfl, hdinode, hdop⟩ := hleads.dentryAt
  have hrom'' : u.rom = z.sys.rom := openNames_rom hn
  rw [hdinode, hfop] at hop
  obtain rfl := Option.some.inj hop
  obtain ⟨hentry, hentryOp, hpos⟩ := initFile_fDentry .romfs (u.inodes (.heap a)) (.heap k) (z.sys.filetable fd)
  have hnoted : (note pathname fd t).file = initFile .romfs (u.inodes (.heap a)) (.heap k) (z.sys.filetable fd) := by
    show t.filetable fd = _
    rw [hfile, Function.update_self]
  have hmax : FILE_MAX = 8 := rfl
  have hfd : fdToFile fd t = some (note pathname fd t).file :=
    if_pos ⟨Int.natCast_nonneg fd, Int.ofNat_lt.mpr hlt⟩
  obtain ⟨hreg, -⟩ : fileType z.sys.rom (romfsInode rs e) = .reg ∧ True := ⟨hisfile.regular, trivial⟩
  refine ⟨?_, ⟨e, u.inodes (.heap a), ⟨hfd, ?_, ?_, ⟨hpriv, ?_, ?_⟩, ?_, ?_, ?_⟩, ?_, ?_⟩, ?_⟩
  · -- the last dentry heads the chain
    have hne : ns ≠ [] := by
      rintro rfl
      obtain ⟨rest, -, hnames, hne, -⟩ := files_some hf
      rw [hnames, List.length_append] at hlen
      exact hne (List.length_eq_zero_iff.mp (by rw [List.length_nil] at hlen; omega))
    obtain ⟨n, ns, rfl⟩ := List.exists_cons_of_ne_nil hne
    obtain ⟨haddr, hnode, -⟩ := hc
    obtain rfl := Ptr.heap.inj haddr
    rw [hnode] at hdinode hdop
    exact ⟨n, ns, a, hnote, hnoted ▸ hentry, hdop, hdinode⟩
  · rw [hnoted, fileInode, hentry, Option.map_some, hinodes, hdentries, hdinode]
  · exact hnoted ▸ hentryOp
  · rw [hisize, hrom', hrom'']
  · rw [hmode, hrom', hrom'', hreg]
    rfl
  · rw [hisb, hsb]
    exact himage
  · rw [hisb, hsb]
    exact hsize
  · rw [hnoted, hpos]
    exact le_rfl
  · rw [hrom', hrom'']
    exact hisfile
  · rw [hrom', hrom'']
    exact hbs
  · rw [hnoted, hpos]
    rfl

/-- An open that fails. -/
theorem openPath_refused {s₀ : System} {z : OpenClose.Session} {pathname : Pathname} {flags : Word} {e : Errno}
    (ha : Account g s₀ z) (htree : Tree s₀) (hfits : OpenClose.Fits pathname)
    (h : openPath fuel pathname flags z.sys = some (.error e, t)) :
    ∃ us, Holding g z.sys.heap t.heap us ∧ Grows z.sys t ∧ t.rom = z.sys.rom := by
  obtain ⟨⟨o, u⟩, hn, hlast⟩ := Option.bind_eq_some_iff.mp h
  obtain ⟨-, xs, -, hi, -⟩ := ha.holding.blocks
  have htree' := htree.keeps ha.keeps
  have hh : Holding g z.sys.heap z.sys.heap (held []) := .refl hi
  have hrom := openNames_rom hn
  cases o with
  | error e' =>
    obtain ⟨-, rfl⟩ := Prod.mk.inj (Option.some.inj hlast)
    obtain ⟨us, hus, hgrows⟩ := openNames_refuses hfits hh (.refl _) htree' htree'.root rfl hn
    exact ⟨us, hus, hgrows, hrom⟩
  | ok found =>
    obtain rfl := OpenFails.openFile_error hlast
    obtain ⟨ns, hns, hgrows, -, -⟩ :=
      openNames_spec hfits hh htree' htree'.root chained_root (fun _ hv => (nomatch hv)) hn
    exact ⟨_, hns, hgrows, hrom⟩

/-- What an open that fails has lost may as well have been lost before. -/
theorem account_refused {s₀ : System} {z : OpenClose.Session} {pathname : Pathname} {flags : Word} {e : Errno}
    (ha : Account g s₀ z) (hm : MountedAt mount rs l s₀) (hrom : z.sys.rom = s₀.rom) (hfits : OpenClose.Fits pathname)
    (h : openPath fuel pathname flags z.sys = some (.error e, t)) :
    ∃ s₁, Account g s₁ ⟨t.fail e, z.opened⟩ ∧ MountedAt mount rs l s₁ ∧ s₁.rom = s₀.rom := by
  obtain ⟨us, hus, hgrows, hrom'⟩ := openPath_refused ha hm.tree hfits h
  obtain ⟨h₁, hheld, hlost⟩ := ((ha.holding.trans hus).perm List.perm_append_comm).rebase
  have hkept := ha.keeps.trans hgrows.toKeeps
  let s₁ : System := { t with heap := h₁, filemap := s₀.filemap, filetable := s₀.filetable }
  have hbase : Keeps s₀ s₁ := by
    refine ⟨fun p hp => ?_, hkept.inodes, hkept.dentries, hkept.superBlocks, hkept.dirlists⟩
    cases p with
    | static n => trivial
    | heap a =>
      obtain ⟨v, hv, rfl⟩ := List.mem_map.mp hp
      exact hlost.mem_live (List.mem_append_right _ hv)
  refine ⟨s₁, ⟨hheld, ⟨fun p hp => ?_, fun _ _ => rfl, fun _ _ => rfl, rfl, rfl⟩, fun f hf => ?_, ha.fds, ha.apart,
    fun j hj => ?_, fun j hj => ?_⟩, hm.keeps hbase (hrom'.trans hrom), hrom'.trans hrom⟩
  · cases p with
    | static n => trivial
    | heap a =>
      obtain ⟨v, hv, rfl⟩ := List.mem_map.mp hp
      exact hheld.mem_live (List.mem_append_right _ hv)
  · obtain ⟨hfd, hfile, p, hp, hc⟩ := ha.files f hf
    exact ⟨hfd, (congrFun hgrows.filetable _).trans hfile, p, hp,
      (hc.keeps (fun v hv => ha.alive (mem_heldBy hf hv)) hgrows.toKeeps).frame (fun _ _ => rfl) (fun _ _ => rfl) rfl⟩
  · exact (congrArg (BitVec.getLsbD · j) hgrows.filemap).trans (ha.filemap j hj)
  · exact (congrFun hgrows.filetable _).trans (ha.filetable j hj)

/-- A read moves only the position of its file. -/
theorem account_moved {s₀ : System} {z : OpenClose.Session} (ha : Account g s₀ z) (hf : f ∈ z.opened) {file : File}
    (hd : file.fDentry = f.file.fDentry) : Account g s₀ ⟨setFile f.fd file z.sys, z.opened.map (moved f.fd file)⟩ := by
  have hfds : (z.opened.map (moved f.fd file)).map Held.fd = z.opened.map Held.fd := by
    rw [List.map_map]
    refine List.map_congr_left fun k _ => ?_
    show (moved f.fd file k).fd = k.fd
    unfold moved
    split <;> rfl
  have hheld : heldBy (z.opened.map (moved f.fd file)) = heldBy z.opened := by
    unfold heldBy
    rw [List.flatMap_map]
    refine congrArg (fun k => z.opened.flatMap k) (funext fun k => ?_)
    unfold moved
    split <;> rfl
  have hat : ∀ j, (setFile f.fd file z.sys).filetable j = if j = f.fd then file else z.sys.filetable j := fun j =>
    Function.update_apply ..
  refine ⟨hheld ▸ ha.holding, ?_, fun k hk => ?_, hfds ▸ ha.fds, fun k hk => ?_, fun j hj => ?_, fun j hj => ?_⟩
  · exact ⟨ha.keeps.alive, ha.keeps.inodes, ha.keeps.dentries, ha.keeps.superBlocks, ha.keeps.dirlists⟩
  · obtain ⟨k₀, hk₀, rfl⟩ := List.mem_map.mp hk
    obtain ⟨hfd, hfile, p, hp, hc⟩ := ha.files k₀ hk₀
    have hc' : Chained (setFile f.fd file z.sys) p k₀.nodes := hc.frame (fun _ _ => rfl) (fun _ _ => rfl) rfl
    unfold moved
    split
    · rename_i hkf
      refine ⟨hfd, (hat _).trans (if_pos hkf), p, ?_, hc'⟩
      have hsame : k₀.file = f.file := by rw [← hfile, hkf, (ha.files f hf).file]
      exact hd.trans (hsame ▸ hp)
    · rename_i hkf
      exact ⟨hfd, (hat _).trans ((if_neg hkf).trans hfile), p, hp, hc'⟩
  · have hmem : k.fd ∈ z.opened.map Held.fd := hfds ▸ List.mem_map_of_mem hk
    obtain ⟨k', hk', he⟩ := List.mem_map.mp hmem
    exact he ▸ ha.apart k' hk'
  · show z.sys.filemap.getLsbD j = _
    rw [hfds]
    exact ha.filemap j hj
  · rw [hat, if_neg]
    · exact ha.filetable j hj
    · rintro rfl
      rw [ha.apart f hf] at hj
      cases hj

/-! ## The table -/

theorem frame_of_keeps {s₀ : System} (ha : Account g s₀ x.toSession) (hf : f ∈ x.opened) (hk : Keeps x.sys t)
    (hrom : t.rom = x.sys.rom)
    (hfile : t.filetable f.fd = x.sys.filetable f.fd) : Frame f x.sys t where
  dentries v hv := hk.dentries (.heap v.ptr) (ha.alive (mem_heldBy hf hv))
  inodes v hv := hk.inodes (.heap v.ptr) (ha.alive (mem_heldBy hf hv))
  superBlocks := hk.superBlocks
  rom := hrom
  entry := hfile

theorem Serves.opened (hx : Serves g mount rs l t₀ x) {pathname : Pathname} {flags : Word} {fd : ℕ}
    (hfits : OpenClose.Fits pathname) (h : openPath fuel pathname flags x.sys = some (.ok fd, t)) :
    Serves g mount rs l t₀
    ⟨⟨t, note pathname fd t :: x.opened⟩, x.events ++ [.opened (pathNames pathname.next) fd]⟩ := by
  obtain ⟨s₀, ha, hm, hrom₀⟩ := hx.account
  obtain ⟨T, hT, hbits, hshows⟩ := hx.table
  obtain ⟨inode, dentry, u, ns, op, hn, hkeeps, -, -, -, hromt, -, hfile, hmap, hlt, hfree, hlow, -⟩ :=
    openPath_opened ha hm.tree hfits h
  have hrom : t.rom = x.sys.rom := hromt.trans (openNames_rom hn)
  have hmax : FILE_MAX = 8 := rfl
  have hnone : (T fd).isNone := by
    rw [← Option.not_isSome, hbits fd (by omega), hfree]
    rfl
  have hserve : serve inReach (files t₀.rom rs l mount) T (.opened (pathNames pathname.next) fd) = some _ :=
    if_pos ⟨hnone, fun j hj => (hbits j (by omega)).trans (hlow j hj)⟩
  have ha' := ha.open hm.tree hfits h
  refine ⟨⟨s₀, ha', hm, hrom₀⟩, hrom.trans hx.rom, _, run_concat hT hserve, fun j hj => ?_, fun f hf bs p hp => ?_⟩
  · show _ = t.filemap.getLsbD j
    rw [hmap, getLsbD_setBit _ (by omega) hj, ← hbits j hj]
    by_cases hjf : j = fd
    · subst hjf
      simp
    · rw [Function.update_of_ne hjf, decide_eq_false hjf, Bool.false_or]
  · rcases List.mem_cons.mp hf with rfl | hf
    · -- the file that was opened
      rw [show (note pathname fd t).fd = fd from rfl, Function.update_self, handleOf] at hp
      split at hp
      · rename_i items hitems
        cases hp
        rw [← hx.rom] at hitems
        exact shows_of_open ha hm (hx.rom.trans hrom₀.symm) hfits h hitems
      · cases hp
    · have hnd : (fd :: x.opened.map Held.fd).Nodup := ha'.fds
      have hne : f.fd ≠ fd := fun he => (List.nodup_cons.mp hnd).1 (he ▸ List.mem_map_of_mem hf)
      rw [Function.update_of_ne hne] at hp
      refine (hshows f hf bs p hp).frame (ha.files f hf) (frame_of_keeps ha hf hkeeps hrom ?_)
      rw [hfile, Function.update_of_ne hne]

theorem Serves.refused (hx : Serves g mount rs l t₀ x) {pathname : Pathname} {flags : Word} {e : Errno}
    (hfits : OpenClose.Fits pathname) (h : openPath fuel pathname flags x.sys = some (.error e, t)) :
    Serves g mount rs l t₀ ⟨⟨t.fail e, x.opened⟩, x.events ++ [.refused (pathNames pathname.next)]⟩ := by
  obtain ⟨s₀, ha, hm, hrom₀⟩ := hx.account
  obtain ⟨T, hT, hbits, hshows⟩ := hx.table
  obtain ⟨us, -, hgrows, hrom⟩ := openPath_refused ha hm.tree hfits h
  obtain ⟨s₁, ha', hm', hrom₁⟩ := account_refused ha hm (hx.rom.trans hrom₀.symm) hfits h
  refine ⟨⟨s₁, ha', hm', hrom₁.trans hrom₀⟩, hrom.trans hx.rom, T, run_concat hT rfl, fun j hj => ?_,
    fun f hf bs p hp => ?_⟩
  · exact (hbits j hj).trans (congrArg (BitVec.getLsbD · j) hgrows.filemap).symm
  · have hframe := frame_of_keeps ha hf hgrows.toKeeps hrom (congrFun hgrows.filetable _)
    exact (hshows f hf bs p hp).frame (ha.files f hf)
      ⟨hframe.dentries, hframe.inodes, hframe.superBlocks, hframe.rom, hframe.entry⟩

theorem Serves.closed (hx : Serves g mount rs l t₀ x) {r : ℤ × System} (hf : f ∈ x.opened)
    (h : sysClose fuel f.fd x.sys = some r) :
    Serves g mount rs l t₀ ⟨⟨r.2, x.opened.erase f⟩, x.events ++ [.closed f.fd]⟩ := by
  obtain ⟨s₀, ha, hm, hrom₀⟩ := hx.account
  obtain ⟨T, hT, hbits, hshows⟩ := hx.table
  have ha' := ha.close hf h
  obtain ⟨k, ds, hclose, -, hds⟩ := sysClose_spec ha hf (lt_max_of_lt_right (b := fuel) (Nat.lt_succ_self _))
  obtain rfl : r = _ := Option.some.inj ((sysClose_mono (Nat.le_max_left ..) h).symm.trans hclose)
  have hmax : FILE_MAX = 8 := rfl
  have hfd := (ha.files f hf).fd
  have hinuse : x.sys.filemap.getLsbD f.fd = true := by
    rw [ha.filemap f.fd (by omega), decide_eq_true (List.mem_map_of_mem hf), Bool.or_true]
  obtain ⟨hd, hhd⟩ : ∃ hd, T f.fd = some hd := Option.isSome_iff_exists.mp ((hbits f.fd (by omega)).trans hinuse)
  have hserve : serve inReach (files t₀.rom rs l mount) T (.closed f.fd) = some (Function.update T f.fd none) := by
    rw [serve, hhd]
    rfl
  refine ⟨⟨s₀, ha', hm, hrom₀⟩, hx.rom, _, run_concat hT hserve, fun j hj => ?_, fun f' hf' bs p hp => ?_⟩
  · show _ = (clearBit f.fd x.sys.filemap).getLsbD j
    rw [getLsbD_clearBit _ (by omega) hj, ← hbits j hj]
    by_cases hjf : j = f.fd
    · subst hjf
      simp
    · rw [Function.update_of_ne hjf, decide_eq_false hjf, Bool.not_false, Bool.true_and]
  · have hmem := List.mem_of_mem_erase hf'
    have hne : f'.fd ≠ f.fd := by
      intro he
      rw [he, Function.update_self] at hp
      cases hp
    rw [Function.update_of_ne hne] at hp
    have hother : ∀ v ∈ held f'.nodes, ∀ n ∈ f.nodes, Ptr.heap v.ptr ≠ .heap n.addr := fun v hv n hn he =>
      ha.disjoint hf hn (List.mem_append_left _ (mem_heldBy hf' hv)) (Ptr.heap.inj he)
    exact (hshows f' hmem bs p hp).frame (ha.files f' hmem)
      ⟨fun v hv => hds _ (hother v hv), fun _ _ => rfl, rfl, rfl, rfl⟩

/-- A string that `strlen` comes back from is shorter than the fuel. -/
theorem length_lt_of_strlen {rom : Rom} {str n : Word} {cs : List Byte} (hs : StringAt rom str cs)
    (h : strlen rom fuel str = some n) : cs.length < fuel := by
  induction cs generalizing str fuel n with
  | nil =>
    cases fuel with
    | zero => cases h
    | succ fuel => exact Nat.succ_pos _
  | cons b cs ih =>
    obtain ⟨hb, hb0, hs⟩ := hs
    cases fuel with
    | zero => cases h
    | succ fuel =>
      rw [strlen, if_neg (hb ▸ hb0)] at h
      obtain ⟨m, hm, -⟩ := Option.map_eq_some_iff.mp h
      exact Nat.succ_lt_succ (ih hs hm)

/-- What a read of a file of the image transfers, and where it leaves the descriptor. -/
theorem Shows.transfer {op : FileOperations} {count : Word} {v : Word × List Byte} (hs : Shows rs l s f bs p)
    (hop : f.file.fOp = some op) (hv : transfer dev fuel 0 op f.file count s .read = some v) :
    v.2 = piece inReach bs p count.toNat ∧ v.1.toNat = v.2.length ∧
      Shows rs l (setFile f.fd { f.file with fPos := f.file.fPos + v.1 } s)
        { f with file := { f.file with fPos := f.file.fPos + v.1 } } bs (p + v.2.length) := by
  obtain ⟨h, inode, ho, hfile, rfl⟩ := hs.opened
  obtain rfl := hs.position
  obtain rfl : FileOperations.romfs = op := Option.some.inj (ho.op.symm.trans hop)
  -- what the driver does with the count
  have hspec : (¬ RomfsRead.Wraps (contents s.rom rs l h) f.file.fPos count →
        Right (contents s.rom rs l h) f.file.fPos count v) ∧
      (RomfsRead.Wraps (contents s.rom rs l h) f.file.fPos count → v = (0, [])) := by
    by_cases hzero : count = 0
    · obtain rfl : (0, []) = v := Option.some.inj ((if_pos hzero).symm.trans hv)
      refine ⟨fun _ => ⟨?_, rfl⟩, fun _ => rfl⟩
      rw [hzero]
      rfl
    · have hread : romfsRead fuel f.file count f.file.fPos s = some v := (if_neg hzero).symm.trans hv
      obtain ⟨i, hi, hlen⟩ := Option.bind_eq_some_iff.mp hread
      obtain rfl := Option.some.inj (ho.toInode.symm.trans hi)
      obtain ⟨n, hn, -⟩ := Option.map_eq_some_iff.mp hlen
      rw [ho.image, ho.describes.offset] at hn
      obtain ⟨w, hw, hspec⟩ := RomfsRead.romfsRead_spec ho hfile (length_lt_of_strlen hfile.name.1 hn) count
      obtain rfl := Option.some.inj (hread.symm.trans hw)
      exact hspec
  have hmoved := ho.moved hfile hspec
  by_cases hwraps : RomfsRead.Wraps (contents s.rom rs l h) f.file.fPos count
  · obtain rfl := hspec.2 hwraps
    refine ⟨?_, rfl, hs.node, ⟨h, inode, hmoved, hfile, rfl⟩, ?_⟩
    · exact (if_neg (by simpa [inReach] using hwraps.2)).symm
    · show (f.file.fPos + 0).toNat = _
      rw [add_zero]
      rfl
  · have hright := hspec.1 hwraps
    have hpos := (RomfsRead.toNat_position hright hfile.length_contents_lt ho.nonneg).1
    refine ⟨?_, hright.2, hs.node, ⟨h, inode, hmoved, hfile, rfl⟩, ?_⟩
    · rw [hright.1]
      unfold piece
      split
      · rfl
      · -- beyond the end of the file there is nothing to be read
        rename_i hreach
        rw [List.drop_eq_nil_of_le, List.take_nil]
        by_contra hlt
        exact hwraps ⟨not_le.mp hlt, by simpa [inReach] using hreach⟩
    · show (f.file.fPos + v.1).toNat = _
      rw [hpos, ← hright.1]

theorem Serves.read (hx : Serves g mount rs l t₀ x) {op : FileOperations} {count : Word} {v : Word × List Byte}
    (hf : f ∈ x.opened) (hop : f.file.fOp = some op) (hv : transfer dev fuel 0 op f.file count x.sys .read = some v) :
    let file := { f.file with fPos := f.file.fPos + v.1 }
    Serves g mount rs l t₀ ⟨⟨setFile f.fd file x.sys, x.opened.map (moved f.fd file)⟩,
      x.events ++ [.read f.fd count.toNat v.1.toNat v.2]⟩ := by
  intro file
  obtain ⟨s₀, ha, hm, hrom₀⟩ := hx.account
  obtain ⟨T, hT, hbits, hshows⟩ := hx.table
  have hmax : FILE_MAX = 8 := rfl
  have hfd := (ha.files f hf).fd
  have hinuse : x.sys.filemap.getLsbD f.fd = true := by
    rw [ha.filemap f.fd (by omega), decide_eq_true (List.mem_map_of_mem hf), Bool.or_true]
  obtain ⟨hd, hhd⟩ : ∃ hd, T f.fd = some hd := Option.isSome_iff_exists.mp ((hbits f.fd (by omega)).trans hinuse)
  have ha' : Account g s₀ ⟨setFile f.fd file x.sys, x.opened.map (moved f.fd file)⟩ := account_moved ha hf rfl
  have hat : ∀ j, j ≠ f.fd → (setFile f.fd file x.sys).filetable j = x.sys.filetable j :=
    fun j hj => Function.update_of_ne hj ..
  -- the other files
  have hothers : ∀ k ∈ x.opened, k.fd ≠ f.fd → ∀ bs p, T k.fd = some (.file bs p) →
      Shows rs l (setFile f.fd file x.sys) (moved f.fd file k) bs p := by
    intro k hk hne bs p hp
    rw [moved, if_neg hne]
    exact (hshows k hk bs p hp).frame (ha.files k hk) ⟨fun _ _ => rfl, fun _ _ => rfl, rfl, rfl, hat _ hne⟩
  have hsame : ∀ k ∈ x.opened, k.fd = f.fd → k = f := fun k hk he => List.inj_on_of_nodup_map ha.fds hk hf he
  have hmovedFd : ∀ k, (moved f.fd file k).fd = k.fd := by
    intro k
    unfold moved
    split <;> rfl
  cases hd with
  | other =>
    have hserve : serve inReach (files t₀.rom rs l mount) T (.read f.fd count.toNat v.1.toNat v.2) = some T := by
      rw [serve, hhd]
      rfl
    refine ⟨⟨s₀, ha', hm, hrom₀⟩, hx.rom, T, run_concat hT hserve, hbits, fun k hk bs p hp => ?_⟩
    obtain ⟨k₀, hk₀, rfl⟩ := List.mem_map.mp hk
    rw [hmovedFd] at hp
    refine hothers k₀ hk₀ (fun he => ?_) bs p hp
    rw [he, hhd] at hp
    cases hp
  | file bs p =>
    obtain ⟨hbytes, hvalue, hshown⟩ := (hshows f hf bs p hhd).transfer hop hv
    have hserve : serve inReach (files t₀.rom rs l mount) T (.read f.fd count.toNat v.1.toNat v.2) =
        some (Function.update T f.fd (some (.file bs (p + v.2.length)))) := by
      rw [serve, hhd]
      exact if_pos ⟨hbytes, hvalue⟩
    refine ⟨⟨s₀, ha', hm, hrom₀⟩, hx.rom, _, run_concat hT hserve, fun j hj => ?_, fun k hk bs' p' hp => ?_⟩
    · by_cases hjf : j = f.fd
      · subst hjf
        rw [Function.update_self]
        exact hinuse.symm
      · rw [Function.update_of_ne hjf]
        exact hbits j hj
    · obtain ⟨k₀, hk₀, rfl⟩ := List.mem_map.mp hk
      rw [hmovedFd] at hp
      by_cases he : k₀.fd = f.fd
      · obtain rfl := hsame k₀ hk₀ he
        rw [Function.update_self] at hp
        cases hp
        rw [moved, if_pos rfl]
        exact hshown
      · rw [Function.update_of_ne he] at hp
        exact hothers k₀ hk₀ he bs' p' hp

theorem step_serves {a : Act} (hx : Serves g mount rs l t₀ x) (hfits : a.Fits) (h : step dev x a = some y) :
    Serves g mount rs l t₀ y := by
  cases a with
  | «open» fuel pathname flags =>
    obtain ⟨⟨o, t⟩, ho, rfl⟩ := Option.map_eq_some_iff.mp h
    cases o with
    | ok fd => exact hx.opened hfits ho
    | error e => exact hx.refused hfits ho
  | read fuel fd count =>
    obtain ⟨f, hf, h⟩ := Option.bind_eq_some_iff.mp h
    obtain ⟨op, hop, h⟩ := Option.bind_eq_some_iff.mp h
    obtain ⟨v, hv, h⟩ := Option.bind_eq_some_iff.mp h
    obtain ⟨r, hr, rfl⟩ := Option.map_eq_some_iff.mp h
    have hfd : decide (f.fd = fd) = true := List.find?_some (p := fun f : Held => decide (f.fd = fd)) hf
    obtain rfl : f.fd = fd := of_decide_eq_true hfd
    have hmem := List.mem_of_find?_eq_some hf
    obtain ⟨s₀, ha, -, -⟩ := hx.account
    obtain ⟨hlt, hfile, -⟩ := ha.files f hmem
    have hto : fdToFile f.fd x.sys = some f.file := by
      rw [fdToFile, if_pos ⟨Int.natCast_nonneg _, Int.ofNat_lt.mpr hlt⟩, Int.toNat_natCast, hfile]
    have hcall : sysCall dev fuel 0 f.fd count x.sys .read = _ := sysCall_eq hto hop .read
    rw [hv, Option.map_some] at hcall
    obtain rfl := Option.some.inj (hr.symm.trans hcall)
    have hentry : (setFile f.fd { f.file with fPos := f.file.fPos + v.1 } x.sys).filetable f.fd =
        { f.file with fPos := f.file.fPos + v.1 } := Function.update_self ..
    rw [hentry]
    exact hx.read hmem hop hv
  | close fuel fd =>
    obtain ⟨f, hf, h⟩ := Option.bind_eq_some_iff.mp h
    obtain ⟨r, hr, rfl⟩ := Option.map_eq_some_iff.mp h
    have hfd : decide (f.fd = fd) = true := List.find?_some (p := fun f : Held => decide (f.fd = fd)) hf
    obtain rfl : f.fd = fd := of_decide_eq_true hfd
    exact hx.closed (List.mem_of_find?_eq_some hf) hr

theorem run_serves {as : List Act} (hx : Serves g mount rs l t₀ x) (hfits : ∀ a ∈ as, a.Fits)
    (h : run (step dev) x as = some y) : Serves g mount rs l t₀ y := by
  have hstep : ∀ x a y, Serves g mount rs l t₀ x → a.Fits → step dev x a = some y → Serves g mount rs l t₀ y :=
    fun x a y hx hf h => step_serves hx hf h
  exact run_invariant_of_trace hstep h hx fun e he => hfits e.act (act_mem_of_mem_trace he)

theorem serves_init {xs : List Lib.Tiling.Seg} (hi : HeapRun.Inv g s.heap xs) (hm : MountedAt mount rs l s) :
    Serves g mount rs l s ⟨⟨s, []⟩, []⟩ where
  account := ⟨s, account_init hi, hm, rfl⟩
  rom := rfl
  table := by
    refine ⟨inUse s, rfl, fun fd _ => ?_, fun f hf => (nomatch hf)⟩
    unfold inUse
    cases s.filemap.getLsbD fd <;> rfl

end

end PikoRT.Fs.Serving

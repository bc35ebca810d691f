import PikoRT.Fs.Romfs
import PikoRT.Libc.Malloc

/-! # Inodes, dentries and lookups (`kernel/fs/vfs.c`, `fs/tmpfs.c`, `fs/romfs.c`)

An inode or a dentry is known by a pointer, into the heap or to a static object. Memory
holds an inode and a dentry at every pointer; what it holds at a pointer that is not
allocated means nothing. A result of `none` is a call that does not return or whose
behaviour is not defined. -/
namespace PikoRT.Fs.Vfs
open PikoRT.Kernel.Bitops PikoRT.Libc PikoRT.Libc.Printf PikoRT.Fs.Romfs

inductive Ptr
  | static (n : ℕ)
  | heap (addr : ℕ)
  deriving DecidableEq, Repr

/-- `&tmpfs_iops` and `&romfs_iops`. -/
inductive InodeOperations
  | tmpfs | romfs
  deriving DecidableEq, Repr

/-- The tables of file operations of the kernel and its drivers. -/
inductive FileOperations
  | tmpfs | romfs | mtdchar | serialchar | mem | null | zero | random | version | meminfo
  deriving DecidableEq, Repr

/-- `&tmpfs_dops` and `&romfs_dops`; neither has a `release`. -/
inductive DentryOperations
  | tmpfs | romfs
  deriving DecidableEq, Repr

structure Inode where
  iMode : Mode
  iIno : Word
  iSize : Word
  iOp : InodeOperations
  /-- A table, or a pointer that was never set. -/
  iFop : Option FileOperations
  iSb : ℕ
  iPrivate : Word
  deriving DecidableEq, Repr

structure Dentry where
  dCount : Word
  dInode : Ptr
  dOp : DentryOperations
  dParent : Ptr
  dName : List Byte
  deriving DecidableEq, Repr

structure SuperBlock where
  /-- The image, `s_private->priv`, and the size of the device, `s_private->size`. -/
  rs : Word
  mtdSize : Word
  sIroot : Ptr
  deriving DecidableEq, Repr

/-- `sizeof(struct inode)`. -/
def sizeofInode : Word := 40

/-- `sizeof(struct dentry)`. -/
def sizeofDentry : Word := 48

def NAME_MAX : ℕ := 32

/-- An entry of a tmpfs directory; its name fits into `NAME_MAX` bytes with the NUL. -/
structure Dirlist where
  inode : Ptr
  name : CString
  short : name.strlen < NAME_MAX

inductive Errno
  | ENOENT | ENOMEM | EBADF | EACCES | ENOTDIR | EINVAL
  deriving DecidableEq, Repr

/-- An entry of the file table. The pointers of an entry that was never opened are not set. -/
structure File where
  fDentry : Option Ptr
  fOp : Option FileOperations
  fPos : Word
  fPrivate : Word
  deriving DecidableEq, Repr

structure System where
  heap : Malloc.State
  inodes : Ptr → Inode
  dentries : Ptr → Dentry
  superBlocks : ℕ → SuperBlock
  /-- The directory list at an `i_private` of a tmpfs directory. -/
  dirlists : Word → List Dirlist
  rom : Rom
  /-- The counter of `alloc_inode`. -/
  ino : Word
  errno : Option Errno
  filemap : Word
  filetable : ℕ → File

namespace System

def setInode (p : Ptr) (i : Inode) (s : System) : System := { s with inodes := Function.update s.inodes p i }

def setDentry (p : Ptr) (d : Dentry) (s : System) : System := { s with dentries := Function.update s.dentries p d }

def fail (e : Errno) (s : System) : System := { s with errno := some e }

/-- The heap after a request for `size` bytes. -/
def setHeap (size : Word) (r : Option ℕ × Malloc.Heap) (s : System) : System :=
  { s with heap := ⟨r.2, match r.1 with
    | some ptr => ⟨ptr, size⟩ :: s.heap.live
    | none => s.heap.live⟩ }

/-- `malloc`, with the block noted as allocated. -/
def malloc (fuel : ℕ) (size : Word) (s : System) : Option (Option ℕ × System) :=
  (Malloc.malloc fuel size s.heap.heap).map fun r => (r.1, s.setHeap size r)

/-- `free`, of a pointer that `malloc` returned. -/
def free (p : Ptr) (s : System) : Option System :=
  match p with
  | .static _ => none
  | .heap addr => (Malloc.step s.heap (.free addr)).map fun h => { s with heap := h }

end System

def rootInode : Ptr := .static 0

def rootDentry : Ptr := .static 0

/-! ## Lookups

A lookup that succeeds returns its target, with `d_inode` and `d_op` set to what the
functions below return. -/

/-- What `alloc_inode` puts into the inode for the header `ri`. -/
def deviceInode (ri : Word) (sb : ℕ) (s : System) : Inode where
  iMode := allocMode (fileType s.rom ri)
  iIno := s.ino
  iSize := ntohl (size s.rom ri)
  iOp := .romfs
  iFop := some .romfs
  iSb := sb
  iPrivate := offsetofDeviceInode ri (s.superBlocks sb).rs

/-- The inode at `addr`, which `alloc_inode` has allocated. -/
def fillInode (addr : ℕ) (ri : Word) (sb : ℕ) (s : System) : System :=
  { s with ino := s.ino + 1 }.setInode (.heap addr) (deviceInode ri sb s)

def allocInode (fuel : ℕ) (ri : Word) (sb : ℕ) (s : System) : Option (Option Ptr × System) :=
  (s.malloc fuel sizeofInode).map fun r =>
    match r.1 with
    | none => (none, r.2)
    | some addr => (some (.heap addr), fillInode addr ri sb r.2)

def romfsLookup (fuel : ℕ) (dir : Ptr) (name : List Byte) (s : System) :
    Option (Option (Ptr × DentryOperations) × System) :=
  let sb := (s.inodes dir).iSb
  (lookup s.rom fuel (s.superBlocks sb).rs (s.inodes dir).iPrivate name).bind fun r =>
    match r with
    | none => some (none, s)
    | some ri => (allocInode fuel ri sb s).map fun q => (q.1.map fun inode => (inode, .romfs), q.2)

def tmpfsLookup (dir : Ptr) (name : List Byte) (s : System) : Option (Ptr × DentryOperations) :=
  ((s.dirlists (s.inodes dir).iPrivate).find? fun e => decide (e.name.text = name)).map fun e =>
    (e.inode, .tmpfs)

def vfsLookup (fuel : ℕ) (dir : Ptr) (name : List Byte) (s : System) :
    Option (Option (Ptr × DentryOperations) × System) :=
  if sIsdir (s.inodes dir).iMode then
    match (s.inodes dir).iOp with
    | .tmpfs => some (tmpfsLookup dir name s, s)
    | .romfs => romfsLookup fuel dir name s
  else some (none, s)

/-- The loop of `inode_from_pathname`, over the names of the path. -/
def lookupPath (fuel : ℕ) : List (List Byte) → Ptr → System → Option (Option Ptr × System)
  | [], inode, s => some (some inode, s)
  | name :: names, inode, s =>
    (vfsLookup fuel inode name s).bind fun r =>
      match r.1 with
      | none => some (none, r.2)
      | some found => lookupPath fuel names found.1 r.2

end PikoRT.Fs.Vfs

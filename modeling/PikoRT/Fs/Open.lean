import PikoRT.Fs.Vfs

/-! # Opening and closing files (`kernel/fs/fs.c`)

`sys_open` makes a dentry for every name of its path, each with the previous one as its
parent, and puts the last one into the file table of the task. `sys_close` releases them
again, from the last one up to the root. -/
namespace PikoRT.Fs.Open
open PikoRT.Kernel.Bitops PikoRT.Libc PikoRT.Libc.Printf PikoRT.Fs.Romfs PikoRT.Fs.Vfs

def FILE_MAX : ℕ := 8

def O_DIRECTORY : Word := 1

/-! ## Paths -/

/-- A path, and the string in memory behind its NUL. -/
structure Pathname extends CString where
  behind : CString

/-- `pathname++`. -/
def Pathname.next (pathname : Pathname) : List Byte :=
  match pathname.text with
  | [] => pathname.behind.text
  | _ :: rest => rest

/-- `path_head`, of a path that is not empty: how far it goes, and the name. -/
def pathHead (pathname : List Byte) : ℕ × List Byte :=
  let i0 := if pathname.head? = some (ch '/') then 1 else 0
  let name := ((pathname.drop i0).takeWhile fun c => decide (c ≠ ch '/')).take (NAME_MAX - i0)
  (i0 + name.length, name)

/-- The names that the loop over a path takes off, one by one. -/
def pathNamesFrom : ℕ → List Byte → List (List Byte)
  | 0, _ => []
  | _ + 1, [] => []
  | n + 1, c :: rest =>
    (pathHead (c :: rest)).2 :: pathNamesFrom n ((c :: rest).drop (pathHead (c :: rest)).1)

def pathNames (pathname : List Byte) : List (List Byte) := pathNamesFrom pathname.length pathname

/-! ## Dentries -/

/-- `buf[i - i0] = '\0'`. Behind a name of `NAME_MAX` characters the NUL goes to the first byte
behind the dentry, which is the low byte of the word that the heap may have there. -/
def endName (addr : ℕ) (name : List Byte) (s : System) : System :=
  if name.length < NAME_MAX then s
  else
    let a := addr + sizeofDentry.toNat
    let heap := Malloc.setFreeLength a (s.heap.heap.freeLength a &&& 0xFFFFFF00) s.heap.heap
    { s with heap := ⟨heap, s.heap.live⟩ }

/-- What `sys_open` puts into a dentry before the lookup. -/
def initDentry (addr : ℕ) (parent : Ptr) (name : List Byte) (s : System) : System :=
  endName addr name (s.setDentry (.heap addr)
    { s.dentries (.heap addr) with dCount := 1, dParent := parent, dName := name })

/-- What a lookup puts into its target. -/
def fillDentry (addr : ℕ) (found : Ptr × DentryOperations) (s : System) : System :=
  s.setDentry (.heap addr) { s.dentries (.heap addr) with dInode := found.1, dOp := found.2 }

/-- `tmpfs_delete` and `romfs_delete`. -/
def vfsDelete (dentry : Ptr) (s : System) : Option System :=
  match (s.dentries dentry).dOp with
  | .tmpfs => s.free dentry
  | .romfs =>
    let inode := (s.dentries dentry).dInode
    if inode ≠ (s.superBlocks (s.inodes inode).iSb).sIroot then (s.free inode).bind fun s => s.free dentry
    else s.free dentry

/-- The loop of `release_dentries`. -/
def releaseDentries : ℕ → Ptr → System → Option (ℤ × System)
  | 0, _, _ => none
  | fuel + 1, dentry, s =>
    if dentry = rootDentry then some (0, s)
    else
      let d := s.dentries dentry
      if d.dCount = 0 then some (-1, s)
      else
        let s := s.setDentry dentry { d with dCount := d.dCount - 1 }
        if d.dCount - 1 ≠ 0 then some (0, s)
        else (vfsDelete dentry s).bind fun s => releaseDentries fuel d.dParent s

/-! ## `sys_open` -/

/-- The loop over the names; with the inode and the dentry of the last one. -/
def openNames (fuel : ℕ) :
    List (List Byte) → Ptr → Ptr → System → Option (Except Errno (Ptr × Ptr) × System)
  | [], inode, dentry, s => some (.ok (inode, dentry), s)
  | name :: names, inode, parent, s =>
    (s.malloc fuel sizeofDentry).bind fun r =>
      match r.1 with
      | none => some (.error .ENOMEM, r.2)
      | some addr =>
        (vfsLookup fuel inode name (initDentry addr parent name r.2)).bind fun q =>
          match q.1 with
          | none => (releaseDentries fuel parent q.2).map fun p => (.error .ENOENT, p.2)
          | some found => openNames fuel names found.1 (.heap addr) (fillDentry addr found q.2)

def getfd (s : System) : Option ℕ × System :=
  let fd := findFirstZeroBit [s.filemap] FILE_MAX
  if fd = FILE_MAX then (none, s) else (some fd, { s with filemap := setBit fd s.filemap })

/-- `f_op->open`, where the table has one. -/
def openHook (op : FileOperations) (inode : Inode) (file : File) : File :=
  match op with
  | .romfs | .mtdchar | .serialchar => { file with fPrivate := inode.iPrivate }
  | _ => file

/-- The entry of the file table. -/
def initFile (op : FileOperations) (inode : Inode) (dentry : Ptr) (file : File) : File :=
  openHook op inode { file with fDentry := some dentry, fOp := some op, fPos := 0 }

/-- What `sys_open` does once it has the inode and the dentry. -/
def openFile (flags : Word) (inode dentry : Ptr) (s : System) : Option (Except Errno ℕ × System) :=
  if flags &&& O_DIRECTORY ≠ 0 ∧ sIsdir (s.inodes inode).iMode = false then some (.error .ENOTDIR, s)
  else
    match getfd s with
    | (none, s) => some (.error .EBADF, s)
    | (some fd, s) =>
      (s.inodes (s.dentries dentry).dInode).iFop.map fun op =>
        let file := initFile op (s.inodes inode) dentry (s.filetable fd)
        (.ok fd, { s with filetable := Function.update s.filetable fd file })

/-- `sys_open` up to its `return`. -/
def openPath (fuel : ℕ) (pathname : Pathname) (flags : Word) (s : System) : Option (Except Errno ℕ × System) :=
  (openNames fuel (pathNames pathname.next) rootInode rootDentry s).bind fun r =>
    match r.1 with
    | .error e => some (.error e, r.2)
    | .ok found => openFile flags found.1 found.2 r.2

/-- Every failure sets `errno` and returns 0. -/
def sysOpen (fuel : ℕ) (pathname : Pathname) (flags : Word) (s : System) : Option (ℤ × System) :=
  (openPath fuel pathname flags s).map fun r =>
    match r.1 with
    | .ok fd => (fd, r.2)
    | .error e => (0, r.2.fail e)

/-! ## `sys_close` -/

/-- `fd_to_file`, with what is read from there; the array has `FILE_MAX` elements. -/
def fdToFile (fd : ℤ) (s : System) : Option File :=
  if 0 ≤ fd ∧ fd < FILE_MAX then some (s.filetable fd.toNat) else none

def releasefd (fd : ℕ) (s : System) : System := { s with filemap := clearBit fd s.filemap }

def sysClose (fuel : ℕ) (fd : ℤ) (s : System) : Option (ℤ × System) :=
  (fdToFile fd s).bind fun file => file.fDentry.bind fun dentry =>
    (releaseDentries fuel dentry s).map fun r => (0, releasefd fd.toNat r.2)

end PikoRT.Fs.Open

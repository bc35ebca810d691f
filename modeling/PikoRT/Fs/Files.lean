import PikoRT.Fs.Open

/-! # System calls on descriptors (`kernel/fs/fs.c`, `kernel/fs/readdir.c`, `kernel/mm/mm.c`)

The calls go through the file table of the task. What a driver transfers is given by a
parameter: only the number of bytes that it returns matters here. -/
namespace PikoRT.Fs.Files
open PikoRT.Kernel.Bitops PikoRT.Libc.Printf PikoRT.Fs.Romfs PikoRT.Fs.Vfs PikoRT.Fs.Open

/-- What the `read` and the `write` of a table return, for a file, a count and an offset. -/
structure Drivers where
  read : FileOperations → File → Word → Word → System → Option Word
  write : FileOperations → File → Word → Word → System → Option Word

/-- The tables with a `read`. -/
def hasRead : FileOperations → Bool
  | .tmpfs => false
  | _ => true

/-- The tables with a `write`. -/
def hasWrite : FileOperations → Bool
  | .mtdchar | .serialchar | .mem | .null | .zero => true
  | _ => false

def setFile (fd : ℤ) (file : File) (s : System) : System :=
  { s with filetable := Function.update s.filetable fd.toNat file }

theorem fdToFile_setFile {fd : ℤ} {s : System} {file f : File} (h : fdToFile fd s = some file) :
    fdToFile fd (setFile fd f s) = some f := by
  unfold fdToFile at h ⊢
  split at h
  · rename_i hfd
    rw [if_pos hfd]
    exact congrArg some (Function.update_self ..)
  · cases h

theorem fdToFile_setFile_of_ne {fd fd' : ℤ} {s : System} (hne : fd' ≠ fd) (hfd : 0 ≤ fd) (f : File) :
    fdToFile fd' (setFile fd f s) = fdToFile fd' s := by
  unfold fdToFile
  refine ite_congr rfl (fun hfd' => ?_) fun _ => rfl
  exact congrArg some (Function.update_of_ne (by omega) ..)

def sysRead (drivers : Drivers) (fd : ℤ) (count : Word) (s : System) : Option (Word × System) :=
  (fdToFile fd s).bind fun file =>
    if count = 0 then some (count, setFile fd { file with fPos := file.fPos + count } s)
    else
      file.fOp.bind fun op =>
        if hasRead op then
          (drivers.read op file count file.fPos s).map fun count =>
            (count, setFile fd { file with fPos := file.fPos + count } s)
        else none

def sysWrite (drivers : Drivers) (fd : ℤ) (count : Word) (s : System) : Option (Word × System) :=
  (fdToFile fd s).bind fun file => file.fOp.bind fun op =>
    if hasWrite op then
      (drivers.write op file count file.fPos s).map fun count =>
        (count, setFile fd { file with fPos := file.fPos + count } s)
    else none

/-- The inode of a file. -/
def fileInode (file : File) (s : System) : Option Inode :=
  file.fDentry.map fun dentry => s.inodes (s.dentries dentry).dInode

def SEEK_SET : Word := 0
def SEEK_CUR : Word := 1
def SEEK_END : Word := 2

/-- The `switch` of `sys_lseek`; `%` on the machine gives the dividend back for a divisor of 0. -/
def seekPos (fPos size offset whence : Word) : Option Word :=
  if whence = SEEK_SET then some (if offset ≠ 0 then size.srem offset else offset)
  else if whence = SEEK_CUR then some ((fPos + offset).srem size)
  else if whence = SEEK_END then some ((size + offset).srem size)
  else none

/-- No table has an `lseek`. -/
def sysLseek (fd : ℤ) (offset whence : Word) (s : System) : Option (Word × System) :=
  (fdToFile fd s).bind fun file => (fileInode file s).bind fun inode => file.fOp.map fun _ =>
    match seekPos file.fPos inode.iSize offset whence with
    | some pos => (0, setFile fd { file with fPos := pos } s)
    | none => (-1, s)

/-! ## `readdir_r` -/

/-- What `fillonedir` writes. -/
structure Dirent where
  dIno : Word
  dName : List Byte
  deriving DecidableEq, Repr

/-- The entry that `tmpfs_iterate` emits at a position. -/
def emitted (dentry : Dentry) (inode : Inode) (fPos : Word) (s : System) : Option Dirent :=
  if fPos = 0 then some ⟨inode.iIno, [ch '.']⟩
  else if fPos = 1 then some ⟨(s.inodes (s.dentries dentry.dParent).dInode).iIno, [ch '.', ch '.']⟩
  else if (fPos.toInt : ℤ) < 2 then none
  else (s.dirlists inode.iPrivate)[fPos.toNat - 2]?.map fun e => ⟨(s.inodes e.inode).iIno, e.name.text⟩

/-- `tmpfs_iterate`: the entry, if there is one, and the position behind it. -/
def tmpfsIterate (dentry : Dentry) (file : File) (s : System) : Option Dirent × File :=
  let inode := s.inodes dentry.dInode
  if file.fPos = inode.iSize + 2 then (none, file)
  else (emitted dentry inode file.fPos s, { file with fPos := file.fPos + 1 })

/-- `*result` is the entry or `NULL`; the value is 0 in any case. -/
def sysReaddirR (fd : ℤ) (s : System) : Option (Word × Option Dirent × System) :=
  (fdToFile fd s).bind fun file => file.fOp.bind fun op =>
    match op with
    | .tmpfs => file.fDentry.map fun p =>
      let r := tmpfsIterate (s.dentries p) file s
      (0, r.1, setFile fd r.2 s)
    | _ => some (0, none, s)

/-! ## `mmap` -/

def MAP_FAILED : Word := -1
def MAP_ANONYMOUS : Word := 1
def PROT_NONE : Word := 0

/-- `mtd_point` of a device at `priv` with a `mtd_point` operation: the value and `*virt`. -/
def mtdPoint (priv size «from» len : Word) : ℤ × Word :=
  if «from».toInt < 0 ∨ size ≤ «from» ∨ size - «from» < len then (-22, 0)
  else if len = 0 then (0, 0)
  else (0, priv + «from»)

def romfsMmap (fuel : ℕ) (inode : Inode) (offset : Word) (s : System) : Option (ℤ × Word) :=
  let sb := s.superBlocks inode.iSb
  (strlen s.rom fuel (Romfs.fileName (romfsInode sb.rs inode.iPrivate))).map fun n =>
    let len := 16 + alignNext (n + 1)
    mtdPoint sb.rs sb.mtdSize (inode.iPrivate + len + offset) inode.iSize

/-- Only romfs has an `mmap`. -/
def vfsMmap (fuel : ℕ) (file : File) (inode : Inode) (offset : Word) (s : System) : Option (ℤ × Word) :=
  file.fOp.bind fun op =>
    match op with
    | .romfs => romfsMmap fuel inode offset s
    | _ => some (-1, 0)

/-- `map_file`; when `vfs_mmap` fails, it does not come back. -/
def mapFile (fuel : ℕ) (fd : ℤ) (offset : Word) (s : System) : Option (Word × System) :=
  (fdToFile fd s).bind fun file => (fileInode file s).bind fun inode =>
    if sIsreg inode.iMode = false then some (MAP_FAILED, s.fail .EACCES)
    else
      (vfsMmap fuel file inode offset s).bind fun r =>
        if r.1 ≠ 0 then none else some (r.2, s)

/-- `sys_mmap`, with `map_anon` as a parameter. -/
def sysMmap (mapAnon : Word → Word → System → Option (Word × System)) (fuel : ℕ) (length prot flags : Word) (fd : ℤ)
    (offset : Word) (s : System) : Option (Word × System) :=
  if length = 0 then some (MAP_FAILED, s.fail .EINVAL)
  else if prot &&& PROT_NONE ≠ 0 then some (MAP_FAILED, s.fail .EACCES)
  else if flags &&& MAP_ANONYMOUS = MAP_ANONYMOUS then mapAnon length flags s
  else mapFile fuel fd offset s

end PikoRT.Fs.Files

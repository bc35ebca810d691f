import PikoRT.Libc.Printf

/-! # The romfs image (`fs/romfs.c`, `include/fs/romfs.h`)

An image lies in memory at the address `rs` and is read in place. Its words are
big-endian and the machine is little-endian. A file is known by the offset of its header
from `rs`. -/
namespace PikoRT.Fs.Romfs
open PikoRT.Kernel.Bitops PikoRT.Libc.Printf

abbrev Rom := Word → Byte

/-- A load of four bytes. -/
def load (rom : Rom) (addr : Word) : Word :=
  (rom (addr + 3) ++ rom (addr + 2) ++ rom (addr + 1) ++ rom addr : BitVec 32)

/-- `__REV`. -/
def ntohl (netlong : Word) : Word :=
  (netlong.extractLsb' 0 8 ++ netlong.extractLsb' 8 8 ++ netlong.extractLsb' 16 8 ++
    netlong.extractLsb' 24 8 : BitVec 32)

/-- `align(x, 16)`. -/
def align (x : Word) : Word := x &&& ~~~15#32

/-- `align_next(x, 16)`. -/
def alignNext (x : Word) : Word := (x + 15) &&& ~~~15#32

/-- `!strcmp(str, s)`, for a string in the image. -/
def strEq (rom : Rom) (str : Word) : List Byte → Bool
  | [] => rom str == 0
  | c :: s => rom str == c && strEq rom (str + 1) s

def strlen (rom : Rom) : ℕ → Word → Option Word
  | 0, _ => none
  | fuel + 1, str => if rom str = 0 then some 0 else (strlen rom fuel (str + 1)).map (· + 1)

/-! ## `struct romfs_superblock` and `struct romfs_inode` -/

def fullSize (rom : Rom) (rs : Word) : Word := load rom (rs + 8)

def volumeName (rs : Word) : Word := rs + 16

def nextFilehdr (rom : Rom) (ri : Word) : Word := load rom ri

def specInfo (rom : Rom) (ri : Word) : Word := load rom (ri + 4)

def size (rom : Rom) (ri : Word) : Word := load rom (ri + 8)

def fileName (ri : Word) : Word := ri + 16

/-- `ROMFS_INODE`. -/
def romfsInode (rs offset : Word) : Word := rs + offset

def offsetofDeviceInode (rinode super : Word) : Word := rinode - super

def offsetofFirstDeviceInode (rom : Rom) (fuel : ℕ) (super : Word) : Option Word :=
  (strlen rom fuel (volumeName super)).map fun len => 16 + alignNext (len + 1)

/-! ## File types -/

inductive FileType
  | hard | dir | reg | lnk | blk | chr | socket | fifo
  deriving DecidableEq, Repr

/-- `ntohl(ri->next_filehdr) & ROMFS_FILETYPE_MASK`. -/
def fileType (rom : Rom) (ri : Word) : FileType :=
  match (ntohl (nextFilehdr rom ri) &&& 7).toNat with
  | 0 => .hard
  | 1 => .dir
  | 2 => .reg
  | 3 => .lnk
  | 4 => .blk
  | 5 => .chr
  | 6 => .socket
  | _ => .fifo

/-- `S_IFDIR` and the other values of `i_mode`, of `<sys/stat.h>`. -/
abbrev Mode := BitVec 16

def sIfmt : Mode := 0xF000
def sIfdir : Mode := 0x4000
def sIfreg : Mode := 0x8000
def sIflnk : Mode := 0xA000
def sIfblk : Mode := 0x6000
def sIfchr : Mode := 0x2000
def sIfifo : Mode := 0x1000
def sIfsock : Mode := 0xC000

def sIsdir (m : Mode) : Bool := m &&& sIfmt == sIfdir

def sIsreg (m : Mode) : Bool := m &&& sIfmt == sIfreg

/-- The `switch` of `alloc_inode`. -/
def allocMode : FileType → Mode
  | .dir => sIfdir
  | .reg => sIfreg
  | .lnk => sIflnk
  | .blk => sIfblk
  | .chr => sIfchr
  | .fifo => sIfifo
  | .hard => 0
  | .socket => 0

/-! ## The search -/

/-- The loop of `romfs_lookup`: the header with the name, if the loop finds one. The size
of the image is compared as it is stored. -/
def lookupFrom (rom : Rom) (rs : Word) (name : List Byte) : ℕ → Word → Option (Option Word)
  | 0, _ => none
  | fuel + 1, next =>
    if next < fullSize rom rs then
      let ri := romfsInode rs next
      if strEq rom (fileName ri) name then some (some ri)
      else
        let next := align (ntohl (nextFilehdr rom ri))
        if next = 0 then some none else lookupFrom rom rs name fuel next
    else some none

/-- The header of a directory entry, from the offset of the directory. -/
def lookup (rom : Rom) (fuel : ℕ) (rs dir : Word) (name : List Byte) : Option (Option Word) :=
  lookupFrom rom rs name fuel (align (ntohl (specInfo rom (romfsInode rs dir))))

/-! ## Images -/

/-- The string at `str`. -/
def StringAt (rom : Rom) : Word → List Byte → Prop
  | str, [] => rom str = 0
  | str, c :: s => rom str = c ∧ c ≠ 0 ∧ StringAt rom (str + 1) s

instance decidableStringAt (rom : Rom) : ∀ str t, Decidable (StringAt rom str t)
  | str, [] => inferInstanceAs (Decidable (rom str = 0))
  | str, c :: s =>
    have := decidableStringAt rom (str + 1) s
    inferInstanceAs (Decidable (rom str = c ∧ c ≠ 0 ∧ StringAt rom (str + 1) s))

/-- What an image holds: its size, the name of the volume, the headers of a directory's
entries, and the name in a header. -/
structure Layout where
  size : Word
  volume : List Byte
  entries : Word → List Word
  name : Word → List Byte

variable (rom : Rom) (rs : Word)

/-- The headers `hs` are linked, from the offset `next` to an offset of zero. -/
def Chain (l : Layout) : Word → List Word → Prop
  | next, [] => next = 0
  | next, h :: hs => next = h ∧ h ≠ 0 ∧ 16 ∣ h.toNat ∧ h.toNat + 16 + (l.name h).length < l.size.toNat ∧
      StringAt rom (fileName (romfsInode rs h)) (l.name h) ∧
      Chain l (align (ntohl (nextFilehdr rom (romfsInode rs h)))) hs

instance decidableChain (l : Layout) : ∀ next hs, Decidable (Chain rom rs l next hs)
  | next, [] => inferInstanceAs (Decidable (next = 0))
  | next, h :: hs =>
    have := decidableChain l (align (ntohl (nextFilehdr rom (romfsInode rs h)))) hs
    inferInstanceAs (Decidable (next = h ∧ h ≠ 0 ∧ 16 ∣ h.toNat ∧
      h.toNat + 16 + (l.name h).length < l.size.toNat ∧
      StringAt rom (fileName (romfsInode rs h)) (l.name h) ∧
      Chain rom rs l (align (ntohl (nextFilehdr rom (romfsInode rs h)))) hs))

/-- The offset of the first header. -/
def Layout.root (l : Layout) : Word := 16 + alignNext (BitVec.ofNat 32 l.volume.length + 1)

/-- The directories of the image: the one of the first header, and the entries of
directories that are directories themselves. -/
inductive IsDir (l : Layout) : Word → Prop
  | root : IsDir l l.root
  | entry {d h : Word} (hd : IsDir l d) (hh : h ∈ l.entries d)
      (ht : fileType rom (romfsInode rs h) = .dir) : IsDir l h

structure WellFormed (l : Layout) : Prop where
  small : l.size.toNat < 2 ^ 31
  fits : rs.toNat + l.size.toNat ≤ 2 ^ 32
  fullSize : ntohl (fullSize rom rs) = l.size
  volume : StringAt rom (volumeName rs) l.volume
  volumeInside : 16 + l.volume.length < l.size.toNat
  rootInside : l.root.toNat + 16 ≤ l.size.toNat
  aligned {d : Word} (hd : IsDir rom rs l d) : 16 ∣ (ntohl (specInfo rom (romfsInode rs d))).toNat
  nonempty {d : Word} (hd : IsDir rom rs l d) : l.entries d ≠ []
  chain {d : Word} (hd : IsDir rom rs l d) :
    Chain rom rs l (ntohl (specInfo rom (romfsInode rs d))) (l.entries d)

/-- The first entry with the name. -/
def Layout.find (l : Layout) (d : Word) (name : List Byte) : Option Word :=
  (l.entries d).find? fun h => decide (l.name h = name)

/-- The file that the image has at a path; every name but the last is that of a directory. -/
def resolve (l : Layout) : Word → List CString → Option Word
  | d, [] => some d
  | d, [n] => l.find d n.text
  | d, n :: ns =>
    (l.find d n.text).bind fun h =>
      if fileType rom (romfsInode rs h) = .dir then resolve l h ns else none

/-- The type of a file as `i_mode` has it. A hard link has no type of its own. -/
def modeOf : FileType → Mode
  | .dir => sIfdir
  | .reg => sIfreg
  | .lnk => sIflnk
  | .blk => sIfblk
  | .chr => sIfchr
  | .socket => sIfsock
  | .fifo => sIfifo
  | .hard => 0

/-- The headers up to the first one with the name are below the size of the image with its
bytes reversed. -/
def Seen (l : Layout) (d : Word) (name : List Byte) : Prop :=
  (∀ h ∈ (l.entries d).takeWhile fun h => decide (l.name h ≠ name), h < ntohl l.size) ∧
    ∀ h ∈ l.find d name, h < ntohl l.size

/-- At every name of the path. -/
def AllSeen (l : Layout) : Word → List CString → Prop
  | _, [] => True
  | d, n :: ns => Seen l d n.text ∧ ∀ h ∈ l.find d n.text, AllSeen l h ns

end PikoRT.Fs.Romfs

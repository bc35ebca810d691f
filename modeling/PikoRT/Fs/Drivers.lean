import PikoRT.Fs.Files
import PikoRT.Lib.Bytes
import PikoRT.Serial.Stream

/-! # The drivers (`drivers/mtd`, `drivers/char`, `drivers/serial/serialchar.c`, `fs/proc.c`, `fs/romfs.c`)

A `read` gives what the driver returns and the bytes that it has stored into the buffer, a
`write` what it returns and the bytes that it has taken from there. All memory is `rom`, and
what a write leaves in it is not kept. -/
namespace PikoRT.Fs.Drivers
open PikoRT.Kernel.Bitops PikoRT.Libc.Printf PikoRT.Lib.Bytes
open PikoRT.Kernel.Cbuf (CbufInfo isEmpty first)
open PikoRT.Fs.Romfs PikoRT.Fs.Vfs PikoRT.Fs.Open PikoRT.Fs.Files

/-- The bytes that `memcpy` copies. -/
def memcpy (rom : Rom) (src n : Word) : List Byte := bytesAt rom src n.toNat

/-- The bytes that `strncpy` stores: a string up to its NUL, and zeros behind it. -/
def strncpy (rom : Rom) : ℕ → Word → List Byte
  | 0, _ => []
  | n + 1, src => if rom src = 0 then List.replicate (n + 1) 0 else rom src :: strncpy rom n (src + 1)

/-! ## MTD devices -/

/-- `struct mtd_info`, of a device in RAM. -/
structure MtdInfo where
  size : Word
  priv : Word
  deriving DecidableEq, Repr

/-- The range check of `mtd_read` and `mtd_write`. -/
def MtdRefuses (size «from» len : Word) : Prop := «from».toInt < 0 ∨ size ≤ «from» ∨ size - «from» < len

instance (size «from» len : Word) : Decidable (MtdRefuses size «from» len) :=
  inferInstanceAs (Decidable (_ ∨ _ ∨ _))

/-- The value, `*retlen` and the bytes. -/
structure MtdResult where
  value : ℤ
  retlen : Word
  bytes : List Byte
  deriving DecidableEq, Repr

/-- `mtd_read`, with `mtdram_read`. -/
def mtdRead (rom : Rom) (mtd : MtdInfo) («from» len : Word) : MtdResult :=
  if MtdRefuses mtd.size «from» len then ⟨-22, 0, []⟩
  else if len = 0 then ⟨0, 0, []⟩
  else ⟨0, len, memcpy rom (mtd.priv + «from») len⟩

/-- `mtd_write`, with `mtdram_write`. -/
def mtdWrite (rom : Rom) (mtd : MtdInfo) («to» len buf : Word) : MtdResult :=
  if MtdRefuses mtd.size «to» len then ⟨-22, 0, []⟩
  else if len = 0 then ⟨0, 0, []⟩
  else ⟨0, len, memcpy rom buf len⟩

def mtdcharRead (rom : Rom) (mtd : MtdInfo) (count offset : Word) : Word × List Byte :=
  let r := mtdRead rom mtd offset count
  if r.value < 0 then (-1, r.bytes) else (r.retlen, r.bytes)

def mtdcharWrite (rom : Rom) (mtd : MtdInfo) (buf count offset : Word) : Word × List Byte :=
  let r := mtdWrite rom mtd offset count buf
  if r.value < 0 then (-1, r.bytes) else (r.retlen, r.bytes)

/-- The count of `romfs_read` once it has been compared with the size of the file. -/
def romfsCount (filesize fPos count offset : Word) : Word :=
  if filesize < fPos + count then filesize - offset else count

/-- `romfs_read`. What `mtd_read` returns is not looked at. -/
def romfsRead (fuel : ℕ) (file : File) (count offset : Word) (s : System) : Option (Word × List Byte) :=
  (fileInode file s).bind fun inode =>
    let sb := s.superBlocks inode.iSb
    (strlen s.rom fuel (Romfs.fileName (romfsInode sb.rs inode.iPrivate))).map fun n =>
      let len := 16 + alignNext (n + 1)
      let r := mtdRead s.rom ⟨sb.mtdSize, sb.rs⟩ (inode.iPrivate + len + offset)
        (romfsCount inode.iSize file.fPos count offset)
      (r.retlen, r.bytes)

/-! ## Character devices -/

/-- `read_mem` and `read_meminfo`. -/
def readMem (rom : Rom) (count offset : Word) : Word × List Byte := (count, memcpy rom offset count)

def readNull : Word × List Byte := (0, [])

def readZero (count : Word) : Word × List Byte := (count, List.replicate count.toNat 0)

/-- The static variables of `read_random`, and what the coming calls of `next` return. -/
structure Random where
  m : BitVec 64
  remainingBytes : Fin 8
  next : ℕ → BitVec 64

/-- A byte of a variable in memory. -/
def byteOf (m : BitVec 64) (k : ℕ) : Byte := m.extractLsb' (8 * k) 8

/-- `read_random`: from what is left of the last number, or from new numbers of 8 bytes each. A
count that is negative as an `int` is not more than what is left, and goes beyond it. -/
def readRandom (random : Random) (count : Word) : Option (Word × List Byte) :=
  if count.toInt < 0 then none
  else if count.toNat ≤ random.remainingBytes then
    some (count, (List.range count.toNat).map fun k => byteOf random.m (8 - random.remainingBytes + k))
  else some (count, (List.range count.toNat).map fun k => byteOf (random.next (k / 8)) (k % 8))

/-- `read_version`, of the text at `ptr` with `len` characters. -/
def readVersion (rom : Rom) (ptr len count offset : Word) : Word × List Byte :=
  let n := if count < len - offset then count else len - offset
  (n, strncpy rom n.toNat (ptr + offset))

/-- `serialchar_read` behind its loop. The driver of the UART has no `serial_gets`. -/
def serialcharRead (cbuf : CbufInfo) (count : Word) : Option (Word × List Byte) :=
  if count = 1 then some (Serial.Stream.getcValue, if isEmpty cbuf then [] else [first cbuf]) else none

/-- `write_null`. -/
def writeNull (rom : Rom) (buf count : Word) : Word × List Byte := (count, memcpy rom buf count)

/-- `write_mem` copies to the variable of `sys_write` that holds the offset, which has 4 bytes. -/
def writeMem (rom : Rom) (buf count : Word) : Option (Word × List Byte) :=
  if 4 < count then none else some (count, memcpy rom buf count)

/-- `serialchar_write` and `stm32_puts`, which counts with an `int`. A `char` is not negative on
the machine, so that `stm32_putc` does not fail. -/
def serialcharWrite (rom : Rom) (buf count : Word) : Option (Word × List Byte) :=
  if count.toInt < 0 then none else some (count, memcpy rom buf count)

/-! ## The tables -/

/-- What the drivers find: the MTD device at an address, the characters of the UART when the loop
of `serialchar_read` ends, and the static variables. -/
structure Devices where
  mtd : Word → MtdInfo
  cbuf : CbufInfo
  random : Random
  versionPtr : Word
  versionLen : Word

variable (dev : Devices)

def read (fuel : ℕ) (op : FileOperations) (file : File) (count offset : Word) (s : System) :
    Option (Word × List Byte) :=
  match op with
  | .tmpfs => none
  | .romfs => romfsRead fuel file count offset s
  | .mtdchar => some (mtdcharRead s.rom (dev.mtd file.fPrivate) count offset)
  | .serialchar => serialcharRead dev.cbuf count
  | .mem | .meminfo => some (readMem s.rom count offset)
  | .null => some readNull
  | .zero => some (readZero count)
  | .random => readRandom dev.random count
  | .version => some (readVersion s.rom dev.versionPtr dev.versionLen count offset)

def write (op : FileOperations) (file : File) (buf count offset : Word) (s : System) : Option (Word × List Byte) :=
  match op with
  | .mtdchar => some (mtdcharWrite s.rom (dev.mtd file.fPrivate) buf count offset)
  | .serialchar => serialcharWrite s.rom buf count
  | .mem => writeMem s.rom buf count
  | .null | .zero => some (writeNull s.rom buf count)
  | .tmpfs | .romfs | .random | .version | .meminfo => none

/-- The drivers, for calls with the buffer `buf`. -/
def drivers (fuel : ℕ) (buf : Word) : Drivers where
  read op file count offset s := (read dev fuel op file count offset s).map Prod.fst
  write op file count offset s := (write dev op file buf count offset s).map Prod.fst

/-! ## How much is moved -/

section

variable {rom : Rom} {n : Word}

@[simp] theorem length_memcpy (src : Word) : (memcpy rom src n).length = n.toNat := length_bytesAt ..

@[simp] theorem length_strncpy (k : ℕ) (src : Word) : (strncpy rom k src).length = k := by
  induction k generalizing src with
  | zero => rfl
  | succ k ih =>
    rw [strncpy]
    split
    · exact List.length_replicate
    · rw [List.length_cons, ih]

/-- A device that does not refuse a range moves all of it. -/
theorem mtdRead_eq (mtd : MtdInfo) («from» : Word) :
    mtdRead rom mtd «from» n =
      if MtdRefuses mtd.size «from» n then ⟨-22, 0, []⟩ else ⟨0, n, memcpy rom (mtd.priv + «from») n⟩ := by
  rw [mtdRead]
  by_cases hzero : n = 0
  · rw [if_pos hzero, hzero]
    rfl
  · rw [if_neg hzero]

theorem mtdWrite_eq (mtd : MtdInfo) («to» buf : Word) :
    mtdWrite rom mtd «to» n buf =
      if MtdRefuses mtd.size «to» n then ⟨-22, 0, []⟩ else ⟨0, n, memcpy rom buf n⟩ := by
  rw [mtdWrite]
  by_cases hzero : n = 0
  · rw [if_pos hzero, hzero]
    rfl
  · rw [if_neg hzero]

theorem toNat_romfsCount (size fPos count offset : Word) :
    (romfsCount size fPos count offset).toNat =
      if size.toNat < (fPos.toNat + count.toNat) % 2 ^ 32 then (2 ^ 32 - offset.toNat + size.toNat) % 2 ^ 32
      else count.toNat := by
  unfold romfsCount
  simp only [BitVec.lt_def, BitVec.toNat_add]
  split
  · exact BitVec.toNat_sub ..
  · rfl

theorem romfsRead_eq {fuel : ℕ} {file : File} {inode : Inode} {s : System} (hi : fileInode file s = some inode)
    (hn : strlen s.rom fuel (Romfs.fileName (romfsInode (s.superBlocks inode.iSb).rs inode.iPrivate)) = some n)
    (count offset : Word) :
    romfsRead fuel file count offset s =
      let r := mtdRead s.rom ⟨(s.superBlocks inode.iSb).mtdSize, (s.superBlocks inode.iSb).rs⟩
        (inode.iPrivate + (16 + alignNext (n + 1)) + offset) (romfsCount inode.iSize file.fPos count offset)
      some (r.retlen, r.bytes) := by
  rw [romfsRead, hi, Option.bind_some]
  simp only [hn, Option.map_some]

end

end PikoRT.Fs.Drivers

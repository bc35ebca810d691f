import PikoRT.Fs.Mtdram
import PikoRT.Fs.Seek

/-! # `/dev/mem` (`drivers/char/mem.c`)

`sys_write` hands the address of its variable `offset` to the driver, and `write_mem` takes that
address for the place to write to. The memory is flat, with the variable in it at `var`; the
positions of the files are kept apart from it. -/
namespace PikoRT.Fs.DevMem
open PikoRT.Kernel.Bitops PikoRT.Libc.Printf PikoRT.Lib.Bytes
open PikoRT.Fs.Romfs PikoRT.Fs.Vfs PikoRT.Fs.Open PikoRT.Fs.Files
open PikoRT.Fs.Drivers (readMem memcpy)
open PikoRT.Fs.Mtdram (bufBytes length_bufBytes getElem?_bufBytes)

/-- A word in memory. -/
def wordBytes (w : Word) : List Byte := (List.range 4).map fun k => w.extractLsb' (8 * k) 8

/-- `write_mem`, with a pointer to a variable of 4 bytes. A copy behind its end is undefined. -/
def writeMem (rom : Rom) (buf : ℕ → Byte) (count offset : Word) : Option (Word × Rom) :=
  if 4 < count then none else some (count, storeBytes rom offset (bufBytes buf count))

/-- `sys_write`, on a descriptor with the table of `/dev/mem`. -/
def sysWrite (var : Word) (fd : ℤ) (buf : ℕ → Byte) (count : Word) (s : System) : Option (Word × System) :=
  (fdToFile fd s).bind fun file =>
    if file.fOp = some .mem then
      let rom := storeBytes s.rom var (wordBytes file.fPos)
      (writeMem rom buf count var).map fun r =>
        (r.1, setFile fd { file with fPos := file.fPos + r.1 } { s with rom := r.2 })
    else none

/-- The range has the bytes of the buffer, and outside of it nothing has changed but the variable,
which is gone; the position has moved, and the bytes can be read again. -/
structure Right (var : Word) (fd : ℤ) (buf : ℕ → Byte) (count : Word) (s : System) (file : File) (t : System)
    (r : Word) :
    Prop where
  result : r = count
  range : ∀ i < count.toNat, t.rom (file.fPos + BitVec.ofNat 32 i) = buf i
  others : ∀ x, count.toNat ≤ (x - file.fPos).toNat → 4 ≤ (x - var).toNat → t.rom x = s.rom x
  rest : t = setFile fd { file with fPos := file.fPos + count } { s with rom := t.rom }
  position : (fdToFile fd t).map File.fPos = some (file.fPos + count)
  readBack : readMem t.rom count file.fPos = (count, bufBytes buf count)

def Writes (var : Word) (fd : ℤ) (buf : ℕ → Byte) (count : Word) (s : System) (file : File) : Prop :=
  ∃ r t, sysWrite var fd buf count s = some (r, t) ∧ Right var fd buf count s file t r

/-! ## The condition -/

/-- What the variable holds when the driver comes back. -/
def variableAfter (fPos : Word) (buf : ℕ → Byte) (count : Word) : List Byte :=
  bufBytes buf count ++ (wordBytes fPos).drop count.toNat

/-- Every byte of the range is the buffer's without a write to it. -/
def Already (var : Word) (rom : Rom) (fPos : Word) (buf : ℕ → Byte) (count : Word) : Prop :=
  ∀ i < count.toNat,
    ((variableAfter fPos buf count)[(fPos + BitVec.ofNat 32 i - var).toNat]?).getD (rom (fPos + BitVec.ofNat 32 i))
      = buf i

section

variable {var : Word} {fd : ℤ} {buf : ℕ → Byte} {count : Word} {s : System} {file : File}

theorem length_wordBytes (w : Word) : (wordBytes w).length = 4 := rfl

theorem length_variableAfter (fPos : Word) (hle : count.toNat ≤ 4) : (variableAfter fPos buf count).length = 4 := by
  rw [variableAfter, List.length_append, List.length_drop, length_bufBytes, length_wordBytes]
  omega

theorem length_bufBytes_le (buf : ℕ → Byte) (hle : count.toNat ≤ 4) : (bufBytes buf count).length ≤ 2 ^ 32 := by
  rw [length_bufBytes]
  omega

theorem sysWrite_eq (hf : fdToFile fd s = some file) (hop : file.fOp = some .mem) (hle : count.toNat ≤ 4) :
    sysWrite var fd buf count s = some (count, setFile fd { file with fPos := file.fPos + count }
      { s with rom := storeBytes s.rom var (variableAfter file.fPos buf count) }) := by
  have hstore : storeBytes (storeBytes s.rom var (wordBytes file.fPos)) var (bufBytes buf count) = _ :=
    storeBytes_storeBytes s.rom var (by rw [length_wordBytes]; decide) (length_bufBytes_le buf hle)
  rw [length_bufBytes] at hstore
  have hw : writeMem (storeBytes s.rom var (wordBytes file.fPos)) buf count var = some (count, _) :=
    if_neg (Nat.not_lt.mpr hle)
  rw [sysWrite, hf, Option.bind_some, if_pos hop]
  dsimp only
  rw [hw, Option.map_some, hstore]
  rfl

theorem sysWrite_eq_none (hf : fdToFile fd s = some file) (hop : file.fOp = some .mem) (hle : ¬ count.toNat ≤ 4) :
    sysWrite var fd buf count s = none := by
  have hw : writeMem (storeBytes s.rom var (wordBytes file.fPos)) buf count var = none := if_pos (Nat.lt_of_not_le hle)
  rw [sysWrite, hf, Option.bind_some, if_pos hop]
  dsimp only
  rw [hw]
  rfl

/-- A range whose bytes are the buffer's can be read. -/
theorem readMem_of_range {rom : Rom} {fPos : Word} (h : ∀ i < count.toNat, rom (fPos + BitVec.ofNat 32 i) = buf i) :
    readMem rom count fPos = (count, bufBytes buf count) := by
  refine Prod.ext rfl (List.ext_getElem? fun i => ?_)
  show (bytesAt rom fPos count.toNat)[i]? = (bufBytes buf count)[i]?
  by_cases hi : i < count.toNat
  · rw [getElem?_bytesAt _ _ hi, getElem?_bufBytes _ hi, h i hi]
  · rw [List.getElem?_eq_none (by rw [length_bytesAt]; omega), List.getElem?_eq_none (by rw [length_bufBytes]; omega)]

/-- What the memory holds after a write of a few bytes. -/
theorem rom_after (var : Word) (rom : Rom) (fPos : Word) (buf : ℕ → Byte) (hle : count.toNat ≤ 4) (x : Word) :
    storeBytes rom var (variableAfter fPos buf count) x =
      ((variableAfter fPos buf count)[(x - var).toNat]?).getD (rom x) := by
  have hlen : (variableAfter fPos buf count).length = 4 := length_variableAfter fPos hle
  exact storeBytes_apply _ _ (by rw [hlen]; decide) x

theorem writes_of_already (hf : fdToFile fd s = some file) (hop : file.fOp = some .mem) (hle : count.toNat ≤ 4)
    (h : Already var s.rom file.fPos buf count) : Writes var fd buf count s file := by
  have hlen : (variableAfter file.fPos buf count).length = 4 := length_variableAfter file.fPos hle
  have hrom := rom_after var s.rom file.fPos buf hle
  have hrange : ∀ i < count.toNat,
      storeBytes s.rom var (variableAfter file.fPos buf count) (file.fPos + BitVec.ofNat 32 i) = buf i :=
    fun i hi => (hrom _).trans (h i hi)
  exact ⟨_, _, sysWrite_eq hf hop hle, {
    result := rfl
    range := hrange
    others := fun x _ hx => (hrom x).trans (by rw [List.getElem?_eq_none (hlen.le.trans hx)]; rfl)
    rest := rfl
    position := congrArg (Option.map File.fPos) (fdToFile_setFile (s := { s with rom := _ }) hf)
    readBack := readMem_of_range hrange }⟩

theorem already_of_writes (hf : fdToFile fd s = some file) (hop : file.fOp = some .mem)
    (h : Writes var fd buf count s file) : count.toNat ≤ 4 ∧ Already var s.rom file.fPos buf count := by
  obtain ⟨r, t, hw, hr⟩ := h
  have hle : count.toNat ≤ 4 := by
    by_contra hle
    rw [sysWrite_eq_none hf hop hle] at hw
    cases hw
  obtain ⟨rfl, rfl⟩ := Prod.mk.inj (Option.some.inj (hw.symm.trans (sysWrite_eq hf hop hle)))
  exact ⟨hle, fun i hi => (rom_after var s.rom file.fPos buf hle _).symm.trans (hr.range i hi)⟩

end

/-- **A write to `/dev/mem`** is right exactly when there are at most 4 bytes, and each of them is
in its place without the write. -/
theorem writes_iff {fd : ℤ} {s : System} {file : File} (var : Word) (buf : ℕ → Byte) (count : Word)
    (hf : fdToFile fd s = some file) (hop : file.fOp = some .mem) :
    Writes var fd buf count s file ↔ count.toNat ≤ 4 ∧ Already var s.rom file.fPos buf count :=
  ⟨already_of_writes hf hop, fun h => writes_of_already hf hop h.1 h.2⟩

/-! ## One byte -/

/-- A descriptor of `/dev/mem`, over a memory of zeros. -/
def memFile (fPos : Word) : File := ⟨some (.static 4), some .mem, fPos, 0⟩

def memOpened (fPos : Word) : System :=
  { RomfsLookup.farSystem with rom := fun _ => 0, filemap := 1, filetable := fun _ => memFile fPos }

/-- The byte that is there already. -/
theorem writes_iff_one : Writes 0x20001ff8 0 (fun _ => 0) 1 (memOpened 0x20000100) (memFile 0x20000100) :=
  (writes_iff 0x20001ff8 _ 1 rfl rfl).mpr ⟨by decide, fun i hi => by
    obtain rfl := Nat.lt_one_iff.mp hi
    decide⟩

/-- The byte does not get to its address. -/
theorem one_byte_lost :
    fdToFile 0 (memOpened 0x20000100) = some (memFile 0x20000100) ∧ (memFile 0x20000100).fOp = some .mem ∧
      ¬ Writes 0x20001ff8 0 (fun _ => 0x41) 1 (memOpened 0x20000100) (memFile 0x20000100) := by
  refine ⟨rfl, rfl, fun h => ?_⟩
  have hzero := (already_of_writes rfl rfl h).2 0 (by decide)
  exact absurd hzero (by decide)

end PikoRT.Fs.DevMem

import PikoRT.Fs.Drivers
import PikoRT.Fs.Seek

/-! # The position after a read or a write

`sys_read` and `sys_write` add whatever the driver returns to the position. A driver that
fails returns -1, which moves the position back by one; `serialchar_read` returns 0 for the
character that it has stored; and from a negative position `romfs_read` stores more than it was
asked for. -/
namespace PikoRT.Fs.Transfers
open PikoRT.Kernel.Bitops PikoRT.Libc.Printf PikoRT.Fs.Romfs PikoRT.Fs.Vfs PikoRT.Fs.Open PikoRT.Fs.Files
open PikoRT.Fs.Drivers PikoRT.Fs.OpenClose
open PikoRT.Kernel.Cbuf (isEmpty cbufInit)

inductive Call
  | read | write
  deriving DecidableEq, Repr

section

variable (dev : Devices) (fuel : ℕ) (buf : Word)

/-- What the driver returns and moves; a read of nothing does not get there. -/
def transfer (op : FileOperations) (file : File) (count : Word) (s : System) : Call → Option (Word × List Byte)
  | .read => if count = 0 then some (0, []) else read dev fuel op file count file.fPos s
  | .write => write dev op file buf count file.fPos s

def sysCall (fd : ℤ) (count : Word) (s : System) : Call → Option (Word × System)
  | .read => sysRead (drivers dev fuel buf) fd count s
  | .write => sysWrite (drivers dev fuel buf) fd count s

end

/-- The call comes back; after an error of the driver it returns a negative value and the position is
where it was, and otherwise the position has moved by the bytes, which are at most `count`. -/
def Accounted (dev : Devices) (buf : Word) (fd : ℤ) (count : Word) (s : System) (op : FileOperations) (file : File)
    (call : Call) : Prop :=
  ∃ fuel v r t f, transfer dev fuel buf op file count s call = some v ∧
    sysCall dev fuel buf fd count s call = some (r, t) ∧
    fdToFile fd t = some f ∧
    if v.1.toInt < 0 then r.toInt < 0 ∧ f.fPos = file.fPos
    else f.fPos.toInt = file.fPos.toInt + v.2.length ∧ v.2.length ≤ count.toNat

/-! ## The condition -/

/-- `n` bytes are a count without a sign, and the position behind them does not wrap around. -/
def Room (fPos : Word) (n : ℕ) : Prop := n < 2 ^ 31 ∧ fPos.toInt + n < 2 ^ 31

instance (fPos : Word) (n : ℕ) : Decidable (Room fPos n) := inferInstanceAs (Decidable (_ ∧ _))

/-- Of a file of `size` bytes whose data is at `data` on the device: the device refuses the range, or
the position is not behind the end in the unsigned comparison that takes it for a short read. -/
def RomfsKeeps (sb : SuperBlock) (size data fPos count : Word) : Prop :=
  MtdRefuses sb.mtdSize (data + fPos) (romfsCount size fPos count fPos) ∨
    ¬ (size < fPos ∧ fPos.toNat + count.toNat < 2 ^ 32) ∧ Room fPos (romfsCount size fPos count fPos).toNat

def ReadKeeps (dev : Devices) (file : File) (count : Word) (s : System) : FileOperations → Prop
  | .tmpfs => False
  | .romfs => ∃ inode fuel n, fileInode file s = some inode ∧
      strlen s.rom fuel (Romfs.fileName (romfsInode (s.superBlocks inode.iSb).rs inode.iPrivate)) = some n ∧
      RomfsKeeps (s.superBlocks inode.iSb) inode.iSize (inode.iPrivate + (16 + alignNext (n + 1))) file.fPos count
  | .mtdchar => ¬ MtdRefuses (dev.mtd file.fPrivate).size file.fPos count ∧ Room file.fPos count.toNat
  | .serialchar => count = 1 ∧ isEmpty dev.cbuf = true
  | .null => True
  | .mem | .meminfo | .zero | .random => Room file.fPos count.toNat
  | .version => Room file.fPos (min count.toNat (dev.versionLen - file.fPos).toNat)

def WriteKeeps (dev : Devices) (file : File) (count : Word) : FileOperations → Prop
  | .mtdchar => ¬ MtdRefuses (dev.mtd file.fPrivate).size file.fPos count ∧ Room file.fPos count.toNat
  | .serialchar | .null | .zero => Room file.fPos count.toNat
  | .mem => count ≤ 4 ∧ Room file.fPos count.toNat
  | .tmpfs | .romfs | .random | .version | .meminfo => False

def Keeps (dev : Devices) (op : FileOperations) (file : File) (count : Word) (s : System) : Call → Prop
  | .read => count = 0 ∨ ReadKeeps dev file count s op
  | .write => WriteKeeps dev file count op

section

variable {dev : Devices} {fuel : ℕ} {buf : Word} {fd : ℤ} {count : Word} {s : System} {op : FileOperations}
    {file : File}
  {v : Word × List Byte}

/-! ## From the driver to the call -/

theorem read_eq_none (h : hasRead op = false) (fuel : ℕ) (offset : Word) :
    read dev fuel op file count offset s = none := by
  cases op <;> first | rfl | cases h

theorem write_eq_none (h : hasWrite op = false) (offset : Word) : write dev op file buf count offset s = none := by
  cases op <;> first | rfl | cases h

/-- Whatever the driver returns is added to the position. -/
theorem sysCall_eq (hf : fdToFile fd s = some file) (hop : file.fOp = some op) (call : Call) :
    sysCall dev fuel buf fd count s call =
      (transfer dev fuel buf op file count s call).map fun v =>
        (v.1, setFile fd { file with fPos := file.fPos + v.1 } s) := by
  cases call with
  | read =>
    rw [sysCall, sysRead, hf, Option.bind_some, transfer]
    by_cases hzero : count = 0
    · rw [if_pos hzero, if_pos hzero, hzero]
      rfl
    · rw [if_neg hzero, if_neg hzero, hop, Option.bind_some]
      cases hread : hasRead op with
      | true =>
        rw [if_pos rfl]
        exact Option.map_map ..
      | false =>
        rw [if_neg (by simp), read_eq_none hread]
        rfl
  | write =>
    rw [sysCall, sysWrite, hf, Option.bind_some, transfer, hop, Option.bind_some]
    cases hwrite : hasWrite op with
    | true =>
      rw [if_pos rfl]
      exact Option.map_map ..
    | false =>
      rw [if_neg (by simp), write_eq_none hwrite]
      rfl

/-- The value of the driver is not negative and moves the position by the bytes. -/
def Moves (file : File) (count : Word) (v : Word × List Byte) : Prop :=
  0 ≤ v.1.toInt ∧ (file.fPos + v.1).toInt = file.fPos.toInt + v.2.length ∧ v.2.length ≤ count.toNat

theorem accounted_iff (hf : fdToFile fd s = some file) (hop : file.fOp = some op) (call : Call) :
    Accounted dev buf fd count s op file call ↔
      ∃ fuel v, transfer dev fuel buf op file count s call = some v ∧ Moves file count v := by
  constructor
  · intro h
    obtain ⟨fuel, v, r, t, f, hv, hr, ht, hc⟩ := h
    refine ⟨fuel, v, hv, ?_⟩
    rw [sysCall_eq hf hop, hv, Option.map_some] at hr
    obtain ⟨rfl, rfl⟩ := Prod.mk.inj (Option.some.inj hr)
    obtain rfl := Option.some.inj ((fdToFile_setFile hf).symm.trans ht)
    split at hc
    · -- a negative value does not leave the position alone
      obtain ⟨hneg, hpos⟩ := hc
      have hzero : v.1 = 0 := by simpa using hpos
      rw [hzero] at hneg
      exact absurd hneg (by decide)
    · exact ⟨by omega, hc⟩
  · intro h
    obtain ⟨fuel, v, hv, hnn, hpos, hle⟩ := h
    have hcall : sysCall dev fuel buf fd count s call = _ := sysCall_eq hf hop call
    rw [hv, Option.map_some] at hcall
    refine ⟨fuel, v, _, _, _, hv, hcall, fdToFile_setFile hf, ?_⟩
    rw [if_neg (by omega)]
    exact ⟨hpos, hle⟩

/-- A driver that returns as many bytes as it has moved. -/
theorem moves_iff (h : v.1.toNat = v.2.length) :
    Moves file count v ↔ Room file.fPos v.2.length ∧ v.2.length ≤ count.toNat := by
  have hv := BitVec.toInt_eq_toNat_cond v.1
  have hadd := BitVec.toInt_add file.fPos v.1
  have hlo := BitVec.le_toInt (x := file.fPos)
  have hhi := BitVec.toInt_lt (x := file.fPos)
  have hlt := v.1.isLt
  rw [Int.bmod_def] at hadd
  unfold Moves Room
  rw [← h]
  constructor
  · intro hm
    obtain ⟨hnn, hpos, hle⟩ := hm
    have hend := BitVec.toInt_lt (x := file.fPos + v.1)
    have hval : v.1.toInt = v.1.toNat := by
      split at hv <;> omega
    exact ⟨by omega, hle⟩
  · intro hr
    obtain ⟨⟨hsmall, hroom⟩, hle⟩ := hr
    have hval : v.1.toInt = v.1.toNat := by
      split at hv <;> omega
    refine ⟨by omega, ?_, hle⟩
    split at hadd <;> omega

/-! ## The drivers, one by one -/

theorem moves_nothing (file : File) (count : Word) : Moves file count (0, []) :=
  ⟨le_rfl, by simp, Nat.zero_le _⟩

/-- A driver that moves all it is asked for. -/
theorem moves_all {bs : List Byte} (h : bs.length = count.toNat) :
    Moves file count (count, bs) ↔ Room file.fPos count.toNat := by
  rw [moves_iff h.symm, h]
  exact and_iff_left le_rfl

/-- `mtdchar_read` and `mtdchar_write`, of what the device does. -/
theorem moves_mtdchar {r : MtdResult} {size : Word} {bs : List Byte}
    (hr : r = if MtdRefuses size file.fPos count then ⟨-22, 0, []⟩ else ⟨0, count, bs⟩) (h : bs.length = count.toNat) :
    Moves file count (if r.value < 0 then (-1, r.bytes) else (r.retlen, r.bytes)) ↔
      ¬ MtdRefuses size file.fPos count ∧ Room file.fPos count.toNat := by
  by_cases hrefuse : MtdRefuses size file.fPos count
  · rw [if_pos hrefuse] at hr
    subst hr
    refine iff_of_false (fun hm => ?_) fun hc => hc.1 hrefuse
    exact absurd hm.1 (by decide)
  · rw [if_neg hrefuse] at hr
    subst hr
    show Moves file count (count, bs) ↔ _
    rw [moves_all h]
    exact (and_iff_right hrefuse).symm

/-- The count that `romfs_read` asks the device for is more than the caller's when the position is
behind the end and the sum does not wrap around. -/
theorem romfsCount_le_iff (size fPos : Word) :
    (romfsCount size fPos count fPos).toNat ≤ count.toNat ↔
      ¬ (size < fPos ∧ fPos.toNat + count.toNat < 2 ^ 32) := by
  have hcount := count.isLt
  have hpos := fPos.isLt
  have hsize := size.isLt
  rw [toNat_romfsCount, BitVec.lt_def]
  split <;> omega

theorem moves_romfs (sb : SuperBlock) (size data : Word) :
    Moves file count
      (let r := mtdRead s.rom ⟨sb.mtdSize, sb.rs⟩ (data + file.fPos) (romfsCount size file.fPos count file.fPos)
       (r.retlen, r.bytes)) ↔ RomfsKeeps sb size data file.fPos count := by
  rw [mtdRead_eq]
  by_cases hrefuse : MtdRefuses sb.mtdSize (data + file.fPos) (romfsCount size file.fPos count file.fPos)
  · simp only [if_pos hrefuse]
    exact iff_of_true (moves_nothing file count) (.inl hrefuse)
  · simp only [if_neg hrefuse]
    rw [moves_iff (by simp), length_memcpy, romfsCount_le_iff]
    exact and_comm.trans (or_iff_right hrefuse).symm

theorem min_toNat (a b : Word) : (if a < b then a else b).toNat = min a.toNat b.toNat := by
  split
  · rename_i h
    exact (Nat.min_eq_left (BitVec.le_def.mp (BitVec.le_of_lt h))).symm
  · rename_i h
    exact (Nat.min_eq_right (BitVec.not_lt.mp h)).symm

/-- A driver that does not need the fuel. -/
theorem exists_iff {o : ℕ → Option (Word × List Byte)} (h : ∀ fuel, o fuel = some v) :
    (∃ fuel w, o fuel = some w ∧ Moves file count w) ↔ Moves file count v := by
  constructor
  · intro he
    obtain ⟨fuel, w, hw, hm⟩ := he
    rw [h, Option.some.injEq] at hw
    exact hw ▸ hm
  · exact fun hm => ⟨0, v, h 0, hm⟩

theorem not_exists {o : ℕ → Option (Word × List Byte)} (h : ∀ fuel, o fuel = none) :
    ¬ ∃ fuel w, o fuel = some w ∧ Moves file count w := by
  intro he
  obtain ⟨fuel, w, hw, -⟩ := he
  rw [h] at hw
  cases hw

/-- `memcpy` of a count with a sign does not come back. -/
theorem room_nonneg (h : Room file.fPos count.toNat) : ¬ count.toInt < 0 := by
  have hcount := BitVec.toInt_eq_toNat_cond count
  have hsmall := h.1
  split at hcount <;> omega

theorem moves_serialchar : (∃ (_ : ℕ) (v : _), serialcharRead dev.cbuf count = some v ∧ Moves file count v) ↔
    count = 1 ∧ isEmpty dev.cbuf = true := by
  by_cases hone : count = 1
  · subst hone
    refine (exists_iff fun _ => rfl).trans ?_
    cases he : isEmpty dev.cbuf with
    | true => exact iff_of_true (moves_nothing file 1) ⟨rfl, rfl⟩
    | false =>
      refine iff_of_false (fun hm => ?_) fun hc => Bool.noConfusion hc.2
      -- the character is stored, and the position stays
      have hpos : (file.fPos + 0).toInt = file.fPos.toInt + 1 := hm.2.1
      rw [add_zero] at hpos
      omega
  · refine iff_of_false (not_exists fun _ => ?_) fun hc => hone hc.1
    exact if_neg hone

theorem moves_random : (∃ (_ : ℕ) (v : _), readRandom dev.random count = some v ∧ Moves file count v) ↔
    Room file.fPos count.toNat := by
  by_cases hneg : count.toInt < 0
  · exact iff_of_false (not_exists fun _ => if_pos hneg) fun hr => room_nonneg hr hneg
  · by_cases hleft : count.toNat ≤ dev.random.remainingBytes
    · refine (exists_iff fun _ => (if_neg hneg).trans (if_pos hleft)).trans (moves_all ?_)
      rw [List.length_map, List.length_range]
    · refine (exists_iff fun _ => (if_neg hneg).trans (if_neg hleft)).trans (moves_all ?_)
      rw [List.length_map, List.length_range]

theorem moves_version : Moves file count (readVersion s.rom dev.versionPtr dev.versionLen count file.fPos) ↔
    Room file.fPos (min count.toNat (dev.versionLen - file.fPos).toNat) := by
  rw [readVersion, moves_iff (length_strncpy ..).symm, length_strncpy, min_toNat]
  exact and_iff_left (Nat.min_le_left ..)

theorem reads_iff : (∃ fuel v, read dev fuel op file count file.fPos s = some v ∧ Moves file count v) ↔
    ReadKeeps dev file count s op := by
  cases op with
  | tmpfs => exact iff_of_false (not_exists fun _ => rfl) id
  | romfs =>
    constructor
    · intro h
      obtain ⟨fuel, v, hv, hm⟩ := h
      obtain ⟨inode, hi, hv⟩ := Option.bind_eq_some_iff.mp hv
      obtain ⟨n, hn, rfl⟩ := Option.map_eq_some_iff.mp hv
      exact ⟨inode, fuel, n, hi, hn, (moves_romfs _ _ _).mp hm⟩
    · intro h
      obtain ⟨inode, fuel, n, hi, hn, hk⟩ := h
      have hm := (moves_romfs (s := s) _ _ _).mpr hk
      exact ⟨fuel, _, romfsRead_eq hi hn count file.fPos, hm⟩
  | mtdchar => exact (exists_iff fun _ => rfl).trans (moves_mtdchar (mtdRead_eq ..) (length_memcpy _))
  | serialchar => exact moves_serialchar
  | mem | meminfo => exact (exists_iff fun _ => rfl).trans (moves_all (length_memcpy _))
  | null => exact (exists_iff fun _ => rfl).trans (iff_of_true (moves_nothing file count) trivial)
  | zero => exact (exists_iff fun _ => rfl).trans (moves_all List.length_replicate)
  | random => exact moves_random
  | version => exact (exists_iff fun _ => rfl).trans moves_version

theorem write_moves_iff : (∃ (_ : ℕ) (v : _), write dev op file buf count file.fPos s = some v ∧ Moves file count v) ↔
    WriteKeeps dev file count op := by
  cases op with
  | mtdchar => exact (exists_iff fun _ => rfl).trans (moves_mtdchar (mtdWrite_eq ..) (length_memcpy _))
  | serialchar =>
    by_cases hneg : count.toInt < 0
    · exact iff_of_false (not_exists fun _ => if_pos hneg) fun hr => room_nonneg hr hneg
    · exact (exists_iff fun _ => if_neg hneg).trans (moves_all (length_memcpy _))
  | mem =>
    by_cases hfour : 4 < count
    · refine iff_of_false (not_exists fun _ => if_pos hfour) fun hc => ?_
      exact absurd hc.1 (BitVec.not_le.mpr hfour)
    · refine ((exists_iff fun _ => if_neg hfour).trans (moves_all (length_memcpy _))).trans ?_
      exact (and_iff_right (BitVec.not_lt.mp hfour)).symm
  | null | zero => exact (exists_iff fun _ => rfl).trans (moves_all (length_memcpy _))
  | tmpfs | romfs | random | version | meminfo => exact iff_of_false (not_exists fun _ => rfl) id

end

/-- **Failed transfers leave the position alone, and the others move it by what they transfer, exactly
when the driver does not fail, its count is the number of bytes, and the position has room for them.** -/
theorem accounted_iff_keeps (dev : Devices) (buf : Word) (fd : ℤ) (count : Word) (s : System) (op : FileOperations)
    (file : File) (call : Call) (hf : fdToFile fd s = some file) (hop : file.fOp = some op) :
    Accounted dev buf fd count s op file call ↔ Keeps dev op file count s call := by
  rw [accounted_iff hf hop]
  cases call with
  | read =>
    by_cases hzero : count = 0
    · refine iff_of_true ⟨0, (0, []), if_pos hzero, moves_nothing file count⟩ (.inl hzero)
    · simp only [transfer, if_neg hzero]
      rw [reads_iff]
      exact (or_iff_right hzero).symm
  | write => exact write_moves_iff

/-- A device of 1024 bytes, and nothing received. -/
def smallDevices : Devices where
  mtd _ := ⟨1024, 0x20001000⟩
  cbuf := cbufInit (fun _ => 0) 16
  random := ⟨0, 0, fun _ => 0⟩
  versionPtr := 0x08004000
  versionLen := 60

/-- A descriptor of the device. -/
def mtdFile (fPos : Word) : File := ⟨some (.static 1), some .mtdchar, fPos, 0x20000400⟩

def mtdSystem (fPos : Word) : System := { longSystem with filemap := 1, filetable := fun _ => mtdFile fPos }

/-- The last 24 bytes. -/
theorem accounted_lastBytes : Accounted smallDevices 0 0 24 (mtdSystem 1000) .mtdchar (mtdFile 1000) .read :=
  (accounted_iff_keeps smallDevices 0 0 24 (mtdSystem 1000) .mtdchar (mtdFile 1000) .read rfl rfl).mpr
    (.inr ⟨by decide, by decide⟩)

/-- Beyond the end: the read fails, and the position goes from 0 to -1. -/
theorem failed_read_moves :
    (∃ t, sysCall smallDevices 0 0 0 2048 (mtdSystem 0) .read = some (-1, t) ∧ (t.filetable 0).fPos = -1) ∧
    ¬ Accounted smallDevices 0 0 2048 (mtdSystem 0) .mtdchar (mtdFile 0) .read := by
  have hread : mtdcharRead (mtdSystem 0).rom (smallDevices.mtd (mtdFile 0).fPrivate) 2048 0 = (-1, []) := by
    rw [mtdcharRead, mtdRead_eq, if_pos (by decide)]
    rfl
  have htransfer : ∀ fuel, transfer smallDevices fuel 0 .mtdchar (mtdFile 0) 2048 (mtdSystem 0) .read =
    some (-1, []) :=
    fun _ => congrArg some hread
  constructor
  · have hfile : fdToFile 0 (mtdSystem 0) = some (mtdFile 0) := rfl
    rw [sysCall_eq hfile rfl, htransfer]
    exact ⟨_, rfl, rfl⟩
  · rw [accounted_iff rfl rfl]
    intro h
    obtain ⟨fuel, v, hv, hm⟩ := h
    rw [htransfer, Option.some.injEq] at hv
    rw [← hv] at hm
    exact absurd hm.1 (by decide)

end PikoRT.Fs.Transfers

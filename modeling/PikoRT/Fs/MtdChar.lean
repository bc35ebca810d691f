import PikoRT.Fs.Mtdram
import PikoRT.Lib.Volumes

/-! # `/dev/mtd0` (`drivers/mtd/mtdchar.c`)

Several descriptors of the device, and what they store in it is kept. The inode of the device
has no size, so that `SEEK_SET` goes to the start for every offset and `SEEK_END` to the offset. -/
namespace PikoRT.Fs.MtdChar
open PikoRT.Kernel.Bitops PikoRT.Libc.Printf PikoRT.Lib.Bytes PikoRT.Lib.Run PikoRT.Lib.Volumes
open PikoRT.Fs.Romfs PikoRT.Fs.Vfs PikoRT.Fs.Open PikoRT.Fs.Files PikoRT.Fs.Mtdram
open PikoRT.Fs.Drivers (MtdRefuses)

/-- `mtdchar_read`, with the bytes that it stores. -/
def mtdcharRead (mtd : Mtd) (count offset : Word) (m : Ram) : Word × List Byte × Ram :=
  let r := mtdRead mtd offset count m
  (if r.1.value < 0 then -1 else r.1.retlen, r.1.bytes, r.2)

/-- `mtdchar_write`. -/
def mtdcharWrite (mtd : Mtd) (buf : ℕ → Byte) (count offset : Word) (m : Ram) : Word × Ram :=
  let r := Mtdram.mtdWrite mtd offset count buf m
  (if r.1 < 0 then -1 else r.2.1, r.2.2)

/-- `mtdchar_fops`, over the memory that there is at a call. -/
def mtdcharFops (mtd : Word → Mtd) (buf : ℕ → Byte) (m : Ram) : Files.Drivers where
  read op file count offset _ :=
    match op with
    | .mtdchar => some (mtdcharRead (mtd file.fPrivate) count offset m).1
    | _ => none
  write op file count offset _ :=
    match op with
    | .mtdchar => some (mtdcharWrite (mtd file.fPrivate) buf count offset m).1
    | _ => none

structure State where
  sys : System
  ram : Ram
  /-- What each call has returned, and the bytes that a read has stored. -/
  log : List (Word × List Byte)

inductive Act where
  | read (fd : ℕ) (count : Word)
  | write (fd : ℕ) (count : Word) (buf : ℕ → Byte)
  | lseek (fd : ℕ) (offset whence : Word)

def Act.fd : Act → ℕ
  | .read fd _ | .write fd _ _ | .lseek fd _ _ => fd

/-- `sys_read`, `sys_write` and `sys_lseek`. A read of nothing does not get to the driver. -/
def step (mtd : Word → Mtd) (x : State) : Act → Option State
  | .read fd count =>
    (fdToFile fd x.sys).bind fun file =>
      (sysRead (mtdcharFops mtd (fun _ => 0) x.ram) fd count x.sys).map fun r =>
        let d := if count = 0 then ([], x.ram) else (mtdcharRead (mtd file.fPrivate) count file.fPos x.ram).2
        ⟨r.2, d.2, x.log ++ [(r.1, d.1)]⟩
  | .write fd count buf =>
    (fdToFile fd x.sys).bind fun file =>
      (sysWrite (mtdcharFops mtd buf x.ram) fd count x.sys).map fun r =>
        ⟨r.2, (mtdcharWrite (mtd file.fPrivate) buf count file.fPos x.ram).2, x.log ++ [(r.1, [])]⟩
  | .lseek fd offset whence =>
    (sysLseek fd offset whence x.sys).map fun r => ⟨r.2, x.ram, x.log ++ [(r.1, [])]⟩

/-! ## What it is for -/

/-- A position as the device takes it, an `off_t`. -/
def positions : Positions Word where
  place p := p.toInt
  advance p n := p + BitVec.ofNat 32 n
  back p := p - 1

/-- Where a seek on a device without a size goes. -/
def seekTarget (offset whence pos : Word) : Option Word :=
  if whence = SEEK_SET then some 0
  else if whence = SEEK_CUR then some (pos + offset)
  else if whence = SEEK_END then some offset
  else none

def request : Act → Request ℕ Word Byte
  | .read fd count => .read fd count.toNat
  | .write fd count buf => .write fd (bufBytes buf count)
  | .lseek fd offset whence => .seek fd (seekTarget offset whence)

/-- How a caller sees an answer. -/
def shown : Answer Byte → Word × List Byte
  | .moved n items => (BitVec.ofNat 32 n, items)
  | .refused => (-1, [])

/-- The bytes of the device, and the positions in the file table. -/
def volumeOf (mtd : Mtd) (x : State) : Volume ℕ Word Byte where
  cells := bytesAt x.ram.byte mtd.priv mtd.size.toNat
  cursor fd := (x.sys.filetable fd).fPos

/-- The descriptor is one of the device whose `struct mtd_info` is at `a`. -/
def OnDevice (a : Word) (s : System) (fd : ℕ) : Prop :=
  ∃ file inode, fdToFile fd s = some file ∧ fileInode file s = some inode ∧ file.fOp = some .mtdchar ∧
    file.fPrivate = a ∧ inode.iSize = 0

/-! ## The file table -/

section

variable {mtd : Word → Mtd} {dev : Mtd} {a : Word} {s : System} {x : State} {fd k : ℕ} {file : File} {inode : Inode}
    {pos : Word}

theorem filetable_of_fdToFile (h : fdToFile fd s = some file) : s.filetable fd = file := by
  unfold fdToFile at h
  split at h
  · exact Option.some.inj h
  · cases h

/-- Setting the position of a file sets its cursor. -/
theorem cursor_setFile (h : fdToFile fd s = some file) (pos : Word) :
    (fun k => ((setFile fd { file with fPos := pos } s).filetable k).fPos) =
      Function.update (fun k => (s.filetable k).fPos) fd pos := by
  funext k
  by_cases hk : k = fd
  · subst hk
    simp [setFile]
  · simp [setFile, hk]

theorem onDevice_setFile (h : fdToFile fd s = some file) (pos : Word) (hk : OnDevice a s k) :
    OnDevice a (setFile fd { file with fPos := pos } s) k := by
  obtain ⟨f, inode, hf, hi, hop, hpriv, hsize⟩ := hk
  by_cases heq : k = fd
  · subst heq
    obtain rfl := Option.some.inj (h.symm.trans hf)
    exact ⟨_, inode, fdToFile_setFile h, hi, hop, hpriv, hsize⟩
  · refine ⟨f, inode, ?_, hi, hop, hpriv, hsize⟩
    rw [fdToFile_setFile_of_ne (by omega) (by omega)]
    exact hf

/-! ## The device -/

theorem length_cells (dev : Mtd) (x : State) : (volumeOf dev x).cells.length = dev.size.toNat := length_bytesAt ..

/-- The device refuses what does not fit in the volume. -/
theorem fits_iff {n pos : Word} : Within (volumeOf dev x).cells pos.toInt n.toNat ↔ ¬ MtdRefuses dev.size pos n := by
  rw [mtdRefuses_iff_not_fits, not_not, Within, length_cells]

theorem toNat_place {n : ℕ} {cells : List Byte} (h : Within cells pos.toInt n) : pos.toInt.toNat = pos.toNat := by
  have hint := BitVec.toInt_eq_toNat_cond pos
  have hlt := pos.isLt
  obtain ⟨hnonneg, -, -⟩ := h
  split at hint <;> omega

theorem mtdcharRead_eq (dev : Mtd) (count pos : Word) (x : State) :
    mtdcharRead dev count pos x.ram =
      if Within (volumeOf dev x).cells pos.toInt count.toNat then
        (count, piece (volumeOf dev x).cells pos.toInt.toNat count.toNat, (mtdRead dev pos count x.ram).2)
      else (-1, [], x.ram) := by
  by_cases hfits : Within (volumeOf dev x).cells pos.toInt count.toNat
  · have hend := hfits.end_le
    rw [length_cells] at hend
    have hpiece : piece (volumeOf dev x).cells pos.toInt.toNat count.toNat =
        bytesAt x.ram.byte (dev.priv + pos) count.toNat := by
      refine (take_drop_bytesAt _ _ hend).trans ?_
      rw [toNat_place hfits, BitVec.ofNat_toNat, BitVec.setWidth_eq]
    have hdo : Fits dev (.read pos count) := not_not.mp fun h => fits_iff.mp hfits (mtdRefuses_iff_not_fits.mpr h)
    have hread := read_succeeds pos count x.ram hdo
    have hbytes : (mtdRead dev pos count x.ram).1.bytes = bytesAt x.ram.byte (dev.priv + pos) count.toNat :=
      hread.reads pos count rfl
    have hvalue : (mtdRead dev pos count x.ram).1.value = 0 := hread.value
    have hretlen : (mtdRead dev pos count x.ram).1.retlen = count := hread.retlen _ rfl
    rw [if_pos hfits, mtdcharRead, hvalue, hbytes, hretlen, hpiece]
    rfl
  · have hrefuse : MtdRefuses dev.size pos count := not_not.mp (fits_iff.not.mp hfits)
    have heq : mtdRead dev pos count x.ram = (⟨-22, 0, []⟩, x.ram) := if_pos hrefuse
    rw [if_neg hfits, mtdcharRead, heq]
    rfl

/-- A read leaves the bytes of the memory alone. -/
theorem byte_mtdRead (dev : Mtd) («from» len : Word) (m : Ram) : (mtdRead dev «from» len m).2.byte = m.byte := by
  unfold mtdRead
  split
  · rfl
  · split
    · rfl
    · rw [copyOut_eq]

theorem mtdcharWrite_eq (dev : Mtd) (buf : ℕ → Byte) (count pos : Word) (x : State) :
    (mtdcharWrite dev buf count pos x.ram).1 =
        (if Within (volumeOf dev x).cells pos.toInt count.toNat then count else -1) ∧
      bytesAt (mtdcharWrite dev buf count pos x.ram).2.byte dev.priv dev.size.toNat =
        (if Within (volumeOf dev x).cells pos.toInt count.toNat then
          overwrite (volumeOf dev x).cells pos.toInt.toNat (bufBytes buf count)
        else (volumeOf dev x).cells) ∧
      ∀ b, ¬ Inside dev b → (mtdcharWrite dev buf count pos x.ram).2.byte b = x.ram.byte b := by
  by_cases hfits : Within (volumeOf dev x).cells pos.toInt count.toNat
  · have hend := hfits.end_le
    rw [length_cells] at hend
    have hdo : Fits dev (.write pos count buf) := not_not.mp fun h => fits_iff.mp hfits (mtdRefuses_iff_not_fits.mpr h)
    have hwrite := write_succeeds pos count buf x.ram hdo
    have hvalue : (Mtdram.mtdWrite dev pos count buf x.ram).1 = 0 := hwrite.value
    have hretlen : (Mtdram.mtdWrite dev pos count buf x.ram).2.1 = count := hwrite.retlen _ rfl
    have hput : ∀ j < dev.size.toNat,
      (Mtdram.mtdWrite dev pos count buf x.ram).2.2.byte (dev.priv + BitVec.ofNat 32 j) =
        ((Op.write pos count buf).puts j).getD (x.ram.byte (dev.priv + BitVec.ofNat 32 j)) := hwrite.effect.put
    rw [if_pos hfits, if_pos hfits]
    refine ⟨?_, List.ext_getElem? fun j => ?_, hwrite.effect.outside⟩
    · rw [mtdcharWrite, hvalue, hretlen]
      rfl
    · rw [getElem?_overwrite (by rw [length_cells, length_bufBytes]; exact hend), length_bufBytes]
      by_cases hj : j < dev.size.toNat
      · have hcell : (volumeOf dev x).cells[j]? = some (x.ram.byte (dev.priv + BitVec.ofNat 32 j)) :=
          getElem?_bytesAt _ _ hj
        rw [getElem?_bytesAt _ _ hj, hcell]
        refine (congrArg some (hput j hj)).trans ?_
        rw [Op.puts, toNat_place hfits]
        by_cases hin : pos.toNat ≤ j ∧ j < pos.toNat + count.toNat
        · rw [if_pos hin, if_pos hin, getElem?_bufBytes _ (by omega), Option.getD_some]
        · rw [if_neg hin, if_neg hin, Option.getD_none]
      · rw [List.getElem?_eq_none (by rw [length_bytesAt]; omega), if_neg (by omega),
          List.getElem?_eq_none (by rw [length_cells]; omega)]
  · have hrefuse : MtdRefuses dev.size pos count := not_not.mp (fits_iff.not.mp hfits)
    have heq : Mtdram.mtdWrite dev pos count buf x.ram = (-22, 0, x.ram) := if_pos hrefuse
    rw [if_neg hfits, if_neg hfits, mtdcharWrite, heq]
    exact ⟨rfl, rfl, fun _ _ => rfl⟩

/-! ## One call -/

/-- What a call does, as the volume shows it. -/
structure Serves (mtd : Word → Mtd) (a : Word) (x : State) (act : Act) (y : State) : Prop where
  log : y.log = x.log ++ [shown (serve positions (volumeOf (mtd a) x) (request act)).1]
  volume : volumeOf (mtd a) y = (serve positions (volumeOf (mtd a) x) (request act)).2
  outside : ∀ b, ¬ Inside (mtd a) b → y.ram.byte b = x.ram.byte b
  stays : ∀ k, OnDevice a x.sys k → OnDevice a y.sys k

theorem step_read (h : OnDevice a x.sys fd) (count : Word) :
    ∃ y, step mtd x (.read fd count) = some y ∧ Serves mtd a x (.read fd count) y := by
  obtain ⟨file, inode, hf, -, hop, hpriv, -⟩ := id h
  have hpos : (volumeOf (mtd a) x).cursor fd = file.fPos := congrArg File.fPos (filetable_of_fdToFile hf)
  by_cases hzero : count = 0
  · subst hzero
    have hsys : sysRead (mtdcharFops mtd (fun _ => 0) x.ram) fd 0 x.sys =
        some (0, setFile fd { file with fPos := file.fPos + 0 } x.sys) := by
      rw [sysRead, hf, Option.bind_some, if_pos rfl]
    have hstep : step mtd x (.read fd 0) =
        some ⟨setFile fd { file with fPos := file.fPos + 0 } x.sys, x.ram, x.log ++ [(0, [])]⟩ := by
      rw [step, hf, Option.bind_some, hsys, Option.map_some, if_pos rfl]
    refine ⟨_, hstep, rfl, ?_, fun _ _ => rfl, fun k hk => onDevice_setFile hf _ hk⟩
    show volumeOf (mtd a) _ = volumeOf (mtd a) x
    refine Volume.ext rfl ((cursor_setFile hf _).trans ?_)
    rw [add_zero]
    exact Function.update_eq_self_iff.mpr hpos.symm
  · have hread := mtdcharRead_eq (mtd a) count file.fPos x
    have hn : count.toNat ≠ 0 := fun hz => hzero (BitVec.eq_of_toNat_eq hz)
    have hsys : sysRead (mtdcharFops mtd (fun _ => 0) x.ram) fd count x.sys =
        some ((mtdcharRead (mtd a) count file.fPos x.ram).1,
          setFile fd { file with fPos := file.fPos + (mtdcharRead (mtd a) count file.fPos x.ram).1 } x.sys) := by
      rw [sysRead, hf, Option.bind_some, if_neg hzero, hop, Option.bind_some, ← hpriv]
      rfl
    have hstep : step mtd x (.read fd count) = some
        ⟨setFile fd { file with fPos := file.fPos + (mtdcharRead (mtd a) count file.fPos x.ram).1 } x.sys,
          (mtdcharRead (mtd a) count file.fPos x.ram).2.2,
          x.log ++
          [((mtdcharRead (mtd a) count file.fPos x.ram).1, (mtdcharRead (mtd a) count file.fPos x.ram).2.1)]⟩ := by
      rw [step, hf, Option.bind_some, hsys, Option.map_some, if_neg hzero, hpriv]
    have hbyte : (mtdcharRead (mtd a) count file.fPos x.ram).2.2.byte = x.ram.byte := byte_mtdRead ..
    refine ⟨_, hstep, ?_, ?_, fun b _ => congrFun hbyte b, fun k hk => onDevice_setFile hf _ hk⟩
    · simp only [request, serve, if_neg hn, hpos, positions]
      rw [hread]
      split <;> simp only [shown, BitVec.ofNat_toNat, BitVec.setWidth_eq]
    · have hcursor := cursor_setFile hf (file.fPos + (mtdcharRead (mtd a) count file.fPos x.ram).1)
      simp only [request, serve, if_neg hn, hpos, positions]
      rw [hread] at hcursor ⊢
      by_cases hfits : Within (volumeOf (mtd a) x).cells file.fPos.toInt count.toNat
      · simp only [if_pos hfits, BitVec.ofNat_toNat, BitVec.setWidth_eq] at hcursor ⊢
        exact Volume.ext (congrArg (bytesAt · _ _) (byte_mtdRead ..)) hcursor
      · simp only [if_neg hfits, sub_eq_add_neg] at hcursor ⊢
        exact Volume.ext rfl hcursor

theorem step_write (h : OnDevice a x.sys fd) (count : Word) (buf : ℕ → Byte) :
    ∃ y, step mtd x (.write fd count buf) = some y ∧ Serves mtd a x (.write fd count buf) y := by
  obtain ⟨file, inode, hf, -, hop, hpriv, -⟩ := id h
  have hpos : (volumeOf (mtd a) x).cursor fd = file.fPos := congrArg File.fPos (filetable_of_fdToFile hf)
  obtain ⟨hvalue, hcells, hout⟩ := mtdcharWrite_eq (mtd a) buf count file.fPos x
  have hsys : sysWrite (mtdcharFops mtd buf x.ram) fd count x.sys =
      some ((mtdcharWrite (mtd a) buf count file.fPos x.ram).1,
        setFile fd { file with fPos := file.fPos + (mtdcharWrite (mtd a) buf count file.fPos x.ram).1 } x.sys) := by
    rw [sysWrite, hf, Option.bind_some, hop, Option.bind_some, ← hpriv]
    rfl
  have hstep : step mtd x (.write fd count buf) = some
      ⟨setFile fd { file with fPos := file.fPos + (mtdcharWrite (mtd a) buf count file.fPos x.ram).1 } x.sys,
        (mtdcharWrite (mtd a) buf count file.fPos x.ram).2,
        x.log ++ [((mtdcharWrite (mtd a) buf count file.fPos x.ram).1, [])]⟩ := by
    rw [step, hf, Option.bind_some, hsys, Option.map_some, hpriv]
  have hcursor := cursor_setFile hf (file.fPos + (mtdcharWrite (mtd a) buf count file.fPos x.ram).1)
  refine ⟨_, hstep, ?_, ?_, hout, fun k hk => onDevice_setFile hf _ hk⟩
  · simp only [request, serve, hpos, positions, length_bufBytes]
    rw [hvalue]
    split <;> simp only [shown, BitVec.ofNat_toNat, BitVec.setWidth_eq]
  · simp only [request, serve, hpos, positions, length_bufBytes]
    rw [hvalue] at hcursor ⊢
    by_cases hfits : Within (volumeOf (mtd a) x).cells file.fPos.toInt count.toNat
    · simp only [if_pos hfits, BitVec.ofNat_toNat, BitVec.setWidth_eq] at hcells hcursor ⊢
      exact Volume.ext hcells hcursor
    · simp only [if_neg hfits, sub_eq_add_neg] at hcells hcursor ⊢
      exact Volume.ext hcells hcursor

/-- A seek where the size is 0: `%` gives the dividend back. -/
theorem seekPos_zero (fPos offset whence : Word) : seekPos fPos 0 offset whence = seekTarget offset whence fPos := by
  unfold seekPos seekTarget
  by_cases hset : whence = SEEK_SET
  · rw [if_pos hset, if_pos hset]
    by_cases hz : offset = 0
    · simp [hz]
    · simp
  · simp [hset]

theorem step_lseek (h : OnDevice a x.sys fd) (offset whence : Word) :
    ∃ y, step mtd x (.lseek fd offset whence) = some y ∧ Serves mtd a x (.lseek fd offset whence) y := by
  obtain ⟨file, inode, hf, hi, hop, -, hsize⟩ := id h
  have hpos : (volumeOf (mtd a) x).cursor fd = file.fPos := congrArg File.fPos (filetable_of_fdToFile hf)
  cases ht : seekTarget offset whence file.fPos with
  | none =>
    have hseek : sysLseek fd offset whence x.sys = some (-1, x.sys) := by
      simp only [sysLseek, hf, hi, hop, hsize, seekPos_zero, ht, Option.bind_some, Option.map_some]
    rw [step, hseek, Option.map_some]
    refine ⟨_, rfl, ?_, ?_, fun _ _ => rfl, fun k hk => hk⟩
    · simp only [request, serve, hpos, ht, shown]
    · simp only [request, serve, hpos, ht]
      rfl
  | some pos =>
    have hseek : sysLseek fd offset whence x.sys = some (0, setFile fd { file with fPos := pos } x.sys) := by
      simp only [sysLseek, hf, hi, hop, hsize, seekPos_zero, ht, Option.bind_some, Option.map_some]
    rw [step, hseek, Option.map_some]
    refine ⟨_, rfl, ?_, ?_, fun _ _ => rfl, fun k hk => onDevice_setFile hf _ hk⟩
    · simp only [request, serve, hpos, ht, shown]
      rfl
    · simp only [request, serve, hpos, ht]
      exact Volume.ext rfl (cursor_setFile hf pos)

theorem step_serves (act : Act) (h : OnDevice a x.sys act.fd) :
    ∃ y, step mtd x act = some y ∧ Serves mtd a x act y := by
  cases act with
  | read fd count => exact step_read h count
  | write fd count buf => exact step_write h count buf
  | lseek fd offset whence => exact step_lseek h offset whence

end

/-! ## Every run -/

/-- What a run does. -/
structure ServesAll (mtd : Word → Mtd) (a : Word) (x : State) (acts : List Act) (y : State) : Prop where
  log : y.log = x.log ++ (serveAll positions (volumeOf (mtd a) x) (acts.map request)).1.map shown
  volume : volumeOf (mtd a) y = (serveAll positions (volumeOf (mtd a) x) (acts.map request)).2
  outside : ∀ b, ¬ Inside (mtd a) b → y.ram.byte b = x.ram.byte b
  stays : ∀ k, OnDevice a x.sys k → OnDevice a y.sys k

theorem run_serves {mtd : Word → Mtd} {a : Word} {x : State} {acts : List Act}
    (hopen : ∀ act ∈ acts, OnDevice a x.sys act.fd) :
    ∃ y, run (step mtd) x acts = some y ∧ ServesAll mtd a x acts y := by
  induction acts generalizing x with
  | nil => exact ⟨x, rfl, (List.append_nil _).symm, rfl, fun _ _ => rfl, fun _ hk => hk⟩
  | cons act acts ih =>
    obtain ⟨hfirst, hrest⟩ := List.forall_mem_cons.mp hopen
    obtain ⟨y, hy, hserves⟩ := step_serves act hfirst
    obtain ⟨z, hz, hall⟩ := ih fun b hb => hserves.stays _ (hrest b hb)
    refine ⟨z, by rw [run_cons, hy]; exact hz, ?_, ?_, fun b hb => (hall.outside b hb).trans (hserves.outside b hb),
      fun k hk => hall.stays k (hserves.stays k hk)⟩
    · rw [hall.log, hserves.log, hserves.volume, List.append_assoc]
      rfl
    · rw [hall.volume, hserves.volume]
      rfl

/-- **The device is a volume.** Whatever is read, written and sought through the descriptors of the
device, in whatever order, the calls come back with what a volume with a cursor for every descriptor
answers, the device has its cells and the file table its cursors, and the memory around it is left alone. -/
theorem runs_served (mtd : Word → Mtd) (a : Word) (x : State) (acts : List Act)
    (hopen : ∀ act ∈ acts, OnDevice a x.sys act.fd) :
    ∃ y, run (step mtd) x acts = some y ∧
      y.log = x.log ++ (serveAll positions (volumeOf (mtd a) x) (acts.map request)).1.map shown ∧
      volumeOf (mtd a) y = (serveAll positions (volumeOf (mtd a) x) (acts.map request)).2 ∧
      (∀ b, ¬ Inside (mtd a) b → y.ram.byte b = x.ram.byte b) ∧ ∀ k, OnDevice a x.sys k → OnDevice a y.sys k := by
  obtain ⟨y, hy, hall⟩ := run_serves hopen
  exact ⟨y, hy, hall.log, hall.volume, hall.outside, hall.stays⟩

/-- A device of 16 bytes. -/
def mtdram : Mtd := ⟨⟨16, 0x20010000⟩, 0⟩

/-- Every descriptor is one of `/dev/mtd0`, whose `struct mtd_info` is at `0x20000400`. -/
def opened : State where
  sys := { OpenClose.longSystem with
    inodes := fun _ => ⟨0, 9001, 0, .tmpfs, some .mtdchar, 0, 0x20000400⟩
    filetable := fun _ => ⟨some (.static 1), some .mtdchar, 0, 0x20000400⟩ }
  ram := ⟨fun _ => 0, []⟩
  log := []

theorem onDevice_opened {fd : ℕ} (h : fd < 8) : OnDevice 0x20000400 opened.sys fd :=
  ⟨_, _, if_pos ⟨by omega, by simp only [FILE_MAX]; omega⟩, rfl, rfl, rfl, rfl⟩

def letters (i : ℕ) : Byte := BitVec.ofNat 8 (97 + i)

/-- Three bytes are written, and the last two of them and the one behind them are read elsewhere. -/
def writeAndRead : List Act := [.write 0 3 letters, .lseek 1 1 SEEK_END, .read 1 3, .read 1 16]

theorem runs_served_writeAndRead : ∃ y, run (step fun _ => mtdram) opened writeAndRead = some y ∧
    y.log = [(3, []), (0, []), (3, [98, 99, 0]), (-1, [])] := by
  obtain ⟨y, hy, hlog, -⟩ := runs_served (fun _ => mtdram) 0x20000400 opened writeAndRead (by
    simp only [writeAndRead, List.forall_mem_cons]
    exact ⟨onDevice_opened (by decide), onDevice_opened (by decide), onDevice_opened (by decide),
      onDevice_opened (by decide), fun _ h => (nomatch h)⟩)
  exact ⟨y, hy, hlog.trans (by decide +kernel)⟩

/-- A call that stores something in the bytes from `p` to `p + n`. -/
def Overwrites (dev : Mtd) (p n : ℕ) (x : State) : Act → Prop
  | .write fd count _ => ¬ MtdRefuses dev.size (x.sys.filetable fd).fPos count ∧
      (x.sys.filetable fd).fPos.toNat < p + n ∧ p < (x.sys.filetable fd).fPos.toNat + count.toNat
  | .read .. | .lseek .. => False

section

variable {mtd : Word → Mtd} {a : Word} {x y z : State} {fd fd' : ℕ} {p n : ℕ} {mid : List Act}

theorem not_writes {act : Act} (h : ¬ Overwrites (mtd a) p n x act) {i : ℕ} (hi : i < n) :
    ¬ Writes positions (volumeOf (mtd a) x) (p + i) (request act) := by
  cases act with
  | read fd count => exact id
  | lseek fd offset whence => exact id
  | write fd count buf =>
    intro hw
    obtain ⟨hfits, hle, hlt⟩ := hw
    rw [length_bufBytes] at hfits hlt
    have hplace : (positions.place ((volumeOf (mtd a) x).cursor fd)).toNat = (x.sys.filetable fd).fPos.toNat :=
      toNat_place hfits
    rw [hplace] at hle hlt
    exact h ⟨fits_iff.mp hfits, by omega, by omega⟩

/-- Bytes that no call of a run stores into are spared by its requests. -/
theorem spares_of_trace (hopen : ∀ act ∈ mid, OnDevice a y.sys act.fd)
    (h : ∀ t ∈ trace (step mtd) y mid, ¬ Overwrites (mtd a) p n t.pre t.act) {i : ℕ} (hi : i < n) :
    Spares positions (p + i) (volumeOf (mtd a) y) (mid.map request) := by
  induction mid generalizing y with
  | nil => trivial
  | cons act mid ih =>
    obtain ⟨hfirst, hrest⟩ := List.forall_mem_cons.mp hopen
    obtain ⟨w, hw, hserves⟩ := step_serves act hfirst
    rw [trace_cons_some hw] at h
    obtain ⟨hact, hmid⟩ := List.forall_mem_cons.mp h
    refine ⟨not_writes hact hi, ?_⟩
    rw [← hserves.volume]
    exact ih (fun b hb => hserves.stays _ (hrest b hb)) hmid

end

/-- **What is written is read back**, as a whole or in part, through the same descriptor or another one, whatever
calls there are in between, as long as they store nothing there. -/
theorem written_read_back (mtd : Word → Mtd) (a : Word) (x y z : State) (fd fd' : ℕ) (count n : Word) (buf : ℕ → Byte)
    (mid : List Act) (k : ℕ) (hsize : (mtd a).size.toNat ≤ 2 ^ 31) (hfd : OnDevice a x.sys fd)
    (hfd' : OnDevice a x.sys fd') (hmid : ∀ act ∈ mid, OnDevice a x.sys act.fd)
    (haccepted : ¬ MtdRefuses (mtd a).size (x.sys.filetable fd).fPos count)
    (hwrite : step mtd x (.write fd count buf) = some y) (hrun : run (step mtd) y mid = some z)
    (hspared : ∀ t ∈ trace (step mtd) y mid,
      ¬ Overwrites (mtd a) (x.sys.filetable fd).fPos.toNat count.toNat t.pre t.act)
    (hat : (z.sys.filetable fd').fPos.toNat = (x.sys.filetable fd).fPos.toNat + k)
    (hpart : k + n.toNat ≤ count.toNat) :
    ∃ w, step mtd z (.read fd' n) = some w ∧
    w.log = z.log ++ [(n, (List.range n.toNat).map fun i => buf (k + i))] := by
  have hfits := (fits_iff (x := x)).mpr haccepted
  have hplace := toNat_place hfits
  obtain ⟨y', hy', hserves⟩ : ∃ y', step mtd x (.write fd count buf) = some y' ∧
    Serves mtd a x (.write fd count buf) y' :=
    step_serves _ hfd
  obtain rfl := Option.some.inj (hwrite.symm.trans hy')
  have hmid' : ∀ act ∈ mid, OnDevice a y.sys act.fd := fun b hb => hserves.stays _ (hmid b hb)
  obtain ⟨z', hz', hall⟩ := run_serves hmid'
  obtain rfl := Option.some.inj (hrun.symm.trans hz')
  -- the bytes are still in the volume
  have hback : piece (volumeOf (mtd a) z).cells (x.sys.filetable fd).fPos.toNat count.toNat = bufBytes buf count := by
    have hwithin :
        Within (volumeOf (mtd a) x).cells (positions.place ((volumeOf (mtd a) x).cursor fd))
        (bufBytes buf count).length := by
      rw [length_bufBytes]
      exact hfits
    have hclear : ∀ i < (bufBytes buf count).length, Spares positions
        ((positions.place ((volumeOf (mtd a) x).cursor fd)).toNat + i)
        (serve positions (volumeOf (mtd a) x) (.write fd (bufBytes buf count))).2 (mid.map request) := fun i hi => by
      rw [length_bufBytes] at hi
      have hspares := spares_of_trace hmid' hspared hi
      rw [hserves.volume] at hspares
      rw [show (positions.place ((volumeOf (mtd a) x).cursor fd)).toNat = (x.sys.filetable fd).fPos.toNat from hplace]
      exact hspares
    have hread := read_back hwithin hclear
    rw [length_bufBytes, show (positions.place ((volumeOf (mtd a) x).cursor fd)).toNat =
      (x.sys.filetable fd).fPos.toNat
      from hplace] at hread
    rw [hall.volume, hserves.volume]
    exact hread
  obtain ⟨w, hw, hread⟩ : ∃ w, step mtd z (.read fd' n) = some w ∧ Serves mtd a z (.read fd' n) w :=
    step_serves _ (hall.stays _ (hserves.stays _ hfd'))
  refine ⟨w, hw, hread.log.trans ?_⟩
  congr 2
  by_cases hz : n.toNat = 0
  · obtain rfl : n = 0 := BitVec.eq_of_toNat_eq hz
    rfl
  · have hend := hfits.end_le
    rw [length_cells, hplace] at hend
    have hint := BitVec.toInt_eq_toNat_cond (z.sys.filetable fd').fPos
    have hcells := length_cells (mtd a) z
    have hpos : (z.sys.filetable fd').fPos.toInt = ((x.sys.filetable fd).fPos.toNat + k : ℕ) := by
      split at hint <;> omega
    have hin : Within (volumeOf (mtd a) z).cells (positions.place ((volumeOf (mtd a) z).cursor fd')) n.toNat := by
      show Within _ (z.sys.filetable fd').fPos.toInt _
      rw [hpos]
      refine ⟨by omega, ?_, ?_⟩ <;> rw [hcells] <;> omega
    have hpart' : piece (volumeOf (mtd a) z).cells ((x.sys.filetable fd).fPos.toNat + k) n.toNat =
        (List.range n.toNat).map fun i => buf (k + i) := by
      rw [← piece_piece hpart, hback]
      refine List.ext_getElem? fun i => ?_
      rw [getElem?_piece, List.getElem?_map]
      by_cases hi : i < n.toNat
      · rw [if_pos hi, getElem?_bufBytes _ (by omega), List.getElem?_range hi, Option.map_some]
      · rw [if_neg hi, List.getElem?_eq_none (by simpa using hi), Option.map_none]
    have hnat : (positions.place ((volumeOf (mtd a) z).cursor fd')).toNat = (x.sys.filetable fd).fPos.toNat + k := by
      show (z.sys.filetable fd').fPos.toInt.toNat = _
      rw [hpos, Int.toNat_natCast]
    simp only [request, serve, if_neg hz, if_pos hin, shown, BitVec.ofNat_toNat, BitVec.setWidth_eq, hnat, hpart']

/-- The last two of three bytes, read elsewhere. -/
theorem written_read_back_lastTwo :
    ∃ z w, run (step fun _ => mtdram) opened [.write 0 3 letters, .lseek 1 1 SEEK_END] = some z ∧
    step (fun _ => mtdram) z (.read 1 2) = some w ∧
    w.log = z.log ++ [(2, (List.range 2).map fun i => letters (1 + i))] := by
  obtain ⟨w, hw, hlog⟩ :=
    written_read_back (fun _ => mtdram) 0x20000400 opened _ _ 0 1 3 2 letters [.lseek 1 1 SEEK_END] 1
    (by decide) (onDevice_opened (by decide)) (onDevice_opened (by decide))
    (List.forall_mem_singleton.mpr (onDevice_opened (by decide))) (by decide) rfl rfl
    (List.forall_mem_singleton.mpr id) rfl (by decide)
  exact ⟨_, w, rfl, hw, hlog⟩

end PikoRT.Fs.MtdChar

import PikoRT.Fs.Transfers
import PikoRT.Fs.RomfsLookup

/-! # Reading a file of an image

`romfs_read` cuts the count at the end of the file, unless the position and the count together
wrap around: then it asks the device for the whole count, the device refuses, and nothing is
read although there are bytes left. -/
namespace PikoRT.Fs.RomfsRead
open PikoRT.Kernel.Bitops PikoRT.Libc.Printf PikoRT.Lib.Run PikoRT.Lib.Bytes
open PikoRT.Fs.Romfs PikoRT.Fs.RomfsLookup PikoRT.Fs.Vfs PikoRT.Fs.Open PikoRT.Fs.Files PikoRT.Fs.Drivers
open PikoRT.Fs.Transfers (transfer sysCall sysCall_eq)

/-! ## What is in the file -/

/-- The data begins at the first multiple of 16 behind the NUL of the name. -/
def dataOffset (l : Layout) (h : Word) : ℕ := h.toNat + 16 + 16 * ((l.name h).length / 16 + 1)

def fileSize (rom : Rom) (rs h : Word) : Word := ntohl (size rom (romfsInode rs h))

def contents (rom : Rom) (rs : Word) (l : Layout) (h : Word) : List Byte :=
  bytesAt rom (rs + BitVec.ofNat 32 (dataOffset l h)) (fileSize rom rs h).toNat

/-- A regular file in a directory of the image, with its data inside of it. -/
structure IsFile (rom : Rom) (rs : Word) (l : Layout) (h : Word) : Prop where
  wellFormed : WellFormed rom rs l
  entry : ∃ d, IsDir rom rs l d ∧ h ∈ l.entries d
  regular : fileType rom (romfsInode rs h) = .reg
  inside : dataOffset l h + (fileSize rom rs h).toNat ≤ l.size.toNat

/-- The descriptor is open on the file at the offset `h` of the image, which fits in its device. -/
structure OpenOn (l : Layout) (rs h : Word) (fd : ℤ) (s : System) (file : File) (inode : Inode) : Prop where
  toFile : fdToFile fd s = some file
  toInode : fileInode file s = some inode
  op : file.fOp = some .romfs
  describes : Describes s.rom rs h inode
  image : (s.superBlocks inode.iSb).rs = rs
  fits : l.size ≤ (s.superBlocks inode.iSb).mtdSize
  nonneg : 0 ≤ file.fPos.toInt

/-- The bytes from the position on, as many as there are up to the count. -/
def Right (bs : List Byte) (fPos count : Word) (v : Word × List Byte) : Prop :=
  v.2 = (bs.drop fPos.toNat).take count.toNat ∧ v.1.toNat = v.2.length

/-- There are bytes left, and the position and the count wrap around. -/
def Wraps (bs : List Byte) (fPos count : Word) : Prop :=
  fPos.toNat < bs.length ∧ 2 ^ 32 ≤ fPos.toNat + count.toNat

instance (bs : List Byte) (fPos count : Word) : Decidable (Wraps bs fPos count) := inferInstanceAs (Decidable (_ ∧ _))

/-! ## Runs of reads -/

structure Session where
  sys : System
  results : List (Word × List Byte)

/-- `sys_read`, with what it returns and stores. -/
def step (dev : Devices) (fuel : ℕ) (fd : ℤ) (x : Session) (count : Word) : Option Session :=
  (fdToFile fd x.sys).bind fun file => file.fOp.bind fun op =>
    (transfer dev fuel 0 op file count x.sys .read).bind fun v =>
      (sysCall dev fuel 0 fd count x.sys .read).map fun r => ⟨r.2, x.results ++ [(r.1, v.2)]⟩

def position (fd : ℤ) (x : Session) : Word := ((fdToFile fd x.sys).map File.fPos).getD 0

/-- The read of a step adds the right result. -/
def Adds (bs : List Byte) (fd : ℤ) (x : Session) (count : Word) (y : Session) : Prop :=
  ∃ v, y.results = x.results ++ [v] ∧ Right bs (position fd x) count v

/-- Every read is right, and all that has been read is what the file has from the position on. -/
def ReadsFile (dev : Devices) (fuel : ℕ) (bs : List Byte) (fd : ℤ) (x : Session) (counts : List Word)
    (y : Session) : Prop :=
  (∀ z ∈ trace (step dev fuel fd) x counts, Adds bs fd z.pre z.act z.post) ∧
    y.results.flatMap Prod.snd =
      x.results.flatMap Prod.snd ++ (bs.drop (position fd x).toNat).take (counts.map BitVec.toNat).sum

section

variable {rom : Rom} {rs h : Word} {l : Layout} {fd : ℤ} {s : System} {file : File} {inode : Inode} {fuel : ℕ}

/-! ## Where the data is -/

theorem chain_mem {next : Word} {hs : List Word} (hc : Chain rom rs l next hs) (hm : h ∈ hs) :
    h.toNat + 16 + (l.name h).length < l.size.toNat ∧ StringAt rom (fileName (romfsInode rs h)) (l.name h) := by
  induction hs generalizing next with
  | nil => cases hm
  | cons k hs ih =>
    obtain ⟨rfl, -, -, hlt, hstr, hc⟩ := hc
    rcases List.mem_cons.mp hm with rfl | hm
    · exact ⟨hlt, hstr⟩
    · exact ih hc hm

theorem toNat_alignNext {x : Word} (h : x.toNat + 15 < 2 ^ 32) : (alignNext x).toNat = (x.toNat + 15) / 16 * 16 := by
  have hnat : (alignNext x).toNat = (x + 15).toNat / 16 * 16 := toNat_and_not_lowMask (x + 15) 4
  have hadd : (x + 15).toNat = x.toNat + 15 := by
    rw [BitVec.toNat_add]
    exact Nat.mod_eq_of_lt h
  rw [hnat, hadd]

theorem IsFile.name (hf : IsFile rom rs l h) :
    StringAt rom (fileName (romfsInode rs h)) (l.name h) ∧ (l.name h).length < 2 ^ 31 := by
  obtain ⟨d, hd, hm⟩ := hf.entry
  obtain ⟨hlt, hstr⟩ := chain_mem (hf.wellFormed.chain hd) hm
  have hsmall := hf.wellFormed.small
  exact ⟨hstr, by omega⟩

/-- The sum that `romfs_read` makes of the header and the length of the name. -/
theorem IsFile.data (hf : IsFile rom rs l h) :
    (h + (16 + alignNext (BitVec.ofNat 32 (l.name h).length + 1))).toNat = dataOffset l h := by
  have hlen := hf.name.2
  have hsmall := hf.wellFormed.small
  have hinside := hf.inside
  have hone : (BitVec.ofNat 32 (l.name h).length + 1).toNat = (l.name h).length + 1 := by
    have h1 : (1 : Word).toNat = 1 := rfl
    rw [BitVec.toNat_add, BitVec.toNat_ofNat, h1]
    omega
  have halign : (alignNext (BitVec.ofNat 32 (l.name h).length + 1)).toNat = 16 * ((l.name h).length / 16 + 1) := by
    rw [toNat_alignNext (by omega), hone]
    omega
  have h16 : (16 : Word).toNat = 16 := rfl
  unfold dataOffset at hinside ⊢
  rw [BitVec.toNat_add, BitVec.toNat_add, halign, h16]
  omega

/-! ## One read -/

theorem mtdRefuses_iff {size «from» len : Word} :
    MtdRefuses size «from» len ↔ 2 ^ 31 ≤ «from».toNat ∨ size.toNat ≤ «from».toNat ∨
      size.toNat < «from».toNat + len.toNat := by
  have hint := BitVec.toInt_eq_toNat_cond «from»
  have hfrom := «from».isLt
  have hneg : «from».toInt < 0 ↔ 2 ^ 31 ≤ «from».toNat := by
    split at hint <;> omega
  unfold MtdRefuses
  rw [hneg, BitVec.le_def, BitVec.lt_def]
  by_cases hle : size.toNat ≤ «from».toNat
  · simp [hle]
  · rw [BitVec.toNat_sub_of_le (BitVec.le_def.mpr (by omega))]
    omega

/-- The count that the device is asked for. -/
theorem romfsCount_eq {size fPos count : Word} (hpos : fPos.toNat < size.toNat)
    (hsum : fPos.toNat + count.toNat < 2 ^ 32) :
    (romfsCount size fPos count fPos).toNat = min count.toNat (size.toNat - fPos.toNat) := by
  have hsize := size.isLt
  rw [toNat_romfsCount]
  split <;> omega

/-- Where nothing is left, or the sum wraps around, the device is asked for nothing or for too much. -/
theorem romfsCount_out (data : ℕ) (count : Word) {size fPos : Word} {mtdSize : ℕ} (hpos : fPos.toNat < 2 ^ 31)
    (hsize : size.toNat < 2 ^ 31) (hmtd : mtdSize < 2 ^ 32)
    (h : size.toNat ≤ fPos.toNat ∨ 2 ^ 32 ≤ fPos.toNat + count.toNat) :
    (romfsCount size fPos count fPos).toNat = 0 ∨
      mtdSize < data + fPos.toNat + (romfsCount size fPos count fPos).toNat := by
  have hcount := count.isLt
  rw [toNat_romfsCount]
  split <;> omega

@[simp] theorem length_contents (rom : Rom) (rs : Word) (l : Layout) (h : Word) :
    (contents rom rs l h).length = (fileSize rom rs h).toNat := length_bytesAt ..

theorem IsFile.length_contents_lt (hf : IsFile rom rs l h) : (contents rom rs l h).length < 2 ^ 31 := by
  have hsmall := hf.wellFormed.small
  have hinside := hf.inside
  rw [length_contents]
  omega

theorem OpenOn.romfsRead_eq (ho : OpenOn l rs h fd s file inode) (hf : IsFile s.rom rs l h)
    (hfuel : (l.name h).length < fuel) (count : Word) :
    ∃ mtdSize : Word, l.size ≤ mtdSize ∧ ∃ data : Word, data.toNat = dataOffset l h ∧
      romfsRead fuel file count file.fPos s =
        let r := mtdRead s.rom ⟨mtdSize, rs⟩ (data + file.fPos)
          (romfsCount (fileSize s.rom rs h) file.fPos count file.fPos)
        some (r.retlen, r.bytes) := by
  have hn : strlen s.rom fuel (fileName (romfsInode (s.superBlocks inode.iSb).rs inode.iPrivate)) =
      some (BitVec.ofNat 32 (l.name h).length) := by
    rw [ho.image, ho.describes.offset]
    exact strlen_of_stringAt hf.name.1 hfuel
  refine ⟨_, ho.fits, _, hf.data, ?_⟩
  rw [Drivers.romfsRead_eq ho.toInode hn, ho.image, ho.describes.offset, ho.describes.size]
  rfl

/-- What stands in memory where the device reads. -/
theorem bytesAt_data {data fPos n : Word} (hdata : data.toNat = dataOffset l h)
    (hn : fPos.toNat + n.toNat ≤ (fileSize rom rs h).toNat) :
    memcpy rom (rs + (data + fPos)) n = ((contents rom rs l h).drop fPos.toNat).take n.toNat := by
  have haddr : rs + (data + fPos) = rs + BitVec.ofNat 32 (dataOffset l h) + BitVec.ofNat 32 fPos.toNat := by
    rw [← hdata, BitVec.ofNat_toNat, BitVec.ofNat_toNat, BitVec.setWidth_eq, BitVec.setWidth_eq, add_assoc]
  rw [memcpy, haddr, contents, take_drop_bytesAt _ _ hn]

/-- A read is right unless there are bytes left and the sum wraps around; then it reads nothing. -/
theorem romfsRead_spec (ho : OpenOn l rs h fd s file inode) (hf : IsFile s.rom rs l h)
    (hfuel : (l.name h).length < fuel) (count : Word) :
    ∃ v, romfsRead fuel file count file.fPos s = some v ∧
      (¬ Wraps (contents s.rom rs l h) file.fPos count → Right (contents s.rom rs l h) file.fPos count v) ∧
      (Wraps (contents s.rom rs l h) file.fPos count → v = (0, [])) := by
  obtain ⟨mtdSize, hfits, data, hdata, heq⟩ := ho.romfsRead_eq hf hfuel count
  have hsmall := hf.wellFormed.small
  have hinside := hf.inside
  have hmtd := mtdSize.isLt
  have hcount := count.isLt
  rw [BitVec.le_def] at hfits
  have hpos : file.fPos.toNat < 2 ^ 31 := by
    have hint := BitVec.toInt_eq_toNat_cond file.fPos
    have hnonneg := ho.nonneg
    split at hint <;> omega
  have hfrom : (data + file.fPos).toNat = dataOffset l h + file.fPos.toNat := by
    rw [BitVec.toNat_add, hdata]
    omega
  rw [mtdRead_eq] at heq
  unfold Wraps
  rw [length_contents]
  by_cases hin : file.fPos.toNat < (fileSize s.rom rs h).toNat ∧ file.fPos.toNat + count.toNat < 2 ^ 32
  · -- the range up to the count or the end of the file is on the device
    have hc := romfsCount_eq hin.1 hin.2
    have haccept :
        ¬ MtdRefuses mtdSize (data + file.fPos) (romfsCount (fileSize s.rom rs h) file.fPos count file.fPos) := by
      rw [mtdRefuses_iff, hfrom]
      omega
    have hall := List.take_eq_take_min (l := (contents s.rom rs l h).drop file.fPos.toNat) (i := count.toNat)
    rw [List.length_drop, length_contents] at hall
    rw [if_neg haccept] at heq
    refine ⟨_, heq, fun _ => ⟨?_, by simp⟩, fun hw => by omega⟩
    show memcpy s.rom (rs + (data + file.fPos)) _ = _
    rw [bytesAt_data hdata (by omega), hc, hall]
  · -- nothing is left, or the device refuses
    have hsize : (fileSize s.rom rs h).toNat < 2 ^ 31 := by omega
    have hout := romfsCount_out (dataOffset l h) count hpos hsize hmtd (by omega)
    have hnothing : romfsRead fuel file count file.fPos s = some (0, []) := by
      rw [heq]
      by_cases hrefuse :
        MtdRefuses mtdSize (data + file.fPos) (romfsCount (fileSize s.rom rs h) file.fPos count file.fPos)
      · rw [if_pos hrefuse]
      · rw [if_neg hrefuse]
        rw [mtdRefuses_iff, hfrom] at hrefuse
        have hzero : romfsCount (fileSize s.rom rs h) file.fPos count file.fPos = 0 :=
          BitVec.eq_of_toNat_eq (hout.resolve_right (by omega))
        rw [hzero]
        rfl
    refine ⟨_, hnothing, fun hw => ⟨?_, rfl⟩, fun _ => rfl⟩
    rw [List.drop_eq_nil_of_le, List.take_nil]
    rw [length_contents]
    omega

theorem not_right_nothing {bs : List Byte} {fPos count : Word} (hw : Wraps bs fPos count) :
    ¬ Right bs fPos count (0, []) := by
  intro hr
  obtain ⟨hlt, hsum⟩ := hw
  have hlen := congrArg List.length hr.1
  have hpos := fPos.isLt
  rw [List.length_take, List.length_drop, List.length_nil] at hlen
  omega

/-! ## Several reads -/

theorem OpenOn.position (ho : OpenOn l rs h fd s file inode) (rsl : List (Word × List Byte)) :
    position fd ⟨s, rsl⟩ = file.fPos := by
  show ((fdToFile fd s).map File.fPos).getD 0 = file.fPos
  rw [ho.toFile]
  rfl

/-- A right read does not lead behind the end, if the position was not there already. -/
theorem toNat_position {bs : List Byte} {fPos count : Word} {v : Word × List Byte} (hr : Right bs fPos count v)
    (hbs : bs.length < 2 ^ 31) (hpos : 0 ≤ fPos.toInt) :
    (fPos + v.1).toNat = fPos.toNat + ((bs.drop fPos.toNat).take count.toNat).length ∧ 0 ≤ (fPos + v.1).toInt := by
  obtain ⟨hbytes, hlen⟩ := hr
  have hint := BitVec.toInt_eq_toNat_cond fPos
  have hint' := BitVec.toInt_eq_toNat_cond (fPos + v.1)
  have htake : ((bs.drop fPos.toNat).take count.toNat).length ≤ bs.length - fPos.toNat := by
    rw [List.length_take, List.length_drop]
    exact Nat.min_le_right ..
  rw [hbytes] at hlen
  rw [BitVec.toNat_add, hlen] at hint' ⊢
  split at hint <;> split at hint' <;> omega

theorem step_spec {dev : Devices} (rsl : List (Word × List Byte)) (ho : OpenOn l rs h fd s file inode)
    (hf : IsFile s.rom rs l h) (hfuel : (l.name h).length < fuel) (count : Word) :
    ∃ v, step dev fuel fd ⟨s, rsl⟩ count =
        some ⟨setFile fd { file with fPos := file.fPos + v.1 } s, rsl ++ [v]⟩ ∧
      (¬ Wraps (contents s.rom rs l h) file.fPos count → Right (contents s.rom rs l h) file.fPos count v) ∧
      (Wraps (contents s.rom rs l h) file.fPos count → v = (0, [])) := by
  have hstep : ∀ v, transfer dev fuel 0 .romfs file count s .read = some v →
      step dev fuel fd ⟨s, rsl⟩ count = some ⟨setFile fd { file with fPos := file.fPos + v.1 } s, rsl ++ [v]⟩ := by
    intro v hv
    have hcall : sysCall dev fuel 0 fd count s .read = _ := sysCall_eq ho.toFile ho.op .read
    rw [hv, Option.map_some] at hcall
    refine Option.bind_eq_some_iff.mpr ⟨file, ho.toFile, Option.bind_eq_some_iff.mpr ⟨.romfs, ho.op, ?_⟩⟩
    exact Option.bind_eq_some_iff.mpr ⟨v, hv, Option.map_eq_some_iff.mpr ⟨_, hcall, rfl⟩⟩
  by_cases hzero : count = 0
  · refine ⟨(0, []), hstep _ (if_pos hzero), fun _ => ⟨?_, rfl⟩, fun _ => rfl⟩
    rw [hzero]
    rfl
  · obtain ⟨v, hv, hspec⟩ := romfsRead_spec ho hf hfuel count
    exact ⟨v, hstep v ((if_neg hzero).trans hv), hspec⟩

/-- The descriptor stays open on the file. -/
theorem OpenOn.moved {v : Word × List Byte} {count : Word} (ho : OpenOn l rs h fd s file inode)
    (hf : IsFile s.rom rs l h)
    (hv : (¬ Wraps (contents s.rom rs l h) file.fPos count → Right (contents s.rom rs l h) file.fPos count v) ∧
      (Wraps (contents s.rom rs l h) file.fPos count → v = (0, []))) :
    OpenOn l rs h fd (setFile fd { file with fPos := file.fPos + v.1 } s) { file with fPos := file.fPos + v.1 }
    inode := by
  refine ⟨fdToFile_setFile ho.toFile, ho.toInode, ho.op, ho.describes, ho.image, ho.fits, ?_⟩
  by_cases hw : Wraps (contents s.rom rs l h) file.fPos count
  · rw [hv.2 hw]
    show 0 ≤ (file.fPos + 0).toInt
    rw [add_zero]
    exact ho.nonneg
  · exact (toNat_position (hv.1 hw) hf.length_contents_lt ho.nonneg).2

/-- The descriptor is open on the file, whose bytes are `bs`. -/
def Reading (l : Layout) (rs h : Word) (bs : List Byte) (fd : ℤ) (x : Session) : Prop :=
  ∃ file inode, OpenOn l rs h fd x.sys file inode ∧ IsFile x.sys.rom rs l h ∧ contents x.sys.rom rs l h = bs

variable {dev : Devices} {bs : List Byte} {x y : Session} {count : Word}

/-- What a read does for a descriptor that is open on the file. -/
theorem Reading.reads (hx : Reading l rs h bs fd x) (hfuel : (l.name h).length < fuel) (count : Word) :
    ∃ v y, step dev fuel fd x count = some y ∧ Reading l rs h bs fd y ∧ y.results = x.results ++ [v] ∧
      (Right bs (position fd x) count v ↔ ¬ Wraps bs (position fd x) count) ∧
      (Right bs (position fd x) count v → (position fd y).toNat =
        (position fd x).toNat + ((bs.drop (position fd x).toNat).take count.toNat).length) := by
  obtain ⟨s, rsl⟩ := x
  obtain ⟨file, inode, ho, hf, rfl⟩ := hx
  obtain ⟨v, hv, hspec⟩ := step_spec rsl ho hf hfuel count
  have hmoved := ho.moved hf hspec
  refine ⟨v, _, hv, ⟨_, _, hmoved, hf, rfl⟩, rfl, ?_, fun hr => ?_⟩
  · rw [ho.position]
    refine ⟨fun hr hw => ?_, hspec.1⟩
    rw [hspec.2 hw] at hr
    exact not_right_nothing hw hr
  · rw [ho.position] at hr
    rw [hmoved.position, ho.position]
    exact (toNat_position hr (hf.length_contents_lt) ho.nonneg).1

theorem Reading.kept (hx : Reading l rs h bs fd x) (hfuel : (l.name h).length < fuel)
    (hs : step dev fuel fd x count = some y) : Reading l rs h bs fd y := by
  obtain ⟨v, z, hz, hread, -⟩ := hx.reads hfuel count
  obtain rfl := Option.some.inj (hs.symm.trans hz)
  exact hread

theorem adds_iff (hx : Reading l rs h bs fd x) (hfuel : (l.name h).length < fuel)
    (hs : step dev fuel fd x count = some y) :
    Adds bs fd x count y ↔ ¬ Wraps bs (position fd x) count := by
  obtain ⟨v, z, hz, -, hres, hiff, -⟩ := hx.reads hfuel count
  obtain rfl := Option.some.inj (hs.symm.trans hz)
  rw [← hiff]
  constructor
  · intro ha
    obtain ⟨w, hw, hr⟩ := ha
    obtain rfl := List.singleton_inj.mp (List.append_cancel_left (hres.symm.trans hw))
    exact hr
  · exact fun hr => ⟨v, hres, hr⟩

theorem adds_all_iff (hx : Reading l rs h bs fd x) (hfuel : (l.name h).length < fuel) (counts : List Word) :
    (∀ z ∈ trace (step dev fuel fd) x counts, Adds bs fd z.pre z.act z.post) ↔
      ∀ z ∈ trace (step dev fuel fd) x counts, ¬ Wraps bs (position fd z.pre) z.act :=
  trace_forall_iff (I := Reading l rs h bs fd) (Q := Adds bs fd) (C := fun z n => ¬ Wraps bs (position fd z) n)
    (fun _ _ _ hI hs => adds_iff hI hfuel hs) (fun _ _ _ hI _ hs => hI.kept hfuel hs) hx

/-- A part of a list, and the part behind it. -/
theorem take_append_drop_take (bs : List Byte) (p n k : ℕ) :
    (bs.drop p).take n ++ (bs.drop (p + ((bs.drop p).take n).length)).take k = (bs.drop p).take (n + k) := by
  have hdrop : (bs.drop p).drop ((bs.drop p).take n).length = (bs.drop p).drop n := by
    rw [List.length_take]
    exact List.drop_eq_drop_min.symm
  rw [← List.drop_drop, hdrop, List.take_add]

/-- **Reads add up.** When every read of a run is right, the results are the file from the position on. -/
theorem Reading.readAll (hx : Reading l rs h bs fd x) (hfuel : (l.name h).length < fuel) (counts : List Word) :
    ∃ y, run (step dev fuel fd) x counts = some y ∧
      ((∀ z ∈ trace (step dev fuel fd) x counts, Adds bs fd z.pre z.act z.post) →
        y.results.flatMap Prod.snd =
          x.results.flatMap Prod.snd ++ (bs.drop (position fd x).toNat).take (counts.map BitVec.toNat).sum) := by
  induction counts generalizing x with
  | nil => exact ⟨x, rfl, fun _ => by simp⟩
  | cons count counts ih =>
    obtain ⟨v, u, hu, hread, hres, hiff, hpos⟩ := hx.reads hfuel count
    obtain ⟨y, hy, hsum⟩ := ih hread
    refine ⟨y, ?_, fun hall => ?_⟩
    · rw [run_cons, hu]
      exact hy
    · rw [trace_cons_some hu] at hall
      obtain ⟨hadds, hall⟩ := List.forall_mem_cons.mp hall
      have hright := hiff.mpr ((adds_iff hx hfuel hu).mp hadds)
      rw [hsum hall, hres, hpos hright, List.flatMap_append, List.append_assoc, List.map_cons, List.sum_cons,
        ← take_append_drop_take, List.flatMap_singleton, hright.1]

end

/-- **A file is read right exactly when no position and count of a read wrap around before the
end of the file.** -/
theorem reads_exact_iff {l : Layout} {rs h : Word} {fd : ℤ} {s : System} {file : File} {inode : Inode} {fuel : ℕ}
    (dev : Devices) (ho : OpenOn l rs h fd s file inode) (hf : IsFile s.rom rs l h)
    (hfuel : (l.name h).length < fuel) :
    (∀ count, (∃ v, romfsRead fuel file count file.fPos s = some v ∧
        Right (contents s.rom rs l h) file.fPos count v) ↔ ¬ Wraps (contents s.rom rs l h) file.fPos count) ∧
    ∀ counts, ∃ y, run (step dev fuel fd) ⟨s, []⟩ counts = some y ∧
      (ReadsFile dev fuel (contents s.rom rs l h) fd ⟨s, []⟩ counts y ↔
        ∀ z ∈ trace (step dev fuel fd) ⟨s, []⟩ counts,
          ¬ Wraps (contents s.rom rs l h) (position fd z.pre) z.act) := by
  constructor
  · intro count
    obtain ⟨v, hv, hright, hnothing⟩ := romfsRead_spec ho hf hfuel count
    refine ⟨fun hr hw => ?_, fun hw => ⟨v, hv, hright hw⟩⟩
    obtain ⟨w, hw', hr⟩ := hr
    obtain rfl := Option.some.inj (hv.symm.trans hw')
    rw [hnothing hw] at hr
    exact not_right_nothing hw hr
  · intro counts
    have hx : Reading l rs h (contents s.rom rs l h) fd ⟨s, []⟩ := ⟨file, inode, ho, hf, rfl⟩
    obtain ⟨y, hy, hsum⟩ : ∃ y, run (step dev fuel fd) ⟨s, []⟩ counts = some y ∧ _ := hx.readAll hfuel counts
    refine ⟨y, hy, ?_⟩
    rw [← adds_all_iff hx hfuel counts]
    exact ⟨And.left, fun hall => ⟨hall, hsum hall⟩⟩

/-! ## A file of five bytes -/

/-- A descriptor of `far`. -/
def farFile (fPos : Word) : File := ⟨some (.static 4), some .romfs, fPos, 0x100⟩

def farInode : Inode := ⟨sIfreg, 0xbeef, 5, .romfs, some .romfs, 0, 0x100⟩

def farOpened (fPos : Word) : System :=
  { farSystem with inodes := fun _ => farInode, filemap := 1, filetable := fun _ => farFile fPos }

theorem isFile_far : IsFile farRom flash farLayout 0x100 where
  wellFormed := farRom_wellFormed
  entry := ⟨0x20, isDir_farRoot, by decide⟩
  regular := by decide +kernel
  inside := by decide +kernel

theorem describes_far : Describes farRom flash 0x100 farInode := ⟨rfl, by decide +kernel, by decide +kernel⟩

theorem openOn_far (fPos : Word) (h : 0 ≤ fPos.toInt) :
    OpenOn farLayout flash 0x100 0 (farOpened fPos) (farFile fPos) farInode :=
  ⟨rfl, rfl, rfl, describes_far, rfl, BitVec.le_refl _, h⟩

theorem contents_far : contents farRom flash farLayout 0x100 = [0, 0, 0, 0, 0] := by decide +kernel

/-- Two bytes, then up to ten, then up to ten again. -/
theorem reads_exact_far : ∃ y, run (step Transfers.smallDevices 5 0) ⟨farOpened 0, []⟩ [2, 10, 10] = some y ∧
    y.results.flatMap Prod.snd = contents farRom flash farLayout 0x100 := by
  have hname : (farLayout.name 0x100).length < 5 := by decide
  obtain ⟨y, hy, hiff⟩ : ∃ y, run (step Transfers.smallDevices 5 0) ⟨farOpened 0, []⟩ [2, 10, 10] = some y ∧ _ :=
    (reads_exact_iff Transfers.smallDevices (openOn_far 0 (by decide)) isFile_far hname).2 _
  refine ⟨y, hy, ?_⟩
  have hsmall : ∀ z ∈ trace (step Transfers.smallDevices 5 0) ⟨farOpened 0, []⟩ [2, 10, 10],
      ¬ Wraps (contents farRom flash farLayout 0x100) (position 0 z.pre) z.act := by
    intro z hz hw
    obtain ⟨hpos, hsum⟩ := hw
    have hall : ∀ c ∈ ([2, 10, 10] : List Word), c.toNat ≤ 10 := by simp
    have hact := hall _ (act_mem_of_mem_trace hz)
    rw [contents_far] at hpos
    simp only [List.length_cons, List.length_nil] at hpos
    omega
  rw [(hiff.mpr hsmall).2]
  show _ ++ ((contents farRom flash farLayout 0x100).drop 0).take 22 = _
  rw [contents_far]
  rfl

/-- From the position 1 with the largest count there are four bytes to be read, and none is read. -/
theorem largest_count_reads_nothing :
    IsFile farRom flash farLayout 0x100 ∧ OpenOn farLayout flash 0x100 0 (farOpened 1) (farFile 1) farInode ∧
    romfsRead 5 (farFile 1) (-1) 1 (farOpened 1) = some (0, []) ∧
    ¬ Right (contents farRom flash farLayout 0x100) 1 (-1) (0, []) := by
  have hopen : OpenOn farLayout flash 0x100 0 (farOpened 1) (farFile 1) farInode := openOn_far 1 (by decide)
  have hwraps : Wraps (contents farRom flash farLayout 0x100) 1 (-1) := by
    rw [contents_far]
    decide
  obtain ⟨v, hv, -, hnothing⟩ := romfsRead_spec hopen isFile_far (Nat.lt_add_of_pos_right Nat.two_pos) (-1)
  refine ⟨isFile_far, hopen, ?_, not_right_nothing hwraps⟩
  rw [← hnothing hwraps]
  exact hv

end PikoRT.Fs.RomfsRead

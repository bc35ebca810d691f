import PikoRT.Fs.Files
import PikoRT.Fs.OpenClose

/-! # Seeking

`sys_lseek` reduces every target with `%`: from the start it divides the size by the offset,
and otherwise it divides the target by the size. A target at the end of the file comes out as 0,
a target outside it as a position, and where the size is 0 the divisor is 0. -/
namespace PikoRT.Fs.Seek
open PikoRT.Kernel.Bitops PikoRT.Fs.Romfs PikoRT.Fs.Vfs PikoRT.Fs.Open PikoRT.Fs.Files PikoRT.Fs.OpenClose

/-- The descriptor leads to an open file and its inode. -/
structure Opened (fd : ℤ) (s : System) (file : File) (inode : Inode) : Prop where
  toFile : fdToFile fd s = some file
  toInode : fileInode file s = some inode
  hasOp : ∃ op, file.fOp = some op

/-- Where a seek is meant to go. -/
def target (fPos size offset whence : Word) : Option ℤ :=
  if whence = SEEK_SET then some offset.toInt
  else if whence = SEEK_CUR then some (fPos.toInt + offset.toInt)
  else if whence = SEEK_END then some (size.toInt + offset.toInt)
  else none

/-- The right operand of the `%` that a seek comes to. -/
def divisor (size offset whence : Word) : Option Word :=
  if whence = SEEK_SET then (if offset ≠ 0 then some offset else none)
  else if whence = SEEK_CUR ∨ whence = SEEK_END then some size
  else none

/-- A read on the descriptor asks the driver for the bytes from `p` on. -/
def ReadsFrom (fd : ℤ) (p : ℤ) (t : System) : Prop :=
  ∃ file, fdToFile fd t = some file ∧ file.fPos.toInt = p ∧ ∀ drivers op count, file.fOp = some op →
    hasRead op = true →
    count ≠ 0 → (sysRead drivers fd count t).map Prod.fst = drivers.read op file count file.fPos t

/-- What `sys_lseek` has to do. -/
structure SeeksRight (fd : ℤ) (offset whence : Word) (s : System) (file : File) (inode : Inode) : Prop where
  divides : divisor inode.iSize offset whence ≠ some 0
  inside : ∀ p, target file.fPos inode.iSize offset whence = some p → 0 ≤ p → p ≤ inode.iSize.toInt →
    ∃ r t, sysLseek fd offset whence s = some (r, t) ∧ 0 ≤ r.toInt ∧ ReadsFrom fd p t
  outside : (∀ p, target file.fPos inode.iSize offset whence = some p → ¬ (0 ≤ p ∧ p ≤ inode.iSize.toInt)) →
    ∃ r t, sysLseek fd offset whence s = some (r, t) ∧ r.toInt < 0 ∧ fdToFile fd t = some file

/-- The start of the file; or a place in it, but not its end; or an origin that does not exist. -/
def Attainable (fPos size offset whence : Word) : Prop :=
  if whence = SEEK_SET then offset = 0 ∧ 0 ≤ size.toInt
  else if whence = SEEK_CUR then 0 ≤ fPos.toInt + offset.toInt ∧ fPos.toInt + offset.toInt < size.toInt
  else if whence = SEEK_END then 0 ≤ size.toInt + offset.toInt ∧ size.toInt + offset.toInt < size.toInt
  else True

instance (fPos size offset whence : Word) : Decidable (Attainable fPos size offset whence) := by
  unfold Attainable
  infer_instance

section

variable {fd : ℤ} {s : System} {file : File} {inode : Inode} {offset whence pos : Word}

theorem sysLseek_some (h : Opened fd s file inode) (hp : seekPos file.fPos inode.iSize offset whence = some pos) :
    sysLseek fd offset whence s = some (0, setFile fd { file with fPos := pos } s) := by
  obtain ⟨op, hop⟩ := h.hasOp
  rw [sysLseek, h.toFile, Option.bind_some, h.toInode, Option.bind_some, hop, Option.map_some, hp]

theorem sysLseek_none (h : Opened fd s file inode) (hp : seekPos file.fPos inode.iSize offset whence = none) :
    sysLseek fd offset whence s = some (-1, s) := by
  obtain ⟨op, hop⟩ := h.hasOp
  rw [sysLseek, h.toFile, Option.bind_some, h.toInode, Option.bind_some, hop, Option.map_some, hp]

theorem readsFrom_setFile (h : fdToFile fd s = some file) :
    ReadsFrom fd pos.toInt (setFile fd { file with fPos := pos } s) := by
  refine ⟨_, fdToFile_setFile h, rfl, fun drivers op count hop hread hcount => ?_⟩
  rw [sysRead, fdToFile_setFile h, Option.bind_some, if_neg hcount, hop, Option.bind_some, if_pos hread]
  rw [Option.map_map]
  exact Option.map_id'

/-- A seek that sets the position reports success, so that its target has to be in the file and to
be the position. -/
theorem seeksRight_iff_of_some {p : ℤ} (h : Opened fd s file inode)
    (ht : target file.fPos inode.iSize offset whence = some p)
    (hp : seekPos file.fPos inode.iSize offset whence = some pos) :
    SeeksRight fd offset whence s file inode ↔
      divisor inode.iSize offset whence ≠ some 0 ∧ 0 ≤ p ∧ p ≤ inode.iSize.toInt ∧ pos.toInt = p := by
  have hseek := sysLseek_some h hp
  constructor
  · intro hr
    by_cases hin : 0 ≤ p ∧ p ≤ inode.iSize.toInt
    · obtain ⟨r, t, hrt, -, f, hf, hpos, -⟩ := hr.inside p ht hin.1 hin.2
      obtain ⟨-, rfl⟩ := Prod.mk.inj (Option.some.inj (hseek.symm.trans hrt))
      obtain rfl := Option.some.inj ((fdToFile_setFile h.toFile).symm.trans hf)
      exact ⟨hr.divides, hin.1, hin.2, hpos⟩
    · have hout : ∀ q, target file.fPos inode.iSize offset whence = some q → ¬ (0 ≤ q ∧ q ≤ inode.iSize.toInt) := by
        intro q hq
        obtain rfl := Option.some.inj (ht.symm.trans hq)
        exact hin
      obtain ⟨r, t, hrt, hneg, -⟩ := hr.outside hout
      obtain ⟨rfl, -⟩ := Prod.mk.inj (Option.some.inj (hseek.symm.trans hrt))
      exact absurd hneg (by decide)
  · intro hc
    obtain ⟨hdiv, hge, hle, hpos⟩ := hc
    refine ⟨hdiv, fun q hq _ _ => ?_, fun hout => absurd ⟨hge, hle⟩ (hout p ht)⟩
    obtain rfl := Option.some.inj (ht.symm.trans hq)
    exact ⟨0, _, hseek, le_rfl, hpos ▸ readsFrom_setFile h.toFile⟩

/-- A remainder by the size is a place before the end. -/
theorem srem_eq_iff {base size : Word} :
    (some size ≠ some 0 ∧ 0 ≤ base.toInt + offset.toInt ∧ base.toInt + offset.toInt ≤ size.toInt ∧
      ((base + offset).srem size).toInt = base.toInt + offset.toInt) ↔
    0 ≤ base.toInt + offset.toInt ∧ base.toInt + offset.toInt < size.toInt := by
  rw [BitVec.toInt_srem]
  constructor
  · intro h
    obtain ⟨hsize, hge, hle, hrem⟩ := h
    have hpos : 0 < size.toInt := by
      have : size.toInt ≠ 0 := fun h0 => hsize (congrArg some (BitVec.eq_of_toInt_eq h0))
      omega
    have hlt := Int.tmod_lt_of_pos (base + offset).toInt hpos
    exact ⟨hge, by omega⟩
  · intro h
    obtain ⟨hge, hlt⟩ := h
    have hne : some size ≠ some 0 := by
      intro h0
      rw [Option.some.inj h0] at hlt
      have : (0 : Word).toInt = 0 := rfl
      omega
    have hadd : (base + offset).toInt = base.toInt + offset.toInt := by
      have := BitVec.toInt_lt (x := size)
      rw [BitVec.toInt_add, Int.bmod_eq_of_le]
      all_goals omega
    exact ⟨hne, hge, hlt.le, by rw [hadd, Int.tmod_eq_of_lt hge hlt]⟩

theorem srem_offset_ne (size : Word) (h : 0 ≤ offset.toInt) (hne : offset ≠ 0) :
    (size.srem offset).toInt ≠ offset.toInt := by
  have hpos : 0 < offset.toInt := by
    have : offset.toInt ≠ 0 := fun h0 => hne (BitVec.eq_of_toInt_eq h0)
    omega
  rw [BitVec.toInt_srem]
  exact (Int.tmod_lt_of_pos size.toInt hpos).ne

end

/-- **A seek is right exactly when it goes to the start, or from elsewhere to a place before the
end, or has no origin.** -/
theorem seeks_right_iff (fd : ℤ) (offset whence : Word) (s : System) (file : File) (inode : Inode)
    (h : Opened fd s file inode) :
    SeeksRight fd offset whence s file inode ↔ Attainable file.fPos inode.iSize offset whence := by
  by_cases hset : whence = SEEK_SET
  · subst hset
    by_cases hzero : offset = 0
    · subst hzero
      have hpos : seekPos file.fPos inode.iSize 0 SEEK_SET = some 0 := rfl
      rw [seeksRight_iff_of_some (p := 0) h rfl hpos]
      show (none ≠ some 0 ∧ 0 ≤ 0 ∧ 0 ≤ inode.iSize.toInt ∧ 0 = 0) ↔ (0 : Word) = 0 ∧ 0 ≤ inode.iSize.toInt
      simp
    · have hpos : seekPos file.fPos inode.iSize offset SEEK_SET = some (inode.iSize.srem offset) := by
        rw [seekPos, if_pos rfl, if_pos hzero]
      rw [seeksRight_iff_of_some h rfl hpos]
      refine iff_of_false (fun hc => ?_) fun hc => hzero hc.1
      obtain ⟨-, hge, -, heq⟩ := hc
      exact srem_offset_ne inode.iSize hge hzero heq
  · by_cases hcur : whence = SEEK_CUR
    · subst hcur
      rw [seeksRight_iff_of_some h rfl rfl]
      exact srem_eq_iff
    · by_cases hend : whence = SEEK_END
      · subst hend
        rw [seeksRight_iff_of_some h rfl rfl]
        exact srem_eq_iff
      · -- no origin: an error, and nothing else
        have hnone : target file.fPos inode.iSize offset whence = none := by
          rw [target, if_neg hset, if_neg hcur, if_neg hend]
        have hseek : seekPos file.fPos inode.iSize offset whence = none := by
          rw [seekPos, if_neg hset, if_neg hcur, if_neg hend]
        have hdiv : divisor inode.iSize offset whence = none := by
          rw [divisor, if_neg hset, if_neg (not_or.mpr ⟨hcur, hend⟩)]
        have hreach : Attainable file.fPos inode.iSize offset whence := by
          rw [Attainable, if_neg hset, if_neg hcur, if_neg hend]
          trivial
        refine iff_of_true ⟨?_, fun p hp => ?_, fun _ => ?_⟩ hreach
        · rw [hdiv]
          simp
        · rw [hnone] at hp
          cases hp
        · exact ⟨-1, s, sysLseek_none h hseek, by decide, h.toFile⟩

/-- A descriptor of a regular file. -/
def regular (size fPos : Word) : System :=
  { longSystem with
    inodes := fun _ => ⟨sIfreg, 0xbeef, size, .romfs, some .romfs, 0, 0x70⟩
    filemap := 1
    filetable := fun _ => ⟨some (.static 1), some .romfs, fPos, 0x70⟩ }

theorem opened_regular (size fPos : Word) :
    Opened 0 (regular size fPos) ⟨some (.static 1), some .romfs, fPos, 0x70⟩
      ⟨sIfreg, 0xbeef, size, .romfs, some .romfs, 0, 0x70⟩ :=
  ⟨rfl, rfl, .romfs, rfl⟩

/-- Back by 4 bytes from the position 10. -/
theorem seeks_right_back :
    SeeksRight 0 (-4) SEEK_CUR (regular 100 10) ⟨some (.static 1), some .romfs, 10, 0x70⟩
      ⟨sIfreg, 0xbeef, 100, .romfs, some .romfs, 0, 0x70⟩ :=
  (seeks_right_iff 0 (-4) SEEK_CUR _ _ _ (opened_regular 100 10)).mpr (by decide)

/-- To the position 10 of a file of 100 bytes: the seek reports success and goes to 0. From the
position 0 of an empty file the seek divides by zero. -/
theorem seek_ten_goes_to_zero :
    (∃ t, sysLseek 0 10 SEEK_SET (regular 100 0) = some (0, t) ∧ (t.filetable 0).fPos = 0) ∧
    ¬ SeeksRight 0 10 SEEK_SET (regular 100 0) ⟨some (.static 1), some .romfs, 0, 0x70⟩
      ⟨sIfreg, 0xbeef, 100, .romfs, some .romfs, 0, 0x70⟩ ∧
    ¬ SeeksRight 0 0 SEEK_CUR (regular 0 0) ⟨some (.static 1), some .romfs, 0, 0x70⟩
      ⟨sIfreg, 0xbeef, 0, .romfs, some .romfs, 0, 0x70⟩ := by
  refine ⟨⟨_, rfl, ?_⟩, fun hr => ?_, fun hr => hr.divides rfl⟩
  · show (100 : Word).srem 10 = 0
    decide
  · obtain ⟨r, t, hrt, -, f, hf, hpos, -⟩ := hr.inside 10 rfl (by decide) (by decide)
    have hseek : sysLseek 0 10 SEEK_SET (regular 100 0) = _ := sysLseek_some (opened_regular 100 0) rfl
    obtain ⟨-, rfl⟩ := Prod.mk.inj (Option.some.inj (hseek.symm.trans hrt))
    obtain rfl := Option.some.inj ((fdToFile_setFile (opened_regular 100 0).toFile).symm.trans hf)
    exact absurd hpos (by decide)

end PikoRT.Fs.Seek

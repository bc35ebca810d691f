import PikoRT.Fs.Files
import PikoRT.Fs.OpenClose

/-! # Descriptors that are not open

No system call looks at the file map: each takes the entry of the file table for what it
is. An entry that was never opened holds no pointers, and one that was closed still holds
those of the file that it was. -/
namespace PikoRT.Fs.Descriptors
open PikoRT.Lib.Run PikoRT.Kernel.Bitops PikoRT.Libc.Printf
open PikoRT.Fs.Romfs PikoRT.Fs.Vfs PikoRT.Fs.Open PikoRT.Fs.Files PikoRT.Fs.OpenClose

/-- The calls on a descriptor, with their other arguments. -/
inductive Call
  | read (count : Word)
  | write (count : Word)
  | lseek (offset whence : Word)
  | close
  | readdirR
  | mmap (length prot flags offset : Word)

/-- What is outside of the file system. -/
structure Env where
  drivers : Drivers
  mapAnon : Word → Word → System → Option (Word × System)

def invoke (env : Env) (fuel : ℕ) (fd : ℤ) (s : System) : Call → Option (Word × System)
  | .read count => sysRead env.drivers fd count s
  | .write count => sysWrite env.drivers fd count s
  | .lseek offset whence => sysLseek fd offset whence s
  | .close => (sysClose fuel fd s).map fun r => (BitVec.ofInt 32 r.1, r.2)
  | .readdirR => (sysReaddirR fd s).map fun r => (r.1, r.2.2)
  | .mmap length prot flags offset => sysMmap env.mapAnon fuel length prot flags fd offset s

/-- A value that tells of an error. -/
def Call.Error : Call → Word → Prop
  | .read _, v | .write _, v | .lseek _ _, v => v.toInt < 0
  | .close, v | .readdirR, v => v ≠ 0
  | .mmap _ _ _ _, v => v = MAP_FAILED

/-- A mapping that is not anonymous. -/
def Call.FileBacked : Call → Prop
  | .mmap _ _ flags _ => flags &&& MAP_ANONYMOUS ≠ MAP_ANONYMOUS
  | _ => True

/-- The file table, the dentries and the heap are the same. -/
structure Untouched (s t : System) : Prop where
  filemap : t.filemap = s.filemap
  filetable : t.filetable = s.filetable
  dentries : t.dentries = s.dentries
  heap : t.heap = s.heap

/-- The call comes back with an error, and has touched nothing. -/
def Rejects (env : Env) (fd : ℤ) (s : System) (call : Call) : Prop :=
  ∃ fuel r, invoke env fuel fd s call = some r ∧ call.Error r.1 ∧ Untouched s r.2

/-- The descriptor is not open: it has no entry, or its bit is clear. -/
def NotOpen (fd : ℤ) (s : System) : Prop :=
  fd < 0 ∨ (FILE_MAX : ℤ) ≤ fd ∨ s.filemap.getLsbD fd.toNat = false

instance (fd : ℤ) (s : System) : Decidable (NotOpen fd s) := inferInstanceAs (Decidable (_ ∨ _ ∨ _))

/-- The cases in which a call rejects a descriptor all the same: an `lseek` with a strange
origin, through an entry that has been used; a mapping of no bytes; and a mapping through
an entry that does not lead to a regular file, or leads to one at the last address. -/
def Chance (fd : ℤ) (s : System) : Call → Prop
  | .lseek _ whence =>
    ∃ file inode op, fdToFile fd s = some file ∧ fileInode file s = some inode ∧ file.fOp = some op ∧
      whence ≠ SEEK_SET ∧ whence ≠ SEEK_CUR ∧ whence ≠ SEEK_END
  | .mmap length _ _ offset =>
    length = 0 ∨ ∃ file inode, fdToFile fd s = some file ∧ fileInode file s = some inode ∧
      (sIsreg inode.iMode = false ∨ ∃ fuel, vfsMmap fuel file inode offset s = some (0, MAP_FAILED))
  | .read _ | .write _ | .close | .readdirR => False

section

variable {env : Env} {fd : ℤ} {s t : System} {file : File}

theorem fdToFile_some (h : fdToFile fd s = some file) : s.filetable fd.toNat = file := by
  unfold fdToFile at h
  split at h
  · exact Option.some.inj h
  · cases h

/-- A transfer moves the position by what it returns, so that it cannot fail and leave the
position alone. -/
theorem not_rejected_of_transfer {n : Word} (hf : fdToFile fd s = some file)
    (hu : Untouched s (setFile fd { file with fPos := file.fPos + n } s)) : ¬ n.toInt < 0 := by
  have hfile := congrFun hu.filetable fd.toNat
  have hself : (setFile fd { file with fPos := file.fPos + n } s).filetable fd.toNat = _ := Function.update_self ..
  rw [hself, fdToFile_some hf] at hfile
  have hpos : file.fPos + n = file.fPos := congrArg File.fPos hfile
  have hn : n = 0 := by simpa using hpos
  rw [hn]
  decide

theorem not_rejects_read (count : Word) : ¬ Rejects env fd s (.read count) := by
  intro hr
  obtain ⟨fuel, r, hr, herr, hu⟩ := hr
  obtain ⟨file, hf, hr⟩ := Option.bind_eq_some_iff.mp hr
  split at hr
  · obtain rfl := Option.some.inj hr
    exact not_rejected_of_transfer hf hu herr
  · obtain ⟨op, -, hr⟩ := Option.bind_eq_some_iff.mp hr
    split at hr
    · obtain ⟨n, -, rfl⟩ := Option.map_eq_some_iff.mp hr
      exact not_rejected_of_transfer hf hu herr
    · cases hr

theorem not_rejects_write (count : Word) : ¬ Rejects env fd s (.write count) := by
  intro hr
  obtain ⟨fuel, r, hr, herr, hu⟩ := hr
  obtain ⟨file, hf, hr⟩ := Option.bind_eq_some_iff.mp hr
  obtain ⟨op, -, hr⟩ := Option.bind_eq_some_iff.mp hr
  split at hr
  · obtain ⟨n, -, rfl⟩ := Option.map_eq_some_iff.mp hr
    exact not_rejected_of_transfer hf hu herr
  · cases hr

theorem not_rejects_close : ¬ Rejects env fd s .close := by
  intro hr
  obtain ⟨fuel, r, hr, herr, -⟩ := hr
  obtain ⟨q, hq, rfl⟩ := Option.map_eq_some_iff.mp hr
  obtain ⟨file, -, hq⟩ := Option.bind_eq_some_iff.mp hq
  obtain ⟨dentry, -, hq⟩ := Option.bind_eq_some_iff.mp hq
  obtain ⟨p, -, rfl⟩ := Option.map_eq_some_iff.mp hq
  exact herr rfl

theorem not_rejects_readdirR : ¬ Rejects env fd s .readdirR := by
  intro hr
  obtain ⟨fuel, r, hr, herr, -⟩ := hr
  obtain ⟨q, hq, rfl⟩ := Option.map_eq_some_iff.mp hr
  obtain ⟨file, -, hq⟩ := Option.bind_eq_some_iff.mp hq
  obtain ⟨op, -, hq⟩ := Option.bind_eq_some_iff.mp hq
  refine herr ?_
  split at hq
  · obtain ⟨p, -, rfl⟩ := Option.map_eq_some_iff.mp hq
    rfl
  · obtain rfl := Option.some.inj hq
    rfl

theorem untouched_refl (s : System) : Untouched s s := ⟨rfl, rfl, rfl, rfl⟩

theorem untouched_fail (s : System) (e : Errno) : Untouched s (s.fail e) := ⟨rfl, rfl, rfl, rfl⟩

theorem seekPos_eq_none {fPos size offset whence : Word} :
    seekPos fPos size offset whence = none ↔ whence ≠ SEEK_SET ∧ whence ≠ SEEK_CUR ∧ whence ≠ SEEK_END := by
  unfold seekPos
  by_cases h0 : whence = SEEK_SET
  · simp [h0]
  · by_cases h1 : whence = SEEK_CUR
    · simp [h1, SEEK_SET, SEEK_CUR]
    · by_cases h2 : whence = SEEK_END
      · simp [h2, SEEK_SET, SEEK_CUR, SEEK_END]
      · simp [h0, h1, h2]

theorem rejects_lseek_iff (offset whence : Word) :
    Rejects env fd s (.lseek offset whence) ↔ Chance fd s (.lseek offset whence) := by
  constructor
  · intro hr
    obtain ⟨fuel, r, hr, herr, -⟩ := hr
    obtain ⟨file, hf, hr⟩ := Option.bind_eq_some_iff.mp hr
    obtain ⟨inode, hi, hr⟩ := Option.bind_eq_some_iff.mp hr
    obtain ⟨op, hop, hr⟩ := Option.map_eq_some_iff.mp hr
    cases hseek : seekPos file.fPos inode.iSize offset whence with
    | none => exact ⟨file, inode, op, hf, hi, hop, seekPos_eq_none.mp hseek⟩
    | some pos =>
      rw [hseek] at hr
      subst hr
      have hzero : (0 : Word).toInt < 0 := herr
      exact absurd hzero (by decide)
  · intro hc
    obtain ⟨file, inode, op, hf, hi, hop, hwhence⟩ := hc
    refine ⟨0, (-1, s), ?_, ?_, untouched_refl s⟩
    · rw [invoke, sysLseek, hf, Option.bind_some, hi, Option.bind_some, hop, Option.map_some,
        seekPos_eq_none.mpr hwhence]
    · show (-1 : Word).toInt < 0
      decide

theorem rejects_mmap_iff (length prot flags offset : Word) (hflags : flags &&& MAP_ANONYMOUS ≠ MAP_ANONYMOUS) :
    Rejects env fd s (.mmap length prot flags offset) ↔ Chance fd s (.mmap length prot flags offset) := by
  have hprot : prot &&& PROT_NONE = 0 := BitVec.and_zero
  by_cases hlen : length = 0
  · refine ⟨fun _ => .inl hlen, fun _ => ⟨0, (MAP_FAILED, s.fail .EINVAL), ?_, rfl, untouched_fail s _⟩⟩
    rw [invoke, sysMmap, if_pos hlen]
  · have hmap : ∀ fuel, invoke env fuel fd s (.mmap length prot flags offset) = mapFile fuel fd offset s := by
      intro fuel
      rw [invoke, sysMmap, if_neg hlen, if_neg (not_not.mpr hprot), if_neg hflags]
    constructor
    · intro hr
      obtain ⟨fuel, r, hr, herr, -⟩ := hr
      rw [hmap] at hr
      obtain ⟨file, hf, hr⟩ := Option.bind_eq_some_iff.mp hr
      obtain ⟨inode, hi, hr⟩ := Option.bind_eq_some_iff.mp hr
      refine .inr ⟨file, inode, hf, hi, ?_⟩
      split at hr
      · exact .inl ‹_›
      · obtain ⟨q, hq, hr⟩ := Option.bind_eq_some_iff.mp hr
        split at hr
        · cases hr
        · rename_i hzero
          obtain rfl := Option.some.inj hr
          refine .inr ⟨fuel, ?_⟩
          rw [hq]
          exact congrArg some (Prod.ext (not_not.mp hzero) herr)
    · intro hc
      obtain ⟨file, inode, hf, hi, hc⟩ := hc.resolve_left hlen
      rcases hc with hreg | ⟨fuel, hvfs⟩
      · refine ⟨0, (MAP_FAILED, s.fail .EACCES), ?_, rfl, untouched_fail s _⟩
        rw [hmap, mapFile, hf, Option.bind_some, hi, Option.bind_some, if_pos hreg]
      · by_cases hreg : sIsreg inode.iMode = false
        · refine ⟨0, (MAP_FAILED, s.fail .EACCES), ?_, rfl, untouched_fail s _⟩
          rw [hmap, mapFile, hf, Option.bind_some, hi, Option.bind_some, if_pos hreg]
        · refine ⟨fuel, (MAP_FAILED, s), ?_, rfl, untouched_refl s⟩
          rw [hmap, mapFile, hf, Option.bind_some, hi, Option.bind_some, if_neg hreg, hvfs]
          rfl

end

/-- **A call is rejected only by chance**, on a descriptor that is not open as on others: nothing looks
whether it is. -/
theorem notOpen_rejected_iff (env : Env) (fd : ℤ) (s : System) (call : Call) (hfile : call.FileBacked) :
    Rejects env fd s call ↔ Chance fd s call := by
  cases call with
  | read count => exact iff_of_false (not_rejects_read count) id
  | write count => exact iff_of_false (not_rejects_write count) id
  | lseek offset whence => exact rejects_lseek_iff offset whence
  | close => exact iff_of_false not_rejects_close id
  | readdirR => exact iff_of_false not_rejects_readdirR id
  | mmap length prot flags offset => exact rejects_mmap_iff length prot flags offset hfile

/-- Drivers that transfer everything, but nothing from `/dev/null`, and no memory to map. -/
def plainEnv : Env where
  drivers := ⟨fun op _ count _ _ => some (if op = .null then 0 else count), fun _ _ count _ _ => some count⟩
  mapAnon := fun _ _ s => some (MAP_FAILED, s.fail .ENOMEM)

/-- `/dev` is opened and closed again. -/
def closedRun : List Act := [.open 20 (path "/dev") 0, .close 20 0]

/-- The entry of the closed file leads to the inode of `/dev`. -/
theorem closedRun_entry :
    ∃ x, run step ⟨longSystem, []⟩ closedRun = some x ∧ NotOpen 0 x.sys ∧
      x.sys.filetable 0 = ⟨some (.heap 0x20000150), some .tmpfs, 0, 0⟩ := by
  have hrun : (run step ⟨longSystem, []⟩ closedRun).map (fun x => (x.sys.filemap, x.sys.filetable 0)) =
      some (0, ⟨some (.heap 0x20000150), some .tmpfs, 0, 0⟩) := by decide +kernel
  obtain ⟨x, hx, he⟩ := Option.map_eq_some_iff.mp hrun
  obtain ⟨hmap, htable⟩ := Prod.mk.inj he
  refine ⟨x, hx, .inr (.inr ?_), htable⟩
  rw [hmap]
  rfl

theorem notOpen_rejected_lseek :
    ∃ x, run step ⟨longSystem, []⟩ closedRun = some x ∧ NotOpen 0 x.sys ∧
      Rejects plainEnv 0 x.sys (.lseek 4 7) := by
  obtain ⟨x, hx, hnot, htable⟩ := closedRun_entry
  refine ⟨x, hx, hnot, (notOpen_rejected_iff plainEnv 0 x.sys (.lseek 4 7) trivial).mpr ?_⟩
  exact ⟨_, _, _, congrArg some htable, rfl, rfl, by decide, by decide, by decide⟩

/-- A second close of the descriptor reports success, and 8 is not an index of the file table. -/
theorem closed_fd_accepted :
    ∃ x, run step ⟨longSystem, []⟩ closedRun = some x ∧ NotOpen 0 x.sys ∧
      (∃ t, invoke plainEnv 20 0 x.sys .close = some (0, t)) ∧ ¬ Rejects plainEnv 0 x.sys .close ∧
      NotOpen 8 x.sys ∧ fdToFile 8 x.sys = none ∧ ¬ Rejects plainEnv 8 x.sys (.lseek 0 SEEK_SET) := by
  have hrun : ((run step ⟨longSystem, []⟩ closedRun).bind fun x => invoke plainEnv 20 0 x.sys .close).map Prod.fst =
      some 0 := by decide +kernel
  obtain ⟨x, hx, hnot, -⟩ := closedRun_entry
  rw [hx, Option.bind_some] at hrun
  obtain ⟨r, hr, hr0⟩ := Option.map_eq_some_iff.mp hrun
  refine ⟨x, hx, hnot, ⟨r.2, ?_⟩, not_rejects_close, .inr (.inl le_rfl), rfl, ?_⟩
  · rw [hr, ← hr0]
  · rw [rejects_lseek_iff]
    intro hc
    obtain ⟨file, inode, op, hf, -⟩ := hc
    cases hf

end PikoRT.Fs.Descriptors

import PikoRT.Fs.Mtdram

/-! # Mapping a file (`kernel/mm/mm.c`, `fs/romfs.c`)

`romfs_mmap` asks the device for as many bytes as the whole file has, from the place that is to be
mapped on, and `map_file` loops when it does not get them. The offset is not compared with
the size of the file. -/
namespace PikoRT.Fs.Mmap
open PikoRT.Kernel.Bitops PikoRT.Libc.Printf PikoRT.Fs.Romfs PikoRT.Fs.Vfs PikoRT.Fs.Open PikoRT.Fs.Files
open PikoRT.Fs.Drivers (MtdRefuses)
open PikoRT.Fs.Seek (Opened)

abbrev MapAnon := Word → Word → System → Option (Word × System)

def superBlock (inode : Inode) (s : System) : SuperBlock := s.superBlocks inode.iSb

/-- The name in the header of the inode has `n` characters. -/
def Named (inode : Inode) (s : System) (n : Word) : Prop :=
  ∃ fuel, strlen s.rom fuel (Romfs.fileName (romfsInode (superBlock inode s).rs inode.iPrivate)) = some n

/-- Where the contents begin, behind the header and a name of `n` characters. -/
def dataOffset (inode : Inode) (n : Word) : Word := inode.iPrivate + (16 + alignNext (n + 1))

/-- A regular file of an image, with its contents on the device, and an offset in it. -/
structure Mappable (file : File) (inode : Inode) (s : System) (n offset : Word) : Prop where
  regular : sIsreg inode.iMode = true
  romfs : file.fOp = some .romfs
  named : Named inode s n
  inside : inode.iPrivate.toNat + (16 + alignNext (n + 1)).toNat + inode.iSize.toNat ≤
    (superBlock inode s).mtdSize.toNat
  nonneg : 0 ≤ offset.toInt
  below : offset.toInt < inode.iSize.toNat

/-- The mapping comes back, with the address of the byte if there is one. -/
def Answers (mapAnon : MapAnon) (length prot flags : Word) (fd : ℤ) (offset : Word) (s : System) (file : File)
    (inode : Inode) : Prop :=
  ∃ k r, (∀ fuel ≥ k, sysMmap mapAnon fuel length prot flags fd offset s = some r) ∧
    (∀ n, Mappable file inode s n offset → r.1 = (superBlock inode s).rs + (dataOffset inode n + offset)) ∧
    ((¬ ∃ n, Mappable file inode s n offset) → r.1 = MAP_FAILED)

/-- Not a regular file; or one of an image with a size, whose device has as many bytes from the place
on; and the offset is in the file, or the place has the address `MAP_FAILED`. -/
def Granted (file : File) (inode : Inode) (s : System) (offset : Word) : Prop :=
  sIsreg inode.iMode = false ∨ file.fOp = some .romfs ∧ ∃ n, Named inode s n ∧ inode.iSize ≠ 0 ∧
    ¬ MtdRefuses (superBlock inode s).mtdSize (dataOffset inode n + offset) inode.iSize ∧
    (Mappable file inode s n offset ∨ (superBlock inode s).rs + (dataOffset inode n + offset) = MAP_FAILED)

section

variable {s t : System} {fd : ℤ} {file : File} {inode : Inode} {n m length prot flags offset : Word} {fuel : ℕ}
  {mapAnon : MapAnon} {op : FileOperations} {r : Word × System}

theorem strlen_mono {rom : Rom} {str n : Word} {k j : ℕ} (h : strlen rom k str = some n) (hle : k ≤ j) :
    strlen rom j str = some n := by
  induction k generalizing j str n with
  | zero => cases h
  | succ k ih =>
    obtain ⟨j, rfl⟩ : ∃ i, j = i + 1 := ⟨j - 1, by omega⟩
    rw [strlen] at h ⊢
    by_cases hz : rom str = 0
    · rw [if_pos hz] at h ⊢
      exact h
    · rw [if_neg hz] at h ⊢
      obtain ⟨n', hn', rfl⟩ := Option.map_eq_some_iff.mp h
      rw [ih hn' (Nat.le_of_succ_le_succ hle), Option.map_some]

theorem Named.unique (h : Named inode s n) (h' : Named inode s m) : n = m := by
  obtain ⟨k, hk⟩ := h
  obtain ⟨j, hj⟩ := h'
  have hmax := strlen_mono hk (Nat.le_max_left k j)
  rw [strlen_mono hj (Nat.le_max_right k j)] at hmax
  exact (Option.some.inj hmax).symm

/-- What is left of the call without `MAP_ANONYMOUS`. -/
theorem sysMmap_eq (ho : Opened fd s file inode) (hlen : length ≠ 0) (hflags : flags &&& MAP_ANONYMOUS ≠ MAP_ANONYMOUS)
    (mapAnon : MapAnon) (prot : Word) (fuel : ℕ) :
    sysMmap mapAnon fuel length prot flags fd offset s =
      if sIsreg inode.iMode = false then some (MAP_FAILED, s.fail .EACCES)
      else (vfsMmap fuel file inode offset s).bind fun r => if r.1 ≠ 0 then none else some (r.2, s) := by
  have hprot : ¬ prot &&& PROT_NONE ≠ 0 := not_not.mpr BitVec.and_zero
  rw [sysMmap, if_neg hlen, if_neg hprot, if_neg hflags, mapFile, ho.toFile, Option.bind_some, ho.toInode,
    Option.bind_some]

theorem mtdPoint_refused {priv size «from» len : Word} (h : MtdRefuses size «from» len) :
    mtdPoint priv size «from» len = (-22, 0) := if_pos h

theorem mtdPoint_accepted {priv size «from» len : Word} (h : ¬ MtdRefuses size «from» len) :
    mtdPoint priv size «from» len = if len = 0 then (0, 0) else (0, priv + «from») := if_neg h

/-- A device that does not have the bytes keeps the call in its loop. -/
theorem vfsMmap_romfs (hop : file.fOp = some .romfs)
    (hn : strlen s.rom fuel (Romfs.fileName (romfsInode (superBlock inode s).rs inode.iPrivate)) = some n) :
    ((vfsMmap fuel file inode offset s).bind fun r => if r.1 ≠ 0 then none else some (r.2, s)) =
      if MtdRefuses (superBlock inode s).mtdSize (dataOffset inode n + offset) inode.iSize then none
      else some (if inode.iSize = 0 then 0 else (superBlock inode s).rs + (dataOffset inode n + offset), s) := by
  have hmmap : vfsMmap fuel file inode offset s =
      some (mtdPoint (superBlock inode s).rs (superBlock inode s).mtdSize (dataOffset inode n + offset)
      inode.iSize) := by
    rw [vfsMmap, hop, Option.bind_some]
    dsimp only
    rw [romfsMmap]
    dsimp only
    unfold superBlock at hn
    rw [hn, Option.map_some]
    rfl
  rw [hmmap, Option.bind_some]
  by_cases hrefuse : MtdRefuses (superBlock inode s).mtdSize (dataOffset inode n + offset) inode.iSize
  · rw [mtdPoint_refused hrefuse, if_pos hrefuse]
    rfl
  · rw [mtdPoint_accepted hrefuse, if_neg hrefuse]
    split <;> rfl

/-- A file of an image whose name ends. -/
theorem sysMmap_romfs (ho : Opened fd s file inode) (hlen : length ≠ 0)
    (hflags : flags &&& MAP_ANONYMOUS ≠ MAP_ANONYMOUS)
    (hreg : sIsreg inode.iMode = true) (hop : file.fOp = some .romfs) (hn : Named inode s n) (mapAnon : MapAnon)
    (prot : Word) :
    ∃ k, ∀ fuel ≥ k, sysMmap mapAnon fuel length prot flags fd offset s =
      if MtdRefuses (superBlock inode s).mtdSize (dataOffset inode n + offset) inode.iSize then none
      else some (if inode.iSize = 0 then 0 else (superBlock inode s).rs + (dataOffset inode n + offset), s) := by
  obtain ⟨k, hk⟩ := hn
  refine ⟨k, fun fuel hle => ?_⟩
  rw [sysMmap_eq ho hlen hflags, if_neg (by simp [hreg]), vfsMmap_romfs hop (strlen_mono hk hle)]

theorem named_of_answers (ho : Opened fd s file inode) (hlen : length ≠ 0)
    (hflags : flags &&& MAP_ANONYMOUS ≠ MAP_ANONYMOUS)
    (hreg : sIsreg inode.iMode = true) (hr : sysMmap mapAnon fuel length prot flags fd offset s = some r) :
    file.fOp = some .romfs ∧ ∃ n, Named inode s n := by
  rw [sysMmap_eq ho hlen hflags, if_neg (by simp [hreg])] at hr
  obtain ⟨q, hq, hr⟩ := Option.bind_eq_some_iff.mp hr
  obtain ⟨op, hop, hq⟩ := Option.bind_eq_some_iff.mp hq
  by_cases hromfs : op = .romfs
  · subst hromfs
    obtain ⟨n, hn, -⟩ := Option.map_eq_some_iff.mp hq
    exact ⟨hop, n, fuel, hn⟩
  · -- the other tables have no `mmap`
    obtain rfl : (-1, 0) = q := by
      cases op <;> first | exact Option.some.inj hq | exact absurd rfl hromfs
    cases hr

theorem answers_of_granted (ho : Opened fd s file inode) (hlen : length ≠ 0)
    (hflags : flags &&& MAP_ANONYMOUS ≠ MAP_ANONYMOUS) (h : Granted file inode s offset) :
    Answers mapAnon length prot flags fd offset s file inode := by
  rcases h with hreg | ⟨hop, n, hn, hsize, hrefuse, hplace⟩
  · have hno : ∀ n, ¬ Mappable file inode s n offset := fun n hm => by
      rw [hm.regular] at hreg
      cases hreg
    refine ⟨0, (MAP_FAILED, s.fail .EACCES), fun fuel _ => ?_, fun n hm => absurd hm (hno n), fun _ => rfl⟩
    rw [sysMmap_eq ho hlen hflags, if_pos hreg]
  · by_cases hreg : sIsreg inode.iMode = true
    · obtain ⟨k, hk⟩ := sysMmap_romfs ho hlen hflags hreg hop hn mapAnon prot
      refine ⟨k, _, fun fuel hle => (hk fuel hle).trans ((if_neg hrefuse).trans (by rw [if_neg hsize])),
        fun m hm => ?_,
        fun hno => hplace.resolve_left fun hm => hno ⟨n, hm⟩⟩
      rw [hm.named.unique hn]
    · have hno : ∀ n, ¬ Mappable file inode s n offset := fun n hm => hreg hm.regular
      refine ⟨0, (MAP_FAILED, s.fail .EACCES), fun fuel _ => ?_, fun n hm => absurd hm (hno n), fun _ => rfl⟩
      rw [sysMmap_eq ho hlen hflags, if_pos (by simpa using hreg)]

theorem granted_of_answers (ho : Opened fd s file inode) (hlen : length ≠ 0)
    (hflags : flags &&& MAP_ANONYMOUS ≠ MAP_ANONYMOUS) (h : Answers mapAnon length prot flags fd offset s file inode) :
    Granted file inode s offset := by
  obtain ⟨k, r, hr, haddr, hfailed⟩ := h
  by_cases hreg : sIsreg inode.iMode = true
  · obtain ⟨hop, n, hn⟩ := named_of_answers ho hlen hflags hreg (hr k le_rfl)
    obtain ⟨j, hj⟩ := sysMmap_romfs ho hlen hflags hreg hop hn mapAnon prot
    have heq := (hr _ (Nat.le_max_left k j)).symm.trans (hj _ (Nat.le_max_right k j))
    by_cases hrefuse : MtdRefuses (superBlock inode s).mtdSize (dataOffset inode n + offset) inode.iSize
    · rw [if_pos hrefuse] at heq
      cases heq
    · rw [if_neg hrefuse, Option.some.injEq] at heq
      subst heq
      by_cases hm : Mappable file inode s n offset
      · have hsize : inode.iSize ≠ 0 := by
          intro hz
          have hbelow := hm.below
          rw [hz] at hbelow
          exact absurd hm.nonneg (not_le.mpr hbelow)
        exact .inr ⟨hop, n, hn, hsize, hrefuse, .inl hm⟩
      · have hno : ¬ ∃ m, Mappable file inode s m offset := fun hex => by
          obtain ⟨m, hm'⟩ := hex
          exact hm (hm'.named.unique hn ▸ hm')
        have hplace := hfailed hno
        have hsize : inode.iSize ≠ 0 := by
          intro hz
          dsimp only at hplace
          rw [if_pos hz] at hplace
          exact absurd hplace (by decide)
        dsimp only at hplace
        rw [if_neg hsize] at hplace
        exact .inr ⟨hop, n, hn, hsize, hrefuse, .inr hplace⟩
  · exact .inl (by simpa using hreg)

end

/-- **A mapping answers as it should** exactly when the file is not regular, or has an image's device
with as many bytes as it is long from the place on, and the offset is in the file. -/
theorem mmap_answers_iff {fd : ℤ} {s : System} {file : File} {inode : Inode} {length flags : Word} (mapAnon : MapAnon)
    (prot offset : Word) (ho : Opened fd s file inode) (hlen : length ≠ 0)
    (hflags : flags &&& MAP_ANONYMOUS ≠ MAP_ANONYMOUS) :
    Answers mapAnon length prot flags fd offset s file inode ↔ Granted file inode s offset :=
  ⟨granted_of_answers ho hlen hflags, answers_of_granted ho hlen hflags⟩

/-! ## A file of five bytes -/

theorem opened_far (fPos : Word) : Opened 0 (RomfsRead.farOpened fPos) (RomfsRead.farFile fPos) RomfsRead.farInode :=
  ⟨rfl, rfl, .romfs, rfl⟩

theorem named_far : Named RomfsRead.farInode (RomfsRead.farOpened 0) 3 := ⟨4, by decide +kernel⟩

/-- The last byte. -/
theorem mmap_answers_iff_far :
    Answers (fun _ _ _ => none) 256 0 0 0 4 (RomfsRead.farOpened 0) (RomfsRead.farFile 0) RomfsRead.farInode :=
  (mmap_answers_iff (fun _ _ _ => none) 0 4 (opened_far 0) (by decide) (by decide)).mpr
    (.inr ⟨rfl, 3, named_far, by decide, by decide,
      .inl ⟨by decide, rfl, named_far, by decide, by decide, by decide⟩⟩)

/-- An offset behind the end of the device. -/
theorem mmap_behind_device_spins :
    ¬ Answers (fun _ _ _ => none) 256 0 0 0 0x10000 (RomfsRead.farOpened 0) (RomfsRead.farFile 0)
    RomfsRead.farInode := by
  intro h
  have hrefuse : MtdRefuses (superBlock RomfsRead.farInode (RomfsRead.farOpened 0)).mtdSize
      (dataOffset RomfsRead.farInode 3 + 0x10000) RomfsRead.farInode.iSize := by decide
  rcases granted_of_answers (opened_far 0) (by decide) (by decide) h with hreg | ⟨-, n, hn, -, haccept, -⟩
  · exact absurd hreg (by decide)
  · obtain rfl := hn.unique named_far
    exact haccept hrefuse

end PikoRT.Fs.Mmap

import PikoRT.Arch.V7m
import PikoRT.Mm.PageUse

/-! # The stacks of a thread

`thread_create` takes two blocks of pages: one for the interrupt stack, with the
`thread_info` at its bottom, and one for the stack of the thread. Each gets a first
context at its upper end. `thread_exit` finds the second block again from the stack
pointer, with `align`. -/
namespace PikoRT.Thread.Stack
open PikoRT.Kernel.Bitops PikoRT.Lib.Words PikoRT.Lib.Run PikoRT.Arch.V7m PikoRT.Mm.Page
open PikoRT.Mm
open PikoRT.Mm.PageRun (PgMem bytes boot step pgMem64k)
open PikoRT.Mm.PageUse

/-- `INTR_STACK_SIZE`. -/
abbrev intrStackSize : Word := 512

/-- `sizeof(struct kernel_context_regs)`. -/
abbrev sizeofKernelContextRegs : Word := 40

/-- `sizeof(struct thread_context_regs)`. -/
abbrev sizeofThreadContextRegs : Word := 32

/-- `xPSR_T_Msk`. -/
abbrev xpsrTMsk : Word := 1#32 <<< 24

/-- `V7M_EXC_RETURN_THREAD_PROCESS`. -/
abbrev excReturnThreadProcess : Word := 0xFFFFFFFD

def v7mClearThumbBit (addr : Word) : Word := addr &&& ~~~1

/-- The page bitmaps and memory. -/
structure Ram where
  pb : PageBitmap
  mem : Mem

/-- `alloc_interrupt_stack`. -/
def allocInterruptStack (pg : PgMem) (s : Ram) : Option Word × Ram :=
  let r := allocPages pg.start s.pb (ulongOrder intrStackSize)
  match r.1 with
  | none => (none, ⟨r.2, s.mem⟩)
  | some memp =>
    let kcr := memp + intrStackSize - sizeofKernelContextRegs
    (some kcr, ⟨r.2, storeWords s.mem kcr (List.replicate 9 0 ++ [excReturnThreadProcess])⟩)

/-- The first context of a thread. -/
def firstContext (pthreadExit startRoutine arg : Word) : ThreadContextRegs :=
  ⟨arg, 0, 0, 0, 0, pthreadExit, v7mClearThumbBit startRoutine, xpsrTMsk⟩

/-- `alloc_thread_stack`. -/
def allocThreadStack (pg : PgMem) (pthreadExit startRoutine arg stacksize : Word) (s : Ram) :
    Option Word × Ram :=
  let r := allocPages pg.start s.pb (ulongOrder stacksize)
  match r.1 with
  | none => (none, ⟨r.2, s.mem⟩)
  | some memp =>
    let tcr := memp + stacksize - sizeofThreadContextRegs
    (some tcr, ⟨r.2, storeWords s.mem tcr (firstContext pthreadExit startRoutine arg).words⟩)

/-- What `thread_exit` passes to `free_pages` for the stack. -/
def stackFreed (psp stacksize : Word) : Addr × ℕ := (align psp stacksize.toNat, ulongOrder stacksize)

/-- `struct rlimit`. -/
structure Rlimit where
  rlimCur : Word
  rlimMax : Word

/-- `rlimits[RLIMIT_STACK]`. -/
def rlimitStack : Rlimit := ⟨1024, 1024⟩

/-- The stack size in `sys_pthread_create`; the argument is the `stacksize` of the attributes. -/
def pthreadStackSize (stacklimit : Rlimit) (attr : Option Word) : Word :=
  match attr with
  | some stacksize => if stacksize < stacklimit.rlimMax then stacksize else stacklimit.rlimMax
  | none => stacklimit.rlimCur

/-! ## Where the first context lies -/

section

variable {pg : PgMem} {s : PageRun.State} {memp psp n : Word}

/-- The address of a block and an offset in it have no bits in common. -/
theorem and_eq_zero_of_aligned {o : ℕ} {x : Word} (hal : memp.toNat % (MIN_PAGE_SIZE * 2 ^ o) = 0)
    (hx : x.toNat < MIN_PAGE_SIZE * 2 ^ o) : memp &&& x = 0#32 := by
  have hsize : MIN_PAGE_SIZE * 2 ^ o = 2 ^ (8 + o) := by rw [pow_add]; rfl
  rw [hsize] at hal hx
  refine BitVec.eq_of_getLsbD_eq fun i _ => ?_
  rw [BitVec.getLsbD_and, BitVec.getLsbD_zero]
  by_cases hi : i < 8 + o
  · have hlow : memp.getLsbD i = (memp.toNat % 2 ^ (8 + o)).testBit i := by
      rw [Nat.testBit_mod_two_pow]
      simp [hi, BitVec.getLsbD]
    rw [hlow, hal, Nat.zero_testBit, Bool.false_and]
  · have hhigh : x.getLsbD i = false :=
      Nat.testBit_lt_two_pow (lt_of_lt_of_le hx (Nat.pow_le_pow_right (by norm_num) (by omega)))
    rw [hhigh, Bool.and_false]

/-- `align` finds the block exactly when it keeps no bit of the offset. -/
theorem align_eq_iff {o : ℕ} (hal : memp.toNat % (MIN_PAGE_SIZE * 2 ^ o) = 0)
    (hn : (n - 1).toNat < MIN_PAGE_SIZE * 2 ^ o) (hx : (psp - memp).toNat < MIN_PAGE_SIZE * 2 ^ o) :
    align psp n.toNat = memp ↔ (psp - memp) &&& (n - 1) = psp - memp := by
  have hpsp : psp = memp ||| (psp - memp) := by
    rw [← BitVec.add_eq_or_of_and_eq_zero _ _ (and_eq_zero_of_aligned hal hx)]
    exact (add_sub_cancel memp psp).symm
  have hmask := and_eq_zero_of_aligned hal hn
  have hoff := and_eq_zero_of_aligned hal hx
  unfold align
  rw [BitVec.ofNat_toNat, BitVec.setWidth_eq]
  generalize psp - memp = x at *
  generalize n - 1 = m at *
  subst hpsp
  simp only [BitVec.eq_of_getLsbD_eq_iff, BitVec.getLsbD_and, BitVec.getLsbD_or, BitVec.getLsbD_not,
    BitVec.getLsbD_zero] at hmask hoff ⊢
  refine forall_congr' fun i => forall_congr' fun hi => ?_
  have h1 := hmask i hi
  have h2 := hoff i hi
  revert h1 h2
  cases memp.getLsbD i <;> cases x.getLsbD i <;> cases m.getLsbD i <;> simp [hi]

/-- `n - 1` covers every offset below `n` exactly when `n` is a power of two. -/
theorem forall_and_pred_iff {n : ℕ} (hn : 0 < n) : (∀ x < n, x &&& (n - 1) = x) ↔ ∃ k, n = 2 ^ k := by
  constructor
  · intro h
    have hle : 2 ^ Nat.log 2 n ≤ n := Nat.pow_log_le_self 2 hn.ne'
    have hlt : n < 2 ^ (Nat.log 2 n + 1) := Nat.lt_pow_succ_log_self one_lt_two n
    rw [pow_succ] at hlt
    have hpos : 0 < 2 ^ Nat.log 2 n := by positivity
    refine ⟨Nat.log 2 n, ?_⟩
    have hmask := h (2 ^ Nat.log 2 n - 1) (by omega)
    rw [Nat.and_comm, Nat.and_two_pow_sub_one_eq_mod] at hmask
    by_contra hne
    rw [Nat.mod_eq_sub_mod (by omega), Nat.mod_eq_of_lt (by omega)] at hmask
    omega
  · rintro ⟨k, rfl⟩ x hx
    rw [Nat.and_two_pow_sub_one_eq_mod, Nat.mod_eq_of_lt hx]

theorem forall_align_eq_iff {o : ℕ} (hal : memp.toNat % (MIN_PAGE_SIZE * 2 ^ o) = 0)
    (hpos : 0 < n.toNat) (hn : n.toNat ≤ MIN_PAGE_SIZE * 2 ^ o) :
    (∀ psp : Word, (psp - memp).toNat < n.toNat → align psp n.toNat = memp) ↔ ∃ k, n.toNat = 2 ^ k := by
  have hpred : (n - 1).toNat = n.toNat - 1 := by bv_omega
  have hkeeps : ∀ x : Word, x &&& (n - 1) = x ↔ x.toNat &&& (n.toNat - 1) = x.toNat := by
    intro x
    rw [← hpred, ← BitVec.toNat_and]
    exact BitVec.toNat_inj.symm
  rw [← forall_and_pred_iff hpos]
  constructor
  · intro h x hx
    have hlt := n.isLt
    have hword : (BitVec.ofNat 32 x).toNat = x := toNat_ofNat_of_lt (by omega)
    have hoff : memp + BitVec.ofNat 32 x - memp = BitVec.ofNat 32 x := add_sub_cancel_left _ _
    have hfound := (align_eq_iff hal (by omega) (by rw [hoff]; omega)).mp
      (h (memp + BitVec.ofNat 32 x) (by rw [hoff]; omega))
    rw [hoff, hkeeps, hword] at hfound
    exact hfound
  · intro h psp hpsp
    exact (align_eq_iff hal (by omega) (by omega)).mpr ((hkeeps _).mpr (h _ hpsp))

/-- The frame lies in the block when the stack is large enough for it. -/
theorem frame_inside_iff {o : ℕ} (hn : n.toNat ≤ MIN_PAGE_SIZE * 2 ^ o) (ho : o ≤ 3) :
    (∀ k < 32, memp + n - sizeofThreadContextRegs + BitVec.ofNat 32 k ∈ bytes memp o) ↔ 32 ≤ n.toNat := by
  have hoff : ∀ k : ℕ, memp + n - sizeofThreadContextRegs + BitVec.ofNat 32 k - memp =
      n - sizeofThreadContextRegs + BitVec.ofNat 32 k := fun k => by ring
  have hsize : MIN_PAGE_SIZE * 2 ^ o ≤ 2048 := by interval_cases o <;> decide
  have hmem : ∀ k : ℕ, memp + n - sizeofThreadContextRegs + BitVec.ofNat 32 k ∈ bytes memp o ↔
      (n - sizeofThreadContextRegs + BitVec.ofNat 32 k).toNat < MIN_PAGE_SIZE * 2 ^ o := by
    intro k
    rw [← hoff k]
    exact Iff.rfl
  constructor
  · intro h
    have hfirst := (hmem 0).mp (h 0 (by norm_num))
    by_contra hlt
    bv_omega
  · intro h k hk
    refine (hmem k).mpr ?_
    bv_omega

end

/-! ## The stack of a new thread -/

/-- The block that `alloc_thread_stack` takes has the first context inside, and from every
stack pointer in the stack `thread_exit` finds the block and its order. -/
def OneBlock (pg : PgMem) (pb : PageBitmap) (stacksize tcr : Word) : Prop :=
  ∃ memp, (allocPages pg.start pb (ulongOrder stacksize)).1 = some memp ∧
    (∀ k < 32, tcr + BitVec.ofNat 32 k ∈ bytes memp (ulongOrder stacksize)) ∧
    ∀ psp : Word, (psp - memp).toNat < stacksize.toNat → stackFreed psp stacksize = (memp, ulongOrder stacksize)

/-- The sizes that are powers of two when they have been cut down to the limit. -/
theorem capped_iff {n size : ℕ} (h : n = min size 1024) :
    (32 ≤ n ∧ ∃ k, n = 2 ^ k) ↔ 1024 ≤ size ∨ ∃ k, 5 ≤ k ∧ size = 2 ^ k := by
  by_cases hbig : 1024 ≤ size
  · rw [min_eq_right hbig] at h
    subst h
    exact iff_of_true ⟨by norm_num, 10, rfl⟩ (.inl hbig)
  · rw [min_eq_left (by omega)] at h
    subst h
    constructor
    · rintro ⟨hle, k, rfl⟩
      exact .inr ⟨k, (Nat.pow_le_pow_iff_right one_lt_two (n := 5)).mp hle, rfl⟩
    · rintro (hle | ⟨k, hk, rfl⟩)
      · exact absurd hle hbig
      · exact ⟨Nat.pow_le_pow_right (n := 2) two_pos hk, k, rfl⟩

theorem exists_of_allocThreadStack {pg : PgMem} {pthreadExit startRoutine arg stacksize tcr : Word} {s : Ram}
    (ha : (allocThreadStack pg pthreadExit startRoutine arg stacksize s).1 = some tcr) :
    ∃ memp, (allocPages pg.start s.pb (ulongOrder stacksize)).1 = some memp ∧
      memp + stacksize - sizeofThreadContextRegs = tcr := by
  unfold allocThreadStack at ha
  dsimp only at ha
  cases hr : (allocPages pg.start s.pb (ulongOrder stacksize)).1 with
  | none =>
    rw [hr] at ha
    cases ha
  | some memp =>
    rw [hr] at ha
    exact ⟨memp, rfl, Option.some.inj ha⟩

theorem toNat_pthreadStackSize (size : Word) :
    (pthreadStackSize rlimitStack (some size)).toNat = min size.toNat 1024 := by
  have hmax : rlimitStack.rlimMax.toNat = 1024 := rfl
  simp only [pthreadStackSize]
  split_ifs with h <;> rw [BitVec.lt_def] at h <;> omega

/-- **The stack and its block.** For every size that is asked for, the stack of the thread
is placed in and freed from one block exactly when the size is a power of two that has room
for a context, or is cut down to the limit. -/
theorem oneBlock_iff (pg : PgMem) (s : PageRun.State) (hs : Reachable (step pg) boot s) (mem : Mem)
    (pthreadExit startRoutine arg size tcr : Word)
    (ha : (allocThreadStack pg pthreadExit startRoutine arg (pthreadStackSize rlimitStack (some size))
      ⟨s.pb, mem⟩).1 = some tcr) :
    OneBlock pg s.pb (pthreadStackSize rlimitStack (some size)) tcr ↔
      1024 ≤ size.toNat ∨ ∃ k, 5 ≤ k ∧ size.toNat = 2 ^ k := by
  have hsize := toNat_pthreadStackSize size
  generalize pthreadStackSize rlimitStack (some size) = n at *
  have hsmall : n.toNat ≤ 2048 := by omega
  obtain ⟨-, ho, hroom⟩ := ulongOrder_of_le hsmall
  obtain ⟨memp, hmemp, htcr⟩ := exists_of_allocThreadStack ha
  have hal := (PageRun.reachable_inv hs).alloc_aligned hmemp
  have hblock : OneBlock pg s.pb n tcr ↔ 32 ≤ n.toNat ∧ ∃ k, n.toNat = 2 ^ k := by
    subst htcr
    constructor
    · rintro ⟨memp', hmemp', hin, hfree⟩
      obtain rfl : memp = memp' := Option.some.inj (hmemp.symm.trans hmemp')
      have hle := (frame_inside_iff hroom ho).mp hin
      refine ⟨hle, (forall_align_eq_iff hal (by omega) hroom).mp fun psp hpsp => ?_⟩
      exact congrArg Prod.fst (hfree psp hpsp)
    · rintro ⟨hle, hpow⟩
      refine ⟨memp, hmemp, (frame_inside_iff hroom ho).mpr hle, fun psp hpsp => ?_⟩
      exact Prod.ext ((forall_align_eq_iff hal (by omega) hroom).mpr hpow psp hpsp) rfl
  exact hblock.trans (capped_iff hsize)

/-- A stack of 512 bytes. -/
theorem oneBlock_512 : OneBlock pgMem64k boot.pb (pthreadStackSize rlimitStack (some 512)) 0x200081e0 :=
  (oneBlock_iff pgMem64k boot (Reachable.refl _) (fun _ => 0) 0x08001001 0x08002001 0 512 _ rfl).mpr
    (.inr ⟨9, by decide, by decide⟩)

/-- The first context of a stack of 16 bytes lies below its block. With 300 bytes, a thread
that exits 8 bytes below its first context passes on another address than the block's. -/
theorem not_oneBlock_16_300 :
    (allocThreadStack pgMem64k 0x08001001 0x08002001 0 (pthreadStackSize rlimitStack (some 16))
      ⟨boot.pb, fun _ => 0⟩).1 = some 0x20007ff0 ∧
    ¬ OneBlock pgMem64k boot.pb (pthreadStackSize rlimitStack (some 16)) 0x20007ff0 ∧
    (allocThreadStack pgMem64k 0x08001001 0x08002001 0 (pthreadStackSize rlimitStack (some 300))
      ⟨boot.pb, fun _ => 0⟩).1 = some 0x2000810c ∧
    stackFreed 0x20008104 (pthreadStackSize rlimitStack (some 300)) = (0x20008004, 1) ∧
    ¬ OneBlock pgMem64k boot.pb (pthreadStackSize rlimitStack (some 300)) 0x2000810c := by
  refine ⟨rfl, ?_, rfl, rfl, ?_⟩
  · rintro ⟨memp, hmemp, hin, -⟩
    obtain rfl : memp = 0x20008000 := (Option.some.inj hmemp).symm
    exact absurd (hin 0 (by norm_num)) (Nat.not_lt_of_le (by decide))
  · rintro ⟨memp, hmemp, -, hfree⟩
    obtain rfl : memp = 0x20008000 := (Option.some.inj hmemp).symm
    exact absurd (hfree 0x20008104 (by decide)) (by decide)

end PikoRT.Thread.Stack

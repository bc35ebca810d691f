import PikoRT.Arch.V7m

/-! # Context switch and emulated exception return (`arch/v7m-entry.S`)

`switch_to` in its two halves, and the code to which signal handlers and timer
notifications return: `emulate_iret` pops by hand, in Thread mode, the exception frame that
is under the one the hardware has popped. -/
namespace PikoRT.Arch.Entry
open PikoRT.Kernel.Bitops PikoRT.Lib.Words PikoRT.Arch.V7m

/-- The registers of `struct kernel_context_regs` that `switch_to` and `thread_restore` keep
on the kernel stack, below the return address. -/
def kernelContext : List Reg := [.r4, .r5, .r6, .r7, .r8, .r9, .r10, .r11, .r12]

/-- `switch_to` up to `thread_restore`: the context of the thread in `r1` is saved. -/
def saveContext (s : Cpu) : Cpu :=
  let s := s.push (kernelContext ++ [.lr])
  let s := s.set .r2 s.sp
  let s := s.set .r3 s.psp
  let s := { s with mem := storeWords s.mem (s.r .r1) [s.r .r2, s.r .r3] }
  s.set .r1 (s.r .r1 + 8)

/-- `thread_restore`: the context of the thread in `r0` is restored. -/
def threadRestore (s : Cpu) : Option Cpu :=
  let a := s.r .r0
  let s := (s.set .r0 (a + 12)).ldm a [.r1, .r2, .r3]
  let s := { s with msp := s.r .r1 }
  let s := { s with psp := s.r .r2 }
  -- the write to SPSEL in control is ignored in Handler mode
  let s := s.pop kernelContext
  popPc s

def switchTo (s : Cpu) : Option Cpu := threadRestore (saveContext s)

def emulateIret (s : Cpu) : Option Cpu :=
  let s := (s.ldr .r0 (s.sp + 24)).ldr .r1 (s.sp + 28)
  let s := s.set .r0 (s.r .r0 ||| 1)
  let s := s.str .r0 (s.sp + 24)
  let s := s.msrApsrNzcvq (s.r .r1)
  let s := s.pop [.r0, .r1, .r2, .r3, .r12, .lr]
  let pc := s.mem s.sp
  (s.setSp (s.sp + 8)).branch pc

def returnFromSigaction (s : Cpu) : Option Cpu := emulateIret (s.setSp (s.sp + 12))

def returnFromSighandler (s : Cpu) : Option Cpu := emulateIret s

/-- The addresses of the two. -/
structure Labels where
  returnFromSigaction : Word
  returnFromSighandler : Word
  even_sigaction : returnFromSigaction.getLsbD 0 = false
  even_sighandler : returnFromSighandler.getLsbD 0 = false
  distinct : returnFromSigaction ≠ returnFromSighandler

variable (L : Labels) (fns : Word → Cpu → Cpu)

/-- A function of the user runs and returns to one of them. -/
def handle (s : Cpu) : Option Cpu :=
  let t := fns s.pc s
  (t.branch t.pc).bind fun t =>
    if t.pc = L.returnFromSigaction then returnFromSigaction t
    else if t.pc = L.returnFromSighandler then returnFromSighandler t
    else none

/-- `n` of them, one after the other: the functions called with their arguments, and the
state in which the last has returned. -/
def handles : ℕ → Cpu → Option (List (Word × Word) × Cpu)
  | 0, s => some ([], s)
  | n + 1, s => (handle L fns s).bind fun t =>
    (handles n t).map fun (calls, u) => ((s.pc, s.r .r0) :: calls, u)

/-! ## The emulated return -/

section

variable {L : Labels} {fns : Word → Cpu → Cpu} {s : Cpu}

theorem or_one_and_not_one (v : Word) : (v ||| 1) &&& ~~~1 = v &&& ~~~1 := by
  refine BitVec.eq_of_getLsbD_eq fun i hi => ?_
  simp only [BitVec.getLsbD_and, BitVec.getLsbD_or, BitVec.getLsbD_not]
  cases (1 : Word).getLsbD i <;> simp

theorem or_one_bit (v : Word) : (v ||| 1).getLsbD 0 = true := by
  simp

theorem and_not_one_of_even {v : Word} (h : v.getLsbD 0 = false) : v &&& ~~~1 = v := by
  refine BitVec.eq_of_getLsbD_eq fun i hi => ?_
  by_cases hi0 : i = 0
  · subst hi0
    rw [BitVec.getLsbD_and, h, Bool.false_and]
  · have hone : (1 : Word).getLsbD i = false := by
      rw [show (1 : Word) = 1#32 from rfl, BitVec.getLsbD_one]
      simp [hi0]
    rw [BitVec.getLsbD_and, BitVec.getLsbD_not, hone]
    simp [hi]

/-- The frame at the stack pointer is popped; of the xPSR only the flags. -/
theorem emulateIret_eq (h : s.mode = .thread) :
    emulateIret s = some { s with
      r := (ThreadContextRegs.load s.mem s.psp).regs s.r
      psp := s.psp + 32
      pc := (ThreadContextRegs.load s.mem s.psp).retAddr &&& ~~~1
      xpsr := (s.xpsr &&& 0x07FFFFFF) ||| ((ThreadContextRegs.load s.mem s.psp).xpsr &&& 0xF8000000)
      mem := Function.update s.mem (s.psp + 24) ((ThreadContextRegs.load s.mem s.psp).retAddr ||| 1) } := by
  simp only [emulateIret, Cpu.ldr, Cpu.set, Cpu.str, Cpu.msrApsrNzcvq, Cpu.pop, Cpu.ldm, Cpu.setSp, Cpu.sp, h,
    Cpu.branch, List.length_cons, List.length_nil, Function.update_self, ne_eq, reduceCtorEq, not_false_eq_true,
    Function.update_of_ne, BitVec.ofNat_eq_ofNat, Nat.reduceAdd, Nat.reduceMul]
  refine (if_pos (or_one_bit _)).trans ?_
  simp only [Option.some.injEq, Cpu.mk.injEq, true_and]
  refine ⟨?_, ?_, or_one_and_not_one _, rfl, rfl⟩
  · funext rd
    cases rd <;> simp [ThreadContextRegs.load, ThreadContextRegs.regs, add_assoc]
  · rw [add_assoc]
    rfl

/-- The words of the stack up to `top` that a function finds above its own `own` bytes. -/
def stackWords (own : ℕ) (top : Word) (s : Cpu) (x : Word) : Prop :=
  own ≤ (x - s.psp).toNat ∧ (x - s.psp).toNat < (top - s.psp).toNat

/-- The frame `f` has been popped, which stood so that the stack now is `k` bytes shorter. -/
structure Popped (f : ThreadContextRegs) (k : ℕ) (top : Word) (s t : Cpu) : Prop where
  mode : t.mode = .thread
  regs : t.r = f.regs s.r
  psp : t.psp = s.psp + BitVec.ofNat 32 k
  pc : t.pc = f.retAddr &&& ~~~1
  flags : t.flags = f.xpsr &&& 0xF8000000
  mem : Agree s.mem t.mem t.psp (top - t.psp).toNat

theorem flags_msr (x v : Word) : ((x &&& 0x07FFFFFF) ||| (v &&& 0xF8000000)) &&& 0xF8000000 = v &&& 0xF8000000 := by
  have hzero : (0x07FFFFFF : Word) &&& 0xF8000000 = 0 := by decide
  refine BitVec.eq_of_getLsbD_eq fun i hi => ?_
  have hbit := congrArg (fun w : Word => w.getLsbD i) hzero
  simp only [BitVec.getLsbD_and, BitVec.getLsbD_or] at hbit ⊢
  rw [show (0 : Word) = 0#32 from rfl, BitVec.getLsbD_zero] at hbit
  rw [Bool.and_or_distrib_right, Bool.and_assoc, hbit, Bool.and_false, Bool.false_or, Bool.and_assoc, Bool.and_self]

/-- The way back from a function that was called in `s` with `own` bytes under the frame. -/
theorem emulateIret_popped {t : Cpu} {top : Word} (own : ℕ) (hmode : t.mode = .thread)
    (hsaved : ∀ rd ∈ calleeSaved, t.r rd = s.r rd) (hpsp : t.psp = s.psp + BitVec.ofNat 32 own)
    (hmem : ∀ x, stackWords own top s x → t.mem x = s.mem x) (hroom : own + 32 ≤ (top - s.psp).toNat) :
    ∃ u, emulateIret t = some u ∧
      Popped (ThreadContextRegs.load s.mem (s.psp + BitVec.ofNat 32 own)) (own + 32) top s u := by
  have hown : own + 32 < 2 ^ 32 := Nat.lt_of_le_of_lt hroom (top - s.psp).isLt
  have hkept : Agree s.mem t.mem t.psp ((top - s.psp).toNat - own) := by
    intro x hx
    refine hmem x ?_
    have hoff : x - s.psp = x - t.psp + BitVec.ofNat 32 own := by
      rw [hpsp, sub_add_eq_sub_sub, sub_add_cancel]
    have hlt := (top - s.psp).isLt
    unfold stackWords
    rw [hoff, BitVec.toNat_add, BitVec.toNat_ofNat]
    omega
  have hload : ThreadContextRegs.load t.mem t.psp = ThreadContextRegs.load s.mem (s.psp + BitVec.ofNat 32 own) := by
    rw [ThreadContextRegs.load_congr (hkept.mono (by omega)), hpsp]
  rw [emulateIret_eq hmode, hload]
  refine ⟨_, rfl, hmode, ?_, ?_, rfl, flags_msr _ _, ?_⟩
  · exact ThreadContextRegs.regs_congr _ hsaved
  · refine (congrArg (· + 32) hpsp).trans ?_
    rw [BitVec.ofNat_add, ← add_assoc]
    rfl
  · intro x hx
    change (x - (t.psp + 32)).toNat < (top - (t.psp + 32)).toNat at hx
    have htop : (top - (t.psp + 32)).toNat = (top - s.psp).toNat - own - 32 := by
      have hrest := offset_add (x := top) (a := s.psp) (k := own) (by omega)
      rw [← hpsp] at hrest
      rw [← hrest]
      exact offset_add (k := 32) (by omega)
    have hlt := (top - s.psp).isLt
    have hupper : (x - t.psp).toNat = (x - (t.psp + 32)).toNat + 32 :=
      offset_of_add (k := 32) (by change (x - (t.psp + 32)).toNat + 32 < 2 ^ 32; omega)
    refine (Function.update_of_ne ?_ _ _).trans (hkept x (by omega))
    rintro rfl
    rw [add_sub_cancel_left] at hupper
    exact absurd hupper (by bv_omega)

theorem branch_label (s : Cpu) {a : Word} (h : a.getLsbD 0 = false) :
    s.branch (a ||| 1) = some { s with pc := a } := by
  rw [Cpu.branch, if_pos (or_one_bit a), or_one_and_not_one, and_not_one_of_even h]

variable {top : Word}

/-- A signal handler or a notification runs, and the frame above it is popped. -/
theorem handle_sighandler (hf : Respects (stackWords 0 top) (fns s.pc)) (hmode : s.mode = .thread)
    (hlr : s.r .lr = L.returnFromSighandler ||| 1) (hroom : 32 ≤ (top - s.psp).toNat) :
    ∃ t, handle L fns s = some t ∧ Popped (ThreadContextRegs.load s.mem s.psp) 32 top s t := by
  have hback : (fns s.pc s).pc = L.returnFromSighandler ||| 1 := (hf.returns s).trans hlr
  have hhandle : handle L fns s = emulateIret { fns s.pc s with pc := L.returnFromSighandler } := by
    rw [handle, hback, branch_label _ L.even_sighandler, Option.bind_some, if_neg (Ne.symm L.distinct), if_pos rfl]
    rfl
  rw [hhandle]
  have hpopped := emulateIret_popped (t := { fns s.pc s with pc := L.returnFromSighandler }) 0
    ((hf.mode s).trans hmode) (hf.saved s) ((hf.psp s).trans (by simp)) (hf.keeps s) (by omega)
  simpa using hpopped

/-- The same for a handler with a `siginfo_t` under the frame. -/
theorem handle_sigaction (hf : Respects (stackWords 12 top) (fns s.pc)) (hmode : s.mode = .thread)
    (hlr : s.r .lr = L.returnFromSigaction ||| 1) (hroom : 44 ≤ (top - s.psp).toNat) :
    ∃ t, handle L fns s = some t ∧ Popped (ThreadContextRegs.load s.mem (s.psp + 12)) 44 top s t := by
  have hback : (fns s.pc s).pc = L.returnFromSigaction ||| 1 := (hf.returns s).trans hlr
  have hmode' : (fns s.pc s).mode = .thread := (hf.mode s).trans hmode
  have hhandle : handle L fns s =
      emulateIret { fns s.pc s with pc := L.returnFromSigaction, psp := s.psp + 12 } := by
    rw [handle, hback, branch_label _ L.even_sigaction, Option.bind_some, if_pos rfl]
    simp only [returnFromSigaction, Cpu.setSp, Cpu.sp, hmode', hf.psp s]
  rw [hhandle]
  exact emulateIret_popped (t := { fns s.pc s with pc := L.returnFromSigaction, psp := s.psp + 12 }) 12
    hmode' (hf.saved s) rfl (hf.keeps s) hroom

/-- Frames that lie one above the other. -/
def Frames (m : Mem) : Word → List ThreadContextRegs → Prop
  | _, [] => True
  | a, f :: fs => ThreadContextRegs.load m a = f ∧ Frames m (a + 32) fs

theorem Frames.congr {m m' : Mem} {a : Word} {fs : List ThreadContextRegs} {n : ℕ} (h : Frames m a fs)
    (hm : Agree m m' a n) (hn : 32 * fs.length ≤ n) : Frames m' a fs := by
  induction fs generalizing a n with
  | nil => trivial
  | cons f fs ih =>
    rw [List.length_cons] at hn
    refine ⟨(ThreadContextRegs.load_congr (hm.mono (by omega))).trans h.1, ?_⟩
    exact ih h.2 (hm.drop (k := 32) (by omega)) (by omega)

/-- The frame of a function that returns to `return_from_sighandler`. -/
structure Notifies (L : Labels) (f : ThreadContextRegs) : Prop where
  lr : f.lr = L.returnFromSighandler ||| 1
  even : f.retAddr.getLsbD 0 = false

/-- **Unwinding.** The functions of the frames `fs` run one after the other, each with the
argument in its frame, and then the thread goes on from the frame `f` above them. -/
theorem handles_popped (hf : ∀ a, Respects (stackWords 0 top) (fns a)) {f : ThreadContextRegs}
    {fs : List ThreadContextRegs} (hmode : s.mode = .thread) (hlr : s.r .lr = L.returnFromSighandler ||| 1)
    (hfs : ∀ g ∈ fs, Notifies L g) (hframes : Frames s.mem s.psp (fs ++ [f]))
    (htop : (top - s.psp).toNat = 32 * (fs.length + 1)) :
    ∃ t, handles L fns (fs.length + 1) s = some ((s.pc, s.r .r0) :: fs.map (fun g => (g.retAddr, g.r0)), t) ∧
      Popped f (32 * (fs.length + 1)) top s t := by
  induction fs generalizing s with
  | nil =>
    obtain ⟨t, ht, hpopped⟩ := handle_sighandler (hf s.pc) hmode hlr (by simpa using htop.ge)
    rw [hframes.1] at hpopped
    exact ⟨t, by simp [handles, ht], hpopped⟩
  | cons g fs ih =>
    obtain ⟨hg, hfs⟩ := List.forall_mem_cons.mp hfs
    rw [List.length_cons] at htop ⊢
    obtain ⟨t, ht, hpopped⟩ := handle_sighandler (hf s.pc) hmode hlr (by omega)
    rw [hframes.1] at hpopped
    have hlr' : t.r .lr = L.returnFromSighandler ||| 1 := by rw [hpopped.regs]; exact hg.lr
    have hpc : t.pc = g.retAddr := hpopped.pc.trans (and_not_one_of_even hg.even)
    have hr0 : t.r .r0 = g.r0 := by rw [hpopped.regs]; rfl
    have htop' : (top - t.psp).toNat = 32 * (fs.length + 1) := by
      have hrest := offset_add (x := top) (a := s.psp) (k := 32) (by omega)
      rw [← hpopped.psp] at hrest
      omega
    have hframes' : Frames t.mem t.psp (fs ++ [f]) := by
      have habove : Frames s.mem t.psp (fs ++ [f]) := by rw [hpopped.psp]; exact hframes.2
      refine habove.congr hpopped.mem ?_
      rw [List.length_append, List.length_singleton]
      omega
    obtain ⟨u, hu, hpopped'⟩ := ih hpopped.mode hlr' hfs hframes' htop'
    refine ⟨u, ?_, hpopped'.mode, ?_, ?_, hpopped'.pc, hpopped'.flags, ?_⟩
    · rw [handles, ht, Option.bind_some, hu, Option.map_some, hpc, hr0]
      rfl
    · rw [hpopped'.regs]
      refine f.regs_congr fun rd hrd => ?_
      rw [hpopped.regs, g.regs_saved _ hrd]
    · rw [hpopped'.psp, hpopped.psp, add_assoc, ← BitVec.ofNat_add]
      congr 2
      omega
    · have hzero : (top - u.psp).toNat = 0 := by
        have hrest := offset_add (x := top) (a := t.psp) (k := 32 * (fs.length + 1)) (by omega)
        rw [← hpopped'.psp] at hrest
        omega
      rw [hzero]
      exact fun x hx => absurd hx (Nat.not_lt_zero _)

end

/-! ## The context switch -/

section

variable {s : Cpu}

theorem saveContext_mem (h : s.mode = .handler) :
    (saveContext s).mem = storeWords (storeWords s.mem (s.msp - 40) ((kernelContext ++ [Reg.lr]).map s.r)) (s.r .r1)
      [s.msp - 40, s.psp] := by
  have hlen : BitVec.ofNat 32 (4 * (kernelContext ++ [Reg.lr]).length) = (40 : Word) := by decide
  rw [saveContext, Cpu.push_handler h, hlen]
  simp only [Cpu.set, Cpu.sp, h, Function.update_self, ne_eq, reduceCtorEq, not_false_eq_true, Function.update_of_ne]

/-- All but the `pc` of the last instruction. -/
theorem threadRestore_eq {thread msp psp : Word} {ctx : Reg → Word} (hmode : s.mode = .handler)
    (hr0 : s.r .r0 = thread) (hmsp : s.mem thread = msp) (hpsp : s.mem (thread + 4) = psp)
    (hctx : ∀ i rd, kernelContext[i]? = some rd → s.mem (msp + BitVec.ofNat 32 (4 * i)) = ctx rd) :
    ∃ r, threadRestore s = popPc { s with r := r, msp := msp + 36, psp := psp } ∧ ∀ rd ∈ kernelContext,
    r rd = ctx rd := by
  have hldm : (s.set .r0 (thread + 12)).ldm thread [.r1, .r2, .r3] =
      { s with r := ((s.set .r0 (thread + 12)).ldm thread [.r1, .r2, .r3]).r } := Cpu.ldm_eq _ _ _
  have hr1 : ((s.set .r0 (thread + 12)).ldm thread [.r1, .r2, .r3]).r .r1 = msp := by
    rw [Cpu.ldm_apply (i := 0) _ _ (by decide) rfl, ← hmsp]
    simp [Cpu.set]
  have hr2 : ((s.set .r0 (thread + 12)).ldm thread [.r1, .r2, .r3]).r .r2 = psp := by
    rw [Cpu.ldm_apply (i := 1) _ _ (by decide) rfl, ← hpsp]
    rfl
  generalize ((s.set .r0 (thread + 12)).ldm thread [.r1, .r2, .r3]).r = r at hldm hr1 hr2
  have hpop : Cpu.pop kernelContext { s with r := r, msp := msp, psp := psp } =
      { Cpu.ldm msp kernelContext { s with r := r, msp := msp, psp := psp } with msp := msp + 36 } := by
    have hlen : BitVec.ofNat 32 (4 * kernelContext.length) = (36 : Word) := by decide
    rw [Cpu.pop, Cpu.sp, hmode, hlen, Cpu.ldm_eq]
    simp only [Cpu.setSp]
  refine ⟨(Cpu.ldm msp kernelContext { s with r := r, msp := msp, psp := psp }).r, ?_, ?_⟩
  · simp only [threadRestore, hr0, hldm, hr1, hr2, hpop]
    rw [Cpu.ldm_eq]
  · intro rd hrd
    obtain ⟨i, hi⟩ := List.mem_iff_getElem?.mp hrd
    rw [Cpu.ldm_apply _ _ (by decide) hi]
    exact hctx i rd hi

theorem popPc_branch {ret : Word} (hmode : s.mode = .handler) (hret : s.mem s.msp = ret)
    (hodd : ret.getLsbD 0 = true) (hexc : ret ≠ 0xFFFFFFFD) :
    popPc s = some { s with msp := s.msp + 4, pc := ret &&& ~~~1 } := by
  simp only [popPc, Cpu.sp, Cpu.setSp, hmode, hret, hexc, if_false, Cpu.branch, hodd, if_true]

/-- The thread at `thread` is back in the kernel, behind its call of `switch_to`. -/
theorem threadRestore_spec {thread msp psp ret : Word} {ctx : Reg → Word} (hmode : s.mode = .handler)
    (hr0 : s.r .r0 = thread) (hmsp : s.mem thread = msp) (hpsp : s.mem (thread + 4) = psp)
    (hctx : ∀ i rd, kernelContext[i]? = some rd → s.mem (msp + BitVec.ofNat 32 (4 * i)) = ctx rd)
    (hret : s.mem (msp + 36) = ret) (hodd : ret.getLsbD 0 = true) (hexc : ret ≠ 0xFFFFFFFD) :
    ∃ t, threadRestore s = some t ∧ t.mode = .handler ∧ t.msp = msp + 40 ∧ t.psp = psp ∧ t.mem = s.mem ∧
      ∀ rd ∈ kernelContext, t.r rd = ctx rd := by
  obtain ⟨r, hrestore, hr⟩ := threadRestore_eq hmode hr0 hmsp hpsp hctx
  have hpc := popPc_branch (s := { s with r := r, msp := msp + 36, psp := psp }) hmode hret hodd hexc
  refine ⟨_, hrestore.trans hpc, hmode, ?_, rfl, rfl, hr⟩
  change msp + 36 + 4 = msp + 40
  rw [add_assoc]
  rfl

end

end PikoRT.Arch.Entry

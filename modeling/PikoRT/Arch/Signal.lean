import PikoRT.Arch.Entry
import PikoRT.Arch.Svcall

/-! # Signals and timer events (`kernel/signal.c`)

A fake exception frame is put under the frame of the interrupted thread, so that the
exception return goes to a function of the user, which returns to the code of
`Arch.Entry`. A signal is delivered to the thread that calls `kill`; a timer event to a
thread that is not running, through its saved stack pointer. -/
namespace PikoRT.Arch.Signal
open PikoRT.Kernel.Bitops PikoRT.Lib.Words PikoRT.Arch.V7m PikoRT.Arch.Entry PikoRT.Arch.Svcall

/-- `struct sigaction` as far as `sys_kill` reads it; `handler` is the union of `sa_handler`
and `sa_sigaction`. -/
structure Sigaction where
  handler : Word
  saFlags : Word

/-- `struct sigevent` as far as `do_sigevent` reads it. -/
structure Sigevent where
  sivalInt : Word
  notifyFunction : Word

/-- `xPSR_T_Msk`. -/
def xpsrT : Word := 0x01000000

/-- `current_thread_info`: the stack pointer without its low bits. -/
def currentThreadInfo (s : Cpu) : Word := s.sp &&& ~~~0x1FF

/-- `ti_mach.mi_psp` of a thread. -/
def miPsp (thread : Word) : Word := thread + 4

def v7mAllocaThreadContext (thread len : Word) (m : Mem) : Mem :=
  Function.update m (miPsp thread) (m (miPsp thread) - len)

variable (L : Labels)

def stageSighandler (act : Sigaction) (s : Cpu) : Cpu :=
  let curr := currentThreadInfo s
  let m := Function.update s.mem (miPsp curr) s.psp
  let m := Function.update m (m (miPsp curr)) 0
  let m := v7mAllocaThreadContext curr 32 m
  -- `r0` of the new frame is left to `syscall_return`
  let m := storeWords m (m (miPsp curr) + 4)
    [0, 0, 0, 0, L.returnFromSighandler ||| 1, act.handler &&& ~~~1, xpsrT]
  { s with mem := m, psp := m (miPsp curr) }

def stageSigaction (act : Sigaction) (sig value : Word) (s : Cpu) : Cpu :=
  let curr := currentThreadInfo s
  let m := Function.update s.mem (miPsp curr) s.psp
  let m := Function.update m (m (miPsp curr)) 0
  let m := v7mAllocaThreadContext curr 12 m
  let siginfo := m (miPsp curr)
  -- `si_signo`, `si_value` and `si_pid`, which gets `ti_id`
  let m := storeWords m siginfo [sig, value, m (curr + 16)]
  let m := v7mAllocaThreadContext curr 32 m
  let m := storeWords m (m (miPsp curr) + 4)
    [siginfo, 0, 0, 0, L.returnFromSigaction ||| 1, act.handler &&& ~~~1, xpsrT]
  { s with mem := m, psp := m (miPsp curr) }

/-- `sys_kill` when it has found the action for its argument `sig`, which it returns. -/
def sysKill (act : Sigaction) (s : Cpu) : Cpu :=
  let sig := s.r .r1
  let t := if act.saFlags.getLsbD 0 then stageSigaction L act sig 0 s else stageSighandler L act s
  { t with r := Function.update t.r .r0 sig, pc := t.r .lr }

/-- The frame for an event. -/
def sigeventContext (e : Sigevent) : ThreadContextRegs :=
  ⟨e.sivalInt, 0, 0, 0, 0, L.returnFromSighandler ||| 1, e.notifyFunction &&& ~~~1, xpsrT⟩

def doSigevent (e : Sigevent) (thread : Word) (s : Cpu) : Cpu :=
  let isCurr := thread = currentThreadInfo s
  let m := if isCurr then Function.update s.mem (miPsp thread) s.psp else s.mem
  let m := v7mAllocaThreadContext thread 32 m
  let m := storeWords m (m (miPsp thread)) (sigeventContext L e).words
  { s with mem := m, psp := if isCurr then m (miPsp thread) else s.psp }

/-! ## The frames that are staged -/

section

variable {L : Labels} {act : Sigaction} {s : Cpu}

theorem load_staged_sighandler (m : Mem) (a v₁ v₂ v₃ v₄ v₅ v₆ v₇ : Word) :
    ThreadContextRegs.load (storeWords (Function.update m (a + 32) 0) (a + 4) [v₁, v₂, v₃, v₄, v₅, v₆, v₇]) a =
        ⟨m a, v₁, v₂, v₃, v₄, v₅, v₆, v₇⟩ ∧
      ThreadContextRegs.load (storeWords (Function.update m (a + 32) 0) (a + 4) [v₁, v₂, v₃, v₄, v₅, v₆, v₇])
          (a + 32) = { ThreadContextRegs.load m (a + 32) with r0 := 0 } := by
  simp [ThreadContextRegs.load, storeWords, add_assoc]

theorem load_staged_sigaction (m : Mem) (a w₁ w₂ w₃ v₁ v₂ v₃ v₄ v₅ v₆ v₇ : Word) :
    ThreadContextRegs.load (storeWords (storeWords (Function.update m (a + 44) 0) (a + 32) [w₁, w₂, w₃]) (a + 4)
        [v₁, v₂, v₃, v₄, v₅, v₆, v₇]) a = ⟨m a, v₁, v₂, v₃, v₄, v₅, v₆, v₇⟩ ∧
      ThreadContextRegs.load (storeWords (storeWords (Function.update m (a + 44) 0) (a + 32) [w₁, w₂, w₃]) (a + 4)
        [v₁, v₂, v₃, v₄, v₅, v₆, v₇]) (a + 44) = { ThreadContextRegs.load m (a + 44) with r0 := 0 } := by
  simp [ThreadContextRegs.load, storeWords, add_assoc]

/-- A frame for the function `fn` has been put `own` bytes under the one at the stack
pointer, whose `r0` is 0 now. -/
structure Staged (own : ℕ) (lr fn : Word) (s t : Cpu) : Prop where
  psp : t.psp + BitVec.ofNat 32 (32 + own) = s.psp
  lr : (ThreadContextRegs.load t.mem t.psp).lr = lr
  retAddr : (ThreadContextRegs.load t.mem t.psp).retAddr = fn
  xpsr : (ThreadContextRegs.load t.mem t.psp).xpsr = xpsrT
  frame : ThreadContextRegs.load t.mem s.psp = { ThreadContextRegs.load s.mem s.psp with r0 := 0 }
  mem : ∀ x, x ≠ miPsp (currentThreadInfo s) → 76 ≤ (x - (s.psp - 44)).toNat → t.mem x = s.mem x
  rest : t = { s with psp := t.psp, mem := t.mem }

/-- The saved stack pointer is not a word of the stack down to where the frames are. -/
def MachApart (s : Cpu) : Prop := 76 ≤ (miPsp (currentThreadInfo s) - (s.psp - 44)).toNat

/-- The frames in a memory that is `n` but for the saved stack pointer. -/
theorem MachApart.staged (h : MachApart s) {t : Cpu} {n : Mem} {own : ℕ} {r0 r1 lr fn : Word} (hown : own ≤ 12)
    (hpsp : t.psp + BitVec.ofNat 32 (32 + own) = s.psp)
    (hmem : ∀ x, x ≠ miPsp (currentThreadInfo s) → t.mem x = n x)
    (hfake : ThreadContextRegs.load n t.psp = ⟨r0, r1, 0, 0, 0, lr, fn, xpsrT⟩)
    (huser : ThreadContextRegs.load n s.psp = { ThreadContextRegs.load s.mem s.psp with r0 := 0 })
    (hfar : ∀ x, 76 ≤ (x - (s.psp - 44)).toNat → n x = s.mem x)
    (hrest : t = { s with psp := t.psp, mem := t.mem }) : Staged own lr fn s t := by
  unfold MachApart at h
  have hnear : ∀ i, i ≤ 44 → Agree n t.mem (s.psp - 44 + BitVec.ofNat 32 i) 32 := by
    intro i hi x hx
    refine hmem x ?_
    rintro rfl
    have hoff := offset_add (x := miPsp (currentThreadInfo s)) (a := s.psp - 44) (k := i) (by omega)
    omega
  have hlow : s.psp - 44 + BitVec.ofNat 32 (12 - own) = t.psp := by
    have hsum : BitVec.ofNat 32 (32 + own) + BitVec.ofNat 32 (12 - own) = 44 := by
      rw [← BitVec.ofNat_add, show 32 + own + (12 - own) = 44 by omega]
      rfl
    rw [← hpsp, ← hsum]
    ring
  have hfake' := ThreadContextRegs.load_congr (hnear (12 - own) (by omega))
  rw [hlow, hfake] at hfake'
  have huser' := ThreadContextRegs.load_congr (hnear 44 (by omega))
  rw [show s.psp - 44 + BitVec.ofNat 32 44 = s.psp from sub_add_cancel _ _, huser] at huser'
  refine ⟨hpsp, ?_, ?_, ?_, huser', fun x hx hfar' => (hmem x hx).trans (hfar x hfar'), hrest⟩
  · rw [hfake']
  · rw [hfake']
  · rw [hfake']

/-- The saved stack pointer, which the staging functions write as well. -/
theorem update_twice {m : Mem} {k b v w : Word} {x : Word} (hx : x ≠ k) :
    Function.update (Function.update (Function.update m k v) b 0) k w x = Function.update m b 0 x := by
  rw [Function.update_of_ne hx]
  by_cases hxb : x = b
  · rw [hxb, Function.update_self, Function.update_self]
  · rw [Function.update_of_ne hxb, Function.update_of_ne hxb, Function.update_of_ne hx]

theorem stageSighandler_staged (h : MachApart s) :
    Staged 0 (L.returnFromSighandler ||| 1) (act.handler &&& ~~~1) s (stageSighandler L act s) := by
  obtain ⟨a, ha⟩ : ∃ a, s.psp = a + 32 := ⟨s.psp - 32, (sub_add_cancel _ _).symm⟩
  obtain ⟨k, hk⟩ : ∃ k, miPsp (currentThreadInfo s) = k := ⟨_, rfl⟩
  have hapart : 76 ≤ (k - (a + 32 - 44)).toNat := by rw [← ha, ← hk]; exact h
  have hne : k ≠ a + 32 := by
    rintro rfl
    bv_omega
  have hsub : a + 32 - 32 = a := add_sub_cancel_right _ _
  have hpsp : (stageSighandler L act s).psp = a := by
    simp only [stageSighandler, v7mAllocaThreadContext, hk, Function.update_self, ha, Function.update_of_ne hne, hsub]
    rw [storeWords_of_le, Function.update_self]
    change 4 * 7 ≤ _
    bv_omega
  have hmem : ∀ x, x ≠ k → (stageSighandler L act s).mem x = storeWords (Function.update s.mem (a + 32) 0) (a + 4)
      [0, 0, 0, 0, L.returnFromSighandler ||| 1, act.handler &&& ~~~1, xpsrT] x := by
    simp only [stageSighandler, v7mAllocaThreadContext, hk, Function.update_self, ha, Function.update_of_ne hne, hsub]
    exact storeWords_congr (fun y hy => update_twice hy) _ _
  have hfar : ∀ x, 76 ≤ (x - (a + 32 - 44)).toNat → storeWords (Function.update s.mem (a + 32) 0) (a + 4)
      [0, 0, 0, 0, L.returnFromSighandler ||| 1, act.handler &&& ~~~1, xpsrT] x = s.mem x := by
    intro x hx
    rw [storeWords_of_le, Function.update_of_ne]
    · rintro rfl
      bv_omega
    · change 4 * 7 ≤ _
      bv_omega
  obtain ⟨hfake, huser⟩ := load_staged_sighandler s.mem a 0 0 0 0 (L.returnFromSighandler ||| 1)
    (act.handler &&& ~~~1) xpsrT
  generalize storeWords (Function.update s.mem (a + 32) 0) (a + 4)
    [0, 0, 0, 0, L.returnFromSighandler ||| 1, act.handler &&& ~~~1, xpsrT] = n at *
  rw [← hk] at hmem
  rw [← ha] at huser hfar
  rw [← hpsp] at hfake
  exact h.staged (by decide) (by rw [hpsp, ha]; rfl) hmem hfake huser hfar rfl

theorem stageSigaction_staged (h : MachApart s) (sig value : Word) :
    Staged 12 (L.returnFromSigaction ||| 1) (act.handler &&& ~~~1) s (stageSigaction L act sig value s) := by
  obtain ⟨a, ha⟩ : ∃ a, s.psp = a + 44 := ⟨s.psp - 44, (sub_add_cancel _ _).symm⟩
  obtain ⟨k, hk⟩ : ∃ k, miPsp (currentThreadInfo s) = k := ⟨_, rfl⟩
  have hapart : 76 ≤ (k - (a + 44 - 44)).toNat := by rw [← ha, ← hk]; exact h
  rw [add_sub_cancel_right] at hapart
  have hne : k ≠ a + 44 := by
    rintro rfl
    bv_omega
  have hinfo : a + 44 - 12 = a + 32 := by bv_omega
  have hsub : a + 32 - 32 = a := add_sub_cancel_right _ _
  have hlow : ∀ vs : List Word, vs.length = 3 → 4 * vs.length ≤ (k - (a + 32)).toNat := by
    intro vs hvs
    rw [hvs]
    bv_omega
  -- the memory with the `siginfo_t`, and what is read back from it
  obtain ⟨ws, hws, hlen⟩ : ∃ ws, ws = [sig, value, Function.update (Function.update (Function.update s.mem k (a + 44))
      (a + 44) 0) k (a + 32) (currentThreadInfo s + 16)] ∧ ws.length = 3 := ⟨_, rfl, rfl⟩
  have hread : ∀ m : Mem, storeWords (Function.update m k (a + 32)) (a + 32) ws k = a + 32 := by
    intro m
    rw [storeWords_of_le _ _ (hlow ws hlen), Function.update_self]
  have hpsp : (stageSigaction L act sig value s).psp = a := by
    simp only [stageSigaction, v7mAllocaThreadContext, hk, Function.update_self, ha, Function.update_of_ne hne, hinfo,
      ← hws, hread, hsub]
    rw [storeWords_of_le, Function.update_self]
    change 4 * 7 ≤ _
    bv_omega
  have hmem : ∀ x, x ≠ k → (stageSigaction L act sig value s).mem x =
      storeWords (storeWords (Function.update s.mem (a + 44) 0) (a + 32) ws) (a + 4)
        [a + 32, 0, 0, 0, L.returnFromSigaction ||| 1, act.handler &&& ~~~1, xpsrT] x := by
    simp only [stageSigaction, v7mAllocaThreadContext, hk, Function.update_self, ha, Function.update_of_ne hne, hinfo,
      ← hws, hread, hsub]
    refine storeWords_congr (fun y hy => ?_) _ _
    rw [Function.update_of_ne hy]
    exact storeWords_congr (fun z hz => update_twice hz) _ _ y hy
  have hfar : ∀ x, 76 ≤ (x - (a + 44 - 44)).toNat →
      storeWords (storeWords (Function.update s.mem (a + 44) 0) (a + 32) ws) (a + 4)
        [a + 32, 0, 0, 0, L.returnFromSigaction ||| 1, act.handler &&& ~~~1, xpsrT] x = s.mem x := by
    intro x hx
    rw [storeWords_of_le, storeWords_of_le, Function.update_of_ne]
    · rintro rfl
      bv_omega
    · rw [hlen]
      bv_omega
    · change 4 * 7 ≤ _
      bv_omega
  obtain ⟨hfake, huser⟩ := load_staged_sigaction s.mem a sig value
    (Function.update (Function.update (Function.update s.mem k (a + 44)) (a + 44) 0) k (a + 32)
      (currentThreadInfo s + 16)) (a + 32) 0 0 0 (L.returnFromSigaction ||| 1) (act.handler &&& ~~~1) xpsrT
  rw [← hws] at hfake huser
  generalize storeWords (storeWords (Function.update s.mem (a + 44) 0) (a + 32) ws) (a + 4)
    [a + 32, 0, 0, 0, L.returnFromSigaction ||| 1, act.handler &&& ~~~1, xpsrT] = n at *
  rw [← hk] at hmem
  rw [← ha] at huser hfar
  rw [← hpsp] at hfake
  exact h.staged (by decide) (by rw [hpsp, ha]; rfl) hmem hfake huser hfar rfl

/-! ## Back in the interrupted thread -/

/-- The thread `c` goes on where it was interrupted, with `r0` as given. -/
structure Resumed (c w : Cpu) (r0 : Word) : Prop where
  pc : w.pc = c.pc
  r0 : w.r .r0 = r0
  regs : ∀ rd, rd ≠ .r0 → w.r rd = c.r rd
  flags : w.flags = c.flags
  sp : w.psp = c.psp

theorem stackedContext_flags (c : Cpu) : (stackedContext c).xpsr &&& 0xF8000000 = c.flags := by
  have hmask : (~~~0x200 : Word) &&& 0xF8000000 = 0xF8000000 := by decide
  have hbit : ((if c.psp.getLsbD 2 then 0x200 else 0 : Word)) &&& 0xF8000000 = 0 := by
    split <;> decide
  refine BitVec.eq_of_getLsbD_eq fun i hi => ?_
  have hmask' := congrArg (fun w : Word => w.getLsbD i) hmask
  have hbit' := (congrArg (fun w : Word => w.getLsbD i) hbit).trans BitVec.getLsbD_zero
  simp only [BitVec.getLsbD_and] at hmask' hbit'
  simp only [stackedContext, Cpu.flags, BitVec.getLsbD_and, BitVec.getLsbD_or]
  rw [Bool.and_or_distrib_right, Bool.and_assoc, hmask', hbit', Bool.or_false]

/-- **The last pop.** By hand it leaves the stack pointer at the end of the frame, without
the padding that the hardware may have left above it. -/
theorem resumed_iff {c y w : Cpu} {k : ℕ} {top : Word} (r0 : Word)
    (hpopped : Popped { stackedContext c with r0 := r0 } k top y w)
    (hsaved : ∀ rd ∈ calleeSaved, y.r rd = c.r rd) (hpsp : w.psp = (exceptionEntry c).psp + 32)
    (heven : c.pc.getLsbD 0 = false) (haligned : c.psp.toNat % 4 = 0) :
    Resumed c w r0 ↔ c.psp.toNat % 8 = 0 := by
  have hframe : (exceptionEntry c).psp + 32 + padding c.psp = c.psp := frame_add c.psp
  rw [← padding_eq_zero_iff haligned]
  constructor
  · intro h
    rw [← hpsp, h.sp] at hframe
    exact left_eq_add.mp hframe.symm
  · intro hpad
    rw [hpad, add_zero, ← hpsp] at hframe
    refine ⟨hpopped.pc.trans (and_not_one_of_even heven), ?_, fun rd hrd => ?_, ?_, hframe⟩
    · rw [hpopped.regs]
      rfl
    · rw [hpopped.regs]
      by_cases hs : rd ∈ calleeSaved
      · rw [ThreadContextRegs.regs_saved _ _ hs, hsaved rd hs]
      · cases rd <;> first | rfl | exact absurd rfl hrd | exact absurd (by decide) hs
    · exact hpopped.flags.trans (stackedContext_flags c)

/-- The exception return to a staged frame. -/
theorem exceptionReturn_staged (hxpsr : (ThreadContextRegs.load s.mem s.psp).xpsr = xpsrT) :
    exceptionReturn s = { s with
      r := (ThreadContextRegs.load s.mem s.psp).regs s.r
      psp := s.psp + 32
      pc := (ThreadContextRegs.load s.mem s.psp).retAddr
      xpsr := xpsrT
      mode := .thread } := by
  have hbit : xpsrT.getLsbD 9 = false := by decide
  simp only [exceptionReturn, hxpsr, hbit, Bool.false_eq_true, if_false]
  congr 1
  exact BitVec.or_zero

/-! ## A signal -/

/-- The call of `kill`, with the kernel's words apart from the user's stack. -/
structure Kill (L : Labels) (rom : Rom) (kfns : Word → Cpu → Cpu) (act : Sigaction) (s : Cpu) : Prop
    extends Stub rom 2 s where
  kill : kfns (rom.syscallVect (s.argument 2) &&& ~~~1) = sysKill L act
  aligned : s.psp.toNat % 4 = 0
  even : s.pc.getLsbD 0 = false
  mach : 76 ≤ (miPsp ((s.msp - 4) &&& ~~~0x1FF) - ((svc s).psp - 44)).toNat
  stack : 76 ≤ (s.msp - 4 - ((svc s).psp - 44)).toNat
  link : s.msp - 4 ≠ miPsp ((s.msp - 4) &&& ~~~0x1FF)

/-- What a handler with `own` bytes of its own leaves alone. -/
def ownBytes (act : Sigaction) : ℕ := if act.saFlags.getLsbD 0 then 12 else 0

theorem ownBytes_le (act : Sigaction) : ownBytes act ≤ 12 := by
  unfold ownBytes
  split <;> simp

def trampoline (L : Labels) (act : Sigaction) : Word :=
  if act.saFlags.getLsbD 0 then L.returnFromSigaction else L.returnFromSighandler

theorem sysKill_staged (L : Labels) (act : Sigaction) (h : MachApart s) :
    ∃ t, Staged (ownBytes act) (trampoline L act ||| 1) (act.handler &&& ~~~1) s t ∧
      sysKill L act s = { t with r := Function.update s.r .r0 (s.r .r1), pc := s.r .lr } := by
  unfold ownBytes trampoline sysKill
  cases act.saFlags.getLsbD 0 with
  | false =>
    exact ⟨_, stageSighandler_staged h, rfl⟩
  | true =>
    exact ⟨_, stageSigaction_staged h (s.r .r1) 0, rfl⟩

variable {fns kfns : Word → Cpu → Cpu} {rom : Rom} {top : Word}

theorem handle_popped (hf : Respects (stackWords (ownBytes act) top) (fns s.pc)) (hmode : s.mode = .thread)
    (hlr : s.r .lr = trampoline L act ||| 1) (hroom : ownBytes act + 32 ≤ (top - s.psp).toNat) :
    ∃ t, handle L fns s = some t ∧
      Popped (ThreadContextRegs.load s.mem (s.psp + BitVec.ofNat 32 (ownBytes act))) (ownBytes act + 32) top s t := by
  revert hf hlr hroom
  unfold ownBytes trampoline
  cases act.saFlags.getLsbD 0 with
  | false =>
    intro hf hlr hroom
    obtain ⟨t, ht, hpopped⟩ := handle_sighandler hf hmode hlr (by simpa using hroom)
    exact ⟨t, ht, by simpa using hpopped⟩
  | true =>
    intro hf hlr hroom
    exact handle_sigaction hf hmode hlr hroom

theorem Kill.returned (h : Kill L rom kfns act s) :
    ∃ y, svcall rom kfns (svc s) = some y ∧ y.mode = .thread ∧ y.pc = act.handler &&& ~~~1 ∧ y.r .r0 = s.r .r1 ∧
      y.r .lr = trampoline L act ||| 1 ∧ (∀ rd ∈ calleeSaved, y.r rd = s.r rd) ∧
      y.psp + BitVec.ofNat 32 (ownBytes act) = (svc s).psp ∧
      ThreadContextRegs.load y.mem (svc s).psp = { stackedContext { s with pc := s.pc + 2 } with r0 := 0 } := by
  obtain ⟨t, hent, ht⟩ := h.enter
  have hmsp : t.msp = s.msp - 4 := by
    rw [ht.msp]
    simp [onStack]
  have hcurr : currentThreadInfo t = (s.msp - 4) &&& ~~~0x1FF := by
    rw [currentThreadInfo, Cpu.sp, ht.mode, hmsp]
  have hapart : MachApart t := by
    unfold MachApart
    rw [hcurr, ht.psp]
    exact h.mach
  obtain ⟨u, hu, hkill⟩ := sysKill_staged L act hapart
  have hown := ownBytes_le act
  have hpsp : u.psp + BitVec.ofNat 32 (32 + ownBytes act) = (svc s).psp := by rw [hu.psp, ht.psp]
  have hlink : u.mem (s.msp - 4) = 0xFFFFFFFD := by
    refine (hu.mem _ ?_ ?_).trans ht.link
    · rw [hcurr]
      exact h.link
    · rw [ht.psp]
      exact h.stack
  have hne : s.msp - 4 ≠ u.psp := by
    intro heq
    have hstack := h.stack
    rw [heq, ← hpsp] at hstack
    have hsmall := toNat_ofNat_of_lt (k := 32 + ownBytes act) (by omega)
    bv_omega
  have hmode : u.mode = .handler := by rw [hu.rest]; exact ht.mode
  have humsp : u.msp = s.msp - 4 := by rw [hu.rest]; exact hmsp
  -- `syscall_return` writes `sig` into the staged frame
  have hreturn := syscallReturn_eq (s := { u with r := Function.update t.r .r0 (t.r .r1), pc := t.r .lr }) hmode
    (by rw [humsp]; exact hlink) (by rw [humsp]; exact hne)
  have hfake : ThreadContextRegs.load (Function.update u.mem u.psp (t.r .r1)) u.psp =
      { ThreadContextRegs.load u.mem u.psp with r0 := t.r .r1 } := load_update _ _ _
  have hback := exceptionReturn_staged (s := { u with
    r := Function.update (Function.update t.r .r0 (t.r .r1)) .r1 u.psp
    pc := t.r .lr
    mem := Function.update u.mem u.psp (t.r .r1)
    msp := u.msp + 4 }) (by rw [hfake]; exact hu.xpsr)
  have hcall :
      svcall rom kfns (svc s) = syscallReturn { u with r := Function.update t.r .r0 (t.r .r1), pc := t.r .lr } := by
    have hhandler : kfns t.pc t = { u with r := Function.update t.r .r0 (t.r .r1), pc := t.r .lr } := by
      rw [ht.pc, h.kill, hkill]
    simp only [svcall, hent, Option.bind_some, hhandler, ht.lr, if_true]
    rfl
  have hframe : ThreadContextRegs.load (Function.update u.mem u.psp (t.r .r1)) (svc s).psp =
      { stackedContext { s with pc := s.pc + 2 } with r0 := 0 } := by
    have hbelow : 32 ≤ (u.psp - (svc s).psp).toNat := by
      have hsmall := toNat_ofNat_of_lt (k := 32 + ownBytes act) (by omega)
      rw [← hpsp]
      bv_omega
    have huser := hu.frame
    rw [ht.psp, ThreadContextRegs.load_congr ((h.agree ht.mem).mono (by decide)), load_svc] at huser
    rw [ThreadContextRegs.load_congr (agree_update hbelow _), huser]
  rw [hcall, hreturn]
  refine ⟨_, congrArg some hback, rfl, ?_, ?_, ?_, fun rd hrd => ?_, ?_, hframe⟩
  · exact (congrArg ThreadContextRegs.retAddr hfake).trans hu.retAddr
  · refine (congrArg ThreadContextRegs.r0 hfake).trans ?_
    exact ht.regs .r1 (by decide) (by decide) fun _ => by decide
  · exact (congrArg ThreadContextRegs.lr hfake).trans hu.lr
  · have hr0 : rd ≠ .r0 := by
      rintro rfl
      exact absurd hrd (by decide)
    have hr1 : rd ≠ .r1 := by
      rintro rfl
      exact absurd hrd (by decide)
    refine (ThreadContextRegs.regs_saved _ _ hrd).trans ?_
    refine (Function.update_of_ne hr1 _ _).trans ((Function.update_of_ne hr0 _ _).trans ?_)
    exact ht.saved hrd fun hn => absurd hn (by decide)
  · change u.psp + 32 + _ = _
    rw [← hpsp, BitVec.ofNat_add, add_assoc]
    rfl

/-- **A signal.** The handler runs with the signal as its argument; when it has returned, the
thread that called `kill` is back with the result 0, on its stack pointer only if that was a
multiple of eight. -/
theorem Kill.resumed_iff (h : Kill L rom kfns act s)
    (hf : Respects (stackWords (ownBytes act) ((svc s).psp + 32)) (fns (act.handler &&& ~~~1))) :
    ∃ y w, svcall rom kfns (svc s) = some y ∧ handles L fns 1 y = some ([(act.handler &&& ~~~1, s.r .r1)], w) ∧
      (Resumed { s with pc := s.pc + 2 } w 0 ↔ s.psp.toNat % 8 = 0) := by
  obtain ⟨y, hy, hmode, hpc, hr0, hlr, hsaved, hpsp, hload⟩ := h.returned
  have hown := ownBytes_le act
  have hroom : ((svc s).psp + 32 - y.psp).toNat = ownBytes act + 32 := by
    have hsmall := toNat_ofNat_of_lt (k := ownBytes act) (by omega)
    rw [← hpsp]
    bv_omega
  rw [← hpc] at hf
  obtain ⟨w, hw, hpopped⟩ := handle_popped hf hmode hlr hroom.ge
  rw [hpsp, hload] at hpopped
  refine ⟨y, w, hy, by simp [handles, hw, hpc, hr0], ?_⟩
  have hwpsp : w.psp = (exceptionEntry { s with pc := s.pc + 2 }).psp + 32 := by
    rw [hpopped.psp, BitVec.ofNat_add, ← add_assoc, hpsp]
    rfl
  have heven : (s.pc + 2).getLsbD 0 = false := by
    have hpc2 := h.even
    simp only [BitVec.getLsbD, Nat.testBit_zero, decide_eq_false_iff_not] at hpc2 ⊢
    bv_omega
  exact Signal.resumed_iff 0 hpopped hsaved hwpsp heven h.aligned

end

end PikoRT.Arch.Signal

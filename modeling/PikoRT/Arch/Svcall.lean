import PikoRT.Arch.V7m

/-! # System calls (`arch/v7m-svcall.S`, `libc/piko/syscalls.S`)

The stub of a call with `n` arguments executes `svc #n`; `svcall` reads that number from
the instruction, finds the number of the system call behind the arguments, in a register or
above the exception frame, copies the arguments that are on the user's stack to the kernel
stack and calls through `syscall_vect`. -/
namespace PikoRT.Arch.Svcall
open PikoRT.Kernel.Bitops PikoRT.Lib.Words PikoRT.Arch.V7m

/-- What the calls need of the read-only memory. -/
structure Rom where
  /-- The bytes of the code. -/
  code : Word → BitVec 8
  /-- The table `syscall_vect`. -/
  syscallVect : Word → Word
  /-- The address behind the `blx` of each path, with the Thumb bit. -/
  behindCall : ℕ → Word

variable (rom : Rom)

/-- `ldr r12, =syscall_vect; ldr.w r12, [r12, no, lsl #2]; blx r12`, on path `n`. -/
def callVect (n : ℕ) (no : Reg) (s : Cpu) : Option Cpu :=
  let s := s.set .r12 (rom.syscallVect (s.r no))
  (s.set .lr (rom.behindCall n)).branch (s.r .r12)

/-- `tst r12, #1 << 9` on the stacked xPSR, and the address above the frame. -/
def aboveFrame (s : Cpu) : Word :=
  if (s.mem (s.r .lr + 0x1c)).getLsbD 9 then s.r .lr + 0x24 else s.r .lr + 0x20

/-- The instructions before the table branch. -/
def prologue (s : Cpu) : Cpu :=
  let s := s.push [.lr]
  let s := s.set .lr s.psp
  let s := s.ldr .r12 (s.r .lr + 24)
  s.set .r12 ((rom.code (s.r .r12 - 2)).setWidth 32)

/-- One of the seven paths, up to the first instruction of the handler. -/
def path (s : Cpu) : ℕ → Option Cpu
  | 0 => callVect rom 0 .r0 s
  | 1 => callVect rom 1 .r1 s
  | 2 => callVect rom 2 .r2 s
  | 3 => callVect rom 3 .r3 s
  | 4 => callVect rom 4 .lr (s.ldr .lr (aboveFrame s))
  | 5 => callVect rom 5 .lr ((s.ldm (aboveFrame s) [.r12, .lr]).push [.r12])
  | 6 => callVect rom 6 .lr ((s.ldm (aboveFrame s) [.r11, .r12, .lr]).push [.r11, .r12])
  -- behind the branch table
  | _ => none

def syscallReturn (s : Cpu) : Option Cpu :=
  let s := s.set .r1 s.psp
  popPc (s.str .r0 (s.r .r1))

/-- What a path does when the handler is back. -/
def epilogue (n : ℕ) (s : Cpu) : Option Cpu :=
  match n with
  | 5 => syscallReturn (s.setSp (s.sp + 4))
  | 6 => syscallReturn (s.pop [.r11, .r12])
  | _ => syscallReturn s

/-- The state in which `svcall` calls the handler, and the path it has taken. -/
def svcallEnter (s : Cpu) : Option (ℕ × Cpu) :=
  let s := prologue rom s
  let n := (s.r .r12).toNat
  (path rom s n).map fun t => (n, t)

variable (fns : Word → Cpu → Cpu)

/-- The exception handler, with the function at each address. -/
def svcall (s : Cpu) : Option Cpu :=
  (svcallEnter rom s).bind fun (n, t) =>
    let u := fns t.pc t
    if u.pc = rom.behindCall n then epilogue n u else none

/-- The exception that `svc` at `pc` raises. -/
def svc (s : Cpu) : Cpu := exceptionEntry { s with pc := s.pc + 2 }

/-- `do_syscall0` to `do_syscall6`: `svc #n; bx lr`. -/
def doSyscall (s : Cpu) : Option Cpu :=
  (svcall rom fns (svc s)).bind fun t => t.branch (t.r .lr)

/-! ## The call -/

/-- A call of the stub for `n` arguments. -/
structure Stub (n : ℕ) (s : Cpu) : Prop where
  mode : s.mode = .thread
  le_six : n ≤ 6
  /-- The instruction at `pc` is `svc #n`. -/
  imm : rom.code s.pc = BitVec.ofNat 8 n
  /-- The caller is Thumb code, and so is the handler. -/
  back : (s.r .lr).getLsbD 0 = true
  thumb : (rom.syscallVect (s.argument n)).getLsbD 0 = true
  /-- The words that `svcall` pushes are none of the frame or of the arguments above it. -/
  apart : ∀ x, (x - (s.msp - 12)).toNat < 12 → 48 ≤ (x - (svc s).psp).toNat

/-- The number of arguments that are passed on the stack. -/
def onStack (n : ℕ) : ℕ := n - 4

variable {rom} {fns} {n : ℕ} {s : Cpu}

theorem svc_r {rd : Reg} (h : rd ≠ .lr) : (svc s).r rd = s.r rd := by
  unfold svc exceptionEntry
  exact Function.update_of_ne h _ _

theorem load_svc : ThreadContextRegs.load (svc s).mem (svc s).psp = stackedContext { s with pc := s.pc + 2 } :=
  load_exceptionEntry _

theorem Stub.agree (h : Stub rom n s) {m : Mem} (hm : ∀ x, 12 ≤ (x - (s.msp - 12)).toNat → m x = (svc s).mem x) :
    Agree (svc s).mem m (svc s).psp 48 := by
  intro x hx
  refine hm x ?_
  by_contra hlt
  have := h.apart x (Nat.not_le.mp hlt)
  omega

/-- A word that is not pushed. -/
theorem push_of_le {x v : Word} {m : Mem} {k : ℕ} (hk : k < 3) (h : 12 ≤ (x - (s.msp - 12)).toNat) :
    Function.update m (s.msp - 12 + BitVec.ofNat 32 (4 * k)) v x = m x := by
  refine Function.update_of_ne ?_ _ _
  rintro rfl
  rw [add_sub_cancel_left, BitVec.toNat_ofNat] at h
  omega

/-- The words of the user's stack, at the stack pointer and above. -/
theorem Stub.argument_eq (h : Stub rom n s) {m : Mem} (hm : Agree (svc s).mem m (svc s).psp 48) {i : ℕ} (hi : i < 3) :
    m (s.psp + BitVec.ofNat 32 (4 * i)) = s.argument (i + 4) := by
  have hframe : (svc s).psp + 32 + padding s.psp = s.psp := frame_add s.psp
  have hsp : s.sp = s.psp := by rw [Cpu.sp, h.mode]
  have hpad : (padding s.psp).toNat ≤ 4 := by
    unfold padding
    split <;> decide
  have hoff : s.psp + BitVec.ofNat 32 (4 * i) - (svc s).psp = 32 + padding s.psp + BitVec.ofNat 32 (4 * i) := by
    nth_rewrite 1 [← hframe]
    ring
  have hlt : (s.psp + BitVec.ofNat 32 (4 * i) - (svc s).psp).toNat < 48 := by
    rw [hoff]
    have : (BitVec.ofNat 32 (4 * i)).toNat ≤ 8 := by
      rw [BitVec.toNat_ofNat]
      omega
    bv_omega
  have hle : (s.psp + BitVec.ofNat 32 (4 * i) - ((svc s).psp + 32)).toNat < 16 := by
    have : s.psp + BitVec.ofNat 32 (4 * i) - ((svc s).psp + 32) = padding s.psp + BitVec.ofNat 32 (4 * i) := by
      rw [sub_add_eq_sub_sub, hoff]
      ring
    rw [this]
    have : (BitVec.ofNat 32 (4 * i)).toNat ≤ 8 := by
      rw [BitVec.toNat_ofNat]
      omega
    bv_omega
  rw [hm _ hlt, Cpu.argument, hsp]
  exact agree_exceptionEntry { s with pc := s.pc + 2 } (by decide) _ hle

/-- The memory when `svcall` has pushed `lr`. -/
def linked (s : Cpu) : Mem := Function.update (svc s).mem (s.msp - 4) 0xFFFFFFFD

theorem linked_of_le {x : Word} (h : 12 ≤ (x - (s.msp - 12)).toNat) : linked s x = (svc s).mem x := by
  have hslot : s.msp - 4 = s.msp - 12 + BitVec.ofNat 32 (4 * 2) := by bv_omega
  rw [linked, hslot]
  exact push_of_le (by decide) h

theorem Stub.agree_linked (h : Stub rom n s) : Agree (svc s).mem (linked s) (svc s).psp 48 :=
  h.agree fun _ hx => linked_of_le hx

/-- The state at the table branch. -/
theorem Stub.prologue_eq (h : Stub rom n s) :
    prologue rom (svc s) = { svc s with
      r := Function.update (Function.update (svc s).r .lr (svc s).psp) .r12 (BitVec.ofNat 32 n)
      msp := s.msp - 4
      mem := linked s } := by
  have hn := h.le_six
  have hsp : (svc s).sp = s.msp := rfl
  have hlr : (svc s).r .lr = 0xFFFFFFFD := rfl
  have hpush : (svc s).push [.lr] = { svc s with
      msp := s.msp - 4
      mem := linked s } := by
    simp only [Cpu.push, hsp, List.map_cons, List.map_nil, hlr, storeWords, List.length_singleton]
    rfl
  have hret : linked s ((svc s).psp + 24) = s.pc + 2 := by
    have hsame := congrArg ThreadContextRegs.retAddr (ThreadContextRegs.load_congr (h.agree_linked.mono (by decide)))
    exact hsame.trans (congrArg ThreadContextRegs.retAddr load_svc)
  have hcode : (rom.code (s.pc + 2 - 2)).setWidth 32 = BitVec.ofNat 32 n := by
    rw [add_sub_cancel_right, h.imm]
    apply BitVec.eq_of_toNat_eq
    simp only [BitVec.toNat_setWidth, BitVec.toNat_ofNat]
    omega
  unfold prologue
  rw [hpush]
  simp only [Cpu.set, Cpu.ldr, Function.update_self, hret, hcode, Function.update_idem]

theorem not_mem_calleeSaved {rd : Reg} (h : rd ∈ calleeSaved) : rd ≠ .r12 ∧ rd ≠ .lr := by
  simp only [calleeSaved, List.mem_cons, List.not_mem_nil, or_false] at h
  rcases h with rfl | rfl | rfl | rfl | rfl | rfl | rfl | rfl <;> decide

/-- What `svcall` has done when the handler is called: the registers are the user's but for
`r12`, `lr` and, with six arguments, `r11`; the stack holds the arguments behind the fourth
and above them the link to the exception return. -/
structure Entered (rom : Rom) (n : ℕ) (s t : Cpu) : Prop where
  mode : t.mode = .handler
  psp : t.psp = (svc s).psp
  msp : t.msp = s.msp - 4 - BitVec.ofNat 32 (4 * onStack n)
  regs : ∀ rd, rd ≠ .r12 → rd ≠ .lr → (n = 6 → rd ≠ .r11) → t.r rd = s.r rd
  stack : ∀ i, i + 4 < n → t.mem (t.msp + BitVec.ofNat 32 (4 * i)) = s.argument (i + 4)
  link : t.mem (s.msp - 4) = 0xFFFFFFFD
  mem : ∀ x, 12 ≤ (x - (s.msp - 12)).toNat → t.mem x = (svc s).mem x
  pc : t.pc = rom.syscallVect (s.argument n) &&& ~~~1
  lr : t.r .lr = rom.behindCall n

theorem Entered.argument_eq {t : Cpu} (h : Entered rom n s t) {i : ℕ} (hi : i < n) : t.argument i = s.argument i := by
  match i with
  | 0 => exact h.regs .r0 (by decide) (by decide) fun _ => by decide
  | 1 => exact h.regs .r1 (by decide) (by decide) fun _ => by decide
  | 2 => exact h.regs .r2 (by decide) (by decide) fun _ => by decide
  | 3 => exact h.regs .r3 (by decide) (by decide) fun _ => by decide
  | i + 4 =>
    have hsp : t.sp = t.msp := by rw [Cpu.sp, h.mode]
    rw [Cpu.argument, hsp]
    exact h.stack i hi

theorem Entered.saved {t : Cpu} (h : Entered rom n s t) {rd : Reg} (hrd : rd ∈ calleeSaved) (h11 : n = 6 → rd ≠ .r11) :
    t.r rd = s.r rd := by
  obtain ⟨h12, hlr⟩ := not_mem_calleeSaved hrd
  exact h.regs rd h12 hlr h11

theorem callVect_eq {no : Reg} {v : Word} (hv : rom.syscallVect (s.r no) = v) (h : v.getLsbD 0 = true) :
    callVect rom n no s = some { s with
      r := Function.update (Function.update s.r .r12 v) .lr (rom.behindCall n)
      pc := v &&& ~~~1 } := by
  simp only [callVect, Cpu.set, Cpu.branch, hv, Function.update_self, h, if_true]

/-- The address that the paths of four and more arguments compute. -/
theorem Stub.aboveFrame_eq (h : Stub rom n s) : aboveFrame (prologue rom (svc s)) = s.psp := by
  have hframe : (svc s).psp + 32 + padding s.psp = s.psp := frame_add s.psp
  have hbit : (linked s ((svc s).psp + 28)).getLsbD 9 = s.psp.getLsbD 2 := by
    have hsame := congrArg ThreadContextRegs.xpsr (ThreadContextRegs.load_congr (h.agree_linked.mono (by decide)))
    have hload := congrArg ThreadContextRegs.xpsr (load_svc (s := s))
    exact (congrArg (fun w : Word => w.getLsbD 9) (hsame.trans hload)).trans (stackedContext_bit _)
  rw [h.prologue_eq]
  unfold aboveFrame
  simp only [Function.update_self, ne_eq, reduceCtorEq, not_false_eq_true, Function.update_of_ne]
  rw [hbit]
  nth_rewrite 3 [← hframe]
  unfold padding
  cases s.psp.getLsbD 2 with
  | false => simp
  | true => simp [add_assoc]

/-- The last instructions of a path, from the registers and the stack that it has set up. -/
theorem callVect_entered {q : Cpu} {no : Reg} (hno : q.r no = s.argument n)
    (hthumb : (rom.syscallVect (s.argument n)).getLsbD 0 = true) (hmode : q.mode = .handler)
    (hpsp : q.psp = (svc s).psp) (hmsp : q.msp = s.msp - 4 - BitVec.ofNat 32 (4 * onStack n))
    (hregs : ∀ rd, rd ≠ .r12 → rd ≠ .lr → (n = 6 → rd ≠ .r11) → q.r rd = s.r rd)
    (hstack : ∀ i, i + 4 < n → q.mem (q.msp + BitVec.ofNat 32 (4 * i)) = s.argument (i + 4))
    (hlink : q.mem (s.msp - 4) = 0xFFFFFFFD)
    (hmem : ∀ x, 12 ≤ (x - (s.msp - 12)).toNat → q.mem x = (svc s).mem x) :
    ∃ t, callVect rom n no q = some t ∧ Entered rom n s t := by
  rw [callVect_eq (congrArg rom.syscallVect hno) hthumb]
  refine ⟨_, rfl, hmode, hpsp, hmsp, fun rd h12 hlr h11 => ?_, hstack, hlink, hmem, rfl, ?_⟩
  · simp only [ne_eq, hlr, not_false_eq_true, Function.update_of_ne, h12, hregs rd h12 hlr h11]
  · simp only [Function.update_self]

/-- The registers at the table branch. -/
theorem Stub.prologue_r (h : Stub rom n s) {rd : Reg} (h12 : rd ≠ .r12) (hlr : rd ≠ .lr) :
    (prologue rom (svc s)).r rd = s.r rd := by
  rw [h.prologue_eq]
  simp only [ne_eq, h12, not_false_eq_true, Function.update_of_ne, hlr, svc_r hlr]

/-- Up to three arguments: the number of the call is in the register behind them. -/
theorem Stub.callVect_register (h : Stub rom n s) {no : Reg} (h12 : no ≠ .r12) (hlr : no ≠ .lr)
    (hno : s.r no = s.argument n) (hn : n < 4) :
    ∃ t, callVect rom n no (prologue rom (svc s)) = some t ∧ Entered rom n s t := by
  refine callVect_entered ((h.prologue_r h12 hlr).trans hno) h.thumb ?_ ?_ ?_
    (fun rd h12 hlr _ => h.prologue_r h12 hlr)
    (fun i hi => by omega) ?_ ?_ <;> rw [h.prologue_eq]
  · rfl
  · have : onStack n = 0 := by unfold onStack; omega
    simp [this]
  · exact Function.update_self _ _ _
  · exact fun _ hx => linked_of_le hx

/-- Four arguments and more: the number of the call has been loaded into `lr`, and the
arguments `vs` behind the fourth are on the kernel stack. -/
theorem Stub.callVect_stack (h : Stub rom n s) {q : Cpu} (vs : List Word) (hn : n = 4 + vs.length)
    (hlr : q.r .lr = s.argument n) (hmode : q.mode = .handler) (hpsp : q.psp = (svc s).psp)
    (hmsp : q.msp = s.msp - 4 - BitVec.ofNat 32 (4 * vs.length))
    (hregs : ∀ rd, rd ≠ .r12 → rd ≠ .lr → (n = 6 → rd ≠ .r11) → q.r rd = s.r rd)
    (hmem : q.mem = storeWords (linked s) q.msp vs)
    (hvs : vs = (List.range vs.length).map fun i => s.argument (i + 4)) :
    ∃ t, callVect rom n .lr q = some t ∧ Entered rom n s t := by
  have hlen : vs.length ≤ 2 := by
    have := h.le_six
    omega
  have hon : onStack n = vs.length := by unfold onStack; omega
  refine callVect_entered hlr h.thumb hmode hpsp (by rw [hon, hmsp]) hregs (fun i hi => ?_) ?_ fun x hx => ?_
  · have hi' : vs[i]? = some (s.argument (i + 4)) := by
      rw [hvs, List.getElem?_map, List.getElem?_range (by omega), Option.map_some]
    rw [hmem, storeWords_apply (linked s) (by omega) hi']
  · rw [hmem, storeWords_of_le (linked s) vs]
    · exact Function.update_self _ _ _
    · rw [hmsp, sub_sub_cancel, BitVec.toNat_ofNat]
      omega
  · rw [hmem, storeWords_of_le (linked s) vs, linked_of_le hx]
    have hoff : x - q.msp = x - (s.msp - 12) - 8 + BitVec.ofNat 32 (4 * vs.length) := by
      rw [hmsp]
      bv_omega
    have hsmall := toNat_ofNat_of_lt (k := 4 * vs.length) (by omega)
    rw [hoff]
    bv_omega

theorem Stub.path_entered (h : Stub rom n s) :
    ∃ t, path rom (prologue rom (svc s)) n = some t ∧ Entered rom n s t := by
  have hlow := h.aboveFrame_eq
  have hmem : (prologue rom (svc s)).mem = linked s := by rw [h.prologue_eq]
  have hmode : (prologue rom (svc s)).mode = .handler := by rw [h.prologue_eq]; rfl
  have hpsp : (prologue rom (svc s)).psp = (svc s).psp := by rw [h.prologue_eq]
  have hmsp : (prologue rom (svc s)).msp = s.msp - 4 := by rw [h.prologue_eq]
  have hregs := fun rd (h12 : rd ≠ Reg.r12) (hlr : rd ≠ .lr) => h.prologue_r h12 hlr
  have hword0 : linked s s.psp = s.argument 4 := by simpa using h.argument_eq h.agree_linked (i := 0) (by decide)
  have hword1 : linked s (s.psp + 4) = s.argument 5 := h.argument_eq h.agree_linked (i := 1) (by decide)
  have hword2 : linked s (s.psp + 4 + 4) = s.argument 6 := by
    rw [add_assoc]
    exact h.argument_eq h.agree_linked (i := 2) (by decide)
  match n, h with
  | 0, h => exact h.callVect_register (by decide) (by decide) rfl (by decide)
  | 1, h => exact h.callVect_register (by decide) (by decide) rfl (by decide)
  | 2, h => exact h.callVect_register (by decide) (by decide) rfl (by decide)
  | 3, h => exact h.callVect_register (by decide) (by decide) rfl (by decide)
  | 4, h =>
    rw [path, hlow]
    refine h.callVect_stack [] rfl ?_ hmode hpsp (hmsp.trans (by simp)) ?_ hmem rfl
    · simp only [Cpu.ldr, Cpu.set, Function.update_self, hmem, hword0]
    · intro rd h12 hlr _
      simp only [Cpu.ldr, Cpu.set, ne_eq, hlr, not_false_eq_true, Function.update_of_ne, hregs rd h12 hlr]
  | 5, h =>
    have hmode' : ((prologue rom (svc s)).ldm s.psp [.r12, .lr]).mode = .handler := hmode
    rw [path, hlow, Cpu.push_handler hmode']
    refine h.callVect_stack [s.argument 4] rfl ?_ hmode hpsp (by rw [← hmsp]; rfl) ?_ ?_ rfl
    · simp only [Cpu.ldm, Cpu.ldr, Cpu.set, Function.update_self, hmem, hword1]
    · intro rd h12 hlr _
      simp only [Cpu.ldm, Cpu.ldr, Cpu.set, ne_eq, h12, hlr, not_false_eq_true, Function.update_of_ne,
        hregs rd h12 hlr]
    · simp only [Cpu.ldm, Cpu.ldr, Cpu.set, List.map_cons, List.map_nil, ne_eq, reduceCtorEq, not_false_eq_true,
        Function.update_of_ne, Function.update_self, hmem, hword0]
  | 6, h =>
    have hmode' : ((prologue rom (svc s)).ldm s.psp [.r11, .r12, .lr]).mode = .handler := hmode
    rw [path, hlow, Cpu.push_handler hmode']
    refine h.callVect_stack [s.argument 4, s.argument 5] rfl ?_ hmode hpsp (by rw [← hmsp]; rfl) ?_ ?_ rfl
    · simp only [Cpu.ldm, Cpu.ldr, Cpu.set, Function.update_self, hmem, hword2]
    · intro rd h12 hlr h11
      simp only [Cpu.ldm, Cpu.ldr, Cpu.set, ne_eq, h12, hlr, h11 rfl, not_false_eq_true, Function.update_of_ne,
        hregs rd h12 hlr]
    · simp only [Cpu.ldm, Cpu.ldr, Cpu.set, List.map_cons, List.map_nil, ne_eq, reduceCtorEq, not_false_eq_true,
        Function.update_of_ne, Function.update_self, hmem, hword0, hword1]
  | n + 7, h => exact absurd h.le_six (by omega)

theorem Stub.enter (h : Stub rom n s) : ∃ t, svcallEnter rom (svc s) = some (n, t) ∧ Entered rom n s t := by
  have hn := h.le_six
  obtain ⟨t, ht, hentered⟩ := h.path_entered
  refine ⟨t, ?_, hentered⟩
  have hr12 : ((prologue rom (svc s)).r .r12).toNat = n := by
    rw [h.prologue_eq]
    simp only [Function.update_self, BitVec.toNat_ofNat]
    omega
  simp only [svcallEnter, hr12, ht, Option.map_some]

/-! ## The return -/

theorem syscallReturn_eq (hmode : s.mode = .handler) (hlink : s.mem s.msp = 0xFFFFFFFD) (hne : s.msp ≠ s.psp) :
    syscallReturn s = some (exceptionReturn { s with
      r := Function.update s.r .r1 s.psp
      mem := Function.update s.mem s.psp (s.r .r0)
      msp := s.msp + 4 }) := by
  simp only [syscallReturn, popPc, Cpu.set, Cpu.str, Cpu.sp, Cpu.setSp, hmode, Function.update_self, ne_eq,
    reduceCtorEq, not_false_eq_true, Function.update_of_ne, hne, hlink, if_true]

/-- Storing the result leaves the rest of the frame alone. -/
theorem load_update (m : Mem) (a v : Word) :
    ThreadContextRegs.load (Function.update m a v) a = { ThreadContextRegs.load m a with r0 := v } := by
  simp [ThreadContextRegs.load]

/-- What the handler has left when it returns. -/
structure Returned (n : ℕ) (s u : Cpu) : Prop where
  mode : u.mode = .handler
  psp : u.psp = (svc s).psp
  msp : u.msp = s.msp - 4 - BitVec.ofNat 32 (4 * onStack n)
  link : u.mem (s.msp - 4) = 0xFFFFFFFD
  frame : ThreadContextRegs.load u.mem (svc s).psp = stackedContext { s with pc := s.pc + 2 }

/-- What the user sees when the call is over. -/
structure Left (s w : Cpu) (r0 : Word) : Prop where
  r0 : w.r .r0 = r0
  psp : w.psp = s.psp
  pc : w.pc = s.pc + 2
  lr : w.r .lr = s.r .lr

theorem Stub.link_ne (h : Stub rom n s) : s.msp - 4 ≠ (svc s).psp := by
  intro heq
  have := h.apart (s.msp - 4) (by bv_omega)
  rw [heq, sub_self] at this
  exact absurd this (by decide)

/-- The end of every path, with the stack pointer back at the link. -/
theorem Stub.syscallReturn_left (h : Stub rom n s) {u : Cpu} (hmode : u.mode = .handler) (hpsp : u.psp = (svc s).psp)
    (hmsp : u.msp = s.msp - 4) (hlink : u.mem (s.msp - 4) = 0xFFFFFFFD)
    (hframe : ThreadContextRegs.load u.mem (svc s).psp = stackedContext { s with pc := s.pc + 2 }) :
    ∃ w, syscallReturn u = some w ∧ Left s w (u.r .r0) ∧ ∀ rd ∈ calleeSaved, w.r rd = u.r rd := by
  have hload : ThreadContextRegs.load (Function.update u.mem u.psp (u.r .r0)) u.psp =
      { stackedContext { s with pc := s.pc + 2 } with r0 := u.r .r0 } := by
    rw [load_update, hpsp, hframe]
  rw [syscallReturn_eq hmode (by rw [hmsp, hlink]) (by rw [hmsp, hpsp]; exact h.link_ne)]
  refine ⟨_, rfl, ⟨?_, ?_, ?_, ?_⟩, fun rd hrd => ?_⟩
  · exact congrArg ThreadContextRegs.r0 hload
  · refine exceptionReturn_psp (c := { s with pc := s.pc + 2 }) hpsp ?_
    exact (congrArg (fun f => f.xpsr.getLsbD 9) hload).trans (stackedContext_bit _)
  · exact congrArg ThreadContextRegs.retAddr hload
  · exact congrArg ThreadContextRegs.lr hload
  · refine (ThreadContextRegs.regs_saved _ _ hrd).trans ?_
    refine Function.update_of_ne ?_ _ _
    rintro rfl
    exact absurd hrd (by decide)

/-- The registers that a path restores from the stack. -/
def epilogueRegs (n : ℕ) (u : Cpu) : Reg → Word :=
  if n = 6 then Function.update (Function.update u.r .r11 (u.mem u.msp)) .r12 (u.mem (u.msp + 4)) else u.r

/-- Every path ends with the arguments off the stack. -/
theorem epilogue_eq {u : Cpu} {a : Word} (hn : n ≤ 6) (hmode : u.mode = .handler)
    (hmsp : u.msp = a - BitVec.ofNat 32 (4 * onStack n)) :
    epilogue n u = syscallReturn { u with r := epilogueRegs n u, msp := a } := by
  unfold epilogue
  split
  · have hset : u.setSp (u.sp + 4) = { u with msp := a } := by
      simp only [Cpu.setSp, Cpu.sp, hmode, hmsp, onStack]
      congr 1
      bv_omega
    rw [hset]
    rfl
  · have hpop : u.pop [.r11, .r12] = { u with r := epilogueRegs 6 u, msp := a } := by
      simp only [Cpu.pop, Cpu.ldm, Cpu.ldr, Cpu.set, Cpu.setSp, Cpu.sp, hmode, epilogueRegs, if_true]
      congr 1
      rw [hmsp]
      simp only [onStack, List.length_cons, List.length_nil]
      bv_omega
    rw [hpop]
  · rename_i h5 h6
    have hne5 : n ≠ 5 := h5
    have hne6 : n ≠ 6 := h6
    have hon : onStack n = 0 := by unfold onStack; omega
    have hself : u = { u with r := epilogueRegs n u, msp := a } := by
      rw [epilogueRegs, if_neg hne6]
      rw [hon, Nat.mul_zero, show BitVec.ofNat 32 0 = (0 : Word) from rfl, sub_zero] at hmsp
      rw [← hmsp]
    rw [← hself]

/-- With six arguments, `r11` is what the handler has left in the place of the fifth. -/
theorem Stub.epilogue_left (h : Stub rom n s) {u : Cpu} (hu : Returned n s u) :
    ∃ w, epilogue n u = some w ∧ Left s w (u.r .r0) ∧
      ∀ rd ∈ calleeSaved, w.r rd = if n = 6 ∧ rd = .r11 then u.mem u.msp else u.r rd := by
  have hr0 : epilogueRegs n u .r0 = u.r .r0 := by
    unfold epilogueRegs
    split <;> simp
  rw [epilogue_eq h.le_six hu.mode hu.msp]
  obtain ⟨w, hw, hleft, hsaved⟩ := h.syscallReturn_left (u := { u with r := epilogueRegs n u, msp := s.msp - 4 })
    hu.mode hu.psp rfl hu.link hu.frame
  refine ⟨w, hw, by rwa [← hr0], fun rd hrd => (hsaved rd hrd).trans ?_⟩
  obtain ⟨h12, -⟩ := not_mem_calleeSaved hrd
  by_cases h6 : n = 6
  · by_cases h11 : rd = .r11
    · simp [epilogueRegs, h6, h11]
    · simp [epilogueRegs, h6, h11, h12]
  · simp [epilogueRegs, h6]

/-! ## The whole call -/

/-- The words that a handler on path `n` has to leave alone: the exception frame, and the
link above its arguments. -/
def callerWords (n : ℕ) (t : Cpu) (x : Word) : Prop :=
  (x - t.psp).toNat < 32 ∨ x = t.msp + BitVec.ofNat 32 (4 * onStack n)

/-- The handler is called with the user's arguments, and when the call is over the user has
its result in `r0` and the registers and the stack pointer of before. -/
structure Dispatched (rom : Rom) (fns : Word → Cpu → Cpu) (n : ℕ) (s t u : Cpu) : Prop where
  handler : t.pc = rom.syscallVect (s.argument n) &&& ~~~1
  args : ∀ i < n, t.argument i = s.argument i
  r0 : u.r .r0 = (fns t.pc t).r .r0
  saved : ∀ rd ∈ calleeSaved, u.r rd = s.r rd
  psp : u.psp = s.psp

theorem Stub.returned (h : Stub rom n s) {t : Cpu} (ht : Entered rom n s t) {f : Cpu → Cpu}
    (hf : Respects (callerWords n) f) : Returned n s (f t) := by
  have hlink : t.msp + BitVec.ofNat 32 (4 * onStack n) = s.msp - 4 := by
    rw [ht.msp, sub_add_cancel]
  refine ⟨(hf.mode t).trans ht.mode, (hf.psp t).trans ht.psp, (hf.msp t).trans ht.msp, ?_, ?_⟩
  · rw [hf.keeps t _ (.inr hlink.symm), ht.link]
  · have hframe : Agree t.mem (f t).mem (svc s).psp 32 := fun x hx => hf.keeps t x (.inl (by rwa [ht.psp]))
    rw [ThreadContextRegs.load_congr (((h.agree ht.mem).mono (by decide)).trans hframe), load_svc]

/-- **Dispatch.** The caller gets everything back, except that with six arguments `r11` is
what the handler has left in the place of its fifth argument. -/
theorem dispatched_iff (fns : Word → Cpu → Cpu) (h : Stub rom n s)
    (hf : Respects (callerWords n) (fns (rom.syscallVect (s.argument n) &&& ~~~1))) :
    ∃ t u, svcallEnter rom (svc s) = some (n, t) ∧ doSyscall rom fns s = some u ∧
      (Dispatched rom fns n s t u ↔ (n = 6 → (fns t.pc t).mem t.msp = s.r .r11)) := by
  obtain ⟨t, hent, ht⟩ := h.enter
  rw [← ht.pc] at hf
  obtain ⟨w, hw, hleft, hsaved⟩ := h.epilogue_left (h.returned ht hf)
  have hback : (fns t.pc t).pc = rom.behindCall n := (hf.returns t).trans ht.lr
  have hcall : svcall rom fns (svc s) = some w := by
    simp only [svcall, hent, Option.bind_some, hback, if_true, hw]
  have hbranch : w.branch (w.r .lr) = some { w with pc := s.r .lr &&& ~~~1 } := by
    rw [Cpu.branch, hleft.lr, if_pos h.back]
  refine ⟨t, { w with pc := s.r .lr &&& ~~~1 }, hent, by rw [doSyscall, hcall, Option.bind_some, hbranch], ?_⟩
  constructor
  · rintro hd rfl
    have h11 := hsaved .r11 (by decide)
    rw [if_pos ⟨rfl, rfl⟩, hf.msp] at h11
    exact h11.symm.trans (hd.saved .r11 (by decide))
  · intro hslot
    refine ⟨ht.pc, fun i hi => ht.argument_eq hi, hleft.r0, fun rd hrd => ?_, hleft.psp⟩
    refine (hsaved rd hrd).trans ?_
    split
    · rename_i h6
      rw [hf.msp, hslot h6.1, h6.2]
    · rename_i h6
      rw [hf.saved t rd hrd]
      exact ht.saved hrd fun hn hrd => h6 ⟨hn, hrd⟩

/-- Memory in which every word is its own address, and a caller of the stub at `0x100`. -/
def caller (sp : Word) : Cpu where
  r rd := if rd = .lr then 0x3001 else 0
  msp := 0x20000200
  psp := sp
  pc := 0x100
  xpsr := 0x01000000
  mode := .thread
  mem a := a

def stubOf (n : ℕ) : Rom := ⟨fun _ => BitVec.ofNat 8 n, fun _ => 0x4001, fun _ => 0x5001⟩

/-- A handler that returns 5 and writes to no memory. -/
def five (_ : Word) (t : Cpu) : Cpu := { t with r := Function.update t.r .r0 5, pc := t.r .lr }

theorem respects_five (n : ℕ) (a : Word) : Respects (callerWords n) (five a) := by
  refine ⟨fun _ => rfl, fun _ => rfl, fun _ => rfl, fun _ => rfl, fun t rd hrd => ?_, fun _ _ _ => rfl⟩
  refine Function.update_of_ne ?_ _ _
  rintro rfl
  exact absurd hrd (by decide)

theorem stub_caller {sp : Word} (hn : n ≤ 6) (hpsp : (svc (caller sp)).psp = 0x20000FE0) :
    Stub (stubOf n) n (caller sp) := by
  refine ⟨rfl, hn, rfl, by simp [caller], by simp [stubOf], fun x hx => ?_⟩
  rw [hpsp]
  simp only [caller] at hx
  bv_omega

theorem dispatched_iff_unaligned :
    ∃ t u, svcallEnter (stubOf 5) (svc (caller 0x20001004)) = some (5, t) ∧
      doSyscall (stubOf 5) five (caller 0x20001004) = some u ∧
      Dispatched (stubOf 5) five 5 (caller 0x20001004) t u := by
  have hstub : Stub (stubOf 5) 5 (caller 0x20001004) := stub_caller (by decide) (by decide)
  obtain ⟨t, u, ht, hu, hiff⟩ := dispatched_iff five hstub (respects_five 5 _)
  exact ⟨t, u, ht, hu, hiff.mpr fun h => absurd h (by decide)⟩

/-- Six arguments: the fifth, here `0x20001000`, is left in `r11`. -/
theorem r11_lost :
    Stub (stubOf 6) 6 (caller 0x20001000) ∧ (∀ a, Respects (callerWords 6) (five a)) ∧
      ∃ u, doSyscall (stubOf 6) five (caller 0x20001000) = some u ∧
        ∀ t, ¬ Dispatched (stubOf 6) five 6 (caller 0x20001000) t u := by
  refine ⟨stub_caller (by decide) (by decide), respects_five 6, ?_⟩
  have h11 : (doSyscall (stubOf 6) five (caller 0x20001000)).map (fun u => u.r .r11) = some 0x20001000 := by
    decide +kernel
  obtain ⟨u, hu, hr⟩ := Option.map_eq_some_iff.mp h11
  refine ⟨u, hu, fun t hd => ?_⟩
  have hsaved := hd.saved .r11 (by decide)
  rw [hr] at hsaved
  exact absurd hsaved (by decide)

end PikoRT.Arch.Svcall

import PikoRT.Kernel.Bitops
import PikoRT.Lib.Words

/-! # The ARMv7-M machine that the kernel's assembly runs on

Registers, the two banked stack pointers, a memory of words, exception entry and return as
the architecture has them with `CCR.STKALIGN` set (`v7m_init` sets it), and the instructions
that `arch/v7m-entry.S` and `arch/v7m-svcall.S` use. In Thread mode `sp` is the process
stack pointer, in Handler mode the main one. Addresses are those of whole words. -/
namespace PikoRT.Arch.V7m
open PikoRT.Kernel.Bitops PikoRT.Lib.Words

abbrev Mem := Word → Word

inductive Reg
  | r0 | r1 | r2 | r3 | r4 | r5 | r6 | r7 | r8 | r9 | r10 | r11 | r12 | lr
  deriving DecidableEq, Repr

/-- The registers that a function gives back as it found them. -/
def calleeSaved : List Reg := [.r4, .r5, .r6, .r7, .r8, .r9, .r10, .r11]

inductive Mode
  | thread | handler
  deriving DecidableEq, Repr

structure Cpu where
  r : Reg → Word
  msp : Word
  psp : Word
  pc : Word
  xpsr : Word
  mode : Mode
  mem : Mem

namespace Cpu

def sp (s : Cpu) : Word :=
  match s.mode with
  | .thread => s.psp
  | .handler => s.msp

def setSp (v : Word) (s : Cpu) : Cpu :=
  match s.mode with
  | .thread => { s with psp := v }
  | .handler => { s with msp := v }

def set (rd : Reg) (v : Word) (s : Cpu) : Cpu := { s with r := Function.update s.r rd v }

/-! ## Instructions -/

def ldr (rt : Reg) (a : Word) (s : Cpu) : Cpu := s.set rt (s.mem a)

def str (rt : Reg) (a : Word) (s : Cpu) : Cpu := { s with mem := Function.update s.mem a (s.r rt) }

/-- `ldm`, without write-back: the registers from consecutive words. -/
def ldm (a : Word) : List Reg → Cpu → Cpu
  | [], s => s
  | rt :: rs, s => ldm (a + 4) rs (s.ldr rt a)

theorem ldm_eq (s : Cpu) (a : Word) (rs : List Reg) : s.ldm a rs = { s with r := (s.ldm a rs).r } := by
  induction rs generalizing s a with
  | nil => rfl
  | cons rt rs ih => rw [ldm, ih]; rfl

theorem ldm_of_notMem (s : Cpu) (a : Word) {rs : List Reg} {rd : Reg} (h : rd ∉ rs) : (s.ldm a rs).r rd = s.r rd := by
  induction rs generalizing s a with
  | nil => rfl
  | cons rt rs ih =>
    rw [List.mem_cons, not_or] at h
    rw [ldm, ih _ _ h.2]
    exact Function.update_of_ne h.1 _ _

theorem ldm_apply (s : Cpu) (a : Word) {rs : List Reg} {rd : Reg} {i : ℕ} (hnd : rs.Nodup) (hi : rs[i]? = some rd) :
    (s.ldm a rs).r rd = s.mem (a + BitVec.ofNat 32 (4 * i)) := by
  induction rs generalizing s a i with
  | nil => cases hi
  | cons rt rs ih =>
    obtain ⟨hrt, hnd⟩ := List.nodup_cons.mp hnd
    cases i with
    | zero =>
      cases hi
      rw [ldm, ldm_of_notMem _ _ hrt]
      simp [ldr, set]
    | succ i =>
      rw [ldm, ih _ _ hnd hi, add_mul_succ]
      rfl

def push (rs : List Reg) (s : Cpu) : Cpu :=
  let sp := s.sp - BitVec.ofNat 32 (4 * rs.length)
  { s.setSp sp with mem := storeWords s.mem sp (rs.map s.r) }

theorem push_handler {s : Cpu} (h : s.mode = .handler) (rs : List Reg) :
    s.push rs = { s with
      msp := s.msp - BitVec.ofNat 32 (4 * rs.length)
      mem := storeWords s.mem (s.msp - BitVec.ofNat 32 (4 * rs.length)) (rs.map s.r) } := by
  simp only [push, sp, setSp, h]

def pop (rs : List Reg) (s : Cpu) : Cpu :=
  (s.ldm s.sp rs).setSp (s.sp + BitVec.ofNat 32 (4 * rs.length))

/-- The N, Z, C, V and Q flags. -/
def flags (s : Cpu) : Word := s.xpsr &&& 0xF8000000

def msrApsrNzcvq (v : Word) (s : Cpu) : Cpu :=
  { s with xpsr := (s.xpsr &&& 0x07FFFFFF) ||| (v &&& 0xF8000000) }

/-- A branch to an address from a register or from memory. Bit 0 says that the code there is
Thumb code; without it the instruction faults. -/
def branch (v : Word) (s : Cpu) : Option Cpu :=
  if v.getLsbD 0 then some { s with pc := v &&& ~~~1 } else none

/-- The argument `i` of a function that is being called, by the procedure call standard. -/
def argument (s : Cpu) : ℕ → Word
  | 0 => s.r .r0
  | 1 => s.r .r1
  | 2 => s.r .r2
  | 3 => s.r .r3
  | i + 4 => s.mem (s.sp + BitVec.ofNat 32 (4 * i))

end Cpu

/-- A function that respects the calling convention, from its first instruction to its
return; `pc` then is the address it returns to. `caller` are the words that belong to its
callers. -/
structure Respects (caller : Cpu → Word → Prop) (f : Cpu → Cpu) : Prop where
  returns : ∀ s, (f s).pc = s.r .lr
  mode : ∀ s, (f s).mode = s.mode
  msp : ∀ s, (f s).msp = s.msp
  psp : ∀ s, (f s).psp = s.psp
  saved : ∀ s, ∀ rd ∈ calleeSaved, (f s).r rd = s.r rd
  keeps : ∀ s x, caller s x → (f s).mem x = s.mem x

/-! ## Exception entry and return -/

/-- `struct thread_context_regs`, the frame that the hardware stacks. -/
structure ThreadContextRegs where
  r0 : Word
  r1 : Word
  r2 : Word
  r3 : Word
  r12 : Word
  lr : Word
  retAddr : Word
  xpsr : Word

namespace ThreadContextRegs

def words (f : ThreadContextRegs) : List Word := [f.r0, f.r1, f.r2, f.r3, f.r12, f.lr, f.retAddr, f.xpsr]

def load (m : Mem) (a : Word) : ThreadContextRegs :=
  ⟨m a, m (a + 4), m (a + 8), m (a + 12), m (a + 16), m (a + 20), m (a + 24), m (a + 28)⟩

/-- The registers when the frame has been popped. -/
def regs (f : ThreadContextRegs) (r : Reg → Word) : Reg → Word
  | .r0 => f.r0
  | .r1 => f.r1
  | .r2 => f.r2
  | .r3 => f.r3
  | .r12 => f.r12
  | .lr => f.lr
  | rd => r rd

end ThreadContextRegs

/-- The frame for an exception in Thread mode. Bit 9 of the stacked xPSR says that the stack
pointer was not a multiple of eight. -/
def stackedContext (s : Cpu) : ThreadContextRegs :=
  ⟨s.r .r0, s.r .r1, s.r .r2, s.r .r3, s.r .r12, s.r .lr, s.pc,
    (s.xpsr &&& ~~~0x200) ||| (if s.psp.getLsbD 2 then 0x200 else 0)⟩

def exceptionEntry (s : Cpu) : Cpu :=
  let frame := (s.psp - 0x20) &&& ~~~4
  { s with
    r := Function.update s.r .lr 0xFFFFFFFD
    psp := frame
    mode := .handler
    mem := storeWords s.mem frame (stackedContext s).words }

/-- Exception return to Thread mode and the process stack. -/
def exceptionReturn (s : Cpu) : Cpu :=
  let f := ThreadContextRegs.load s.mem s.psp
  { s with
    r := f.regs s.r
    psp := (s.psp + 0x20) ||| (if f.xpsr.getLsbD 9 then 4 else 0)
    pc := f.retAddr
    xpsr := f.xpsr &&& ~~~0x200
    mode := .thread }

/-- `pop {pc}` in Handler mode: the value that exception entry has put into `lr` means an
exception return. -/
def popPc (s : Cpu) : Option Cpu :=
  let t := s.setSp (s.sp + 4)
  if s.mem s.sp = 0xFFFFFFFD then some (exceptionReturn t) else t.branch (s.mem s.sp)

/-! ## Facts about frames -/

section

variable {m m' : Mem} {a : Word} {s : Cpu}

namespace ThreadContextRegs

theorem load_words (m : Mem) (a : Word) (f : ThreadContextRegs) : load (storeWords m a f.words) a = f := by
  simp [load, words, storeWords, add_assoc]

theorem words_of_le (m : Mem) (f : ThreadContextRegs) {x : Word} (h : 32 ≤ (x - a).toNat) :
    storeWords m a f.words x = m x :=
  storeWords_of_le m f.words h

theorem load_congr_words (h : ∀ i < 8, m' (a + BitVec.ofNat 32 (4 * i)) = m (a + BitVec.ofNat 32 (4 * i))) :
    load m' a = load m a := by
  have hzero : m' a = m a := by simpa using h 0 (by norm_num)
  have h4 : m' (a + 4) = m (a + 4) := h 1 (by norm_num)
  have h8 : m' (a + 8) = m (a + 8) := h 2 (by norm_num)
  have h12 : m' (a + 12) = m (a + 12) := h 3 (by norm_num)
  have h16 : m' (a + 16) = m (a + 16) := h 4 (by norm_num)
  have h20 : m' (a + 20) = m (a + 20) := h 5 (by norm_num)
  have h24 : m' (a + 24) = m (a + 24) := h 6 (by norm_num)
  have h28 : m' (a + 28) = m (a + 28) := h 7 (by norm_num)
  simp only [load, hzero, h4, h8, h12, h16, h20, h24, h28]

theorem load_congr (h : Agree m m' a 32) : load m' a = load m a :=
  load_congr_words fun _ _ => h.apply (by omega) (by omega)

end ThreadContextRegs

/-- What the hardware leaves free above a frame to make it a multiple of eight. -/
def padding (sp : Word) : Word := if sp.getLsbD 2 then 4 else 0

theorem padding_eq_and (sp : Word) : padding sp = sp &&& 4 := (BitVec.and_twoPow sp 2).symm

theorem padding_eq_zero_iff (h : a.toNat % 4 = 0) : padding a = 0 ↔ a.toNat % 8 = 0 := by
  have hbit : a.getLsbD 2 = decide (a.toNat / 4 % 2 = 1) := by
    rw [BitVec.getLsbD, Nat.testBit_eq_decide_div_mod_eq]
  unfold padding
  rw [hbit]
  by_cases h8 : a.toNat % 8 = 0
  · have : ¬ a.toNat / 4 % 2 = 1 := by omega
    simp [this, h8]
  · have : a.toNat / 4 % 2 = 1 := by omega
    simp [this, h8]

theorem padding_sub (sp : Word) : padding (sp - 32) = padding sp := by
  have hbit : (sp - 32).getLsbD 2 = sp.getLsbD 2 := by
    rw [BitVec.getLsbD, BitVec.getLsbD, Nat.testBit_eq_decide_div_mod_eq, Nat.testBit_eq_decide_div_mod_eq]
    have : (sp - 32).toNat / 2 ^ 2 % 2 = sp.toNat / 2 ^ 2 % 2 := by bv_omega
    rw [this]
  simp only [padding, hbit]

theorem and_not_or_and (x k : Word) : (x &&& ~~~k) ||| (x &&& k) = x := by
  refine BitVec.eq_of_getLsbD_eq fun i hi => ?_
  simp only [BitVec.getLsbD_or, BitVec.getLsbD_and, BitVec.getLsbD_not, hi, decide_true, Bool.true_and,
    ← Bool.and_or_distrib_left, Bool.not_or_self, Bool.and_true]

theorem and_not_add_and (x k : Word) : (x &&& ~~~k) + (x &&& k) = x := by
  have hdisjoint : (x &&& ~~~k) &&& (x &&& k) = 0#32 := by
    refine BitVec.eq_of_getLsbD_eq fun i hi => ?_
    cases h : k.getLsbD i <;> simp [h]
  rw [BitVec.add_eq_or_of_and_eq_zero _ _ hdisjoint, and_not_or_and]

/-- The frame and the padding above it end at the interrupted stack pointer. -/
theorem frame_add (sp : Word) : ((sp - 32) &&& ~~~4) + 32 + padding sp = sp := by
  have h := and_not_add_and (sp - 32) 4
  rw [← padding_eq_and, padding_sub] at h
  rw [add_right_comm, h, sub_add_cancel]

theorem frame_or (sp : Word) : ((sp - 32) &&& ~~~4) + 32 ||| padding sp = sp := by
  have hsp : (sp &&& ~~~4) + padding sp = sp := by rw [padding_eq_and, and_not_add_and]
  have hframe : ((sp - 32) &&& ~~~4) + 32 = sp &&& ~~~4 := add_right_cancel ((frame_add sp).trans hsp.symm)
  rw [hframe, padding_eq_and, and_not_or_and]

/-- The frame stands where the hardware has put it. -/
theorem load_exceptionEntry (s : Cpu) :
    ThreadContextRegs.load (exceptionEntry s).mem (exceptionEntry s).psp = stackedContext s := by
  simp only [exceptionEntry, ThreadContextRegs.load_words]

theorem agree_exceptionEntry (s : Cpu) {n : ℕ} (hn : 32 + n ≤ 2 ^ 32) :
    Agree s.mem (exceptionEntry s).mem ((exceptionEntry s).psp + 32) n := by
  unfold exceptionEntry
  dsimp only
  exact agree_storeWords s.mem (stackedContext s).words hn

theorem stackedContext_bit (s : Cpu) : (stackedContext s).xpsr.getLsbD 9 = s.psp.getLsbD 2 := by
  unfold stackedContext
  cases s.psp.getLsbD 2 <;> simp

/-- An exception return from the frame of an exception entry. -/
theorem exceptionReturn_psp {c : Cpu} (hpsp : s.psp = (exceptionEntry c).psp)
    (hbit : (ThreadContextRegs.load s.mem s.psp).xpsr.getLsbD 9 = c.psp.getLsbD 2) :
    (exceptionReturn s).psp = c.psp := by
  have h := frame_or c.psp
  unfold exceptionReturn
  simp only [hbit]
  rw [hpsp]
  exact h

/-- The registers that an exception frame does not hold. -/
theorem ThreadContextRegs.regs_saved (f : ThreadContextRegs) (r : Reg → Word) {rd : Reg} (h : rd ∈ calleeSaved) :
    f.regs r rd = r rd := by
  simp only [calleeSaved, List.mem_cons, List.not_mem_nil, or_false] at h
  rcases h with rfl | rfl | rfl | rfl | rfl | rfl | rfl | rfl <;> rfl

theorem ThreadContextRegs.regs_congr (f : ThreadContextRegs) {r r' : Reg → Word}
    (h : ∀ rd ∈ calleeSaved, r' rd = r rd) : f.regs r' = f.regs r := by
  funext rd
  by_cases hrd : rd ∈ calleeSaved
  · rw [f.regs_saved r' hrd, f.regs_saved r hrd, h rd hrd]
  · cases rd <;> first | rfl | exact absurd (by decide) hrd

end

end PikoRT.Arch.V7m

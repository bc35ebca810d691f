import PikoRT.Arch.Entry
import PikoRT.Thread.Create

/-! # The context of a thread that does not run

The two stack pointers are in the first words of its `thread_info`, ten words are on its
interrupt stack, and, when it is new, the first context is on its own stack. `switch_to` and
`thread_create` write them, `thread_restore` reads them back. -/
namespace PikoRT.Thread.Context
open PikoRT.Kernel.Bitops PikoRT.Lib.Words PikoRT.Arch.V7m PikoRT.Thread.Stack PikoRT.Mm.Page PikoRT.Mm.PageUse
open PikoRT.Mm.PageRun (PgMem Lease bytes)
open PikoRT.Thread.Create (ThreadPrivilege threadInfo threadInfo_eq threadCreate)
open PikoRT.Arch.Entry (kernelContext)

/-- The machine with `nPRIV` of control, with which Thread mode is unprivileged. -/
structure Core extends Cpu where
  npriv : Bool

/-- Without the bits 0 and 1, which a stack pointer does not have. -/
def wordOf (a : Word) : Word := a &&& ~~~3

/-- `thread_restore` on this machine; with aligned stack pointers it is that of `Arch.Entry`. -/
def Core.threadRestore (c : Core) : Option Core :=
  let s := c.toCpu
  let a := s.r .r0
  let s := (s.set .r0 (a + 12)).ldm a [.r1, .r2, .r3]
  let s := { s with msp := wordOf (s.r .r1) }
  let s := { s with psp := wordOf (s.r .r2) }
  -- the write to SPSEL in control is ignored in Handler mode
  let npriv := (s.r .r3).getLsbD 0
  (popPc (s.pop kernelContext)).map (Core.mk · npriv)

/-- `switch_to` up to `thread_restore`. -/
def Core.saveContext (c : Core) : Core := ⟨Arch.Entry.saveContext c.toCpu, c.npriv⟩

/-! ## Stores of words that are not aligned -/

def storeByte (a b : Word) (m : Mem) : Mem :=
  let k := 8 * (a &&& 3).toNat
  Function.update m (wordOf a) ((m (wordOf a) &&& ~~~((0xFF : Word) <<< k)) ||| ((b &&& 0xFF) <<< k))

def storeWord (a v : Word) (m : Mem) : Mem :=
  if wordOf a = a then Function.update m a v
  else storeByte (a + 3) (v >>> 24) (storeByte (a + 2) (v >>> 16) (storeByte (a + 1) (v >>> 8) (storeByte a v m)))

/-- The words `vs` from any address upwards. -/
def storeFrom (m : Mem) (a : Word) : List Word → Mem
  | [] => m
  | v :: vs => storeFrom (storeWord a v m) (a + 4) vs

/-- What `thread_create` is given, and the blocks that it gets. -/
structure NewThread where
  thread : Word
  memp : Word
  startRoutine : Word
  arg : Word
  stacksize : Word
  priv : ThreadPrivilege

namespace NewThread

def kcr (n : NewThread) : Word := n.thread + intrStackSize - sizeofKernelContextRegs

def tcr (n : NewThread) : Word := n.memp + n.stacksize - sizeofThreadContextRegs

def context (pthreadExit : Word) (n : NewThread) : ThreadContextRegs :=
  firstContext pthreadExit n.startRoutine n.arg

/-- The memory when `thread_create` has run. -/
def prepare (pthreadExit : Word) (n : NewThread) (m : Mem) : Mem :=
  let m := storeWords m n.kcr (List.replicate 9 0 ++ [excReturnThreadProcess])
  let m := storeFrom m n.tcr (n.context pthreadExit).words
  storeWords m n.thread [n.kcr, n.tcr, n.priv.word]

end NewThread

/-! ## Threads -/

/-- How a thread was last left: as `thread_create` made it, or by a call of `switch_to` in
the state `c`. -/
inductive Origin
  | new (n : NewThread)
  | left (c : Core)

namespace Origin

def msp : Origin → Word
  | .new n => n.kcr
  | .left c => c.msp - 40

def psp : Origin → Word
  | .new n => n.tcr
  | .left c => c.psp

/-- The ten words on the interrupt stack. -/
def context : Origin → List Word
  | .new _ => List.replicate 9 0 ++ [excReturnThreadProcess]
  | .left c => (kernelContext ++ [Reg.lr]).map c.r

/-- The words with a byte of the first context. -/
def frame : Origin → Set Word
  | .new n => {x | ∃ k < 32, x = wordOf (n.tcr + BitVec.ofNat 32 k)}
  | .left _ => ∅

/-- All the words from which the thread at `t` is restored. -/
def keeps (t : Word) (o : Origin) : Set Word := {x | (x - t).toNat < 12 ∨ (x - o.msp).toNat < 40 ∨ x ∈ o.frame}

end Origin

/-- The interrupt stack of the thread at `t`. -/
def block (t : Word) : Set Word := {x | (x - t).toNat < intrStackSize.toNat}

/-- The arguments of a call. -/
def Core.args (next prev : Word) (c : Core) : Core :=
  ⟨{ c.toCpu with r := Function.update (Function.update c.r .r0 next) .r1 prev }, c.npriv⟩

/-! ## Calls and resumptions -/

/-- The code of the thread at `t` calls `switch_to` from its interrupt stack. -/
structure Calls (t : Word) (c : Core) : Prop where
  mode : c.mode = .handler
  lower : 52 ≤ (c.msp - t).toNat
  upper : (c.msp - t).toNat ≤ 512
  msp : wordOf c.msp = c.msp
  psp : wordOf c.psp = c.psp
  odd : (c.r .lr).getLsbD 0 = true
  exc : c.r .lr ≠ excReturnThreadProcess

/-- The thread goes on behind its call of `switch_to` in the state `c`. -/
structure Continues (p : ThreadPrivilege) (c u : Core) : Prop where
  mode : u.mode = .handler
  pc : u.pc = c.r .lr &&& ~~~1
  regs : ∀ rd ∈ kernelContext, u.r rd = c.r rd
  msp : u.msp = c.msp
  psp : u.psp = c.psp
  npriv : u.npriv = decide (p = .user)

/-- The thread starts with an empty stack. -/
structure Starts (pthreadExit : Word) (p : ThreadPrivilege) (n : NewThread) (u : Core) : Prop where
  mode : u.mode = .thread
  pc : u.pc = v7mClearThumbBit n.startRoutine
  arg : u.r .r0 = n.arg
  lr : u.r .lr = pthreadExit
  psp : u.psp = n.memp + n.stacksize
  npriv : u.npriv = decide (p = .user)

def Resumes (pthreadExit : Word) (p : ThreadPrivilege) (u : Core) : Origin → Prop
  | .new n => Starts pthreadExit p n u
  | .left c => Continues p c u

/-! ## Addresses and unaligned stores -/

section

variable {a x : Word}

theorem wordOf_add_and (a : Word) : wordOf a + (a &&& 3) = a := and_not_add_and a 3

theorem toNat_and_three (a : Word) : (a &&& 3).toNat = a.toNat % 4 := by
  rw [BitVec.toNat_and]
  exact Nat.and_two_pow_sub_one_eq_mod _ 2

theorem wordOf_eq_iff : wordOf a = a ↔ a.toNat % 4 = 0 := by
  have hsum := wordOf_add_and a
  have hlow := toNat_and_three a
  constructor
  · intro h
    rw [h] at hsum
    rw [← hlow, add_eq_left.mp hsum]
    rfl
  · intro h
    have hzero : a &&& 3 = 0 := BitVec.eq_of_toNat_eq (hlow.trans h)
    rwa [hzero, add_zero] at hsum

theorem wordOf_add {k : ℕ} (h : wordOf a = a) (hk : k % 4 = 0) :
    wordOf (a + BitVec.ofNat 32 k) = a + BitVec.ofNat 32 k := by
  rw [wordOf_eq_iff] at h ⊢
  rw [BitVec.toNat_add, BitVec.toNat_ofNat]
  omega

theorem storeFrom_eq (m : Mem) (h : wordOf a = a) (vs : List Word) : storeFrom m a vs = storeWords m a vs := by
  induction vs generalizing m a with
  | nil => rfl
  | cons v vs ih =>
    rw [storeFrom, storeWords, storeWord, if_pos h]
    exact ih _ (wordOf_add (k := 4) h rfl)

theorem storeByte_of_ne (m : Mem) (v : Word) (h : x ≠ wordOf a) : storeByte a v m x = m x :=
  Function.update_of_ne h _ _

theorem storeWord_of_ne (m : Mem) (v : Word) (h : ∀ k < 4, x ≠ wordOf (a + BitVec.ofNat 32 k)) :
    storeWord a v m x = m x := by
  have hzero : x ≠ wordOf a := by simpa using h 0 (by norm_num)
  unfold storeWord
  split_ifs with ha
  · rw [ha] at hzero
    exact Function.update_of_ne hzero _ _
  · refine (storeByte_of_ne _ _ (h 3 (by norm_num))).trans ?_
    refine (storeByte_of_ne _ _ (h 2 (by norm_num))).trans ?_
    exact (storeByte_of_ne _ _ (h 1 (by norm_num))).trans (storeByte_of_ne _ _ hzero)

theorem storeFrom_of_ne (m : Mem) (vs : List Word) (h : ∀ k < 4 * vs.length, x ≠ wordOf (a + BitVec.ofNat 32 k)) :
    storeFrom m a vs x = m x := by
  induction vs generalizing m a with
  | nil => rfl
  | cons v vs ih =>
    rw [List.length_cons] at h
    rw [storeFrom, ih, storeWord_of_ne m v fun k hk => h k (by omega)]
    intro k hk
    have hnext := h (4 + k) (by omega)
    rwa [BitVec.ofNat_add, ← add_assoc] at hnext

end

/-! ## The restored thread -/

/-- The words from which the thread at `t` is restored have been written. -/
structure Parked (pthreadExit : Word) (m : Mem) (t : Word) (p : ThreadPrivilege) (o : Origin) : Prop where
  msp : m t = o.msp
  psp : m (t + 4) = o.psp
  priv : m (t + 8) = p.word
  context : ∀ i v, o.context[i]? = some v → m (o.msp + BitVec.ofNat 32 (4 * i)) = v
  frame : ∀ n, o = .new n → n.stacksize.toNat % 4 = 0 → ThreadContextRegs.load m n.tcr = n.context pthreadExit

/-- The place of the words. -/
def Origin.Wf (t : Word) : Origin → Prop
  | .new n => n.thread = t ∧ t.toNat % 512 = 0 ∧ n.memp.toNat % 4 = 0
  | .left c => Calls t c

section

variable {pthreadExit t : Word} {m m' : Mem} {p : ThreadPrivilege} {o : Origin} {c : Core} {n : NewThread}

theorem kcr_sub (n : NewThread) : n.kcr - n.thread = 472 := by
  unfold NewThread.kcr
  ring

theorem Origin.Wf.msp_sub (h : o.Wf t) : 12 ≤ (o.msp - t).toNat ∧ (o.msp - t).toNat + 40 ≤ 512 := by
  cases o with
  | new n =>
    obtain ⟨rfl, -, -⟩ := h
    rw [Origin.msp, kcr_sub]
    decide
  | left c =>
    have hlower := Calls.lower h
    have hupper := Calls.upper h
    have hoff : c.msp - 40 - t = c.msp - t - 40 := sub_right_comm _ _ _
    rw [Origin.msp, hoff]
    bv_omega

theorem Origin.Wf.aligned (h : o.Wf t) : wordOf o.msp = o.msp := by
  rw [wordOf_eq_iff]
  cases o with
  | new n =>
    obtain ⟨rfl, hal, -⟩ := h
    unfold Origin.msp NewThread.kcr
    bv_omega
  | left c =>
    have hal := wordOf_eq_iff.mp (Calls.msp h)
    unfold Origin.msp
    bv_omega

theorem tcr_aligned (hmemp : n.memp.toNat % 4 = 0) (hsize : n.stacksize.toNat % 4 = 0) : wordOf n.tcr = n.tcr := by
  rw [wordOf_eq_iff]
  unfold NewThread.tcr
  bv_omega

/-- The stack pointers are aligned: nothing is lost when they are loaded. -/
theorem Core.threadRestore_eq {msp psp : Word} (hr0 : c.r .r0 = t) (hmsp : c.mem t = msp) (hpsp : c.mem (t + 4) = psp)
    (hpriv : c.mem (t + 8) = p.word) (hm : wordOf msp = msp) (hp : wordOf psp = psp) :
    c.threadRestore = (Arch.Entry.threadRestore c.toCpu).map (Core.mk · (decide (p = .user))) := by
  have hr1 : ((c.toCpu.set .r0 (t + 12)).ldm t [.r1, .r2, .r3]).r .r1 = msp := by
    rw [Cpu.ldm_apply (i := 0) _ _ (by simp) rfl, ← hmsp]
    simp [Cpu.set]
  have hr2 : ((c.toCpu.set .r0 (t + 12)).ldm t [.r1, .r2, .r3]).r .r2 = psp := by
    rw [Cpu.ldm_apply (i := 1) _ _ (by simp) rfl, ← hpsp]
    rfl
  have hr3 : ((c.toCpu.set .r0 (t + 12)).ldm t [.r1, .r2, .r3]).r .r3 = p.word := by
    rw [Cpu.ldm_apply (i := 2) _ _ (by simp) rfl, ← hpriv]
    rfl
  have hbit : p.word.getLsbD 0 = decide (p = .user) := by cases p <;> rfl
  simp only [Core.threadRestore, Arch.Entry.threadRestore, hr0, hr1, hr2, hr3, hm, hp, hbit]

/-- Behind its call of `switch_to`. -/
theorem Parked.continues {d : Core} (h : Parked pthreadExit c.mem t p (.left d)) (hd : Calls t d)
    (hmode : c.mode = .handler) (hr0 : c.r .r0 = t) :
    ∃ u, c.threadRestore = some u ∧ Continues p d u ∧ u.mem = c.mem := by
  have hctx : ∀ i rd, kernelContext[i]? = some rd → c.mem (d.msp - 40 + BitVec.ofNat 32 (4 * i)) = d.r rd := by
    intro i rd hi
    refine h.context i _ ?_
    have hlt : i < kernelContext.length := (List.getElem?_eq_some_iff.mp hi).1
    rw [Origin.context, List.map_append, List.getElem?_append_left (by simpa using hlt), List.getElem?_map, hi,
      Option.map_some]
  have hret : c.mem (d.msp - 40 + 36) = d.r .lr := h.context 9 _ rfl
  obtain ⟨r, hrestore, hr⟩ := Arch.Entry.threadRestore_eq hmode hr0 h.msp h.psp hctx
  have hbranch := Arch.Entry.popPc_branch (s := { c.toCpu with r := r, msp := d.msp - 40 + 36, psp := d.psp })
    hmode hret hd.odd hd.exc
  have hmsp : d.msp - 40 + 36 + 4 = d.msp := by ring
  rw [Core.threadRestore_eq hr0 h.msp h.psp h.priv (Origin.Wf.aligned (o := .left d) hd) hd.psp]
  refine ⟨_, congrArg _ (hrestore.trans hbranch), ?_, rfl⟩
  exact { mode := hmode, pc := rfl, regs := hr, msp := hmsp, psp := rfl, npriv := rfl }

/-- In its first function. -/
theorem Parked.starts (h : Parked pthreadExit c.mem t p (.new n)) (hn : Origin.Wf t (.new n))
    (hsize : n.stacksize.toNat % 4 = 0) (hmode : c.mode = .handler) (hr0 : c.r .r0 = t) :
    ∃ u, c.threadRestore = some u ∧ Starts pthreadExit p n u ∧ u.mem = c.mem := by
  have hctx : ∀ i rd, kernelContext[i]? = some rd →
      c.mem (n.kcr + BitVec.ofNat 32 (4 * i)) = Function.const Reg (0 : Word) rd := by
    intro i rd hi
    refine h.context i _ ?_
    have hlt : i < 9 := (List.getElem?_eq_some_iff.mp hi).1
    rw [Origin.context, List.getElem?_append_left (by simpa using hlt), List.getElem?_replicate, if_pos hlt]
    rfl
  have hret : c.mem (n.kcr + 36) = excReturnThreadProcess := h.context 9 _ rfl
  obtain ⟨r, hrestore, -⟩ := Arch.Entry.threadRestore_eq hmode hr0 h.msp h.psp hctx
  have hreturn : popPc { c.toCpu with r := r, msp := n.kcr + 36, psp := n.tcr } =
      some (exceptionReturn { c.toCpu with r := r, msp := n.kcr + 36 + 4, psp := n.tcr }) := by
    simp only [popPc, Cpu.sp, Cpu.setSp, hmode, hret, if_true]
  have hframe : ThreadContextRegs.load c.mem n.tcr = n.context pthreadExit := h.frame n rfl hsize
  have hthumb : xpsrTMsk.getLsbD 9 = false := by decide
  have hbit : (ThreadContextRegs.load c.mem n.tcr).xpsr.getLsbD 9 = false :=
    (congrArg (·.xpsr.getLsbD 9) hframe).trans hthumb
  have hpsp : n.tcr + 32 = n.memp + n.stacksize := sub_add_cancel _ _
  rw [Core.threadRestore_eq hr0 h.msp h.psp h.priv hn.aligned (tcr_aligned hn.2.2 hsize)]
  refine ⟨_, congrArg _ (hrestore.trans hreturn), ?_, rfl⟩
  refine {
    mode := rfl
    pc := congrArg (·.retAddr) hframe
    arg := congrArg (·.r0) hframe
    lr := congrArg (·.lr) hframe
    psp := ?_
    npriv := rfl }
  simp only [exceptionReturn, hbit]
  rw [← hpsp]
  exact BitVec.or_zero

theorem Parked.resumes (h : Parked pthreadExit c.mem t p o) (ho : o.Wf t)
    (hsize : ∀ n, o = .new n → n.stacksize.toNat % 4 = 0) (hmode : c.mode = .handler) (hr0 : c.r .r0 = t) :
    ∃ u, c.threadRestore = some u ∧ Resumes pthreadExit p u o ∧ u.mem = c.mem := by
  cases o with
  | new n => exact h.starts ho (hsize n rfl) hmode hr0
  | left d => exact h.continues ho hmode hr0

theorem mem_frame {k : ℕ} (hal : wordOf n.tcr = n.tcr) (hk : k % 4 = 0) (hlt : k < 32) :
    n.tcr + BitVec.ofNat 32 k ∈ (Origin.new n).frame :=
  ⟨k, hlt, (wordOf_add hal hk).symm⟩

/-- Other stores leave it restorable. -/
theorem Parked.congr (h : Parked pthreadExit m t p o) (ho : o.Wf t) (hm : Set.EqOn m' m (o.keeps t)) :
    Parked pthreadExit m' t p o := by
  have hmach : ∀ k : ℕ, k < 12 → m' (t + BitVec.ofNat 32 k) = m (t + BitVec.ofNat 32 k) := by
    intro k hk
    refine hm (.inl ?_)
    rw [toNat_add_sub _ (by omega)]
    omega
  refine ⟨?_, (hmach 4 (by norm_num)).trans h.psp, (hmach 8 (by norm_num)).trans h.priv, ?_, ?_⟩
  · refine Eq.trans ?_ h.msp
    simpa using hmach 0 (by norm_num)
  · intro i v hi
    have hlt : i < o.context.length := (List.getElem?_eq_some_iff.mp hi).1
    have hlen : o.context.length = 10 := by cases o <;> rfl
    refine Eq.trans (hm (.inr (.inl ?_))) (h.context i v hi)
    rw [toNat_add_sub _ (by omega)]
    omega
  · intro n hn hsize
    subst hn
    have hal := tcr_aligned ho.2.2 hsize
    refine (ThreadContextRegs.load_congr_words fun i hi => hm (.inr (.inr ?_))).trans (h.frame n rfl hsize)
    exact mem_frame hal (Nat.mul_mod_right 4 i) (by omega)

end

/-! ## The words that are written -/

section

variable {pthreadExit t prev next x : Word} {m : Mem} {n : NewThread} {c : Core}

theorem args_saveContext_mem (h : c.mode = .handler) :
    (c.args next prev).saveContext.mem =
      storeWords (storeWords c.mem (c.msp - 40) (Origin.left c).context) prev [c.msp - 40, c.psp] :=
  Arch.Entry.saveContext_mem (s := (c.args next prev).toCpu) h

theorem args_saveContext_mode (h : c.mode = .handler) : (c.args next prev).saveContext.mode = .handler := by
  have hmode : (c.args next prev).mode = .handler := h
  simp only [Core.saveContext, Arch.Entry.saveContext, Cpu.push_handler hmode, Cpu.set, hmode]

theorem args_saveContext_r0 (h : c.mode = .handler) : (c.args next prev).saveContext.r .r0 = next := by
  have hmode : (c.args next prev).mode = .handler := h
  simp only [Core.saveContext, Arch.Entry.saveContext, Cpu.push_handler hmode]
  rfl

/-- A call of `switch_to` writes to the interrupt stack of the caller. -/
theorem args_saveContext_of_notMem (h : Calls prev c) (hx : x ∉ block prev) :
    (c.args next prev).saveContext.mem x = c.mem x := by
  have hlower := h.lower
  have hupper := h.upper
  have hout : 512 ≤ (x - prev).toNat := Nat.le_of_not_lt hx
  rw [args_saveContext_mem h.mode, storeWords_of_le, storeWords_of_le]
  · change 40 ≤ _
    bv_omega
  · change 8 ≤ _
    omega

theorem parked_args_saveContext {p : ThreadPrivilege} (h : Calls prev c) (hp : c.mem (prev + 8) = p.word) :
    Parked pthreadExit (c.args next prev).saveContext.mem prev p (.left c) := by
  have hlower := h.lower
  have hupper := h.upper
  rw [args_saveContext_mem h.mode]
  refine ⟨?_, ?_, ?_, ?_, fun n hn => ?_⟩
  · exact storeWords_head _ (by norm_num)
  · exact storeWords_apply (i := 1) _ (by norm_num) rfl
  · rw [storeWords_of_le, storeWords_of_le]
    · exact hp
    · change 40 ≤ _
      bv_omega
    · change 8 ≤ _
      rw [add_sub_cancel_left]
      rfl
  · intro i v hi
    have hlt : i < 10 := (List.getElem?_eq_some_iff.mp hi).1
    rw [storeWords_of_le]
    · exact storeWords_apply (a := c.msp - 40) c.mem (by change 40 ≤ _; norm_num) hi
    · have hoff : (BitVec.ofNat 32 (4 * i)).toNat = 4 * i := toNat_ofNat_of_lt (by omega)
      change 8 ≤ (c.msp - 40 + BitVec.ofNat 32 (4 * i) - prev).toNat
      generalize BitVec.ofNat 32 (4 * i) = w at *
      bv_omega
  · cases hn

/-- `thread_create` writes to its two blocks. -/
theorem prepare_of_notMem (hblock : x ∉ block n.thread) (hframe : x ∉ (Origin.new n).frame) :
    n.prepare pthreadExit m x = m x := by
  have hout : 512 ≤ (x - n.thread).toNat := Nat.le_of_not_lt hblock
  have hkcr := kcr_sub n
  unfold NewThread.prepare
  rw [storeWords_of_le, storeFrom_of_ne, storeWords_of_le]
  · change 40 ≤ _
    bv_omega
  · intro k hk he
    exact hframe ⟨k, hk, he⟩
  · change 12 ≤ _
    omega

theorem parked_prepare (hown : Disjoint (Origin.new n).frame (block n.thread)) (hmemp : n.memp.toNat % 4 = 0) :
    Parked pthreadExit (n.prepare pthreadExit m) n.thread n.priv (.new n) := by
  have hkcr := kcr_sub n
  unfold NewThread.prepare
  dsimp only
  generalize hm₁ : storeWords m n.kcr (List.replicate 9 0 ++ [excReturnThreadProcess]) = m₁
  generalize hm₂ : storeFrom m₁ n.tcr (n.context pthreadExit).words = m₂
  refine ⟨?_, ?_, ?_, ?_, ?_⟩
  · exact storeWords_head m₂ (by norm_num)
  · exact storeWords_apply (i := 1) m₂ (by norm_num) rfl
  · exact storeWords_apply (i := 2) m₂ (by norm_num) rfl
  · intro i v hi
    have hlt : i < 10 := (List.getElem?_eq_some_iff.mp hi).1
    have hoff : (BitVec.ofNat 32 (4 * i)).toNat = 4 * i := toNat_ofNat_of_lt (by omega)
    have hin : (n.kcr + BitVec.ofNat 32 (4 * i) - n.thread).toNat = 472 + 4 * i := by
      generalize BitVec.ofNat 32 (4 * i) = w at *
      bv_omega
    have hmem : n.kcr + BitVec.ofNat 32 (4 * i) ∈ block n.thread := by
      change _ < 512
      omega
    change storeWords m₂ n.thread _ (n.kcr + BitVec.ofNat 32 (4 * i)) = v
    rw [storeWords_of_le m₂ _ (by rw [hin]; change 12 ≤ _; omega), ← hm₂, storeFrom_of_ne, ← hm₁]
    · exact storeWords_apply m (by change 40 ≤ _; norm_num) hi
    · intro k hk he
      exact Set.disjoint_right.mp hown hmem ⟨k, hk, he⟩
  · intro n' hn' hsize
    cases hn'
    have hal := tcr_aligned hmemp hsize
    have hload : ThreadContextRegs.load m₂ n.tcr = n.context pthreadExit := by
      rw [← hm₂, storeFrom_eq _ hal]
      exact ThreadContextRegs.load_words _ _ _
    refine Eq.trans (ThreadContextRegs.load_congr_words fun i hi => storeWords_of_le m₂ _ ?_) hload
    have hout := Set.disjoint_left.mp hown (mem_frame hal (Nat.mul_mod_right 4 i) (by omega))
    have hle : 512 ≤ (n.tcr + BitVec.ofNat 32 (4 * i) - n.thread).toNat := Nat.le_of_not_lt hout
    change 12 ≤ _
    omega

end

/-! ## The memory of `thread_create` -/

section

variable {pthreadExit x : Word} {n : NewThread} {o : ℕ}

theorem block_eq_bytes (t : Word) : block t = bytes t 1 := by
  ext x
  simp [block, bytes, MIN_PAGE_SIZE]

/-- A word of the first context is at most three bytes below one of its bytes. -/
theorem exists_of_mem_frame (hx : x ∈ (Origin.new n).frame) :
    ∃ w v : Word, w.toNat < 32 ∧ x + v = n.tcr + w ∧ v.toNat = (n.tcr + w).toNat % 4 := by
  obtain ⟨k, hk, rfl⟩ := hx
  refine ⟨BitVec.ofNat 32 k, _, ?_, wordOf_add_and _, toNat_and_three _⟩
  rw [toNat_ofNat_of_lt (by omega)]
  exact hk

theorem frame_sub (hx : x ∈ (Origin.new n).frame) : (x - (n.tcr - 3)).toNat < 35 := by
  obtain ⟨w, v, hw, hsum, hv⟩ := exists_of_mem_frame hx
  bv_omega

/-- The first context lies in the block of the stack. -/
theorem frame_subset_bytes (hmemp : n.memp.toNat % 4 = 0) (hle : 32 ≤ n.stacksize.toNat)
    (hroom : n.stacksize.toNat ≤ MIN_PAGE_SIZE * 2 ^ o) (ho : o ≤ 3) : (Origin.new n).frame ⊆ bytes n.memp o := by
  intro x hx
  obtain ⟨w, v, hw, hsum, hv⟩ := exists_of_mem_frame hx
  have hsize : MIN_PAGE_SIZE * 2 ^ o ≤ 2048 := by interval_cases o <;> simp [MIN_PAGE_SIZE]
  change (x - n.memp).toNat < MIN_PAGE_SIZE * 2 ^ o
  unfold NewThread.tcr at *
  generalize n.memp = a at *
  generalize n.stacksize = b at *
  bv_omega

end

theorem prepare_eq {pthreadExit : Word} {n : NewThread} {m : Mem} (h : wordOf n.tcr = n.tcr) :
    n.prepare pthreadExit m =
      storeWords (storeWords (storeWords m n.kcr (List.replicate 9 0 ++ [excReturnThreadProcess])) n.tcr
        (n.context pthreadExit).words) n.thread [n.kcr, n.tcr, n.priv.word] := by
  rw [NewThread.prepare, storeFrom_eq _ h]

theorem prepare_ram_mem (thread kcr tcr stacksize task : Word) (priv : ThreadPrivilege) (k : Create.Kernel) :
    (k.prepare thread kcr tcr priv stacksize task).ram.mem = storeWords k.ram.mem thread [kcr, tcr, priv.word] := rfl

/-- **`thread_create`** prepares two new blocks of pages as `prepare` says. -/
theorem threadCreate_prepare {pg : PgMem} {live : List Lease}
    {pthreadExit startRoutine arg stacksize task thread : Word}
    {priv : ThreadPrivilege} {k t : Create.Kernel} (hpages : Mm.PageRun.Inv pg ⟨k.ram.pb, live⟩)
    (hle : 32 ≤ stacksize.toNat) (hsmall : stacksize.toNat ≤ 2048) (hsize : stacksize.toNat % 4 = 0)
    (h : threadCreate pg pthreadExit startRoutine arg priv stacksize task k = some (some thread, t)) :
    ∃ n : NewThread, n.thread = thread ∧ n.startRoutine = startRoutine ∧ n.arg = arg ∧ n.stacksize = stacksize ∧
      n.priv = priv ∧ n.thread.toNat % 512 = 0 ∧ n.memp.toNat % 4 = 0 ∧
      Disjoint (Origin.new n).frame (block n.thread) ∧ t.ram.mem = n.prepare pthreadExit k.ram.mem := by
  unfold threadCreate allocInterruptStack at h
  dsimp only at h
  cases hintr : (allocPages pg.start k.ram.pb (ulongOrder intrStackSize)).1 with
  | none =>
    rw [hintr] at h
    cases h
  | some base =>
    rw [hintr] at h
    unfold allocThreadStack at h
    dsimp only at h
    cases huser :
      (allocPages pg.start (allocPages pg.start k.ram.pb (ulongOrder intrStackSize)).2 (ulongOrder stacksize)).1 with
    | none =>
      rw [huser] at h
      obtain ⟨heap, -, he⟩ := Option.map_eq_some_iff.mp h
      cases he
    | some memp =>
      rw [huser] at h
      obtain ⟨he, ht⟩ := Prod.mk.inj (Option.some.inj h)
      have hbase : base.toNat % 512 = 0 := hpages.alloc_aligned hintr
      have hpages' := hpages.alloc_some hintr
      have hmemp : memp.toNat % 4 = 0 := by
        have hal := hpages'.alloc_aligned huser
        refine Nat.mod_eq_zero_of_dvd (Dvd.dvd.trans ?_ (Nat.dvd_of_mod_eq_zero hal))
        exact Dvd.dvd.mul_right (by norm_num [MIN_PAGE_SIZE]) _
      obtain ⟨-, ho, hroom⟩ := ulongOrder_of_le hsmall
      have happart := (List.pairwise_cons.mp (hpages'.alloc_some huser).live_disjoint).1 ⟨base, 1⟩ List.mem_cons_self
      have hthread := threadInfo_eq hbase
      refine ⟨⟨base, memp, startRoutine, arg, stacksize, priv⟩, hthread.symm.trans (Option.some.inj he), rfl, rfl, rfl,
        rfl, hbase, hmemp, ?_, ?_⟩
      · rw [block_eq_bytes]
        exact happart.mono_left (frame_subset_bytes hmemp hle hroom ho)
      · have hal := tcr_aligned (n := ⟨base, memp, startRoutine, arg, stacksize, priv⟩) hmemp hsize
        rw [prepare_eq hal, ← ht, prepare_ram_mem, hthread]
        simp only [NewThread.kcr, NewThread.tcr, NewThread.context]

end PikoRT.Thread.Context

import PikoRT.Thread.Context

/-! # Machine contexts (`libc/ucontext.c`, `arch/v7m-entry.S`)

A `ucontext_t` has the link at its first word, `ss_sp` behind it and, sixteen bytes from its start, the
words of the machine context: `sp`, `lr`, `r0` to `r12` and `pc`. `makecontext` writes them for a function
that has not started and `swapcontext` for its caller; `swapcontext` and `return_from_makecontext` read
them. -/
namespace PikoRT.Libc.Ucontext
open PikoRT.Kernel.Bitops PikoRT.Lib.Words PikoRT.Arch.V7m
open PikoRT.Arch.Entry (or_one_and_not_one or_one_bit)
open PikoRT.Thread.Context (wordOf)

def UC_LINK : Word := 0
def UC_MCONTEXT : Word := 16
def MC_SP : Word := 0
def MC_LR : Word := 4
def MC_GPRS : Word := 8

/-- `r0-r12`. -/
def gprs : List Reg := [.r0, .r1, .r2, .r3, .r4, .r5, .r6, .r7, .r8, .r9, .r10, .r11, .r12]

/-- `swapcontext` up to the restore. -/
def saveContext (c : Cpu) : Cpu :=
  let s := c.set .r0 (c.r .r0 + UC_MCONTEXT)
  let s := { s with mem := Function.update s.mem (s.r .r0 + MC_SP) s.sp }
  let s := s.str .lr (s.r .r0 + MC_LR)
  let s := s.set .r0 (s.r .r0 + MC_GPRS)
  { s with mem := storeWords s.mem (s.r .r0) ((gprs ++ [Reg.lr]).map s.r) }

/-- The restore, of the context at `rt`. A stack pointer has no bits 0 and 1. -/
def restoreContext (rt : Reg) (c : Cpu) : Option Cpu :=
  let s := c.set rt (c.r rt + UC_MCONTEXT)
  let s := s.setSp (wordOf (s.mem (s.r rt + MC_SP)))
  let s := s.ldr .lr (s.r rt + MC_LR)
  let s := s.set rt (s.r rt + MC_GPRS)
  (s.ldm (s.r rt) gprs).branch (s.mem (s.r rt + 52))

/-- `r0` and `r1` are the two contexts. -/
def swapcontext (c : Cpu) : Option Cpu := restoreContext .r1 (saveContext c)

def returnFromMakecontext (c : Cpu) : Option Cpu :=
  let s := c.ldr .r0 c.sp
  let s := s.ldr .r0 (s.r .r0 + UC_LINK)
  restoreContext .r0 s

/-- `makecontext`; `ret` is the address of `return_from_makecontext`. -/
def makecontext (ret ucp func : Word) (args : List Word) (m : Mem) : Mem :=
  let m := storeWords m (ucp + 24) (args.take 4)
  -- the link to the context, on top of the stack
  let m := Function.update m (ucp + 4) (m (ucp + 4) - 4)
  let m := Function.update m (m (ucp + 4)) ucp
  let m := Function.update m (ucp + 16) (m (ucp + 4))
  let m := Function.update m (ucp + 20) ret
  Function.update m (ucp + 76) (func ||| 1)

/-! ## What a context holds -/

/-- A call of `makecontext`, with the stack pointer that the function starts with. -/
structure Made where
  ucp : Word
  func : Word
  args : List Word
  sp : Word
  deriving DecidableEq

def newContext (ucp func : Word) (args : List Word) (m : Mem) : Made := ⟨ucp, func, args, m (ucp + 4) - 4⟩

/-- What was put into a context last: a new function, or the caller of `swapcontext` in the state `c`. -/
inductive Origin
  | made (n : Made)
  | left (c : Cpu)

/-- The function starts on its own stack with its arguments, and it will return to `return_from_makecontext`. -/
structure Starts (ret : Word) (n : Made) (v : Cpu) : Prop where
  pc : v.pc = n.func &&& ~~~1
  sp : v.sp = n.sp
  lr : v.r .lr = ret
  args : ∀ i w, n.args[i]? = some w → v.argument i = w

/-- Control is behind the call of `swapcontext` in the state `c`. -/
structure Continues (c v : Cpu) : Prop where
  pc : v.pc = c.r .lr &&& ~~~1
  sp : v.sp = c.sp
  lr : v.r .lr = c.r .lr
  regs : ∀ rd ∈ calleeSaved, v.r rd = c.r rd

def Resumes (ret : Word) (v : Cpu) : Origin → Prop
  | .made n => Starts ret n v
  | .left c => Continues c v

/-- The arguments behind the fourth are where the function looks for them, on top of its stack. -/
def Spilled (m : Mem) : Origin → Prop
  | .made n => ∀ i w, n.args[i + 4]? = some w → m (n.sp + BitVec.ofNat 32 (4 * i)) = w
  | .left _ => True

/-- The word `i` of the machine context at `x`. -/
def mcontext (m : Mem) (x : Word) (i : ℕ) : Word := m (x + UC_MCONTEXT + BitVec.ofNat 32 (4 * i))

/-- The words of the `ucontext_t` at `x`. -/
def struct (x : Word) : Set Word := {y | (y - x).toNat < 80}

structure HoldsMade (ret : Word) (m : Mem) (x : Word) (n : Made) : Prop where
  ucp : n.ucp = x
  sp : mcontext m x 0 = n.sp
  aligned : wordOf n.sp = n.sp
  lr : mcontext m x 1 = ret
  args : ∀ i w, i < 4 → n.args[i]? = some w → mcontext m x (i + 2) = w
  pc : mcontext m x 15 = n.func ||| 1

structure HoldsLeft (m : Mem) (x : Word) (c : Cpu) : Prop where
  sp : mcontext m x 0 = c.sp
  aligned : wordOf c.sp = c.sp
  lr : mcontext m x 1 = c.r .lr
  regs : ∀ i rd, gprs[i]? = some rd → rd ≠ .r0 → mcontext m x (i + 2) = c.r rd
  pc : mcontext m x 15 = c.r .lr
  thumb : (c.r .lr).getLsbD 0 = true

def Holds (ret : Word) (m : Mem) (x : Word) : Origin → Prop
  | .made n => HoldsMade ret m x n
  | .left c => HoldsLeft m x c

section

variable {ret x y u ucp func : Word} {m m' : Mem} {c : Cpu} {rt : Reg} {org : Origin} {args : List Word} {i : ℕ}

theorem Holds.congr (h : Holds ret m x org) (hm : ∀ i < 16, mcontext m' x i = mcontext m x i) :
    Holds ret m' x org := by
  cases org with
  | made n =>
    refine ⟨h.ucp, (hm 0 (by norm_num)).trans h.sp, h.aligned, (hm 1 (by norm_num)).trans h.lr, fun i w hi hw => ?_,
      (hm 15 (by norm_num)).trans h.pc⟩
    exact (hm _ (by omega)).trans (h.args i w hi hw)
  | left c =>
    refine ⟨(hm 0 (by norm_num)).trans h.sp, h.aligned, (hm 1 (by norm_num)).trans h.lr, fun i rd hi hrd => ?_,
      (hm 15 (by norm_num)).trans h.pc, h.thumb⟩
    have hlt : i < gprs.length := (List.getElem?_eq_some_iff.mp hi).1
    have hlen : gprs.length = 13 := rfl
    exact (hm _ (by omega)).trans (h.regs i rd hi hrd)

/-! ## The restore -/

theorem set_self (rd : Reg) (v : Word) (c : Cpu) : (c.set rd v).r rd = v := Function.update_self ..

theorem setSp_sp (v : Word) (c : Cpu) : (c.setSp v).sp = v := by
  cases hm : c.mode <;> simp [Cpu.setSp, Cpu.sp, hm]

theorem setSp_r (v : Word) (c : Cpu) : (c.setSp v).r = c.r := by
  unfold Cpu.setSp
  split <;> rfl

theorem setSp_mem (v : Word) (c : Cpu) : (c.setSp v).mem = c.mem := by
  unfold Cpu.setSp
  split <;> rfl

/-- What the restore reads: the words of the context at `rt`, one after the other. -/
theorem restoreContext_eq (hrt : rt ≠ .lr) (c : Cpu) :
    ∃ s : Cpu, restoreContext rt c = s.branch (mcontext c.mem (c.r rt) 15) ∧
    s.sp = wordOf (mcontext c.mem (c.r rt) 0) ∧
      s.r .lr = mcontext c.mem (c.r rt) 1 ∧ (∀ i rd, gprs[i]? = some rd → s.r rd = mcontext c.mem (c.r rt) (i + 2)) ∧
      s.mem = c.mem := by
  let x := c.r rt
  let s₁ := c.set rt (x + UC_MCONTEXT)
  let s₂ := s₁.setSp (wordOf (s₁.mem (s₁.r rt + MC_SP)))
  let s₃ := s₂.ldr .lr (s₂.r rt + MC_LR)
  let s₄ := s₃.set rt (s₃.r rt + MC_GPRS)
  have h₁ : s₁.r rt = x + UC_MCONTEXT := set_self ..
  have h₂ : s₂.r rt = x + UC_MCONTEXT := (congrFun (setSp_r ..) rt).trans h₁
  have hm₂ : s₂.mem = c.mem := setSp_mem ..
  have h₃ : s₃.r rt = x + UC_MCONTEXT := (Function.update_of_ne hrt ..).trans h₂
  have h₄ : s₄.r rt = x + UC_MCONTEXT + MC_GPRS := (set_self ..).trans (congrArg (· + MC_GPRS) h₃)
  have hm₄ : s₄.mem = c.mem := hm₂
  have hshift : ∀ i, x + UC_MCONTEXT + MC_GPRS + BitVec.ofNat 32 (4 * i) = x + UC_MCONTEXT +
      BitVec.ofNat 32 (4 * (i + 2)) := by
    intro i
    rw [Nat.mul_add, BitVec.ofNat_add, add_assoc (x + UC_MCONTEXT), add_comm (BitVec.ofNat 32 (4 * i))]
    rfl
  have hpc : s₄.mem (s₄.r rt + 52) = mcontext c.mem x 15 := by
    rw [h₄, hm₄]
    exact congrArg c.mem (hshift 13)
  refine ⟨s₄.ldm (s₄.r rt) gprs, ?_, ?_, ?_, fun i rd hi => ?_, ?_⟩
  · rw [← hpc]
    rfl
  · rw [Cpu.ldm_eq]
    show s₂.sp = _
    refine (setSp_sp ..).trans (congrArg (fun a => wordOf (c.mem a)) ?_)
    rw [h₁]
    rfl
  · rw [Cpu.ldm_of_notMem _ _ (by decide)]
    have hlr : s₄.r .lr = s₂.mem (s₂.r rt + MC_LR) :=
      (Function.update_of_ne hrt.symm ..).trans (set_self .lr (s₂.mem (s₂.r rt + MC_LR)) s₂)
    rw [hlr, h₂, hm₂]
    rfl
  · rw [Cpu.ldm_apply _ _ (by decide) hi, h₄, hm₄]
    exact congrArg c.mem (hshift i)
  · rw [Cpu.ldm_eq]
    exact hm₄

/-- A register of the restore that is saved. -/
theorem exists_gprs {rd : Reg} (h : rd ∈ calleeSaved) : rd ≠ .r0 ∧ ∃ i : ℕ, gprs[i]? = some rd := by
  refine ⟨fun he => absurd (he ▸ h) (by decide), ?_⟩
  have hsub : ∀ rd ∈ calleeSaved, rd ∈ gprs := by decide
  exact List.mem_iff_getElem?.mp (hsub rd h)

/-- **The restore of a context that holds something** resumes it, except for arguments that are not spilled. -/
theorem restoreContext_resumes (hrt : rt ≠ .lr) (h : Holds ret c.mem (c.r rt) org) :
    ∃ v, restoreContext rt c = some v ∧ v.mem = c.mem ∧ (Resumes ret v org ↔ Spilled c.mem org) := by
  obtain ⟨s, hs, hsp, hlr, hregs, hmem⟩ := restoreContext_eq hrt c
  cases org with
  | left c₀ =>
    refine ⟨{ s with pc := c₀.r .lr &&& ~~~1 }, hs.trans ?_, hmem, iff_of_true ⟨rfl, ?_, ?_, fun rd hrd => ?_⟩ trivial⟩
    · rw [h.pc, Cpu.branch, if_pos h.thumb]
    · exact hsp.trans ((congrArg wordOf h.sp).trans h.aligned)
    · exact hlr.trans h.lr
    · obtain ⟨hne, i, hi⟩ := exists_gprs hrd
      exact (hregs i rd hi).trans (h.regs i rd hi hne)
  | made n =>
    have hsp' : s.sp = n.sp := hsp.trans ((congrArg wordOf h.sp).trans h.aligned)
    refine ⟨{ s with pc := n.func &&& ~~~1 }, hs.trans ?_, hmem, ?_⟩
    · rw [h.pc, Cpu.branch, if_pos (or_one_bit _), or_one_and_not_one]
    constructor
    · intro hstarts i w hw
      have harg : s.mem (s.sp + BitVec.ofNat 32 (4 * i)) = w := hstarts.args (i + 4) w hw
      rwa [hmem, hsp'] at harg
    · intro hspilled
      refine ⟨rfl, hsp', hlr.trans h.lr, fun i w hw => ?_⟩
      rcases i with _ | _ | _ | _ | i
      · exact (hregs 0 .r0 rfl).trans (h.args 0 w (by norm_num) hw)
      · exact (hregs 1 .r1 rfl).trans (h.args 1 w (by norm_num) hw)
      · exact (hregs 2 .r2 rfl).trans (h.args 2 w (by norm_num) hw)
      · exact (hregs 3 .r3 rfl).trans (h.args 3 w (by norm_num) hw)
      · show s.mem (s.sp + BitVec.ofNat 32 (4 * i)) = w
        rw [hmem, hsp']
        exact hspilled i w hw

/-! ## The words of a context -/

theorem field_mem {k : ℕ} (h : k < 80) : x + BitVec.ofNat 32 k ∈ struct x := by
  show (x + BitVec.ofNat 32 k - x).toNat < 80
  rw [toNat_add_sub x (by omega)]
  exact h

theorem field_ne {j k : ℕ} (hj : j < 80) (hk : k < 80) (h : j ≠ k) :
    x + BitVec.ofNat 32 j ≠ x + BitVec.ofNat 32 k := by
  intro he
  have hnat := congrArg BitVec.toNat (add_left_cancel he)
  rw [toNat_ofNat_of_lt (by omega), toNat_ofNat_of_lt (by omega)] at hnat
  exact h hnat

theorem mcontext_eq (m : Mem) (x : Word) (i : ℕ) : mcontext m x i = m (x + BitVec.ofNat 32 (16 + 4 * i)) := by
  rw [BitVec.ofNat_add, ← add_assoc]
  rfl

theorem le_of_notMem (h : y ∉ struct x) : 64 ≤ (y - (x + UC_MCONTEXT)).toNat := by
  by_contra hlt
  have hoff := @offset_of_add x y 16 (by show (y - (x + UC_MCONTEXT)).toNat + 16 < 2 ^ 32; omega)
  have hoff' : (y - x).toNat = (y - (x + UC_MCONTEXT)).toNat + 16 := hoff
  exact h (show (y - x).toNat < 80 by omega)

/-! ## `swapcontext` -/

/-- The sixteen words that are saved. -/
def savedWords (c : Cpu) : List Word :=
  c.sp :: c.r .lr :: (gprs ++ [Reg.lr]).map (Function.update c.r .r0 (c.r .r0 + UC_MCONTEXT + MC_GPRS))

theorem saveContext_mem (c : Cpu) : (saveContext c).mem = storeWords c.mem (c.r .r0 + UC_MCONTEXT) (savedWords c) := by
  have hsp : c.r .r0 + UC_MCONTEXT + MC_SP = c.r .r0 + UC_MCONTEXT := add_zero _
  have hgprs : c.r .r0 + UC_MCONTEXT + MC_GPRS = c.r .r0 + UC_MCONTEXT + 4 + 4 := (add_assoc _ 4 4).symm
  have hr0 : ∀ a b, Function.update (Function.update c.r .r0 a) .r0 b = Function.update c.r .r0 b :=
    fun a b => Function.update_idem ..
  unfold saveContext savedWords
  simp only [Cpu.set, Cpu.str, Function.update_self, hr0, storeWords, hsp]
  rw [hgprs]
  rfl

theorem saveContext_of_notMem (h : y ∉ struct (c.r .r0)) : (saveContext c).mem y = c.mem y := by
  rw [saveContext_mem]
  exact storeWords_of_le c.mem (savedWords c) (le_of_notMem h)

theorem saveContext_holds (haligned : wordOf c.sp = c.sp) (hthumb : (c.r .lr).getLsbD 0 = true) :
    HoldsLeft (saveContext c).mem (c.r .r0) c := by
  have hword : ∀ i v, (savedWords c)[i]? = some v → mcontext (saveContext c).mem (c.r .r0) i = v := fun i v hi => by
    have hlen : 4 * (savedWords c).length ≤ 2 ^ 32 := show 4 * 16 ≤ 2 ^ 32 by norm_num
    rw [saveContext_mem]
    exact storeWords_apply c.mem hlen hi
  refine ⟨hword 0 _ rfl, haligned, hword 1 _ rfl, fun i rd hi hne => hword (i + 2) _ ?_, hword 15 _ rfl, hthumb⟩
  rw [savedWords, List.getElem?_cons_succ, List.getElem?_cons_succ, List.getElem?_map,
    List.getElem?_append_left (List.getElem?_eq_some_iff.mp hi).1, hi, Option.map_some, Function.update_of_ne hne]

/-! ## `makecontext` -/

theorem makecontext_eq (hsp : (newContext ucp func args m).sp ∉ struct ucp) :
    makecontext ret ucp func args m = Function.update (Function.update (Function.update (Function.update
      (Function.update (storeWords m (ucp + 24) (args.take 4)) (ucp + 4) (newContext ucp func args m).sp)
      (newContext ucp func args m).sp ucp) (ucp + 16) (newContext ucp func args m).sp) (ucp + 20) ret)
      (ucp + 76) (func ||| 1) := by
  have hlen : (args.take 4).length ≤ 4 := List.length_take_le ..
  have hold : storeWords m (ucp + 24) (args.take 4) (ucp + 4) = m (ucp + 4) := by
    refine storeWords_of_le m _ ?_
    rw [add_sub_add_left_eq_sub]
    have hdist : (4 - 24 : Word).toNat = 2 ^ 32 - 20 := rfl
    omega
  have hne : ucp + 4 ≠ m (ucp + 4) - 4 := ne_of_mem_of_not_mem (@field_mem ucp 4 (by norm_num)) hsp
  unfold makecontext
  dsimp only
  rw [Function.update_self, hold, Function.update_of_ne hne, Function.update_self]
  rfl

/-- On top of the stack stands the address of the context. -/
theorem makecontext_link (hsp : (newContext ucp func args m).sp ∉ struct ucp) :
    makecontext ret ucp func args m (newContext ucp func args m).sp = ucp := by
  have hne : ∀ k < 80, (newContext ucp func args m).sp ≠ ucp + BitVec.ofNat 32 k :=
    fun k hk he => hsp (he ▸ field_mem hk)
  rw [makecontext_eq hsp]
  refine (Function.update_of_ne (hne 76 (by norm_num)) ..).trans ?_
  refine (Function.update_of_ne (hne 20 (by norm_num)) ..).trans ?_
  refine (Function.update_of_ne (hne 16 (by norm_num)) ..).trans ?_
  exact Function.update_self ..

/-- A word of the arguments, or one outside of what `makecontext` sets behind them. -/
theorem makecontext_of_ne (hsp : (newContext ucp func args m).sp ∉ struct ucp)
    (hlink : y ≠ (newContext ucp func args m).sp)
    (hset : ∀ k ∈ [4, 16, 20, 76], y ≠ ucp + BitVec.ofNat 32 k) :
    makecontext ret ucp func args m y = storeWords m (ucp + 24) (args.take 4) y := by
  rw [makecontext_eq hsp]
  refine (Function.update_of_ne (hset 76 (by simp)) ..).trans ?_
  refine (Function.update_of_ne (hset 20 (by simp)) ..).trans ?_
  refine (Function.update_of_ne (hset 16 (by simp)) ..).trans ?_
  refine (Function.update_of_ne hlink ..).trans ?_
  exact Function.update_of_ne (hset 4 (by simp)) ..

theorem makecontext_of_notMem (hsp : (newContext ucp func args m).sp ∉ struct ucp) (hy : y ∉ struct ucp)
    (hlink : y ≠ (newContext ucp func args m).sp) : makecontext ret ucp func args m y = m y := by
  have hfield : ∀ k < 80, y ≠ ucp + BitVec.ofNat 32 k := fun k hk he => hy (he ▸ field_mem hk)
  rw [makecontext_of_ne hsp hlink fun k hk => hfield k (by simp at hk; omega)]
  have hlen : (args.take 4).length ≤ 4 := List.length_take_le ..
  have hle := le_of_notMem hy
  have hbase : ucp + UC_MCONTEXT + BitVec.ofNat 32 8 = ucp + 24 := add_assoc _ 16 8
  refine storeWords_of_le m _ ?_
  rw [← hbase, offset_add (le_trans (by norm_num) hle)]
  exact Nat.le_sub_of_add_le (le_trans (by omega) hle)

theorem makecontext_holds (hsp : (newContext ucp func args m).sp ∉ struct ucp)
    (haligned : wordOf (newContext ucp func args m).sp = (newContext ucp func args m).sp) :
    HoldsMade ret (makecontext ret ucp func args m) ucp (newContext ucp func args m) := by
  refine ⟨rfl, ?_, haligned, ?_, fun i w hi hw => ?_, ?_⟩
  · rw [mcontext_eq, makecontext_eq hsp]
    refine (Function.update_of_ne (field_ne (k := 76) (by norm_num) (by norm_num) (by norm_num)) ..).trans ?_
    refine (Function.update_of_ne (field_ne (k := 20) (by norm_num) (by norm_num) (by norm_num)) ..).trans ?_
    exact Function.update_self ..
  · rw [mcontext_eq, makecontext_eq hsp]
    refine (Function.update_of_ne (field_ne (k := 76) (by norm_num) (by norm_num) (by norm_num)) ..).trans ?_
    exact Function.update_self ..
  · have hfield : ucp + BitVec.ofNat 32 (16 + 4 * (i + 2)) ∈ struct ucp := field_mem (by omega)
    have hset : ∀ k ∈ [4, 16, 20, 76], ucp + BitVec.ofNat 32 (16 + 4 * (i + 2)) ≠ ucp + BitVec.ofNat 32 k :=
        fun k hk => by
      simp only [List.mem_cons, List.not_mem_nil, or_false] at hk
      exact field_ne (by omega) (by omega) (by omega)
    rw [mcontext_eq, makecontext_of_ne hsp (ne_of_mem_of_not_mem hfield hsp) hset]
    have haddr : ucp + BitVec.ofNat 32 (16 + 4 * (i + 2)) = ucp + 24 + BitVec.ofNat 32 (4 * i) := by
      rw [show 16 + 4 * (i + 2) = 24 + 4 * i by omega, BitVec.ofNat_add, ← add_assoc]
      rfl
    have hlen : (args.take 4).length ≤ 4 := List.length_take_le ..
    rw [haddr]
    exact storeWords_apply m (by omega) ((List.getElem?_take_of_lt hi).trans hw)
  · rw [mcontext_eq, makecontext_eq hsp]
    exact Function.update_self ..

end

end PikoRT.Libc.Ucontext

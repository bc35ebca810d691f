import PikoRT.Kernel.Printk
import PikoRT.Libc.Ucontext

/-! # The context of `co_vsnprintf`

`printk` starts `co_vsnprintf` with `makecontext` and `swapcontext` on a stack of its own, and goes on
when the function returns to `return_from_makecontext`. What this does to the buffer and to `retval` is
one call of `co_vsnprintf` with the arguments of `printk`. -/
namespace PikoRT.Kernel.PrintkContext
open PikoRT.Kernel.Bitops PikoRT.Lib.Words PikoRT.Arch.V7m PikoRT.Libc.Ucontext PikoRT.Libc.Printf PikoRT.Kernel.Printk
open PikoRT.Thread.Context (wordOf)

/-- The objects of `kernel/printk.c`, and the addresses of the two functions. -/
structure Statics where
  printkContext : Word
  vsnprintfContext : Word
  /-- `&ctx_stack[128]`. -/
  stackEnd : Word
  coVsnprintf : Word
  returnFromMakecontext : Word
  apart : Disjoint (struct printkContext) (struct vsnprintfContext)
  stack_apart : stackEnd - 4 ∉ struct printkContext ∪ struct vsnprintfContext
  aligned : wordOf (stackEnd - 4) = stackEnd - 4

/-- The words of the contexts, and the top of the stack. -/
def Statics.words (x : Statics) : Set Word :=
  insert (x.stackEnd - 4) (struct x.printkContext ∪ struct x.vsnprintfContext)

/-- What the memory holds of a format, of the arguments and of the console. -/
structure View (x : Statics) where
  format : Mem → Word → Format
  ap : Mem → Word → VaList
  console : Mem → Console
  congr : ∀ {m m' : Mem}, (∀ y ∉ x.words, m' y = m y) → format m' = format m ∧ ap m' = ap m ∧ console m' = console m

/-- `printk` up to the loop; `co` is what `co_vsnprintf` does. -/
def callCoVsnprintf (x : Statics) (co : Cpu → Cpu) (format ap : Word) (c : Cpu) : Option Cpu :=
  let m := Function.update c.mem (x.vsnprintfContext + 4) x.stackEnd
  let m := makecontext x.returnFromMakecontext x.vsnprintfContext x.coVsnprintf [format, ap] m
  let c := (({ c with mem := m }).set .r0 x.printkContext).set .r1 x.vsnprintfContext
  (swapcontext c).bind fun s => returnFromMakecontext (co s)

/-- The code of `co_vsnprintf`, run on `ctx_stack`: it returns with the stack pointer that it was started with, and
leaves the contexts. -/
structure Computes (x : Statics) (v : View x) (co : Cpu → Cpu) : Prop where
  sp : ∀ c, c.sp = x.stackEnd - 4 → (co c).sp = c.sp
  words : ∀ c, c.sp = x.stackEnd - 4 → ∀ y ∈ x.words, (co c).mem y = c.mem y
  console : ∀ c, c.sp = x.stackEnd - 4 → v.console (co c).mem =
    coVsnprintf (v.format c.mem (c.r .r0)) (v.ap c.mem (c.r .r1)) (v.console c.mem)

section

variable {x : Statics} {v : View x} {co : Cpu → Cpu} {format ap : Word} {c : Cpu} {m : Mem}

/-- The context that is made, with `&ctx_stack[128]` in it. -/
def made (x : Statics) (format ap : Word) : Made := ⟨x.vsnprintfContext, x.coVsnprintf, [format, ap], x.stackEnd - 4⟩

theorem newContext_eq (x : Statics) (format ap : Word) (m : Mem) :
    newContext x.vsnprintfContext x.coVsnprintf [format, ap] (Function.update m (x.vsnprintfContext + 4) x.stackEnd) =
      made x format ap := by
  rw [newContext, Function.update_self]
  rfl

/-- What `makecontext` leaves. -/
structure Prepared (x : Statics) (format ap : Word) (m m' : Mem) : Prop where
  holds : HoldsMade x.returnFromMakecontext m' x.vsnprintfContext (made x format ap)
  top : m' (x.stackEnd - 4) = x.vsnprintfContext
  link : m' x.vsnprintfContext = m x.vsnprintfContext
  others : ∀ y ∉ x.words, m' y = m y

theorem makecontext_prepared (x : Statics) (format ap : Word) (m : Mem) :
    Prepared x format ap m (makecontext x.returnFromMakecontext x.vsnprintfContext x.coVsnprintf [format, ap]
      (Function.update m (x.vsnprintfContext + 4) x.stackEnd)) := by
  have hnew := newContext_eq x format ap m
  have hout : (made x format ap).sp ∉ struct x.vsnprintfContext := fun h => x.stack_apart (.inr h)
  have hsp := hout
  rw [← hnew] at hsp
  have hfield (k : ℕ) (hk : k < 80) : x.vsnprintfContext + BitVec.ofNat 32 k ∈ struct x.vsnprintfContext :=
    field_mem hk
  refine ⟨?_, ?_, ?_, fun y hy => ?_⟩
  · rw [← hnew]
    exact makecontext_holds hsp (by rw [hnew]; exact x.aligned)
  · rw [show x.stackEnd - 4 = (newContext x.vsnprintfContext x.coVsnprintf [format, ap]
      (Function.update m (x.vsnprintfContext + 4) x.stackEnd)).sp by rw [hnew]; rfl]
    exact makecontext_link hsp
  · have hself : x.vsnprintfContext ∈ struct x.vsnprintfContext := by
      simpa using hfield 0 (by norm_num)
    have hset : ∀ k ∈ [4, 16, 20, 76], x.vsnprintfContext ≠ x.vsnprintfContext + BitVec.ofNat 32 k := by
      intro k hk
      have hne := @field_ne x.vsnprintfContext 0 k (by norm_num) (by simp at hk; omega) (by simp at hk; omega)
      simpa using hne
    rw [makecontext_of_ne hsp (by rw [hnew]; exact ne_of_mem_of_not_mem hself hout) hset, storeWords_of_le]
    · exact Function.update_of_ne (hset 4 (by simp)) _ _
    · rw [sub_add_cancel_left]
      show 4 * 2 ≤ (-24 : Word).toNat
      decide
  · have hy' : y ∉ struct x.vsnprintfContext := fun h => hy (.inr (.inr h))
    rw [makecontext_of_notMem hsp hy' (by rw [hnew]; exact fun he => hy (.inl he))]
    exact Function.update_of_ne (ne_of_mem_of_not_mem (hfield 4 (by norm_num)) hy').symm _ _

/-- **The coroutine.** `printk` goes on behind `swapcontext`, with its registers, and the loop finds
what `co_vsnprintf` has left for the format and the arguments of `printk`. -/
theorem callCoVsnprintf_printk (fuel : ℕ) (hco : Computes x v co) (haligned : wordOf c.sp = c.sp)
    (hthumb : (c.r .lr).getLsbD 0 = true) (hlink : c.mem x.vsnprintfContext = x.printkContext) :
    ∃ s, callCoVsnprintf x co format ap c = some s ∧ Continues c s ∧
      printk fuel (v.format c.mem format) (v.ap c.mem ap) (v.console c.mem) =
        (sendLoop fuel 0 (v.console s.mem)).map fun k => (k.retval, k) := by
  have hm := makecontext_prepared x format ap c.mem
  unfold callCoVsnprintf
  dsimp only
  generalize makecontext x.returnFromMakecontext x.vsnprintfContext x.coVsnprintf [format, ap]
    (Function.update c.mem (x.vsnprintfContext + 4) x.stackEnd) = m at hm
  let c₁ := (({ c with mem := m }).set .r0 x.printkContext).set .r1 x.vsnprintfContext
  have hsaved : ∀ y ∉ struct x.printkContext, (saveContext c₁).mem y = m y :=
    fun y hy => saveContext_of_notMem (c := c₁) hy
  have htop : x.stackEnd - 4 ∉ struct x.printkContext := fun h => x.stack_apart (.inl h)
  -- `co_vsnprintf` starts
  have hholds : Holds x.returnFromMakecontext (saveContext c₁).mem x.vsnprintfContext (.made (made x format ap)) := by
    have hmade : Holds x.returnFromMakecontext m x.vsnprintfContext (.made (made x format ap)) := hm.holds
    refine hmade.congr fun i hi => ?_
    rw [mcontext_eq, mcontext_eq]
    exact hsaved _ (Set.disjoint_right.mp x.apart (field_mem (by omega)))
  obtain ⟨u, hu, humem, hiff⟩ := restoreContext_resumes (c := saveContext c₁) (by decide : Reg.r1 ≠ .lr)
    (show Holds x.returnFromMakecontext _ x.vsnprintfContext _ from hholds)
  have hstarts : Starts x.returnFromMakecontext (made x format ap) u := hiff.mpr fun i w hw => by cases hw
  -- and returns to the context of `printk`
  have hwords : ∀ y ∈ x.words, (co u).mem y = (saveContext c₁).mem y :=
    fun y hy => by rw [hco.words u hstarts.sp y hy, humem]
  have hself : x.vsnprintfContext ∈ struct x.vsnprintfContext := by
    simpa using @field_mem x.vsnprintfContext 0 (by norm_num)
  have htopword : (co u).mem (co u).sp = x.vsnprintfContext := by
    rw [hco.sp u hstarts.sp, hstarts.sp, made, hwords _ (.inl rfl), hsaved _ htop, hm.top]
  have hback : (co u).mem x.vsnprintfContext = x.printkContext := by
    rw [hwords _ (.inr (.inr hself)), hsaved _ (Set.disjoint_right.mp x.apart hself), hm.link, hlink]
  let d := ((co u).ldr .r0 (co u).sp).ldr .r0 (((co u).ldr .r0 (co u).sp).r .r0 + UC_LINK)
  have hr0 : d.r .r0 = x.printkContext := by
    have hloaded : d.r .r0 = (co u).mem ((co u).mem (co u).sp + UC_LINK) := rfl
    rw [hloaded, htopword, UC_LINK, add_zero, hback]
  have hleft : Holds x.returnFromMakecontext d.mem (d.r .r0) (.left c₁) := by
    rw [hr0]
    have hsaves : Holds x.returnFromMakecontext (saveContext c₁).mem x.printkContext (.left c₁) :=
      saveContext_holds (c := c₁) haligned hthumb
    refine hsaves.congr fun i hi => ?_
    rw [mcontext_eq, mcontext_eq]
    exact hwords _ (.inr (.inl (field_mem (by omega))))
  obtain ⟨s, hs, hsmem, hiff'⟩ := restoreContext_resumes (by decide : Reg.r0 ≠ .lr) hleft
  have hcontinues : Continues c₁ s := hiff'.mpr trivial
  refine ⟨s, ?_, ⟨hcontinues.pc, hcontinues.sp, hcontinues.lr, fun rd hrd => ?_⟩, ?_⟩
  · show (swapcontext c₁).bind _ = _
    rw [show swapcontext c₁ = some u from hu, Option.bind_some]
    exact hs
  · refine (hcontinues.regs rd hrd).trans ?_
    have hne : rd ≠ .r0 ∧ rd ≠ .r1 := by
      revert rd
      decide
    exact (Function.update_of_ne hne.2 _ _).trans (Function.update_of_ne hne.1 _ _)
  · have hseen : ∀ y ∉ x.words, u.mem y = c.mem y := fun y hy => by
      rw [humem, hsaved y fun h => hy (.inr (.inl h)), hm.others y hy]
    obtain ⟨hformat, hap, hconsole⟩ := v.congr hseen
    have hresult := hco.console u hstarts.sp
    rw [show u.r .r0 = format from hstarts.args 0 format rfl, show u.r .r1 = ap from hstarts.args 1 ap rfl, hformat,
      hap,
      hconsole] at hresult
    rw [hsmem]
    exact congrArg (fun k => (sendLoop fuel 0 k).map fun k => (k.retval, k)) hresult.symm

end

end PikoRT.Kernel.PrintkContext

import PikoRT.Libc.HeapRun
import PikoRT.Mm.PageComplete
import PikoRT.Thread.Stack

/-! # `thread_create`

The interrupt stack comes first, then the stack of the thread. When there is no memory
for the second, the first is given to `free`, which takes it for a block of the heap:
the pages stay allocated, and the heap gets a tag that is none of its own. -/
namespace PikoRT.Thread.Create
open PikoRT.Kernel.Bitops PikoRT.Kernel.LinuxList PikoRT.Lib.Run PikoRT.Lib.Words PikoRT.Arch.V7m PikoRT.Libc
open PikoRT.Mm PikoRT.Mm.Page PikoRT.Mm.PageBuddy PikoRT.Mm.PageUse PikoRT.Mm.PageComplete PikoRT.Thread.Stack
open PikoRT.Mm.PageRun (PgMem boot pgMem64k)
open PikoRT.Libc.Malloc (Heap)

/-- `enum thread_privilege`. -/
inductive ThreadPrivilege
  | supervisor | user
  deriving DecidableEq, Repr

def ThreadPrivilege.word : ThreadPrivilege → Word
  | .supervisor => 0
  | .user => 1

/-- `PRI_MIN`. -/
def priMin : Word := 31

/-- The fields of `struct thread_info` behind `ti_mach` that a new thread gets. -/
structure ThreadInfo where
  tiPriority : Word
  tiId : Word
  tiNew : Bool
  tiStacksize : Word
  tiTask : Word
  tiDetached : Bool
  tiJoinable : Bool
  tiJoining : Option Addr

structure Kernel where
  ram : Ram
  heap : Heap
  info : Addr → ThreadInfo
  threadCount : Word
  /-- The lists of threads, one of each task. -/
  lists : Memory Word Addr

/-- `THREAD_INFO`. -/
def threadInfo (addr : Word) : Addr := align addr intrStackSize.toNat

/-- What is written when both stacks are there. -/
def Kernel.prepare (thread kcr tcr : Word) (priv : ThreadPrivilege) (stacksize task : Word) (s : Kernel) : Kernel :=
  { s with
    ram := { s.ram with mem := storeWords s.ram.mem thread [kcr, tcr, priv.word] }
    info := Function.update s.info thread
      ⟨priMin, s.threadCount, true, stacksize, task, false, false, none⟩
    threadCount := s.threadCount + 1
    lists := listAdd (.item thread) (.head task) s.lists }

/-- `thread_create`; `free` may not come back when it is given a page. -/
def threadCreate (pg : PgMem) (pthreadExit startRoutine arg : Word) (priv : ThreadPrivilege)
    (stacksize task : Word) (s : Kernel) : Option (Option Addr × Kernel) :=
  let intr := allocInterruptStack pg s.ram
  match intr.1 with
  | none => some (none, { s with ram := intr.2 })
  | some kcr =>
    let user := allocThreadStack pg pthreadExit startRoutine arg stacksize intr.2
    let thread := threadInfo kcr
    match user.1 with
    | none => (Malloc.free thread.toNat s.heap).map fun h => (none, { s with ram := user.2, heap := h })
    | some tcr => some (some thread, { s with ram := user.2 }.prepare thread kcr tcr priv stacksize task)

/-- The page bitmaps, the heap and the lists of threads are the same. -/
structure NoTrace (s t : Kernel) : Prop where
  pages : t.ram.pb = s.ram.pb
  heap : t.heap = s.heap
  lists : t.lists = s.lists

/-- The `thread_info` is at the bottom of the interrupt stack. -/
theorem threadInfo_eq {base : Word} (h : base.toNat % 512 = 0) :
    threadInfo (base + intrStackSize - sizeofKernelContextRegs) = base := by
  refine (forall_align_eq_iff (n := intrStackSize) (o := 1) h (by decide) (by decide)).mpr ⟨9, rfl⟩ _ ?_
  have hoff : base + intrStackSize - sizeofKernelContextRegs - base = 472 := by ring
  rw [hoff]
  decide

/-! ## An allocation leaves a trace -/

section

variable {pb : PageBitmap} {start addr : Addr} {k : ℕ}

/-- Splitting writes the maps from the order of the block on downwards. -/
theorem freeBit_splitDown {n o : ℕ} (ho : n < o) (pb : PageBitmap) (i : ℕ) :
    freeBit (splitDown k n pb) o i = freeBit pb o i := by
  induction n generalizing pb with
  | zero => rfl
  | succ n ih =>
    rw [splitDown]
    split
    · rw [ih (by omega), splitFirstFreePage]
      unfold freeBit
      simp only [Nat.add_sub_cancel]
      rw [getD_modify_ne _ (by omega), getD_modify_ne _ (by omega), getD_modify_ne _ (by omega)]
    · rfl

/-- The block that an allocation starts from is not free any more. -/
theorem allocPages_changes (hs : Shape pb) (h : (allocPages start pb k).1 = some addr) :
    (allocPages start pb k).2 ≠ pb := by
  obtain ⟨hle, -, hfound⟩ := searchOrder_spec pb (k := k) (n := MAX_PAGE_ORDER + 1) (by simp)
  unfold allocPages at h ⊢
  by_cases hbig : searchOrder pb k (MAX_PAGE_ORDER + 1) > MAX_PAGE_ORDER
  · rw [if_pos hbig] at h
    cases h
  rw [if_neg hbig]
  generalize searchOrder pb k (MAX_PAGE_ORDER + 1) = o at *
  have ho : o ≤ 3 := by simpa using hbig
  obtain ⟨j, hj, hfree⟩ := hfound ho
  have hfirst : freeBit pb o (findFirstBit (pb.getD o []) (pageBitmapSz o)) = true :=
    (findFirstBit_spec (pb.getD o []) (pageBitmapSz o)).2.1 (findFirstBit_lt_iff.mpr ⟨j, hj, hfree⟩)
  intro he
  have hkept := congrArg (fun q => freeBit q o (findFirstBit (pb.getD o []) (pageBitmapSz o))) he
  dsimp only at hkept
  rw [hfirst] at hkept
  rcases hle.eq_or_lt with rfl | hlt
  · -- the block itself is returned
    have hsplit : splitDown k k pb = pb := by
      cases k with
      | zero => rfl
      | succ k => rw [splitDown, if_neg (lt_irrefl _)]
    rw [hsplit, freeBit_clear hs ho] at hkept
    simp at hkept
  · obtain ⟨n, rfl⟩ := Nat.exists_eq_succ_of_ne_zero (Nat.ne_zero_of_lt hlt)
    rw [splitDown, if_pos hlt] at hkept
    unfold freeBit at hkept
    rw [getD_modify_ne _ hlt.ne] at hkept
    change freeBit (splitDown k n (splitFirstFreePage pb (n + 1))) (n + 1) _ = true at hkept
    rw [freeBit_splitDown (Nat.lt_succ_self n), splitFirstFreePage] at hkept
    unfold freeBit at hkept
    rw [Nat.add_sub_cancel, getD_modify_ne _ (by omega), getD_modify_ne _ (by omega)] at hkept
    change freeBit (pb.modify (n + 1) (bitmapClearBit · _)) (n + 1) _ = true at hkept
    rw [freeBit_clear hs ho] at hkept
    simp at hkept

end

/-! ## A creation that fails -/

section

variable {pg : PgMem} {pthreadExit startRoutine arg stacksize task : Word} {priv : ThreadPrivilege} {s t : Kernel}

theorem allocInterruptStack_pb (pg : PgMem) (r : Ram) :
    (allocInterruptStack pg r).2.pb = (allocPages pg.start r.pb (ulongOrder intrStackSize)).2 := by
  unfold allocInterruptStack
  dsimp only
  cases (allocPages pg.start r.pb (ulongOrder intrStackSize)).1 <;> rfl

theorem allocInterruptStack_eq_none_iff (pg : PgMem) (r : Ram) :
    (allocInterruptStack pg r).1 = none ↔ (allocPages pg.start r.pb (ulongOrder intrStackSize)).1 = none := by
  unfold allocInterruptStack
  dsimp only
  cases (allocPages pg.start r.pb (ulongOrder intrStackSize)).1 <;> simp

theorem allocThreadStack_pb_of_none {r : Ram}
    (h : (allocThreadStack pg pthreadExit startRoutine arg stacksize r).1 = none) :
    (allocThreadStack pg pthreadExit startRoutine arg stacksize r).2.pb = r.pb := by
  unfold allocThreadStack at h ⊢
  dsimp only at h ⊢
  cases ha : (allocPages pg.start r.pb (ulongOrder stacksize)).1 with
  | none => exact congrArg Prod.snd (allocPages_none_eq ha)
  | some memp =>
    rw [ha] at h
    cases h

/-- **A failure leaves no trace exactly when the first allocation fails**: the failure of the
second one leaves the interrupt stack allocated. -/
theorem threadCreate_noTrace_iff (hs : Shape s.ram.pb)
    (h : threadCreate pg pthreadExit startRoutine arg priv stacksize task s = some (none, t)) :
    NoTrace s t ↔ ∀ o, 1 ≤ o → o ≤ 3 → findFirstFreePage s.ram.pb o < 0 := by
  have hpb := allocInterruptStack_pb pg s.ram
  have hone : ulongOrder intrStackSize = 1 := rfl
  rw [← hone, ← @allocPages_eq_none_iff s.ram.pb pg.start, ← allocInterruptStack_eq_none_iff]
  unfold threadCreate at h
  dsimp only at h
  cases hkcr : (allocInterruptStack pg s.ram).1 with
  | none =>
    rw [hkcr] at h
    cases h
    have hnone := allocPages_none_eq ((allocInterruptStack_eq_none_iff pg s.ram).mp hkcr)
    rw [hnone] at hpb
    exact iff_of_true ⟨hpb, rfl, rfl⟩ rfl
  | some kcr =>
    rw [hkcr] at h
    dsimp only at h
    cases htcr : (allocThreadStack pg pthreadExit startRoutine arg stacksize (allocInterruptStack pg s.ram).2).1 with
    | some tcr =>
      rw [htcr] at h
      cases h
    | none =>
      rw [htcr] at h
      obtain ⟨heap, -, he⟩ := Option.map_eq_some_iff.mp h
      cases he
      have hlast := allocThreadStack_pb_of_none htcr
      refine iff_of_false (fun hsame => ?_) (by simp)
      have hpages : (allocPages pg.start s.ram.pb (ulongOrder intrStackSize)).2 = s.ram.pb :=
        hpb.symm.trans (hlast.symm.trans hsame.pages)
      cases hfirst : (allocPages pg.start s.ram.pb (ulongOrder intrStackSize)).1 with
      | none =>
        rw [(allocInterruptStack_eq_none_iff pg s.ram).mpr hfirst] at hkcr
        cases hkcr
      | some memp => exact allocPages_changes hs hfirst hpages

end

/-- The heap after its initialization; all other memory points to the list of blocks. -/
def bootHeap : Heap := (Malloc.init HeapRun.smallRegion ⟨fun _ => 0, ⟨fun _ => .head (), fun _ => .head ()⟩⟩).heap

/-- The pages `pb`, before the first thread. -/
def firstKernel (pb : PageBitmap) : Kernel :=
  ⟨⟨pb, fun _ => 0⟩, bootHeap, fun _ => ⟨priMin, 0, true, 0, 0, false, false, none⟩, 0, ⟨fun n => n, fun n => n⟩⟩

def noPage : PageBitmap := [[0, 0, 0, 0], [0, 0], [0], [0]]

/-- One block of 512 bytes is left. -/
def lastPage : PageBitmap := [[0, 0, 0, 0], [2, 0], [0], [0]]

theorem threadCreate_noTrace_noPage : NoTrace (firstKernel noPage) (firstKernel noPage) := by
  have hnull : threadCreate pgMem64k 0x08001001 0x08002001 0 .user 1024 0x20000100 (firstKernel noPage) =
      some (none, firstKernel noPage) := rfl
  have hs : Shape (firstKernel noPage).ram.pb := rfl
  refine (threadCreate_noTrace_iff hs hnull).mpr fun o _ ho => ?_
  interval_cases o <;> decide

/-- The last page goes to the interrupt stack of a thread that is not created, and is lost. -/
theorem threadCreate_lastPage :
    (run (PageRun.step pgMem64k) boot ([.alloc 1, .alloc 2] ++ List.replicate 14 (.alloc 3))).map PageRun.State.pb =
      some lastPage ∧
    ∃ t, threadCreate pgMem64k 0x08001001 0x08002001 0 .user 1024 0x20000100 (firstKernel lastPage) = some (none, t) ∧
      t.ram.pb = noPage ∧ ¬ NoTrace (firstKernel lastPage) t := by
  refine ⟨by decide +kernel, _, rfl, rfl, fun hsame => ?_⟩
  exact absurd hsame.pages (by decide)

end PikoRT.Thread.Create

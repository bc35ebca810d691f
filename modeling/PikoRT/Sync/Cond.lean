import PikoRT.Sync.Pthread
import PikoRT.Sync.Wake

/-! # Condition variables

`sys_pthread_cond_wait` registers the caller on `cond_head`, gives the mutex up and
suspends the caller in one entry; once a signal has taken the caller off the list, the
rest of the call takes the mutex again. The history below records the calls: which
threads wait, in which order they came, and which of them were signaled. It is
written from the calls alone, and the theorem compares it with the lists of the
kernel.

Neither the caller of `sys_pthread_cond_wait` nor that of an unlock has to hold the
mutex here. All that is asked of them is that the lock word, an `int`, does not
underflow. -/
namespace PikoRT.Sync.Cond
open PikoRT.Kernel.Bitmap PikoRT.Lib.Run
open PikoRT.Sched.Model hiding step
open PikoRT.Sched.RunQueue PikoRT.Sync.Effect PikoRT.Sync.Place PikoRT.Sync.Mutex
open PikoRT.Sync.Kernel hiding step
open PikoRT.Sync.Wake (IsReady not_isReady_of_wait isReady_elect)
open PikoRT.Sync.Pthread (Machine Act isSvc)

/-! ## The calls of a run -/

/-- A call of `sys_pthread_cond_wait` that has not returned. -/
structure Wait where
  cond : Ptr
  mutex : Ptr
  signaled : Bool
  deriving DecidableEq, Repr

structure History where
  /-- The threads that wait for a signal and the condition of each, in the order of
  their calls. -/
  queue : List (Thread × Ptr)
  waits : Thread → Option Wait

namespace History

/-- The thread that has waited longest for the condition. -/
def oldest (c : Ptr) (h : History) : Option Thread :=
  (h.queue.find? fun x => decide (x.2 = c)).map Prod.fst

def register (t : Thread) (c m : Ptr) (h : History) : History where
  queue := h.queue ++ [(t, c)]
  waits := Function.update h.waits t (some ⟨c, m, false⟩)

def signal (c : Ptr) (h : History) : History :=
  match h.oldest c with
  | none => h
  | some w =>
    { queue := h.queue.eraseP fun x => decide (x.2 = c)
      waits := Function.update h.waits w ((h.waits w).map fun x => { x with signaled := true }) }

/-- The thread is past its call: it does something else. -/
def leave (t : Thread) (h : History) : History := { h with waits := Function.update h.waits t none }

/-- What an action of the thread that runs adds. -/
def record (t : Thread) (h : History) : Act → History
  | .entry (.svc (.condWait c m)) => h.register t c m
  | .entry (.svc (.condSignal c)) => (h.leave t).signal c
  | .entry (.svc _) => h.leave t
  | .entry _ => h
  | .call _ _ => h.leave t
  | .instr => h.leave t
  | .exception => h

end History

structure Recorded where
  machine : Machine
  history : History

namespace Recorded

def kernel (s : Recorded) : System := s.machine.kernel

end Recorded

def step (s : Recorded) (a : Act) : Option Recorded :=
  (Pthread.step s.machine a).map fun m => ⟨m, s.history.record s.machine.current a⟩

def init (b : Threads) : Recorded := ⟨Pthread.init b, ⟨[], fun _ => none⟩⟩

/-- The lock word may be decremented. The other entries keep every thread in one
place. -/
def Counts (s : Machine) : Act → Prop
  | .entry e =>
    (∀ m, unlocked e = some m → -2 ^ 31 < s.kernel.val m) ∧ (unlocked e = none → Safe s.kernel e)
  | .instr => ∀ m, s.pc s.current = .unlockSvc m → -2 ^ 31 < s.kernel.val m
  | _ => True

/-! ## What stays the same -/

/-- `cond_head`, and the place in a call of every thread but the running one. -/
structure SameCalls (k k' : System) : Prop where
  condHead : k'.condHead = k.condHead
  kont : ∀ t, t ≠ k.current → k'.kont t = k.kont t

section

variable {k k' : System} {holds holds' : Ptr → List Thread} {m : Ptr} {t : Thread}

theorem SameCalls.of_eq (hc : k'.condHead = k.condHead) (hk : k'.kont = k.kont) : SameCalls k k' :=
  ⟨hc, fun t _ => congrFun hk t⟩

theorem sameCalls_setKont {p : System} (x : Kont) (h : SameCalls k p) (hc : p.current = k.current) :
    SameCalls k (setKont p.current x p) :=
  ⟨h.condHead, fun t ht => (setKont_kont_of_ne x p (hc ▸ ht)).trans (h.kont t ht)⟩

theorem sameCalls_of_locks {p : System} (h : SameCalls k p) (hl : Locks m p k') : SameCalls k k' := by
  cases hl with
  | _ => exact ⟨h.condHead, h.kont⟩

theorem sameCalls_of_reads (h : Reads k k') : SameCalls k k' := by
  cases h with
  | waits count s => exact ⟨rfl, fun t ht => setKont_kont_of_ne _ k ht⟩
  | returns => exact sameCalls_setKont (p := stm32Getc k) _ (.of_eq rfl rfl) rfl

/-- An unlock changes nothing of a call. -/
theorem unlock_frame (he : sysPthreadMutexUnlock m k = some k') :
    k'.condHead = k.condHead ∧ k'.kont = k.kont := by
  cases sysPthreadMutexUnlock_unlocks he with
  | _ => exact ⟨rfl, rfl⟩

/-- The entries that register nobody and signal nobody. -/
def Silent : Entry → Prop
  | .svc (.condWait _ _) => False
  | .svc (.condSignal _) => False
  | _ => True

theorem sameCalls_of_calls {c : Syscall} (hs : Silent (.svc c)) (h : Calls k c k') : SameCalls k k' := by
  have hself : ∀ t, t ≠ k.current → ∀ x, (setKont k.current x k).kont t = k.kont t :=
    fun t ht x => setKont_kont_of_ne x k ht
  cases h with
  | condWaits c m h => exact hs.elim
  | signalsNone c hw => exact hs.elim
  | signals c w s hw => exact hs.elim
  | locks m h => exact sameCalls_of_locks (.of_eq rfl rfl) h
  | unlocks m h =>
    cases h with
    | _ => exact .of_eq rfl rfl
  | joins other s hfind hnone => exact ⟨rfl, fun t ht => hself t ht (.joinRet other)⟩
  | sleeps alloc msec s => exact ⟨rfl, fun t ht => hself t ht .timerFree⟩
  | reads count h => exact sameCalls_of_reads h
  | _ => exact .of_eq rfl rfl

/-- An interrupt leaves every thread where it is in its call. -/
theorem kont_interrupt {e : Entry} (hsvc : isSvc e = false) (hr : e ≠ .resume)
    (he : Kernel.step k e = some k') : k'.kont = k.kont ∧ k'.condHead = k.condHead := by
  cases step_enters he with
  | calls c h => cases hsvc
  | condLocks m hk h => exact absurd rfl hr
  | reads h => exact absurd rfl hr
  | returns => exact absurd rfl hr
  | _ => exact ⟨rfl, rfl⟩

theorem sameCalls_step {e : Entry} (hs : Silent e) (he : Kernel.step k e = some k') :
    SameCalls k k' := by
  have hself : SameCalls k (setKont k.current .user k) := sameCalls_setKont _ (.of_eq rfl rfl) rfl
  cases step_enters he with
  | calls c h => exact sameCalls_of_calls hs h
  | condLocks m hk h => exact sameCalls_of_locks hself h
  | reads h => exact sameCalls_of_reads h
  | returns => exact hself
  | _ => exact .of_eq rfl rfl

/-! ## The stages of a wait -/

/-- Where a call of `sys_pthread_cond_wait` is: on `cond_head`, woken, on
`mutex_head` for its mutex, or in possession of it. -/
inductive Stage (k : System) (holds : Ptr → List Thread) (t : Thread) : Wait → Prop
  | suspended (c m : Ptr) (hc : t ∈ k.condHead) : Stage k holds t ⟨c, m, false⟩
  | woken (c m : Ptr) (hc : t ∉ k.condHead) (hk : k.kont t = .condLock m) : Stage k holds t ⟨c, m, true⟩
  | locking (c m : Ptr) (hc : t ∉ k.condHead) (hk : k.kont t = .user) (hm : t ∈ k.mutexHead)
      (hp : k.tiPrivate t = m) : Stage k holds t ⟨c, m, true⟩
  | locked (c m : Ptr) (hc : t ∉ k.condHead) (hk : k.kont t = .user) (hm : t ∈ holds m) :
      Stage k holds t ⟨c, m, true⟩

/-- The thread stays where it is, or is handed the mutex it waits for. -/
structure Kept (k k' : System) (holds holds' : Ptr → List Thread) (t : Thread) : Prop where
  cond : t ∈ k'.condHead ↔ t ∈ k.condHead
  kont : k'.kont t = k.kont t
  tiPrivate : k'.tiPrivate t = k.tiPrivate t
  mutex : t ∈ k.mutexHead → t ∈ k'.mutexHead ∨ t ∈ holds' (k.tiPrivate t)
  holds : ∀ m, t ∈ holds m → t ∈ holds' m

theorem Stage.kept {w : Wait} (h : Stage k holds t w) (hk : Kept k k' holds holds' t) :
    Stage k' holds' t w := by
  cases h with
  | suspended c m hc => exact .suspended c m (hk.cond.mpr hc)
  | woken c m hc hkont => exact .woken c m (fun hm => hc (hk.cond.mp hm)) (hk.kont.trans hkont)
  | locking c m hc hkont hm hp =>
    have hc' : t ∉ k'.condHead := fun hx => hc (hk.cond.mp hx)
    rcases hk.mutex hm with hm' | hm'
    · exact .locking c m hc' (hk.kont.trans hkont) hm' (hk.tiPrivate.trans hp)
    · exact .locked c m hc' (hk.kont.trans hkont) (hp ▸ hm')
  | locked c m hc hkont hm =>
    exact .locked c m (fun hx => hc (hk.cond.mp hx)) (hk.kont.trans hkont) (hk.holds m hm)

/-- The history agrees with the lists of the kernel. -/
structure Agrees (k : System) (holds : Ptr → List Thread) (h : History) : Prop where
  queue : k.condHead.map (fun t => (t, k.tiPrivate t)) = h.queue
  waiting : ∀ t ∈ k.condHead, ∃ m, k.kont t = .condLock m ∧ h.waits t = some ⟨k.tiPrivate t, m, false⟩
  stage : ∀ t w, h.waits t = some w → Stage k holds t w

theorem map_congr_condHead (hc : k'.condHead = k.condHead)
    (hp : ∀ t ∈ k.condHead, k'.tiPrivate t = k.tiPrivate t) :
    k'.condHead.map (fun t => (t, k'.tiPrivate t)) = k.condHead.map fun t => (t, k.tiPrivate t) := by
  rw [hc]
  refine List.map_congr_left fun t ht => ?_
  rw [hp t ht]

/-- Every thread but the running one is kept; the history says nothing new about the
others, and of the running one only where it is now. -/
theorem Agrees.move {h h' : History} (ha : Agrees k holds h) (hcur : k.current ∉ k.condHead)
    (hc : k'.condHead = k.condHead) (hk : ∀ t, t ≠ k.current → Kept k k' holds holds' t)
    (hq : h'.queue = h.queue) (hw : ∀ t, t ≠ k.current → h'.waits t = h.waits t)
    (hstage : ∀ w, h'.waits k.current = some w → Stage k' holds' k.current w) : Agrees k' holds' h' := by
  have hne : ∀ t ∈ k.condHead, t ≠ k.current := by
    rintro t ht rfl
    exact hcur ht
  refine ⟨?_, fun t ht => ?_, fun t w ht => ?_⟩
  · rw [hq, ← ha.queue]
    exact map_congr_condHead hc fun t ht => (hk t (hne t ht)).tiPrivate
  · rw [hc] at ht
    have hkept := hk t (hne t ht)
    obtain ⟨m, hkont, hwait⟩ := ha.waiting t ht
    refine ⟨m, hkept.kont.trans hkont, ?_⟩
    rw [hkept.tiPrivate, hw t (hne t ht)]
    exact hwait
  · by_cases htc : t = k.current
    · rw [htc] at ht ⊢
      exact hstage w ht
    · exact (ha.stage t w (hw t htc ▸ ht)).kept (hk t htc)

theorem Agrees.leave {h : History} (ha : Agrees k holds h) (hcur : k.current ∉ k.condHead)
    (hc : k'.condHead = k.condHead) (hk : ∀ t, t ≠ k.current → Kept k k' holds holds' t) :
    Agrees k' holds' (h.leave k.current) := by
  refine ha.move hcur hc hk rfl (fun t ht => Function.update_of_ne ht _ _) fun w hw => ?_
  simp [History.leave] at hw

/-! ## The lock word -/

/-- The word counts no more waiters than there are. -/
def Bounded (k : System) : Prop := ∀ m, -2 ^ 31 ≤ k.val m ∧ k.val m ≤ waiters m k

theorem Bounded.same (hb : Bounded k) (h : SameWords k k') : Bounded k' := by
  intro m
  rw [h.val, h.waiters]
  exact hb m

theorem wrap32_of_int {x : ℤ} (hl : -2 ^ 31 ≤ x) (hu : x ≤ 2 ^ 24) : wrap32 x = x :=
  Int.bmod_eq_of_le (by norm_num at hl ⊢; omega) (by norm_num at hl hu ⊢; omega)

theorem Bounded.wrap_succ (hb : Bounded k) (h : Ready k) (m : Ptr) :
    wrap32 (k.val m + 1) = k.val m + 1 := by
  obtain ⟨hl, hu⟩ := hb m
  have hw := waiters_le h m
  exact wrap32_of_int (by omega) (by omega)

theorem Bounded.wrap_pred (hb : Bounded k) (h : Ready k) (hm : -2 ^ 31 < k.val m) :
    wrap32 (k.val m - 1) = k.val m - 1 := by
  have hw := waiters_le h m
  have hu := (hb m).2
  exact wrap32_of_int (by omega) (by omega)

/-- A word that counts a waiter is that of a mutex with one. -/
theorem Bounded.not_noBlockingThreads (hb : Bounded k) (h : Ready k) (hm : -2 ^ 31 < k.val m) :
    ¬ noBlockingThreads m k := by
  rintro ⟨hval, hfind⟩
  rw [hb.wrap_pred h hm] at hval
  have hu := (hb m).2
  rw [findFirstBlockingThread_eq_none.mp hfind] at hu
  push_cast at hu
  omega

/-- One word changes, and nobody leaves the waiters of another. -/
theorem Bounded.update {x : ℤ} (hb : Bounded k) (hval : k'.val = Function.update k.val m x)
    (hw : ∀ n ≠ m, waiters n k' = waiters n k) (hx : -2 ^ 31 ≤ x ∧ x ≤ waiters m k') : Bounded k' := by
  intro n
  by_cases hn : n = m
  · subst hn
    rw [hval, Function.update_self]
    exact hx
  · rw [hval, Function.update_of_ne hn, hw n hn]
    exact hb n

theorem Bounded.mutexLock (hb : Bounded k) (h : Placed k) (he : sysPthreadMutexLock m k = some k') :
    Bounded k' := by
  obtain ⟨hl, hu⟩ := hb m
  have hval : (addVal m 1 k).val = Function.update k.val m (k.val m + 1) := by
    rw [← hb.wrap_succ h.toReady m]
    rfl
  unfold sysPthreadMutexLock at he
  dsimp only at he
  split at he
  · rename_i hzero
    rw [hval, Function.update_self] at hzero
    cases he
    refine hb.update hval (fun _ _ => rfl) ⟨by omega, ?_⟩
    rw [hzero]
    exact Int.natCast_nonneg _
  · have hcur : (addVal m 1 k).current ∉ (addVal m 1 k).mutexHead :=
      fun hm => h.current (List.mem_append_right _ (List.mem_append_left _ hm))
    refine Bounded.same (k := blockOnMutex m (addVal m 1 k)) ?_ (sameWords_of_moves (moves_elect he))
    refine hb.update hval (fun n hn => ?_) ⟨by omega, ?_⟩
    · rw [waiters_blockOnMutex hcur, if_neg hn]
      rfl
    · rw [waiters_blockOnMutex hcur, if_pos rfl]
      have hsame : waiters m (addVal m 1 k) = waiters m k := rfl
      rw [hsame]
      push_cast
      omega

theorem Bounded.mutexUnlock (hb : Bounded k) (h : Ready k) (hm : -2 ^ 31 < k.val m)
    (he : sysPthreadMutexUnlock m k = some k') : Bounded k' := by
  obtain ⟨-, hu⟩ := hb m
  have hwrap := hb.wrap_pred h hm
  have hval : (addVal m (-1) k).val = Function.update k.val m (k.val m - 1) := by
    rw [← hwrap, sub_eq_add_neg]
    rfl
  rcases sysPthreadMutexUnlock_cases he with ⟨hno, -⟩ | ⟨hlt, hr⟩ | ⟨w, hge, hf, hr⟩
  · exact absurd hno (hb.not_noBlockingThreads h hm)
  · refine Bounded.same (hb.update hval (fun _ _ => rfl) ⟨by omega, ?_⟩) (sameWords_of_moves (moves_reschedule hr))
    have hsame : waiters m (addVal m (-1) k) = waiters m k := rfl
    omega
  · obtain ⟨hmem, hpriv⟩ := mem_of_findFirstBlockingThread hf
    have hwait : ∀ n, waiters n (wakeWaiter w (addVal m (-1) k)) =
        waiters n k - if m = n then 1 else 0 := by
      intro n
      rw [← hpriv]
      exact waiters_wakeWaiter (k := addVal m (-1) k) hmem n
    have hpos : 0 < waiters m k := List.countP_pos_iff.mpr ⟨w, hmem, by simpa using hpriv⟩
    refine Bounded.same (k := wakeWaiter w (addVal m (-1) k)) ?_ (sameWords_of_moves (moves_reschedule hr))
    refine hb.update hval (fun n hn => ?_) ⟨by omega, ?_⟩
    · rw [hwait n, if_neg (Ne.symm hn)]
      rfl
    · rw [hwait m, if_pos rfl]
      omega

/-! ## The entries -/

theorem kept_of_same (hw : SameWords k k') (hc : k'.condHead = k.condHead) (hk : k'.kont t = k.kont t) :
    Kept k k' holds holds t :=
  ⟨by rw [hc], hk, congrFun hw.tiPrivate t, fun hm => .inl (hw.mutexHead ▸ hm), fun _ hm => hm⟩

theorem kept_mutexLock (ht : t ≠ k.current) (he : sysPthreadMutexLock m k = some k') :
    Kept k k' holds (lockHolds m k holds) t := by
  have hcalls := sameCalls_of_locks (.of_eq rfl rfl) (sysPthreadMutexLock_locks he)
  have hpriv : k'.tiPrivate t = k.tiPrivate t ∧ (t ∈ k.mutexHead → t ∈ k'.mutexHead) := by
    unfold sysPthreadMutexLock at he
    dsimp only at he
    split at he
    · cases he; exact ⟨rfl, id⟩
    · have hs := sameWords_of_moves (moves_elect he)
      rw [hs.tiPrivate, hs.mutexHead]
      exact ⟨Function.update_of_ne ht _ _, List.mem_append_left _⟩
  exact ⟨by rw [hcalls.condHead], hcalls.kont t ht, hpriv.1, fun hm => .inl (hpriv.2 hm),
    fun n hn => Pthread.mem_lockHolds hn⟩

theorem kept_mutexUnlock (ht : t ≠ k.current) (he : sysPthreadMutexUnlock m k = some k') :
    Kept k k' holds (unlockHolds m k holds) t := by
  obtain ⟨hcond, hkont⟩ := unlock_frame he
  have hholds : ∀ n, t ∈ holds n → t ∈ unlockHolds m k holds n := fun n hn => Pthread.mem_unlockHolds hn ht
  rcases sysPthreadMutexUnlock_cases he with ⟨-, rfl⟩ | ⟨-, hr⟩ | ⟨w, hge, hf, hr⟩
  · exact ⟨by rw [hcond], congrFun hkont t, rfl, .inl, hholds⟩
  · have hs := sameWords_of_moves (moves_reschedule hr)
    refine ⟨by rw [hcond], congrFun hkont t, congrFun hs.tiPrivate t, fun hm => .inl ?_, hholds⟩
    rw [hs.mutexHead]
    exact hm
  · obtain ⟨-, hpriv⟩ := mem_of_findFirstBlockingThread hf
    have hs := sameWords_of_moves (moves_reschedule hr)
    refine ⟨by rw [hcond], congrFun hkont t, congrFun hs.tiPrivate t, fun hm => ?_, hholds⟩
    by_cases htw : t = w
    · right
      rw [htw, hpriv]
      unfold unlockHolds
      rw [if_pos hge, hf]
      simp
    · left
      rw [hs.mutexHead]
      exact (List.mem_erase_of_ne htw).mpr hm

/-- A system call that registers nobody and signals nobody. -/
theorem kept_syscall {c : Syscall} (hs : Silent (.svc c)) (ht : t ≠ k.current)
    (he : syscall k c = some k') : Kept k k' holds (callHolds k holds c) t := by
  have hcalls := sameCalls_of_calls hs (syscall_calls he)
  cases c with
  | mutexLock m => exact kept_mutexLock ht he
  | mutexUnlock m => exact kept_mutexUnlock ht he
  | condWait c m => exact hs.elim
  | _ => exact kept_of_same (sameWords_of_calls (by trivial) (syscall_calls he)) hcalls.condHead (hcalls.kont t ht)

theorem Agrees.syscall {c : Syscall} {h : History} (ha : Agrees k holds h)
    (hcur : k.current ∉ k.condHead) (hs : Silent (.svc c)) (he : syscall k c = some k') :
    Agrees k' (callHolds k holds c) (h.leave k.current) :=
  ha.leave hcur (sameCalls_of_calls hs (syscall_calls he)).condHead fun _ ht => kept_syscall hs ht he

theorem Agrees.interrupt {e : Entry} {h : History} (ha : Agrees k holds h)
    (hcur : k.current ∉ k.condHead) (hsvc : isSvc e = false) (hr : e ≠ .resume)
    (he : Kernel.step k e = some k') : Agrees k' holds h := by
  obtain ⟨hkont, hcond⟩ := kont_interrupt hsvc hr he
  have hwords : SameWords k k' := by
    refine sameWords_step ?_ he
    cases e with
    | svc c => cases hsvc
    | resume => exact absurd rfl hr
    | _ => trivial
  have hkept : ∀ t, Kept k k' holds holds t := fun t => kept_of_same hwords hcond (congrFun hkont t)
  exact ha.move hcur hcond (fun t _ => hkept t) rfl (fun _ _ => rfl)
    fun w hw => (ha.stage _ w hw).kept (hkept _)

/-- The rest of `sys_pthread_cond_wait` takes the mutex or waits for it. -/
theorem stage_mutexLock {c : Ptr} (hc : k.current ∉ k.condHead) (hk : k.kont k.current = .user)
    (he : sysPthreadMutexLock m k = some k') :
    Stage k' (lockHolds m k holds) k.current ⟨c, m, true⟩ := by
  unfold sysPthreadMutexLock at he
  have hval : (addVal m 1 k).val m = wrap32 (k.val m + 1) := Function.update_self ..
  simp only [hval] at he
  split at he
  · rename_i hzero
    cases he
    refine .locked c m hc hk ?_
    unfold lockHolds
    rw [if_pos hzero, Function.update_self]
    exact List.mem_cons_self
  · obtain ⟨s, -, rfl⟩ := Option.map_eq_some_iff.mp he
    exact .locking c m hc hk (List.mem_append_right _ List.mem_cons_self) (Function.update_self ..)

theorem Agrees.resume {h : History} (ha : Agrees k holds h) (hcur : k.current ∉ k.condHead)
    (he : resume k = some k') : Agrees k' (resumeHolds k holds) h := by
  have hcalls : SameCalls k k' := sameCalls_step (e := .resume) trivial he
  have hstage := ha.stage k.current
  by_cases hu : ∃ m, k.kont k.current = .condLock m
  · obtain ⟨m, hkont⟩ := hu
    simp only [Kernel.resume, hkont] at he
    simp only [resumeHolds, hkont]
    refine ha.move hcur hcalls.condHead (fun t ht => ?_) rfl (fun _ _ => rfl) fun w hw => ?_
    · have hkept : Kept (setKont k.current .user k) k' holds _ t := kept_mutexLock ht he
      exact ⟨hkept.cond, hkept.kont.trans (setKont_kont_of_ne _ _ ht), hkept.tiPrivate, hkept.mutex,
        hkept.holds⟩
    · cases hstage w hw with
      | suspended c n hc => exact absurd hc hcur
      | woken c n hc hk =>
        obtain rfl : m = n := Kont.condLock.inj (hkont.symm.trans hk)
        exact stage_mutexLock (k := setKont k.current .user k) hcur (Function.update_self ..) he
      | locking c n hc hk _ _ => rw [hkont] at hk; cases hk
      | locked c n hc hk _ => rw [hkont] at hk; cases hk
  · have hwords := sameWords_step (e := .resume) (fun m hm => hu ⟨m, hm⟩) he
    have hholds : resumeHolds k holds = holds := by
      unfold resumeHolds
      split
      · rename_i m hk
        exact absurd ⟨m, hk⟩ hu
      · rfl
    rw [hholds]
    refine ha.move hcur hcalls.condHead (fun t ht => kept_of_same hwords hcalls.condHead
      (hcalls.kont t ht)) rfl (fun _ _ => rfl) fun w hw => ?_
    -- a thread in another call is in no wait
    have huser : k.kont k.current ≠ .user := by
      intro hk
      simp [Kernel.resume, hk] at he
    cases hstage w hw with
    | suspended c n hc => exact absurd hc hcur
    | woken c n hc hk => exact absurd ⟨n, hk⟩ hu
    | locking c n hc hk _ _ => exact absurd hk huser
    | locked c n hc hk _ => exact absurd hk huser

/-! ### Wait -/

theorem unlock_tiPrivate (he : sysPthreadMutexUnlock m k = some k') : k'.tiPrivate = k.tiPrivate := by
  rcases sysPthreadMutexUnlock_cases he with ⟨-, rfl⟩ | ⟨-, hr⟩ | ⟨w, -, -, hr⟩
  · rfl
  · exact (sameWords_of_moves (moves_reschedule hr)).tiPrivate
  · exact (sameWords_of_moves (moves_reschedule hr)).tiPrivate

theorem kept_condWait {c : Ptr} (ht : t ≠ k.current) (he : sysPthreadCondWait c m k = some k') :
    Kept k k' holds (unlockHolds m (blockOnCond c m k) holds) t := by
  have hkept : Kept (blockOnCond c m k) k' holds _ t := kept_mutexUnlock ht he
  have hpriv : (blockOnCond c m k).tiPrivate t = k.tiPrivate t := Function.update_of_ne ht _ _
  refine ⟨hkept.cond.trans ?_, hkept.kont.trans (setKont_kont_of_ne _ _ ht),
    hkept.tiPrivate.trans hpriv, fun hm => hpriv ▸ hkept.mutex hm, hkept.holds⟩
  show t ∈ k.condHead ++ [k.current] ↔ _
  simp [ht]

theorem Agrees.condWait {c : Ptr} {h : History} (ha : Agrees k holds h) (hcur : k.current ∉ k.condHead)
    (he : sysPthreadCondWait c m k = some k') :
    Agrees k' (unlockHolds m (blockOnCond c m k) holds) (h.register k.current c m) := by
  obtain ⟨hcond, hkont⟩ := unlock_frame he
  have hpriv := unlock_tiPrivate he
  have hhead : k'.condHead = k.condHead ++ [k.current] := hcond
  have hself : k'.tiPrivate k.current = c := by
    rw [hpriv]
    exact Function.update_self ..
  have hne : ∀ t ∈ k.condHead, t ≠ k.current := by
    rintro t ht rfl
    exact hcur ht
  refine ⟨?_, fun t ht => ?_, fun t w hw => ?_⟩
  · rw [hhead, List.map_append, List.map_singleton, hself]
    show _ = h.queue ++ [(k.current, c)]
    rw [← ha.queue]
    refine congrArg (· ++ _) (List.map_congr_left fun t ht => ?_)
    have hkept : Kept k k' holds _ t := kept_condWait (hne t ht) he
    rw [hkept.tiPrivate]
  · rw [hhead] at ht
    by_cases htc : t = k.current
    · rw [htc, hself, hkont]
      exact ⟨m, Function.update_self .., Function.update_self ..⟩
    · have ht' : t ∈ k.condHead := by simpa [htc] using ht
      have hkept : Kept k k' holds _ t := kept_condWait htc he
      obtain ⟨n, hk, hw⟩ := ha.waiting t ht'
      refine ⟨n, hkept.kont.trans hk, ?_⟩
      rw [hkept.tiPrivate]
      exact (Function.update_of_ne htc _ _).trans hw
  · by_cases htc : t = k.current
    · subst htc
      simp only [History.register, Function.update_self] at hw
      cases hw
      refine .suspended c m ?_
      rw [hhead]
      simp
    · have hw' : h.waits t = some w := (Function.update_of_ne htc _ _).symm.trans hw
      exact (ha.stage t w hw').kept (kept_condWait htc he)

/-! ### Signal -/

theorem Agrees.oldest {c : Ptr} {h : History} (ha : Agrees k holds h) :
    findOtherThread c k = h.oldest c := by
  unfold History.oldest findOtherThread
  rw [← ha.queue, List.find?_map, Option.map_map]
  exact (Option.map_id' (x := List.find? _ _)).symm

/-- The first thread that fits is the one taken out. -/
theorem erase_eq_eraseP_of_find {α : Type*} [DecidableEq α] {p : α → Bool} {l : List α} {x : α}
    (h : l.find? p = some x) : l.erase x = l.eraseP p := by
  induction l with
  | nil => cases h
  | cons y l ih =>
    rw [List.find?_cons] at h
    cases hy : p y with
    | true =>
      rw [hy] at h
      cases h
      rw [List.erase_cons_head, List.eraseP_cons_of_pos hy]
    | false =>
      rw [hy] at h
      have hne : y ≠ x := by
        rintro rfl
        rw [List.find?_some h] at hy
        cases hy
      rw [List.erase_cons_tail (by simpa using hne), List.eraseP_cons_of_neg (by simp [hy]), ih h]

/-- What a signal changes when a thread waits for it. -/
structure Signaled (k k' : System) (w : Thread) : Prop where
  condHead : k'.condHead = k.condHead.erase w
  mutexHead : k'.mutexHead = k.mutexHead
  kont : k'.kont = k.kont
  tiPrivate : k'.tiPrivate = k.tiPrivate
  ready : IsReady k' w

theorem signaled_sysPthreadCondSignal {c : Ptr} {w : Thread} (h : Placed k) (hi : k.current ≠ k.idle)
    (hw : findOtherThread c k = some w) (he : sysPthreadCondSignal c k = some k') : Signaled k k' w := by
  have hmem : w ∈ k.condHead := List.mem_of_find?_eq_some hw
  have hp := h.wakeOther hmem
  set k1 := enqueue w { k with condHead := k.condHead.erase w } with hk1
  have hq : w ∈ queued k1.sched :=
    (queued_schedEnqueue w k.sched).mem_iff.mpr List.mem_cons_self
  unfold sysPthreadCondSignal at he
  rw [hw] at he
  dsimp only at he
  rw [← hk1] at he
  split at he
  · have hlinked : Linked (enqueue k1.current k1).sched :=
      (hp.toReady.enqueue hp.current hi hp.awake).queues
    have hready : IsReady k' w := isReady_elect hlinked he
      ((queued_schedEnqueue k1.current k1.sched).mem_iff.mpr (List.mem_cons_of_mem _ hq))
    obtain ⟨s, -, rfl⟩ := Option.map_eq_some_iff.mp he
    exact ⟨rfl, rfl, rfl, rfl, hready⟩
  · obtain rfl : k1 = k' := Option.some.inj he
    exact ⟨rfl, rfl, rfl, rfl, .inl hq⟩

theorem Signaled.kept {w : Thread} (hs : Signaled k k' w) (ht : t ≠ w) : Kept k k' holds holds t := by
  refine ⟨?_, congrFun hs.kont t, congrFun hs.tiPrivate t, fun hm => .inl (hs.mutexHead ▸ hm),
    fun _ hm => hm⟩
  rw [hs.condHead]
  exact List.mem_erase_of_ne ht

theorem Agrees.condSignal {c : Ptr} {h : History} (ha : Agrees k holds h) (hp : Placed k)
    (hi : k.current ≠ k.idle) (he : sysPthreadCondSignal c k = some k') :
    Agrees k' holds ((h.leave k.current).signal c) := by
  have hcur : k.current ∉ k.condHead := fun hm =>
    hp.current (List.mem_append_right _ (List.mem_append_right _ hm))
  have hnodup : k.condHead.Nodup :=
    (List.nodup_append.mp (List.nodup_append.mp hp.nodup).2.1).2.1
  have hleave : Agrees k holds (h.leave k.current) :=
    ha.leave hcur rfl fun t _ => kept_of_same (.refl k) rfl rfl
  have hfind := hleave.oldest (c := c)
  unfold History.signal
  cases hw : findOtherThread c k with
  | none =>
    rw [hw] at hfind
    rw [← hfind]
    unfold sysPthreadCondSignal at he
    rw [hw] at he
    cases he
    exact hleave
  | some w =>
    have hmem : w ∈ k.condHead := List.mem_of_find?_eq_some hw
    have hs := signaled_sysPthreadCondSignal hp hi hw he
    rw [hw] at hfind
    rw [← hfind]
    dsimp only
    refine ⟨?_, fun t ht => ?_, fun t x hx => ?_⟩
    · rw [hs.condHead, hs.tiPrivate, ← hleave.queue, List.eraseP_map]
      exact congrArg _ (erase_eq_eraseP_of_find hw)
    · rw [hs.condHead] at ht
      have htw : t ≠ w := by
        rintro rfl
        exact hnodup.not_mem_erase ht
      obtain ⟨n, hk, hx⟩ := hleave.waiting t (List.mem_of_mem_erase ht)
      refine ⟨n, (congrFun hs.kont t).trans hk, ?_⟩
      rw [hs.tiPrivate]
      exact (Function.update_of_ne htw _ _).trans hx
    · by_cases htw : t = w
      · subst htw
        obtain ⟨n, hk, hwait⟩ := hleave.waiting t hmem
        simp only [Function.update_self, hwait] at hx
        cases hx
        refine .woken _ n ?_ ((congrFun hs.kont t).trans hk)
        rw [hs.condHead]
        exact hnodup.not_mem_erase
      · exact (hleave.stage t x ((Function.update_of_ne htw _ _).symm.trans hx)).kept (hs.kept htw)

/-! ## Every step -/

/-- The running thread is in no list. -/
theorem notMem_condHead (h : Placed k) : k.current ∉ k.condHead := fun hm =>
  h.current (List.mem_append_right _ (List.mem_append_right _ hm))

theorem Bounded.entry {e : Entry} (hb : Bounded k) (h : Placed k)
    (hm : ∀ m, unlocked e = some m → -2 ^ 31 < k.val m) (he : Kernel.step k e = some k') :
    Bounded k' := by
  have hsame : Unrelated k e → Bounded k' := fun hu => hb.same (sameWords_step hu he)
  cases e with
  | svc c =>
    have hcall := he
    simp only [Kernel.step, Option.ite_none_right_eq_some] at hcall
    obtain ⟨⟨-, hi, -⟩, hcall⟩ := hcall
    cases c with
    | mutexLock m => exact hb.mutexLock h hcall
    | mutexUnlock m => exact hb.mutexUnlock h.toReady (hm m rfl) hcall
    | condWait c m =>
      have hwait : Bounded (blockOnCond c m k) := fun n => by
        rw [waiters_blockOnCond h]
        exact hb n
      exact hwait.mutexUnlock (h.ready_blockOnCond hi c m) (hm m rfl) hcall
    | _ => exact hsame trivial
  | resume =>
    by_cases hu : ∃ m, k.kont k.current = .condLock m
    · obtain ⟨m, hk⟩ := hu
      have hi : k.current ≠ k.idle := by
        intro hidle
        rw [hidle, h.konts.idle.1] at hk
        cases hk
      simp only [Kernel.step, resume, hk] at he
      exact Bounded.mutexLock (k := setKont k.current .user k) hb (h.setKont hi .user) he
    · exact hsame fun m hk => hu ⟨m, hk⟩
  | _ => exact hsame trivial

theorem safe_of_counts {e : Entry} (hb : Bounded k) (h : Placed k)
    (hm : ∀ m, unlocked e = some m → -2 ^ 31 < k.val m) (hs : unlocked e = none → Safe k e) :
    Safe k e := by
  cases hu : unlocked e with
  | none => exact hs hu
  | some m =>
    have hno := hb.not_noBlockingThreads h.toReady (hm m hu)
    cases e with
    | svc c =>
      cases c with
      | condWait c n => cases hu; exact hno
      | _ => trivial
    | _ => cases hu

/-- **History through one entry.** -/
theorem Agrees.entry {e : Entry} {h : History} (ha : Agrees k holds h) (hp : Placed k)
    (he : Kernel.step k e = some k') :
    Agrees k' (entryHolds k holds e) (h.record k.current (.entry e)) := by
  have hcur := notMem_condHead hp
  cases e with
  | svc c =>
    simp only [Kernel.step, Option.ite_none_right_eq_some] at he
    obtain ⟨⟨-, hi, -⟩, he⟩ := he
    cases c with
    | condWait c m => exact ha.condWait hcur he
    | condSignal c => exact ha.condSignal hp hi he
    | _ => exact ha.syscall hcur (by trivial) he
  | resume => exact ha.resume hcur he
  | _ => exact ha.interrupt hcur rfl (by simp) he

end

structure Inv (s : Recorded) : Prop where
  placed : Placed s.kernel
  bounded : Bounded s.kernel
  agrees : Agrees s.kernel s.machine.holds s.history

theorem Inv.entry {s : Machine} {h : History} {e : Entry} {s' : Machine} (hi : Inv ⟨s, h⟩)
    (hm : ∀ m, unlocked e = some m → -2 ^ 31 < s.kernel.val m)
    (hs : unlocked e = none → Safe s.kernel e) (he : s.enter e = some s') :
    Inv ⟨s', h.record s.current (.entry e)⟩ := by
  obtain ⟨k', hk, rfl⟩ := Option.map_eq_some_iff.mp he
  have hsafe := safe_of_counts hi.bounded hi.placed hm hs
  exact ⟨step_placed _ e k' hi.placed hsafe hk, hi.bounded.entry hi.placed hm hk,
    hi.agrees.entry hi.placed hk⟩

section

variable {s s' : Machine} {h : History}

/-- The running thread is in user mode: it may store a word that counts no waiter and
take or give up a mutex. -/
theorem Inv.user {v : Ptr → ℤ} (hi : Inv ⟨s, h⟩) (hk : s'.kernel = { s.kernel with val := v })
    (hv : ∀ m, -2 ^ 31 ≤ v m ∧ v m ≤ waiters m s.kernel)
    (hh : ∀ t m, t ≠ s.current → t ∈ s.holds m → t ∈ s'.holds m) : Inv ⟨s', h.leave s.current⟩ := by
  have hcur : s.kernel.current ∉ s.kernel.condHead := notMem_condHead hi.placed
  have hplaced : Placed s'.kernel := by
    rw [hk]
    exact Pthread.Placed.store hi.placed v
  refine ⟨hplaced, fun m => ?_, ?_⟩
  · show -2 ^ 31 ≤ s'.kernel.val m ∧ s'.kernel.val m ≤ waiters m s'.kernel
    rw [hk]
    exact hv m
  · show Agrees s'.kernel s'.holds _
    rw [hk]
    refine hi.agrees.leave hcur rfl fun t ht => ?_
    exact ⟨Iff.rfl, rfl, rfl, .inl, fun m hm => hh t m ht hm⟩

theorem Inv.ldrex {m : Ptr} {x : ℤ} {eq ne : Pthread.Pc} (hi : Inv ⟨s, h⟩) :
    Inv ⟨s.ldrex m x eq ne, h.leave s.current⟩ :=
  hi.user (v := s.kernel.val) rfl hi.bounded fun _ _ _ hm => hm

theorem Inv.strex {m : Ptr} {x : ℤ} {l : List Thread} {done failed : Pthread.Pc} (hi : Inv ⟨s, h⟩)
    (hx : -2 ^ 31 ≤ x ∧ x ≤ 0) (hl : ∀ t, t ≠ s.current → t ∈ s.holds m → t ∈ l) :
    Inv ⟨s.strex m x l done failed, h.leave s.current⟩ := by
  unfold Machine.strex
  split
  · refine hi.user (v := Function.update s.kernel.val m x) rfl (fun n => ?_) fun t n ht hm => ?_
    · by_cases hn : n = m
      · subst hn
        rw [Function.update_self]
        exact ⟨hx.1, hx.2.trans (Int.natCast_nonneg _)⟩
      · rw [Function.update_of_ne hn]
        exact hi.bounded n
    · show t ∈ Function.update s.holds m l n
      by_cases hn : n = m
      · subst hn
        rw [Function.update_self]
        exact hl t ht hm
      · rw [Function.update_of_ne hn]
        exact hm
  · exact hi.user (v := s.kernel.val) rfl hi.bounded fun _ _ _ hm => hm

theorem Inv.instr (hi : Inv ⟨s, h⟩) (hm : ∀ m, s.pc s.current = .unlockSvc m → -2 ^ 31 < s.kernel.val m)
    (he : s.instr = some s') : Inv ⟨s', h.leave s.current⟩ := by
  have hout : Inv ⟨s.goto .out, h⟩ := ⟨hi.placed, hi.bounded, hi.agrees⟩
  have hlock : ∀ m t, t ≠ s.current → t ∈ s.holds m → t ∈ s.current :: s.holds m :=
    fun _ _ _ hm => List.mem_cons_of_mem _ hm
  unfold Machine.instr at he
  split at he <;> rename_i hpc
  · cases he
  · cases he; exact hi.ldrex
  · cases he; exact hi.strex (by norm_num) (hlock _)
  · exact hout.entry (fun n hn => by cases hn) (fun _ => by trivial) he
  · cases he; exact hi.ldrex
  · cases he; exact hi.strex (by norm_num) (hlock _)
  · cases he; exact hi.ldrex
  · cases he; exact hi.strex (by norm_num) fun t ht hmem => (List.mem_erase_of_ne ht).mpr hmem
  · refine hout.entry (fun n hn => ?_) (fun hn => by cases hn) he
    cases hn
    exact hm _ hpc

end

/-- **One step.** -/
theorem step_inv (s : Recorded) (a : Act) (s' : Recorded) (hi : Inv s) (hc : Counts s.machine a)
    (he : step s a = some s') : Inv s' := by
  obtain ⟨m, hm, rfl⟩ := Option.map_eq_some_iff.mp he
  cases a with
  | call r p =>
    simp only [Pthread.step, Option.ite_none_right_eq_some, Option.some.injEq] at hm
    obtain ⟨-, rfl⟩ := hm
    exact hi.user (v := s.kernel.val) rfl hi.bounded fun _ _ _ hm => hm
  | instr =>
    simp only [Pthread.step, Option.ite_none_right_eq_some] at hm
    exact hi.instr hc hm.2
  | entry e =>
    simp only [Pthread.step, Option.ite_none_right_eq_some] at hm
    exact hi.entry hc.1 hc.2 hm.2
  | exception =>
    cases hm
    exact ⟨hi.placed, hi.bounded, hi.agrees⟩

theorem inv_init (b : Threads) : Inv (init b) := by
  refine ⟨placed_start b _, fun m => ⟨by norm_num [init, Recorded.kernel, Pthread.init, start], ?_⟩, rfl,
    fun t ht => (by cases ht), fun t w hw => (by cases hw)⟩
  show (-1 : ℤ) ≤ waiters m _
  exact le_trans (by norm_num) (Int.natCast_nonneg _)

/-! ## Every run -/

/-- A signal makes the thread that has waited longest ready and moves nobody else. -/
def WakesOldest (c : Ptr) (s s' : Recorded) : Prop :=
  match s.history.oldest c with
  | none => s'.kernel = s.kernel
  | some w =>
    s'.kernel.condHead = s.kernel.condHead.erase w ∧ s'.kernel.mutexHead = s.kernel.mutexHead ∧
      s'.kernel.tiPrivate = s.kernel.tiPrivate ∧
      ∀ v ∈ s.kernel.mutexHead ++ s.kernel.condHead, IsReady s'.kernel v ↔ v = w

/-- The threads that wait for a signal are the ones on `cond_head`, in the order in
which they came, and none of them can run. -/
def Registered (s : Recorded) : Prop :=
  s.kernel.condHead.map (fun t => (t, s.kernel.tiPrivate t)) = s.history.queue ∧
    (∀ t c m, s.history.waits t = some ⟨c, m, false⟩ → (t, c) ∈ s.history.queue) ∧
    ∀ x ∈ s.history.queue, ¬ IsReady s.kernel x.1

/-- A thread that has returned from its call was signaled and holds the mutex. -/
def ReturnsLocked (s : Recorded) : Prop :=
  s.kernel.threadMode → ∀ w, s.history.waits s.kernel.current = some w →
    w.signaled = true ∧ s.kernel.current ∈ s.machine.holds w.mutex

theorem Inv.registered {s : Recorded} (h : Inv s) : Registered s := by
  refine ⟨h.agrees.queue, fun t c m hw => ?_, fun x hx => ?_⟩
  · cases h.agrees.stage t _ hw with
    | suspended _ _ hc =>
      obtain ⟨n, -, hw'⟩ := h.agrees.waiting t hc
      have hpriv : s.kernel.tiPrivate t = c := by
        rw [hw] at hw'
        exact (congrArg Wait.cond (Option.some.inj hw')).symm
      rw [← h.agrees.queue, ← hpriv]
      exact List.mem_map_of_mem hc
  · rw [← h.agrees.queue] at hx
    obtain ⟨t, ht, rfl⟩ := List.mem_map.mp hx
    exact not_isReady_of_wait h.placed (List.mem_append_right _ ht)

theorem Inv.returnsLocked {s : Recorded} (h : Inv s) : ReturnsLocked s := by
  intro hmode w hw
  have hkont : s.kernel.kont s.kernel.current = .user := hmode
  cases h.agrees.stage _ w hw with
  | suspended c m hc => exact absurd hc (notMem_condHead h.placed)
  | woken c m hc hk => rw [hkont] at hk; cases hk
  | locking c m hc hk hm _ =>
    exact absurd (List.mem_append_right _ (List.mem_append_left _ hm)) h.placed.current
  | locked c m hc hk hm => exact ⟨rfl, hm⟩

theorem Inv.wakesOldest {s s' : Recorded} {c : Ptr} (h : Inv s) (h' : Inv s')
    (he : step s (.entry (.svc (.condSignal c))) = some s') : WakesOldest c s s' := by
  obtain ⟨p, hp, rfl⟩ := Option.map_eq_some_iff.mp he
  simp only [Pthread.step, Option.ite_none_right_eq_some] at hp
  obtain ⟨k, hk, rfl⟩ := Option.map_eq_some_iff.mp hp.2
  simp only [Kernel.step, Option.ite_none_right_eq_some] at hk
  obtain ⟨⟨-, hi, -⟩, hk⟩ := hk
  have hfind := h.agrees.oldest (c := c)
  unfold WakesOldest
  cases hw : s.history.oldest c with
  | none =>
    rw [hw] at hfind
    simp only [syscall, sysPthreadCondSignal, show findOtherThread c s.machine.kernel = none from hfind] at hk
    exact (Option.some.inj hk).symm
  | some w =>
    rw [hw] at hfind
    have hs := signaled_sysPthreadCondSignal h.placed hi hfind hk
    refine ⟨hs.condHead, hs.mutexHead, hs.tiPrivate, fun v hv => ⟨fun hready => ?_, ?_⟩⟩
    · by_contra hvw
      refine not_isReady_of_wait h'.placed ?_ hready
      show v ∈ k.mutexHead ++ k.condHead
      rw [hs.condHead, hs.mutexHead, List.mem_append, List.mem_erase_of_ne hvw]
      exact List.mem_append.mp hv
    · rintro rfl
      exact hs.ready

/-- **No lost wake-up.** In every state of a run the threads that wait for a signal
are exactly those on `cond_head`, in order, and they are suspended; the call that
registers a thread suspends it. A signal wakes the one that has waited longest, and
a thread returns from its call signaled and with the mutex. -/
theorem runs_lose_no_wakeup (b : Threads) (as : List Act)
    (hc : ∀ x ∈ trace step (init b) as, Counts x.pre.machine x.act) :
    ∀ x ∈ trace step (init b) as,
      Registered x.post ∧ ReturnsLocked x.post ∧
      (∀ c, x.act = .entry (.svc (.condSignal c)) → WakesOldest c x.pre x.post) ∧
      (∀ c m, x.act = .entry (.svc (.condWait c m)) →
        (x.pre.kernel.current, c) ∈ x.post.history.queue ∧
          x.post.kernel.current ≠ x.pre.kernel.current) := by
  intro x hx
  obtain ⟨hpre, hpost⟩ := trace_invariant step_inv (inv_init b) hc x hx
  have hstep := step_of_mem_trace hx
  have hreg := hpost.registered
  refine ⟨hreg, hpost.returnsLocked, fun c ha => ?_, fun c m ha => ?_⟩
  · rw [ha] at hstep
    exact hpre.wakesOldest hpost hstep
  · rw [ha] at hstep
    obtain ⟨p, -, hp⟩ := Option.map_eq_some_iff.mp hstep
    have hmem : (x.pre.kernel.current, c) ∈ x.post.history.queue := by
      rw [← hp]
      exact List.mem_append_right _ List.mem_cons_self
    exact ⟨hmem, fun hcur => hreg.2.2 _ hmem (.inr hcur.symm)⟩

/-- The main thread waits for condition 4 with mutex 8; the thread it created signals. -/
def signaled : List Act :=
  [.entry (.svc (.condWait 4 8)), .entry (.svc (.condSignal 4)), .entry .resume]

theorem runs_lose_no_wakeup_signaled :
    (∀ x ∈ trace step (init threads)
        ([.entry (.svc (.create (some 3))), .entry (.svc (.mutexLock 8))] ++ signaled),
      Counts x.pre.machine x.act) ∧
    ∃ s, run step (init threads)
        ([.entry (.svc (.create (some 3))), .entry (.svc (.mutexLock 8))] ++ signaled) = some s ∧
      s.kernel.current = 1 ∧ 1 ∈ s.machine.holds 8 := by
  obtain ⟨s, hs, hval⟩ : ∃ s, run step (init threads)
      [.entry (.svc (.create (some 3))), .entry (.svc (.mutexLock 8))] = some s ∧
      -2 ^ 31 < s.kernel.val 8 := ⟨_, rfl, by decide +kernel⟩
  have hc : ∀ x ∈ trace step (init threads)
      ([.entry (.svc (.create (some 3))), .entry (.svc (.mutexLock 8))] ++ signaled),
      Counts x.pre.machine x.act := by
    intro x hx
    rw [trace_append hs] at hx
    rcases List.mem_append.mp hx with hx | hx
    · have ha := act_mem_of_mem_trace hx
      rcases List.mem_pair.mp ha with ha | ha <;> rw [ha] <;>
        exact ⟨fun m hm => (nomatch hm), fun _ => trivial⟩
    · cases ht : step s (.entry (.svc (.condWait 4 8))) with
      | none => rw [signaled, trace_cons_none ht] at hx; cases hx
      | some t =>
        rw [signaled, trace_cons_some ht] at hx
        rcases List.mem_cons.mp hx with rfl | hx
        · refine ⟨fun m hm => ?_, fun hn => by cases hn⟩
          cases hm
          exact hval
        · have ha := act_mem_of_mem_trace hx
          rcases List.mem_pair.mp ha with ha | ha <;> rw [ha] <;>
            exact ⟨fun m hm => (nomatch hm), fun _ => trivial⟩
  refine ⟨hc, ?_⟩
  obtain ⟨u, u', hu, hstep, hmode, hcur, hwaits⟩ : ∃ u u', run step (init threads)
      [.entry (.svc (.create (some 3))), .entry (.svc (.mutexLock 8)),
        .entry (.svc (.condWait 4 8)), .entry (.svc (.condSignal 4))] = some u ∧
      step u (.entry .resume) = some u' ∧ u'.kernel.threadMode ∧ u'.kernel.current = 1 ∧
      u'.history.waits 1 = some ⟨4, 8, true⟩ :=
    ⟨_, _, rfl, rfl, by decide +kernel, by decide +kernel, by decide +kernel⟩
  have hmem : ⟨u, .entry .resume, u'⟩ ∈ trace step (init threads)
      ([.entry (.svc (.create (some 3))), .entry (.svc (.mutexLock 8))] ++ signaled) :=
    mem_trace_of_run hu hstep
  have hret := (runs_lose_no_wakeup threads _ hc _ hmem).2.1 hmode ⟨4, 8, true⟩ (by rw [hcur]; exact hwaits)
  refine ⟨u', ?_, hcur, hcur ▸ hret.2⟩
  have hrun : run step (init threads) ([.entry (.svc (.create (some 3))), .entry (.svc (.mutexLock 8)),
      .entry (.svc (.condWait 4 8)), .entry (.svc (.condSignal 4))] ++ [.entry .resume]) = _ :=
    run_append (init threads) _ _
  rw [hu] at hrun
  exact hrun.trans (by rw [Option.bind_some, run_cons, hstep]; rfl)

end PikoRT.Sync.Cond

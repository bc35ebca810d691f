import PikoRT.Sync.Kernel

/-! # What an entry writes

Said once for each call: which fields of the system it writes and what they are
afterwards. The scheduler is left open here, for an entry that ends in
`sched_elect` may move any thread; the lists of the scheduler have lemmas of
their own. An argument about anything else is then a case analysis over what is
written. -/
namespace PikoRT.Sync.Effect
open PikoRT.Kernel.Bitmap
open PikoRT.Sched.Model hiding step
open PikoRT.Sync.Kernel

variable {k k' p : System} {m : Ptr}

/-! ## The scheduler moves threads -/

/-- `k'` is `p` but for the scheduler. -/
def Moves (p k' : System) : Prop := ∃ s, k' = { p with sched := s }

theorem Moves.refl (p : System) : Moves p p := ⟨p.sched, rfl⟩

theorem moves_elect {flags : SchedOpt} (he : elect flags p = some k') : Moves p k' := by
  obtain ⟨s, -, rfl⟩ := Option.map_eq_some_iff.mp he
  exact ⟨s, rfl⟩

theorem moves_reschedule {w : Option Thread} (he : reschedule w p = some k') : Moves p k' := by
  unfold reschedule at he
  split at he
  · exact moves_elect he
  · cases w with
    | none => cases he; exact .refl _
    | some w =>
      dsimp only at he
      split at he
      · obtain ⟨s, rfl⟩ := moves_elect he
        exact ⟨s, rfl⟩
      · cases he; exact .refl _

/-! ## The calls -/

/-- `sys_pthread_mutex_lock` takes the mutex, or the caller waits for it. -/
inductive Locks (m : Ptr) (p : System) : System → Prop
  | takes : Locks m p (addVal m 1 p)
  | waits (s : State) : Locks m p { blockOnMutex m (addVal m 1 p) with sched := s }

/-- `sys_pthread_mutex_unlock` wakes nobody, or one waiter. -/
inductive Unlocks (m : Ptr) (p : System) : System → Prop
  | wakesNone (s : State) : Unlocks m p { addVal m (-1) p with sched := s }
  | wakes (w : Thread) (s : State) : Unlocks m p { wakeWaiter w (addVal m (-1) p) with sched := s }

/-- `serialchar_read` waits for the device, or reads a character. -/
inductive Reads (p : System) : System → Prop
  | waits (count : ℕ) (s : State) : Reads p { setKont p.current (.serialRead count) p with sched := s }
  | returns : Reads p (setKont p.current .user (stm32Getc p))

inductive Calls (k : System) : Syscall → System → Prop
  | yields (s : State) : Calls k .yield { k with sched := s }
  | createFails : Calls k (.create none) k
  | creates (t : Thread) (s : State) : Calls k (.create (some t)) { threadCreate t k with sched := s }
  | exitsFreed (s : State) (hd : k.tiDetached k.current = true) :
      Calls k .exit { k with life := Function.update k.life k.current .free, sched := s }
  | exitsJoined (j : Thread) (s : State) (hd : k.tiDetached k.current = false)
      (hj : k.tiJoining k.current = some j) :
      Calls k .exit { k with life := Function.update k.life k.current .exited, sched := s }
  | exitsJoinable (s : State) (hd : k.tiDetached k.current = false) (hj : k.tiJoining k.current = none) :
      Calls k .exit { k with
        life := Function.update k.life k.current .exited
        tiJoinable := Function.update k.tiJoinable k.current true
        sched := s }
  | joinFails (other : Thread) : Calls k (.join other) k
  | joins (other : Thread) (s : State) (hfind : findThread other k = true)
      (hnone : k.tiJoining other = none) :
      Calls k (.join other) { setKont k.current (.joinRet other)
        { k with tiJoining := Function.update k.tiJoining other (some k.current) } with sched := s }
  | detaches (other : Thread) :
      Calls k (.detach other) { k with tiDetached := Function.update k.tiDetached other true }
  | locks (m : Ptr) {k' : System} (h : Locks m k k') : Calls k (.mutexLock m) k'
  | unlocks (m : Ptr) {k' : System} (h : Unlocks m k k') : Calls k (.mutexUnlock m) k'
  | condWaits (c m : Ptr) {k' : System} (h : Unlocks m (blockOnCond c m k) k') : Calls k (.condWait c m) k'
  | signalsNone (c : Ptr) (hw : findOtherThread c k = none) : Calls k (.condSignal c) k
  | signals (c : Ptr) (w : Thread) (s : State) (hw : findOtherThread c k = some w) :
      Calls k (.condSignal c) { k with condHead := k.condHead.erase w, sched := s }
  | msleepFails (alloc : Bool) (msec : ℕ) : Calls k (.msleep alloc msec) k
  | sleeps (alloc : Bool) (msec : ℕ) (s : State) :
      Calls k (.msleep alloc msec)
        { setKont k.current .timerFree { k with timers := k.current :: k.timers } with sched := s }
  | opens : Calls k .serialOpen (serialcharOpen k)
  | reads (count : ℕ) {k' : System} (h : Reads k k') : Calls k (.serialRead count) k'

theorem sysPthreadMutexLock_locks (he : sysPthreadMutexLock m p = some k') : Locks m p k' := by
  unfold sysPthreadMutexLock at he
  dsimp only at he
  split at he
  · cases he; exact .takes
  · obtain ⟨s, rfl⟩ := moves_elect he
    exact .waits s

/-- What `sys_pthread_mutex_unlock` does: it complains, it wakes nobody, or it
wakes the first waiter. -/
theorem sysPthreadMutexUnlock_cases (he : sysPthreadMutexUnlock m k = some k') :
    (noBlockingThreads m k ∧ k' = addVal m (-1) k) ∨
    (wrap32 (k.val m - 1) < 0 ∧ reschedule none (addVal m (-1) k) = some k') ∨
    (∃ w, 0 ≤ wrap32 (k.val m - 1) ∧ findFirstBlockingThread m k = some w ∧
      reschedule (some w) (wakeWaiter w (addVal m (-1) k)) = some k') := by
  have hval : (addVal m (-1) k).val m = wrap32 (k.val m - 1) := by
    simp [addVal, sub_eq_add_neg]
  unfold sysPthreadMutexUnlock at he
  simp only [hval] at he
  split at he
  · rename_i hge
    have hfind : findFirstBlockingThread m (addVal m (-1) k) = findFirstBlockingThread m k := rfl
    rw [hfind] at he
    cases hf : findFirstBlockingThread m k with
    | none =>
      rw [hf] at he
      exact .inl ⟨⟨hge, hf⟩, (Option.some.inj he).symm⟩
    | some w =>
      rw [hf] at he
      exact .inr (.inr ⟨w, hge, rfl, he⟩)
  · rename_i hlt
    exact .inr (.inl ⟨not_le.mp hlt, he⟩)

theorem sysPthreadMutexUnlock_unlocks (he : sysPthreadMutexUnlock m p = some k') : Unlocks m p k' := by
  rcases sysPthreadMutexUnlock_cases he with ⟨-, rfl⟩ | ⟨-, hr⟩ | ⟨w, -, -, hr⟩
  · exact .wakesNone p.sched
  · obtain ⟨s, rfl⟩ := moves_reschedule hr
    exact .wakesNone s
  · obtain ⟨s, rfl⟩ := moves_reschedule hr
    exact .wakes w s

theorem serialcharRead_reads {count : ℕ} (he : serialcharRead count p = some k') : Reads p k' := by
  unfold serialcharRead at he
  split at he
  · obtain ⟨s, rfl⟩ := moves_elect he
    exact .waits count s
  · split at he
    · cases he; exact .returns
    · cases he

theorem sysPthreadCondSignal_calls {c : Ptr} (he : sysPthreadCondSignal c k = some k') :
    Calls k (.condSignal c) k' := by
  unfold sysPthreadCondSignal at he
  split at he
  · rename_i hw
    cases he
    exact .signalsNone c hw
  · rename_i w hw
    dsimp only at he
    split at he
    · obtain ⟨s, rfl⟩ := moves_elect he
      exact .signals c w s hw
    · cases he; exact .signals c w _ hw

theorem sysPthreadExit_calls (he : sysPthreadExit k = some k') : Calls k .exit k' := by
  unfold sysPthreadExit exitThread at he
  split at he
  · rename_i hd
    cases hj : k.tiJoining k.current with
    | some j =>
      rw [hj] at he
      obtain ⟨s, rfl⟩ := moves_elect he
      exact .exitsJoined j s hd hj
    | none =>
      rw [hj] at he
      obtain ⟨s, rfl⟩ := moves_elect he
      exact .exitsJoinable s hd hj
  · rename_i hd
    obtain ⟨s, rfl⟩ := moves_elect he
    exact .exitsFreed s (by simpa using hd)

theorem sysPthreadJoin_calls {other : Thread} (he : sysPthreadJoin other k = some k') :
    Calls k (.join other) k' := by
  unfold sysPthreadJoin at he
  split at he
  · cases he; exact .joinFails other
  rename_i hfind
  split at he
  · cases he; exact .joinFails other
  split at he
  · cases he; exact .joinFails other
  split at he
  · cases he; exact .joinFails other
  · rename_i hnone
    obtain ⟨s, rfl⟩ := moves_elect he
    exact .joins other s (by simpa using hfind) (by simpa using hnone)

theorem syscall_calls {c : Syscall} (he : syscall k c = some k') : Calls k c k' := by
  cases c with
  | yield =>
    obtain ⟨s, rfl⟩ := moves_elect he
    exact .yields s
  | create page =>
    cases page with
    | none => cases he; exact .createFails
    | some t => cases he; exact .creates t _
  | exit => exact sysPthreadExit_calls he
  | join other => exact sysPthreadJoin_calls he
  | detach other =>
    simp only [syscall, sysPthreadDetach] at he
    split at he
    · cases he; exact .detaches other
    · cases he
  | mutexLock m => exact .locks m (sysPthreadMutexLock_locks he)
  | mutexUnlock m => exact .unlocks m (sysPthreadMutexUnlock_unlocks he)
  | condWait c m => exact .condWaits c m (sysPthreadMutexUnlock_unlocks he)
  | condSignal c => exact sysPthreadCondSignal_calls he
  | msleep alloc msec =>
    simp only [syscall, sysMsleep] at he
    split at he
    · cases he; exact .msleepFails alloc msec
    · split at he
      · cases he
      · obtain ⟨s, rfl⟩ := moves_elect he
        exact .sleeps alloc msec s
  | serialOpen => cases he; exact .opens
  | serialRead count => exact .reads count (serialcharRead_reads he)

/-! ## The entries -/

inductive Enters (k : System) : Entry → System → Prop
  | calls (c : Syscall) {k' : System} (h : Calls k c k') : Enters k (.svc c) k'
  | condLocks (m : Ptr) {k' : System} (hk : k.kont k.current = .condLock m)
      (h : Locks m (setKont k.current .user k) k') : Enters k .resume k'
  | reads {k' : System} (h : Reads k k') : Enters k .resume k'
  | returns : Enters k .resume (setKont k.current .user k)
  | ticks (s : State) : Enters k .pendsv { k with sched := s }
  | leaves : Enters k .softirqdLeave { k with softirqRun := false }
  | raises (nr : ℕ) (b : Bool) (s : State) : Enters k (.raiseSoftirq nr) { k with softirqRun := b, sched := s }
  | expires (t : Thread) (s : State) :
      Enters k (.timerExpire t) { k with timers := k.timers.erase t, sched := s }
  | receives (s : State) : Enters k .uart { received k with sched := s }

/-- What an entry writes. -/
theorem step_enters {e : Entry} (he : step k e = some k') : Enters k e k' := by
  cases e with
  | svc c =>
    simp only [step, Option.ite_none_right_eq_some] at he
    exact .calls c (syscall_calls he.2)
  | resume =>
    simp only [step, resume] at he
    split at he
    · cases he
    · rename_i m hk
      exact .condLocks m hk (sysPthreadMutexLock_locks he)
    · exact .reads (serialcharRead_reads he)
    · cases he; exact .returns
    · cases he; exact .returns
  | pendsv =>
    simp only [step, Option.ite_none_right_eq_some] at he
    obtain ⟨s, rfl⟩ := moves_elect he.2
    exact .ticks s
  | softirqdLeave =>
    simp only [step, softirqdLeave, Option.ite_none_right_eq_some] at he
    obtain ⟨-, -, he⟩ := he
    cases he
    exact .leaves
  | raiseSoftirq nr =>
    cases he
    unfold raiseSoftirq
    split
    · exact .raises nr k.softirqRun k.sched
    · split
      · exact .raises nr true _
      · exact .raises nr k.softirqRun k.sched
  | timerExpire t =>
    simp only [step, timerExpire, Option.ite_none_right_eq_some] at he
    obtain ⟨-, he⟩ := he
    cases he
    exact .expires t _
  | uart =>
    cases he
    unfold uartIsr
    split
    · exact .receives _
    · exact .receives k.sched

end PikoRT.Sync.Effect

import PikoRT.Sched.RunQueue

/-! # Threads, wait lists and kernel entries

The calls that move a thread between the run queues and the wait lists:
`kernel/thread.c`, `kernel/mutex.c`, `kernel/cond.c`, `kernel/time.c`,
`kernel/softirq.c` and `drivers/serial/serialchar.c`. One node `ti_q` serves all
these lists.

A call that blocks ends in `sched_elect`; what it does once the thread runs again
is kept as a continuation. An entry runs up to there without interruption by
another one, and interrupts come between entries. What a call returns to the user
is left out. -/
namespace PikoRT.Sync.Kernel
open PikoRT.Kernel.Bitmap PikoRT.Lib.PrioQueue PikoRT.Sched.Model PikoRT.Sched.RunQueue

/-- An address in user memory: a mutex or a condition variable. -/
abbrev Ptr := BitVec 32

/-- The rest of a call that a thread has left through `sched_elect`: nothing but
the return, `sys_pthread_mutex_lock` in `sys_pthread_cond_wait`, the loop of
`serialchar_read`, `timer_free` in `sys_msleep`, or the read of the other
thread's result in `thread_join`. -/
inductive Kont where
  | user
  | condLock (mutex : Ptr)
  | serialRead (count : ℕ)
  | timerFree
  | joinRet (other : Thread)
  deriving DecidableEq, Repr

/-- The page of a thread is free, the thread lives, or it has exited and its page
is kept. -/
inductive Life where
  | free
  | live
  | exited
  deriving DecidableEq, Repr

structure System where
  sched : State
  mutexHead : List Thread
  condHead : List Thread
  tiPrivate : Thread → Ptr
  val : Ptr → ℤ
  life : Thread → Life
  tiJoining : Thread → Option Thread
  tiJoinable : Thread → Bool
  tiDetached : Thread → Bool
  kont : Thread → Kont
  /-- The owners of the armed timers of `sys_msleep`. -/
  timers : List Thread
  threadSoftirqd : Thread
  softirqRun : Bool
  /-- `serial->owner`, once `serialchar_open` has set it and the callback. -/
  serialOwner : Option Thread
  rxCount : ℕ

namespace System

def current (k : System) : Thread := k.sched.current

def idle (k : System) : Thread := k.sched.threadIdle

/-- The nodes linked into a list, list by list. -/
def linked (k : System) : List Thread := queued k.sched ++ (k.mutexHead ++ k.condHead)

/-- The thread that runs is past its call, so control is in thread mode. -/
def threadMode (k : System) : Prop := k.kont k.current = .user

instance (k : System) : Decidable k.threadMode := inferInstanceAs (Decidable (_ = _))

end System

/-- The value of a 32-bit counter. -/
def wrap32 (x : ℤ) : ℤ := x.bmod (2 ^ 32)

/-! ## The scheduler -/

def enqueue (t : Thread) (k : System) : System := { k with sched := schedEnqueue t k.sched }

def elect (flags : SchedOpt) (k : System) : Option System :=
  (schedElect flags k.sched).map fun s => { k with sched := s }

def setKont (t : Thread) (x : Kont) (k : System) : System :=
  { k with kont := Function.update k.kont t x }

/-- `ti_private` and `THREAD_STATE_BLOCKED` of the running thread. -/
def block (p : Ptr) (k : System) : System :=
  { k with
    tiPrivate := Function.update k.tiPrivate k.current p
    sched := setState k.current .blocked k.sched }

def sysPthreadYield (k : System) : Option System := elect .none (enqueue k.current k)

/-! ## Threads -/

def threadCreate (t : Thread) (k : System) : System :=
  { k with
    sched := { k.sched with info := Function.update k.sched.info t ⟨.start, priMin, .new⟩ }
    life := Function.update k.life t .live
    tiJoining := Function.update k.tiJoining t none
    tiJoinable := Function.update k.tiJoinable t false
    tiDetached := Function.update k.tiDetached t false }

/-- `sys_pthread_create`, with the page that `alloc_pages` returns. -/
def sysPthreadCreate (page : Option Thread) (k : System) : Option System :=
  match page with
  | none => some k
  | some t => some (enqueue t (threadCreate t k))

/-- `thread_exit` up to its `sched_elect`. -/
def exitThread (k : System) : System :=
  if k.tiDetached k.current = false then
    let k' := { k with life := Function.update k.life k.current .exited }
    match k.tiJoining k.current with
    | some other => enqueue other k'
    | none => { k' with tiJoinable := Function.update k'.tiJoinable k.current true }
  else { k with life := Function.update k.life k.current .free }

def sysPthreadExit (k : System) : Option System := elect .restoreOnly (exitThread k)

/-- What the search of `find_thread_by_id` comes to: it finds the threads of the user's
task, as long as none of them has freed its page (`TaskList` has the list itself). -/
def findThread (other : Thread) (k : System) : Bool :=
  decide (k.life other ≠ .free ∧ other ≠ k.idle ∧ other ≠ k.threadSoftirqd)

def sysPthreadJoin (other : Thread) (k : System) : Option System :=
  if findThread other k = false then some k
  else if k.tiDetached other = true then some k
  else if k.tiJoinable other = true then some k
  else if (k.tiJoining other).isSome then some k
  else elect .none (setKont k.current (.joinRet other)
    { k with tiJoining := Function.update k.tiJoining other (some k.current) })

def sysPthreadDetach (other : Thread) (k : System) : Option System :=
  if findThread other k then
    some { k with tiDetached := Function.update k.tiDetached other true }
  else none

/-! ## Mutexes and condition variables -/

def addVal (mutex : Ptr) (d : ℤ) (k : System) : System :=
  { k with val := Function.update k.val mutex (wrap32 (k.val mutex + d)) }

def blockOnMutex (mutex : Ptr) (k : System) : System :=
  { block mutex k with mutexHead := k.mutexHead ++ [k.current] }

def sysPthreadMutexLock (mutex : Ptr) (k : System) : Option System :=
  let k := addVal mutex 1 k
  if k.val mutex = 0 then some k else elect .none (blockOnMutex mutex k)

def findFirstBlockingThread (mutex : Ptr) (k : System) : Option Thread :=
  k.mutexHead.find? fun t => decide (k.tiPrivate t = mutex)

/-- `list_del` of the waiter, then `sched_enqueue`. -/
def wakeWaiter (waiter : Thread) (k : System) : System :=
  enqueue waiter { k with mutexHead := k.mutexHead.erase waiter }

/-- The end of `sys_pthread_mutex_unlock`. -/
def reschedule (waiter : Option Thread) (k : System) : Option System :=
  if (k.sched.info k.current).tiState = .blocked then elect .none k
  else match waiter with
    | some w =>
      if (k.sched.info k.current).tiPriority ≤ (k.sched.info w).tiPriority then
        elect .none (enqueue k.current k)
      else some k
    | none => some k

/-- The mutex counts a waiter and no thread waits: `sys_pthread_mutex_unlock`
complains and returns -1. -/
def noBlockingThreads (mutex : Ptr) (k : System) : Prop :=
  0 ≤ wrap32 (k.val mutex - 1) ∧ findFirstBlockingThread mutex k = none

def sysPthreadMutexUnlock (mutex : Ptr) (k : System) : Option System :=
  let k := addVal mutex (-1) k
  if 0 ≤ k.val mutex then
    match findFirstBlockingThread mutex k with
    | none => some k
    | some w => reschedule (some w) (wakeWaiter w k)
  else reschedule none k

/-- `sys_pthread_cond_wait` up to the unlock; the lock is left as a continuation. -/
def blockOnCond (cond mutex : Ptr) (k : System) : System :=
  setKont k.current (.condLock mutex) { block cond k with condHead := k.condHead ++ [k.current] }

def sysPthreadCondWait (cond mutex : Ptr) (k : System) : Option System :=
  sysPthreadMutexUnlock mutex (blockOnCond cond mutex k)

def findOtherThread (cond : Ptr) (k : System) : Option Thread :=
  k.condHead.find? fun t => decide (k.tiPrivate t = cond)

def sysPthreadCondSignal (cond : Ptr) (k : System) : Option System :=
  match findOtherThread cond k with
  | none => some k
  | some other =>
    let k := enqueue other { k with condHead := k.condHead.erase other }
    if (k.sched.info k.current).tiPriority ≤ (k.sched.info other).tiPriority then
      elect .none (enqueue k.current k)
    else some k

/-! ## Sleep, softirq, serial device -/

/-- `sys_msleep`; `sched_dequeue` of the running thread does nothing. Without
memory for a timer nothing happens. A delay of zero makes `timer_set` unlink a
timer that was never linked. -/
def sysMsleep (alloc : Bool) (msec : ℕ) (k : System) : Option System :=
  if alloc = false then some k
  else if msec = 0 then none
  else elect .none (setKont k.current .timerFree { k with timers := k.current :: k.timers })

/-- `msleep_callback` of a timer that has expired. -/
def timerExpire (owner : Thread) (k : System) : Option System :=
  if k.timers.contains owner then some (enqueue owner { k with timers := k.timers.erase owner }) else none

/-- `NR_SOFTIRQS` is 1. -/
def raiseSoftirq (nr : ℕ) (k : System) : System :=
  if 1 ≤ nr then k
  else if k.softirqRun = false then { enqueue k.threadSoftirqd k with softirqRun := true }
  else k

/-- `softirqd` met a tasklet without a function and leaves its loop. -/
def softirqdLeave (k : System) : Option System :=
  if k.current = k.threadSoftirqd then some { k with softirqRun := false } else none

def serialcharOpen (k : System) : System := { k with serialOwner := some k.current }

/-- `rx_count` is an `unsigned int`. -/
def stm32Getc (k : System) : System :=
  { k with rxCount := if k.rxCount = 0 then 2 ^ 32 - 1 else k.rxCount - 1 }

/-- The loop of `serialchar_read`, and the end of it: `stm32_ops` has `serial_getc`
and no `serial_gets`. -/
def serialcharRead (count : ℕ) (k : System) : Option System :=
  if k.rxCount < count then elect .none (setKont k.current (.serialRead count) k)
  else if count = 1 then
    some (setKont k.current .user (stm32Getc k))
  else none

def received (k : System) : System := { k with rxCount := (k.rxCount + 1) % 2 ^ 32 }

/-- `stm32_uartx_isr`, and through it `serialchar_callback`. -/
def uartIsr (k : System) : System :=
  match k.serialOwner with
  | some owner => enqueue owner (received k)
  | none => received k

/-! ## Entries -/

/-- The rest of the call of the thread that has just been elected. -/
def resume (k : System) : Option System :=
  match k.kont k.current with
  | .user => none
  | .condLock mutex => sysPthreadMutexLock mutex (setKont k.current .user k)
  | .serialRead count => serialcharRead count k
  | .timerFree => some (setKont k.current .user k)
  | .joinRet _ => some (setKont k.current .user k)

inductive Syscall where
  | yield
  | create (page : Option Thread)
  | exit
  | join (other : Thread)
  | detach (other : Thread)
  | mutexLock (mutex : Ptr)
  | mutexUnlock (mutex : Ptr)
  | condWait (cond mutex : Ptr)
  | condSignal (cond : Ptr)
  | msleep (alloc : Bool) (msec : ℕ)
  | serialOpen
  | serialRead (count : ℕ)
  deriving DecidableEq, Repr

def syscall (k : System) : Syscall → Option System
  | .yield => sysPthreadYield k
  | .create page => sysPthreadCreate page k
  | .exit => sysPthreadExit k
  | .join other => sysPthreadJoin other k
  | .detach other => sysPthreadDetach other k
  | .mutexLock mutex => sysPthreadMutexLock mutex k
  | .mutexUnlock mutex => sysPthreadMutexUnlock mutex k
  | .condWait cond mutex => sysPthreadCondWait cond mutex k
  | .condSignal cond => sysPthreadCondSignal cond k
  | .msleep alloc msec => sysMsleep alloc msec k
  | .serialOpen => some (serialcharOpen k)
  | .serialRead count => serialcharRead count k

inductive Entry where
  | svc (c : Syscall)
  | resume
  | pendsv
  | softirqdLeave
  | raiseSoftirq (nr : ℕ)
  | timerExpire (owner : Thread)
  | uart
  deriving DecidableEq, Repr

/-- The page that `alloc_pages` returns is free. -/
def validPage (k : System) : Syscall → Bool
  | .create (some t) => decide (k.life t = .free)
  | _ => true

/-- Calls come from thread mode, as does the tick (`PendSV` has the priority of
`SVCall`); the idle thread makes no calls. The other entries come at any time. -/
def step (k : System) : Entry → Option System
  | .svc c =>
    if k.threadMode ∧ k.current ≠ k.idle ∧ validPage k c then syscall k c else none
  | .resume => resume k
  | .pendsv => if k.threadMode then elect .tick k else none
  | .softirqdLeave => if k.threadMode then softirqdLeave k else none
  | .raiseSoftirq nr => some (raiseSoftirq nr k)
  | .timerExpire owner => timerExpire owner k
  | .uart => some (uartIsr k)

/-- The threads that `start_kernel` creates. -/
structure Threads where
  idle : Thread
  main : Thread
  softirqd : Thread
  distinct : [idle, main, softirqd].Nodup

/-- The state in which the main thread starts; the memory of the user holds
anything. -/
def start (b : Threads) (val : Ptr → ℤ) : System where
  sched := threadSetPriority b.softirqd priMax (boot b.idle b.main)
  mutexHead := []
  condHead := []
  tiPrivate := fun _ => 0
  val := val
  life := fun t => if t = b.idle ∨ t = b.main ∨ t = b.softirqd then .live else .free
  tiJoining := fun _ => none
  tiJoinable := fun _ => false
  tiDetached := fun _ => false
  kont := fun _ => .user
  timers := []
  threadSoftirqd := b.softirqd
  softirqRun := false
  serialOwner := none
  rxCount := 0

end PikoRT.Sync.Kernel

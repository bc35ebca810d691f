import PikoRT.Kernel.Bitmap
import PikoRT.Lib.Run

/-! # The bitmap scheduler (`kernel/sched.c`, `kernel/sched/bitmap.c`)

Threads wait in two arrays of 32 queues, `active` and `expire`, which trade
places when `active` has run dry. A thread carries a label that says in which
array it is, and the meaning of the two ready labels is swapped with the arrays:
`THREAD_SCHED_STATE` is a static array of `thread.h`, so `sched.c` and
`bitmap.c` have one each, and only the one of `bitmap.c` is ever swapped. -/
namespace PikoRT.Sched.Model
open PikoRT.Kernel.Bitmap

/-- A `struct thread_info *`: the number of the 512-byte block of the interrupt
stack at whose bottom the structure lies. -/
abbrev Thread := BitVec 23

inductive ThreadState where
  | new
  | ready1
  | ready2
  | running
  | terminated
  | blocked
  deriving DecidableEq, Repr

/-- `SCHED_OPT_*`. -/
inductive SchedOpt where
  | none
  | restoreOnly
  | reset
  | tick
  deriving DecidableEq, Repr

/-- Where the context that `ti_mach` points to continues: with the exception
return that `thread_create` put there, or in the `sched_elect` that the thread
called when `switch_to` saved it. -/
inductive Context where
  | start
  | elect
  deriving DecidableEq, Repr

/-- The fields of `struct thread_info` that the scheduler reads or writes.
`ti_priority` is one of `PRI_MAX..PRI_MIN`. -/
structure ThreadInfo where
  tiMach : Context
  tiPriority : Fin 32
  tiState : ThreadState
  deriving DecidableEq, Repr

/-- `THREAD_SCHED_STATE[ACTIVED]` and `THREAD_SCHED_STATE[EXPIRED]`. -/
structure StateMap where
  actived : ThreadState
  expired : ThreadState
  deriving DecidableEq, Repr

/-- The initializer of `THREAD_SCHED_STATE`; the copy of `sched.c` keeps it. -/
def threadSchedState : StateMap := ⟨.ready1, .ready2⟩

/-- `stateMap` is the copy of `THREAD_SCHED_STATE` in `bitmap.c`. -/
structure State where
  active : BitmapStruct Thread
  expire : BitmapStruct Thread
  stateMap : StateMap
  info : Thread → ThreadInfo
  current : Thread
  threadIdle : Thread

/-! ## Fields of a thread -/

def setState (t : Thread) (x : ThreadState) (s : State) : State :=
  { s with info := Function.update s.info t { s.info t with tiState := x } }

/-- `switch_to` saves the context of the thread that it leaves. -/
def saveContext (t : Thread) (s : State) : State :=
  { s with info := Function.update s.info t { s.info t with tiMach := .elect } }

def priMax : Fin 32 := 0

def priMin : Fin 32 := 31

def threadSetPriority (t : Thread) (priority : Fin 32) (s : State) : State :=
  { s with info := Function.update s.info t { s.info t with tiPriority := priority } }

section

variable (t r : Thread) (x : ThreadState) (s : State)

@[simp] theorem tiState_setState_self : ((setState t x s).info t).tiState = x := by
  simp [setState]

theorem tiState_setState_of_ne (h : r ≠ t) :
    ((setState t x s).info r).tiState = (s.info r).tiState := by
  simp [setState, h]

@[simp] theorem tiPriority_setState : ((setState t x s).info r).tiPriority = (s.info r).tiPriority := by
  unfold setState
  by_cases h : r = t
  · subst h; simp
  · simp [h]

@[simp] theorem tiMach_setState : ((setState t x s).info r).tiMach = (s.info r).tiMach := by
  unfold setState
  by_cases h : r = t
  · subst h; simp
  · simp [h]

@[simp] theorem tiState_saveContext : ((saveContext t s).info r).tiState = (s.info r).tiState := by
  unfold saveContext
  by_cases h : r = t
  · subst h; simp
  · simp [h]

@[simp] theorem tiPriority_saveContext :
    ((saveContext t s).info r).tiPriority = (s.info r).tiPriority := by
  unfold saveContext
  by_cases h : r = t
  · subst h; simp
  · simp [h]

theorem tiMach_saveContext_of_ne (h : r ≠ t) :
    ((saveContext t s).info r).tiMach = (s.info r).tiMach := by
  simp [saveContext, h]

end

/-! ## Enqueue and dequeue -/

/-- The thread is in no queue: what `list_add_tail` does to a node that is linked is
in `Links`. -/
def threadEnqueue (info : Thread → ThreadInfo) (t : Thread) (bm : BitmapStruct Thread) :
    BitmapStruct Thread :=
  bitmapEnqueue t (info t).tiPriority bm

def schedBitmapEnqueue (t : Thread) (s : State) : State :=
  { s with active := threadEnqueue s.info t s.active }

/-- `THREAD_STATE_ACTIVED` is the one of `sched.c` here. -/
def schedEnqueue (t : Thread) (s : State) : State :=
  schedBitmapEnqueue t (setState t threadSchedState.actived s)

/-- `thread_dequeue(thread, active)`. The node leaves the list that it is linked
in; the bit is one of `active`. -/
def threadDequeueActive (t : Thread) (s : State) : ℤ × State :=
  if t = s.current then (-1, s)
  else (0, { s with
    active := bitmapQueueDel t (s.info t).tiPriority s.active
    expire := unlink t s.expire })

/-- `thread_dequeue(thread, expire)`. -/
def threadDequeueExpire (t : Thread) (s : State) : ℤ × State :=
  if t = s.current then (-1, s)
  else (0, { s with
    active := unlink t s.active
    expire := bitmapQueueDel t (s.info t).tiPriority s.expire })

def schedBitmapDequeue (t : Thread) (s : State) : ℤ × State :=
  if (s.info t).tiState = s.stateMap.actived then threadDequeueActive t s
  else if (s.info t).tiState = s.stateMap.expired then threadDequeueExpire t s
  else (-1, s)

def schedDequeue (t : Thread) (s : State) : ℤ × State := schedBitmapDequeue t s

/-! ## Election -/

/-- The thread to run next, `none` where the code takes the head of an empty
queue for a thread. -/
def findNextThread (idle : Thread) (bm : BitmapStruct Thread) : Option Thread :=
  if h : bitmapFirstBit bm < 32 then bitmapFirstEntry bm ⟨bitmapFirstBit bm, h⟩ else some idle

/-- `SWAP` of the arrays and `swap_sched_state_map`. -/
def swapQueues (s : State) : State :=
  { s with
    active := s.expire
    expire := s.active
    stateMap := ⟨s.stateMap.expired, s.stateMap.actived⟩ }

/-- The first half of `sched_bitmap_elect`: `next`, with the arrays swapped if
necessary. -/
def chooseNext (s : State) : Option (Thread × State) := do
  let next ← findNextThread s.threadIdle s.active
  if next = s.threadIdle ∧ findNextThread s.threadIdle s.expire ≠ some s.threadIdle then
    let s' := swapQueues s
    let next ← findNextThread s.threadIdle s'.active
    return (next, s')
  return (next, s)

/-- `list_del(&next->ti_q)`, and the bit of the queue of its priority. -/
def takeNext (next : Thread) (s : State) : State :=
  if next ≠ s.threadIdle then
    { s with
      active := clearIfEmpty (s.info next).tiPriority (unlink next s.active)
      expire := unlink next s.expire }
  else s

/-- The outgoing thread goes to `expire` when its time slice is over. -/
def requeueCurrent (flags : SchedOpt) (s : State) : State :=
  if flags = .tick ∧ s.current ≠ s.threadIdle then
    setState s.current s.stateMap.expired
      { s with expire := threadEnqueue s.info s.current s.expire }
  else s

/-- `switch_to(next, current)`; `current` is the thread whose stack is in use. -/
def switchTo (next : Thread) (s : State) : State :=
  if next = s.current then s else { saveContext s.current s with current := next }

/-- The last part of `sched_bitmap_elect`; `thread_restore` saves nothing. -/
def dispatch (flags : SchedOpt) (next : Thread) (s : State) : State :=
  if flags = .restoreOnly then { s with current := next }
  else switchTo next (requeueCurrent flags s)

def schedBitmapElect (flags : SchedOpt) (s : State) : Option State := do
  let (next, s') ← chooseNext s
  return dispatch flags next (takeNext next s')

/-- After the election the thread that runs is in `sched_elect` when it never
left it, or when its context was saved there. -/
def inElect (flags : SchedOpt) (s t : State) : Prop :=
  (flags ≠ .restoreOnly ∧ t.current = s.current) ∨ (t.info t.current).tiMach = .elect

instance (flags : SchedOpt) (s t : State) : Decidable (inElect flags s t) :=
  inferInstanceAs (Decidable (_ ∨ _))

/-- `cur_thread` is a local variable, saved and restored with the stack: the
label is that of the thread that returns from `sched->elect`. -/
def relabel (flags : SchedOpt) (s t : State) : State :=
  if inElect flags s t then setState t.current .running t else t

def schedElect (flags : SchedOpt) (s : State) : Option State := do
  let t ← schedBitmapElect flags s
  return relabel flags s t

def threadYield (s : State) : Option State := schedElect .none (schedEnqueue s.current s)

section

variable (flags : SchedOpt) (next : Thread) (s : State)

@[simp] theorem active_requeueCurrent : (requeueCurrent flags s).active = s.active := by
  unfold requeueCurrent
  split <;> rfl

@[simp] theorem stateMap_requeueCurrent : (requeueCurrent flags s).stateMap = s.stateMap := by
  unfold requeueCurrent
  split <;> rfl

@[simp] theorem threadIdle_requeueCurrent : (requeueCurrent flags s).threadIdle = s.threadIdle := by
  unfold requeueCurrent
  split <;> rfl

@[simp] theorem current_switchTo : (switchTo next s).current = next := by
  unfold switchTo
  split
  · rename_i h; exact h.symm
  · rfl

@[simp] theorem active_switchTo : (switchTo next s).active = s.active := by
  unfold switchTo
  split <;> rfl

@[simp] theorem expire_switchTo : (switchTo next s).expire = s.expire := by
  unfold switchTo
  split <;> rfl

@[simp] theorem stateMap_switchTo : (switchTo next s).stateMap = s.stateMap := by
  unfold switchTo
  split <;> rfl

@[simp] theorem threadIdle_switchTo : (switchTo next s).threadIdle = s.threadIdle := by
  unfold switchTo
  split <;> rfl

@[simp] theorem current_dispatch : (dispatch flags next s).current = next := by
  unfold dispatch
  split
  · rfl
  · exact current_switchTo _ _

@[simp] theorem active_dispatch : (dispatch flags next s).active = s.active := by
  unfold dispatch
  split
  · rfl
  · rw [active_switchTo, active_requeueCurrent]

@[simp] theorem stateMap_dispatch : (dispatch flags next s).stateMap = s.stateMap := by
  unfold dispatch
  split
  · rfl
  · rw [stateMap_switchTo, stateMap_requeueCurrent]

@[simp] theorem threadIdle_dispatch : (dispatch flags next s).threadIdle = s.threadIdle := by
  unfold dispatch
  split
  · rfl
  · rw [threadIdle_switchTo, threadIdle_requeueCurrent]

/-- The outgoing thread is put back on a tick, unless it is the idle thread. -/
theorem expire_dispatch : (dispatch flags next s).expire =
    if flags = .tick ∧ s.current ≠ s.threadIdle then threadEnqueue s.info s.current s.expire
    else s.expire := by
  unfold dispatch
  split
  · rename_i h
    rw [if_neg (by rw [h]; simp)]
  · rw [expire_switchTo]
    unfold requeueCurrent
    split <;> rfl

@[simp] theorem current_takeNext : (takeNext next s).current = s.current := by
  unfold takeNext
  split <;> rfl

@[simp] theorem stateMap_takeNext : (takeNext next s).stateMap = s.stateMap := by
  unfold takeNext
  split <;> rfl

@[simp] theorem info_takeNext : (takeNext next s).info = s.info := by
  unfold takeNext
  split <;> rfl

@[simp] theorem threadIdle_takeNext : (takeNext next s).threadIdle = s.threadIdle := by
  unfold takeNext
  split <;> rfl

end

theorem schedBitmapElect_some {flags : SchedOpt} {s t : State}
    (h : schedBitmapElect flags s = some t) :
    ∃ next s', chooseNext s = some (next, s') ∧ t = dispatch flags next (takeNext next s') := by
  unfold schedBitmapElect at h
  obtain ⟨⟨next, s'⟩, hc, ht⟩ := Option.bind_eq_some_iff.mp h
  exact ⟨next, s', hc, (Option.some.inj ht).symm⟩

/-- `sched_elect` does what the scheduler class does, up to the label. -/
theorem schedElect_some {flags : SchedOpt} {s t : State} (h : schedElect flags s = some t) :
    ∃ u, schedBitmapElect flags s = some u ∧ t = relabel flags s u := by
  unfold schedElect at h
  obtain ⟨u, hu, ht⟩ := Option.bind_eq_some_iff.mp h
  exact ⟨u, hu, (Option.some.inj ht).symm⟩

theorem queues_relabel (flags : SchedOpt) (s u : State) :
    (relabel flags s u).active = u.active ∧ (relabel flags s u).expire = u.expire ∧
      (relabel flags s u).stateMap = u.stateMap ∧ (relabel flags s u).current = u.current := by
  unfold relabel
  split <;> exact ⟨rfl, rfl, rfl, rfl⟩

/-! ## Runs -/

/-- The threads linked in one of the arrays. -/
def queued (s : State) : List Thread := members s.active ++ members s.expire

inductive Op where
  | enqueue (t : Thread)
  | dequeue (t : Thread)
  | elect (flags : SchedOpt)
  | yield
  | setPriority (t : Thread) (priority : Fin 32)
  deriving DecidableEq, Repr

/-- One call, where the lists say what it does: a node that is linked is not linked
again, a node that is not linked is not unlinked, and the idle thread is not added
to the run queue. The code goes on in the other calls, too; `Links.step` is the call
on the nodes, without the guards. -/
def step (s : State) : Op → Option State
  | .enqueue t => if t ∈ queued s ∨ t = s.threadIdle then none else some (schedEnqueue t s)
  | .dequeue t =>
    let r := schedDequeue t s
    if r.1 = 0 ∧ t ∉ queued s then none else some r.2
  | .elect flags => if flags = .tick ∧ s.current ∈ queued s then none else schedElect flags s
  | .yield => if s.current ∈ queued s ∨ s.current = s.threadIdle then none else threadYield s
  | .setPriority t priority => some (threadSetPriority t priority s)

/-- `start_kernel`: the idle thread and the main thread as `thread_create` made
them, the main thread running. -/
def boot (idle main : Thread) : State where
  active := initBitmap
  expire := initBitmap
  stateMap := threadSchedState
  info := fun _ => ⟨.start, priMin, .new⟩
  current := main
  threadIdle := idle

end PikoRT.Sched.Model

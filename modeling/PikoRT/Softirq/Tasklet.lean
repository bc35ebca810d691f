import PikoRT.Kernel.Bitops
import PikoRT.Kernel.LinuxList
import PikoRT.Lib.Run

/-! # Tasklets (`kernel/softirq.c`)

`tasklet_schedule` appends a tasklet to the queue of its priority and sets the bit of
the queue in a word; `tasklet_action`, in `softirqd`, takes the first tasklet of the
first queue with a bit set, clears the bit if that was the last one, and calls it.
`tasklet_action` may be interrupted between any two accesses to memory, by an interrupt
or by a thread that schedules a tasklet, so its steps are the accesses. `tasklet_schedule`
is one step here, as it is when nobody meets it; `TaskletCalls` has its accesses.

The nodes are those of `linux/list.h`: `list_add_tail` writes the node it is given,
whether or not it is in a list. -/
namespace PikoRT.Softirq.Tasklet
open PikoRT.Kernel.Bitops PikoRT.Kernel.LinuxList

/-- A `struct tasklet_struct *`. -/
abbrev TaskletAddr := ℕ

/-- The fields that `tasklet_schedule` and `tasklet_action` read, apart from the node. -/
structure TaskletStruct where
  prio : Word
  func : Option Word
  deriving DecidableEq, Repr

/-- Where `tasklet_action` is: at the test of its loop, at `find_first_bit`, at
`bitmap_first_entry`; in `list_del`, before it loads the two neighbours, before it stores
to the next one, to the previous one, to the node; at `list_empty`, before it loads the
word and before it stores it; at the call of the tasklet; or out of its loop, which ends
`softirqd`. -/
inductive Phase where
  | test
  | find
  | entry (maxPrio : Fin 32)
  | del (maxPrio : Fin 32) (tsk : TaskletAddr)
  | storePrev (maxPrio : Fin 32) (tsk : TaskletAddr) (prev next : Node (Fin 32) TaskletAddr)
  | storeNext (maxPrio : Fin 32) (tsk : TaskletAddr) (prev next : Node (Fin 32) TaskletAddr)
  | poisonNext (maxPrio : Fin 32) (tsk : TaskletAddr)
  | poisonPrev (maxPrio : Fin 32) (tsk : TaskletAddr)
  | isEmpty (maxPrio : Fin 32) (tsk : TaskletAddr)
  | loadMap (maxPrio : Fin 32) (tsk : TaskletAddr)
  | storeMap (maxPrio : Fin 32) (tsk : TaskletAddr) (word : Word)
  | call (tsk : TaskletAddr)
  | stopped
  deriving DecidableEq, Repr

structure State where
  /-- The nodes of `prio_tasklet.queue` and of the tasklets. -/
  links : Memory (Fin 32) TaskletAddr
  map : Word
  info : TaskletAddr → TaskletStruct
  allocated : TaskletAddr → Bool
  phase : Phase
  /-- Scheduled since the last time it was taken out of a queue. -/
  pending : TaskletAddr → Bool

/-- `PRIO_TASKLET_MINPRIO`. -/
def prioTaskletMinprio : Word := 31

theorem toNat_lt_of_minprio {prio : Word} (h : ¬ prioTaskletMinprio < prio) : prio.toNat < 32 := by
  have hle : prio.toNat ≤ 31 := BitVec.le_def.mp (BitVec.not_lt.mp h)
  omega

/-- With the memory that `malloc` returns. -/
def taskletInit (tsk : TaskletAddr) (prio : Word) (func : Option Word) (s : State) : State :=
  { s with
    allocated := Function.update s.allocated tsk true
    info := Function.update s.info tsk ⟨prio, func⟩
    links := initListHead (.item tsk) s.links }

/-- `bitmap_enqueue`. -/
def bitmapEnqueue (new : TaskletAddr) (bit : Fin 32) (s : State) : State :=
  { s with
    links := listAddTail (.item new) (.head bit) s.links
    map := setBit bit s.map
    pending := Function.update s.pending new true }

/-- Up to `raise_softirq`; with -1 when the tasklet is refused. -/
def taskletSchedule : Option TaskletAddr → State → ℤ × State
  | none, s => (-1, s)
  | some tsk, s =>
    if h : prioTaskletMinprio < (s.info tsk).prio then (-1, s)
    else (0, bitmapEnqueue tsk ⟨(s.info tsk).prio.toNat, toNat_lt_of_minprio h⟩ s)

/-- The next access of `tasklet_action`; nothing when it reads what is no tasklet. At
the test with an empty word it returns, and `softirqd` calls it again. -/
def taskletAction (s : State) : Option State :=
  match s.phase with
  | .test => some (if s.map = 0 then s else { s with phase := .find })
  | .find =>
    if h : findFirstBit [s.map] 32 < 32 then some { s with phase := .entry ⟨_, h⟩ } else none
  | .entry maxPrio =>
    match s.links.next (.head maxPrio) with
    | .item tsk => some { s with phase := .del maxPrio tsk }
    | _ => none
  | .del maxPrio tsk =>
    some { s with phase := .storePrev maxPrio tsk (s.links.prev (.item tsk)) (s.links.next (.item tsk)) }
  | .storePrev maxPrio tsk prev next =>
    some { s with links := s.links.setPrev next prev, phase := .storeNext maxPrio tsk prev next }
  | .storeNext maxPrio tsk prev next =>
    some { s with
      links := s.links.setNext prev next
      pending := Function.update s.pending tsk false
      phase := .poisonNext maxPrio tsk }
  | .poisonNext maxPrio tsk =>
    some { s with links := s.links.setNext (.item tsk) .poison1, phase := .poisonPrev maxPrio tsk }
  | .poisonPrev maxPrio tsk =>
    some { s with links := s.links.setPrev (.item tsk) .poison2, phase := .isEmpty maxPrio tsk }
  | .isEmpty maxPrio tsk =>
    some { s with phase := if listEmpty (.head maxPrio) s.links then .loadMap maxPrio tsk else .call tsk }
  | .loadMap maxPrio tsk => some { s with phase := .storeMap maxPrio tsk s.map }
  | .storeMap maxPrio tsk word => some { s with map := clearBit maxPrio word, phase := .call tsk }
  | .call tsk => some { s with phase := if (s.info tsk).func = none then .stopped else .test }
  | .stopped => none

inductive Act where
  | taskletInit (tsk : TaskletAddr) (prio : Word) (func : Option Word)
  | taskletSchedule (task : Option TaskletAddr)
  | taskletAction
  deriving DecidableEq, Repr

/-- A tasklet comes from `tasklet_init`, which gets memory that nothing uses. -/
def step (s : State) : Act → Option State
  | .taskletInit tsk prio func =>
    if s.allocated tsk then none else some (taskletInit tsk prio func s)
  | .taskletSchedule task =>
    if ∀ tsk ∈ task, s.allocated tsk then some (taskletSchedule task s).2 else none
  | .taskletAction => taskletAction s

/-- `INIT_LIST_HEAD` of the queues. -/
def initQueues (l : Memory (Fin 32) TaskletAddr) : Memory (Fin 32) TaskletAddr :=
  (List.finRange 32).foldl (fun l p => initListHead (.head p) l) l

/-- After `init_softirq`; the memory holds anything. -/
def init (mem : Memory (Fin 32) TaskletAddr) (info : TaskletAddr → TaskletStruct) : State where
  links := initQueues mem
  map := 0
  info := info
  allocated := fun _ => false
  phase := .test
  pending := fun _ => false

end PikoRT.Softirq.Tasklet

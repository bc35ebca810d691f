import PikoRT.Kernel.ListFamily
import PikoRT.Sched.Model

/-! # The round-robin class (`kernel/sched/rr.c`)

The class keeps the running thread in `rr_runq` and looks for the next thread behind it.
`thread_yield` and `thread_exit` go by the other class, in which the running thread is in
no queue: the one adds it, the other leaves it where it is. The options of `sched_elect`
are the numbers from 0 to 3, and this class tests a bit of them. -/
namespace PikoRT.Sched.RoundRobin
open PikoRT.Lib.Rings PikoRT.Lib.Run PikoRT.Kernel.LinuxList PikoRT.Kernel.ListFamily
open PikoRT.Sched.Model (Thread SchedOpt)

/-- `SCHED_OPT_*` as they are defined. -/
def bits : SchedOpt → ℕ
  | .none => 0
  | .restoreOnly => 1
  | .reset => 2
  | .tick => 3

/-- `ti_state`, which this class does not read, is left out. -/
structure State where
  /-- The nodes `ti_q` of the threads and the head `rr_runq`. -/
  links : Memory Unit Thread
  current : Thread
  threadIdle : Thread
  /-- The threads that have called `thread_exit`. -/
  exited : Thread → Bool

/-- `list_entry`; nothing when the node is in no thread. -/
def listEntry : Node Unit Thread → Option Thread
  | .item t => some t
  | _ => none

def listFirstEntry (l : Memory Unit Thread) : Option Thread := listEntry (l.next (.head ()))

def listIsLast (t : Thread) (l : Memory Unit Thread) : Bool := decide (l.next (.item t) = .head ())

def listIsSingular (l : Memory Unit Thread) : Bool :=
  !listEmpty (.head ()) l && decide (l.next (.head ()) = l.prev (.head ()))

def findNextThread (thread : Thread) (l : Memory Unit Thread) : Option Thread :=
  if listIsLast thread l then listFirstEntry l else listEntry (l.next (.item thread))

def schedRrEnqueue (thread : Thread) (s : State) : State :=
  { s with links := listAdd (.item thread) (.head ()) s.links }

/-- `switch_to` or `thread_restore`. -/
def switchTo (s : State) (next : Thread) : State := { s with current := next }

def schedRrDequeue (thread : Thread) (s : State) : Option State :=
  let s' := { s with links := listDel (.item thread) s.links }
  if s.current = thread then
    (if listIsSingular s.links then some s.threadIdle else findNextThread s.current s.links).map (switchTo s')
  else some s'

def schedRrElectReset (s : State) : Option State :=
  (if listEmpty (.head ()) s.links then some s.threadIdle else listFirstEntry s.links).map (switchTo s)

/-- To go on with the running thread is to switch to it. -/
def schedRrElect (switchType : SchedOpt) (s : State) : Option State :=
  if bits switchType &&& bits .reset ≠ 0 then schedRrElectReset s
  else (if listEmpty (.head ()) s.links then some s.threadIdle else findNextThread s.current s.links).map (switchTo s)

def threadYield (s : State) : Option State := schedRrElect .none (schedRrEnqueue s.current s)

/-- No thread waits for the exit. -/
def threadExit (s : State) : Option State :=
  schedRrElect .restoreOnly { s with exited := Function.update s.exited s.current true }

inductive Act where
  | tick
  | yield
  | exit
  deriving DecidableEq, Repr

/-- The idle thread makes no calls. -/
def step (s : State) : Act → Option State
  | .tick => schedRrElect .tick s
  | .yield => if s.current = s.threadIdle then none else threadYield s
  | .exit => if s.current = s.threadIdle then none else threadExit s

/-- The threads, in the order in which they are enqueued. One of them runs, or the idle
thread, which is in no queue. -/
structure Boot where
  threads : List Thread
  idle : Thread
  current : Thread
  nodup : threads.Nodup
  idle_notMem : idle ∉ threads
  running : current = idle ∨ current ∈ threads

/-- After `sched_enqueue` of the threads; the memory holds anything. -/
def start (b : Boot) (mem : Memory Unit Thread) : State :=
  b.threads.foldl (fun s t => schedRrEnqueue t s)
    ⟨initListHead (.head ()) mem, b.current, b.idle, fun _ => false⟩

/-! ## What the class owes -/

/-- The threads that `n` ticks elect. -/
def ticks : ℕ → State → Option (List Thread)
  | 0, _ => some []
  | n + 1, s => do
    let s ← schedRrElect .tick s
    let ts ← ticks n s
    return s.current :: ts

/-- The threads that have not exited. -/
def live (b : Boot) (s : State) : List Thread := b.threads.filter fun t => !s.exited t

/-- `rr_runq` is a list, and each live thread is in it; a list has every node once. -/
def WellKept (b : Boot) (s : State) : Prop :=
  ∃ q : List Thread, Ring s.links (.head ()) (nodes q) ∧ ∀ t ∈ live b s, t ∈ q

/-- As many ticks as there are live threads elect each of them once. -/
def Fair (b : Boot) (s : State) : Prop :=
  ∃ ts, ticks (live b s).length s = some ts ∧ ts.Perm (live b s)

structure Correct (b : Boot) (s : State) : Prop where
  kept : WellKept b s
  fair : Fair b s

section

variable {b : Boot} {mem : Memory Unit Thread} {s s' : State} {q : List Thread} {t : Thread}

/-! ## The queue -/

theorem listFirstEntry_cons (hr : Ring s.links (.head ()) (nodes (t :: q))) : listFirstEntry s.links = some t := by
  unfold listFirstEntry
  rw [hr.path.1.1]
  rfl

theorem listEmpty_cons (hr : Ring s.links (.head ()) (nodes (t :: q))) : listEmpty (.head ()) s.links = false := by
  rw [Bool.eq_false_iff, ne_eq, listEmpty_iff hr]
  exact List.cons_ne_nil _ _

theorem tick_cons (hr : Ring s.links (.head ()) (nodes (t :: q))) :
    schedRrElect .tick s = some { s with current := t } := by
  have hreset : schedRrElect .tick s = schedRrElectReset s := rfl
  rw [hreset, schedRrElectReset, if_neg (by rw [listEmpty_cons hr]; simp), listFirstEntry_cons hr]
  rfl

theorem tick_nil (hr : Ring s.links (.head ()) (nodes ([] : List Thread))) :
    schedRrElect .tick s = some { s with current := s.threadIdle } := by
  have hreset : schedRrElect .tick s = schedRrElectReset s := rfl
  rw [hreset, schedRrElectReset, if_pos ((listEmpty_iff hr).mpr rfl)]
  rfl

/-- Every tick elects the first thread of the queue. -/
theorem ticks_eq_replicate (hr : Ring s.links (.head ()) (nodes (t :: q))) (n : ℕ) :
    ticks n s = some (List.replicate n t) := by
  induction n generalizing s with
  | zero => rfl
  | succ n ih =>
    have hrest := ih (s := { s with current := t }) hr
    simp only [ticks, tick_cons hr, Option.bind_eq_bind, Option.bind_some, hrest]
    rfl

/-- An election changes nothing but the running thread. -/
theorem schedRrElect_frame {switchType : SchedOpt} (he : schedRrElect switchType s = some s') :
    s' = { s with current := s'.current } := by
  unfold schedRrElect schedRrElectReset at he
  split at he
  all_goals
    obtain ⟨next, -, rfl⟩ := Option.map_eq_some_iff.mp he
    rfl

/-- A thread of the queue that yields breaks the queue. -/
theorem yield_breaks (hr : Ring s.links (.head ()) (nodes q)) (hc : s.current ∈ q) (hq : ∀ t ∈ q, t ∈ live b s)
    (he : threadYield s = some s') : ¬ WellKept b s' := by
  rintro ⟨q', hring, hlive⟩
  have hframe := schedRrElect_frame he
  have hsame : live b s' = live b s := by rw [hframe]; rfl
  rw [hframe] at hring
  refine hr.not_insert_head (mem_nodes.mpr hc) (fun z hz => ?_) hring
  obtain ⟨u, hu, rfl⟩ := List.mem_map.mp hz
  exact mem_nodes.mpr (hlive u (hsame ▸ hq u hu))

/-- The call that `thread_exit` does not make. -/
theorem ring_schedRrDequeue (hr : Ring s.links (.head ()) (nodes q)) (ht : t ∈ q) (he : schedRrDequeue t s = some s') :
    Ring s'.links (.head ()) (nodes (q.erase t)) := by
  have hdel : Ring (listDel (.item t) s.links) (.head ()) (nodes (q.erase t)) := by
    rw [nodes_erase]
    exact ring_listDel hr (mem_nodes.mpr ht)
  unfold schedRrDequeue at he
  split at he
  · obtain ⟨next, -, rfl⟩ := Option.map_eq_some_iff.mp he
    exact hdel
  · obtain rfl := Option.some.inj he
    exact hdel

/-- A thread that exits stays in the queue, and when it is alone there it is elected. -/
theorem exit_alone (hr : Ring s.links (.head ()) (nodes [s.current])) :
    threadExit s = some { s with exited := Function.update s.exited s.current true } := by
  have hlast : listIsLast s.current s.links = true := decide_eq_true hr.path.2.1
  have hbits : bits .restoreOnly &&& bits .reset = 0 := rfl
  unfold threadExit schedRrElect
  rw [if_neg (not_not_intro hbits), if_neg (by rw [listEmpty_cons hr]; simp), findNextThread, if_pos hlast,
    listFirstEntry_cons hr]
  rfl

/-! ## The start -/

theorem foldl_schedRrEnqueue (ts : List Thread) (hr : Ring s.links (.head ()) (nodes q)) (hnd : (ts ++ q).Nodup) :
    ∃ l, ts.foldl (fun s t => schedRrEnqueue t s) s = { s with links := l } ∧
      Ring l (.head ()) (nodes (ts.reverse ++ q)) := by
  induction ts generalizing s q with
  | nil => exact ⟨s.links, rfl, hr⟩
  | cons t ts ih =>
    obtain ⟨ht, hnd'⟩ := List.nodup_cons.mp hnd
    have htq : t ∉ q := fun hm => ht (List.mem_append_right _ hm)
    have hmid : (ts ++ t :: q).Nodup := List.perm_middle.nodup_iff.mpr (List.nodup_cons.mpr ⟨ht, hnd'⟩)
    have hadd : Ring (schedRrEnqueue t s).links (.head ()) (nodes (t :: q)) := ring_listAdd hr (item_notMem htq)
    obtain ⟨l, hl, hring⟩ := ih hadd hmid
    refine ⟨l, hl, ?_⟩
    rw [List.reverse_cons, List.append_assoc]
    exact hring

/-- No thread has exited, and the queue is that of the start. -/
structure Untouched (b : Boot) (s : State) : Prop where
  ring : Ring s.links (.head ()) (nodes b.threads.reverse)
  idle : s.threadIdle = b.idle
  exited : s.exited = fun _ => false
  current : s.current = b.idle ∨ s.current ∈ b.threads

theorem untouched_start (b : Boot) (mem : Memory Unit Thread) : Untouched b (start b mem) := by
  obtain ⟨l, hl, hr⟩ := foldl_schedRrEnqueue (s := ⟨initListHead (.head ()) mem, b.current, b.idle, fun _ => false⟩)
    (q := []) b.threads (ring_initListHead _ _) (by simpa using b.nodup)
  have hs : start b mem = ⟨l, b.current, b.idle, fun _ => false⟩ := hl
  rw [List.append_nil] at hr
  rw [hs]
  exact ⟨hr, rfl, rfl, b.running⟩

theorem Untouched.live (h : Untouched b s) : live b s = b.threads := by
  unfold RoundRobin.live
  rw [h.exited]
  simp

theorem Untouched.tick (h : Untouched b s) :
    ∃ t, schedRrElect .tick s = some { s with current := t } ∧ Untouched b { s with current := t } := by
  cases hq : b.threads.reverse with
  | nil =>
    exact ⟨s.threadIdle, tick_nil (hq ▸ h.ring), h.ring, h.idle, h.exited, .inl h.idle⟩
  | cons t q =>
    refine ⟨t, tick_cons (hq ▸ h.ring), h.ring, h.idle, h.exited, .inr ?_⟩
    rw [← List.mem_reverse, hq]
    exact List.mem_cons_self

/-- Ticks are fair to one thread at most. -/
theorem Untouched.fair_iff (h : Untouched b s) : Fair b s ↔ b.threads.length ≤ 1 := by
  unfold Fair
  rw [h.live]
  cases hq : b.threads.reverse with
  | nil =>
    have hnil : b.threads = [] := List.reverse_eq_nil_iff.mp hq
    rw [hnil]
    exact iff_of_true ⟨[], rfl, List.Perm.refl _⟩ (Nat.zero_le 1)
  | cons t q =>
    rw [ticks_eq_replicate (hq ▸ h.ring)]
    have hperm : b.threads.Perm (t :: q) := hq ▸ (List.reverse_perm b.threads).symm
    constructor
    · rintro ⟨ts, hts, hp⟩
      obtain rfl := Option.some.inj hts
      exact List.nodup_replicate.mp (hp.nodup_iff.mpr b.nodup)
    · intro hle
      have hlen := hperm.length_eq
      rw [List.length_cons] at hlen
      have hnil : q = [] := List.eq_nil_of_length_eq_zero (by omega)
      refine ⟨_, rfl, ?_⟩
      rw [hlen, hnil]
      exact (hnil ▸ hperm).symm

theorem Untouched.correct (h : Untouched b s) (hn : b.threads.length ≤ 1) : Correct b s := by
  refine ⟨⟨_, h.ring, fun t ht => ?_⟩, h.fair_iff.mpr hn⟩
  rw [h.live] at ht
  exact List.mem_reverse.mpr ht

/-! ## Runs -/

/-- The step elects no thread that has exited, and leaves things as they should be. -/
def Keeps (b : Boot) (_ : State) (_ : Act) (s' : State) : Prop :=
  s'.exited s'.current = false ∧ Correct b s'

theorem keeps_iff {a : Act} (h : Untouched b s) (hn : b.threads.length ≤ 1) (he : step s a = some s') :
    Keeps b s a s' ↔ a = .tick := by
  -- who calls is the only thread of the queue
  have halone : s.current ≠ s.threadIdle → b.threads = [s.current] := by
    intro hc
    have hmem := h.current.resolve_left fun hi => hc (hi.trans h.idle.symm)
    obtain ⟨u, hu⟩ := List.length_eq_one_iff.mp (le_antisymm hn (List.length_pos_of_mem hmem))
    rw [hu] at hmem ⊢
    rw [List.mem_singleton.mp hmem]
  cases a with
  | tick =>
    obtain ⟨t, ht, hu⟩ := h.tick
    obtain rfl := Option.some.inj (ht.symm.trans he)
    exact iff_of_true ⟨congrFun h.exited t, hu.correct hn⟩ rfl
  | yield =>
    obtain ⟨hc, he⟩ := Option.ite_none_left_eq_some.mp he
    have hone := halone hc
    refine iff_of_false (fun hk => ?_) (fun ha => (nomatch ha))
    refine yield_breaks (b := b) h.ring ?_ (fun t ht => ?_) he hk.2.kept
    · simp [hone]
    · rw [h.live]
      exact List.mem_reverse.mp ht
  | exit =>
    obtain ⟨hc, he⟩ := Option.ite_none_left_eq_some.mp he
    have hring := h.ring
    rw [halone hc] at hring
    obtain rfl := Option.some.inj ((exit_alone hring).symm.trans he)
    refine iff_of_false (fun hk => ?_) (fun ha => (nomatch ha))
    have hself : Function.update s.exited s.current true s.current = false := hk.1
    rw [Function.update_self] at hself
    cases hself

/-- **Round robin.** A run goes as it should exactly when there is one thread at most and
all steps are ticks. -/
theorem roundRobin_iff (b : Boot) (mem : Memory Unit Thread) (as : List Act) :
    (Correct b (start b mem) ∧ ∀ x ∈ trace step (start b mem) as, Keeps b x.pre x.act x.post) ↔
      b.threads.length ≤ 1 ∧ ∀ x ∈ trace step (start b mem) as, x.act = .tick := by
  have h0 := untouched_start b mem
  have hrun : b.threads.length ≤ 1 →
      ((∀ x ∈ trace step (start b mem) as, Keeps b x.pre x.act x.post) ↔
        ∀ x ∈ trace step (start b mem) as, x.act = .tick) := by
    intro hn
    refine trace_forall_iff (I := Untouched b) (Q := Keeps b) (C := fun _ a => a = Act.tick) ?_ ?_ h0
    · intro s a s' hs he
      exact keeps_iff hs hn he
    · intro s a s' hs ha he
      subst ha
      obtain ⟨t, ht, hu⟩ := hs.tick
      obtain rfl := Option.some.inj (ht.symm.trans he)
      exact hu
  constructor
  · rintro ⟨hc, hk⟩
    have hn := h0.fair_iff.mp hc.fair
    exact ⟨hn, (hrun hn).mp hk⟩
  · rintro ⟨hn, ha⟩
    exact ⟨h0.correct hn, (hrun hn).mpr ha⟩

end

/-! ## Two threads -/

def twoThreads : Boot := ⟨[1, 2], 0, 1, by simp, by simp, .inr (by simp)⟩

def memory : Memory Unit Thread := ⟨fun _ => .poison1, fun _ => .poison2⟩

/-- Two ticks elect the same thread. -/
theorem ticks_twoThreads : ticks 2 (start twoThreads memory) = some [2, 2] ∧
    ¬ Correct twoThreads (start twoThreads memory) := by
  have hticks : ticks 2 (start twoThreads memory) = some [2, 2] := rfl
  refine ⟨hticks, fun h => ?_⟩
  have hn := (untouched_start twoThreads memory).fair_iff.mp h.fair
  exact absurd hn (by simp [twoThreads])

end PikoRT.Sched.RoundRobin

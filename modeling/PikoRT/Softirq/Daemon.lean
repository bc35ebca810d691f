import PikoRT.Softirq.TaskletQueue
import PikoRT.Sync.Place

/-! # `softirqd` and its flag (`kernel/softirq.c`)

`softirq_run` is to say whether `softirqd` is in the run queue or runs. `raise_softirq`
sets it when it has put the thread into the run queue, and `softirqd` clears it when it
leaves its loop, which it does at a tasklet without a function: it returns, and
`thread_exit` ends it.

`raise_softirq` may be left by an interrupt or by a switch between any two accesses, as
`tasklet_action` may, so its steps are the accesses, too. -/
namespace PikoRT.Softirq.Daemon
open PikoRT.Lib.Run PikoRT.Kernel.LinuxList PikoRT.Softirq.Tasklet
open PikoRT.Sched.Model hiding State step
open PikoRT.Sched.RunQueue
open PikoRT.Sync.Kernel (Threads)

/-- Where `softirqd` is: in `tasklet_action`, which says more; at `sched_yield`; at the
store of `softirq_run` behind its loop; in `pthread_exit`; or past it. -/
inductive Place where
  | action
  | yield
  | leave
  | exit
  | exited
  deriving DecidableEq, Repr

/-- Where a call of `raise_softirq` is: before it loads `softirq_run`, at
`sched_enqueue`, or before it stores `softirq_run`. -/
inductive Raise where
  | load
  | enqueue
  | store
  deriving DecidableEq, Repr

/-- `ι` are the interrupts and the threads that call `tasklet_schedule`, each with the
tasklet of its call. -/
structure State (ι : Type*) where
  tasklets : Tasklet.State
  sched : Sched.Model.State
  threadSoftirqd : Thread
  softirqRun : Bool
  place : Place
  calls : ι → Option (TaskletAddr × Raise)

section

variable {ι : Type*} [DecidableEq ι]

/-- `tasklet_schedule` up to the call of `raise_softirq`, which a tasklet that is refused
does not come to. -/
def schedule (i : ι) (task : Option TaskletAddr) (s : State ι) : Option (State ι) :=
  if s.calls i = none then
    (Tasklet.step s.tasklets (.taskletSchedule task)).map fun t =>
      match task with
      | some tsk =>
        if (taskletSchedule task s.tasklets).1 = 0 then
          { s with tasklets := t, calls := Function.update s.calls i (some (tsk, .load)) }
        else s
      | none => s
  else none

/-- The next access of `raise_softirq`. -/
def raiseSoftirq (i : ι) (s : State ι) : Option (State ι) :=
  match s.calls i with
  | none => none
  | some (tsk, .load) =>
    some { s with calls := Function.update s.calls i (if s.softirqRun then none else some (tsk, .enqueue)) }
  | some (tsk, .enqueue) =>
    some { s with
      sched := schedEnqueue s.threadSoftirqd s.sched
      calls := Function.update s.calls i (some (tsk, .store)) }
  | some (_, .store) => some { s with softirqRun := true, calls := Function.update s.calls i none }

/-- The next step of `softirqd`, when it runs. `sched_yield` and `pthread_exit` are system
calls. -/
def softirqd (s : State ι) : Option (State ι) :=
  if s.sched.current = s.threadSoftirqd then
    match s.place with
    | .action =>
      if s.tasklets.phase = .test ∧ s.tasklets.map = 0 then some { s with place := .yield }
      else (taskletAction s.tasklets).map fun t =>
        { s with tasklets := t, place := if t.phase = .stopped then .leave else .action }
    | .yield => (threadYield s.sched).map fun r => { s with sched := r, place := .action }
    | .leave => some { s with softirqRun := false, place := .exit }
    | .exit => (schedElect .restoreOnly s.sched).map fun r => { s with sched := r, place := .exited }
    | .exited => none
  else none

/-- The calls of the scheduler that do not come from `raise_softirq` or `softirqd`: they
wake, stop or leave other threads. The tick may come to `softirqd`. -/
def Others (s : State ι) : Op → Prop
  | .enqueue t => t ≠ s.threadSoftirqd
  | .dequeue t => t ≠ s.threadSoftirqd
  | .elect flags => flags = .tick ∨ s.sched.current ≠ s.threadSoftirqd
  | .yield => s.sched.current ≠ s.threadSoftirqd
  | .setPriority .. => True

instance (s : State ι) (op : Op) : Decidable (Others s op) := by
  cases op <;> unfold Others <;> infer_instance

inductive Act (ι : Type*) where
  | taskletInit (tsk : TaskletAddr) (prio : Kernel.Bitops.Word) (func : Option Kernel.Bitops.Word)
  | taskletSchedule (i : ι) (task : Option TaskletAddr)
  | raiseSoftirq (i : ι)
  | softirqd
  | sched (op : Op)

def step (s : State ι) : Act ι → Option (State ι)
  | .taskletInit tsk prio func =>
    (Tasklet.step s.tasklets (.taskletInit tsk prio func)).map fun t => { s with tasklets := t }
  | .taskletSchedule i task => schedule i task s
  | .raiseSoftirq i => raiseSoftirq i s
  | .softirqd => softirqd s
  | .sched op =>
    if Others s op then (Sched.Model.step s.sched op).map fun r => { s with sched := r } else none

/-- After `init_softirq`. -/
def init (b : Threads) (mem : Memory (Fin 32) TaskletAddr) (info : TaskletAddr → TaskletStruct) : State ι where
  tasklets := Tasklet.init mem info
  sched := threadSetPriority b.softirqd priMax (boot b.idle b.main)
  threadSoftirqd := b.softirqd
  softirqRun := false
  place := .action
  calls := fun _ => none

/-! ## What the daemon owes -/

/-- In the run queue, or running. -/
def Ready (t : Thread) (r : Sched.Model.State) : Prop := t ∈ queued r ∨ r.current = t

def Runs (s : State ι) : Prop := Ready s.threadSoftirqd s.sched

/-- `raise_softirq` enqueues `softirqd` only when it is not queued, does not run and has
not exited. -/
def EnqueuesOff (s : State ι) : Act ι → Prop
  | .raiseSoftirq i => ∀ tsk, s.calls i = some (tsk, .enqueue) → ¬ Runs s ∧ s.place ≠ .exited
  | _ => True

/-- The tasklet waits in `prio_tasklet`, and the call that put it there has returned. -/
def Waits (s : State ι) (t : TaskletAddr) : Prop :=
  s.tasklets.pending t = true ∧ ∀ i r, s.calls i ≠ some (t, r)

/-- `softirqd` can serve what waits. -/
def Served (s : State ι) : Prop := (∃ t, Waits s t) → Runs s

/-- `softirqd` has a function to call, and no two calls of `raise_softirq` are behind the
load of `softirq_run` and before the store. -/
def Meets (s : State ι) : Act ι → Prop
  | .softirqd => ∀ tsk, s.place = .action → s.tasklets.phase = .call tsk → (s.tasklets.info tsk).func ≠ none
  | .raiseSoftirq i => ∀ t, s.calls i = some (t, .load) → ∀ j u r, s.calls j = some (u, r) → r = .load
  | _ => True

end

/-! ## The scheduler -/

section

variable {ι : Type*} {s s' : State ι} {r r' : Sched.Model.State} {t : Thread}

/-- What a call of the scheduler that is none of the thread's does to it. -/
structure Kept (t : Thread) (r r' : Sched.Model.State) : Prop where
  linked : Linked r'
  idle : r'.threadIdle = r.threadIdle
  ready : Ready t r' ↔ Ready t r
  out : (r.current = t → t ∉ queued r) → r'.current = t → t ∉ queued r'

theorem ready_schedEnqueue_self (t : Thread) (r : Sched.Model.State) : Ready t (schedEnqueue t r) :=
  .inl ((queued_schedEnqueue t r).mem_iff.mpr List.mem_cons_self)

theorem kept_enqueue {u : Thread} (h : Linked r) (hq : u ∉ queued r) (hi : u ≠ r.threadIdle) (hu : u ≠ t) :
    Kept t r (schedEnqueue u r) := by
  have hmem : t ∈ queued (schedEnqueue u r) ↔ t ∈ queued r := by
    rw [(queued_schedEnqueue u r).mem_iff, List.mem_cons, or_iff_right (Ne.symm hu)]
  refine ⟨h.schedEnqueue hq hi, rfl, or_congr hmem Iff.rfl, fun hout hc => ?_⟩
  rw [hmem]
  exact hout hc

theorem kept_dequeue {u : Thread} (h : Linked r) (hu : u ≠ t) : Kept t r (schedDequeue u r).2 := by
  rcases schedDequeue_unlinked u r with he | he
  · rw [he]
    exact ⟨h, rfl, Iff.rfl, fun hout => hout⟩
  · have hmem : t ∈ queued (schedDequeue u r).2 ↔ t ∈ queued r := by
      rw [he.queued h, List.mem_erase_of_ne (Ne.symm hu)]
    have hframe := he.frame
    refine ⟨h.schedDequeue u, by rw [hframe], or_congr hmem (by rw [hframe]), fun hout hc => ?_⟩
    rw [hmem]
    refine hout ?_
    rw [hframe] at hc
    exact hc

/-- An election loses only the thread that runs, unless it is put back. -/
theorem ready_schedElect {flags : SchedOpt} (h : Linked r) (hi : t ≠ r.threadIdle)
    (he : schedElect flags r = some r') :
    Ready t r' ↔ t ∈ queued r ∨ (flags = .tick ∧ r.current = t) := by
  obtain ⟨-, hperm, hcur⟩ := schedElect_spec h he
  have hback : t ∈ putBack flags r ↔ flags = .tick ∧ r.current = t := by
    unfold putBack
    split
    · rename_i hb
      rw [List.mem_singleton]
      exact ⟨fun ht => ⟨hb.1, ht.symm⟩, fun ht => ht.2.symm⟩
    · rename_i hb
      refine ⟨fun ht => (nomatch ht), fun ht => ?_⟩
      exact absurd ⟨ht.1, fun hidle => hi (ht.2.symm.trans hidle)⟩ hb
  unfold Ready
  rw [hperm.mem_iff, List.mem_append, hback]
  by_cases hc : r'.current = t
  · have hq : t ∈ queued r := hc ▸ hcur.resolve_left fun hidle => hi (hc.symm.trans hidle)
    simp [hc, hq]
  · rw [List.mem_erase_of_ne (Ne.symm hc)]
    simp only [hc, or_false]
    exact or_comm

/-- The elected thread is in no queue. -/
theorem notMem_schedElect {flags : SchedOpt} (h : Linked r) (hi : t ≠ r.threadIdle)
    (he : schedElect flags r = some r') (hout : flags = .tick → r.current ∉ queued r) (hc : r'.current = t) :
    t ∉ queued r' := by
  obtain ⟨-, hperm, hcur⟩ := schedElect_spec h he
  have hq : t ∈ queued r := hc ▸ hcur.resolve_left fun hidle => hi (hc.symm.trans hidle)
  rw [hperm.mem_iff, List.mem_append, hc, h.nodup.mem_erase_iff]
  rintro (hb | hne)
  · unfold putBack at hb
    split at hb
    · rename_i hf
      exact hout hf.1 (List.mem_singleton.mp hb ▸ hq)
    · cases hb
  · exact hne.1 rfl

theorem kept_elect {flags : SchedOpt} (h : Linked r) (hi : t ≠ r.threadIdle)
    (hback : flags = .tick → r.current ∉ queued r) (hf : flags = .tick ∨ r.current ≠ t)
    (he : schedElect flags r = some r') : Kept t r r' := by
  refine ⟨h.schedElect hback he, (schedElect_spec h he).1, ?_, fun _ => notMem_schedElect h hi he hback⟩
  rw [ready_schedElect h hi he]
  refine or_congr Iff.rfl ⟨And.right, fun hc => ⟨hf.resolve_right ?_, hc⟩⟩
  exact not_not_intro hc

/-- `thread_yield` of the thread itself. -/
theorem kept_yield (h : Linked r) (hi : t ≠ r.threadIdle) (hc : r.current = t) (hq : t ∉ queued r)
    (he : threadYield r = some r') : Kept t r r' := by
  subst hc
  have hl := h.schedEnqueue hq hi
  have hnone : SchedOpt.none = .tick → (schedEnqueue r.current r).current ∉ queued (schedEnqueue r.current r) :=
    fun hf => by cases hf
  refine ⟨hl.schedElect hnone he, (schedElect_spec hl he).1, ?_, fun _ => notMem_schedElect hl hi he hnone⟩
  rw [ready_schedElect hl hi he, (queued_schedEnqueue _ r).mem_iff]
  exact iff_of_true (.inl List.mem_cons_self) (.inr rfl)

theorem Kept.trans {r'' : Sched.Model.State} (h : Kept t r r') (h' : Kept t r' r'') : Kept t r r'' :=
  ⟨h'.linked, h'.idle.trans h.idle, h'.ready.trans h.ready, fun hout => h'.out (h.out hout)⟩

theorem kept_step {op : Op} (h : Linked s.sched) (hi : s.threadSoftirqd ≠ s.sched.threadIdle) (ho : Others s op)
    (he : Sched.Model.step s.sched op = some r') : Kept s.threadSoftirqd s.sched r' := by
  cases op with
  | enqueue u =>
    obtain ⟨hno, rfl⟩ := Option.ite_none_left_eq_some.mp he |>.imp_right Option.some.inj
    obtain ⟨hq, hu⟩ := not_or.mp hno
    exact kept_enqueue h hq hu ho
  | dequeue u =>
    obtain ⟨-, rfl⟩ := Option.ite_none_left_eq_some.mp he |>.imp_right Option.some.inj
    exact kept_dequeue h ho
  | elect flags =>
    obtain ⟨hno, he⟩ := Option.ite_none_left_eq_some.mp he
    exact kept_elect h hi (fun hf hq => hno ⟨hf, hq⟩) ho he
  | yield =>
    obtain ⟨hno, he⟩ := Option.ite_none_left_eq_some.mp he
    obtain ⟨hq, hu⟩ := not_or.mp hno
    have hput : Kept s.threadSoftirqd s.sched (schedEnqueue s.sched.current s.sched) := kept_enqueue h hq hu ho
    refine hput.trans (kept_elect hput.linked (hput.idle ▸ hi) (fun hf => by cases hf) (.inr ho) he)
  | setPriority u p =>
    obtain rfl := Option.some.inj he
    exact ⟨⟨h.marksActive, h.marksExpire, h.nodup, h.idle⟩, rfl, Iff.rfl, fun hout => hout⟩

/-! ## The flag -/

/-- The call is behind the load of `softirq_run` and before the store. -/
def Between (calls : ι → Option (TaskletAddr × Raise)) (i : ι) : Prop :=
  ∃ t r, calls i = some (t, r) ∧ r ≠ .load

/-- What `softirq_run` says, next to the calls that have seen it clear. -/
structure Flagged (ready : Prop) (run : Bool) (calls : ι → Option (TaskletAddr × Raise)) : Prop where
  one : ∀ i j, Between calls i → Between calls j → i = j
  enqueues : ∀ i t, calls i = some (t, .enqueue) → ¬ ready
  stores : ∀ i t, calls i = some (t, .store) → ready
  set : run = true → ready
  clear : run = false → (∀ i t, calls i ≠ some (t, .store)) → ¬ ready

variable {ready : Prop} {run : Bool} {calls : ι → Option (TaskletAddr × Raise)} {i : ι} {tsk : TaskletAddr}

theorem Flagged.congr {ready' : Prop} (h : Flagged ready run calls) (he : ready' ↔ ready) :
    Flagged ready' run calls := by
  rwa [propext he]

structure Inv (s : State ι) : Prop where
  linked : Linked s.sched
  idle : s.threadSoftirqd ≠ s.sched.threadIdle
  out : s.sched.current = s.threadSoftirqd → s.threadSoftirqd ∉ queued s.sched
  inLoop : s.place = .action ∨ s.place = .yield
  flagged : Flagged (Runs s) s.softirqRun s.calls
  served : Served s

/-- The steps that do not go through `raise_softirq`. -/
theorem Inv.kept {place : Place} {tasklets : Tasklet.State} (h : Inv s)
    (hk : Kept s.threadSoftirqd s.sched r') (hp : place = .action ∨ place = .yield)
    (hw : ∀ t, tasklets.pending t = true → s.tasklets.pending t = true ∨ Runs s) :
    Inv { s with sched := r', tasklets := tasklets, place := place } := by
  refine ⟨hk.linked, hk.idle ▸ h.idle, hk.out h.out, hp, h.flagged.congr hk.ready, fun hwait => hk.ready.mpr ?_⟩
  obtain ⟨t, ht, hc⟩ := hwait
  rcases hw t ht with hold | hr
  · exact h.served ⟨t, hold, hc⟩
  · exact hr

theorem Kept.refl (h : Inv s) : Kept s.threadSoftirqd s.sched s.sched :=
  ⟨h.linked, rfl, Iff.rfl, fun hout => hout⟩

/-- Where there is a function to call, `tasklet_action` does not stop. -/
theorem phase_taskletAction {x y : Tasklet.State} (he : taskletAction x = some y)
    (hf : ∀ tsk, x.phase = .call tsk → (x.info tsk).func ≠ none) : y.phase ≠ .stopped := by
  unfold taskletAction at he
  cases hph : x.phase <;> rw [hph] at he <;> dsimp only at he
  case call tsk =>
    obtain rfl := Option.some.inj he
    simp [hf tsk hph]
  case stopped => cases he
  case test =>
    obtain rfl := Option.some.inj he
    split
    · simp [hph]
    · simp
  case isEmpty p tsk =>
    obtain rfl := Option.some.inj he
    dsimp only
    split <;> simp
  case find =>
    split at he
    · obtain rfl := Option.some.inj he
      simp
    · cases he
  case entry p =>
    split at he
    · obtain rfl := Option.some.inj he
      simp
    · cases he
  all_goals
    obtain rfl := Option.some.inj he
    simp

theorem softirqd_inv (h : Inv s) (hm : Meets s (.softirqd : Act ι)) (he : softirqd s = some s') : Inv s' := by
  obtain ⟨hc, he⟩ := Option.ite_none_right_eq_some.mp he
  rcases h.inLoop with hp | hp <;> rw [hp] at he <;> dsimp only at he
  · split at he
    · obtain rfl := Option.some.inj he
      exact h.kept (.refl h) (.inr rfl) fun _ ht => .inl ht
    · obtain ⟨t, ht, rfl⟩ := Option.map_eq_some_iff.mp he
      rw [if_neg (phase_taskletAction ht fun tsk hph => hm tsk hp hph)]
      exact h.kept (.refl h) (.inl rfl) fun _ _ => .inr (.inr hc)
  · obtain ⟨r, hr, rfl⟩ := Option.map_eq_some_iff.mp he
    exact h.kept (kept_yield h.linked h.idle hc (h.out hc) hr) (.inl rfl) fun _ ht => .inl ht

theorem Inv.enqueuesOff (h : Inv s) (a : Act ι) : EnqueuesOff s a := by
  cases a with
  | raiseSoftirq i =>
    intro tsk hi
    refine ⟨h.flagged.enqueues i tsk hi, fun hp => ?_⟩
    rcases h.inLoop with hl | hl <;> rw [hl] at hp <;> cases hp
  | _ => trivial

theorem inv_init (b : Threads) (mem : Memory (Fin 32) TaskletAddr) (info : TaskletAddr → TaskletStruct) :
    Inv (init b mem info : State ι) := by
  have hne := b.distinct
  simp only [List.nodup_cons, List.mem_cons, List.not_mem_nil, or_false, not_or] at hne
  obtain ⟨⟨-, his⟩, hms, -⟩ := hne
  have hl := linked_boot b.idle b.main
  have hq : queued (boot b.idle b.main) = [] := by simp [queued, boot]
  have hoff : ¬ Runs (init b mem info : State ι) := by
    rintro (hr | hr)
    · have hr : b.softirqd ∈ queued (boot b.idle b.main) := hr
      rw [hq] at hr
      cases hr
    · exact hms hr
  refine ⟨⟨hl.marksActive, hl.marksExpire, hl.nodup, hl.idle⟩, Ne.symm his, fun hr => absurd hr hms, .inl rfl, ?_, ?_⟩
  · refine ⟨fun i _ hi => ?_, fun i t hi => ?_, fun i t hi => ?_, fun hf => ?_, fun _ _ => hoff⟩
    · obtain ⟨_, _, he, -⟩ := hi
      cases he
    · cases hi
    · cases hi
    · cases hf
  · rintro ⟨t, ht, -⟩
    cases ht

/-- A single caller makes one call after the other. -/
theorem meets_raiseSoftirq [Subsingleton ι] (s : State ι) (i : ι) : Meets s (.raiseSoftirq i) := by
  intro t hi j u r hj
  rw [Subsingleton.elim j i, hi] at hj
  exact (congrArg Prod.snd (Option.some.inj hj)).symm

variable [DecidableEq ι]

/-- A call that begins or that has nothing left to do. -/
theorem Flagged.update (h : Flagged ready run calls) (hi : ¬ Between calls i)
    {c : Option (TaskletAddr × Raise)} (hc : ∀ t r, c = some (t, r) → r = .load) :
    Flagged ready run (Function.update calls i c) := by
  have hold : ∀ j t r, r ≠ .load → (Function.update calls i c j = some (t, r) ↔ calls j = some (t, r)) := by
    intro j t r hr
    by_cases hj : j = i
    · subst hj
      rw [Function.update_self]
      exact ⟨fun he => absurd (hc t r he) hr, fun he => absurd ⟨t, r, he, hr⟩ hi⟩
    · rw [Function.update_of_ne hj]
  have hbetween : ∀ j, Between (Function.update calls i c) j → Between calls j := by
    rintro j ⟨t, r, he, hr⟩
    exact ⟨t, r, (hold j t r hr).mp he, hr⟩
  refine ⟨fun j k hj hk => h.one j k (hbetween j hj) (hbetween k hk), fun j t he => ?_, fun j t he => ?_, h.set,
    fun hr hno => h.clear hr fun j t he => hno j t ?_⟩
  · exact h.enqueues j t ((hold j t _ (by simp)).mp he)
  · exact h.stores j t ((hold j t _ (by simp)).mp he)
  · exact (hold j t _ (by simp)).mpr he

/-- The load of a flag that is clear, when no other call is between its load and store. -/
theorem Flagged.load (h : Flagged ready false calls) (hno : ∀ j, ¬ Between calls j) :
    Flagged ready false (Function.update calls i (some (tsk, .enqueue))) := by
  have hout : ¬ ready := h.clear rfl fun j t he => hno j ⟨t, .store, he, by simp⟩
  have hone : ∀ j, Between (Function.update calls i (some (tsk, .enqueue))) j → j = i := by
    rintro j ⟨t, r, he, hr⟩
    by_contra hj
    rw [Function.update_of_ne hj] at he
    exact hno j ⟨t, r, he, hr⟩
  refine ⟨fun j k hj hk => (hone j hj).trans (hone k hk).symm, fun _ _ _ => hout, fun j t he => ?_,
    fun hf => (nomatch hf), fun _ _ => hout⟩
  obtain rfl := hone j ⟨t, .store, he, by simp⟩
  rw [Function.update_self] at he
  cases he

/-- `sched_enqueue`. -/
theorem Flagged.enqueue {ready' : Prop} (h : Flagged ready run calls) (hi : calls i = some (tsk, .enqueue))
    (hr : ready') :
    Flagged ready' run (Function.update calls i (some (tsk, .store))) := by
  have hbi : Between calls i := ⟨tsk, .enqueue, hi, by simp⟩
  have hone : ∀ j, Between (Function.update calls i (some (tsk, .store))) j → j = i := by
    rintro j ⟨t, r, he, hrl⟩
    by_contra hj
    rw [Function.update_of_ne hj] at he
    exact hj (h.one j i ⟨t, r, he, hrl⟩ hbi)
  refine ⟨fun j k hj hk => (hone j hj).trans (hone k hk).symm, fun j t he => ?_, fun _ _ _ => hr, fun _ => hr,
    fun _ hno => ?_⟩
  · obtain rfl := hone j ⟨t, .enqueue, he, by simp⟩
    rw [Function.update_self] at he
    cases he
  · exact absurd (Function.update_self ..) (hno i tsk)

/-- The store of the flag. -/
theorem Flagged.store (h : Flagged ready run calls) (hi : calls i = some (tsk, .store)) :
    Flagged ready true (Function.update calls i none) := by
  have hr := h.stores i tsk hi
  have hnone : ∀ j, ¬ Between (Function.update calls i none) j := by
    rintro j ⟨t, r, he, hrl⟩
    by_cases hj : j = i
    · subst hj
      rw [Function.update_self] at he
      cases he
    · rw [Function.update_of_ne hj] at he
      exact hj (h.one j i ⟨t, r, he, hrl⟩ ⟨tsk, .store, hi, by simp⟩)
  refine ⟨fun j _ hj => absurd hj (hnone j), fun j t he => ?_, fun _ _ _ => hr, fun _ => hr, fun hf => (nomatch hf)⟩
  exact absurd ⟨t, .enqueue, he, by simp⟩ (hnone j)

/-! ## One step -/

theorem pending_taskletSchedule (tsk u : TaskletAddr) (x : Tasklet.State) :
    (taskletSchedule (some tsk) x).2.pending u = true → u = tsk ∨ x.pending u = true := by
  intro hu
  by_cases hp : prioTaskletMinprio < (x.info tsk).prio
  · rw [taskletSchedule, dif_pos hp] at hu
    exact .inr hu
  · rw [taskletSchedule, dif_neg hp] at hu
    by_cases hut : u = tsk
    · exact .inl hut
    · exact .inr ((Function.update_of_ne hut _ _).symm.trans hu)

theorem taskletSchedule_keeps (x : Tasklet.State) (tsk : TaskletAddr) {u : TaskletAddr} (hu : x.pending u = true) :
    (taskletSchedule (some tsk) x).2.pending u = true := by
  by_cases hp : prioTaskletMinprio < (x.info tsk).prio
  · rw [taskletSchedule, dif_pos hp]
    exact hu
  · rw [taskletSchedule, dif_neg hp]
    show Function.update x.pending tsk true u = true
    by_cases hut : u = tsk
    · rw [hut, Function.update_self]
    · rw [Function.update_of_ne hut]
      exact hu

theorem schedule_inv {task : Option TaskletAddr} (h : Inv s) (he : schedule i task s = some s') : Inv s' := by
  obtain ⟨hfree, hs⟩ := Option.ite_none_right_eq_some.mp he
  obtain ⟨t, ht, rfl⟩ := Option.map_eq_some_iff.mp hs
  cases task with
  | none => exact h
  | some tsk =>
    dsimp only
    split
    · obtain ⟨-, rfl⟩ := Option.ite_none_right_eq_some.mp ht |>.imp_right Option.some.inj
      have hflag := h.flagged.update (i := i) (c := some (tsk, .load)) (fun hb => ?_) fun u r hu => ?_
      · refine ⟨h.linked, h.idle, h.out, h.inLoop, hflag, ?_⟩
        rintro ⟨u, hu, hc⟩
        have hne : u ≠ tsk := by
          rintro rfl
          exact hc i .load (Function.update_self ..)
        refine h.served ⟨u, (pending_taskletSchedule tsk u _ hu).resolve_left hne, fun j r hj => ?_⟩
        by_cases hji : j = i
        · rw [hji, hfree] at hj
          cases hj
        · exact hc j r ((Function.update_of_ne hji _ _).trans hj)
      · obtain ⟨u, r, hu, -⟩ := hb
        rw [hfree] at hu
        cases hu
      · cases hu
        rfl
    · exact h

theorem raiseSoftirq_inv (h : Inv s) (hm : Meets s (.raiseSoftirq i)) (he : raiseSoftirq i s = some s') : Inv s' := by
  unfold raiseSoftirq at he
  cases hi : s.calls i with
  | none =>
    rw [hi] at he
    cases he
  | some c =>
    obtain ⟨tsk, r⟩ := c
    rw [hi] at he
    cases r with
    | load =>
      obtain rfl := Option.some.inj he
      cases hrun : s.softirqRun with
      | false =>
        have hno : ∀ j, ¬ Between s.calls j := by
          rintro j ⟨u, r, hj, hr⟩
          exact hr (hm tsk hi j u r hj)
        refine ⟨h.linked, h.idle, h.out, h.inLoop, (hrun ▸ h.flagged).load hno, ?_⟩
        rintro ⟨t, ht, hc⟩
        refine h.served ⟨t, ht, fun j r hj => ?_⟩
        by_cases hji : j = i
        · -- the call is still under way, for the same tasklet
          subst hji
          obtain rfl : tsk = t := congrArg Prod.fst (Option.some.inj (hi.symm.trans hj))
          exact hc j .enqueue (Function.update_self ..)
        · exact hc j r ((Function.update_of_ne hji _ _).trans hj)
      | true =>
        have hflag := h.flagged
        rw [hrun] at hflag
        have hend := hflag.update (i := i) (c := none) (fun hb => ?_) fun _ _ hu => (nomatch hu)
        · exact ⟨h.linked, h.idle, h.out, h.inLoop, hend, fun _ => hflag.set rfl⟩
        · obtain ⟨u, r, hu, hr⟩ := hb
          exact hr (hm tsk hi i u r hu)
    | enqueue =>
      obtain rfl := Option.some.inj he
      have hoff := h.flagged.enqueues i tsk hi
      have hon := ready_schedEnqueue_self s.threadSoftirqd s.sched
      refine ⟨h.linked.schedEnqueue (fun hq => hoff (.inl hq)) h.idle, h.idle, ?_, h.inLoop, ?_, fun _ => hon⟩
      · exact fun hc => absurd (.inr hc) hoff
      · exact h.flagged.enqueue hi hon
    | store =>
      obtain rfl := Option.some.inj he
      exact ⟨h.linked, h.idle, h.out, h.inLoop, h.flagged.store hi, fun _ => h.flagged.stores i tsk hi⟩

theorem step_inv {a : Act ι} (h : Inv s) (hm : Meets s a) (he : step s a = some s') : Inv s' := by
  cases a with
  | taskletInit tsk prio func =>
    obtain ⟨t, ht, rfl⟩ := Option.map_eq_some_iff.mp he
    obtain ⟨-, rfl⟩ := Option.ite_none_left_eq_some.mp ht |>.imp_right Option.some.inj
    exact h.kept (.refl h) h.inLoop fun _ ht => .inl ht
  | taskletSchedule i task => exact schedule_inv h he
  | raiseSoftirq i => exact raiseSoftirq_inv h hm he
  | softirqd => exact softirqd_inv h hm he
  | sched op =>
    obtain ⟨ho, he⟩ := Option.ite_none_right_eq_some.mp he
    obtain ⟨r, hr, rfl⟩ := Option.map_eq_some_iff.mp he
    exact h.kept (kept_step h.linked h.idle ho hr) h.inLoop fun _ ht => .inl ht

/-- **The daemon can serve.** In every run in which `softirqd` meets no tasklet without a
function and the calls of `raise_softirq` keep out of each other's way, `raise_softirq`
enqueues `softirqd` only when it is neither queued nor running nor terminated, and whenever
a tasklet waits whose call has returned `softirqd` is queued or running. -/
theorem runs_serve (b : Threads) (mem : Memory (Fin 32) TaskletAddr) (info : TaskletAddr → TaskletStruct)
    (as : List (Act ι)) (hm : ∀ x ∈ trace step (init b mem info) as, Meets x.pre x.act) :
    ∀ x ∈ trace step (init b mem info) as, EnqueuesOff x.pre x.act ∧ Served x.post := by
  intro x hx
  obtain ⟨hpre, hpost⟩ := trace_invariant (fun _ _ _ hi hc he => step_inv hi hc he) (inv_init b mem info) hm x hx
  exact ⟨hpre.enqueuesOff x.act, hpost.served⟩

/-- `softirqd` is out of its loop, and the tasklet is pending. -/
def Left (t : TaskletAddr) (s : State ι) : Prop :=
  (s.place ≠ .action ∧ s.place ≠ .yield) ∧ s.tasklets.pending t = true

theorem left_step {s s' : State ι} {t : TaskletAddr} {a : Act ι} (h : Left t s) (he : step s a = some s') :
    Left t s' := by
  obtain ⟨⟨haction, hyield⟩, ht⟩ := h
  cases a with
  | taskletInit tsk prio func =>
    obtain ⟨x, hx, rfl⟩ := Option.map_eq_some_iff.mp he
    obtain ⟨-, rfl⟩ := Option.ite_none_left_eq_some.mp hx |>.imp_right Option.some.inj
    exact ⟨⟨haction, hyield⟩, ht⟩
  | taskletSchedule i task =>
    obtain ⟨-, hs⟩ := Option.ite_none_right_eq_some.mp he
    obtain ⟨x, hx, rfl⟩ := Option.map_eq_some_iff.mp hs
    obtain ⟨-, rfl⟩ := Option.ite_none_right_eq_some.mp hx |>.imp_right Option.some.inj
    cases task with
    | none => exact ⟨⟨haction, hyield⟩, ht⟩
    | some tsk =>
      dsimp only
      split
      · exact ⟨⟨haction, hyield⟩, taskletSchedule_keeps _ tsk ht⟩
      · exact ⟨⟨haction, hyield⟩, ht⟩
  | raiseSoftirq i =>
    simp only [step, raiseSoftirq] at he
    split at he <;> cases he <;> exact ⟨⟨haction, hyield⟩, ht⟩
  | softirqd =>
    obtain ⟨-, he⟩ := Option.ite_none_right_eq_some.mp he
    cases hp : s.place with
    | action => exact absurd hp haction
    | yield => exact absurd hp hyield
    | leave =>
      rw [hp] at he
      obtain rfl := Option.some.inj he
      exact ⟨by simp, ht⟩
    | exit =>
      rw [hp] at he
      obtain ⟨r, -, rfl⟩ := Option.map_eq_some_iff.mp he
      exact ⟨by simp, ht⟩
    | exited =>
      rw [hp] at he
      cases he
  | sched op =>
    obtain ⟨-, he⟩ := Option.ite_none_right_eq_some.mp he
    obtain ⟨r, -, rfl⟩ := Option.map_eq_some_iff.mp he
    exact ⟨⟨haction, hyield⟩, ht⟩

/-- **Left for good.** Once `softirqd` has left its loop, a tasklet that waits does so for
ever. -/
theorem left_waits {s : State ι} (hleft : s.place ≠ .action ∧ s.place ≠ .yield) {t : TaskletAddr}
    (ht : s.tasklets.pending t = true) (as : List (Act ι)) :
    ∀ x ∈ trace step s as, x.post.tasklets.pending t = true := by
  have hkeep : ∀ (s : State ι) a s', Left t s → True → step s a = some s' → Left t s' :=
    fun _ _ _ hs _ he => left_step hs he
  intro x hx
  exact (trace_invariant hkeep ⟨hleft, ht⟩ (fun _ _ => trivial) x hx).2.2

end

/-! ## Concrete runs -/

def start : State Unit := init Sync.Place.threads TaskletQueue.memory fun _ => ⟨0, none⟩

/-- A tasklet is made and scheduled by one caller. -/
def scheduled (tsk : TaskletAddr) (func : Option Kernel.Bitops.Word) : List (Act Unit) :=
  [.taskletInit tsk 0 func, .taskletSchedule () (some tsk), .raiseSoftirq (), .raiseSoftirq (), .raiseSoftirq ()]

/-- One tasklet without a function and another behind it; the tick leaves the main thread. -/
def twoTasklets : List (Act Unit) :=
  scheduled 0 none ++
    [.taskletInit 1 0 (some 1), .taskletSchedule () (some 1), .raiseSoftirq (), .sched (.elect .tick)] ++
    List.replicate 12 .softirqd

/-- `softirqd` ends with the second tasklet pending. -/
theorem left_behind : ∃ s, run step start twoTasklets = some s ∧ s.place = .exited ∧ ¬ Served s := by
  refine ⟨_, rfl, rfl, fun h => ?_⟩
  rcases h ⟨1, rfl, fun _ _ hi => (nomatch hi)⟩ with hq | hc
  · revert hq
    decide
  · revert hc
    decide

/-- A tasklet with a function is scheduled, and `softirqd` begins to serve it. -/
def oneTasklet : List (Act Unit) := scheduled 0 (some 1) ++ [.sched (.elect .tick), .softirqd]

theorem runs_serve_oneTasklet : (trace step start oneTasklet).length = 7 ∧
    ∀ x ∈ trace step start oneTasklet, EnqueuesOff x.pre x.act ∧ Served x.post := by
  refine ⟨rfl, runs_serve _ _ _ _ ?_⟩
  have hraise := fun s => meets_raiseSoftirq s ()
  refine forall_trace_cons rfl trivial (forall_trace_cons rfl trivial (forall_trace_cons rfl (hraise _) ?_))
  refine forall_trace_cons rfl (hraise _) (forall_trace_cons rfl (hraise _) ?_)
  refine forall_trace_cons rfl trivial (forall_trace_cons rfl ?_ fun _ hx => (nomatch hx))
  intro tsk _ ht
  cases ht

end PikoRT.Softirq.Daemon

import PikoRT.Sync.Join
import PikoRT.Time.TimerList

/-! # The threads that the kernel keeps pointers to

Threads, run queues and timers together. The kernel follows the pointers to a thread
in a run queue, the owner of a linked timer, the thread that joins, and `softirqd`.
`thread_exit` frees the stack of a thread and looks only at the thread that joins it.
A thread that exits is in no list, as it runs; nothing unlinks the timers it owns, and
`raise_softirq` enqueues `softirqd` again after it has left its loop. In the runs
without these two, every thread the kernel points to lives.

`ti_joining` of a thread that has exited is a leftover: `thread_exit` has read it, and
`thread_join` only asks whether it is there. -/
namespace PikoRT.Time.Owners
open PikoRT.Lib.Run PikoRT.Lib.Rings PikoRT.Kernel.Bitops PikoRT.Kernel.LinuxList
open PikoRT.Sched.Model hiding step
open PikoRT.Sched.RunQueue PikoRT.Sync.Kernel PikoRT.Sync.Place
open PikoRT.Sync.Join (Apart sameJoins_step)
open PikoRT.Time.Timer (TimerAddr Timers Block Sigevent Itimerspec Timespec TimerInfo Fire expired)
open PikoRT.Time.TimerList

/-! ## What the entries do not look at -/

/-- The same system with other sleepers and another flag of `softirqd`. -/
def mask (ts : List Thread) (r : Bool) (k : System) : System := { k with timers := ts, softirqRun := r }

/-- The entries that neither sleep, wake a sleeper, raise a softirq nor leave the loop
of `softirqd`. -/
def Blind : Entry → Prop
  | .svc (.msleep _ _) => False
  | .timerExpire _ => False
  | .raiseSoftirq _ => False
  | .softirqdLeave => False
  | _ => True

section

variable {k k' : System} {ts : List Thread} {r : Bool}

theorem elect_mask (flags : SchedOpt) (k : System) :
    elect flags (mask ts r k) = (elect flags k).map (mask ts r) := by
  unfold elect
  rw [Option.map_map]
  rfl

theorem mutexLock_mask (m : Ptr) (k : System) :
    sysPthreadMutexLock m (mask ts r k) = (sysPthreadMutexLock m k).map (mask ts r) := by
  unfold sysPthreadMutexLock
  dsimp only
  by_cases hv : (addVal m 1 k).val m = 0
  · rw [if_pos hv]
    exact if_pos hv
  · rw [if_neg hv]
    exact (if_neg hv).trans (elect_mask .none (blockOnMutex m (addVal m 1 k)))

theorem reschedule_mask (w : Option Thread) (k : System) :
    reschedule w (mask ts r k) = (reschedule w k).map (mask ts r) := by
  unfold reschedule
  by_cases hb : (k.sched.info k.current).tiState = .blocked
  · rw [if_pos hb]
    exact (if_pos hb).trans (elect_mask .none k)
  · rw [if_neg hb]
    refine (if_neg hb).trans ?_
    cases w with
    | none => rfl
    | some w =>
      dsimp only
      by_cases hp : (k.sched.info k.current).tiPriority ≤ (k.sched.info w).tiPriority
      · rw [if_pos hp]
        exact (if_pos hp).trans (elect_mask .none (enqueue k.current k))
      · rw [if_neg hp]
        exact if_neg hp

theorem mutexUnlock_mask (m : Ptr) (k : System) :
    sysPthreadMutexUnlock m (mask ts r k) = (sysPthreadMutexUnlock m k).map (mask ts r) := by
  unfold sysPthreadMutexUnlock
  dsimp only
  by_cases hv : 0 ≤ (addVal m (-1) k).val m
  · rw [if_pos hv]
    refine (if_pos hv).trans ?_
    have hfind : findFirstBlockingThread m (addVal m (-1) (mask ts r k)) =
        findFirstBlockingThread m (addVal m (-1) k) := rfl
    rw [hfind]
    cases findFirstBlockingThread m (addVal m (-1) k) with
    | none => rfl
    | some w => exact reschedule_mask (some w) (wakeWaiter w (addVal m (-1) k))
  · rw [if_neg hv]
    exact (if_neg hv).trans (reschedule_mask none (addVal m (-1) k))

theorem condSignal_mask (c : Ptr) (k : System) :
    sysPthreadCondSignal c (mask ts r k) = (sysPthreadCondSignal c k).map (mask ts r) := by
  unfold sysPthreadCondSignal
  have hfind : findOtherThread c (mask ts r k) = findOtherThread c k := rfl
  rw [hfind]
  cases findOtherThread c k with
  | none => rfl
  | some other =>
    dsimp only
    let p := enqueue other { k with condHead := k.condHead.erase other }
    by_cases hp : (p.sched.info p.current).tiPriority ≤ (p.sched.info other).tiPriority
    · rw [if_pos hp]
      exact (if_pos hp).trans (elect_mask .none (enqueue p.current p))
    · rw [if_neg hp]
      exact if_neg hp

theorem serialcharRead_mask (count : ℕ) (k : System) :
    serialcharRead count (mask ts r k) = (serialcharRead count k).map (mask ts r) := by
  unfold serialcharRead
  by_cases hn : k.rxCount < count
  · rw [if_pos hn]
    exact (if_pos hn).trans (elect_mask .none (setKont k.current (.serialRead count) k))
  · rw [if_neg hn]
    refine (if_neg hn).trans ?_
    by_cases hc : count = 1
    · rw [if_pos hc, if_pos hc]
      rfl
    · rw [if_neg hc, if_neg hc]
      rfl

theorem exitThread_mask (k : System) : exitThread (mask ts r k) = mask ts r (exitThread k) := by
  unfold exitThread
  have hd : (mask ts r k).tiDetached (mask ts r k).current = k.tiDetached k.current := rfl
  have hj : (mask ts r k).tiJoining (mask ts r k).current = k.tiJoining k.current := rfl
  rw [hd, hj]
  cases k.tiDetached k.current with
  | true => rfl
  | false =>
    cases k.tiJoining k.current with
    | none => rfl
    | some other => rfl

theorem join_mask (other : Thread) (k : System) :
    sysPthreadJoin other (mask ts r k) = (sysPthreadJoin other k).map (mask ts r) := by
  have hf : findThread other (mask ts r k) = findThread other k := rfl
  have hd : (mask ts r k).tiDetached other = k.tiDetached other := rfl
  have hb : (mask ts r k).tiJoinable other = k.tiJoinable other := rfl
  have hj : (mask ts r k).tiJoining other = k.tiJoining other := rfl
  unfold sysPthreadJoin
  rw [hf, hd, hb, hj]
  split
  · rfl
  · split
    · rfl
    · split
      · rfl
      · split
        · rfl
        · exact elect_mask .none (setKont k.current (.joinRet other)
            { k with tiJoining := Function.update k.tiJoining other (some k.current) })

theorem syscall_mask {c : Syscall} (hb : Blind (.svc c)) (k : System) :
    syscall (mask ts r k) c = (syscall k c).map (mask ts r) := by
  cases c with
  | yield => exact elect_mask .none (enqueue k.current k)
  | create page =>
    cases page with
    | none => rfl
    | some t => rfl
  | exit => exact (congrArg _ (exitThread_mask k)).trans (elect_mask .restoreOnly (exitThread k))
  | join other => exact join_mask other k
  | detach other =>
    have hf : findThread other (mask ts r k) = findThread other k := rfl
    simp only [syscall, sysPthreadDetach, hf]
    split <;> rfl
  | mutexLock m => exact mutexLock_mask m k
  | mutexUnlock m => exact mutexUnlock_mask m k
  | condWait c m => exact mutexUnlock_mask m (blockOnCond c m k)
  | condSignal c => exact condSignal_mask c k
  | msleep alloc msec => exact hb.elim
  | serialOpen => rfl
  | serialRead count => exact serialcharRead_mask count k

/-- **Blind entries** do the same whoever sleeps and whatever `softirq_run` is. -/
theorem step_mask {e : Entry} (hb : Blind e) (k : System) :
    step (mask ts r k) e = (step k e).map (mask ts r) := by
  cases e with
  | svc c =>
    have hguard : ((mask ts r k).threadMode ∧ (mask ts r k).current ≠ (mask ts r k).idle ∧
        validPage (mask ts r k) c = true) ↔ (k.threadMode ∧ k.current ≠ k.idle ∧ validPage k c = true) := by
      cases c <;> exact Iff.rfl
    simp only [step, hguard]
    split
    · exact syscall_mask hb k
    · rfl
  | resume =>
    have hk : (mask ts r k).kont (mask ts r k).current = k.kont k.current := rfl
    simp only [step, resume, hk]
    cases k.kont k.current with
    | user => rfl
    | condLock m => exact mutexLock_mask m (setKont k.current .user k)
    | serialRead count => exact serialcharRead_mask count k
    | timerFree => rfl
    | joinRet o => rfl
  | pendsv =>
    have hm : (mask ts r k).threadMode ↔ k.threadMode := Iff.rfl
    simp only [step, hm]
    split
    · exact elect_mask .tick k
    · rfl
  | softirqdLeave => exact hb.elim
  | raiseSoftirq nr => exact hb.elim
  | timerExpire t => exact hb.elim
  | uart =>
    have ho : (mask ts r k).serialOwner = k.serialOwner := rfl
    simp only [step, uartIsr, ho]
    cases k.serialOwner <;> rfl

/-- They change neither. -/
theorem step_wakers {e : Entry} (hb : Blind e) (he : step k e = some k') :
    k'.timers = k.timers ∧ k'.softirqRun = k.softirqRun := by
  have hself : mask k.timers k.softirqRun k = k := rfl
  have hm : step (mask k.timers k.softirqRun k) e = (step k e).map (mask k.timers k.softirqRun) := step_mask hb k
  rw [hself, he] at hm
  have hk : k' = mask k.timers k.softirqRun k' := Option.some.inj hm
  have htimers := congrArg System.timers hk
  have hrun := congrArg System.softirqRun hk
  exact ⟨htimers, hrun⟩

end

/-! ## The machine -/

structure Machine where
  kernel : System
  timers : Timers
  /-- `softirqd` has left its loop. -/
  left : Bool

/-- The entries of the kernel that have nothing to do with a timer, and those that
have. -/
inductive Act where
  | entry (e : Entry)
  | timerCreate (mem : Option Block) (sevp : Sigevent)
  | timerSettime (timerid : ℕ) (newValue : Itimerspec)
  | msleep (mem : Option Block) (msec : Word)
  | msleepReturn (t : TimerAddr)
  | systick
  | systickBh (fuel : ℕ)

/-- The entry has no part in a timer. -/
def apart (k : System) : Entry → Bool
  | .svc (.msleep _ _) => false
  | .timerExpire _ => false
  | .resume => decide (k.kont k.current ≠ .timerFree)
  | _ => true

/-- The callbacks of the sleepers that a run of the bottom half has woken. -/
def wake (fs : List Fire) (k : System) : System :=
  fs.foldl (fun k f => if f.sigev = none then enqueue f.owner { k with timers := k.timers.erase f.owner } else k) k

/-- The running thread may make a call. -/
def calls (k : System) : Prop := k.threadMode ∧ k.current ≠ k.idle

instance (k : System) : Decidable (calls k) := inferInstanceAs (Decidable (_ ∧ _))

def step (s : Machine) : Act → Option Machine
  | .entry e =>
    if apart s.kernel e then
      (Sync.Kernel.step s.kernel e).map fun k =>
        { s with kernel := k, left := s.left || decide (e = .softirqdLeave) }
    else none
  | .timerCreate mem sevp =>
    if calls s.kernel then
      (Timer.step s.timers (.timerCreate mem sevp)).map fun m => { s with timers := m }
    else none
  | .timerSettime timerid newValue =>
    if calls s.kernel then
      (Timer.step s.timers (.timerSettime timerid newValue s.kernel.current)).map fun m =>
        { s with timers := m }
    else none
  | .msleep mem msec =>
    if calls s.kernel then
      (Timer.step s.timers (.msleep mem msec s.kernel.current)).bind fun m =>
        (Sync.Kernel.sysMsleep mem.isSome msec.toNat s.kernel).map fun k => { s with kernel := k, timers := m }
    else none
  | .msleepReturn t =>
    if s.kernel.kont s.kernel.current = .timerFree ∧ (s.timers.info t).owner = s.kernel.current then
      (Timer.step s.timers (.msleepReturn t)).map fun m =>
        { s with kernel := setKont s.kernel.current .user s.kernel, timers := m }
    else none
  | .systick => (Timer.step s.timers .systick).map fun m => { s with timers := m }
  | .systickBh fuel =>
    if s.kernel.threadMode ∧ s.kernel.current = s.kernel.threadSoftirqd then
      (Timer.step s.timers (.systickBh fuel)).map fun m =>
        { s with kernel := wake (m.fired.drop s.timers.fired.length) s.kernel, timers := m }
    else none

def init (b : Threads) (val : Ptr → ℤ) (mem : Memory Unit TimerAddr) (info : TimerAddr → TimerInfo) : Machine :=
  ⟨start b val, Timer.init mem info, false⟩

/-! ## No dead thread -/

/-- **No reference to a dead thread.** -/
structure NoDead (s : Machine) : Prop where
  timers : ∃ xs, Listed s.timers xs ∧ ∀ t ∈ xs, s.kernel.life (s.timers.info t).owner = .live
  queued : ∀ t ∈ queued s.kernel.sched, s.kernel.life t = .live
  joiners : ∀ o j, s.kernel.tiJoining o = some j → s.kernel.life o = .live → s.kernel.life j = .live
  current : s.kernel.life s.kernel.current = .live

/-- The callbacks of a run of the bottom half are for threads that live. -/
def EventsLive (s : Machine) (a : Act) (s' : Machine) : Prop :=
  ∀ fuel, a = .systickBh fuel →
    ∀ f ∈ s'.timers.fired.drop s.timers.fired.length, s.kernel.life f.owner = .live

/-- The step keeps the timer list (arming only what is disarmed, sleeping for some
time); a thread that exits owns no armed timer; `softirqd` is not raised once it has
left its loop. A received character and a wait on a condition variable keep every
thread in one place. -/
def Meets (s : Machine) : Act → Prop
  | .entry (.svc .exit) => ∀ t, Armed s.timers t → (s.timers.info t).owner ≠ s.kernel.current
  | .entry (.raiseSoftirq nr) => s.left = true → s.kernel.softirqRun = true ∨ 1 ≤ nr
  | .entry .softirqdLeave => True
  | .entry e => Safe s.kernel e
  | .timerCreate mem sevp => TimerList.Meets s.timers (.timerCreate mem sevp)
  | .timerSettime timerid newValue =>
    TimerList.Meets s.timers (.timerSettime timerid newValue s.kernel.current)
  | .msleep mem msec => TimerList.Meets s.timers (.msleep mem msec s.kernel.current)
  | _ => True

/-- The system as it would be if `softirqd` were still in its loop. -/
def view (s : Machine) : System := mask s.kernel.timers (s.left || s.kernel.softirqRun) s.kernel

/-- What the owners of the armed timers are. -/
structure Owned (k : System) (m : Timers) : Prop where
  live : ∀ t, Armed m t → k.life (m.info t).owner = .live
  waits : ∀ t, Armed m t → Sleeper m t → (m.info t).owner ∈ k.timers
  once : ∀ t u, Armed m t → Armed m u → Sleeper m t → Sleeper m u →
    (m.info t).owner = (m.info u).owner → t = u

structure Inv (s : Machine) : Prop where
  timers : ∃ xs, TimerList.Inv s.timers xs
  placed : Placed (view s)
  owned : Owned s.kernel s.timers

section

variable {s s' : Machine} {k k' : System} {m m' : Timers} {t : TimerAddr}

theorem Inv.noDead (h : Inv s) : NoDead s := by
  have hlive : ∀ t, ¬ Off (view s) t → s.kernel.life t = .live := by
    intro t hoff
    by_contra hne
    exact hoff (.inr (.inr (.inr hne)))
  refine ⟨?_, fun t ht => hlive t fun hoff => ?_, fun o j hj ho => ?_, hlive _ h.placed.awake⟩
  · obtain ⟨xs, hxs⟩ := h.timers
    exact ⟨xs, hxs.toListed, fun t ht => h.owned.live t ((hxs.mem_iff t).mp ht)⟩
  · exact (h.placed.off t hoff).1 (List.mem_append_left _ ht)
  · by_contra hne
    have hkont : s.kernel.kont j = .joinRet o := h.placed.konts.joins o j hj ho
    have hdead : s.kernel.kont j = .user := h.placed.konts.dead j hne
    rw [hdead] at hkont
    cases hkont

/-! ## Entries without a timer -/

theorem safe_view (e : Entry) : Safe (view s) e ↔ Safe s.kernel e := by
  cases e with
  | svc c => cases c <;> exact Iff.rfl
  | resume => exact Iff.rfl
  | pendsv => exact Iff.rfl
  | softirqdLeave => exact Iff.rfl
  | raiseSoftirq nr => exact Iff.rfl
  | timerExpire t => exact Iff.rfl
  | uart => exact Iff.rfl

theorem placed_blind {e : Entry} (h : Placed (view s)) (hb : Blind e) (hsafe : Safe s.kernel e)
    (he : Sync.Kernel.step s.kernel e = some k') : Placed (view { s with kernel := k' }) := by
  obtain ⟨ht, hr⟩ := step_wakers hb he
  have hview : view { s with kernel := k' } = mask s.kernel.timers (s.left || s.kernel.softirqRun) k' := by
    unfold view
    rw [ht, hr]
  rw [hview]
  refine step_placed (view s) e _ h ((safe_view e).mpr hsafe) ?_
  rw [view, step_mask hb, he]
  rfl

/-- Nothing but its own exit ends the life of a thread. -/
theorem life_step {e : Entry} {u : Thread} (he : Sync.Kernel.step k e = some k') (hl : k.life u = .live)
    (hu : e = .svc .exit → u ≠ k.current) : k'.life u = .live := by
  by_cases ha : Apart e
  · rw [(sameJoins_step ha he).life]
    exact hl
  · cases e with
    | svc c =>
      simp only [Sync.Kernel.step, Option.ite_none_right_eq_some] at he
      obtain ⟨-, he⟩ := he
      cases c with
      | exit =>
        obtain ⟨p, -, rfl⟩ := Option.map_eq_some_iff.mp he
        have hne := hu rfl
        show (exitThread k).life u = .live
        unfold exitThread
        split
        · dsimp only
          split <;> exact (Function.update_of_ne hne _ _).trans hl
        · exact (Function.update_of_ne hne _ _).trans hl
      | join other =>
        simp only [syscall, sysPthreadJoin] at he
        split at he
        · cases he; exact hl
        · split at he
          · cases he; exact hl
          · split at he
            · cases he; exact hl
            · split at he
              · cases he; exact hl
              · obtain ⟨p, -, rfl⟩ := Option.map_eq_some_iff.mp he
                exact hl
      | create page =>
        cases page with
        | none => exact absurd trivial ha
        | some p =>
          cases he
          show Function.update k.life p .live u = .live
          by_cases hup : u = p
          · rw [hup, Function.update_self]
          · rw [Function.update_of_ne hup, hl]
      | _ => exact absurd trivial ha
    | _ => exact absurd trivial ha

theorem Owned.kernel (h : Owned k m) (ht : ∀ u ∈ k.timers, u ∈ k'.timers)
    (hl : ∀ t, Armed m t → k'.life (m.info t).owner = .live) : Owned k' m :=
  ⟨hl, fun t ha hs => ht _ (h.waits t ha hs), h.once⟩

theorem view_of_not_left (hl : s.left = false) : view s = s.kernel := by
  unfold view
  rw [hl]
  rfl

theorem inv_raiseSoftirq {nr : ℕ} (h : Inv s) (hm : s.left = true → s.kernel.softirqRun = true ∨ 1 ≤ nr) :
    Inv { s with kernel := raiseSoftirq nr s.kernel } := by
  have hsame : s.kernel.softirqRun = true ∨ 1 ≤ nr → raiseSoftirq nr s.kernel = s.kernel := by
    intro hr
    unfold raiseSoftirq
    rcases hr with hr | hr
    · simp [hr]
    · simp [hr]
  by_cases hr : s.kernel.softirqRun = true ∨ 1 ≤ nr
  · rw [hsame hr]
    exact h
  · have hl : s.left = false := by
      cases hl : s.left with
      | false => rfl
      | true => exact absurd (hm hl) hr
    have hp : Placed s.kernel := view_of_not_left hl ▸ h.placed
    have hframe : (raiseSoftirq nr s.kernel).timers = s.kernel.timers ∧
        (raiseSoftirq nr s.kernel).life = s.kernel.life := by
      unfold raiseSoftirq
      split
      · exact ⟨rfl, rfl⟩
      · split <;> exact ⟨rfl, rfl⟩
    refine ⟨h.timers, ?_, h.owned.kernel (fun u hu => hframe.1 ▸ hu) fun t ha => hframe.2 ▸ h.owned.live t ha⟩
    rw [view_of_not_left (s := { s with kernel := raiseSoftirq nr s.kernel }) hl]
    exact hp.raiseSoftirq nr

/-- `softirqd` runs, so it was in its loop, or its view is as before. -/
theorem inv_softirqdLeave (h : Inv s) (he : softirqdLeave s.kernel = some k') :
    Inv { s with kernel := k', left := true } := by
  unfold softirqdLeave at he
  split at he
  · rename_i hc
    cases he
    have hon : (s.left || s.kernel.softirqRun) = true := by
      by_contra hne
      exact h.placed.awake (.inr (.inr (.inl ⟨Bool.eq_false_iff.mpr hne, hc⟩)))
    have hp := h.placed
    rw [view, hon] at hp
    exact ⟨h.timers, hp, h.owned.kernel (fun _ hu => hu) h.owned.live⟩
  · cases he

theorem inv_entry {e : Entry} (h : Inv s) (hm : Meets s (.entry e)) (he : step s (.entry e) = some s') :
    Inv s' := by
  simp only [step, Option.ite_none_right_eq_some] at he
  obtain ⟨hap, he⟩ := he
  obtain ⟨k', hk, rfl⟩ := Option.map_eq_some_iff.mp he
  have hblind : Blind e → Safe s.kernel e →
      (∀ t, Armed s.timers t → e = .svc .exit → (s.timers.info t).owner ≠ s.kernel.current) →
      Inv { s with kernel := k', left := s.left || decide (e = .softirqdLeave) } := by
    intro hb hsafe hexit
    have hleft : (s.left || decide (e = .softirqdLeave)) = s.left := by
      have hne : e ≠ .softirqdLeave := by
        rintro rfl
        exact hb
      simp [hne]
    rw [hleft]
    refine ⟨h.timers, placed_blind h.placed hb hsafe hk, h.owned.kernel ?_ fun t ha => ?_⟩
    · intro u hu
      rw [(step_wakers hb hk).1]
      exact hu
    · exact life_step hk (h.owned.live t ha) (hexit t ha)
  have hother : e ≠ .svc .exit → Blind e → Safe s.kernel e →
      Inv { s with kernel := k', left := s.left || decide (e = .softirqdLeave) } :=
    fun hne hb hsafe => hblind hb hsafe fun _ _ he => absurd he hne
  cases e with
  | svc c =>
    cases c with
    | exit => exact hblind trivial trivial fun t ha _ => hm t ha
    | msleep alloc msec => cases hap
    | condWait c m => exact hother (by simp) trivial hm
    | _ => exact hother (by simp) trivial trivial
  | resume => exact hother (by simp) trivial trivial
  | pendsv => exact hother (by simp) trivial trivial
  | softirqdLeave =>
    simp only [Sync.Kernel.step, Option.ite_none_right_eq_some] at hk
    simpa using inv_softirqdLeave h hk.2
  | raiseSoftirq nr =>
    cases hk
    simpa using inv_raiseSoftirq h hm
  | timerExpire t => cases hap
  | uart => exact hother (by simp) trivial hm

/-! ## Timers and their owners -/

/-- No timer becomes armed, and what is known of the owners stays. -/
def Kept (m m' : Timers) : Prop :=
  ∀ u, Armed m' u → Armed m u ∧ (m'.info u).owner = (m.info u).owner ∧ (Sleeper m' u → Sleeper m u)

theorem Owned.kept (h : Owned k m) (hk : Kept m m') : Owned k m' where
  live := fun t ha => (hk t ha).2.1 ▸ h.live t (hk t ha).1
  waits := fun t ha hs => (hk t ha).2.1 ▸ h.waits t (hk t ha).1 ((hk t ha).2.2 hs)
  once := fun t u hat hau hst hsu ho => by
    obtain ⟨ht, hot, hst'⟩ := hk t hat
    obtain ⟨hu, hou, hsu'⟩ := hk u hau
    exact h.once t u ht hu (hst' hst) (hsu' hsu) (hot ▸ hou ▸ ho)

/-- The timers but `t` are as they were. -/
def SameOthers (t : TimerAddr) (m m' : Timers) : Prop :=
  ∀ u, u ≠ t → m'.info u = m.info u ∧ m'.allocated u = m.allocated u

theorem SameOthers.armed (h : SameOthers t m m') {u : TimerAddr} (hu : u ≠ t) : Armed m' u ↔ Armed m u := by
  unfold Armed
  rw [(h u hu).1, (h u hu).2]

theorem SameOthers.sleeper (h : SameOthers t m m') {u : TimerAddr} (hu : u ≠ t) :
    Sleeper m' u ↔ Sleeper m u := by
  unfold Sleeper
  rw [(h u hu).1]

theorem SameOthers.kept (h : SameOthers t m m') (ha : ¬ Armed m' t) : Kept m m' := by
  intro u hu
  have hut : u ≠ t := by
    rintro rfl
    exact ha hu
  exact ⟨(h.armed hut).mp hu, congrArg _ (h u hut).1, (h.sleeper hut).mp⟩

theorem sameOthers_of_sameElse (h : SameElse t m m') : SameOthers t m m' :=
  fun u hu => ⟨h.info u hu, h.allocated u hu⟩

/-- A POSIX timer is armed. -/
theorem Owned.arm (h : Owned k m) (hm : SameOthers t m m') (hl : k.life (m'.info t).owner = .live)
    (hs : ¬ Sleeper m' t) : Owned k m' where
  live := fun u hu => by
    by_cases hut : u = t
    · rw [hut]
      exact hl
    · rw [(hm u hut).1]
      exact h.live u ((hm.armed hut).mp hu)
  waits := fun u hu hsu => by
    by_cases hut : u = t
    · exact absurd (hut ▸ hsu) hs
    · rw [(hm u hut).1]
      exact h.waits u ((hm.armed hut).mp hu) ((hm.sleeper hut).mp hsu)
  once := fun u v hu hv hsu hsv ho => by
    have hut : u ≠ t := fun he => hs (he ▸ hsu)
    have hvt : v ≠ t := fun he => hs (he ▸ hsv)
    rw [(hm u hut).1, (hm v hvt).1] at ho
    exact h.once u v ((hm.armed hut).mp hu) ((hm.armed hvt).mp hv) ((hm.sleeper hut).mp hsu)
      ((hm.sleeper hvt).mp hsv) ho

/-- The running thread goes to sleep. -/
theorem Owned.sleep {c : Thread} (h : Owned k m) (hm : SameOthers t m m') (hc : c ∉ k.timers)
    (ho : (m'.info t).owner = c) (hl : k.life c = .live) (hk : k'.timers = c :: k.timers)
    (hlife : k'.life = k.life) : Owned k' m' where
  live := fun u hu => by
    rw [hlife]
    by_cases hut : u = t
    · rw [hut, ho]
      exact hl
    · rw [(hm u hut).1]
      exact h.live u ((hm.armed hut).mp hu)
  waits := fun u hu hsu => by
    rw [hk]
    by_cases hut : u = t
    · rw [hut, ho]
      exact List.mem_cons_self
    · rw [(hm u hut).1]
      exact List.mem_cons_of_mem _ (h.waits u ((hm.armed hut).mp hu) ((hm.sleeper hut).mp hsu))
  once := fun u v hu hv hsu hsv hov => by
    have hother : ∀ w, w ≠ t → Armed m' w → Sleeper m' w → (m'.info w).owner ≠ c := by
      intro w hwt hw hsw he
      rw [(hm w hwt).1] at he
      exact hc (he ▸ h.waits w ((hm.armed hwt).mp hw) ((hm.sleeper hwt).mp hsw))
    by_cases hut : u = t
    · by_cases hvt : v = t
      · rw [hut, hvt]
      · rw [hut, ho] at hov
        exact absurd hov.symm (hother v hvt hv hsv)
    · by_cases hvt : v = t
      · rw [hvt, ho] at hov
        exact absurd hov (hother u hut hu hsu)
      · rw [(hm u hut).1, (hm v hvt).1] at hov
        exact h.once u v ((hm.armed hut).mp hu) ((hm.armed hvt).mp hv) ((hm.sleeper hut).mp hsu)
          ((hm.sleeper hvt).mp hsv) hov

theorem kept_timerCreate {mem : Option Block} {sevp : Sigevent}
    (he : Timer.step m (.timerCreate mem sevp) = some m') : Kept m m' := by
  cases mem with
  | none =>
    cases he
    exact fun u hu => ⟨hu, rfl, id⟩
  | some b =>
    obtain ⟨-, rfl⟩ := Option.ite_none_right_eq_some.mp he |>.imp_right Option.some.inj
    have halloc := sameOthers_of_sameElse (sameElse_timerAlloc b m)
    simp only [Timer.sysTimerCreate]
    split
    · obtain ⟨hframe, hfree⟩ := timerFree_frame b.addr (Timer.timerAlloc b m)
      refine SameOthers.kept (t := b.addr) (fun u hu => ?_) hfree
      rw [hframe.info u hu, hframe.allocated u hu]
      exact halloc u hu
    · refine SameOthers.kept (t := b.addr) (fun u hu => ?_) ?_
      · exact ⟨(Function.update_of_ne hu _ _).trans (halloc u hu).1, (halloc u hu).2⟩
      · rintro ⟨-, hd⟩
        simp at hd

theorem owned_timerSettime {timerid : ℕ} {newValue : Itimerspec} (h : Owned k m)
    (hl : k.life k.current = .live)
    (he : Timer.step m (.timerSettime timerid newValue k.current) = some m') : Owned k m' := by
  obtain rfl := Option.some.inj he
  cases hf : Timer.findTimerById timerid m with
  | none =>
    have heq : (Timer.sysTimerSettime timerid newValue k.current m).2 = m := by
      simp only [Timer.sysTimerSettime, hf]
    rw [heq]
    exact h
  | some t =>
    have hother : ∀ i l, SameOthers t m ((m.setInfo t i).setLinks l) :=
      fun i l u hu => ⟨Function.update_of_ne hu _ _, rfl⟩
    rcases sysTimerSettime_cases hf rfl with ⟨-, -, i, hi, he⟩ | ⟨-, -, i, hi, he⟩ | ⟨-, i, -, -, ho, hc, he⟩
    · rw [he]
      refine h.kept ((hother i _).kept ?_)
      rintro ⟨-, hd⟩
      simp [hi] at hd
    · rw [he]
      refine h.kept (SameOthers.kept (t := t) (fun u hu => ⟨Function.update_of_ne hu _ _, rfl⟩) ?_)
      rintro ⟨-, hd⟩
      simp [hi] at hd
    · rw [he]
      refine h.arm (hother i _) ?_ ?_
      · simpa [ho] using hl
      · simpa [Sleeper] using hc

theorem kept_msleepReturn (he : Timer.step m (.msleepReturn t) = some m') : Kept m m' := by
  obtain ⟨-, rfl⟩ := Option.ite_none_right_eq_some.mp he |>.imp_right Option.some.inj
  obtain ⟨hframe, hfree⟩ := timerFree_frame t { m with sleeping := m.sleeping.erase t }
  exact SameOthers.kept (t := t) (fun u hu => ⟨hframe.info u hu, hframe.allocated u hu⟩) hfree

/-- `sys_msleep` in the scheduler, whatever `softirq_run` is. -/
theorem sysMsleep_some {msec : ℕ} {r : Bool} (he : Sync.Kernel.sysMsleep true msec k = some k') :
    k'.timers = k.current :: k.timers ∧ k'.life = k.life ∧ k'.softirqRun = k.softirqRun ∧
      Sync.Kernel.sysMsleep true msec (mask k.timers r k) = some (mask k'.timers r k') := by
  simp only [Sync.Kernel.sysMsleep, Bool.true_eq_false, if_false, Option.ite_none_left_eq_some] at he
  obtain ⟨hz, he⟩ := he
  obtain ⟨p, hp, rfl⟩ := Option.map_eq_some_iff.mp he
  refine ⟨rfl, rfl, rfl, ?_⟩
  simp only [Sync.Kernel.sysMsleep, Bool.true_eq_false, if_false, if_neg hz]
  exact Option.map_eq_some_iff.mpr ⟨p, hp, rfl⟩

theorem inv_msleep {mem : Option Block} {msec : Word} (h : Inv s)
    (hm : Meets s (.msleep mem msec)) (he : step s (.msleep mem msec) = some s') : Inv s' := by
  simp only [step, Option.ite_none_right_eq_some] at he
  obtain ⟨⟨-, hi⟩, he⟩ := he
  obtain ⟨m, hstep, he⟩ := Option.bind_eq_some_iff.mp he
  obtain ⟨k', hk, rfl⟩ := Option.map_eq_some_iff.mp he
  have htimers := TimerList.step_inv h.timers hm hstep
  cases mem with
  | none =>
    cases hk
    cases hstep
    exact h
  | some b =>
    obtain ⟨-, rfl⟩ := Option.ite_none_right_eq_some.mp hstep |>.imp_right Option.some.inj
    obtain ⟨htm, hlife, hrun, hview⟩ := sysMsleep_some (r := s.left || s.kernel.softirqRun) hk
    have hcur : s.kernel.current ∉ s.kernel.timers := fun hc => h.placed.awake (.inl hc)
    refine ⟨htimers, ?_, h.owned.sleep (t := b.addr) ?_ hcur ?_ h.noDead.current htm hlife⟩
    · have hp : Placed (mask k'.timers (s.left || s.kernel.softirqRun) k') := h.placed.sysMsleep hi hview
      unfold view
      rw [hrun]
      exact hp
    · intro u hu
      rw [Timer.sysMsleep, Timer.systickTimerSet_of_ne _ (msecTimespec_ne_zero hm)]
      simp [Timer.timerAlloc, Timers.setInfo, Timers.setLinks, hu]
    · rw [Timer.sysMsleep, Timer.systickTimerSet_of_ne _ (msecTimespec_ne_zero hm)]
      simp

/-! ## The bottom half -/

/-- The sleepers are woken one after the other. -/
theorem wake_spec {r : Bool} (fs : List Fire) (k : System) (h : Placed (mask k.timers r k))
    (hnd : ((fs.filter (·.sigev = none)).map Fire.owner).Nodup)
    (hin : ∀ f ∈ fs, f.sigev = none → f.owner ∈ k.timers) :
    Placed (mask (wake fs k).timers r (wake fs k)) ∧ (wake fs k).life = k.life ∧
      (wake fs k).softirqRun = k.softirqRun ∧
      ∀ u ∈ k.timers, (∀ f ∈ fs, f.sigev = none → f.owner ≠ u) → u ∈ (wake fs k).timers := by
  induction fs generalizing k with
  | nil => exact ⟨h, rfl, rfl, fun u hu _ => hu⟩
  | cons f fs ih =>
    by_cases hf : f.sigev = none
    · have hwake : wake (f :: fs) k = wake fs (enqueue f.owner { k with timers := k.timers.erase f.owner }) := by
        simp only [wake, List.foldl_cons, hf, if_true]
      rw [List.filter_cons_of_pos (by simpa using hf), List.map_cons, List.nodup_cons] at hnd
      obtain ⟨hnot, hnd⟩ := hnd
      have hne : ∀ g ∈ fs, g.sigev = none → g.owner ≠ f.owner := by
        intro g hg hn he
        exact hnot (List.mem_map.mpr ⟨g, List.mem_filter.mpr ⟨hg, by simpa using hn⟩, he⟩)
      have hexp : Sync.Kernel.timerExpire f.owner (mask k.timers r k) =
          some (mask (k.timers.erase f.owner) r
            (enqueue f.owner { k with timers := k.timers.erase f.owner })) :=
        if_pos (List.contains_iff_mem.mpr (hin f List.mem_cons_self hf))
      rw [hwake]
      obtain ⟨hp, hl, hr, hrest⟩ := ih _ (h.timerExpire hexp) hnd fun g hg hn =>
        (List.mem_erase_of_ne (hne g hg hn)).mpr (hin g (List.mem_cons_of_mem _ hg) hn)
      refine ⟨hp, hl, hr, fun u hu ho => hrest u ?_ fun g hg => ho g (List.mem_cons_of_mem _ hg)⟩
      exact (List.mem_erase_of_ne (ho f List.mem_cons_self hf).symm).mpr hu
    · have hwake : wake (f :: fs) k = wake fs k := by
        simp only [wake, List.foldl_cons, hf, if_false]
      rw [List.filter_cons_of_neg (by simpa using hf)] at hnd
      rw [hwake]
      obtain ⟨hp, hl, hr, hrest⟩ := ih k h hnd fun g hg => hin g (List.mem_cons_of_mem _ hg)
      exact ⟨hp, hl, hr, fun u hu ho => hrest u hu fun g hg => ho g (List.mem_cons_of_mem _ hg)⟩

theorem inv_systickBh {fuel : ℕ} (h : Inv s) (he : step s (.systickBh fuel) = some s') :
    Inv s' ∧ EventsLive s (.systickBh fuel) s' := by
  simp only [step, Option.ite_none_right_eq_some] at he
  obtain ⟨-, he⟩ := he
  obtain ⟨m, hstep, rfl⟩ := Option.map_eq_some_iff.mp he
  obtain ⟨xs, hxs⟩ := h.timers
  obtain ⟨htimers, hh⟩ := systickBh_inv hxs hstep
  obtain ⟨fs, hfs, hmap, hown⟩ := hh.fired
  have hdrop : m.fired.drop s.timers.fired.length = fs := by
    rw [hfs, List.drop_left]
  have hfire : ∀ f ∈ fs, Armed s.timers f.timer ∧ expired s.timers f.timer = true := by
    intro f hf
    have hmem : f.timer ∈ xs.filter (expired s.timers) := hmap ▸ List.mem_map_of_mem hf
    rw [List.mem_filter, hxs.mem_iff] at hmem
    exact hmem
  have hnd : (fs.map Fire.timer).Nodup := hmap ▸ (nodup_of_ring hxs.ring).filter _
  -- two fires of sleepers with one owner are the same fire
  have honce : ∀ f ∈ fs, ∀ g, Armed s.timers g → f.sigev = none → Sleeper s.timers g →
      f.owner = (s.timers.info g).owner → f.timer = g := by
    intro f hf g hg hn hs ho
    rw [(hown f hf).1] at ho
    exact h.owned.once _ _ (hfire f hf).1 hg ((hown f hf).2.mp hn) hs ho
  have howners : ((fs.filter (·.sigev = none)).map Fire.owner).Nodup := by
    refine List.Nodup.map_on (fun f hf g hg ho => ?_) ((List.Nodup.of_map _ hnd).filter _)
    obtain ⟨hf, hfn⟩ := List.mem_filter.mp hf
    obtain ⟨hg, hgn⟩ := List.mem_filter.mp hg
    refine List.inj_on_of_nodup_map hnd hf hg ?_
    refine honce f hf _ (hfire g hg).1 (by simpa using hfn) ((hown g hg).2.mp (by simpa using hgn)) ?_
    rw [ho, (hown g hg).1]
  obtain ⟨hplaced, hlife, hrun, hrest⟩ := wake_spec fs s.kernel h.placed howners fun f hf hn => by
    rw [(hown f hf).1]
    exact h.owned.waits _ (hfire f hf).1 ((hown f hf).2.mp hn)
  have hkept : Kept s.timers m := by
    intro u hu
    refine ⟨?_, hh.owner u, fun hs => (hh.sleeper u hs).1⟩
    by_cases hux : u ∈ xs
    · exact (hxs.mem_iff u).mp hux
    · unfold Armed at hu ⊢
      rw [← hh.info u (.inl hux), ← hh.allocated]
      exact hu
  have howned := h.owned.kept hkept
  have hevents : ∀ f ∈ m.fired.drop s.timers.fired.length, s.kernel.life f.owner = .live := by
    intro f hf
    rw [hdrop] at hf
    rw [(hown f hf).1]
    exact h.owned.live _ (hfire f hf).1
  refine ⟨⟨htimers, ?_, ?_, ?_, howned.once⟩, fun _ _ => hevents⟩
  · unfold view
    rw [hdrop]
    rw [hrun]
    exact hplaced
  · intro t ha
    rw [hdrop, hlife]
    exact howned.live t ha
  · intro t ha hs
    rw [hdrop]
    refine hrest _ (howned.waits t ha hs) fun f hf hn ho => ?_
    have hat := (hkept t ha).1
    rw [hh.owner] at ho
    obtain rfl := honce f hf t hat hn (hh.sleeper t hs).1 ho
    have hd := (hh.sleeper _ hs).2 ((hxs.mem_iff _).mpr hat) (hfire f hf).2
    rw [ha.2] at hd
    cases hd

/-! ## Runs -/

/-- **Step lemma.** -/
theorem step_inv {a : Act} (h : Inv s) (hm : Meets s a) (he : step s a = some s') :
    Inv s' ∧ EventsLive s a s' := by
  have hquiet : (∀ fuel, a ≠ .systickBh fuel) → Inv s' → Inv s' ∧ EventsLive s a s' :=
    fun hne hi => ⟨hi, fun fuel ha => absurd ha (hne fuel)⟩
  cases a with
  | entry e => exact hquiet (by simp) (inv_entry h hm he)
  | timerCreate mem sevp =>
    refine hquiet (by simp) ?_
    simp only [step, Option.ite_none_right_eq_some] at he
    obtain ⟨m, hstep, rfl⟩ := Option.map_eq_some_iff.mp he.2
    exact ⟨TimerList.step_inv h.timers hm hstep, h.placed, h.owned.kept (kept_timerCreate hstep)⟩
  | timerSettime timerid newValue =>
    refine hquiet (by simp) ?_
    simp only [step, Option.ite_none_right_eq_some] at he
    obtain ⟨m, hstep, rfl⟩ := Option.map_eq_some_iff.mp he.2
    exact ⟨TimerList.step_inv (a := .timerSettime timerid newValue s.kernel.current) h.timers hm hstep,
      h.placed, owned_timerSettime h.owned h.noDead.current hstep⟩
  | msleep mem msec => exact hquiet (by simp) (inv_msleep h hm he)
  | msleepReturn t =>
    refine hquiet (by simp) ?_
    simp only [step, Option.ite_none_right_eq_some] at he
    obtain ⟨⟨hk, -⟩, he⟩ := he
    obtain ⟨m, hstep, rfl⟩ := Option.map_eq_some_iff.mp he
    have hi : s.kernel.current ≠ s.kernel.idle := by
      intro hc
      have hidle : s.kernel.kont s.kernel.idle = .user := h.placed.konts.idle.1
      rw [hc, hidle] at hk
      cases hk
    exact ⟨TimerList.step_inv (a := .msleepReturn t) h.timers trivial hstep, h.placed.setKont hi .user,
      (h.owned.kept (kept_msleepReturn hstep)).kernel (fun _ hu => hu)
        (h.owned.kept (kept_msleepReturn hstep)).live⟩
  | systick =>
    refine hquiet (by simp) ?_
    cases he
    refine ⟨TimerList.step_inv (a := .systick) h.timers trivial rfl, h.placed, h.owned.kept ?_⟩
    exact fun u hu => ⟨hu, rfl, id⟩
  | systickBh fuel => exact inv_systickBh h he

theorem inv_init (b : Threads) (val : Ptr → ℤ) (mem : Memory Unit TimerAddr) (info : TimerAddr → TimerInfo) :
    Inv (init b val mem info) :=
  ⟨⟨[], TimerList.inv_init mem info⟩, placed_start b val, fun _ ha => (nomatch ha.1), fun _ ha => (nomatch ha.1),
    fun _ _ ha => (nomatch ha.1)⟩

end

/-! ## Concrete runs -/

/-- The main thread creates a thread and gives way to it; that thread creates a timer. -/
def created : List Act :=
  [.entry (.svc (.create (some 3))), .entry (.svc .yield),
    .timerCreate (some ⟨0, garbage, .poison1, .poison2⟩) ⟨7, 0⟩]

/-- The thread exits after it has disarmed its timer. -/
def disarmed : List Act :=
  created ++ [.timerSettime 0 ⟨.zero, ⟨1, 0⟩⟩, .timerSettime 0 ⟨.zero, .zero⟩, .entry (.svc .exit)]

/-- The thread exits while its timer runs. -/
def running : List Act := created ++ [.timerSettime 0 ⟨.zero, ⟨1, 0⟩⟩, .entry (.svc .exit)]

def boot : Machine := init threads (fun _ => -1) memory fun _ => garbage

end PikoRT.Time.Owners

import PikoRT.Time.Alloc
import PikoRT.Time.Drift

/-! # Sleeping threads

While a thread sleeps it is on no run queue, and only the callback of its timer puts it
back. There is no timer for a delay of zero, and the clock is never past the last time
before it wraps: a thread that is to sleep for no time, or until then, does not wake. -/
namespace PikoRT.Time.Sleep
open PikoRT.Lib.Run PikoRT.Lib.Rings PikoRT.Kernel.Bitops PikoRT.Kernel.LinuxList PikoRT.Kernel.ListFamily
open PikoRT.Libc PikoRT.Time.Timer PikoRT.Time.Alloc PikoRT.Time.Deadline
open PikoRT.Sched.Model (Thread)
open PikoRT.Libc.Malloc (Allocation Region)
open PikoRT.Libc.HeapLedger (Holding)
open PikoRT.Time.TimerList (Armed Sleeper Listed Inv Handles)
open PikoRT.Time.Drift (Beats)

/-- No node has changed but those of the list. -/
def Within (xs : List TimerAddr) (l l' : Memory Unit TimerAddr) : Prop :=
  ∀ n, n ∉ systickTimers :: nodes xs → l'.next n = l.next n ∧ l'.prev n = l.prev n

/-- How often the callback of the timer has enqueued the thread. -/
def wakes (t : TimerAddr) (c : Thread) (s : Timers) : ℕ := s.fired.count ⟨t, c, none⟩

/-- The thread is in `sys_msleep`, with this timer. -/
structure Asleep (t : TimerAddr) (c : Thread) (s : Timers) : Prop where
  list : ∃ xs, Inv s xs
  sleeping : t ∈ s.sleeping
  owner : (s.info t).owner = c
  sleeper : Sleeper s t

/-- It is to be enqueued when the clock is past `e`. -/
structure Waiting (t : TimerAddr) (c : Thread) (e : Clock) (s : Timers) : Prop extends Asleep t c s where
  armed : (s.info t).disarmed = false
  expiry : (s.info t).expireClocktime = e

/-- It has been enqueued. -/
structure Woken (t : TimerAddr) (c : Thread) (s : Timers) : Prop extends Asleep t c s where
  disarmed : (s.info t).disarmed = true

/-- The steps of others that keep the list. -/
def Other (t : TimerAddr) (s : Timers) (a : Timer.Act) : Prop := TimerList.Meets s a ∧ a ≠ .msleepReturn t

/-- A run of others, and what it is without the heap. -/
def Others (z : Sizes) (t : TimerAddr) (s : System) (as : List Alloc.Act) : Prop :=
  ∀ x ∈ trace (Alloc.step z) s as, Meets z x.pre x.act ∧ x.act ≠ .msleepReturn t

section

variable {s s' : Timers} {t u : TimerAddr} {c : Thread} {e : Clock} {w : ℕ} {xs ys us vs : List TimerAddr}
  {l l' l'' : Memory Unit TimerAddr} {a : Timer.Act}

/-! ## The nodes outside the list -/

theorem Within.refl (l : Memory Unit TimerAddr) : Within xs l l := fun _ _ => ⟨rfl, rfl⟩

theorem Within.trans (h : Within xs l l') (h' : Within xs l' l'') : Within xs l l'' :=
  fun n hn => ⟨(h' n hn).1.trans (h n hn).1, (h' n hn).2.trans (h n hn).2⟩

theorem Within.mono (h : Within xs l l') (hsub : ∀ u ∈ xs, u ∈ ys) : Within ys l l' := by
  refine fun n hn => h n fun hm => hn ?_
  rcases List.mem_cons.mp hm with rfl | hm
  · exact List.mem_cons_self
  · obtain ⟨u, hu, rfl⟩ := List.mem_map.mp hm
    exact List.mem_cons_of_mem _ (mem_nodes.mpr (hsub u hu))

theorem spares_of_sleeping (h : ∃ xs, Inv s xs) (ht : t ∈ s.sleeping) (ha : a ≠ .msleepReturn t) : Spares t s a := by
  obtain ⟨xs, hi⟩ := h
  cases a with
  | timerSettime timerid newValue c =>
    intro hf
    exact (hi.asleep t ht).2 (TimerList.mem_of_findTimerById hf)
  | msleepReturn u =>
    rintro rfl
    exact ha rfl
  | _ => trivial

theorem step_sleeping (ht : t ∈ s.sleeping) (ha : a ≠ .msleepReturn t) (hb : isBh a = false)
    (he : step s a = some s') : t ∈ s'.sleeping := by
  cases a with
  | timerCreate mem sevp =>
    obtain ⟨-, rfl⟩ := Option.ite_none_right_eq_some.mp he |>.imp_right Option.some.inj
    cases mem with
    | none => exact ht
    | some b =>
      cases hid : reserveTimerId s.bitmap with
      | none =>
        rw [sysTimerCreate_exhausted hid, (TimerList.timerFree_frame ..).1.sleeping]
        exact ht
      | some r =>
        rw [sysTimerCreate_reserved hid]
        exact ht
  | timerSettime timerid newValue c =>
    cases he
    rcases TimerList.sysTimerSettime_writes timerid newValue c s with he | ⟨u, i, l, -, he⟩
    · rw [he]
      exact ht
    · rw [he]
      exact ht
  | msleep mem msec c =>
    obtain ⟨-, rfl⟩ := Option.ite_none_right_eq_some.mp he |>.imp_right Option.some.inj
    cases mem with
    | none => exact ht
    | some b =>
      obtain ⟨i, l, he⟩ := sysMsleep_writes b msec c s
      rw [he]
      exact List.mem_cons_of_mem _ ht
  | msleepReturn u =>
    obtain ⟨-, rfl⟩ := Option.ite_none_right_eq_some.mp he |>.imp_right Option.some.inj
    have hut : t ≠ u := by
      rintro rfl
      exact ha rfl
    show t ∈ (Timer.timerFree u _).sleeping
    rw [(TimerList.timerFree_frame ..).1.sleeping]
    exact (List.mem_erase_of_ne hut).mpr ht
  | systick =>
    cases he
    exact ht
  | systickBh fuel => cases hb

/-- The bottom half enqueues the thread once if its timer has expired, and otherwise not. -/
theorem wakes_systickBh (hi : Inv s xs) (hh : Handles s s' xs) (hs : Sleeper s t) (ho : (s.info t).owner = c) :
    wakes t c s' = wakes t c s + if t ∈ xs ∧ expired s t = true then 1 else 0 := by
  obtain ⟨fs, hfs, hmap, hown⟩ := hh.fired
  have hcount : fs.count ⟨t, c, none⟩ = (fs.map Fire.timer).count t := by
    rw [List.count, List.count, List.countP_map]
    refine List.countP_congr fun f hf => ?_
    simp only [Function.comp_apply, beq_iff_eq]
    constructor
    · rintro rfl
      rfl
    · rintro rfl
      obtain ⟨howner, hnone⟩ := hown f hf
      rw [← ho, ← howner, ← hnone.mpr hs]
  have hnd := (TimerList.nodup_of_ring hi.ring).filter (expired s)
  unfold wakes
  rw [hfs, List.count_append, hcount, hmap, hnd.count]
  simp only [List.mem_filter]

/-- The callback of `sys_msleep` sets the flag. -/
theorem expire_sleeper (hr : TimerList.Routed (s.info t)) (hs : Sleeper s t) (hx : expired s t = true) :
    (expire t s).info t = { s.info t with disarmed := true } := by
  have hs : (s.info t).callback = some .msleepCallback := hs
  have htype : (s.info t).type = .oneshot := by
    cases hr with
    | once ht hc => exact ht
    | link ht hc hv => exact ht
    | every ht hc hv =>
      rw [hs] at hc
      cases hc
  unfold expire
  rw [if_pos hx]
  simp [htype, timerExpireCallback, hs, msleepCallback, fire]

/-- A call of another thread. -/
theorem Asleep.call (h : Asleep t c s) (ho : Other t s a) (hb : isBh a = false) (he : step s a = some s') :
    Asleep t c s' ∧ s'.info t = s.info t ∧ wakes t c s' = wakes t c s ∧
      s'.clocktimeInMsec = s.clocktimeInMsec + BitVec.ofNat 32 (ticks a) := by
  obtain ⟨xs, hi⟩ := h.list
  obtain ⟨hsame, hclock⟩ := step_other (hi.asleep t h.sleeping).1 hb (spares_of_sleeping h.list h.sleeping ho.2) he
  refine ⟨⟨TimerList.step_inv h.list ho.1 he, step_sleeping h.sleeping ho.2 hb he, ?_, ?_⟩, hsame.info, ?_, hclock⟩
  · rw [hsame.info]
    exact h.owner
  · rw [Sleeper, hsame.info]
    exact h.sleeper
  · rw [wakes, Drift.step_fired hb he]
    rfl

/-- A bottom half that finds the timer disarmed or not yet expired. -/
theorem Asleep.pass {fuel : ℕ} (h : Asleep t c s) (hx : (s.info t).disarmed = true ∨ expired s t = false)
    (he : systickBh fuel s = some s') :
    Asleep t c s' ∧ s'.info t = s.info t ∧ wakes t c s' = wakes t c s := by
  obtain ⟨xs, hi⟩ := h.list
  obtain ⟨hlist, hh⟩ := TimerList.systickBh_inv hi he
  have hout : t ∉ xs ∨ expired s t = false := hx.imp_left fun hd => TimerList.notMem_of_disarmed hi hd
  have hinfo := hh.info t hout
  refine ⟨⟨hlist, hh.sleeping ▸ h.sleeping, ?_, ?_⟩, hinfo, ?_⟩
  · rw [hinfo]
    exact h.owner
  · rw [Sleeper, hinfo]
    exact h.sleeper
  · rw [wakes_systickBh hi hh h.sleeper h.owner, if_neg, add_zero]
    intro hboth
    obtain ⟨hm, hexp⟩ := hboth
    rcases hout with hm' | hexp'
    · exact hm' hm
    · rw [hexp] at hexp'
      cases hexp'

/-- A bottom half that finds it expired. -/
theorem Waiting.wake {fuel : ℕ} (h : Waiting t c e s) (hx : expired s t = true) (he : systickBh fuel s = some s') :
    Woken t c s' ∧ wakes t c s' = wakes t c s + 1 := by
  obtain ⟨xs, hi⟩ := h.list
  obtain ⟨hlist, hh⟩ := TimerList.systickBh_inv hi he
  have ht : t ∈ xs := (hi.mem_iff t).mpr ⟨(hi.asleep t h.sleeping).1, h.armed⟩
  have hinfo := (hh.visited t ht).trans (expire_sleeper (hi.routed t ht) h.sleeper hx)
  refine ⟨⟨⟨hlist, hh.sleeping ▸ h.sleeping, ?_, ?_⟩, ?_⟩, ?_⟩
  · rw [hinfo]
    exact h.owner
  · rw [Sleeper, hinfo]
    exact h.sleeper
  · rw [hinfo]
  · rw [wakes_systickBh hi hh h.sleeper h.owner, if_pos ⟨ht, hx⟩]

theorem Waiting.expired_iff (h : Waiting t c e s) : expired s t = true ↔ e < s.clocktimeInMsec := by
  rw [expired, decide_eq_true_iff, h.expiry]

theorem Waiting.call (h : Waiting t c e s) (ho : Other t s a) (hb : isBh a = false) (he : step s a = some s') :
    Waiting t c e s' ∧ wakes t c s' = wakes t c s ∧
      s'.clocktimeInMsec = s.clocktimeInMsec + BitVec.ofNat 32 (ticks a) := by
  obtain ⟨hasleep, hinfo, hwakes, hclock⟩ := h.toAsleep.call ho hb he
  refine ⟨⟨hasleep, ?_, ?_⟩, hwakes, hclock⟩
  · rw [hinfo]
    exact h.armed
  · rw [hinfo]
    exact h.expiry

theorem Waiting.pass {fuel : ℕ} (h : Waiting t c e s) (hx : ¬ e < s.clocktimeInMsec)
    (he : systickBh fuel s = some s') :
    Waiting t c e s' ∧ wakes t c s' = wakes t c s := by
  obtain ⟨hasleep, hinfo, hwakes⟩ := h.toAsleep.pass (.inr (by simpa using h.expired_iff.not.mpr hx)) he
  refine ⟨⟨hasleep, ?_, ?_⟩, hwakes⟩
  · rw [hinfo]
    exact h.armed
  · rw [hinfo]
    exact h.expiry

/-- A thread that has been enqueued is not enqueued again. -/
theorem Woken.step (h : Woken t c s) (ho : Other t s a) (he : step s a = some s') :
    Woken t c s' ∧ wakes t c s' = wakes t c s := by
  obtain ⟨hasleep, hinfo, hwakes⟩ : Asleep t c s' ∧ s'.info t = s.info t ∧ wakes t c s' = wakes t c s := by
    rcases systickBh_or_call a with ⟨fuel, rfl⟩ | hb
    · exact h.toAsleep.pass (.inl h.disarmed) he
    · obtain ⟨hasleep, hinfo, hwakes, -⟩ := h.toAsleep.call ho hb he
      exact ⟨hasleep, hinfo, hwakes⟩
  refine ⟨⟨hasleep, ?_⟩, hwakes⟩
  rw [hinfo]
  exact h.disarmed

/-! ## Runs -/

/-- The thread has been enqueued at most once, and once exactly if its timer has expired. -/
def Sleeps (t : TimerAddr) (c : Thread) (e : Clock) (w : ℕ) (s : Timers) : Prop :=
  Waiting t c e s ∧ wakes t c s = w ∨ Woken t c s ∧ wakes t c s = w + 1

theorem Sleeps.step (h : Sleeps t c e w s) (ho : Other t s a) (he : step s a = some s') : Sleeps t c e w s' := by
  rcases h with ⟨h, hw⟩ | ⟨h, hw⟩
  · rcases systickBh_or_call a with ⟨fuel, rfl⟩ | hb
    · by_cases hx : e < s.clocktimeInMsec
      · obtain ⟨hwoken, hone⟩ := h.wake (h.expired_iff.mpr hx) he
        exact .inr ⟨hwoken, hone.trans (congrArg (· + 1) hw)⟩
      · obtain ⟨hwait, hsame⟩ := h.pass hx he
        exact .inl ⟨hwait, hsame.trans hw⟩
    · obtain ⟨hwait, hsame, -⟩ := h.call ho hb he
      exact .inl ⟨hwait, hsame.trans hw⟩
  · obtain ⟨hwoken, hsame⟩ := h.step ho he
    exact .inr ⟨hwoken, hsame.trans hw⟩

theorem Sleeps.run {as : List Timer.Act} (h : Sleeps t c e w s)
    (hC : ∀ x ∈ trace Timer.step s as, Other t x.pre x.act) (hr : run Timer.step s as = some s') : Sleeps t c e w s' :=
  run_invariant_of_trace (fun _ _ _ h ho he => h.step ho he) hr h hC

theorem Woken.run {as : List Timer.Act} (h : Woken t c s)
    (hC : ∀ x ∈ trace Timer.step s as, Other t x.pre x.act) (hr : run Timer.step s as = some s') :
      wakes t c s' = wakes t c s := by
  have hinv := run_invariant_of_trace (I := fun r => Woken t c r ∧ wakes t c r = wakes t c s)
    (fun r a r' hI ho he => ?_) hr ⟨h, rfl⟩ hC
  · exact hinv.2
  · obtain ⟨hwoken, hsame⟩ := hI.1.step ho he
    exact ⟨hwoken, hsame.trans hI.2⟩

end

/-! ## With the heap -/

section

variable {z : Sizes} {g : Region} {h₀ : Malloc.State} {s s' s₁ s₂ : System} {t : TimerAddr} {c : Thread} {e : Clock}
  {msec : Word} {m : Stale} {fuel : ℕ} {as : List Alloc.Act}

end

/-! ## Concrete runs -/

end PikoRT.Time.Sleep

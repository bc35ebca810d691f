import PikoRT.Time.Drift

/-! # The time left of a timer

`sys_timer_gettime` is to tell how long a timer still has to run. `systick_timer_get` takes
the difference between the clock and the time when the timer was set, which is how long it
has been running, and does not touch `it_interval`. -/
namespace PikoRT.Time.TimeLeft
open PikoRT.Lib.Run PikoRT.Kernel.LinuxList PikoRT.Time.Timer PikoRT.Time.Deadline PikoRT.Time.Drift
open PikoRT.Sched.Model (Thread)
open PikoRT.Time.TimerList (Armed Inv Meets)

/-- So many milliseconds. -/
def ofMsec (m : ℕ) : Timespec := ⟨m / 1000, m % 1000 * 1000000⟩

/-- The call succeeds and reports `m` milliseconds and the reload value. -/
def Reports (timerid : ℕ) (currValue : Itimerspec) (t : TimerAddr) (m : ℕ) (s : Timers) : Prop :=
  sysTimerGettime timerid currValue s = (0, ⟨(s.info t).value.itInterval, ofMsec m⟩)

/-- In no step of the run does the reported time grow. -/
def NeverIncreases (t : TimerAddr) (currValue : Itimerspec) (s : Timers) (as : List Act) : Prop :=
  ∀ x ∈ trace step s as,
    msec (systickTimerGet t currValue x.post).itValue ≤ msec (systickTimerGet t currValue x.pre).itValue

/-- The timer has just been set to `value`, by a call or by the bottom half. -/
structure JustSet (s : Timers) (t : TimerAddr) (value : Timespec) : Prop where
  inv : ∃ xs, Inv s xs
  armed : Armed s t
  start : (s.info t).startClocktime = s.clocktimeInMsec
  expiry : (s.info t).expireClocktime = after value s.clocktimeInMsec

/-- The milliseconds until the timer expires, `n` ticks after it was set. -/
def left (value : Timespec) (n : ℕ) : ℕ := (msec value).toNat - n

def ticksOf (as : List Act) : ℕ := (as.map ticks).sum

/-- The list is kept, and the timer is left alone and does not expire. -/
def Waits (t : TimerAddr) (x : Transition Timers Act) : Prop :=
  Meets x.pre x.act ∧ Spares t x.pre x.act ∧ ¬ Fires t x.pre x.post

section

variable {s s' : Timers} {t : TimerAddr} {value : Timespec} {as : List Act} {currValue : Itimerspec}

/-! ## What is reported -/

theorem ofMsec_inj {m n : ℕ} : ofMsec m = ofMsec n ↔ m = n := by
  refine ⟨fun h => ?_, fun h => congrArg ofMsec h⟩
  injection h with hs hn
  omega

theorem msec_ofMsec (m : ℕ) : msec (ofMsec m) = m := by
  simp only [msec, ofMsec]
  omega

/-- The driver reports how long the timer has been running. -/
theorem systickTimerGet_eq (t : TimerAddr) (currValue : Itimerspec) (s : Timers) :
    systickTimerGet t currValue s =
      ⟨currValue.itInterval, ofMsec (s.clocktimeInMsec - (s.info t).startClocktime).toNat⟩ := rfl

theorem reports_iff {timerid m : ℕ} (hf : findTimerById timerid s = some t) :
    Reports timerid currValue t m s ↔
      (s.clocktimeInMsec - (s.info t).startClocktime).toNat = m ∧
        currValue.itInterval = (s.info t).value.itInterval := by
  unfold Reports sysTimerGettime
  simp only [hf, systickTimerGet_eq, Prod.mk.injEq, true_and, Itimerspec.mk.injEq, ofMsec_inj]
  exact and_comm

/-! ## Waiting -/

/-- A step in which the timer waits. -/
theorem waits_step {a : Act} (hi : ∃ xs, Inv s xs) (ha : Armed s t) (hw : Waits t ⟨s, a, s'⟩)
    (he : step s a = some s') :
    (∃ xs, Inv s' xs) ∧ Armed s' t ∧ s'.info t = s.info t ∧
      s'.clocktimeInMsec = s.clocktimeInMsec + BitVec.ofNat 32 (ticks a) := by
  obtain ⟨hm, hs, hf⟩ := hw
  have hsame : Untouched t s s' ∧ s'.clocktimeInMsec = s.clocktimeInMsec + BitVec.ofNat 32 (ticks a) := by
    rcases systickBh_or_call a with ⟨fuel, rfl⟩ | hb
    · obtain ⟨hfires, hkept⟩ := systickBh_timer hi ha he
      have hx : expired s t = false := by simpa using hfires.not.mp hf
      exact ⟨hkept hx, (systickBhFrom_clock he).trans (BitVec.add_zero _).symm⟩
    · exact step_other ha.1 hb hs he
  exact ⟨TimerList.step_inv hi hm he, hsame.1.armed ha, hsame.1.info, hsame.2⟩

theorem ticksOf_cons (a : Act) (as : List Act) : ticksOf (a :: as) = ticks a + ticksOf as := List.sum_cons

theorem waits_run (hi : ∃ xs, Inv s xs) (ha : Armed s t) (hw : ∀ x ∈ trace step s as, Waits t x)
    (hr : run step s as = some s') :
    s'.info t = s.info t ∧ s'.clocktimeInMsec = s.clocktimeInMsec + BitVec.ofNat 32 (ticksOf as) := by
  induction as generalizing s with
  | nil =>
    cases hr
    exact ⟨rfl, (BitVec.add_zero _).symm⟩
  | cons a as ih =>
    obtain ⟨s1, h1, hr⟩ := run_cons_some hr
    rw [trace_cons_some h1] at hw
    obtain ⟨hwa, hw⟩ := List.forall_mem_cons.mp hw
    obtain ⟨hi1, ha1, hinfo, hc⟩ := waits_step hi ha hwa h1
    obtain ⟨hinfo', hc'⟩ := ih hi1 ha1 hw hr
    refine ⟨hinfo'.trans hinfo, ?_⟩
    rw [hc', hc, ticksOf_cons, BitVec.ofNat_add, add_assoc]

theorem neverIncreases_cons {a : Act} {s1 : Timers} (h1 : step s a = some s1) :
    NeverIncreases t currValue s (a :: as) ↔
      msec (systickTimerGet t currValue s1).itValue ≤ msec (systickTimerGet t currValue s).itValue ∧
        NeverIncreases t currValue s1 as := by
  unfold NeverIncreases
  rw [trace_cons_some h1, List.forall_mem_cons]

/-- The first tick increases what is reported. -/
theorem neverIncreases_iff (hi : ∃ xs, Inv s xs) (ha : Armed s t)
    (hstart : (s.info t).startClocktime = s.clocktimeInMsec) (hw : ∀ x ∈ trace step s as, Waits t x)
    (hr : run step s as = some s') : NeverIncreases t currValue s as ↔ ticksOf as = 0 := by
  induction as generalizing s with
  | nil => exact iff_of_true (fun x hx => (nomatch hx)) rfl
  | cons a as ih =>
    obtain ⟨s1, h1, hr⟩ := run_cons_some hr
    rw [trace_cons_some h1] at hw
    obtain ⟨hwa, hw⟩ := List.forall_mem_cons.mp hw
    obtain ⟨hi1, ha1, hinfo, hc⟩ := waits_step hi ha hwa h1
    rw [neverIncreases_cons h1, ticksOf_cons]
    simp only [systickTimerGet_eq, msec_ofMsec, hinfo, hstart, hc]
    by_cases hz : ticks a = 0
    · rw [hz] at hc ⊢
      have hc : s1.clocktimeInMsec = s.clocktimeInMsec := hc.trans (BitVec.add_zero _)
      have hstart1 : (s1.info t).startClocktime = s1.clocktimeInMsec := by rw [hinfo, hstart, hc]
      rw [ih hi1 ha1 hstart1 hw hr]
      simp
    · have hone : ticks a = 1 := by
        cases a with
        | systick => rfl
        | _ => exact absurd rfl hz
      rw [hone]
      simp

/-! ## Where the timer is set -/

theorem justSet_timerSettime {timerid : ℕ} {newValue : Itimerspec} {thread : Thread} (h : ∃ xs, Inv s xs)
    (hf : findTimerById timerid s = some t) (hd : (s.info t).disarmed = true) (hv : newValue.itValue ≠ .zero) :
    JustSet (sysTimerSettime timerid newValue thread s).2 t newValue.itValue := by
  have hset : JustArmed (sysTimerSettime timerid newValue thread s).2 t newValue.itValue :=
    justArmed_timerSettime h hf hd hv
  refine ⟨hset.inv, hset.armed, ?_, hset.expiry⟩
  obtain ⟨i, hi, -⟩ := armTimer_spec (t := t) newValue thread (s.setInfo t { s.info t with value := newValue })
  simp only [sysTimerSettime, hf, if_neg hv, hi]
  rw [systickTimerSet_of_ne t hv]
  simp

/-- The last reload. -/
theorem justSet_systickBh {fuel : ℕ} (h : Repeating s t value) (hz : value ≠ .zero)
    (he : systickBh fuel s = some s') (hf : Fires t s s') : JustSet s' t value := by
  obtain ⟨xs, hi⟩ := h.inv
  obtain ⟨-, hh⟩ := TimerList.systickBh_inv hi he
  have hx := ((systickBh_timer h.inv h.armed he).1).mp hf
  obtain ⟨hrep, hc, -, hexp⟩ := h.systickBh hz he
  refine ⟨hrep.inv, hrep.armed, ?_, ?_⟩
  · rw [hh.visited t ((hi.mem_iff t).mpr h.armed), expire_reload h.repeats hz hx, hc]
  · rw [hexp, if_pos hx, hc]

/-- **The time left.** Some ticks after a timer was set, and before it expires, the report is
right exactly when half of the time has passed and the caller's `it_interval` was right before
the call; and it never increases exactly as long as there is no tick. -/
theorem gettime_iff {timerid : ℕ} (h : JustSet s t value)
    (hw : ∀ x ∈ trace step s as, Waits t x) (hr : run step s as = some s')
    (hf : findTimerById timerid s' = some t) :
    (Reports timerid currValue t (left value (ticksOf as)) s' ↔
      ticksOf as % 2 ^ 32 = left value (ticksOf as) ∧ currValue.itInterval = (s'.info t).value.itInterval) ∧
    (NeverIncreases t currValue s as ↔ ticksOf as = 0) := by
  obtain ⟨hinfo, hc⟩ := waits_run h.inv h.armed hw hr
  refine ⟨?_, neverIncreases_iff h.inv h.armed h.start hw hr⟩
  have helapsed : s'.clocktimeInMsec - (s'.info t).startClocktime = BitVec.ofNat 32 (ticksOf as) := by
    rw [hinfo, h.start, hc, add_sub_cancel_left]
  rw [reports_iff hf, helapsed, BitVec.toNat_ofNat]

end

/-! ## Concrete runs -/

/-- The timer is set once, to some seconds and nanoseconds. -/
def once (value : Timespec) : Timers := (sysTimerSettime 0 ⟨.zero, value⟩ 1 created).2

theorem justSet_once {value : Timespec} (hv : value ≠ .zero) : JustSet (once value) 0 value :=
  justSet_timerSettime inv_created rfl rfl hv

/-- A timer of 2 milliseconds, after one. -/
theorem gettime_halfway : ∃ s, run step (once ⟨0, 2000000⟩) [.systick] = some s ∧
    Reports 0 ⟨.zero, .zero⟩ 0 1 s := by
  have hw : ∀ x ∈ trace step (once ⟨0, 2000000⟩) [.systick], Waits 0 x := by
    refine List.forall_mem_singleton.mpr ⟨trivial, trivial, fun hf => ?_⟩
    obtain ⟨fs, hfs, f, hf, -⟩ := hf
    obtain rfl : fs = [] := List.self_eq_append_right.mp hfs
    cases hf
  have hv : (⟨0, 2000000⟩ : Timespec) ≠ .zero := by decide
  exact ⟨_, rfl, (gettime_iff (justSet_once hv) hw rfl rfl).1.mpr ⟨rfl, rfl⟩⟩

/-- A timer of 5 seconds reports that no time is left when it has just been set, and more
after a millisecond. -/
theorem fiveSeconds_counts_up : JustSet (once ⟨5, 0⟩) 0 ⟨5, 0⟩ ∧ findTimerById 0 (once ⟨5, 0⟩) = some 0 ∧
    ¬ Reports 0 ⟨.zero, .zero⟩ 0 5000 (once ⟨5, 0⟩) ∧
    ¬ NeverIncreases 0 ⟨.zero, .zero⟩ (once ⟨5, 0⟩) [.systick] := by
  refine ⟨justSet_once (by decide), rfl, ?_, fun hn => ?_⟩
  · unfold Reports
    decide
  · have hle := hn _ (List.mem_singleton_self _)
    revert hle
    decide

end PikoRT.Time.TimeLeft

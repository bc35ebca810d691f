import PikoRT.Time.Deadline

/-! # Interval timers

`systick_bh` sees that a timer has expired one tick after the expiry, and sets an interval
timer again from the clock that it then sees. The notifications of a timer of `p`
milliseconds come every `p + 1` ticks. -/
namespace PikoRT.Time.Drift
open PikoRT.Lib.Run PikoRT.Kernel.LinuxList PikoRT.Time.Timer PikoRT.Time.Deadline
open PikoRT.Sched.Model (Thread)
open PikoRT.Time.TimerList (Armed Sleeper Inv Meets Handles)

/-- The calls of `do_sigevent` for the timer so far. -/
def notifications (t : TimerAddr) (s : Timers) : ℕ :=
  s.fired.countP fun f => decide (f.timer = t) && f.sigev.isSome

/-- `n` ticks, and after each of them one run of the bottom half, which is still to come first
if `due`; the other calls come anywhere. -/
inductive Beats : Bool → ℕ → List Act → Prop
  | nil : Beats false 0 []
  | call {due : Bool} {n : ℕ} {as : List Act} (a : Act) (hb : isBh a = false) (ht : ticks a = 0)
      (h : Beats due n as) : Beats due n (a :: as)
  | tick {n : ℕ} {as : List Act} (h : Beats true n as) : Beats false (n + 1) (.systick :: as)
  | bh {n : ℕ} {as : List Act} (fuel : ℕ) (h : Beats false n as) : Beats true n (.systickBh fuel :: as)

/-- `k` notifications in `n` ticks are those of a timer of `p` milliseconds, up to one. -/
def Close (n p k : ℕ) : Prop := n / p ≤ k + 1 ∧ k ≤ n / p + 1

instance (n p k : ℕ) : Decidable (Close n p k) := inferInstanceAs (Decidable (_ ∧ _))

/-- The two routes of an interval timer: it is one, or becomes one when it expires. -/
structure Repeats (i : TimerInfo) (interval : Timespec) : Prop where
  value : i.value.itInterval = interval
  route : i.type = .oneshot ∧ i.callback = some .timerCallbackAndLink ∨
    i.type = .interval ∧ i.callback = some .timerCallback

/-- The timer is armed, and set to `interval` whenever it expires. -/
structure Repeating (s : Timers) (t : TimerAddr) (interval : Timespec) : Prop where
  inv : ∃ xs, Inv s xs
  armed : Armed s t
  repeats : Repeats (s.info t) interval

section

variable {s s' : Timers} {t : TimerAddr} {interval : Timespec} {p n k : ℕ}

/-! ## The reload -/

/-- On both routes the timer is set again from the clock. -/
theorem expire_reload (hr : Repeats (s.info t) interval) (hz : interval ≠ .zero) (hx : expired s t = true) :
    (expire t s).info t = { s.info t with
      type := .interval, callback := some .timerCallback, startClocktime := s.clocktimeInMsec,
      expireClocktime := after interval s.clocktimeInMsec } := by
  obtain ⟨rfl, ⟨ht, hc⟩ | ⟨ht, hc⟩⟩ := hr
  · unfold expire
    rw [if_pos hx]
    simp [ht, timerExpireCallback, hc, timerCallbackAndLink, systickTimerSet_of_ne t hz, fire]
  · unfold expire
    rw [if_pos hx]
    simp [ht, systickTimerSet_of_ne t hz, timerExpireCallback, hc, timerCallback, fire]

theorem Repeats.reload (hr : Repeats (s.info t) interval) (c : Clock) :
    Repeats { s.info t with
      type := .interval, callback := some .timerCallback, startClocktime := c,
      expireClocktime := after interval c } interval :=
  ⟨hr.value, .inr ⟨rfl, rfl⟩⟩

theorem Repeating.not_sleeper (h : Repeating s t interval) : ¬ Sleeper s t := by
  intro hs
  have hs : (s.info t).callback = some .msleepCallback := hs
  rcases h.repeats.route with ⟨-, hc⟩ | ⟨-, hc⟩
  · rw [hc] at hs
    cases hs
  · rw [hc] at hs
    cases hs

/-! ## One step -/

/-- Only the bottom half runs callbacks. -/
theorem step_fired {a : Act} (hb : isBh a = false) (he : step s a = some s') : s'.fired = s.fired := by
  have hfree : ∀ u (r : Timers), (timerFree u r).fired = r.fired := by
    intro u r
    obtain ⟨l, he⟩ := timerFree_writes u r
    rw [he]
    rfl
  cases a with
  | timerCreate mem sevp =>
    obtain ⟨-, rfl⟩ := Option.ite_none_right_eq_some.mp he |>.imp_right Option.some.inj
    cases mem with
    | none => rfl
    | some b =>
      simp only [sysTimerCreate]
      split
      · exact hfree _ _
      · rfl
  | timerSettime timerid newValue c =>
    cases he
    rcases TimerList.sysTimerSettime_writes timerid newValue c s with he | ⟨u, i, l, -, he⟩
    · rw [he]
    · rw [he]
      rfl
  | msleep mem msec c =>
    obtain ⟨-, rfl⟩ := Option.ite_none_right_eq_some.mp he |>.imp_right Option.some.inj
    cases mem with
    | none => rfl
    | some b =>
      obtain ⟨i, l, he⟩ := sysMsleep_writes b msec c s
      rw [he]
      rfl
  | msleepReturn u =>
    obtain ⟨-, rfl⟩ := Option.ite_none_right_eq_some.mp he |>.imp_right Option.some.inj
    exact hfree _ _
  | systick =>
    cases he
    rfl
  | systickBh fuel => cases hb

/-- A call for somebody else leaves the timer as it is. -/
theorem Repeating.other {a : Act} (h : Repeating s t interval) (hb : isBh a = false) (hm : Meets s a)
    (hs : Spares t s a) (he : step s a = some s') :
    Repeating s' t interval ∧ s'.info t = s.info t ∧ notifications t s' = notifications t s ∧
      s'.clocktimeInMsec = s.clocktimeInMsec + BitVec.ofNat 32 (ticks a) := by
  obtain ⟨hsame, hclock⟩ := step_other h.armed.1 hb hs he
  refine ⟨⟨TimerList.step_inv h.inv hm he, hsame.armed h.armed, ?_⟩, hsame.info, ?_, hclock⟩
  · rw [hsame.info]
    exact h.repeats
  · unfold notifications
    rw [step_fired hb he]

/-- The bottom half notifies once if the timer has expired, and otherwise not. -/
theorem notifications_systickBh {xs : List TimerAddr} (hi : Inv s xs) (ht : t ∈ xs) (hn : ¬ Sleeper s t)
    (hh : Handles s s' xs) :
    notifications t s' = notifications t s + if expired s t then 1 else 0 := by
  obtain ⟨fs, hfs, hmap, hown⟩ := hh.fired
  have hcount : fs.countP (fun f => decide (f.timer = t) && f.sigev.isSome) = (fs.map Fire.timer).count t := by
    rw [List.count, List.countP_map]
    refine List.countP_congr fun f hf => ?_
    simp only [Function.comp_apply, Bool.and_eq_true, decide_eq_true_iff, beq_iff_eq, and_iff_left_iff_imp]
    rintro rfl
    rw [Option.isSome_iff_ne_none]
    exact fun hnone => hn ((hown f hf).2.mp hnone)
  have hnd := (TimerList.nodup_of_ring hi.ring).filter (expired s)
  unfold notifications
  rw [hfs, List.countP_append, hcount, hmap, hnd.count]
  simp only [List.mem_filter, ht, true_and]

theorem Repeating.systickBh {fuel : ℕ} (h : Repeating s t interval) (hz : interval ≠ .zero)
    (he : systickBh fuel s = some s') :
    Repeating s' t interval ∧ s'.clocktimeInMsec = s.clocktimeInMsec ∧
      notifications t s' = notifications t s + (if expired s t then 1 else 0) ∧
      (s'.info t).expireClocktime =
        if expired s t then after interval s.clocktimeInMsec else (s.info t).expireClocktime := by
  obtain ⟨xs, hi⟩ := h.inv
  obtain ⟨hys, hh⟩ := TimerList.systickBh_inv hi he
  have ht : t ∈ xs := (hi.mem_iff t).mpr h.armed
  have hinfo := hh.visited t ht
  refine ⟨⟨hys, ?_, ?_⟩, systickBhFrom_clock he, notifications_systickBh hi ht h.not_sleeper hh, ?_⟩
  · refine ⟨(congrFun hh.allocated t).trans h.armed.1, ?_⟩
    cases hx : expired s t with
    | true =>
      rw [hinfo, expire_reload h.repeats hz hx]
      exact h.armed.2
    | false =>
      rw [hh.info t (.inr hx)]
      exact h.armed.2
  · cases hx : expired s t with
    | true =>
      rw [hinfo, expire_reload h.repeats hz hx]
      exact h.repeats.reload _
    | false =>
      rw [hh.info t (.inr hx)]
      exact h.repeats
  · cases hx : expired s t with
    | true =>
      rw [hinfo, expire_reload h.repeats hz hx]
      rfl
    | false =>
      rw [hh.info t (.inr hx)]
      rfl

/-! ## Runs -/

theorem Repeating.run {as : List Act} (h : Repeating s t interval) (hz : interval ≠ .zero)
    (hC : ∀ x ∈ trace step s as, Meets x.pre x.act ∧ Spares t x.pre x.act) (hr : run step s as = some s') :
    Repeating s' t interval := by
  refine run_invariant_of_trace (I := fun s => Repeating s t interval)
    (C := fun s a => Meets s a ∧ Spares t s a) ?_ hr h hC
  intro s a s' h hC he
  obtain ⟨hm, hs⟩ := hC
  rcases systickBh_or_call a with ⟨fuel, rfl⟩ | hb
  · exact (h.systickBh hz he).1
  · exact (h.other hb hm hs he).1

/-- **The run lemma.** `e` ticks after the timer was set, the next notification is
`p + 1 - e` ticks away, and the others come `p + 1` ticks apart. -/
theorem notifications_beats (hp : (p : ℤ) = msec interval) (hz : interval ≠ .zero) (hn : 0 ≤ interval.tvNsec)
    {due : Bool} {bs : List Act} (hb : Beats due n bs) {s : Timers} {e : ℕ} (h : Repeating s t interval)
    (hset : (s.info t).expireClocktime.toNat + e = s.clocktimeInMsec.toNat + p)
    (he : e ≤ p + due.toNat) (hclock : s.clocktimeInMsec.toNat + n + p < 2 ^ 32)
    (hC : ∀ x ∈ trace step s bs, Meets x.pre x.act ∧ Spares t x.pre x.act) (hr : run step s bs = some s') :
    notifications t s' = notifications t s + (e + n) / (p + 1) := by
  induction hb generalizing s e with
  | nil =>
    cases hr
    have hlt : e < p + 1 := Nat.lt_succ_of_le he
    rw [add_zero, Nat.div_eq_of_lt hlt, add_zero]
  | call a hb ht _ ih =>
    obtain ⟨s1, h1, hr⟩ := run_cons_some hr
    rw [trace_cons_some h1] at hC
    obtain ⟨⟨hm, hs⟩, hC⟩ := List.forall_mem_cons.mp hC
    obtain ⟨hrep, hinfo, hnot, hc⟩ := h.other hb hm hs h1
    rw [ht] at hc
    have hc : s1.clocktimeInMsec = s.clocktimeInMsec := hc.trans (BitVec.add_zero _)
    rw [← hnot]
    refine ih hrep ?_ he ?_ hC hr
    · rw [hinfo, hc]
      exact hset
    · rw [hc]
      exact hclock
  | @tick n _ _ ih =>
    obtain ⟨s1, h1, hr⟩ := run_cons_some hr
    rw [trace_cons_some h1] at hC
    obtain ⟨⟨hm, hs⟩, hC⟩ := List.forall_mem_cons.mp hC
    obtain ⟨hrep, hinfo, hnot, hc⟩ := h.other rfl hm hs h1
    have hnat : s1.clocktimeInMsec.toNat = s.clocktimeInMsec.toNat + 1 := by
      rw [hc, BitVec.toNat_add]
      exact Nat.mod_eq_of_lt (by simp [ticks]; omega)
    have hrest : e + 1 + n = e + (n + 1) := by omega
    rw [← hnot, ← hrest]
    refine ih hrep ?_ (Nat.succ_le_succ he) ?_ hC hr
    · rw [hinfo, hnat]
      omega
    · omega
  | @bh n _ fuel _ ih =>
    obtain ⟨s1, h1, hr⟩ := run_cons_some hr
    rw [trace_cons_some h1] at hC
    obtain ⟨-, hC⟩ := List.forall_mem_cons.mp hC
    obtain ⟨hrep, hc, hnot, hexp⟩ := h.systickBh hz h1
    have he : e ≤ p + 1 := he
    have hx : expired s t = true ↔ e = p + 1 := by
      rw [expired, decide_eq_true_iff, BitVec.lt_def]
      omega
    by_cases hlate : e = p + 1
    · -- the timer is set from the clock as it is now, not from its expiry
      have hxt := hx.mpr hlate
      have hpos : 0 < p + 1 := Nat.succ_pos p
      rw [if_pos hxt] at hnot hexp
      have hnew : (s1.info t).expireClocktime.toNat + 0 = s1.clocktimeInMsec.toNat + p := by
        rw [hexp, toNat_after hp hn, hc]
        exact Nat.mod_eq_of_lt (by omega)
      rw [ih hrep hnew (Nat.zero_le _) (hc ▸ hclock) hC hr, hnot, hlate, zero_add, Nat.add_div_left n hpos]
      omega
    · have hxf := hx.not.mpr hlate
      rw [if_neg hxf, add_zero] at hnot
      rw [if_neg hxf] at hexp
      have hwait : (s1.info t).expireClocktime.toNat + e = s1.clocktimeInMsec.toNat + p := by
        rw [hexp, hc]
        exact hset
      have hle : e ≤ p + false.toNat := by
        simp only [Bool.toNat_false]
        omega
      rw [ih hrep hwait hle (hc ▸ hclock) hC hr, hnot]

/-- `sys_timer_settime` makes an interval timer of a timer that is disarmed. -/
theorem repeating_timerSettime {timerid : ℕ} {newValue : Itimerspec} {thread : Thread} (h : ∃ xs, Inv s xs)
    (hf : findTimerById timerid s = some t) (hd : (s.info t).disarmed = true) (hv : newValue.itValue ≠ .zero)
    (hz : newValue.itInterval ≠ .zero) :
    Repeating (sysTimerSettime timerid newValue thread s).2 t newValue.itInterval := by
  have hset : JustArmed (sysTimerSettime timerid newValue thread s).2 t newValue.itValue :=
    justArmed_timerSettime h hf hd hv
  refine ⟨hset.inv, hset.armed, ?_⟩
  simp only [sysTimerSettime, hf, if_neg hv, armTimer, if_pos hz]
  split
  · rw [systickTimerSet_of_ne t hz]
    exact ⟨by simp, .inr (by simp)⟩
  · rw [systickTimerSet_of_ne t hv]
    exact ⟨by simp, .inl (by simp)⟩

/-- With one tick too much for each notification, how long the count stays close. -/
theorem close_iff (hp : 1 ≤ p) : Close n p (n / (p + 1)) ↔ n / (p + 1) + n % (p + 1) < 2 * p := by
  have hle : n / (p + 1) ≤ n / p := Nat.div_le_div_left (Nat.le_succ p) hp
  have hdiv : n / p ≤ n / (p + 1) + 1 ↔ n < (n / (p + 1) + 2) * p := by
    rw [← Nat.div_lt_iff_lt_mul hp]
    omega
  have hsplit : n = p * (n / (p + 1)) + n / (p + 1) + n % (p + 1) := by
    have hmod := (Nat.div_add_mod n (p + 1)).symm
    rwa [Nat.succ_mul] at hmod
  rw [Close, and_iff_left (Nat.le_succ_of_le hle), hdiv, Nat.add_mul, Nat.mul_comm (n / (p + 1)) p]
  omega

/-- **Interval timers.** In the `n` ticks after an expiry of an interval timer of `p`
milliseconds, each with its bottom half and away from the wrap of the clock, the number of
notifications is right, up to one, exactly as long as `n` is small. -/
theorem notifications_close_iff {timerid : ℕ} {newValue : Itimerspec} {thread : Thread} {fuel : ℕ}
    {s₀ s₁ s₂ : Timers} {as bs : List Act} (h : ∃ xs, Inv s xs) (hf : findTimerById timerid s = some t)
    (hd : (s.info t).disarmed = true) (hv : newValue.itValue ≠ .zero)
    (hp : (p : ℤ) = msec newValue.itInterval) (hp1 : 1 ≤ p) (hn : 0 ≤ newValue.itInterval.tvNsec)
    (ha : run step (sysTimerSettime timerid newValue thread s).2 as = some s₀)
    (hA : ∀ x ∈ trace step (sysTimerSettime timerid newValue thread s).2 as,
      Meets x.pre x.act ∧ Spares t x.pre x.act)
    (hbh : step s₀ (.systickBh fuel) = some s₁) (hfires : Fires t s₀ s₁)
    (hb : run step s₁ bs = some s₂) (hB : ∀ x ∈ trace step s₁ bs, Meets x.pre x.act ∧ Spares t x.pre x.act)
    (hbeats : Beats false n bs) (hclock : s₁.clocktimeInMsec.toNat + n + p < 2 ^ 32) :
    Close n p (notifications t s₂ - notifications t s₁) ↔ n / (p + 1) + n % (p + 1) < 2 * p := by
  have hz : newValue.itInterval ≠ .zero := by
    intro hz
    rw [hz] at hp
    have hzero : msec .zero = 0 := rfl
    omega
  have hrep := (repeating_timerSettime h hf hd hv hz).run hz hA ha
  have hx := ((systickBh_timer hrep.inv hrep.armed hbh).1).mp hfires
  obtain ⟨hrep1, hc, -, hexp⟩ := hrep.systickBh hz hbh
  have hset : (s₁.info t).expireClocktime.toNat + 0 = s₁.clocktimeInMsec.toNat + p := by
    rw [hexp, if_pos hx, toNat_after hp hn, hc, add_zero]
    exact Nat.mod_eq_of_lt (by rw [← hc]; omega)
  rw [notifications_beats hp hz hn hbeats hrep1 hset (Nat.zero_le _) hclock hB hb, Nat.add_sub_cancel_left,
    zero_add]
  exact close_iff hp1

end

/-! ## Concrete runs -/

/-- A timer that is created with the clock at zero. -/
def created : Timers :=
  (sysTimerCreate (some ⟨0, TimerList.garbage, .poison1, .poison2⟩) ⟨7, 0⟩ (bootAt 0)).2

theorem inv_created : ∃ xs, Inv created xs := by
  have h := TimerList.inv_init TimerList.memory fun _ => TimerList.garbage
  have hboot : Inv (bootAt 0) [] := ⟨⟨h.ring, h.mem_iff⟩, h.routed, h.created, h.asleep, h.nodup⟩
  exact TimerList.sysTimerCreate_inv hboot rfl (.inl rfl)

/-- It is set to `p` milliseconds, again and again. -/
def every (p : ℕ) : Itimerspec := ⟨⟨0, p * 1000000⟩, ⟨0, p * 1000000⟩⟩

/-- `n` ticks with their bottom halves. -/
def beat : ℕ → List Act
  | 0 => []
  | n + 1 => .systick :: .systickBh 2 :: beat n

theorem beats_beat (n : ℕ) : Beats false n (beat n) := by
  induction n with
  | zero => exact .nil
  | succ n ih => exact .tick (.bh 2 ih)

/-- Nothing but ticks and bottom halves. -/
theorem meets_of_clock {s : Timers} {t : TimerAddr} {as : List Act} (h : ∀ a ∈ as, isBh a = true ∨ ticks a = 1) :
    ∀ x ∈ trace step s as, Meets x.pre x.act ∧ Spares t x.pre x.act := by
  intro x hx
  have hact := h x.act (act_mem_of_mem_trace hx)
  cases hcase : x.act with
  | systick => exact ⟨trivial, trivial⟩
  | systickBh fuel => exact ⟨trivial, trivial⟩
  | _ =>
    rw [hcase] at hact
    rcases hact with hb | ht
    · cases hb
    · cases ht

/-- A timer of 2 milliseconds notifies once in the 3 ticks after its first expiry. -/
theorem notifications_close_twoMsec : ∃ s₀ s₁ s₂,
    run step (sysTimerSettime 0 (every 2) 1 created).2 (beat 2 ++ [.systick]) = some s₀ ∧
    step s₀ (.systickBh 2) = some s₁ ∧ run step s₁ (beat 3) = some s₂ ∧
    Close 3 2 (notifications 0 s₂ - notifications 0 s₁) := by
  have hset : (every 2).itValue ≠ .zero := by decide
  have hlen : ((2 : ℕ) : ℤ) = msec (every 2).itInterval := rfl
  have hnsec : 0 ≤ (every 2).itInterval.tvNsec := by decide
  have hbefore : ∀ a ∈ beat 2 ++ [.systick], isBh a = true ∨ ticks a = 1 := by decide
  have hafter : ∀ a ∈ beat 3, isBh a = true ∨ ticks a = 1 := by decide
  obtain ⟨s₀, h₀, s₁, h₁, hfires, hclock, s₂, h₂⟩ : ∃ s₀,
      run step (sysTimerSettime 0 (every 2) 1 created).2 (beat 2 ++ [.systick]) = some s₀ ∧
      ∃ s₁, step s₀ (.systickBh 2) = some s₁ ∧ Fires 0 s₀ s₁ ∧ s₁.clocktimeInMsec.toNat + 3 + 2 < 2 ^ 32 ∧
      ∃ s₂, run step s₁ (beat 3) = some s₂ :=
    ⟨_, rfl, _, rfl, ⟨_, rfl, _, List.mem_singleton_self _, rfl⟩, by decide, _, rfl⟩
  refine ⟨s₀, s₁, s₂, h₀, h₁, h₂, ?_⟩
  exact (notifications_close_iff inv_created rfl rfl hset hlen (by norm_num) hnsec h₀ (meets_of_clock hbefore) h₁
    hfires h₂ (meets_of_clock hafter) (beats_beat 3) hclock).mpr (by decide)

/-- A timer of one millisecond notifies once in the 3 ticks after its first expiry. -/
theorem oneMsec_drifts : ∃ s₀ s₁ s₂,
    run step (sysTimerSettime 0 (every 1) 1 created).2 (beat 1 ++ [.systick]) = some s₀ ∧
    step s₀ (.systickBh 2) = some s₁ ∧ Fires 0 s₀ s₁ ∧ run step s₁ (beat 3) = some s₂ ∧
    ¬ Close 3 1 (notifications 0 s₂ - notifications 0 s₁) :=
  ⟨_, _, _, rfl, rfl, ⟨_, rfl, _, List.mem_singleton_self _, rfl⟩, rfl, by decide⟩

end PikoRT.Time.Drift

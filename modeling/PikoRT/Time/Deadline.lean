import PikoRT.Time.TimerList

/-! # Timers and the wrap of the clock

`systick_timer_set` adds the length of a timer to the clock and `systick_bh` compares the
sum with the clock, both in 32 bits. The comparison is right while the clock and the sum
have wrapped equally often. -/
namespace PikoRT.Time.Deadline
open PikoRT.Lib.Run PikoRT.Kernel.Bitops PikoRT.Kernel.LinuxList PikoRT.Time.Timer
open PikoRT.Sched.Model (Thread)
open PikoRT.Time.TimerList (Armed Inv Meets)

/-- The length of a timer in milliseconds. -/
def msec (value : Timespec) : ℤ := 1000 * value.tvSec + value.tvNsec / 1000000

/-- The timer has just been set to `value`. -/
structure JustArmed (s : Timers) (t : TimerAddr) (value : Timespec) : Prop where
  inv : ∃ xs, Inv s xs
  armed : Armed s t
  expiry : (s.info t).expireClocktime = after value s.clocktimeInMsec

/-- The callback of the timer ran in the step. -/
def Fires (t : TimerAddr) (s s' : Timers) : Prop := ∃ fs, s'.fired = s.fired ++ fs ∧ ∃ f ∈ fs, f.timer = t

/-- The calls that leave the timer alone. -/
def Spares (t : TimerAddr) (s : Timers) : Act → Prop
  | .timerSettime timerid _ _ => findTimerById timerid s ≠ some t
  | .msleepReturn u => u ≠ t
  | _ => True

def isBh : Act → Bool
  | .systickBh _ => true
  | _ => false

def ticks : Act → ℕ
  | .systick => 1
  | _ => 0

/-- The timers, the ticks since the timer was set, and whether a bottom half has run after
more than `d` of them. -/
structure Watch where
  timers : Timers
  elapsed : ℕ
  late : Bool

def watchStep (d : ℕ) (w : Watch) (a : Act) : Option Watch :=
  (step w.timers a).map fun s => ⟨s, w.elapsed + ticks a, w.late || isBh a && decide (d < w.elapsed)⟩

/-- The bottom half does not run the callback early, and the first one that is late enough
does run it. -/
def OnTime (t : TimerAddr) (d : ℕ) (w : Watch) (a : Act) (w' : Watch) : Prop :=
  isBh a = true → (w.elapsed < d → ¬ Fires t w.timers w'.timers) ∧
    (d < w.elapsed → w.late = false → Fires t w.timers w'.timers)

/-- Between `n` ticks and `d` ticks after the time `c` the clock does not wrap; when `n` is
larger, whole turns of the clock between them do not count. -/
def SameTurn (c : Clock) (d n : ℕ) : Prop :=
  if n < d then (c.toNat + n) / 2 ^ 32 = (c.toNat + d) / 2 ^ 32
  else 0 < (n - d) % 2 ^ 32 ∧ (c.toNat + d) % 2 ^ 32 + (n - d) % 2 ^ 32 < 2 ^ 32

/-- Every bottom half until the timer is due, and the first one after that, comes in the turn
of the clock in which the timer is due. -/
def InTurn (c : Clock) (d : ℕ) (w : Watch) (a : Act) : Prop :=
  isBh a = true → w.late = false → w.elapsed ≠ d → SameTurn c d w.elapsed

instance (c : Clock) (d n : ℕ) : Decidable (SameTurn c d n) :=
  inferInstanceAs (Decidable (if n < d then _ else _))

instance (c : Clock) (d : ℕ) (w : Watch) (a : Act) : Decidable (InTurn c d w a) :=
  inferInstanceAs (Decidable (_ → _ → _ → _))

section

variable {s s' : Timers} {t : TimerAddr} {value : Timespec} {c : Clock} {d n : ℕ}

/-! ## The comparison -/

theorem toNat_after (hd : (d : ℤ) = msec value) (hn : 0 ≤ value.tvNsec) (c : Clock) :
    (after value c).toNat = (c.toNat + d) % 2 ^ 32 := by
  have hdiv : value.tvNsec.tdiv 1000000 = value.tvNsec / 1000000 := Int.tdiv_eq_ediv_of_nonneg hn
  have hsum : after value c = c + BitVec.ofNat 32 d := by
    unfold after
    rw [hdiv, add_assoc, ← BitVec.ofInt_add, ← BitVec.ofInt_natCast, hd, msec, mul_comm]
  rw [hsum, BitVec.toNat_add, BitVec.toNat_ofNat, Nat.add_mod_mod]

theorem expired_iff (hset : (s.info t).expireClocktime.toNat = (c.toNat + d) % 2 ^ 32)
    (hclock : s.clocktimeInMsec.toNat = (c.toNat + n) % 2 ^ 32) :
    expired s t = true ↔ (c.toNat + d) % 2 ^ 32 < (c.toNat + n) % 2 ^ 32 := by
  rw [expired, decide_eq_true_iff, BitVec.lt_def, hset, hclock]

/-- The comparison is right exactly in the turn in which the timer is due. -/
theorem sameTurn_iff (hd : d < 2 ^ 31) (hn : n ≠ d) :
    ((c.toNat + d) % 2 ^ 32 < (c.toNat + n) % 2 ^ 32 ↔ d < n) ↔ SameTurn c d n := by
  have hc := c.isLt
  unfold SameTurn
  split
  · rename_i hlt
    simp only [Nat.not_lt_of_lt hlt, iff_false]
    omega
  · have hlt : d < n := by omega
    simp only [hlt, iff_true]
    omega

/-! ## One step -/

theorem systickBh_or_call (a : Act) : (∃ fuel, a = .systickBh fuel) ∨ isBh a = false := by
  cases a with
  | systickBh fuel => exact .inl ⟨fuel, rfl⟩
  | _ => exact .inr rfl

/-- Nothing has happened to the timer. -/
structure Untouched (t : TimerAddr) (s s' : Timers) : Prop where
  info : s'.info t = s.info t
  allocated : s'.allocated t = s.allocated t

theorem timerFree_untouched {u : TimerAddr} (hu : t ≠ u) (s : Timers) : Untouched t s (timerFree u s) := by
  obtain ⟨hsame, -⟩ := TimerList.timerFree_frame u s
  exact ⟨hsame.info t hu, hsame.allocated t hu⟩

theorem systickTimerSet_clock (u : TimerAddr) (value : Timespec) (s : Timers) :
    (systickTimerSet u value s).clocktimeInMsec = s.clocktimeInMsec := by
  obtain ⟨i, l, he⟩ := systickTimerSet_writes u value s
  rw [he]
  rfl

theorem timerFree_clock (u : TimerAddr) (s : Timers) : (timerFree u s).clocktimeInMsec = s.clocktimeInMsec := by
  obtain ⟨l, he⟩ := timerFree_writes u s
  rw [he]
  rfl

/-- New memory is not that of a timer. -/
theorem ne_of_validMem {b : Block} (ha : s.allocated t = true) (hmem : validMem s (some b) = true) : t ≠ b.addr := by
  intro he
  subst he
  simp [validMem, ha] at hmem

/-- What a call does to a timer of somebody else, and to the clock. -/
theorem step_other {a : Act} (ha : s.allocated t = true) (hb : isBh a = false) (hs : Spares t s a)
    (he : step s a = some s') :
    Untouched t s s' ∧ s'.clocktimeInMsec = s.clocktimeInMsec + BitVec.ofNat 32 (ticks a) := by
  have hzero : s.clocktimeInMsec = s.clocktimeInMsec + BitVec.ofNat 32 0 := by simp
  cases a with
  | timerCreate mem sevp =>
    obtain ⟨hmem, rfl⟩ := Option.ite_none_right_eq_some.mp he |>.imp_right Option.some.inj
    cases mem with
    | none => exact ⟨⟨rfl, rfl⟩, hzero⟩
    | some b =>
      have htb := ne_of_validMem ha hmem
      have hsame := TimerList.sameElse_timerAlloc b s
      simp only [sysTimerCreate]
      split
      · have hrest := timerFree_untouched htb (timerAlloc b s)
        refine ⟨⟨hrest.info.trans (hsame.info t htb), hrest.allocated.trans (hsame.allocated t htb)⟩, ?_⟩
        exact (timerFree_clock ..).trans hzero
      · refine ⟨⟨?_, hsame.allocated t htb⟩, hzero⟩
        exact (Function.update_of_ne htb _ _).trans (hsame.info t htb)
  | timerSettime timerid newValue c =>
    cases he
    rcases TimerList.sysTimerSettime_writes timerid newValue c s with he | ⟨u, i, l, hf, he⟩
    · rw [he]
      exact ⟨⟨rfl, rfl⟩, hzero⟩
    · have htu : t ≠ u := by
        intro htu
        exact hs (htu ▸ hf)
      rw [he]
      exact ⟨⟨Function.update_of_ne htu _ _, rfl⟩, hzero⟩
  | msleep mem msec c =>
    obtain ⟨hmem, rfl⟩ := Option.ite_none_right_eq_some.mp he |>.imp_right Option.some.inj
    cases mem with
    | none => exact ⟨⟨rfl, rfl⟩, hzero⟩
    | some b =>
      have htb := ne_of_validMem ha hmem
      have hsame := TimerList.sameElse_timerAlloc b s
      obtain ⟨i, l, he⟩ := sysMsleep_writes b msec c s
      rw [he]
      exact ⟨⟨(Function.update_of_ne htb _ _).trans (hsame.info t htb), hsame.allocated t htb⟩, hzero⟩
  | msleepReturn u =>
    obtain ⟨-, rfl⟩ := Option.ite_none_right_eq_some.mp he |>.imp_right Option.some.inj
    have hrest := timerFree_untouched (t := t) (u := u) (Ne.symm hs) { s with sleeping := s.sleeping.erase u }
    exact ⟨⟨hrest.info, hrest.allocated⟩, (timerFree_clock ..).trans hzero⟩
  | systick =>
    cases he
    exact ⟨⟨rfl, rfl⟩, rfl⟩
  | systickBh fuel => cases hb

theorem systickBhFrom_clock {fuel : ℕ} {pos pos1 : Node Unit TimerAddr}
    (he : systickBhFrom fuel pos pos1 s = some s') :
    s'.clocktimeInMsec = s.clocktimeInMsec := by
  obtain ⟨info, l, fs, rfl⟩ := systickBhFrom_writes he
  rfl

/-- The bottom half runs the callback of an armed timer exactly when it has expired, and
leaves it alone otherwise. -/
theorem systickBh_timer {fuel : ℕ} (h : ∃ xs, Inv s xs) (ha : Armed s t) (he : systickBh fuel s = some s') :
    (Fires t s s' ↔ expired s t = true) ∧ (expired s t = false → Untouched t s s') := by
  obtain ⟨xs, h⟩ := h
  obtain ⟨-, hh⟩ := TimerList.systickBh_inv h he
  have ht : t ∈ xs := (h.mem_iff t).mpr ha
  obtain ⟨fs, hfs, hmap, -⟩ := hh.fired
  refine ⟨?_, fun hx => ⟨hh.info t (.inr hx), congrFun hh.allocated t⟩⟩
  have hmem : (∃ f ∈ fs, f.timer = t) ↔ expired s t = true := by
    rw [← List.mem_map, hmap, List.mem_filter]
    exact and_iff_right ht
  rw [← hmem]
  constructor
  · rintro ⟨gs, hgs, hf⟩
    rwa [List.append_cancel_left (hfs.symm.trans hgs)]
  · intro hf
    exact ⟨fs, hfs, hf⟩

theorem Untouched.armed (h : Untouched t s s') (ha : Armed s t) : Armed s' t := by
  unfold Armed
  rw [h.info, h.allocated]
  exact ha

/-! ## Runs -/

/-- The timer waits, `w.elapsed` ticks after the time `c`; nothing more is known after the
first bottom half that is late enough. -/
inductive Tracks (t : TimerAddr) (c : Clock) (d : ℕ) (w : Watch) : Prop
  | late (hl : w.late = true) (hd : d < w.elapsed)
  | waiting (hl : w.late = false) (hi : ∃ xs, Inv w.timers xs) (ha : Armed w.timers t)
      (hc : w.timers.clocktimeInMsec.toNat = (c.toNat + w.elapsed) % 2 ^ 32)
      (he : (w.timers.info t).expireClocktime.toNat = (c.toNat + d) % 2 ^ 32)

theorem onTime_iff {w w' : Watch} {a : Act} (hd : d < 2 ^ 31) (h : Tracks t c d w)
    (hw : watchStep d w a = some w') : OnTime t d w a w' ↔ InTurn c d w a := by
  obtain ⟨s', he, rfl⟩ := Option.map_eq_some_iff.mp hw
  unfold OnTime InTurn
  cases h with
  | late hl hlt =>
    have hnot : ¬ w.elapsed < d := by omega
    simp [hl, hnot]
  | waiting hl hi ha hc hexp =>
    simp only [hl, forall_const]
    refine imp_congr_right fun hb => ?_
    cases a with
    | systickBh fuel =>
      obtain ⟨hfires, -⟩ := systickBh_timer hi ha he
      rw [hfires, expired_iff hexp hc]
      by_cases hn : w.elapsed = d
      · simp [hn]
      · rw [← sameTurn_iff hd hn]
        rcases lt_or_gt_of_ne hn with hlt | hlt
        · simp [hlt, hn, Nat.not_lt_of_lt hlt]
        · simp [hlt, hn, Nat.not_lt_of_lt hlt]
    | _ => cases hb

theorem tracks_step {w w' : Watch} {a : Act} (hd : d < 2 ^ 31) (h : Tracks t c d w)
    (hm : Meets w.timers a) (hs : Spares t w.timers a) (hin : InTurn c d w a)
    (hw : watchStep d w a = some w') : Tracks t c d w' := by
  obtain ⟨s', he, rfl⟩ := Option.map_eq_some_iff.mp hw
  cases h with
  | late hl hlt => exact .late (by simp [hl]) (Nat.lt_add_right _ hlt)
  | waiting hl hi ha hc hexp =>
    have hinv := TimerList.step_inv hi hm he
    cases hb : isBh a with
    | false =>
      obtain ⟨hsame, hclock⟩ := step_other ha.1 hb hs he
      refine .waiting (by simp [hl]) hinv (hsame.armed ha) ?_ ((congrArg _ (congrArg _ hsame.info)).trans hexp)
      rw [hclock, BitVec.toNat_add, hc, BitVec.toNat_ofNat, ← Nat.add_mod, add_assoc]
    | true =>
      by_cases hlt : d < w.elapsed
      · exact .late (by simp [hlt]) (Nat.lt_add_right _ hlt)
      cases a with
      | systickBh fuel =>
        obtain ⟨-, hkept⟩ := systickBh_timer hi ha he
        have hnot : expired w.timers t = false := by
          rw [Bool.eq_false_iff, ne_eq, expired_iff hexp hc]
          by_cases hn : w.elapsed = d
          · rw [hn]
            exact lt_irrefl _
          · rw [(sameTurn_iff hd hn).mpr (hin rfl hl hn)]
            exact hlt
        have hsame := hkept hnot
        refine .waiting (by simp [hl, hlt]) hinv (hsame.armed ha) ?_ ((congrArg _ (congrArg _ hsame.info)).trans hexp)
        rw [systickBhFrom_clock he]
        exact hc
      | _ => cases hb

theorem systickTimerSet_spec (hv : value ≠ .zero) (s : Timers) :
    (systickTimerSet t value s).allocated = s.allocated ∧
      ((systickTimerSet t value s).info t).disarmed = (s.info t).disarmed ∧
      ((systickTimerSet t value s).info t).expireClocktime = after value s.clocktimeInMsec := by
  rw [systickTimerSet_of_ne t hv]
  simp [Timers.setLinks, Timers.setInfo]

/-- On each of its ways `sys_timer_settime` sets the timer to `it_value`. -/
theorem armTimer_spec (newValue : Itimerspec) (thread : Thread) (s : Timers) :
    ∃ i, (armTimer t newValue thread s) = systickTimerSet t newValue.itValue (s.setInfo t i) ∧ i.disarmed = false := by
  unfold armTimer
  split_ifs with hz he
  · rw [← he]
    exact ⟨_, rfl, rfl⟩
  · exact ⟨_, rfl, rfl⟩
  · exact ⟨_, rfl, rfl⟩

/-- `sys_timer_settime` sets a timer that is disarmed. -/
theorem justArmed_timerSettime {timerid : ℕ} {newValue : Itimerspec} {thread : Thread} (h : ∃ xs, Inv s xs)
    (hf : findTimerById timerid s = some t) (hd : (s.info t).disarmed = true) (hv : newValue.itValue ≠ .zero) :
    JustArmed (sysTimerSettime timerid newValue thread s).2 t newValue.itValue := by
  obtain ⟨xs, hi⟩ := h
  have hinv : ∃ ys, Inv (sysTimerSettime timerid newValue thread s).2 ys :=
    TimerList.sysTimerSettime_inv hi fun _ u hu => Option.some.inj (hf.symm.trans hu) ▸ hd
  have halloc := hi.created t (TimerList.mem_of_findTimerById hf)
  have hset : ∃ i, (sysTimerSettime timerid newValue thread s).2 =
      systickTimerSet t newValue.itValue (s.setInfo t i) ∧ i.disarmed = false := by
    obtain ⟨i, hi, hdis⟩ := armTimer_spec (t := t) newValue thread (s.setInfo t { s.info t with value := newValue })
    refine ⟨i, ?_, hdis⟩
    simp only [sysTimerSettime, hf, if_neg hv]
    refine hi.trans ?_
    simp only [Timers.setInfo, Function.update_idem]
  obtain ⟨i, he, hdis⟩ := hset
  rw [he] at hinv ⊢
  obtain ⟨hal, hdi, hex⟩ := systickTimerSet_spec (t := t) hv (s.setInfo t i)
  refine ⟨hinv, ⟨by rw [hal]; exact halloc, ?_⟩, ?_⟩
  · rw [hdi]
    simpa using hdis
  · rw [hex, systickTimerSet_clock]

/-- **Timers and the wrap of the clock.** In every run from the setting of a timer in which
the list of timers is kept and the timer is left alone, the timer fires on time exactly when
the bottom halves come in the turn of the clock in which it is due. -/
theorem fires_onTime_iff {value : Timespec} (h : JustArmed s t value) (hn : 0 ≤ value.tvNsec)
    (hd : (d : ℤ) = msec value) (hlt : d < 2 ^ 31) (as : List Act)
    (hS : ∀ x ∈ trace (watchStep d) ⟨s, 0, false⟩ as, Meets x.pre.timers x.act ∧ Spares t x.pre.timers x.act) :
    (∀ x ∈ trace (watchStep d) ⟨s, 0, false⟩ as, OnTime t d x.pre x.act x.post) ↔
      ∀ x ∈ trace (watchStep d) ⟨s, 0, false⟩ as, InTurn s.clocktimeInMsec d x.pre x.act := by
  refine trace_forall_iff_of (I := Tracks t s.clocktimeInMsec d)
    (S := fun w a => Meets w.timers a ∧ Spares t w.timers a) ?_ ?_ ?_ hS
  · intro w a w' htr _ hw
    exact onTime_iff hlt htr hw
  · rintro w a w' htr ⟨hm, hs⟩ hin hw
    exact tracks_step hlt htr hm hs hin hw
  · refine .waiting rfl h.inv h.armed ?_ ?_
    · rw [add_zero, Nat.mod_eq_of_lt s.clocktimeInMsec.isLt]
    · rw [h.expiry, toNat_after hd hn]

end

/-! ## Concrete runs -/

/-- The first state with another time. -/
def bootAt (c : Clock) : Timers := { init TimerList.memory fun _ => TimerList.garbage with clocktimeInMsec := c }

/-- The clock comes to every time. -/
theorem reachable_bootAt (c : Clock) : Reachable step (bootAt 0) (bootAt c) := by
  have hrun : ∀ n (s : Timers), run step s (List.replicate n .systick) =
      some { s with clocktimeInMsec := s.clocktimeInMsec + BitVec.ofNat 32 n } := by
    intro n
    induction n with
    | zero => intro s; simp
    | succ n ih =>
      intro s
      rw [List.replicate_succ, run_cons]
      refine (ih (systick s)).trans ?_
      have hsum : s.clocktimeInMsec + 1 + BitVec.ofNat 32 n = s.clocktimeInMsec + BitVec.ofNat 32 (n + 1) := by
        rw [add_assoc, add_comm 1, BitVec.ofNat_add]
        rfl
      exact congrArg (fun c => some { s with clocktimeInMsec := c }) hsum
  refine ⟨List.replicate c.toNat .systick, (hrun _ _).trans ?_⟩
  simp [bootAt]

/-- A timer that is created and set at the time `c`. -/
def setAt (value : Timespec) (c : Clock) : Timers :=
  (sysTimerSettime 0 ⟨.zero, value⟩ 1
    (sysTimerCreate (some ⟨0, TimerList.garbage, .poison1, .poison2⟩) ⟨7, 0⟩ (bootAt c)).2).2

theorem justArmed_setAt {value : Timespec} (hv : value ≠ .zero) (c : Clock) : JustArmed (setAt value c) 0 value := by
  have hboot : Inv (bootAt c) [] := by
    have h := TimerList.inv_init TimerList.memory fun _ => TimerList.garbage
    exact ⟨⟨h.ring, h.mem_iff⟩, h.routed, h.created, h.asleep, h.nodup⟩
  have hcreated :
    ∃ xs, Inv (sysTimerCreate (some ⟨0, TimerList.garbage, .poison1, .poison2⟩) ⟨7, 0⟩ (bootAt c)).2 xs :=
    TimerList.sysTimerCreate_inv hboot rfl (.inl rfl)
  exact justArmed_timerSettime hcreated rfl rfl hv

/-- Four ticks, each with its bottom half; a timer of two milliseconds fires after the third. -/
def fourTicks : List Act :=
  [.systick, .systickBh 2, .systick, .systickBh 2, .systick, .systickBh 2, .systick, .systickBh 2]

theorem fires_onTime_twoMsec :
    (∃ w, run (watchStep 2) ⟨setAt ⟨0, 2000000⟩ 0, 0, false⟩ fourTicks = some w ∧ w.elapsed = 4 ∧
      w.timers.fired.map Fire.timer = [0]) ∧
    ∀ x ∈ trace (watchStep 2) ⟨setAt ⟨0, 2000000⟩ 0, 0, false⟩ fourTicks, OnTime 0 2 x.pre x.act x.post := by
  refine ⟨⟨_, rfl, rfl, by decide +kernel⟩, ?_⟩
  refine (fires_onTime_iff (d := 2) (justArmed_setAt (by decide) 0) (by decide) rfl (by norm_num) _ fun x hx =>
    ?_).mpr ?_
  · have ha := act_mem_of_mem_trace hx
    simp only [fourTicks, List.mem_cons, List.not_mem_nil, or_false] at ha
    rcases ha with ha | ha | ha | ha | ha | ha | ha | ha <;> rw [ha] <;> exact ⟨trivial, trivial⟩
  · decide +kernel

/-- A timer of a second that is set 256 milliseconds before the clock wraps fires one
millisecond later. -/
theorem fires_early :
    Reachable step (bootAt 0) (bootAt 0xFFFFFF00) ∧ JustArmed (setAt ⟨1, 0⟩ 0xFFFFFF00) 0 ⟨1, 0⟩ ∧
      ¬ ∀ x ∈ trace (watchStep 1000) ⟨setAt ⟨1, 0⟩ 0xFFFFFF00, 0, false⟩ [.systick, .systickBh 2],
        OnTime 0 1000 x.pre x.act x.post := by
  refine ⟨reachable_bootAt _, justArmed_setAt (by decide) _, fun hall => ?_⟩
  obtain ⟨-, hrest⟩ := List.forall_mem_cons.mp hall
  obtain ⟨hearly, -⟩ := List.forall_mem_singleton.mp hrest rfl
  exact hearly (by decide) ⟨_, rfl, _, List.mem_singleton_self _, rfl⟩

end PikoRT.Time.Deadline

import PikoRT.Time.Deadline

/-! # The bottom half and other threads

`softirqd` is a thread like others: between two iterations of the loop of `systick_bh`
other threads run their calls. The iterator has saved the next timer, which it
expects to find in the list when it comes there; a call that disarms this timer
unlinks it, and the loop goes on from an unlinked node.

Here an iteration is one step. Between two iterations `pos` is the timer that is to be
visited and `pos1` what comes after it. -/
namespace PikoRT.Time.Walk
open PikoRT.Lib.Run PikoRT.Kernel.LinuxList PikoRT.Kernel.ListFamily PikoRT.Time.Timer
open PikoRT.Time.TimerList (Armed Inv Listed Meets Unlinks)
open PikoRT.Time.Deadline (isBh)

structure Cursors where
  pos : TimerAddr
  pos1 : Node Unit TimerAddr

structure State where
  timers : Timers
  /-- The iterator of `systick_bh`, while it runs. -/
  walk : Option Cursors

inductive Act where
  | begin
  | iterate
  | call (a : Timer.Act)

/-- The test of the loop; there is nothing to read behind a poisoned pointer. -/
def enter (pos : Node Unit TimerAddr) (s : Timers) : Option State :=
  match pos with
  | .head () => some ⟨s, none⟩
  | .item t => some ⟨s, some ⟨t, s.links.next pos⟩⟩
  | .poison1 => none
  | .poison2 => none

/-- A thread returns from `sys_msleep` when the callback has enqueued it. -/
def canCall (s : Timers) : Timer.Act → Bool
  | .msleepReturn t => (s.info t).disarmed
  | a => !isBh a

def step (s : State) : Act → Option State
  | .begin => if s.walk.isNone then enter (s.timers.links.next systickTimers) s.timers else none
  | .iterate => s.walk.bind fun w => enter w.pos1 (expire w.pos s.timers)
  | .call a => if canCall s.timers a then (Timer.step s.timers a).map fun t => ⟨t, s.walk⟩ else none

/-- The iterator's cursors are in the list. -/
def Safe (s : State) : Prop :=
  ∃ xs, Listed s.timers xs ∧ ∀ w ∈ s.walk, w.pos ∈ xs ∧ (w.pos1 = systickTimers ∨ ∃ t ∈ xs, w.pos1 = .item t)

/-- The calls keep the list (`TimerList.Meets`): none arms a timer that is armed. -/
def KeepsList (s : State) : Act → Prop
  | .call a => Meets s.timers a
  | _ => True

/-- No call disarms a timer that one of the cursors is at. -/
def Avoids (s : State) : Act → Prop
  | .call a => ∀ w ∈ s.walk, ∀ t, Armed s.timers t → Unlinks s.timers t a → t ≠ w.pos ∧ .item t ≠ w.pos1
  | _ => True

def isIterate : Act → Bool
  | .iterate => true
  | _ => false

def isBegin : Act → Bool
  | .begin => true
  | _ => false

/-- Wherever the run is, the walk takes at most as many iterations more as there are timers in
the list, and each of them can be taken. -/
def Ends (s : State) (as : List Act) : Prop :=
  ∀ bs cs t, as = bs ++ cs → run step s bs = some t →
    (t.walk.isSome → (step t .iterate).isSome) ∧
      ∃ xs, Listed t.timers xs ∧ (cs.all (fun a => !isBegin a) →
        ((trace step t cs).countP fun x => isIterate x.act) ≤ xs.length)

/-- The walk visits linked timers only, and ends. -/
def Survives (s : State) (as : List Act) : Prop := (∀ x ∈ trace step s as, Safe x.post) ∧ Ends s as

section

variable {s s' : State} {us ts vs : List TimerAddr} {t : TimerAddr}

/-! ## The timers left to visit -/

def walkOf : List TimerAddr → Option Cursors
  | [] => none
  | t :: vs => some ⟨t, first () vs⟩

/-- The timers `ts`, at the end of the list, are left. -/
structure Left (s : State) (us ts : List TimerAddr) : Prop where
  inv : Inv s.timers (us ++ ts)
  walk : s.walk = walkOf ts

theorem Left.safe (h : Left s us ts) : Safe s := by
  refine ⟨us ++ ts, h.inv.toListed, fun w hw => ?_⟩
  rw [h.walk] at hw
  cases ts with
  | nil => cases hw
  | cons t vs =>
    obtain rfl : (⟨t, first () vs⟩ : Cursors) = w := Option.some.inj hw
    refine ⟨by simp, ?_⟩
    cases vs with
    | nil => exact .inl rfl
    | cons v vs => exact .inr ⟨v, by simp, rfl⟩

theorem enter_first {s : Timers} (h : Inv s (us ++ ts)) :
    enter (first () ts) s = some ⟨s, walkOf ts⟩ := by
  cases ts with
  | nil => rfl
  | cons t vs =>
    have hnext := TimerList.next_eq_first h.ring
    show some (⟨s, some ⟨t, s.links.next (.item t)⟩⟩ : State) = _
    rw [hnext]
    rfl

/-- An iteration takes the timer out of its place, and may put it back at the front. -/
theorem Left.iterate (h : Left s us (t :: vs)) : ∃ us', step s .iterate =
    some ⟨expire t s.timers, walkOf vs⟩ ∧ Left ⟨expire t s.timers, walkOf vs⟩ us' vs := by
  obtain ⟨us', hinv⟩ : ∃ us', Inv (expire t s.timers) (us' ++ vs) := by
    cases hx : expired s.timers t with
    | true => exact h.inv.expires (TimerList.expire_expires (h.inv.routed t (by simp)) hx)
    | false =>
      have he : expire t s.timers = s.timers := by
        unfold expire
        simp [hx]
      rw [he]
      refine ⟨us ++ [t], ?_⟩
      rw [List.append_assoc, List.singleton_append]
      exact h.inv
  refine ⟨us', ?_, hinv, rfl⟩
  have hstep : step s .iterate = enter (first () vs) (expire t s.timers) := by
    simp only [step, h.walk, walkOf, Option.bind_some]
  rw [hstep, enter_first hinv]

theorem Left.begin (h : Left s us []) : step s .begin = some ⟨s.timers, walkOf us⟩ ∧
    Left ⟨s.timers, walkOf us⟩ [] us := by
  have hinv : Inv s.timers ([] ++ us) := by simpa using h.inv
  refine ⟨?_, hinv, rfl⟩
  have hwalk : s.walk = none := h.walk
  simp only [step, hwalk, Option.isNone_none, if_true]
  rw [TimerList.next_head_eq_first hinv.ring]
  exact enter_first hinv

/-- A timer that no cursor is at goes. -/
theorem walkOf_erase (hp : ∀ w ∈ walkOf ts, t ≠ w.pos ∧ .item t ≠ w.pos1) : walkOf (ts.erase t) = walkOf ts := by
  cases ts with
  | nil => rfl
  | cons v vs =>
    obtain ⟨hv, hvs⟩ := hp _ rfl
    have hv : v ≠ t := Ne.symm hv
    rw [List.erase_cons_tail (by simpa using hv)]
    cases vs with
    | nil => rfl
    | cons w vs =>
      have hw : w ≠ t := by
        rintro rfl
        exact hvs rfl
      rw [List.erase_cons_tail (by simpa using hw)]
      rfl

theorem Left.call {a : Timer.Act} (h : Left s us ts) (hm : Meets s.timers a) (hv : Avoids s (.call a))
    (he : step s (.call a) = some s') : ∃ us' ts', Left s' us' ts' ∧ ts'.length ≤ ts.length := by
  obtain ⟨hcan, he⟩ := Option.ite_none_right_eq_some.mp he
  obtain ⟨r, hr, rfl⟩ := Option.map_eq_some_iff.mp he
  have hbh : ∀ fuel, a ≠ .systickBh fuel := by
    intro fuel hact
    rw [hact] at hcan
    cases hcan
  obtain ⟨ys, hys, hcase⟩ := TimerList.call_list h.inv hm hbh hr
  rcases hcase with rfl | ⟨u, -, rfl⟩ | ⟨u, hu, hun, rfl⟩
  · exact ⟨us, ts, ⟨hys, h.walk⟩, le_rfl⟩
  · exact ⟨u :: us, ts, ⟨hys, h.walk⟩, le_rfl⟩
  · have hcur : ∀ w ∈ walkOf ts, u ≠ w.pos ∧ .item u ≠ w.pos1 := by
      intro w hw
      rw [← h.walk] at hw
      exact hv w hw u ((h.inv.mem_iff u).mp hu) hun
    by_cases huu : u ∈ us
    · rw [List.erase_append_left _ huu] at hys
      exact ⟨us.erase u, ts, ⟨hys, h.walk⟩, le_rfl⟩
    · rw [List.erase_append_right _ huu] at hys
      exact ⟨us, ts.erase u, ⟨hys, h.walk.trans (walkOf_erase hcur).symm⟩, List.length_erase_le⟩

/-- **Step lemma.** An iteration leaves one timer less, and a call no more. -/
theorem Left.step {a : Act} (h : Left s us ts) (hk : KeepsList s a) (hv : Avoids s a)
    (he : step s a = some s') : ∃ us' ts', Left s' us' ts' ∧
      (isBegin a = false → ts'.length + (isIterate a).toNat ≤ ts.length) := by
  cases a with
  | begin =>
    cases ts with
    | nil =>
      obtain ⟨hs, hl⟩ := h.begin
      obtain rfl := Option.some.inj (hs.symm.trans he)
      exact ⟨_, _, hl, fun hb => (nomatch hb)⟩
    | cons t vs =>
      simp [Walk.step, h.walk, walkOf] at he
  | iterate =>
    cases ts with
    | nil => simp [Walk.step, h.walk, walkOf] at he
    | cons t vs =>
      obtain ⟨us', hs, hl⟩ := h.iterate
      obtain rfl := Option.some.inj (hs.symm.trans he)
      exact ⟨us', vs, hl, fun _ => le_rfl⟩
  | call a =>
    obtain ⟨us', ts', hl, hle⟩ := h.call hk hv he
    exact ⟨us', ts', hl, fun _ => hle⟩

/-! ## Disarming the timer at a cursor -/

theorem not_armed_of_unlinks {r r' : Timers} {a : Timer.Act} (ha : Armed r t) (hu : Unlinks r t a)
    (he : Timer.step r a = some r') : ¬ Armed r' t := by
  intro harmed
  obtain ⟨hal, hd⟩ := harmed
  cases a with
  | timerSettime timerid newValue c =>
    obtain ⟨hz, hf⟩ := hu
    cases he
    rcases TimerList.sysTimerSettime_cases hf rfl with ⟨-, -, i, hi, he⟩ | ⟨-, hd', -⟩ | ⟨hv, -⟩
    · rw [he] at hd
      simp [hi] at hd
    · cases hd'.symm.trans ha.2
    · exact hv hz
  | msleepReturn u =>
    obtain rfl : u = t := hu
    obtain ⟨-, rfl⟩ := Option.ite_none_right_eq_some.mp he |>.imp_right Option.some.inj
    exact (TimerList.timerFree_frame u _).2 ⟨hal, hd⟩
  | _ => exact hu

/-- A call that disarms the timer at a cursor leaves the cursor behind. -/
theorem safe_iff {a : Act} (h : Left s us ts) (hk : KeepsList s a) (he : step s a = some s') :
    Safe s' ↔ Avoids s a := by
  constructor
  · intro hsafe
    cases a with
    | begin => trivial
    | iterate => trivial
    | call a =>
      intro w hw t ha hu
      obtain ⟨-, he⟩ := Option.ite_none_right_eq_some.mp he
      obtain ⟨r, hr, rfl⟩ := Option.map_eq_some_iff.mp he
      have hnot := not_armed_of_unlinks ha hu hr
      obtain ⟨xs, hl, hcur⟩ := hsafe
      obtain ⟨hpos, hpos1⟩ := hcur w hw
      refine ⟨?_, fun heq => ?_⟩
      · rintro rfl
        exact hnot ((hl.mem_iff _).mp hpos)
      · rcases hpos1 with hhead | ⟨u, hu, hitem⟩
        · cases heq.trans hhead
        · cases heq.trans hitem
          exact hnot ((hl.mem_iff _).mp hu)
  · intro hv
    obtain ⟨us', ts', hl, -⟩ := h.step hk hv he
    exact hl.safe

/-! ## Runs -/

/-- The iterations of a walk. -/
theorem Left.countP_le {cs : List Act} (h : Left s us ts) (hb : cs.all fun a => !isBegin a)
    (hc : ∀ x ∈ trace Walk.step s cs, KeepsList x.pre x.act ∧ Avoids x.pre x.act) :
    ((trace Walk.step s cs).countP fun x => isIterate x.act) ≤ ts.length := by
  induction cs generalizing s us ts with
  | nil => exact Nat.zero_le _
  | cons a cs ih =>
    rw [List.all_cons, Bool.and_eq_true, Bool.not_eq_true'] at hb
    cases hs : Walk.step s a with
    | none =>
      rw [trace_cons_none hs]
      exact Nat.zero_le _
    | some s1 =>
      rw [trace_cons_some hs] at hc ⊢
      obtain ⟨⟨hk, hv⟩, hc⟩ := List.forall_mem_cons.mp hc
      obtain ⟨us', ts', hl, hle⟩ := h.step hk hv hs
      have hrest := ih hl hb.2 hc
      have hfew := hle hb.1
      rw [List.countP_cons]
      cases hi : isIterate a with
      | true =>
        rw [hi] at hfew
        simp only [Bool.toNat_true] at hfew
        simp only [if_true]
        omega
      | false =>
        rw [hi] at hfew
        simp only [Bool.toNat_false] at hfew
        simp only [Bool.false_eq_true, if_false]
        omega

theorem Left.run {as : List Act} (h : ∃ us ts, Left s us ts)
    (hc : ∀ x ∈ trace Walk.step s as, KeepsList x.pre x.act ∧ Avoids x.pre x.act)
    (hr : run Walk.step s as = some s') : ∃ us ts, Left s' us ts := by
  refine run_invariant_of_trace (I := fun s => ∃ us ts, Left s us ts)
    (C := fun s a => KeepsList s a ∧ Avoids s a) ?_ hr h hc
  intro s a s' hleft hC he
  obtain ⟨us, ts, hl⟩ := hleft
  obtain ⟨hk, hv⟩ := hC
  obtain ⟨us', ts', hl', -⟩ := hl.step hk hv he
  exact ⟨us', ts', hl'⟩

theorem ends_of_avoids {as : List Act} (h : ∃ us ts, Left s us ts)
    (hc : ∀ x ∈ trace Walk.step s as, KeepsList x.pre x.act ∧ Avoids x.pre x.act) : Ends s as := by
  intro bs cs r has hr
  subst has
  rw [trace_append hr] at hc
  obtain ⟨us, ts, hl⟩ := Left.run h (fun x hx => hc x (List.mem_append_left _ hx)) hr
  refine ⟨fun hw => ?_, us ++ ts, hl.inv.toListed, fun hb => ?_⟩
  · cases ts with
    | nil =>
      rw [hl.walk] at hw
      cases hw
    | cons t vs =>
      obtain ⟨-, hs, -⟩ := hl.iterate
      rw [hs]
      rfl
  · have hle := hl.countP_le hb fun x hx => hc x (List.mem_append_right _ hx)
    rw [List.length_append]
    omega

theorem safe_iff_avoids {as : List Act} (h : ∃ us ts, Left s us ts)
    (hk : ∀ x ∈ trace Walk.step s as, KeepsList x.pre x.act) :
    (∀ x ∈ trace Walk.step s as, Safe x.post) ↔ ∀ x ∈ trace Walk.step s as, Avoids x.pre x.act := by
  refine trace_forall_iff_of (I := fun s => ∃ us ts, Left s us ts) (Q := fun _ _ s' => Safe s') (S := KeepsList) ?_
    ?_ h hk
  · intro s a s' hleft hk he
    obtain ⟨us, ts, hl⟩ := hleft
    exact safe_iff hl hk he
  · intro s a s' hleft hk hv he
    obtain ⟨us, ts, hl⟩ := hleft
    obtain ⟨us', ts', hl', -⟩ := hl.step hk hv he
    exact ⟨us', ts', hl'⟩

/-- **The walk and other threads.** The walk survives every run in which the calls keep the
list and none disarms a timer that one of its cursors is at; and where the calls keep the list
it survives no other run. -/
theorem walk_survives {as : List Act} (h : ∃ us ts, Left s us ts) :
    ((∀ x ∈ trace Walk.step s as, KeepsList x.pre x.act ∧ Avoids x.pre x.act) → Survives s as) ∧
      ((∀ x ∈ trace Walk.step s as, KeepsList x.pre x.act) → Survives s as →
        ∀ x ∈ trace Walk.step s as, Avoids x.pre x.act) := by
  constructor
  · intro hc
    exact ⟨(safe_iff_avoids h fun x hx => (hc x hx).1).mpr fun x hx => (hc x hx).2, ends_of_avoids h hc⟩
  · intro hk hs
    exact (safe_iff_avoids h hk).mp hs.1

/-- Without calls in between, the iterations are `systick_bh`. -/
theorem run_systickBh {fuel : ℕ} {r r' : Timers} (he : systickBh fuel r = some r') :
    ∃ k, run Walk.step ⟨r, none⟩ (.begin :: List.replicate k .iterate) = some ⟨r', none⟩ := by
  have hfrom : ∀ fuel pos (r : Timers), systickBhFrom fuel pos (r.links.next pos) r = some r' →
      ∃ k, (enter pos r).bind (fun s => run Walk.step s (List.replicate k .iterate)) = some ⟨r', none⟩ := by
    intro fuel
    induction fuel with
    | zero => exact fun _ _ he => (nomatch he)
    | succ fuel ih =>
      intro pos r he
      cases pos with
      | head =>
        cases he
        exact ⟨0, rfl⟩
      | item t =>
        obtain ⟨k, hk⟩ := ih _ _ he
        exact ⟨k + 1, hk⟩
      | poison1 => cases he
      | poison2 => cases he
  exact hfrom fuel _ r he

end

/-! ## Concrete runs -/

def boot : State := ⟨init TimerList.memory fun _ => TimerList.garbage, none⟩

theorem left_boot : ∃ us ts, Left boot us ts :=
  ⟨[], [], TimerList.inv_init TimerList.memory fun _ => TimerList.garbage, rfl⟩

/-- A new timer, set to a second. -/
def create (t : TimerAddr) : Act := .call (.timerCreate (some ⟨t, TimerList.garbage, .poison1, .poison2⟩) ⟨7, 0⟩)

def arm (timerid : ℕ) : Act := .call (.timerSettime timerid ⟨.zero, ⟨1, 0⟩⟩ 1)

def disarm (timerid : ℕ) : Act := .call (.timerSettime timerid ⟨.zero, .zero⟩ 1)

/-- A timer is set while the walk is at another one. -/
def armedBehind : List Act := [create 0, arm 0, .begin, create 1, arm 1, .iterate]

theorem walk_survives_armedBehind :
    (trace step boot armedBehind).length = 6 ∧ Survives boot armedBehind := by
  have hk : ∀ x ∈ trace step boot armedBehind, KeepsList x.pre x.act := by
    refine forall_trace_cons rfl (.inl rfl) (forall_trace_cons rfl ?_ (forall_trace_cons rfl trivial
      (forall_trace_cons rfl (.inl rfl) (forall_trace_cons rfl ?_ (forall_trace_cons rfl trivial ?_)))))
    · intro _ t ht
      cases ht
      rfl
    · intro _ t ht
      cases ht
      rfl
    · exact fun _ hx => (nomatch hx)
  have hv : ∀ x ∈ trace step boot armedBehind, Avoids x.pre x.act := by
    refine forall_trace_cons rfl ?_ (forall_trace_cons rfl ?_ (forall_trace_cons rfl trivial
      (forall_trace_cons rfl ?_ (forall_trace_cons rfl ?_ (forall_trace_cons rfl trivial ?_)))))
    · exact fun _ _ _ _ hu => hu.elim
    · exact fun _ hw => (nomatch hw)
    · exact fun _ _ _ _ hu => hu.elim
    · exact fun _ _ _ _ hu => absurd hu.1 (by decide)
    · exact fun _ hx => (nomatch hx)
  exact ⟨rfl, (walk_survives left_boot).1 fun x hx => ⟨hk x hx, hv x hx⟩⟩

/-- The timer that comes next is disarmed. -/
def disarmedAhead : List Act := [create 0, arm 0, create 1, arm 1, .begin]

/-- The walk goes on from the unlinked timer, and behind it is poison. -/
theorem disarmedAhead_lost : ¬ Survives boot (disarmedAhead ++ [disarm 0]) ∧
    run step boot (disarmedAhead ++ [disarm 0, .iterate]) ≠ none ∧
    run step boot (disarmedAhead ++ [disarm 0, .iterate, .iterate]) = none := by
  refine ⟨fun hs => ?_, fun hnone => (nomatch hnone), rfl⟩
  have hrun : run step boot disarmedAhead = some _ := rfl
  obtain ⟨xs, hl, hcur⟩ := hs.1 _ (mem_trace_of_run hrun rfl)
  rcases (hcur _ rfl).2 with hhead | ⟨t, ht, hitem⟩
  · cases hhead
  · cases hitem
    exact absurd ((hl.mem_iff 0).mp ht) (by decide)

end PikoRT.Time.Walk

import PikoRT.Sched.Agreement
import PikoRT.Lib.Epochs

/-! # Time slices

`sched_bitmap_elect` chooses the next thread before it puts the outgoing one
back. So a lone thread gives way to the idle thread at every other tick
(`reachable_idle_iff`), and the thread that runs when the arrays are swapped is
put into the array that has to wait for a whole epoch (`fair_iff`). -/
namespace PikoRT.Sched.TimeSlices
open PikoRT.Kernel.Bitmap PikoRT.Lib.PrioQueue PikoRT.Lib.Run
open PikoRT.Sched.Model PikoRT.Sched.RunQueue PikoRT.Sched.Agreement
open PikoRT.Lib

/-! ## The idle thread -/

/-- **Work conservation.** An election that switches to the idle thread leaves no
thread waiting, except for a tick that interrupts the only ready thread. -/
theorem reachable_idle_iff (idle main : Thread) (flags : SchedOpt) (s t : State)
    (hs : Reachable step (boot idle main) s) (ht : schedBitmapElect flags s = some t) :
    (t.current = s.threadIdle → queued t = []) ↔
      ¬ (flags = .tick ∧ s.current ≠ s.threadIdle ∧ queued s = []) := by
  have h := reachable_linked hs
  obtain ⟨x, s', he⟩ := schedBitmapElect_elected h ht
  have hperm := he.queued_perm h
  rw [he.current, he.chosen.eq_idle_iff h]
  constructor
  · intro himp hbad
    obtain ⟨hflags, hcur, hnil⟩ := hbad
    rw [himp hnil, putBack, if_pos ⟨hflags, hcur⟩] at hperm
    simp at hperm
  · intro hok hnil
    rw [putBack, if_neg fun hb => hok ⟨hb.1, hb.2, hnil⟩, hnil] at hperm
    exact List.perm_nil.mp hperm

theorem reachable_idle_iff_boot : Reachable step (boot 0 1) (boot 0 1) ∧
    ∃ t, schedBitmapElect .none (boot 0 1) = some t ∧ (t.current = 0 → queued t = []) := by
  obtain ⟨t, ht⟩ : ∃ t, schedBitmapElect .none (boot 0 1) = some t := ⟨_, rfl⟩
  refine ⟨.refl _, t, ht, ?_⟩
  exact (reachable_idle_iff 0 1 .none (boot 0 1) t (.refl _) ht).mpr (by rintro ⟨hf, -⟩; cases hf)

/-- The first tick after boot: the main thread is put back only after the idle
thread has been chosen. -/
theorem lone_thread_idles : ∃ t, schedBitmapElect .tick (boot 0 1) = some t ∧ t.current = 0 ∧
    queued t = [1] := ⟨_, rfl, by decide +kernel, by decide +kernel⟩

/-! ## Ticks -/

/-- Every queued thread waits at the level of its priority. -/
structure Leveled (s : State) : Prop where
  inv : Sound s
  active : ∀ p, ∀ x ∈ s.active.queue p, (s.info x).tiPriority = p
  expire : ∀ p, ∀ x ∈ s.expire.queue p, (s.info x).tiPriority = p

/-- The running thread waits at none. -/
structure Steady (s : State) : Prop extends Leveled s where
  current : s.current ∉ queued s

def key (s : State) (x : Thread) : ℕ := (s.info x).tiPriority

/-- The two arrays as the lists of their elections. -/
def config (s : State) : Epochs.Config Thread := ⟨s.current, members s.active, members s.expire⟩

section

variable {s s' t u : State} {x : Thread}

theorem tiPriority_dispatch (flags : SchedOpt) (x y : Thread) (s : State) :
    ((dispatch flags x s).info y).tiPriority = (s.info y).tiPriority := by
  have hre : ((requeueCurrent flags s).info y).tiPriority = (s.info y).tiPriority := by
    unfold requeueCurrent
    split
    · exact tiPriority_setState _ _ _ _
    · rfl
  unfold dispatch
  split
  · rfl
  · unfold switchTo
    split
    · exact hre
    · exact (tiPriority_saveContext _ _ _).trans hre

theorem elected_tiPriority {flags : SchedOpt} (he : Elected flags s x s' u) (y : Thread) :
    (u.info y).tiPriority = (s.info y).tiPriority := by
  rw [he.eq, tiPriority_dispatch, info_takeNext, he.chosen.frame.1]

theorem Leveled.takesOwnBit (h : Leveled s) : TakesOwnBit s := by
  intro x hx p hp
  unfold nowActive at hp
  split at hp
  · exact h.expire p x (by rw [hp]; simp)
  · exact h.active p x (by rw [hp]; simp)

theorem Leveled.chosen (h : Leveled s) (hc : Chosen s x s') :
    (∀ p, ∀ y ∈ s'.active.queue p, (s.info y).tiPriority = p) ∧
      ∀ p, ∀ y ∈ s'.expire.queue p, (s.info y).tiPriority = p := by
  cases hc with
  | idle hnil => exact ⟨h.active, h.expire⟩
  | active hx => exact ⟨h.active, h.expire⟩
  | expire hnil hx => exact ⟨h.expire, h.active⟩

theorem putBack_notMem {flags : SchedOpt} (hcur : flags = .tick → s.current ∉ queued s) :
    ∀ y ∈ putBack flags s, y ∉ queued s := by
  intro y hy
  unfold putBack at hy
  split at hy
  · rename_i hb
    rw [List.mem_singleton.mp hy]
    exact hcur hb.1
  · cases hy

/-- A queue with its level kept, after a thread of that priority was appended. -/
theorem level_push {q : Fin 32 → List Thread} {f : Thread → Fin 32}
    (hq : ∀ p, ∀ y ∈ q p, f y = p) (x : Thread) : ∀ p, ∀ y ∈ push q (f x) x p, f y = p := by
  intro p y hy
  by_cases hp : p = f x
  · subst hp
    rw [push_self] at hy
    rcases List.mem_append.mp hy with hy | hy
    · exact hq _ y hy
    · rw [List.mem_singleton.mp hy]
  · rw [push_of_ne _ hp] at hy
    exact hq p y hy

/-- After an election the running thread is in no queue, wherever it was before. -/
theorem Leveled.elected {flags : SchedOpt} (h : Leveled s) (he : Elected flags s x s' u)
    (hcur : flags = .tick → s.current ∉ queued s) : Steady u := by
  have hl := h.inv.linked
  have hlu := he.linked hl hcur
  obtain ⟨hact, hexp⟩ := h.chosen he.chosen
  have hp := elected_tiPriority he
  refine ⟨⟨⟨(elected_agree_iff he hl h.inv.agree).mpr h.takesOwnBit, hlu.nodup, hlu.idle⟩, ?_, ?_⟩, ?_⟩
  · intro p y hy
    rw [he.active, queue_takeNext (he.chosen.linked hl)] at hy
    rw [hp y]
    exact hact p y (List.mem_of_mem_erase hy)
  · intro p y hy
    rw [hp y]
    rw [he.expire hl] at hy
    split at hy
    · exact level_push hexp s.current p y hy
    · exact hexp p y hy
  · rw [he.current, (he.queued_perm hl).mem_iff, List.mem_append]
    rintro (hb | hm)
    · exact he.notMem_putBack (putBack_notMem hcur) hb
    · exact (hl.nodup.mem_erase_iff.mp hm).1 rfl

/-- What waits in `expire` after a tick. -/
theorem members_expire_elected (h : Steady s) (he : Elected .tick s x s' u) :
    members u.expire = Epochs.back (key s) s.threadIdle s.current (members s'.expire) := by
  rw [he.expire h.inv.linked]
  unfold Epochs.back
  by_cases hi : s.current = s.threadIdle
  · rw [if_neg fun hb => hb.2 hi, if_pos hi]
  · rw [if_pos ⟨rfl, hi⟩, if_neg hi]
    exact flat_push_eq (fun p y hy => congrArg Fin.val ((h.chosen he.chosen).2 p y hy)) rfl

theorem members_of_first {bm : BitmapStruct Thread} (h : First bm x) :
    members bm = x :: (members bm).erase x := by
  obtain ⟨p, xs, hp, hlow⟩ := h
  obtain ⟨rest, hrest⟩ := flat_of_least hp hlow
  unfold members
  rw [hrest, List.erase_cons_head]

/-- **Refinement.** A tick of the scheduler is a tick of the two lists. -/
theorem config_elected (h : Steady s) (he : Elected .tick s x s' u) :
    config u = Epochs.tick (key s) s.threadIdle (config s) := by
  have hact : members u.active = (members s'.active).erase x := by
    rw [he.active, members_takeNext (he.chosen.linked h.inv.linked)]
  unfold config
  rw [he.current, hact, members_expire_elected h he]
  cases he.chosen with
  | idle hnil =>
    obtain ⟨ha, hexp⟩ := List.append_eq_nil_iff.mp hnil
    rw [ha, hexp]
    rfl
  | active hx =>
    conv_rhs => rw [members_of_first hx]
    rfl
  | expire hnil hx =>
    conv_rhs => rw [hnil, members_of_first hx]
    show (⟨x, (members s.expire).erase x, _⟩ : Epochs.Config Thread) = _
    rw [show members (swapQueues s).expire = [] from hnil]
    rfl

theorem Steady.relabel (h : Steady u) (flags : SchedOpt) (s : State) :
    Steady (relabel flags s u) ∧ config (relabel flags s u) = config u ∧
      key (relabel flags s u) = key u ∧ (relabel flags s u).threadIdle = u.threadIdle := by
  unfold Model.relabel
  split
  · have hp := fun y => tiPriority_setState u.current y .running u
    refine ⟨⟨⟨⟨h.inv.agree, h.inv.nodup, h.inv.idle⟩, fun p y hy => ?_, fun p y hy => ?_⟩, h.current⟩,
      rfl, ?_, rfl⟩
    · rw [hp y]; exact h.active p y hy
    · rw [hp y]; exact h.expire p y hy
    · funext y
      exact congrArg Fin.val (hp y)
  · exact ⟨h, rfl, rfl, rfl⟩

/-- **Step lemma.** From a steady state a tick succeeds and leads to a steady state. -/
theorem Steady.tick (h : Steady s) : ∃ t, step s (.elect .tick) = some t ∧ Steady t ∧
    config t = Epochs.tick (key s) s.threadIdle (config s) ∧ key t = key s ∧
    t.threadIdle = s.threadIdle := by
  obtain ⟨x, s', hcn⟩ := chooseNext_of_agree h.inv.agree
  have he : Elected .tick s x s' (dispatch .tick x (takeNext x s')) :=
    ⟨chooseNext_chosen h.inv.linked hcn, rfl⟩
  obtain ⟨hst, hcfg, hkey, hidle⟩ := (h.toLeveled.elected he fun _ => h.current).relabel .tick s
  refine ⟨_, ?_, hst, hcfg.trans (config_elected h he), hkey.trans ?_, hidle.trans he.threadIdle⟩
  · show (if SchedOpt.tick = .tick ∧ s.current ∈ queued s then none else schedElect .tick s) = _
    rw [if_neg fun hb => h.current hb.2]
    unfold schedElect schedBitmapElect
    rw [hcn]
    rfl
  · funext y
    exact congrArg Fin.val (elected_tiPriority he y)

/-- **Run lemma.** -/
theorem Steady.ticks (h : Steady s) (n : ℕ) :
    ∃ t, run step s (List.replicate n (.elect .tick)) = some t ∧
      config t = (Epochs.tick (key s) s.threadIdle)^[n] (config s) := by
  induction n generalizing s with
  | zero => exact ⟨s, rfl, rfl⟩
  | succ n ih =>
    obtain ⟨u, hu, hst, hcfg, hkey, hidle⟩ := h.tick
    obtain ⟨t, ht, hct⟩ := ih hst
    refine ⟨t, ?_, ?_⟩
    · rw [List.replicate_succ, run_cons, hu]
      exact ht
    · rw [hct, hcfg, hkey, hidle, Function.iterate_succ_apply]

end

/-! ## Steady states of a run -/

section

variable {s t : State} {x : Thread}

theorem steady_boot (idle main : Thread) : Steady (boot idle main) where
  inv := ⟨agree_boot idle main, (linked_boot idle main).nodup, (linked_boot idle main).idle⟩
  active := fun _ _ hx => by cases hx
  expire := fun _ _ hx => by cases hx
  current := by simp [queued, boot]

theorem Leveled.schedEnqueue (h : Leveled s) (hx : x ∉ queued s) (hi : x ≠ s.threadIdle) :
    Leveled (schedEnqueue x s) := by
  have hl := h.inv.linked.schedEnqueue hx hi
  have hp : ∀ y, ((Model.schedEnqueue x s).info y).tiPriority = (s.info y).tiPriority :=
    fun y => tiPriority_setState _ _ _ _
  refine ⟨⟨h.inv.agree.schedEnqueue x, hl.nodup, hl.idle⟩, fun p y hy => ?_, fun p y hy => ?_⟩
  · rw [active_schedEnqueue] at hy
    rw [hp y]
    exact level_push h.active x p y hy
  · rw [hp y]
    exact h.expire p y hy

/-- What a step has to respect for the state to stay steady: priorities change
only outside the queues, the running thread is only put back by an election, and
a dequeue finds its own bit. -/
def Regular (s : State) : Op → Prop
  | .enqueue x => x ≠ s.current
  | .dequeue x => DropsOwnBit x s
  | .elect _ => True
  | .yield => True
  | .setPriority x _ => x ∉ queued s

theorem Steady.schedDequeue (h : Steady s) (hd : DropsOwnBit x s) : Steady (schedDequeue x s).2 := by
  have hl := h.inv.linked.schedDequeue x
  have hagree := (schedDequeue_agree_iff h.inv.agree).mpr hd
  rcases schedDequeue_unlinked x s with hs | hu
  · rw [hs]; exact h
  · have hinfo : (Model.schedDequeue x s).2.info = s.info := by rw [hu.frame]
    have hcur : (Model.schedDequeue x s).2.current = s.current := by rw [hu.frame]
    refine ⟨⟨⟨hagree, hl.nodup, hl.idle⟩, fun p y hy => ?_, fun p y hy => ?_⟩, ?_⟩
    · rw [hu.active] at hy
      rw [hinfo]
      exact h.active p y (List.mem_of_mem_erase hy)
    · rw [hu.expire] at hy
      rw [hinfo]
      exact h.expire p y (List.mem_of_mem_erase hy)
    · rw [hcur, hu.queued h.inv.linked]
      exact fun hm => h.current (List.mem_of_mem_erase hm)

theorem Leveled.schedElect {flags : SchedOpt} (h : Leveled s)
    (hcur : flags = .tick → s.current ∉ queued s) (ht : schedElect flags s = some t) : Steady t := by
  obtain ⟨x, s', u, he, rfl⟩ := schedElect_elected h.inv.linked ht
  exact ((h.elected he hcur).relabel flags s).1

theorem step_steady {a : Op} (h : Steady s) (ha : Regular s a) (ht : step s a = some t) :
    Steady t := by
  cases a with
  | enqueue x =>
    simp only [step, Option.ite_none_left_eq_some, not_or] at ht
    obtain ⟨⟨hx, hi⟩, ht⟩ := ht
    cases ht
    refine ⟨h.toLeveled.schedEnqueue hx hi, ?_⟩
    rw [(queued_schedEnqueue x s).mem_iff, current_schedEnqueue, List.mem_cons]
    rintro (hc | hm)
    · exact ha hc.symm
    · exact h.current hm
  | dequeue x =>
    simp only [step, Option.ite_none_left_eq_some] at ht
    obtain ⟨-, ht⟩ := ht
    cases ht
    exact h.schedDequeue ha
  | elect flags =>
    simp only [step, Option.ite_none_left_eq_some] at ht
    exact h.toLeveled.schedElect (fun _ => h.current) ht.2
  | yield =>
    simp only [step, Option.ite_none_left_eq_some, not_or] at ht
    obtain ⟨⟨hx, hi⟩, ht⟩ := ht
    exact (h.toLeveled.schedEnqueue hx hi).schedElect (fun hf => by cases hf) ht
  | setPriority x p =>
    cases ht
    have hp : ∀ y ∈ queued s, ((threadSetPriority x p s).info y).tiPriority = (s.info y).tiPriority := by
      intro y hy
      have hne : y ≠ x := by rintro rfl; exact ha hy
      simp [threadSetPriority, hne]
    refine ⟨⟨⟨h.inv.agree, h.inv.nodup, h.inv.idle⟩, fun r y hy => ?_, fun r y hy => ?_⟩, h.current⟩
    · exact (hp y (List.mem_append_left _ (mem_members.mpr ⟨r, hy⟩))).trans (h.active r y hy)
    · exact (hp y (List.mem_append_right _ (mem_members.mpr ⟨r, hy⟩))).trans (h.expire r y hy)

/-- A regular run from boot ends in a steady state. -/
theorem run_steady {idle main : Thread} {ops : List Op}
    (hreg : ∀ x ∈ trace step (boot idle main) ops, Regular x.pre x.act)
    (h : run step (boot idle main) ops = some s) : Steady s :=
  run_invariant_of_trace (fun _ _ _ h ha ht => step_steady h ha ht) h (steady_boot idle main) hreg

end

/-! ## Fairness -/

/-- The ready threads, the running one included. -/
def ready (s : State) : List Thread :=
  (if s.current = s.threadIdle then [] else [s.current]) ++ queued s

/-- The thread elected by the last of `n` consecutive ticks. -/
def electedAt (s : State) (n : ℕ) : Option Thread :=
  (run step s (List.replicate n (.elect .tick))).map fun t => t.current

/-- Between two successive elections of a thread, in consecutive ticks, every other
ready thread is elected. -/
def Fair (s : State) : Prop :=
  ∀ i j x, 0 < i → i < j → electedAt s i = some x → electedAt s j = some x → x ≠ s.threadIdle →
    (∀ k, i < k → k < j → electedAt s k ≠ some x) →
    ∀ y ∈ ready s, y ≠ x → ∃ k, i < k ∧ k < j ∧ electedAt s k = some y

theorem Steady.electedAt {s : State} (h : Steady s) (n : ℕ) :
    electedAt s n = some ((Epochs.tick (key s) s.threadIdle)^[n] (config s)).run := by
  obtain ⟨t, ht, hc⟩ := h.ticks n
  unfold TimeSlices.electedAt
  rw [ht, ← hc]
  rfl

theorem Steady.wf {s : State} (h : Steady s) : Epochs.Wf (key s) s.threadIdle (config s) where
  nodup := by
    show ((if s.current = s.threadIdle then [] else [s.current]) ++ queued s).Nodup
    split
    · exact h.inv.nodup
    · exact List.nodup_cons.mpr ⟨h.current, h.inv.nodup⟩
  idle := h.inv.idle
  sorted := flat_sorted fun p y hy => congrArg Fin.val (h.expire p y hy)

/-- From a steady state consecutive ticks give every ready thread its turn before
any gets a second one exactly when at most two threads are ready, or all of them
have the same priority. -/
theorem Steady.fair_iff {s : State} (h : Steady s) : Fair s ↔
    (ready s).length ≤ 2 ∨
      ∀ x ∈ ready s, ∀ y ∈ ready s, (s.info x).tiPriority = (s.info y).tiPriority := by
  have hfair : Fair s ↔ Epochs.Fair (key s) s.threadIdle (config s) := by
    unfold Fair Epochs.Fair
    simp only [h.electedAt, Option.some.injEq, ne_eq]
    rfl
  rw [hfair, Epochs.fair_iff_level h.wf]
  unfold Epochs.Level key
  simp only [Fin.val_inj]
  rfl

/-- **Fairness.** In every state that a regular run from boot reaches, the ticks
that follow are fair exactly when at most two threads are ready, or all of them
have the same priority. -/
theorem runs_fair_iff (idle main : Thread) (ops : List Op) (s : State)
    (hreg : ∀ x ∈ trace step (boot idle main) ops, Regular x.pre x.act)
    (hrun : run step (boot idle main) ops = some s) : Fair s ↔
    (ready s).length ≤ 2 ∨
      ∀ x ∈ ready s, ∀ y ∈ ready s, (s.info x).tiPriority = (s.info y).tiPriority :=
  (run_steady hreg hrun).fair_iff

/-- The main thread runs and two threads of the same priority wait. -/
theorem runs_fair_iff_twoWaiting :
    (∀ x ∈ trace step (boot 0 1) [.enqueue 2, .enqueue 3], Regular x.pre x.act) ∧
    run step (boot 0 1) [.enqueue 2, .enqueue 3] = some twoWaiting ∧ Fair twoWaiting := by
  have hrun : run step (boot 0 1) [.enqueue 2, .enqueue 3] = some twoWaiting := rfl
  have hreg : ∀ x ∈ trace step (boot 0 1) [.enqueue 2, .enqueue 3], Regular x.pre x.act := by
    intro x hx
    have htrace : trace step (boot 0 1) [.enqueue 2, .enqueue 3] =
        [⟨boot 0 1, .enqueue 2, schedEnqueue 2 (boot 0 1)⟩,
          ⟨schedEnqueue 2 (boot 0 1), .enqueue 3, twoWaiting⟩] := rfl
    rw [htrace] at hx
    rcases List.mem_pair.mp hx with rfl | rfl
    · show (2 : Thread) ≠ 1
      decide
    · show (3 : Thread) ≠ 1
      decide
  have hp : ∀ x, (twoWaiting.info x).tiPriority = 31 := by
    intro x
    rw [twoWaiting]
    exact (tiPriority_setState _ _ _ _).trans (tiPriority_setState _ _ _ _)
  refine ⟨hreg, hrun, (runs_fair_iff 0 1 _ twoWaiting hreg hrun).mpr (.inr fun x _ y _ => ?_)⟩
  rw [hp x, hp y]

/-- Three threads of different priorities: the two better ones run in turn, and
the better of them again before the main thread had a turn. -/
theorem worst_thread_skipped : ∃ s, run step (boot 0 1)
    [.setPriority 2 0, .setPriority 3 1, .enqueue 2, .enqueue 3] = some s ∧ ¬ Fair s := by
  obtain ⟨s, hs, hready, hidle, h1, h2, h3⟩ : ∃ s, run step (boot 0 1)
      [.setPriority 2 0, .setPriority 3 1, .enqueue 2, .enqueue 3] = some s ∧ ready s = [1, 2, 3] ∧
      s.threadIdle = 0 ∧ electedAt s 1 = some 2 ∧ electedAt s 2 = some 3 ∧ electedAt s 3 = some 2 :=
    ⟨_, rfl, by decide +kernel, by decide +kernel, by decide +kernel, by decide +kernel,
      by decide +kernel⟩
  refine ⟨s, hs, fun hfair => ?_⟩
  obtain ⟨k, hk1, hk3, hk⟩ := hfair 1 3 2 (by decide) (by decide) h1 h3 (by rw [hidle]; decide)
    (fun k hk1 hk3 => by
      obtain rfl : k = 2 := by omega
      rw [h2]; decide)
    1 (by rw [hready]; simp) (by decide)
  obtain rfl : k = 2 := by omega
  rw [h2] at hk
  exact absurd hk (by decide)

end PikoRT.Sched.TimeSlices

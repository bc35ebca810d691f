import PikoRT.Sync.Place
import PikoRT.Sched.TimeSlices

/-! # Who runs after a wake-up

`sys_pthread_mutex_unlock` and `sys_pthread_cond_signal` give way to the thread
they wake when the priority value of the caller is not the larger one. The value 0
is the most urgent, so the comparison lets an urgent caller give way and keeps a
caller running that is less urgent than the thread it woke. -/
namespace PikoRT.Sync.Wake
open PikoRT.Kernel.Bitmap PikoRT.Lib.Run
open PikoRT.Sched.Model hiding step
open PikoRT.Sched.RunQueue PikoRT.Sched.TimeSlices PikoRT.Sync.Kernel PikoRT.Sync.Effect PikoRT.Sync.Place

def priority (k : System) (t : Thread) : Fin 32 := (k.sched.info t).tiPriority

/-- The thread is ready to run, or runs. -/
def IsReady (k : System) (t : Thread) : Prop := t ∈ queued k.sched ∨ t = k.current

/-- The label that makes `sys_pthread_mutex_unlock` elect another thread at its
end; `sys_pthread_cond_wait` sets it before the unlock. -/
def Blocked (k : System) : Prop := (k.sched.info k.current).tiState = .blocked

/-! ## One election -/

section

variable {s : State} {w x : Thread}

theorem First.priority_le (h : Leveled s) (hx : First s.active x) (hw : w ∈ members s.active) :
    (s.info x).tiPriority ≤ (s.info w).tiPriority := by
  obtain ⟨p, xs, hp, hlow⟩ := hx
  obtain ⟨r, hr⟩ := mem_members.mp hw
  have hxp : (s.info x).tiPriority = p := h.active p x (by rw [hp]; exact List.mem_cons_self)
  rw [hxp, h.active r w hr]
  by_contra hlt
  rw [hlow r (not_le.mp hlt)] at hr
  cases hr

theorem mem_active_schedEnqueue_self (x : Thread) (s : State) :
    x ∈ members (schedEnqueue x s).active := by
  rw [active_schedEnqueue, (members_bitmapEnqueue _ _ _).mem_iff]
  exact List.mem_cons_self

theorem tiPriority_schedEnqueue (x y : Thread) (s : State) :
    ((schedEnqueue x s).info y).tiPriority = (s.info y).tiPriority :=
  tiPriority_setState x y _ s

/-- An election finds a thread that is as urgent as any thread of the active
array. -/
theorem schedElect_urgent (h : Leveled s) (hw : w ∈ members s.active) :
    ∃ t, schedElect .none s = some t ∧ (∀ y, (t.info y).tiPriority = (s.info y).tiPriority) ∧
      (t.info t.current).tiPriority ≤ (s.info w).tiPriority ∧
      (w ∈ queued t ∨ w = t.current) := by
  obtain ⟨y, v, hchoose⟩ := chooseNext_of_agree h.inv.agree
  obtain ⟨u, hu⟩ : ∃ u, schedBitmapElect .none s = some u :=
    ⟨_, by rw [schedBitmapElect, hchoose]; rfl⟩
  have ht : schedElect .none s = some (relabel .none s u) := by
    unfold schedElect
    rw [hu]
    rfl
  obtain ⟨x, s', he⟩ := schedBitmapElect_elected h.inv.linked hu
  obtain ⟨ha, hx, -, hc⟩ := queues_relabel .none s u
  have hprio : ∀ y, ((relabel .none s u).info y).tiPriority = (s.info y).tiPriority := by
    intro y
    rw [← elected_tiPriority he y]
    unfold relabel
    split
    · exact tiPriority_setState _ _ _ _
    · rfl
  have hactive : Chosen s x s' → First s.active x := by
    intro hch
    cases hch with
    | idle hnil => rw [(List.append_eq_nil_iff.mp hnil).1] at hw; cases hw
    | active hf => exact hf
    | expire hnil _ => rw [hnil] at hw; cases hw
  refine ⟨_, ht, hprio, ?_, ?_⟩
  · rw [hprio, hc, he.current]
    exact First.priority_le h (hactive he.chosen) hw
  · by_cases hwx : w = x
    · right
      rw [hc, he.current, hwx]
    · left
      have hq : queued (relabel .none s u) = queued u := by
        unfold queued
        rw [ha, hx]
      rw [hq, (he.queued_perm h.inv.linked).mem_iff]
      refine List.mem_append_right _ ((List.mem_erase_of_ne hwx).mpr ?_)
      exact List.mem_append_left _ hw

end

/-! ## The calls -/

section

variable {k : System} {w : Thread}

/-- An election with a woken thread in the active array. -/
theorem elect_urgent (h : Leveled k.sched) (hw : w ∈ members k.sched.active) :
    ∃ k', elect .none k = some k' ∧ IsReady k' w ∧ priority k' k'.current ≤ priority k' w := by
  obtain ⟨t, ht, hprio, hle, hready⟩ := schedElect_urgent h hw
  refine ⟨{ k with sched := t }, ?_, hready, ?_⟩
  · unfold elect
    rw [ht]
    rfl
  · show (t.info t.current).tiPriority ≤ (t.info w).tiPriority
    rw [hprio w]
    exact hle

/-- The test of the priorities at the end of both calls: the thread that runs next
is as urgent as the woken one exactly when the caller already was. -/
theorem giveWay_urgent_iff (h : Leveled k.sched) (hw : w ∈ members k.sched.active)
    (hq : k.current ∉ queued k.sched) (hi : k.current ≠ k.idle) :
    ∃ k', (if (k.sched.info k.current).tiPriority ≤ (k.sched.info w).tiPriority then
        elect .none (enqueue k.current k) else some k) = some k' ∧ IsReady k' w ∧
      (priority k' k'.current ≤ priority k' w ↔ priority k k.current ≤ priority k w) := by
  by_cases hle : (k.sched.info k.current).tiPriority ≤ (k.sched.info w).tiPriority
  · have hw' : w ∈ members (enqueue k.current k).sched.active := by
      show w ∈ members (schedEnqueue k.current k.sched).active
      rw [active_schedEnqueue, (members_bitmapEnqueue _ _ _).mem_iff]
      exact List.mem_cons_of_mem _ hw
    obtain ⟨k', he, hready, hk'⟩ := elect_urgent (k := enqueue k.current k) (h.schedEnqueue hq hi) hw'
    rw [if_pos hle]
    exact ⟨k', he, hready, fun _ => hle, fun _ => hk'⟩
  · rw [if_neg hle]
    exact ⟨k, rfl, .inl (List.mem_append_left _ hw), Iff.rfl⟩

theorem reschedule_urgent_iff (h : Leveled k.sched) (hw : w ∈ members k.sched.active)
    (hc : Blocked k ∨ k.current ∉ queued k.sched ∧ k.current ≠ k.idle) :
    ∃ k', reschedule (some w) k = some k' ∧ IsReady k' w ∧
      (priority k' k'.current ≤ priority k' w ↔ Blocked k ∨ priority k k.current ≤ priority k w) := by
  unfold reschedule
  by_cases hb : (k.sched.info k.current).tiState = .blocked
  · obtain ⟨k', he, hready, hk'⟩ := elect_urgent h hw
    rw [if_pos hb]
    exact ⟨k', he, hready, fun _ => .inl hb, fun _ => hk'⟩
  · obtain ⟨hq, hi⟩ := hc.resolve_left hb
    obtain ⟨k', he, hready, hk'⟩ := giveWay_urgent_iff h hw hq hi
    rw [if_neg hb]
    exact ⟨k', he, hready, hk'.trans (or_iff_right hb).symm⟩

theorem notMem_queued_of_wait (h : Ready k) (hw : w ∈ k.mutexHead ++ k.condHead) :
    w ∉ queued k.sched ∧ w ≠ k.idle := by
  refine ⟨fun hq => (List.nodup_append.mp h.nodup).2.2 w hq w hw rfl, ?_⟩
  intro he
  exact h.idle (List.mem_append_right _ (he ▸ hw))

/-- The label and the priorities of the caller are not those of the woken thread. -/
theorem blocked_enqueue (hne : k.current ≠ w) (k1 : System) (hs : k1.sched = k.sched) :
    Blocked (enqueue w k1) ↔ Blocked k := by
  show ((schedEnqueue w k1.sched).info k1.sched.current).tiState = .blocked ↔ _
  rw [hs]
  show ((setState w threadSchedState.actived k.sched).info k.sched.current).tiState = .blocked ↔ _
  have hne' : k.sched.current ≠ w := hne
  rw [tiState_setState_of_ne _ _ _ _ hne']
  rfl

theorem mutexUnlock_urgent_iff {m : Ptr} (h : Ready k) (hl : Leveled k.sched)
    (hc : Blocked k ∨ k.current ∉ queued k.sched ∧ k.current ≠ k.idle) (hne : k.current ≠ w)
    (hval : 0 ≤ wrap32 (k.val m - 1)) (hw : findFirstBlockingThread m k = some w) :
    ∃ k', sysPthreadMutexUnlock m k = some k' ∧ IsReady k' w ∧
      (priority k' k'.current ≤ priority k' w ↔ Blocked k ∨ priority k k.current ≤ priority k w) := by
  obtain ⟨hmem, -⟩ := mem_of_findFirstBlockingThread hw
  obtain ⟨hwq, hwi⟩ := notMem_queued_of_wait h (List.mem_append_left _ hmem)
  set k1 := wakeWaiter w (addVal m (-1) k) with hk1
  have hblocked : Blocked k1 ↔ Blocked k := blocked_enqueue hne _ rfl
  have hprio : ∀ t, priority k1 t = priority k t := fun t => tiPriority_schedEnqueue w t k.sched
  have hc1 : Blocked k1 ∨ k1.current ∉ queued k1.sched ∧ k1.current ≠ k1.idle := by
    rcases hc with hb | ⟨hq, hi⟩
    · exact .inl (hblocked.mpr hb)
    · refine .inr ⟨fun hm => ?_, hi⟩
      rcases List.mem_cons.mp ((queued_schedEnqueue w k.sched).mem_iff.mp hm) with he | hm
      · exact hne he
      · exact hq hm
  obtain ⟨k', he, hready, hiff⟩ := reschedule_urgent_iff (k := k1) (hl.schedEnqueue hwq hwi)
    (mem_active_schedEnqueue_self w k.sched) hc1
  refine ⟨k', ?_, hready, ?_⟩
  · have hge : 0 ≤ (addVal m (-1) k).val m := by simpa [addVal, sub_eq_add_neg] using hval
    have hfind : findFirstBlockingThread m (addVal m (-1) k) = some w := hw
    unfold sysPthreadMutexUnlock
    simp only [if_pos hge, hfind]
    exact he
  · rw [hiff, hblocked, hprio, hprio]
    rfl

theorem condSignal_urgent_iff {c : Ptr} (h : Placed k) (hl : Leveled k.sched)
    (hi : k.current ≠ k.idle) (hw : findOtherThread c k = some w) :
    ∃ k', sysPthreadCondSignal c k = some k' ∧ IsReady k' w ∧
      (priority k' k'.current ≤ priority k' w ↔ priority k k.current ≤ priority k w) := by
  have hmem : w ∈ k.condHead := List.mem_of_find?_eq_some hw
  obtain ⟨hwq, hwi⟩ := notMem_queued_of_wait h.toReady (List.mem_append_right _ hmem)
  set k1 := enqueue w { k with condHead := k.condHead.erase w } with hk1
  have hprio : ∀ t, priority k1 t = priority k t := fun t => tiPriority_schedEnqueue w t k.sched
  have hq : k1.current ∉ queued k1.sched := by
    intro hm
    rcases List.mem_cons.mp ((queued_schedEnqueue w k.sched).mem_iff.mp hm) with he | hm
    · exact h.current (List.mem_append_right _ (List.mem_append_right _ (he ▸ hmem)))
    · exact h.current (List.mem_append_left _ hm)
  obtain ⟨k', he, hready, hiff⟩ := giveWay_urgent_iff (k := k1) (hl.schedEnqueue hwq hwi)
    (mem_active_schedEnqueue_self w k.sched) hq hi
  refine ⟨k', ?_, hready, ?_⟩
  · unfold sysPthreadCondSignal
    simp only [hw]
    exact he
  · rw [hiff, hprio, hprio]
    rfl

end

/-! ## Levels

Every entry leaves each queued thread at the level of its priority. -/

section

variable {k k' : System} {x : Thread}

theorem Leveled.congr {s t : State} (h : Leveled s) (ha : t.active = s.active)
    (hx : t.expire = s.expire) (hi : t.threadIdle = s.threadIdle)
    (hp : ∀ y ∈ queued s, (t.info y).tiPriority = (s.info y).tiPriority) : Leveled t := by
  have hq : queued t = queued s := by
    unfold queued
    rw [ha, hx]
  refine ⟨⟨⟨?_, ?_⟩, hq ▸ h.inv.nodup, by rw [hi, hq]; exact h.inv.idle⟩, fun p y hy => ?_,
    fun p y hy => ?_⟩
  · rw [ha]; exact h.inv.agree.1
  · rw [hx]; exact h.inv.agree.2
  · rw [ha] at hy
    rw [hp y (List.mem_append_left _ (mem_members.mpr ⟨p, hy⟩))]
    exact h.active p y hy
  · rw [hx] at hy
    rw [hp y (List.mem_append_right _ (mem_members.mpr ⟨p, hy⟩))]
    exact h.expire p y hy

theorem leveled_enqueue (h : Leveled k.sched) (hx : x ∉ k.linked) (hi : x ≠ k.idle) :
    Leveled (enqueue x k).sched :=
  h.schedEnqueue (fun hq => hx (List.mem_append_left _ hq)) hi

theorem leveled_elect {flags : SchedOpt} (h : Leveled k.sched)
    (hcur : flags = .tick → k.current ∉ k.linked) (he : elect flags k = some k') :
    Leveled k'.sched := by
  obtain ⟨s, hs, rfl⟩ := Option.map_eq_some_iff.mp he
  exact (h.schedElect (fun hf hq => hcur hf (List.mem_append_left _ hq)) hs).toLeveled

theorem leveled_block (h : Leveled k.sched) (p : Ptr) : Leveled (block p k).sched :=
  Leveled.congr h rfl rfl rfl fun _ _ => tiPriority_setState _ _ _ _

theorem leveled_giveWay (h : Placed k) (hl : Leveled k.sched) (hi : k.current ≠ k.idle)
    (he : elect .none (enqueue k.current k) = some k') : Leveled k'.sched :=
  leveled_elect (leveled_enqueue hl h.current hi) (fun hf => by cases hf) he

theorem leveled_mutexLock {m : Ptr} (hl : Leveled k.sched) (he : sysPthreadMutexLock m k = some k') :
    Leveled k'.sched := by
  unfold sysPthreadMutexLock at he
  dsimp only at he
  split at he
  · cases he; exact hl
  · exact leveled_elect (k := blockOnMutex m (addVal m 1 k)) (leveled_block (k := addVal m 1 k) hl m)
      (fun hf => by cases hf) he

theorem leveled_wakeWaiter {w : Thread} (h : Ready k) (hl : Leveled k.sched) (hw : w ∈ k.mutexHead) :
    Leveled (wakeWaiter w k).sched := by
  obtain ⟨hq, hi⟩ := notMem_queued_of_wait h (List.mem_append_left _ hw)
  exact hl.schedEnqueue hq hi

theorem leveled_reschedule {w : Option Thread} (hl : Leveled k.sched)
    (hc : Blocked k ∨ k.current ∉ k.linked ∧ k.current ≠ k.idle) (he : reschedule w k = some k') :
    Leveled k'.sched := by
  unfold reschedule at he
  split at he
  · exact leveled_elect hl (fun hf => by cases hf) he
  · rename_i hb
    obtain ⟨hq, hi⟩ := hc.resolve_left hb
    cases w with
    | none => cases he; exact hl
    | some w =>
      dsimp only at he
      split at he
      · exact leveled_elect (leveled_enqueue hl hq hi) (fun hf => by cases hf) he
      · cases he; exact hl

theorem leveled_mutexUnlock {m : Ptr} (h : Placed k) (hl : Leveled k.sched) (hi : k.current ≠ k.idle)
    (he : sysPthreadMutexUnlock m k = some k') : Leveled k'.sched := by
  have h' := h.addVal m (-1)
  rcases sysPthreadMutexUnlock_cases he with ⟨-, rfl⟩ | ⟨-, hr⟩ | ⟨w, -, hf, hr⟩
  · exact hl
  · exact leveled_reschedule (k := addVal m (-1) k) hl (.inr ⟨h'.current, hi⟩) hr
  · have hw := (mem_of_findFirstBlockingThread hf).1
    exact leveled_reschedule (leveled_wakeWaiter h'.toReady hl hw)
      (.inr ⟨(h'.wakeWaiter hw).current, hi⟩) hr

theorem blocked_blockOnCond (c m : Ptr) (k : System) : Blocked (blockOnCond c m k) :=
  tiState_setState_self _ _ _

theorem leveled_condWait {c m : Ptr} (h : Placed k) (hl : Leveled k.sched) (hi : k.current ≠ k.idle)
    (he : sysPthreadCondWait c m k = some k') : Leveled k'.sched := by
  have hc := h.ready_blockOnCond hi c m
  have hl' : Leveled (blockOnCond c m k).sched := leveled_block hl c
  have hb := blocked_blockOnCond c m k
  rcases sysPthreadMutexUnlock_cases he with ⟨-, rfl⟩ | ⟨-, hr⟩ | ⟨w, -, hf, hr⟩
  · exact hl'
  · exact leveled_reschedule (k := addVal m (-1) (blockOnCond c m k)) hl' (.inl hb) hr
  · have hw := (mem_of_findFirstBlockingThread hf).1
    have hne : k.current ≠ w := (tiPrivate_blockOnCond h c m hw).1.symm
    refine leveled_reschedule (leveled_wakeWaiter (k := addVal m (-1) (blockOnCond c m k)) ?_ hl' hw) ?_ hr
    · exact hc.of_linked ⟨rfl, rfl, rfl, rfl, rfl, rfl, rfl⟩ hc.queues hc.nodup fun t ht => .inl ht
    · exact .inl ((blocked_enqueue (k := blockOnCond c m k) hne _ rfl).mpr hb)

theorem leveled_condSignal {c : Ptr} (h : Placed k) (hl : Leveled k.sched) (hi : k.current ≠ k.idle)
    (he : sysPthreadCondSignal c k = some k') : Leveled k'.sched := by
  unfold sysPthreadCondSignal at he
  cases hf : findOtherThread c k with
  | none => rw [hf] at he; cases he; exact hl
  | some w =>
    rw [hf] at he
    have hw : w ∈ k.condHead := List.mem_of_find?_eq_some hf
    obtain ⟨hwq, hwi⟩ := notMem_queued_of_wait h.toReady (List.mem_append_right _ hw)
    have hl' : Leveled (enqueue w { k with condHead := k.condHead.erase w }).sched :=
      hl.schedEnqueue hwq hwi
    dsimp only at he
    split at he
    · exact leveled_giveWay (h.wakeOther hw) hl' hi he
    · cases he; exact hl'

theorem leveled_create {t : Thread} (h : Placed k) (hl : Leveled k.sched) (hfree : k.life t = .free) :
    Leveled (enqueue t (threadCreate t k)).sched := by
  obtain ⟨hnl, hni⟩ := h.off t (.inr (.inr (.inr (by rw [hfree]; decide))))
  refine leveled_enqueue (Leveled.congr hl rfl rfl rfl fun y hy => ?_) hnl hni
  have hne : y ≠ t := by
    rintro rfl
    exact hnl (List.mem_append_left _ hy)
  simp [threadCreate, hne]

theorem leveled_exit (h : Placed k) (hl : Leveled k.sched) (he : sysPthreadExit k = some k') :
    Leveled k'.sched := by
  refine leveled_elect ?_ (fun hf => by cases hf) he
  unfold exitThread
  split
  · dsimp only
    cases hj : k.tiJoining k.current with
    | none => exact hl
    | some j =>
      obtain ⟨hnl, hni⟩ := h.off j (.inr (.inl ⟨_, hj, h.live⟩))
      exact leveled_enqueue (k := { k with life := _ }) hl hnl hni
  · exact hl

theorem leveled_join {other : Thread} (hl : Leveled k.sched)
    (he : sysPthreadJoin other k = some k') : Leveled k'.sched := by
  unfold sysPthreadJoin at he
  split at he
  · cases he; exact hl
  · split at he
    · cases he; exact hl
    · split at he
      · cases he; exact hl
      · split at he
        · cases he; exact hl
        · exact leveled_elect (k := setKont _ _ { k with tiJoining := _ }) hl (fun hf => by cases hf) he

theorem leveled_serialcharRead {count : ℕ} (hl : Leveled k.sched)
    (he : serialcharRead count k = some k') : Leveled k'.sched := by
  unfold serialcharRead at he
  split at he
  · exact leveled_elect (k := setKont _ _ k) hl (fun hf => by cases hf) he
  · split at he
    · cases he; exact hl
    · cases he

theorem leveled_syscall {c : Syscall} (h : Placed k) (hl : Leveled k.sched)
    (hi : k.current ≠ k.idle) (hpage : validPage k c = true) (he : syscall k c = some k') :
    Leveled k'.sched := by
  cases c with
  | yield => exact leveled_giveWay h hl hi he
  | create page =>
    cases page with
    | none => cases he; exact hl
    | some t => cases he; exact leveled_create h hl (of_decide_eq_true hpage)
  | exit => exact leveled_exit h hl he
  | join other => exact leveled_join hl he
  | detach other =>
    simp only [syscall, sysPthreadDetach] at he
    split at he
    · cases he; exact hl
    · cases he
  | mutexLock m => exact leveled_mutexLock hl he
  | mutexUnlock m => exact leveled_mutexUnlock h hl hi he
  | condWait c m => exact leveled_condWait h hl hi he
  | condSignal c => exact leveled_condSignal h hl hi he
  | msleep alloc msec =>
    simp only [syscall, sysMsleep] at he
    split at he
    · cases he; exact hl
    · split at he
      · cases he
      · exact leveled_elect (k := setKont _ _ { k with timers := _ }) hl (fun hf => by cases hf) he
  | serialOpen => cases he; exact hl
  | serialRead count => exact leveled_serialcharRead hl he

theorem leveled_resume (hl : Leveled k.sched) (he : resume k = some k') : Leveled k'.sched := by
  unfold resume at he
  split at he
  · cases he
  · exact leveled_mutexLock (k := setKont _ _ k) hl he
  · exact leveled_serialcharRead hl he
  · cases he; exact hl
  · cases he; exact hl

theorem leveled_wake {y : Thread} (h : Placed k) (hl : Leveled k.sched) (hy : Off k y) :
    Leveled (schedEnqueue y k.sched) := by
  obtain ⟨hnl, hni⟩ := h.off y hy
  exact hl.schedEnqueue (fun hq => hnl (List.mem_append_left _ hq)) hni

theorem leveled_step {e : Entry} (h : Placed k) (hl : Leveled k.sched) (hsafe : Safe k e)
    (he : Kernel.step k e = some k') : Leveled k'.sched := by
  cases e with
  | svc c =>
    simp only [Kernel.step, Option.ite_none_right_eq_some] at he
    obtain ⟨⟨-, hi, hpage⟩, he⟩ := he
    exact leveled_syscall h hl hi hpage he
  | resume => exact leveled_resume hl he
  | pendsv =>
    simp only [Kernel.step, Option.ite_none_right_eq_some] at he
    exact leveled_elect hl (fun _ => h.current) he.2
  | softirqdLeave => exact absurd hsafe id
  | raiseSoftirq nr =>
    cases he
    unfold raiseSoftirq
    split
    · exact hl
    · split
      · rename_i hr
        exact leveled_wake h hl (.inr (.inr (.inl ⟨hr, rfl⟩)))
      · exact hl
  | timerExpire t =>
    simp only [Kernel.step, timerExpire, Option.ite_none_right_eq_some] at he
    obtain ⟨ht, he⟩ := he
    cases he
    exact leveled_wake (k := k) h hl (.inl (by simpa using ht))
  | uart =>
    cases he
    unfold uartIsr
    cases hs : k.serialOwner with
    | none => exact hl
    | some o =>
      obtain ⟨⟨n, hkont⟩, hnl, -⟩ := hsafe o hs
      have hni : o ≠ k.idle := by
        rintro rfl
        rw [h.konts.idle.1] at hkont
        cases hkont
      exact leveled_enqueue (k := received k) hl hnl hni

end

/-! ## The woken waiter -/

section

variable {k k' : System} {w : Thread}

theorem not_isReady_of_wait (h : Placed k) (hw : w ∈ k.mutexHead ++ k.condHead) : ¬ IsReady k w := by
  rintro (hq | rfl)
  · exact (notMem_queued_of_wait h.toReady hw).1 hq
  · exact h.current (List.mem_append_right _ hw)

/-- A thread of the run queue is still ready after an election. -/
theorem isReady_elect {flags : SchedOpt} {t : Thread} (h : Linked k.sched) (he : elect flags k = some k')
    (hq : t ∈ queued k.sched) : IsReady k' t := by
  obtain ⟨s, -, rfl, -, hperm, -⟩ := elect_linked h he
  by_cases htc : t = s.current
  · exact .inr htc
  · exact .inl (hperm.mem_iff.mpr (List.mem_append_right _ ((List.mem_erase_of_ne htc).mpr hq)))

theorem heads_of_moves (h : Moves k k') :
    k'.mutexHead = k.mutexHead ∧ k'.condHead = k.condHead := by
  obtain ⟨s, rfl⟩ := h
  exact ⟨rfl, rfl⟩

/-- The waiter that an unlock makes ready. -/
def unlockWakes (m : Ptr) (k : System) : Option Thread :=
  if 0 ≤ wrap32 (k.val m - 1) then findFirstBlockingThread m k else none

/-- No waiter of `k` that is ready in `k'` is more urgent than the thread that
runs there. -/
def Urgent (k k' : System) : Prop :=
  ∀ w ∈ k.mutexHead ++ k.condHead, IsReady k' w → priority k' k'.current ≤ priority k' w

theorem urgent_of_heads (hp : Placed k') (hm : k'.mutexHead = k.mutexHead)
    (hc : k'.condHead = k.condHead) : Urgent k k' := by
  intro w hw hready
  rw [← hm, ← hc] at hw
  exact absurd hready (not_isReady_of_wait hp hw)

/-- When one waiter leaves the lists, it is the only one to look at. -/
theorem urgent_iff_of_erase (hp : Placed k') (hready : IsReady k' w)
    (hmem : w ∈ k.mutexHead ++ k.condHead)
    (hheads : ∀ v ∈ k.mutexHead ++ k.condHead, v ≠ w → v ∈ k'.mutexHead ++ k'.condHead) :
    Urgent k k' ↔ priority k' k'.current ≤ priority k' w := by
  refine ⟨fun h => h w hmem hready, fun h v hv hvr => ?_⟩
  by_cases hvw : v = w
  · rw [hvw]; exact h
  · exact absurd hvr (not_isReady_of_wait hp (hheads v hv hvw))

theorem mutexUnlock_urgent {m : Ptr} (h : Ready k) (hl : Leveled k.sched)
    (hc : Blocked k ∨ k.current ∉ queued k.sched ∧ k.current ≠ k.idle) (hcur : k.current ∉ k.mutexHead)
    (he : sysPthreadMutexUnlock m k = some k') (hp : Placed k') :
    Urgent k k' ↔
      ∀ w, unlockWakes m k = some w → Blocked k ∨ priority k k.current ≤ priority k w := by
  rcases sysPthreadMutexUnlock_cases he with ⟨hno, rfl⟩ | ⟨hneg, hr⟩ | ⟨w, hge, hf, hr⟩
  · refine iff_of_true (urgent_of_heads hp rfl rfl) fun w hw => ?_
    rw [unlockWakes, if_pos hno.1, hno.2] at hw
    cases hw
  · obtain ⟨hm, hcd⟩ := heads_of_moves (moves_reschedule hr)
    refine iff_of_true (urgent_of_heads hp hm hcd) fun w hw => ?_
    rw [unlockWakes, if_neg (not_le.mpr hneg)] at hw
    cases hw
  · have hmem := (mem_of_findFirstBlockingThread hf).1
    have hne : k.current ≠ w := fun hcw => hcur (hcw ▸ hmem)
    obtain ⟨k2, he2, hready, hiff⟩ := mutexUnlock_urgent_iff h hl hc hne hge hf
    obtain rfl : k' = k2 := Option.some.inj (he.symm.trans he2)
    obtain ⟨hm, hcd⟩ := heads_of_moves (moves_reschedule hr)
    rw [urgent_iff_of_erase hp hready (List.mem_append_left _ hmem), hiff]
    · unfold unlockWakes
      rw [if_pos hge, hf]
      exact ⟨fun hx v hv => Option.some.inj hv ▸ hx, fun hx => hx w rfl⟩
    · intro v hv hvw
      rw [hm, hcd]
      refine (List.mem_append.mp hv).elim (fun hv => ?_) fun hv => List.mem_append_right _ hv
      exact List.mem_append_left _ ((List.mem_erase_of_ne hvw).mpr hv)

theorem condSignal_urgent {c : Ptr} (h : Placed k) (hl : Leveled k.sched) (hi : k.current ≠ k.idle)
    (he : sysPthreadCondSignal c k = some k') :
    Urgent k k' ↔ ∀ w, findOtherThread c k = some w → priority k k.current ≤ priority k w := by
  have hp := h.sysPthreadCondSignal hi he
  cases hf : findOtherThread c k with
  | none =>
    have hk : k' = k := by
      unfold sysPthreadCondSignal at he
      rw [hf] at he
      exact (Option.some.inj he).symm
    exact iff_of_true (urgent_of_heads hp (by rw [hk]) (by rw [hk])) fun w hw => by cases hw
  | some w =>
    have hmem : w ∈ k.condHead := List.mem_of_find?_eq_some hf
    obtain ⟨k2, he2, hready, hiff⟩ := condSignal_urgent_iff h hl hi hf
    obtain rfl : k' = k2 := Option.some.inj (he.symm.trans he2)
    rw [urgent_iff_of_erase hp hready (List.mem_append_right _ hmem), hiff]
    · exact ⟨fun hx v hv => Option.some.inj hv ▸ hx, fun hx => hx w rfl⟩
    · intro v hv hvw
      have hheads : k'.mutexHead = k.mutexHead ∧ k'.condHead = k.condHead.erase w := by
        cases sysPthreadCondSignal_calls he with
        | signalsNone _ hw => cases hw.symm.trans hf
        | signals _ v s hw => cases hw.symm.trans hf; exact ⟨rfl, rfl⟩
      rw [hheads.1, hheads.2]
      refine (List.mem_append.mp hv).elim (fun hv => List.mem_append_left _ hv) fun hv => ?_
      exact List.mem_append_right _ ((List.mem_erase_of_ne hvw).mpr hv)

/-- The unlock in `sys_pthread_cond_wait` always elects. -/
theorem condWait_urgent {c m : Ptr} (h : Placed k) (hl : Leveled k.sched) (hi : k.current ≠ k.idle)
    (he : sysPthreadCondWait c m k = some k') (hp : Placed k') : Urgent k k' := by
  have hb := blocked_blockOnCond c m k
  have hcur : (blockOnCond c m k).current ∉ (blockOnCond c m k).mutexHead := by
    intro hm
    exact h.current (List.mem_append_right _ (List.mem_append_left _ hm))
  have hu := (mutexUnlock_urgent (h.ready_blockOnCond hi c m) (leveled_block hl c) (.inl hb) hcur he
    hp).mpr fun _ _ => .inl hb
  intro w hw
  refine hu w ?_
  show w ∈ k.mutexHead ++ (k.condHead ++ [k.current])
  rw [← List.append_assoc]
  exact List.mem_append_left _ hw

end

/-! ## Every run -/

/-- An entry of the kernel, or a call of `thread_set_priority`. -/
inductive Act where
  | entry (e : Entry)
  | setPriority (t : Thread) (priority : Fin 32)
  deriving DecidableEq, Repr

def step (k : System) : Act → Option System
  | .entry e => Kernel.step k e
  | .setPriority t priority => some { k with sched := threadSetPriority t priority k.sched }

/-- The entry is safe; the priority of a thread does not change while it is
queued. -/
def Allowed (k : System) : Act → Prop
  | .entry e => Safe k e
  | .setPriority t _ => t ∉ queued k.sched

/-- The calls that wake a waiter; `sys_pthread_cond_wait` is one by its unlock. -/
def isWake : Act → Bool
  | .entry (.svc (.mutexUnlock _)) => true
  | .entry (.svc (.condSignal _)) => true
  | .entry (.svc (.condWait _ _)) => true
  | _ => false

/-- The call leaves no woken waiter behind a less urgent thread. -/
def Respects (k : System) (a : Act) (k' : System) : Prop := isWake a = true → Urgent k k'

/-- The caller is not less urgent than the waiter it wakes. -/
def CallerUrgent (k : System) : Act → Prop
  | .entry (.svc (.mutexUnlock m)) =>
    ∀ w, unlockWakes m k = some w → Blocked k ∨ priority k k.current ≤ priority k w
  | .entry (.svc (.condSignal c)) =>
    ∀ w, findOtherThread c k = some w → priority k k.current ≤ priority k w
  | _ => True

/-- The states of the runs. -/
structure Ordered (k : System) : Prop extends Placed k where
  leveled : Leveled k.sched

theorem step_ordered (k : System) (a : Act) (k' : System) (h : Ordered k) (ha : Allowed k a)
    (he : step k a = some k') : Ordered k' := by
  cases a with
  | entry e => exact ⟨step_placed k e k' h.toPlaced ha he, leveled_step h.toPlaced h.leveled ha he⟩
  | setPriority t p =>
    cases he
    have hq := h.queues
    have hwaits : SameWaits k { k with sched := threadSetPriority t p k.sched } :=
      ⟨rfl, rfl, rfl, rfl, rfl, rfl, rfl⟩
    refine ⟨⟨⟨⟨hq.marksActive, hq.marksExpire, hq.nodup, hq.idle⟩, h.nodup, h.idle, h.off,
      hwaits.kontOk h.konts⟩, h.current, h.awake⟩, Leveled.congr h.leveled rfl rfl rfl fun y hy => ?_⟩
    have hne : y ≠ t := by
      rintro rfl
      exact ha hy
    simp [threadSetPriority, hne]

theorem ordered_start (b : Threads) (val : Ptr → ℤ) : Ordered (start b val) :=
  ⟨placed_start b val, Leveled.congr (steady_boot b.idle b.main).toLeveled rfl rfl rfl fun y hy => by
    simp [queued, boot] at hy⟩

theorem step_respects_iff {k k' : System} {a : Act} (h : Ordered k) (ha : Allowed k a)
    (he : step k a = some k') : Respects k a k' ↔ CallerUrgent k a := by
  have hp := (step_ordered k a k' h ha he).toPlaced
  have hcur : k.current ∉ queued k.sched := fun hq => h.current (List.mem_append_left _ hq)
  have hmut : k.current ∉ k.mutexHead := fun hm =>
    h.current (List.mem_append_right _ (List.mem_append_left _ hm))
  unfold Respects CallerUrgent
  split
  · simp only [step, Kernel.step, Option.ite_none_right_eq_some] at he
    obtain ⟨⟨-, hi, -⟩, he⟩ := he
    simpa [isWake] using mutexUnlock_urgent h.toReady h.leveled (.inr ⟨hcur, hi⟩) hmut he hp
  · simp only [step, Kernel.step, Option.ite_none_right_eq_some] at he
    obtain ⟨⟨-, hi, -⟩, he⟩ := he
    simpa [isWake] using condSignal_urgent h.toPlaced h.leveled hi he
  · refine iff_of_true (fun hw => ?_) trivial
    cases a with
    | setPriority t p => cases hw
    | entry e =>
      cases e with
      | svc c =>
        simp only [step, Kernel.step, Option.ite_none_right_eq_some] at he
        obtain ⟨⟨-, hi, -⟩, he⟩ := he
        cases c with
        | condWait c m => exact condWait_urgent h.toPlaced h.leveled hi he hp
        | mutexUnlock m => rename_i hno _; exact absurd rfl (hno m)
        | condSignal c => rename_i hno; exact absurd rfl (hno c)
        | _ => cases hw
      | _ => cases hw

/-- **Urgency of the woken.** Along a run no call leaves the waiter it wakes
behind a less urgent thread exactly when every caller is as urgent as the waiter it
wakes: the one case in which the caller should give way is the one in which it does
not. -/
theorem runs_respect_iff (b : Threads) (val : Ptr → ℤ) (as : List Act)
    (hok : ∀ x ∈ trace step (start b val) as, Allowed x.pre x.act) :
    (∀ x ∈ trace step (start b val) as, Respects x.pre x.act x.post) ↔
      ∀ x ∈ trace step (start b val) as, CallerUrgent x.pre x.act := by
  refine forall₂_congr fun x hx => ?_
  have hpre := (trace_invariant step_ordered (ordered_start b val) hok x hx).1
  exact step_respects_iff hpre (hok x hx) (step_of_mem_trace hx)

/-- A new thread waits for the mutex of the main thread. -/
def waited : List Act :=
  [.entry (.svc (.mutexLock 8)), .entry (.svc (.create (some 3))), .entry (.svc .yield),
    .entry (.svc (.mutexLock 8))]

/-- Both threads have the priority that `thread_create` gives. -/
theorem runs_respect_iff_equal :
    (∀ x ∈ trace step (start threads fun _ => -1) (waited ++ [.entry (.svc (.mutexUnlock 8))]),
      Allowed x.pre x.act) ∧
    ∀ x ∈ trace step (start threads fun _ => -1) (waited ++ [.entry (.svc (.mutexUnlock 8))]),
      Respects x.pre x.act x.post := by
  obtain ⟨k, k', hk, hk', hw, hle⟩ : ∃ k k', run step (start threads fun _ => -1) waited = some k ∧
      step k (.entry (.svc (.mutexUnlock 8))) = some k' ∧ unlockWakes 8 k = some 3 ∧
      priority k k.current ≤ priority k 3 :=
    ⟨_, _, rfl, rfl, by decide +kernel, by decide +kernel⟩
  have hacts : ∀ x ∈ trace step (start threads fun _ => -1)
      (waited ++ [.entry (.svc (.mutexUnlock 8))]), Allowed x.pre x.act := by
    intro x hx
    have ha := act_mem_of_mem_trace hx
    simp only [waited, List.mem_append, List.mem_cons, List.not_mem_nil, or_false] at ha
    rcases ha with (ha | ha | ha | ha) | ha <;> rw [ha] <;> trivial
  refine ⟨hacts, (runs_respect_iff threads _ _ hacts).mpr fun x hx => ?_⟩
  rw [trace_append hk, trace_cons_some hk'] at hx
  rcases List.mem_append.mp hx with hx | hx
  · have ha := act_mem_of_mem_trace hx
    simp only [waited, List.mem_cons, List.not_mem_nil, or_false] at ha
    rcases ha with ha | ha | ha | ha <;> rw [ha] <;> trivial
  · obtain rfl := List.mem_singleton.mp hx
    intro w hw'
    obtain rfl : (3 : Thread) = w := Option.some.inj (hw.symm.trans hw')
    exact .inr hle

/-- The new thread makes itself the most urgent one before it waits for the mutex.
The main thread, of the least urgent priority, unlocks it and goes on. -/
theorem urgent_waiter_left_behind : ∃ k k', run step (start threads fun _ => -1)
      [.entry (.svc (.mutexLock 8)), .entry (.svc (.create (some 3))), .entry (.svc .yield),
        .setPriority 3 priMax, .entry (.svc (.mutexLock 8))] = some k ∧
    step k (.entry (.svc (.mutexUnlock 8))) = some k' ∧
    ¬ Respects k (.entry (.svc (.mutexUnlock 8))) k' := by
  obtain ⟨k, k', hk, hk', hmem, hready, hlt⟩ : ∃ k k', run step (start threads fun _ => -1)
      [.entry (.svc (.mutexLock 8)), .entry (.svc (.create (some 3))), .entry (.svc .yield),
        .setPriority 3 priMax, .entry (.svc (.mutexLock 8))] = some k ∧
      step k (.entry (.svc (.mutexUnlock 8))) = some k' ∧ 3 ∈ k.mutexHead ++ k.condHead ∧
      3 ∈ queued k'.sched ∧ ¬ priority k' k'.current ≤ priority k' 3 :=
    ⟨_, _, rfl, rfl, by decide +kernel, by decide +kernel, by decide +kernel⟩
  exact ⟨k, k', hk, hk', fun h => hlt (h rfl 3 hmem (.inl hready))⟩

end PikoRT.Sync.Wake

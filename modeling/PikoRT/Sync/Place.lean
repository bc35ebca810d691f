import PikoRT.Sync.Effect
import PikoRT.Lib.Run

/-! # One place for every thread

`ti_q` is one node, so a thread may be in one list only, and in none while it
runs. Some threads are in no list and wait for a wake-up: the owner of a timer,
a thread that joins another, `softirqd` before its first softirq. `Ready` says
that no list holds such a thread, and that is what an election needs; every entry
gets there before it elects. Three entries do not: a received character wakes the
owner of the serial device whatever it does, `sys_pthread_cond_wait` goes on when
the unlock in it failed, and `softirqd` may leave its loop. -/
namespace PikoRT.Sync.Place
open PikoRT.Kernel.Bitmap PikoRT.Lib.PrioQueue PikoRT.Lib.Run
open PikoRT.Sched.Model hiding step
open PikoRT.Sched.RunQueue PikoRT.Sync.Kernel PikoRT.Sync.Effect

/-- No list holds the thread and it does not run: it waits for a timer or for
another thread's exit, it was never started, or it has exited. -/
def Off (k : System) (t : Thread) : Prop :=
  t ∈ k.timers ∨ (∃ o, k.tiJoining o = some t ∧ k.life o = .live) ∨
    (k.softirqRun = false ∧ t = k.threadSoftirqd) ∨ k.life t ≠ .live

/-- What the continuation of a thread says about what it waits for. -/
structure KontOk (k : System) : Prop where
  timers : ∀ t ∈ k.timers, k.kont t = .timerFree
  once : k.timers.Nodup
  joins : ∀ o j, k.tiJoining o = some j → k.life o = .live → k.kont j = .joinRet o
  softirqd : k.softirqRun = false → k.kont k.threadSoftirqd = .user ∧ k.life k.threadSoftirqd = .live
  dead : ∀ t, k.life t ≠ .live → k.kont t = .user
  idle : k.kont k.idle = .user ∧ k.life k.idle = .live

/-- The lists are in order, whatever the running thread is in. -/
structure Ready (k : System) : Prop where
  queues : Linked k.sched
  nodup : k.linked.Nodup
  idle : k.idle ∉ k.linked
  off : ∀ t, Off k t → t ∉ k.linked ∧ t ≠ k.idle
  konts : KontOk k

structure Placed (k : System) : Prop extends Ready k where
  current : k.current ∉ k.linked
  awake : ¬ Off k k.current

/-! ## The lists through the calls of the scheduler -/

/-- What the threads outside the lists wait for is the same. -/
structure SameWaits (k k' : System) : Prop where
  timers : k'.timers = k.timers
  joining : k'.tiJoining = k.tiJoining
  life : k'.life = k.life
  softirqRun : k'.softirqRun = k.softirqRun
  softirqd : k'.threadSoftirqd = k.threadSoftirqd
  kont : k'.kont = k.kont
  idle : k'.idle = k.idle

section

variable {k k' p : System} {x : Thread}

theorem SameWaits.off (h : SameWaits k k') (t : Thread) : Off k' t ↔ Off k t := by
  unfold Off
  rw [h.timers, h.joining, h.life, h.softirqRun, h.softirqd]

theorem SameWaits.kontOk (h : SameWaits k k') (hk : KontOk k) : KontOk k' := by
  obtain ⟨h1, h2, h3, h4, h5, h6⟩ := hk
  constructor <;> simp only [h.timers, h.joining, h.life, h.softirqRun, h.softirqd, h.kont, h.idle]
  exacts [h1, h2, h3, h4, h5, h6]

/-- The lists may lose threads, and gain some that nothing else will wake. -/
theorem Ready.of_linked (h : Ready k) (hw : SameWaits k k') (hq : Linked k'.sched)
    (hnd : k'.linked.Nodup) (hsub : ∀ t ∈ k'.linked, t ∈ k.linked ∨ (t ≠ k.idle ∧ ¬ Off k t)) :
    Ready k' where
  queues := hq
  nodup := hnd
  idle := fun hi => by
    rw [hw.idle] at hi
    rcases hsub _ hi with hm | ⟨hne, -⟩
    · exact h.idle hm
    · exact hne rfl
  off := fun t ht => by
    rw [hw.off] at ht
    rw [hw.idle]
    refine ⟨fun hm => ?_, (h.off t ht).2⟩
    rcases hsub t hm with hm | ⟨-, hno⟩
    · exact (h.off t ht).1 hm
    · exact hno ht
  konts := hw.kontOk h.konts

theorem linked_enqueue (x : Thread) (k : System) : (enqueue x k).linked.Perm (x :: k.linked) :=
  (queued_schedEnqueue x k.sched).append_right _

theorem mem_linked_enqueue {y : Thread} : y ∈ (enqueue x k).linked ↔ y = x ∨ y ∈ k.linked := by
  rw [(linked_enqueue x k).mem_iff, List.mem_cons]

theorem Ready.enqueue (h : Ready k) (hx : x ∉ k.linked) (hi : x ≠ k.idle) (hoff : ¬ Off k x) :
    Ready (enqueue x k) := by
  refine h.of_linked ⟨rfl, rfl, rfl, rfl, rfl, rfl, rfl⟩ ?_ ?_ fun t ht => ?_
  · exact h.queues.schedEnqueue (fun hq => hx (List.mem_append_left _ hq)) hi
  · exact (linked_enqueue x k).nodup_iff.mpr (List.nodup_cons.mpr ⟨hx, h.nodup⟩)
  · rcases mem_linked_enqueue.mp ht with rfl | ht
    · exact .inr ⟨hi, hoff⟩
    · exact .inl ht

/-- A thread that is not the running one may be enqueued at any time. -/
theorem Placed.enqueue (h : Placed k) (hx : x ∉ k.linked) (hi : x ≠ k.idle) (hoff : ¬ Off k x)
    (hc : x ≠ k.current) : Placed (enqueue x k) where
  toReady := h.toReady.enqueue hx hi hoff
  current := fun hm => (mem_linked_enqueue.mp hm).elim (fun he => hc he.symm) h.current
  awake := h.awake

/-- An election takes the thread that it elects out of the lists. -/
theorem elect_linked {flags : SchedOpt} (h : Linked p.sched) (he : elect flags p = some k) :
    ∃ s, schedElect flags p.sched = some s ∧ k = { p with sched := s } ∧
      s.threadIdle = p.idle ∧
      (queued s).Perm (putBack flags p.sched ++ (queued p.sched).erase s.current) ∧
      (s.current = p.idle ∨ s.current ∈ queued p.sched) := by
  unfold elect at he
  obtain ⟨s, hs, hk⟩ := Option.map_eq_some_iff.mp he
  exact ⟨s, hs, hk.symm, schedElect_spec h hs⟩

/-- **Election.** From lists in order an election leads to a thread that is in no
list and that nothing else will wake. The thread that a tick puts back has to be
such a thread, too. -/
theorem Ready.elected {flags : SchedOpt} (h : Ready p)
    (hout : flags = .tick → p.current ∉ p.linked ∧ ¬ Off p p.current)
    (he : elect flags p = some k) : Placed k := by
  obtain ⟨s, hs, rfl, hidle, hperm, hcur⟩ := elect_linked h.queues he
  have hback : ∀ t ∈ putBack flags p.sched, t = p.current ∧ t ≠ p.idle ∧ flags = .tick := by
    intro t ht
    unfold putBack at ht
    split at ht
    · rename_i hb
      obtain rfl := List.mem_singleton.mp ht
      exact ⟨rfl, hb.2, hb.1⟩
    · cases ht
  have hqueued : ∀ t ∈ queued s, (t = p.current ∧ t ≠ p.idle ∧ flags = .tick) ∨
      (t ∈ queued p.sched ∧ t ≠ s.current) := by
    intro t ht
    rcases List.mem_append.mp (hperm.mem_iff.mp ht) with hb | hm
    · exact .inl (hback t hb)
    · have hm := (h.queues.nodup.mem_erase_iff).mp hm
      exact .inr ⟨hm.2, hm.1⟩
  obtain ⟨hndq, hndw, hdis⟩ := List.nodup_append.mp h.nodup
  have hl : Linked s :=
    h.queues.schedElect (fun hf hm => (hout hf).1 (List.mem_append_left _ hm)) hs
  have hready : Ready { p with sched := s } := by
    refine h.of_linked ⟨rfl, rfl, rfl, rfl, rfl, rfl, hidle⟩ hl ?_ fun t ht => ?_
    · refine List.nodup_append.mpr ⟨hl.nodup, hndw, fun a ha b hb hab => ?_⟩
      rcases hqueued a ha with ⟨hac, -, hf⟩ | ⟨haq, -⟩
      · exact (hout hf).1 (List.mem_append_right _ (hac ▸ hab ▸ hb))
      · exact hdis a haq b hb hab
    · rcases List.mem_append.mp ht with ht | ht
      · rcases hqueued t ht with ⟨hc, hi, hf⟩ | ⟨hq, -⟩
        · exact .inr ⟨hi, hc ▸ (hout hf).2⟩
        · exact .inl (List.mem_append_left _ hq)
      · exact .inl (List.mem_append_right _ ht)
  refine ⟨hready, fun hm => ?_, fun hoff => ?_⟩
  · rcases List.mem_append.mp hm with hm | hm
    · rcases hqueued _ hm with ⟨hc, hi, hf⟩ | ⟨-, hne⟩
      · -- the outgoing thread is not elected again: it was not queued and is not idle
        have hsc : s.current = p.current := hc
        rcases hcur with hidle' | hq
        · exact hi hidle'
        · exact (hout hf).1 (List.mem_append_left _ (hsc ▸ hq))
      · exact hne rfl
    · rcases hcur with hi | hq
      · have hin : p.idle ∈ p.linked := List.mem_append_right _ (hi ▸ hm)
        exact h.idle hin
      · exact hdis _ hq _ hm rfl
  · obtain ⟨hnl, hni⟩ := h.off _ hoff
    rcases hcur with hi | hq
    · exact hni hi
    · exact hnl (List.mem_append_left _ hq)

theorem Ready.elect (h : Ready p) (he : Kernel.elect .none p = some k) : Placed k :=
  h.elected (fun hf => by cases hf) he

end

/-! ## The calls -/

section

variable {k k' : System}

/-- The running thread gives way and waits for its next turn. -/
theorem Placed.giveWay (h : Placed k) (hi : k.current ≠ k.idle)
    (he : elect .none (Kernel.enqueue k.current k) = some k') : Placed k' :=
  (h.toReady.enqueue h.current hi h.awake).elect he

theorem setKont_kont_of_ne {t u : Thread} (x : Kont) (k : System) (h : u ≠ t) :
    (setKont t x k).kont u = k.kont u := by
  simp [setKont, h]

/-- The continuation of a thread that nothing else will wake may be anything. -/
theorem KontOk.setKont {t : Thread} (h : KontOk k) (hoff : ¬ Off k t) (hi : t ≠ k.idle) (x : Kont) :
    KontOk (setKont t x k) := by
  have hne : ∀ u, Off k u → u ≠ t := by
    rintro u hu rfl
    exact hoff hu
  refine ⟨fun u hu => ?_, h.once, fun o j hj ho => ?_, fun hr => ?_, fun u hu => ?_, ?_, h.idle.2⟩
  · rw [setKont_kont_of_ne x k (hne u (.inl hu))]
    exact h.timers u hu
  · rw [setKont_kont_of_ne x k (hne j (.inr (.inl ⟨o, hj, ho⟩)))]
    exact h.joins o j hj ho
  · refine ⟨?_, (h.softirqd hr).2⟩
    rw [show (Kernel.setKont t x k).threadSoftirqd = k.threadSoftirqd from rfl,
      setKont_kont_of_ne x k (hne _ (.inr (.inr (.inl ⟨hr, rfl⟩))))]
    exact (h.softirqd hr).1
  · rw [setKont_kont_of_ne x k (hne u (.inr (.inr (.inr hu))))]
    exact h.dead u hu
  · rw [show (Kernel.setKont t x k).idle = k.idle from rfl, setKont_kont_of_ne x k hi.symm]
    exact h.idle.1

theorem Placed.setKont (h : Placed k) (hi : k.current ≠ k.idle) (x : Kont) :
    Placed (setKont k.current x k) :=
  ⟨⟨h.queues, h.nodup, h.idle, h.off, h.konts.setKont h.awake hi x⟩, h.current, h.awake⟩

/-- A change of nothing that the lists or the waits depend on. -/
theorem Placed.same (h : Placed k) (hw : SameWaits k k') (hs : k'.sched = k.sched)
    (hl : k'.linked = k.linked) : Placed k' := by
  have hcur : k'.current = k.current := congrArg State.current hs
  refine ⟨h.toReady.of_linked hw (hs ▸ h.queues) (hl ▸ h.nodup) fun t ht => .inl (hl ▸ ht), ?_, ?_⟩
  · rw [hcur, hl]; exact h.current
  · rw [hcur, hw.off]; exact h.awake

theorem Placed.addVal (h : Placed k) (m : Ptr) (d : ℤ) : Placed (addVal m d k) :=
  h.same ⟨rfl, rfl, rfl, rfl, rfl, rfl, rfl⟩ rfl rfl

theorem linked_blockOnMutex (m : Ptr) (k : System) :
    (blockOnMutex m k).linked.Perm (k.current :: k.linked) := by
  show (queued k.sched ++ ((k.mutexHead ++ [k.current]) ++ k.condHead)).Perm _
  simp only [System.linked]
  rw [List.append_assoc, ← List.append_assoc (queued k.sched)]
  exact List.perm_middle.trans (by simp)

theorem Placed.ready_blockOnMutex (h : Placed k) (hi : k.current ≠ k.idle) (m : Ptr) :
    Ready (blockOnMutex m k) := by
  refine h.toReady.of_linked ⟨rfl, rfl, rfl, rfl, rfl, rfl, rfl⟩ ?_ ?_ fun t ht => ?_
  · exact h.queues.setState _ _
  · exact (linked_blockOnMutex m k).nodup_iff.mpr (List.nodup_cons.mpr ⟨h.current, h.nodup⟩)
  · rcases List.mem_cons.mp ((linked_blockOnMutex m k).mem_iff.mp ht) with rfl | ht
    · exact .inr ⟨hi, h.awake⟩
    · exact .inl ht

theorem Placed.sysPthreadMutexLock {m : Ptr} (h : Placed k) (hi : k.current ≠ k.idle)
    (he : sysPthreadMutexLock m k = some k') : Placed k' := by
  have h' := h.addVal m 1
  unfold Kernel.sysPthreadMutexLock at he
  dsimp only at he
  split at he
  · cases he; exact h'
  · exact (h'.ready_blockOnMutex hi m).elect he

/-! ### Unlock, wait and signal -/

/-- A waiter that is found moves from the list of the mutexes to the run queue. -/
theorem linked_wakeWaiter {w : Thread} (hw : w ∈ k.mutexHead) :
    (wakeWaiter w k).linked.Perm k.linked := by
  refine (linked_enqueue w _).trans ?_
  show (w :: (queued k.sched ++ (k.mutexHead.erase w ++ k.condHead))).Perm
    (queued k.sched ++ (k.mutexHead ++ k.condHead))
  refine List.perm_middle.symm.trans (List.Perm.append_left _ ?_)
  exact (List.perm_cons_erase hw).symm.append_right k.condHead

theorem linked_wakeOther {w : Thread} (hw : w ∈ k.condHead) :
    (enqueue w { k with condHead := k.condHead.erase w }).linked.Perm k.linked := by
  refine (linked_enqueue w _).trans ?_
  show (w :: (queued k.sched ++ (k.mutexHead ++ k.condHead.erase w))).Perm
    (queued k.sched ++ (k.mutexHead ++ k.condHead))
  refine List.perm_middle.symm.trans (List.Perm.append_left _ ?_)
  exact List.perm_middle.symm.trans ((List.perm_cons_erase hw).symm.append_left k.mutexHead)

/-- A thread of a wait list is enqueued: the lists hold the same threads. -/
theorem Ready.moved (h : Ready k) {w : Thread} (hp : k'.linked.Perm k.linked) (hw : SameWaits k k')
    (hs : k'.sched = schedEnqueue w k.sched) (hq : w ∉ queued k.sched) (hi : w ≠ k.idle) : Ready k' := by
  refine h.of_linked hw ?_ (hp.nodup_iff.mpr h.nodup) fun t ht => .inl (hp.mem_iff.mp ht)
  rw [hs]
  exact h.queues.schedEnqueue hq hi

theorem Ready.wakeWaiter (h : Ready k) {w : Thread} (hw : w ∈ k.mutexHead) :
    Ready (wakeWaiter w k) := by
  have hin : w ∈ k.mutexHead ++ k.condHead := List.mem_append_left _ hw
  refine h.moved (linked_wakeWaiter hw) ⟨rfl, rfl, rfl, rfl, rfl, rfl, rfl⟩ rfl ?_ ?_
  · exact fun hq => (List.nodup_append.mp h.nodup).2.2 w hq w hin rfl
  · rintro rfl
    exact h.idle (List.mem_append_right _ hin)

theorem Ready.wakeOther (h : Ready k) {w : Thread} (hw : w ∈ k.condHead) :
    Ready (Kernel.enqueue w { k with condHead := k.condHead.erase w }) := by
  have hin : w ∈ k.mutexHead ++ k.condHead := List.mem_append_right _ hw
  refine h.moved (linked_wakeOther hw) ⟨rfl, rfl, rfl, rfl, rfl, rfl, rfl⟩ rfl ?_ ?_
  · exact fun hq => (List.nodup_append.mp h.nodup).2.2 w hq w hin rfl
  · rintro rfl
    exact h.idle (List.mem_append_right _ hin)

theorem mem_of_findFirstBlockingThread {m : Ptr} {w : Thread}
    (h : findFirstBlockingThread m k = some w) : w ∈ k.mutexHead ∧ k.tiPrivate w = m :=
  ⟨List.mem_of_find?_eq_some h, by simpa using List.find?_some h⟩

/-- The end of the unlock keeps the running thread out of the lists. -/
theorem Placed.reschedule {w : Option Thread} (h : Placed k) (hi : k.current ≠ k.idle)
    (he : reschedule w k = some k') : Placed k' := by
  unfold Kernel.reschedule at he
  split at he
  · exact h.toReady.elect he
  · cases w with
    | none => cases he; exact h
    | some w =>
      dsimp only at he
      split at he
      · exact h.giveWay hi he
      · cases he; exact h

/-- A thread that has blocked is not let go on. -/
theorem Ready.reschedule {w : Option Thread} (h : Ready k)
    (hb : (k.sched.info k.current).tiState = .blocked) (he : reschedule w k = some k') : Placed k' := by
  unfold Kernel.reschedule at he
  rw [if_pos hb] at he
  exact h.elect he

theorem Placed.wakeWaiter (h : Placed k) {w : Thread} (hw : w ∈ k.mutexHead) : Placed (wakeWaiter w k) :=
  ⟨h.toReady.wakeWaiter hw, fun hm => h.current ((linked_wakeWaiter hw).mem_iff.mp hm), h.awake⟩

theorem Placed.wakeOther (h : Placed k) {w : Thread} (hw : w ∈ k.condHead) :
    Placed (Kernel.enqueue w { k with condHead := k.condHead.erase w }) :=
  ⟨h.toReady.wakeOther hw, fun hm => h.current ((linked_wakeOther hw).mem_iff.mp hm), h.awake⟩

theorem Placed.sysPthreadMutexUnlock {m : Ptr} (h : Placed k) (hi : k.current ≠ k.idle)
    (he : sysPthreadMutexUnlock m k = some k') : Placed k' := by
  have h' := h.addVal m (-1)
  rcases sysPthreadMutexUnlock_cases he with ⟨-, rfl⟩ | ⟨-, hr⟩ | ⟨w, -, hf, hr⟩
  · exact h'
  · exact h'.reschedule hi hr
  · exact (h'.wakeWaiter (mem_of_findFirstBlockingThread hf).1).reschedule hi hr

theorem linked_blockOnCond (c m : Ptr) (k : System) :
    (blockOnCond c m k).linked.Perm (k.current :: k.linked) := by
  show (queued k.sched ++ (k.mutexHead ++ (k.condHead ++ [k.current]))).Perm _
  rw [← List.append_assoc k.mutexHead, ← List.append_assoc (queued k.sched)]
  exact List.perm_append_singleton _ _

theorem Placed.ready_blockOnCond (h : Placed k) (hi : k.current ≠ k.idle) (c m : Ptr) :
    Ready (blockOnCond c m k) := by
  have hk := (h.setKont hi (.condLock m)).toReady
  refine hk.of_linked ⟨rfl, rfl, rfl, rfl, rfl, rfl, rfl⟩ ?_ ?_ fun t ht => ?_
  · exact h.queues.setState _ _
  · exact (linked_blockOnCond c m k).nodup_iff.mpr (List.nodup_cons.mpr ⟨h.current, h.nodup⟩)
  · rcases List.mem_cons.mp ((linked_blockOnCond c m k).mem_iff.mp ht) with rfl | ht
    · exact .inr ⟨hi, h.awake⟩
    · exact .inl ht

/-- The node of the running thread is not on the list of the mutexes, so its new
`ti_private` changes nothing there. -/
theorem tiPrivate_blockOnCond (h : Placed k) (c m : Ptr) {w : Thread} (hw : w ∈ k.mutexHead) :
    w ≠ k.current ∧ (blockOnCond c m k).tiPrivate w = k.tiPrivate w := by
  have hne : w ≠ k.current := by
    rintro rfl
    exact h.current (List.mem_append_right _ (List.mem_append_left _ hw))
  refine ⟨hne, ?_⟩
  show Function.update k.tiPrivate k.current c w = _
  simp [hne]

theorem findFirst_blockOnCond (h : Placed k) (c m : Ptr) :
    findFirstBlockingThread m (blockOnCond c m k) = findFirstBlockingThread m k := by
  refine List.find?_congr fun w hw => ?_
  rw [(tiPrivate_blockOnCond h c m hw).2]

/-- The unlock in `sys_pthread_cond_wait` elects, unless it complains. -/
theorem Placed.sysPthreadCondWait {c m : Ptr} (h : Placed k) (hi : k.current ≠ k.idle)
    (hno : ¬ noBlockingThreads m k) (he : sysPthreadCondWait c m k = some k') : Placed k' := by
  have hc := h.ready_blockOnCond hi c m
  have hadd : Ready (Kernel.addVal m (-1) (blockOnCond c m k)) :=
    hc.of_linked ⟨rfl, rfl, rfl, rfl, rfl, rfl, rfl⟩ hc.queues hc.nodup fun t ht => .inl ht
  have hblocked : ((blockOnCond c m k).sched.info k.current).tiState = .blocked :=
    tiState_setState_self _ _ _
  rcases sysPthreadMutexUnlock_cases he with ⟨hn, -⟩ | ⟨-, hr⟩ | ⟨w, -, hf, hr⟩
  · exact absurd ⟨hn.1, findFirst_blockOnCond h c m ▸ hn.2⟩ hno
  · exact hadd.reschedule hblocked hr
  · have hw := (mem_of_findFirstBlockingThread hf).1
    refine (hadd.wakeWaiter hw).reschedule ?_ hr
    -- the waiter is relabelled, and it is another thread
    have hne : k.current ≠ w := (tiPrivate_blockOnCond h c m hw).1.symm
    exact (tiState_setState_of_ne _ _ _ _ hne).trans hblocked

theorem Placed.sysPthreadCondSignal {c : Ptr} (h : Placed k) (hi : k.current ≠ k.idle)
    (he : sysPthreadCondSignal c k = some k') : Placed k' := by
  unfold Kernel.sysPthreadCondSignal at he
  cases hf : findOtherThread c k with
  | none => rw [hf] at he; cases he; exact h
  | some w =>
    rw [hf] at he
    have hw := h.wakeOther (List.mem_of_find?_eq_some hf)
    dsimp only at he
    split at he
    · exact hw.giveWay hi he
    · cases he; exact hw

/-! ### Threads -/

theorem life_threadCreate_of_ne {t u : Thread} (h : u ≠ t) : (threadCreate t k).life u = k.life u := by
  simp [threadCreate, h]

/-- A join of a live thread is one from before the creation. -/
theorem joining_threadCreate {t o j : Thread} (hj : (threadCreate t k).tiJoining o = some j)
    (ho : (threadCreate t k).life o = .live) : k.tiJoining o = some j ∧ k.life o = .live := by
  have hot : o ≠ t := by
    rintro rfl
    simp [threadCreate] at hj
  refine ⟨?_, life_threadCreate_of_ne hot ▸ ho⟩
  simpa [threadCreate, hot] using hj

/-- Nothing else will wake the new thread, and nothing new waits. -/
theorem off_threadCreate {t u : Thread} (hk : KontOk k) (ht : k.life t ≠ .live)
    (hu : Off (threadCreate t k) u) : Off k u ∧ u ≠ t := by
  have hkont : k.kont t = .user := hk.dead t ht
  rcases hu with hu | ⟨o, hj, ho⟩ | ⟨hr, hu⟩ | hu
  · refine ⟨.inl hu, fun hut => ?_⟩
    have htimer := hk.timers u hu
    rw [hut, hkont] at htimer
    cases htimer
  · obtain ⟨hj, ho⟩ := joining_threadCreate hj ho
    refine ⟨.inr (.inl ⟨o, hj, ho⟩), fun hut => ?_⟩
    have hret := hk.joins o u hj ho
    rw [hut, hkont] at hret
    cases hret
  · refine ⟨.inr (.inr (.inl ⟨hr, hu⟩)), fun hut => ht ?_⟩
    rw [← hut, hu]
    exact (hk.softirqd hr).2
  · have hut : u ≠ t := by
      rintro rfl
      exact hu (by simp [threadCreate])
    exact ⟨.inr (.inr (.inr (life_threadCreate_of_ne hut ▸ hu))), hut⟩

theorem KontOk.threadCreate {t : Thread} (hk : KontOk k) (ht : k.life t ≠ .live) :
    KontOk (threadCreate t k) := by
  refine ⟨hk.timers, hk.once, fun o j hj ho => ?_, fun hr => ⟨(hk.softirqd hr).1, ?_⟩, fun u hu => ?_,
    hk.idle.1, ?_⟩
  · obtain ⟨hj, ho⟩ := joining_threadCreate hj ho
    exact hk.joins o j hj ho
  · refine (life_threadCreate_of_ne ?_).trans (hk.softirqd hr).2
    intro he
    exact ht (he ▸ (hk.softirqd hr).2)
  · have hut := (off_threadCreate hk ht (.inr (.inr (.inr hu)))).2
    exact hk.dead u (life_threadCreate_of_ne hut ▸ hu)
  · refine (life_threadCreate_of_ne ?_).trans hk.idle.2
    intro he
    have hlive := hk.idle.2
    rw [show k.idle = t from he] at hlive
    exact ht hlive

theorem Placed.sysPthreadCreate {t : Thread} (h : Placed k) (hfree : k.life t = .free) :
    Placed (Kernel.enqueue t (threadCreate t k)) := by
  have hdead : k.life t ≠ .live := by rw [hfree]; decide
  have hoff := fun u hu => @off_threadCreate k t u h.konts hdead hu
  obtain ⟨hnl, hni⟩ := h.off t (.inr (.inr (.inr hdead)))
  have hplaced : Placed (threadCreate t k) :=
    ⟨⟨⟨h.queues.marksActive, h.queues.marksExpire, h.queues.nodup, h.queues.idle⟩, h.nodup, h.idle,
      fun u hu => h.off u (hoff u hu).1, h.konts.threadCreate hdead⟩, h.current,
      fun hc => h.awake (hoff _ hc).1⟩
  refine hplaced.enqueue hnl hni (fun ht => (hoff t ht).2 rfl) fun hc => ?_
  have hcur : t = k.current := hc
  exact h.awake (hcur ▸ .inr (.inr (.inr hdead)))

/-! ### Exit and join -/

/-- The continuation of a thread outside the lists says what it waits for. -/
theorem KontOk.of_off {t : Thread} (hk : KontOk k) (h : Off k t) :
    match k.kont t with
    | .timerFree => t ∈ k.timers
    | .joinRet o => k.tiJoining o = some t ∧ k.life o = .live
    | .user => (k.softirqRun = false ∧ t = k.threadSoftirqd) ∨ k.life t ≠ .live
    | _ => False := by
  rcases h with h | ⟨o, hj, ho⟩ | ⟨hr, rfl⟩ | h
  · rw [hk.timers t h]; exact h
  · rw [hk.joins o t hj ho]; exact ⟨hj, ho⟩
  · rw [(hk.softirqd hr).1]; exact .inl ⟨hr, rfl⟩
  · rw [hk.dead t h]; exact .inr h

/-- The running thread is not live any more; what waited for it need not wait. -/
theorem Placed.die (h : Placed k) (hi : k.current ≠ k.idle) (hmode : k.threadMode) {x : Life}
    (hx : x ≠ .live) : Ready { k with life := Function.update k.life k.current x } := by
  set k1 : System := { k with life := Function.update k.life k.current x }
  have hlive : ∀ u, k1.life u = .live → k.life u = .live := by
    intro u hu
    by_cases huc : u = k.current
    · subst huc
      simp [k1] at hu
      exact absurd hu hx
    · simpa [k1, huc] using hu
  have hother : ∀ u, u ≠ k.current → k1.life u = k.life u := by
    intro u hu
    simp [k1, hu]
  have hoff : ∀ u, Off k1 u → Off k u ∨ u = k.current := by
    rintro u (hu | ⟨o, hj, ho⟩ | hu | hu)
    · exact .inl (.inl hu)
    · exact .inl (.inr (.inl ⟨o, hj, hlive o ho⟩))
    · exact .inl (.inr (.inr (.inl hu)))
    · by_cases huc : u = k.current
      · exact .inr huc
      · exact .inl (.inr (.inr (.inr (hother u huc ▸ hu))))
  refine ⟨h.queues, h.nodup, h.idle, fun u hu => ?_, ?_⟩
  · rcases hoff u hu with hu | rfl
    · exact h.off u hu
    · exact ⟨h.current, hi⟩
  · refine ⟨h.konts.timers, h.konts.once, fun o j hj ho => h.konts.joins o j hj (hlive o ho),
      fun hr => ⟨(h.konts.softirqd hr).1, ?_⟩, fun u hu => ?_, h.konts.idle.1, ?_⟩
    · refine (hother _ ?_).trans (h.konts.softirqd hr).2
      intro he
      exact h.awake (.inr (.inr (.inl ⟨hr, he.symm⟩)))
    · by_cases huc : u = k.current
      · rw [huc]; exact hmode
      · exact h.konts.dead u (hother u huc ▸ hu)
    · exact (hother _ hi.symm).trans h.konts.idle.2

theorem Placed.live (h : Placed k) : k.life k.current = .live :=
  by_contra fun hd => h.awake (.inr (.inr (.inr hd)))

theorem Placed.sysPthreadExit (h : Placed k) (hi : k.current ≠ k.idle) (hmode : k.threadMode)
    (he : sysPthreadExit k = some k') : Placed k' := by
  suffices hr : Ready (exitThread k) from hr.elected (fun hf => by cases hf) he
  unfold exitThread
  split
  · have hd := h.die hi hmode (x := .exited) (by decide)
    dsimp only
    cases hj : k.tiJoining k.current with
    | none => exact hd.of_linked ⟨rfl, rfl, rfl, rfl, rfl, rfl, rfl⟩ hd.queues hd.nodup fun t ht => .inl ht
    | some j =>
      -- the joining thread waited for this exit and for nothing else
      have hoffj : Off k j := .inr (.inl ⟨_, hj, h.live⟩)
      have hkont := h.konts.joins _ j hj h.live
      obtain ⟨hnl, hni⟩ := h.off j hoffj
      refine hd.enqueue hnl hni fun hoff => ?_
      have hwait := hd.konts.of_off hoff
      simp [hkont] at hwait
  · exact h.die hi hmode (by decide)

/-- The running thread starts to wait outside the lists. -/
theorem Placed.sleep (h : Placed k) (hi : k.current ≠ k.idle) {k1 : System} (hs : k1.sched = k.sched)
    (hl : k1.linked = k.linked) (hoff : ∀ u, Off k1 u → Off k u ∨ u = k.current) (hk : KontOk k1) :
    Ready k1 := by
  have hidle : k1.idle = k.idle := congrArg State.threadIdle hs
  refine ⟨hs ▸ h.queues, hl ▸ h.nodup, by rw [hidle, hl]; exact h.idle, fun u hu => ?_, hk⟩
  rw [hl, hidle]
  rcases hoff u hu with hu | rfl
  · exact h.off u hu
  · exact ⟨h.current, hi⟩

theorem Placed.sysPthreadJoin {other : Thread} (h : Placed k) (hi : k.current ≠ k.idle)
    (he : sysPthreadJoin other k = some k') : Placed k' := by
  unfold Kernel.sysPthreadJoin at he
  split at he
  · cases he; exact h
  · split at he
    · cases he; exact h
    · split at he
      · cases he; exact h
      · split at he
        · cases he; exact h
        · refine Ready.elect ?_ he
          refine h.sleep hi rfl rfl ?_ ?_
          · rintro u (hu | ⟨o, hj, ho⟩ | hu | hu)
            · exact .inl (.inl hu)
            · by_cases hoo : o = other
              · subst hoo
                right
                have hj' : Function.update k.tiJoining o (some k.current) o = some u := hj
                simpa using hj'.symm
              · have hj' : Function.update k.tiJoining other (some k.current) o = some u := hj
                exact .inl (.inr (.inl ⟨o, by simpa [hoo] using hj', ho⟩))
            · exact .inl (.inr (.inr (.inl hu)))
            · exact .inl (.inr (.inr (.inr hu)))
          · have hk := h.konts.setKont h.awake hi (.joinRet other)
            refine ⟨hk.timers, hk.once, fun o j hj ho => ?_, hk.softirqd, hk.dead, hk.idle⟩
            have hj' : Function.update k.tiJoining other (some k.current) o = some j := hj
            by_cases hoo : o = other
            · subst hoo
              have hjc : j = k.current := by simpa using hj'.symm
              rw [hjc]
              simp [Kernel.setKont]
            · exact hk.joins o j (show k.tiJoining o = some j by simpa [hoo] using hj') ho

theorem Placed.sysMsleep {alloc : Bool} {msec : ℕ} (h : Placed k) (hi : k.current ≠ k.idle)
    (he : sysMsleep alloc msec k = some k') : Placed k' := by
  unfold Kernel.sysMsleep at he
  split at he
  · cases he; exact h
  · split at he
    · cases he
    · refine Ready.elect ?_ he
      refine h.sleep hi rfl rfl ?_ ?_
      · rintro u (hu | hu)
        · rcases List.mem_cons.mp hu with rfl | hu
          · exact .inr rfl
          · exact .inl (.inl hu)
        · exact .inl (.inr hu)
      · have hk := h.konts.setKont h.awake hi .timerFree
        refine ⟨fun t ht => ?_, ?_, hk.joins, hk.softirqd, hk.dead, hk.idle⟩
        · rcases List.mem_cons.mp ht with rfl | ht
          · simp [Kernel.setKont]
          · exact hk.timers t ht
        · exact List.nodup_cons.mpr ⟨fun hm => h.awake (.inl hm), h.konts.once⟩

theorem Placed.serialcharRead {count : ℕ} (h : Placed k) (hi : k.current ≠ k.idle)
    (he : serialcharRead count k = some k') : Placed k' := by
  unfold Kernel.serialcharRead at he
  split at he
  · exact (h.setKont hi (.serialRead count)).toReady.elect he
  · split at he
    · cases he
      have hrx : Placed (stm32Getc k) := h.same ⟨rfl, rfl, rfl, rfl, rfl, rfl, rfl⟩ rfl rfl
      exact hrx.setKont hi .user
    · cases he

/-! ### Wake-ups -/

/-- A thread that waits outside the lists waits no more. -/
theorem Placed.wake {t : Thread} {k1 : System} (h : Placed k) (hk : KontOk k1) (ht : Off k t)
    (hs : k1.sched = k.sched) (hl : k1.linked = k.linked) (hoff : ∀ u, Off k1 u → Off k u)
    (hno : ¬ Off k1 t) : Placed (Kernel.enqueue t k1) := by
  have hidle : k1.idle = k.idle := congrArg State.threadIdle hs
  have hcur : k1.current = k.current := congrArg State.current hs
  obtain ⟨hnl, hni⟩ := h.off t ht
  have hplaced : Placed k1 := by
    refine ⟨⟨hs ▸ h.queues, hl ▸ h.nodup, by rw [hidle, hl]; exact h.idle, fun u hu => ?_, hk⟩, ?_, ?_⟩
    · rw [hl, hidle]
      exact h.off u (hoff u hu)
    · rw [hcur, hl]
      exact h.current
    · rw [hcur]
      exact fun hc => h.awake (hoff _ hc)
  refine hplaced.enqueue (hl ▸ hnl) (hidle ▸ hni) hno ?_
  rintro rfl
  exact h.awake (hcur ▸ ht)

theorem Placed.timerExpire {t : Thread} (h : Placed k) (he : timerExpire t k = some k') :
    Placed k' := by
  unfold Kernel.timerExpire at he
  split at he
  · rename_i hcontains
    have ht : t ∈ k.timers := by simpa using hcontains
    cases he
    have hk : KontOk { k with timers := k.timers.erase t } :=
      ⟨fun u hu => h.konts.timers u (List.mem_of_mem_erase hu), h.konts.once.erase t, h.konts.joins,
        h.konts.softirqd, h.konts.dead, h.konts.idle⟩
    refine h.wake hk (.inl ht) rfl rfl (fun u hu => hu.imp_left List.mem_of_mem_erase) fun hoff => ?_
    have hwait := hk.of_off hoff
    simp only [h.konts.timers t ht] at hwait
    exact h.konts.once.not_mem_erase hwait
  · cases he

theorem Placed.raiseSoftirq (h : Placed k) (nr : ℕ) : Placed (raiseSoftirq nr k) := by
  unfold Kernel.raiseSoftirq
  split
  · exact h
  · split
    · rename_i hr
      obtain ⟨hkont, hlive⟩ := h.konts.softirqd hr
      have hself : Off k k.threadSoftirqd := .inr (.inr (.inl ⟨hr, rfl⟩))
      have hk : KontOk { k with softirqRun := true } :=
        ⟨h.konts.timers, h.konts.once, h.konts.joins, (fun hr' => by cases hr'), h.konts.dead,
          h.konts.idle⟩
      refine h.wake hk hself rfl rfl (fun u hu => ?_) fun hoff => ?_
      · rcases hu with hu | hu | ⟨hr', -⟩ | hu
        · exact .inl hu
        · exact .inr (.inl hu)
        · cases hr'
        · exact .inr (.inr (.inr hu))
      · have hwait := hk.of_off hoff
        simp [hkont, hlive] at hwait
    · exact h

/-- A received character may wake a thread that waits in `serialchar_read`. -/
theorem Placed.uartIsr (h : Placed k) (ho : ∀ o, k.serialOwner = some o →
      (∃ n, k.kont o = .serialRead n) ∧ o ∉ k.linked ∧ o ≠ k.current) : Placed (uartIsr k) := by
  have hrx : Placed (received k) := h.same ⟨rfl, rfl, rfl, rfl, rfl, rfl, rfl⟩ rfl rfl
  unfold Kernel.uartIsr
  cases hs : k.serialOwner with
  | none => exact hrx
  | some o =>
    obtain ⟨⟨n, hkont⟩, hnl, hc⟩ := ho o hs
    have hni : o ≠ k.idle := by
      rintro rfl
      rw [h.konts.idle.1] at hkont
      cases hkont
    refine hrx.enqueue hnl hni (fun hoff => ?_) hc
    have hwait := h.konts.of_off hoff
    simp [hkont] at hwait

end

/-! ## Every entry -/

/-- A received character finds the owner of the device in `serialchar_read`, and
not woken yet; the unlock in `sys_pthread_cond_wait` does not complain;
`softirqd` stays in its loop. -/
def Safe (k : System) : Entry → Prop
  | .uart => ∀ o, k.serialOwner = some o →
      (∃ n, k.kont o = .serialRead n) ∧ o ∉ k.linked ∧ o ≠ k.current
  | .svc (.condWait _ m) => ¬ noBlockingThreads m k
  | .softirqdLeave => False
  | _ => True

section

variable {k k' : System}

theorem Placed.syscall {c : Syscall} (h : Placed k) (hsafe : Safe k (.svc c)) (hmode : k.threadMode)
    (hi : k.current ≠ k.idle) (hpage : validPage k c = true) (he : syscall k c = some k') :
    Placed k' := by
  cases c with
  | yield => exact h.giveWay hi he
  | create page =>
    cases page with
    | none => cases he; exact h
    | some t => cases he; exact h.sysPthreadCreate (of_decide_eq_true hpage)
  | exit => exact h.sysPthreadExit hi hmode he
  | join other => exact h.sysPthreadJoin hi he
  | detach other =>
    simp only [Kernel.syscall, sysPthreadDetach] at he
    split at he
    · cases he; exact h.same ⟨rfl, rfl, rfl, rfl, rfl, rfl, rfl⟩ rfl rfl
    · cases he
  | mutexLock m => exact h.sysPthreadMutexLock hi he
  | mutexUnlock m => exact h.sysPthreadMutexUnlock hi he
  | condWait c m => exact h.sysPthreadCondWait hi hsafe he
  | condSignal c => exact h.sysPthreadCondSignal hi he
  | msleep alloc msec => exact h.sysMsleep hi he
  | serialOpen => cases he; exact h.same ⟨rfl, rfl, rfl, rfl, rfl, rfl, rfl⟩ rfl rfl
  | serialRead count => exact h.serialcharRead hi he

theorem Placed.resume (h : Placed k) (he : resume k = some k') : Placed k' := by
  have hi : k.kont k.current ≠ .user → k.current ≠ k.idle := by
    intro hk hc
    rw [hc, h.konts.idle.1] at hk
    exact hk rfl
  unfold Kernel.resume at he
  cases hk : k.kont k.current with
  | user => rw [hk] at he; cases he
  | condLock m =>
    have hi := hi (by rw [hk]; simp)
    rw [hk] at he
    exact (h.setKont hi .user).sysPthreadMutexLock hi he
  | serialRead n =>
    rw [hk] at he
    exact h.serialcharRead (hi (by rw [hk]; simp)) he
  | timerFree =>
    rw [hk] at he
    cases he
    exact h.setKont (hi (by rw [hk]; simp)) .user
  | joinRet o =>
    rw [hk] at he
    cases he
    exact h.setKont (hi (by rw [hk]; simp)) .user

/-- **Step lemma.** A safe entry keeps every thread in its place. -/
theorem step_placed (k : System) (e : Entry) (k' : System) (h : Placed k) (hsafe : Safe k e)
    (he : step k e = some k') : Placed k' := by
  cases e with
  | svc c =>
    simp only [step, Option.ite_none_right_eq_some] at he
    obtain ⟨⟨hmode, hi, hpage⟩, he⟩ := he
    exact h.syscall hsafe hmode hi hpage he
  | resume => exact h.resume he
  | pendsv =>
    simp only [step, Option.ite_none_right_eq_some] at he
    exact h.toReady.elected (fun _ => ⟨h.current, h.awake⟩) he.2
  | softirqdLeave => exact absurd hsafe id
  | raiseSoftirq nr => cases he; exact h.raiseSoftirq nr
  | timerExpire t => exact h.timerExpire he
  | uart => cases he; exact h.uartIsr hsafe

end

theorem placed_start (b : Threads) (val : Ptr → ℤ) : Placed (start b val) := by
  have hd := b.distinct
  simp only [List.nodup_cons, List.mem_cons, not_or, List.not_mem_nil, not_false_eq_true,
    List.nodup_nil, and_true] at hd
  obtain ⟨⟨him, his⟩, hms⟩ := hd
  have hlinked : (start b val).linked = [] := by
    simp [System.linked, start, queued, threadSetPriority, boot]
  have hlive : ∀ t, t = b.idle ∨ t = b.main ∨ t = b.softirqd → (start b val).life t = .live :=
    fun t ht => if_pos ht
  have hl := linked_boot b.idle b.main
  refine ⟨⟨⟨hl.marksActive, hl.marksExpire, hl.nodup, hl.idle⟩, by rw [hlinked]; simp,
    by rw [hlinked]; simp, fun t ht => ⟨by rw [hlinked]; simp, ?_⟩, ?_⟩, by rw [hlinked]; simp, ?_⟩
  · rintro rfl
    rcases ht with ht | ⟨o, ho, -⟩ | ⟨-, ht⟩ | ht
    · cases ht
    · cases ho
    · exact his ht
    · exact ht (hlive _ (.inl rfl))
  · refine ⟨fun t ht => (by cases ht), List.nodup_nil, fun o j hj => (by cases hj), fun _ => ⟨rfl, ?_⟩,
      fun _ _ => rfl, rfl, hlive _ (.inl rfl)⟩
    exact hlive _ (.inr (.inr rfl))
  · rintro (ht | ⟨o, ho, -⟩ | ⟨-, ht⟩ | ht)
    · cases ht
    · cases ho
    · exact hms ht
    · exact ht (hlive _ (.inr (.inl rfl)))

/-! ## Every run -/

/-- The threads of the runs below. -/
def threads : Threads := ⟨0, 1, 2, by decide⟩

end PikoRT.Sync.Place

import PikoRT.Sched.Agreement
import PikoRT.Sched.Links

/-! # Bits and queues in memory

What `Agreement` says of the lists of threads, for the nodes: a bit is set exactly when the
list of its head is not empty. On the nodes a call may also come where no list says what it
does: `list_add_tail` of a node that is linked takes the node away from its neighbours, which
still point to it. `thread_yield` and the end of a time slice do so when the running thread
waits in a queue already. -/
namespace PikoRT.Sched.LinkedBits
open PikoRT.Lib.Run PikoRT.Lib.Rings PikoRT.Kernel.Bitops PikoRT.Kernel.LinuxList PikoRT.Kernel.ListFamily
open PikoRT.Sched.Model (Thread Op SchedOpt queued)
open PikoRT.Sched.RunQueue (Linked Agree)
open PikoRT.Sched.Links

/-- The representation invariant, and what it is for. -/
structure InOrder (m : State) : Prop where
  bits : ∀ bm p, (m.map bm).getLsbD (p : Fin 32) = true ↔ listEmpty (.head (bm, p)) m.links = false
  active : findNextThread m.active m ≠ none
  expire : findNextThread m.expire m ≠ none

/-! ## The condition -/

/-- The node of the thread is linked: it is reached from a head. -/
def Waits (t : Thread) (m : State) : Prop := ∃ h n, m.links.next^[n] (.head h) = .item t

/-- The thread is the only one in the queue. -/
def Alone (t : Thread) (h : Head) (m : State) : Prop :=
  m.links.next (.head h) = .item t ∧ m.links.next (.item t) = .head h

/-- All queues of the array are empty. -/
def Dry (bm : Var) (m : State) : Prop := ∀ p, listEmpty (.head (bm, p)) m.links = true

instance (bm : Var) (m : State) : Decidable (Dry bm m) :=
  inferInstanceAs (Decidable (∀ p : Fin 32, listEmpty (.head (bm, p)) m.links = true))

/-- The array from which an election takes its thread. -/
def nowActive (m : State) : Var := if Dry m.active m then m.expire else m.active

/-- The first thread of the least level of the array that is not empty. -/
def First (bm : Var) (t : Thread) (m : State) : Prop :=
  ∃ p, m.links.next (.head (bm, p)) = .item t ∧ ∀ r < p, listEmpty (.head (bm, r)) m.links = true

/-- The thread that an election takes, when it is alone in its queue, still has the priority
of that queue. -/
def TakesOwnBit (m : State) : Prop :=
  ∀ t, First (nowActive m) t m → ∀ p, Alone t (nowActive m, p) m → (m.info t).tiPriority = p

/-- A thread that a dequeue unlinks, when it is alone in its queue, has the priority of that
queue and the label of the array. -/
def DropsOwnBit (t : Thread) (m : State) : Prop :=
  t ≠ m.current →
    ((m.info t).tiState = m.stateMap.actived →
      (∀ p, Alone t (m.active, p) m → (m.info t).tiPriority = p) ∧ ∀ p, ¬ Alone t (m.expire, p) m) ∧
    ((m.info t).tiState ≠ m.stateMap.actived → (m.info t).tiState = m.stateMap.expired →
      (∀ p, ¬ Alone t (m.active, p) m) ∧ ∀ p, Alone t (m.expire, p) m → (m.info t).tiPriority = p)

def OwnBit (m : State) : Op → Prop
  | .enqueue _ => True
  | .dequeue t => DropsOwnBit t m
  | .elect _ => TakesOwnBit m
  | .yield => TakesOwnBit (schedEnqueue m.current m)
  | .setPriority _ _ => True

/-- No call links a node that is linked or unlinks one that is not, and the idle thread is not
added to the run queue. -/
def Orderly (m : State) : Op → Prop
  | .enqueue t => ¬ Waits t m ∧ t ≠ m.threadIdle
  | .dequeue t =>
    t ≠ m.current → (m.info t).tiState = m.stateMap.actived ∨ (m.info t).tiState = m.stateMap.expired → Waits t m
  | .elect flags => flags = .tick → ¬ Waits m.current m
  | .yield => ¬ Waits m.current m ∧ m.current ≠ m.threadIdle
  | .setPriority _ _ => True

/-! ## What the lists say -/

section

variable {m m' : State} {s : Model.State} {t : Thread} {h : Head} {p : Fin 32} {op : Op}

theorem waits_iff (hr : Represents m s) : Waits t m ↔ t ∈ queued s := by
  rw [mem_queued_iff m.active]
  refine exists_congr fun h => ?_
  rw [← (hr.lists.ring h (Set.mem_univ h)).mem_iff_reached]
  refine ⟨fun hm => ?_, fun hm => List.mem_cons_of_mem _ (mem_nodes.mpr hm)⟩
  rcases List.mem_cons.mp hm with hm | hm
  · cases hm
  · exact mem_nodes.mp hm

theorem empty_iff (hr : Represents m s) (h : Head) : listEmpty (.head h) m.links = true ↔ queues m.active s h = [] :=
  hr.lists.listEmpty (Set.mem_univ h)

theorem first_iff (hr : Represents m s) : m.links.next (.head h) = .item t ↔ ∃ ts, queues m.active s h = t :: ts := by
  rw [hr.lists.next_head (Set.mem_univ h)]
  cases queues m.active s h with
  | nil => simp [first]
  | cons u us => simp [first]

theorem alone_iff (hr : Represents m s) : Alone t h m ↔ queues m.active s h = [t] := by
  unfold Alone
  rw [first_iff hr]
  have hring := hr.lists.ring h (Set.mem_univ h)
  constructor
  · rintro ⟨⟨ts, hq⟩, hnext⟩
    rw [hq] at hring ⊢
    rw [hring.path.2.next_eq] at hnext
    cases ts with
    | nil => rfl
    | cons u us => cases hnext
  · intro hq
    rw [hq] at hring
    exact ⟨⟨[], hq⟩, hring.path.2.1⟩

/-- The queues of an array, by its name. -/
theorem forall_active_expire (hr : Represents m s) {P : Var → Prop} : (∀ bm, P bm) ↔ P m.active ∧ P m.expire := by
  refine ⟨fun hall => ⟨hall _, hall _⟩, fun hboth bm => ?_⟩
  by_cases hb : bm = m.active
  · exact hb ▸ hboth.1
  · exact (hr.eq_expire hb) ▸ hboth.2

theorem queues_expire (hr : Represents m s) (p : Fin 32) : queues m.active s (m.expire, p) = s.expire.queue p :=
  queues_other hr.apart.symm s p

theorem inOrder_iff (hr : Represents m s) : InOrder m ↔ Agreement.InOrder s := by
  have hbits : (∀ bm p, (m.map bm).getLsbD (p : Fin 32) = true ↔ listEmpty (.head (bm, p)) m.links = false) ↔
      Agree s := by
    rw [forall_active_expire hr, hr.activeMap, hr.expireMap]
    refine and_congr (forall_congr' fun p => iff_congr Iff.rfl ?_) (forall_congr' fun p => iff_congr Iff.rfl ?_)
    · rw [← Bool.not_eq_true, empty_iff hr, queues_active]
    · rw [← Bool.not_eq_true, empty_iff hr, queues_expire hr]
  constructor
  · intro h
    exact ⟨hbits.mp h.bits, hr.findActive ▸ h.active, hr.findExpire ▸ h.expire⟩
  · intro h
    exact ⟨hbits.mpr h.1, hr.findActive ▸ h.2.1, hr.findExpire ▸ h.2.2⟩

theorem dry_iff (hr : Represents m s) : Dry m.active m ↔ Kernel.Bitmap.members s.active = [] := by
  rw [Kernel.Bitmap.members_eq_nil]
  refine forall_congr' fun p => ?_
  rw [empty_iff hr, queues_active]

/-- The array whose turn it is. -/
theorem queues_nowActive (hr : Represents m s) (p : Fin 32) :
    queues m.active s (nowActive m, p) = (RunQueue.nowActive s).queue p := by
  unfold nowActive RunQueue.nowActive
  by_cases hd : Dry m.active m
  · rw [if_pos hd, if_pos ((dry_iff hr).mp hd), queues_expire hr]
  · rw [if_neg hd, if_neg (mt (dry_iff hr).mpr hd), queues_active]

theorem takesOwnBit_iff (hr : Represents m s) : TakesOwnBit m ↔ Agreement.TakesOwnBit s := by
  have hfirst : ∀ t, First (nowActive m) t m ↔ RunQueue.First (RunQueue.nowActive s) t := by
    intro t
    unfold First RunQueue.First
    refine exists_congr fun p => ?_
    rw [first_iff hr, queues_nowActive hr, ← exists_and_right]
    refine exists_congr fun ts => and_congr_right' (forall₂_congr fun r _ => ?_)
    rw [empty_iff hr, queues_nowActive hr]
  unfold TakesOwnBit Agreement.TakesOwnBit
  refine forall_congr' fun t => imp_congr (hfirst t) (forall_congr' fun p => ?_)
  rw [alone_iff hr, queues_nowActive hr, hr.info]

theorem dropsOwnBit_iff (hr : Represents m s) : DropsOwnBit t m ↔ Agreement.DropsOwnBit t s := by
  unfold DropsOwnBit Agreement.DropsOwnBit
  simp only [alone_iff hr, queues_active, queues_expire hr, hr.info, hr.stateMap, hr.current, ne_eq]

/-- The guards of a call on the lists are those of the call on the nodes. -/
theorem orderly_free (hr : Represents m s) (ho : Orderly m .yield) : s.current ∉ queued s ∧
    s.current ≠ s.threadIdle := by
  rw [← hr.current, ← hr.threadIdle]
  exact ⟨mt (waits_iff hr).mpr ho.1, ho.2⟩

theorem ownBit_iff (hr : Represents m s) (ho : Orderly m op) : OwnBit m op ↔ Agreement.OwnBit s op := by
  cases op with
  | enqueue t => exact Iff.rfl
  | dequeue t => exact dropsOwnBit_iff hr
  | elect flags => exact takesOwnBit_iff hr
  | yield =>
    have henq := hr.schedEnqueue (orderly_free hr ho).1
    rw [← hr.current] at henq
    show TakesOwnBit (Links.schedEnqueue m.current m) ↔ Agreement.TakesOwnBit (Model.schedEnqueue s.current s)
    rw [← hr.current]
    exact takesOwnBit_iff henq
  | setPriority t priority => exact Iff.rfl

/-! ## One step -/

/-- With bits and queues in agreement every orderly call on the nodes is one on the lists. -/
theorem model_step (hr : Represents m s) (ha : Agree s) (ho : Orderly m op) : ∃ u, Model.step s op = some u := by
  have helect : ∀ (flags : SchedOpt) {v : Model.State}, Agree v → ∃ u, Model.schedElect flags v = some u := by
    intro flags v hv
    obtain ⟨x, v', hx⟩ := RunQueue.chooseNext_of_agree hv
    exact ⟨_, by rw [Model.schedElect, Model.schedBitmapElect, hx]; rfl⟩
  cases op with
  | enqueue t =>
    have hguard : ¬ (t ∈ queued s ∨ t = s.threadIdle) := by
      rw [← waits_iff hr, ← hr.threadIdle]
      exact not_or.mpr ho
    exact ⟨_, if_neg hguard⟩
  | dequeue t =>
    have hguard : ¬ ((Model.schedDequeue t s).1 = 0 ∧ t ∉ queued s) := by
      rintro ⟨hz, hm⟩
      refine hm ((waits_iff hr).mp (ho ?_ ?_))
      · rintro rfl
        rcases RunQueue.schedDequeue_cases m.current s with hd | ⟨hc, -⟩ | ⟨hc, -⟩
        · rw [hd] at hz
          cases hz
        · exact hc hr.current
        · exact hc hr.current
      · rw [hr.info, hr.stateMap]
        rcases RunQueue.schedDequeue_cases t s with hd | ⟨-, hl, -⟩ | ⟨-, -, hl, -⟩
        · rw [hd] at hz
          cases hz
        · exact .inl hl
        · exact .inr hl
    exact ⟨_, if_neg hguard⟩
  | elect flags =>
    have hguard : ¬ (flags = .tick ∧ s.current ∈ queued s) := by
      rw [← hr.current, ← waits_iff hr]
      exact fun hg => ho hg.1 hg.2
    obtain ⟨u, hu⟩ := helect flags ha
    exact ⟨u, (if_neg hguard).trans hu⟩
  | yield =>
    obtain ⟨hfree, hidle⟩ := orderly_free hr ho
    obtain ⟨u, hu⟩ := helect .none (ha.schedEnqueue s.current)
    exact ⟨u, (if_neg (not_or.mpr ⟨hfree, hidle⟩)).trans hu⟩
  | setPriority t priority => exact ⟨_, rfl⟩

/-- The runs on the lists are orderly on the nodes. -/
theorem orderly_of_step {u : Model.State} (hr : Represents m s) (hu : Model.step s op = some u) : Orderly m op := by
  cases op with
  | enqueue t =>
    obtain ⟨hg, -⟩ := Option.ite_none_left_eq_some.mp hu
    obtain ⟨hfree, hidle⟩ := not_or.mp hg
    exact ⟨mt (waits_iff hr).mp hfree, hr.threadIdle ▸ hidle⟩
  | dequeue t =>
    obtain ⟨hg, -⟩ := Option.ite_none_left_eq_some.mp hu
    intro hc hl
    rw [hr.current] at hc
    rw [hr.info, hr.stateMap] at hl
    refine (waits_iff hr).mpr (by_contra fun hm => hg ⟨?_, hm⟩)
    rw [Model.schedDequeue, Model.schedBitmapDequeue]
    by_cases ha : (s.info t).tiState = s.stateMap.actived
    · rw [if_pos ha, Model.threadDequeueActive, if_neg hc]
    · rw [if_neg ha, if_pos (hl.resolve_left ha), Model.threadDequeueExpire, if_neg hc]
  | elect flags =>
    obtain ⟨hg, -⟩ := Option.ite_none_left_eq_some.mp hu
    intro htick hw
    rw [hr.current] at hw
    exact hg ⟨htick, (waits_iff hr).mp hw⟩
  | yield =>
    obtain ⟨hg, -⟩ := Option.ite_none_left_eq_some.mp hu
    obtain ⟨hfree, hidle⟩ := not_or.mp hg
    show ¬ Waits m.current m ∧ m.current ≠ m.threadIdle
    rw [hr.current, hr.threadIdle, waits_iff hr]
    exact ⟨hfree, hidle⟩
  | setPriority t priority => trivial

theorem orderly_of_run {u : Model.State} {ops : List Op} (hr : Represents m s) (hu : run Model.step s ops = some u) :
    ∀ x ∈ trace step m ops, Orderly x.pre x.act := by
  induction ops generalizing m s with
  | nil => exact fun x hx => (nomatch hx)
  | cons op ops ih =>
    obtain ⟨v, hv, hu⟩ := run_cons_some hu
    obtain ⟨n, hn, hr'⟩ := hr.step hv
    refine forall_trace_of_step (orderly_of_step hr hv) fun n' hn' => ?_
    obtain rfl : n = n' := Option.some.inj (hn.symm.trans hn')
    exact ih hr' hu

/-- The memory holds queues in agreement with their bits. -/
def Inv (m : State) : Prop := ∃ s, Represents m s ∧ Linked s ∧ Agree s

/-- **Step lemma.** An orderly call leaves bits and queues in agreement exactly when the
removal in it, if there is one, finds its own bit. -/
theorem step_inOrder_iff (h : Inv m) (ho : Orderly m op) (he : step m op = some m') : InOrder m' ↔ OwnBit m op := by
  obtain ⟨s, hr, hl, ha⟩ := h
  obtain ⟨u, hu⟩ := model_step hr ha ho
  obtain ⟨n, hn, hr'⟩ := hr.step hu
  obtain rfl : n = m' := Option.some.inj (hn.symm.trans he)
  rw [inOrder_iff hr', Agreement.inOrder_iff, ownBit_iff hr ho]
  exact Agreement.step_agree_iff hl ha hu

theorem step_inv (h : Inv m) (ho : Orderly m op) (hc : OwnBit m op) (he : step m op = some m') : Inv m' := by
  obtain ⟨s, hr, hl, ha⟩ := h
  obtain ⟨u, hu⟩ := model_step hr ha ho
  obtain ⟨n, hn, hr'⟩ := hr.step hu
  obtain rfl : n = m' := Option.some.inj (hn.symm.trans he)
  exact ⟨u, hr', RunQueue.step_linked s op u hl hu, (Agreement.step_agree_iff hl ha hu).mpr ((ownBit_iff hr ho).mp hc)⟩

end

/-! ## Every run -/

/-- **Representation invariant.** In a run of orderly calls from boot, whatever memory held
before, bits and queues agree in every state, and no list head is taken for a thread, exactly
when every removal finds the bit of the queue that it empties. -/
theorem runs_inOrder_iff (links : Memory Head Thread) (map : Var → Word) (idle main : Thread) (ops : List Op)
    (ho : ∀ x ∈ trace step (boot links map idle main) ops, Orderly x.pre x.act) :
    (∀ x ∈ trace step (boot links map idle main) ops, InOrder x.post) ↔
      ∀ x ∈ trace step (boot links map idle main) ops, OwnBit x.pre x.act :=
  trace_forall_iff_of (I := Inv) (Q := fun _ _ m => InOrder m) (S := Orderly) (C := OwnBit)
    (fun _ _ _ h ho he => step_inOrder_iff h ho he) (fun _ _ _ h ho hc he => step_inv h ho hc he)
    ⟨_, represents_boot links map idle main, RunQueue.linked_boot idle main, RunQueue.agree_boot idle main⟩ ho

theorem runs_inOrder_iff_twoThreads :
    (trace step (boot ⟨id, id⟩ (fun _ => 5) 0 1) twoThreads).length = 3 ∧
      ∀ x ∈ trace step (boot ⟨id, id⟩ (fun _ => 5) 0 1) twoThreads, InOrder x.post := by
  have hboot := represents_boot ⟨id, id⟩ (fun _ => 5) 0 1
  obtain ⟨u, hu⟩ : ∃ u, run Model.step (Model.boot 0 1) twoThreads = some u := ⟨_, rfl⟩
  refine ⟨by decide +kernel,
    (runs_inOrder_iff ⟨id, id⟩ (fun _ => 5) 0 1 twoThreads (orderly_of_run hboot hu)).mpr ?_⟩
  refine forall_trace_cons rfl trivial
    (forall_trace_cons rfl trivial (forall_trace_of_step ?_ fun _ _ _ hx => by cases hx))
  have hr : Represents (schedEnqueue 3 (schedEnqueue 2 (boot ⟨id, id⟩ (fun _ => 5) 0 1))) RunQueue.twoWaiting :=
    (hboot.schedEnqueue (by decide +kernel)).schedEnqueue (by decide +kernel)
  refine (takesOwnBit_iff hr).mpr fun x _ p hp => ?_
  have hlength : ∀ p, ((RunQueue.nowActive RunQueue.twoWaiting).queue p).length ≠ 1 := by decide +kernel
  exact absurd (by rw [hp]; rfl) (hlength p)

/-- A thread queued with the default priority gets a better one and is elected: bit 31 stays,
and the next election would take a list head for a thread. Where the running thread is in a
queue when its time slice ends, its node goes to the other array while the queue it was in
still points to it; the next election unlinks it and leaves the bit of the other array. -/
theorem bits_left_behind :
    (¬ ∀ x ∈ trace step (boot ⟨id, id⟩ (fun _ => 5) 0 1) [.enqueue 2, .setPriority 2 5, .elect .none],
      InOrder x.post) ∧
      ¬ ∀ x ∈ trace step (boot ⟨id, id⟩ (fun _ => 5) 0 1) [.enqueue 2, .enqueue 1, .elect .tick, .elect .none],
        InOrder x.post := by
  constructor
  · intro h
    have hrun : run step (boot ⟨id, id⟩ (fun _ => 5) 0 1) [.enqueue 2, .setPriority 2 5] = some _ := rfl
    have hlast := h ⟨_, _, _⟩ (mem_trace_of_run hrun (a := .elect .none) rfl)
    exact hlast.active (by decide +kernel)
  · intro h
    have hrun : run step (boot ⟨id, id⟩ (fun _ => 5) 0 1) [.enqueue 2, .enqueue 1, .elect .tick] = some _ := rfl
    have hlast := h ⟨_, _, _⟩ (mem_trace_of_run hrun (a := .elect .none) rfl)
    have hbits := hlast.bits .expire 31
    revert hbits
    decide +kernel

end PikoRT.Sched.LinkedBits

import PikoRT.Sched.Agreement

/-! # Labels along a run

A thread's label should say where it is: the two ready labels name the array
that holds it, in the meaning that `bitmap.c` gives them, and the running thread
is labelled so. An enqueue uses the meaning of `sched.c`, which is no longer the
same after an odd number of swaps; and a thread that is elected for the first
time does not pass the line of `sched_elect` that labels it. Apart from these two
the labels are kept (`runs_accurate_iff`). -/
namespace PikoRT.Sched.Labels
open PikoRT.Kernel.Bitmap PikoRT.Lib.PrioQueue PikoRT.Lib.Run
open PikoRT.Sched.Model PikoRT.Sched.RunQueue

structure Accurate (s : State) : Prop where
  active : ∀ x ∈ members s.active, (s.info x).tiState = s.stateMap.actived
  expire : ∀ x ∈ members s.expire, (s.info x).tiState = s.stateMap.expired
  current : (s.info s.current).tiState = .running

/-- `sched_dequeue` of a queued thread works on the array that holds it, and on
the bitmap of that array. -/
def DequeueHits (s : State) : Prop :=
  (∀ x ∈ members s.active, schedDequeue x s =
    (0, { s with active := bitmapQueueDel x (s.info x).tiPriority s.active })) ∧
  (∀ x ∈ members s.expire, schedDequeue x s =
    (0, { s with expire := bitmapQueueDel x (s.info x).tiPriority s.expire }))

/-- The map of `bitmap.c` after an even or an odd number of swaps. -/
def MapOk (s : State) : Prop := s.stateMap = threadSchedState ∨ s.stateMap = ⟨.ready2, .ready1⟩

section

variable {s t : State}

theorem MapOk.ne_running (h : MapOk s) :
    s.stateMap.actived ≠ .running ∧ s.stateMap.expired ≠ .running := by
  rcases h with h | h <;> rw [h] <;> decide

theorem MapOk.expired_ne (h : MapOk s) : s.stateMap.expired ≠ s.stateMap.actived := by
  rcases h with h | h <;> rw [h] <;> decide

/-- The two copies of the map agree exactly when the ready label is the same. -/
theorem MapOk.eq_iff (h : MapOk s) :
    s.stateMap = threadSchedState ↔ threadSchedState.actived = s.stateMap.actived := by
  rcases h with h | h <;> rw [h] <;> decide

theorem MapOk.swapQueues (h : MapOk s) : MapOk (swapQueues s) := by
  rcases h with h | h
  · exact .inr (by simp [Model.swapQueues, h, threadSchedState])
  · exact .inl (by simp [Model.swapQueues, h, threadSchedState])

theorem Accurate.current_notMem (hacc : Accurate s) (hm : MapOk s) : s.current ∉ queued s := by
  intro hq
  rcases List.mem_append.mp hq with ha | he
  · exact hm.ne_running.1 ((hacc.active _ ha).symm.trans hacc.current)
  · exact hm.ne_running.2 ((hacc.expire _ he).symm.trans hacc.current)

/-- Accurate labels lead `sched_dequeue` to the right array. -/
theorem Accurate.dequeueHits (hacc : Accurate s) (hm : MapOk s) (h : Linked s) : DequeueHits s := by
  have hcur := hacc.current_notMem hm
  constructor
  · intro x hx
    have hne : x ≠ s.current := by rintro rfl; exact hcur (List.mem_append_left _ hx)
    unfold schedDequeue schedBitmapDequeue threadDequeueActive
    rw [if_pos (hacc.active x hx), if_neg hne, unlink_of_not_mem (h.apart hx)]
  · intro x hx
    have hne : x ≠ s.current := by rintro rfl; exact hcur (List.mem_append_right _ hx)
    have hlab : (s.info x).tiState ≠ s.stateMap.actived := by
      rw [hacc.expire x hx]; exact hm.expired_ne
    unfold schedDequeue schedBitmapDequeue threadDequeueExpire
    rw [if_neg hlab, if_pos (hacc.expire x hx), if_neg hne,
      unlink_of_not_mem fun ha => h.apart ha hx]

end

/-! ## The condition -/

/-- An enqueue is not of the running thread and comes after an even number of
swaps; an elected thread was in `sched_elect` before, or has its label already. -/
def SafeLabel (s : State) : Op → Prop
  | .enqueue x => x ≠ s.current ∧ s.stateMap = threadSchedState
  | .dequeue _ => True
  | .elect flags => ∀ x s', Chosen s x s' →
      (flags ≠ .restoreOnly ∧ x = s.current) ∨ (s.info x).tiMach = .elect ∨
        (s.info x).tiState = .running
  | .yield => ∀ x s', Chosen (schedEnqueue s.current s) x s' →
      x = s.current ∨ (s.stateMap = threadSchedState ∧ (s.info x).tiMach = .elect)
  | .setPriority _ _ => True

/-! ## Labels through an election -/

section

variable {flags : SchedOpt} {s s' t u : State} {x y : Thread}

theorem tiState_dispatch (flags : SchedOpt) (x y : Thread) (s : State) :
    ((dispatch flags x s).info y).tiState =
      if y ∈ putBack flags s then s.stateMap.expired else (s.info y).tiState := by
  have hsw : ∀ r : State, ((switchTo x r).info y).tiState = (r.info y).tiState := by
    intro r
    unfold switchTo
    split
    · rfl
    · exact tiState_saveContext _ _ _
  unfold dispatch putBack
  split
  · rename_i hf
    simp [hf]
  · rw [hsw]
    unfold requeueCurrent
    split
    · by_cases hy : y = s.current
      · subst hy; simp
      · rw [tiState_setState_of_ne _ _ _ _ hy, if_neg (by simpa using hy)]
    · simp

/-- Switching to a thread leaves its own saved context alone. -/
theorem tiMach_dispatch (flags : SchedOpt) (x : Thread) (s : State) :
    ((dispatch flags x s).info x).tiMach = (s.info x).tiMach := by
  have hre : ((requeueCurrent flags s).info x).tiMach = (s.info x).tiMach := by
    unfold requeueCurrent
    split
    · exact tiMach_setState _ _ _ _
    · rfl
  unfold dispatch
  split
  · rfl
  · unfold switchTo
    split
    · exact hre
    · rename_i hne
      exact (tiMach_saveContext_of_ne _ _ _ hne).trans hre

theorem putBack_frame (hc : Chosen s x s') : putBack flags (takeNext x s') = putBack flags s := by
  obtain ⟨-, hcur, hidle⟩ := hc.frame
  unfold putBack
  rw [current_takeNext, threadIdle_takeNext, hcur, hidle]

theorem elected_tiState (he : Elected flags s x s' u) (y : Thread) :
    (u.info y).tiState = if y ∈ putBack flags s then s'.stateMap.expired else (s.info y).tiState := by
  rw [he.eq, tiState_dispatch, putBack_frame he.chosen, stateMap_takeNext, info_takeNext,
    he.chosen.frame.1]

theorem inElect_iff (he : Elected flags s x s' u) :
    inElect flags s u ↔ (flags ≠ .restoreOnly ∧ x = s.current) ∨ (s.info x).tiMach = .elect := by
  unfold inElect
  rw [he.current, he.eq, tiMach_dispatch, info_takeNext, he.chosen.frame.1]

/-- Every queued thread but `x` has the label of its array. -/
def LabelledBut (x : Thread) (s : State) : Prop :=
  (∀ y ∈ members s.active, y ≠ x → (s.info y).tiState = s.stateMap.actived) ∧
  (∀ y ∈ members s.expire, y ≠ x → (s.info y).tiState = s.stateMap.expired)

theorem Accurate.labelledBut (h : Accurate s) (x : Thread) : LabelledBut x s :=
  ⟨fun y hy _ => h.active y hy, fun y hy _ => h.expire y hy⟩

theorem LabelledBut.chosen (hl : LabelledBut x s) (hc : Chosen s x s') : LabelledBut x s' := by
  cases hc with
  | idle hnil => exact hl
  | active hx => exact hl
  | expire hnil hx => exact ⟨hl.2, hl.1⟩

theorem tiState_relabel_of_ne (he : Elected flags s x s' u) (hy : y ≠ x) :
    ((relabel flags s u).info y).tiState = (u.info y).tiState := by
  unfold relabel
  split
  · exact tiState_setState_of_ne _ _ _ _ (he.current ▸ hy)
  · rfl

/-- The elected thread is labelled running when it is in `sched_elect`, or when
it was labelled so before. -/
theorem tiState_relabel_current (he : Elected flags s x s' u)
    (hb : ∀ y ∈ putBack flags s, y ∉ queued s) :
    ((relabel flags s u).info x).tiState = .running ↔
      ((flags ≠ .restoreOnly ∧ x = s.current) ∨ (s.info x).tiMach = .elect) ∨
        (s.info x).tiState = .running := by
  unfold relabel
  by_cases hin : inElect flags s u
  · rw [if_pos hin, he.current, tiState_setState_self]
    exact ⟨fun _ => .inl ((inElect_iff he).mp hin), fun _ => rfl⟩
  · rw [if_neg hin, elected_tiState he, if_neg (he.notMem_putBack hb), ← inElect_iff he]
    exact ⟨.inr, fun hor => hor.resolve_left hin⟩

/-- An election keeps the labels of the threads that stay queued, and labels the
one that it puts back. -/
theorem labelled_after (he : Elected flags s x s' u) (h : Linked s)
    (hb : ∀ y ∈ putBack flags s, y ∉ queued s) (hl : LabelledBut x s) :
    (∀ y ∈ members (relabel flags s u).active,
      ((relabel flags s u).info y).tiState = (relabel flags s u).stateMap.actived) ∧
    (∀ y ∈ members (relabel flags s u).expire,
      ((relabel flags s u).info y).tiState = (relabel flags s u).stateMap.expired) := by
  obtain ⟨hact, hexp, hmap, -⟩ := queues_relabel flags s u
  have h' := he.chosen.linked h
  have hl' := hl.chosen he.chosen
  have hinfo := he.chosen.frame.1
  rw [hact, hexp, hmap, he.stateMap]
  constructor
  · intro y hy
    rw [he.active, members_takeNext h'] at hy
    obtain ⟨hne, hy⟩ := (h'.nodupActive.mem_erase_iff).mp hy
    have hout : y ∉ putBack flags s :=
      fun hp => hb y hp (he.chosen.perm.mem_iff.mp (List.mem_append_left _ hy))
    rw [tiState_relabel_of_ne he hne, elected_tiState he, if_neg hout, ← hinfo]
    exact hl'.1 y hy hne
  · intro y hy
    rcases List.mem_append.mp ((he.members_expire h).mem_iff.mp hy) with hp | hy
    · have hne : y ≠ x := by rintro rfl; exact he.notMem_putBack hb hp
      rw [tiState_relabel_of_ne he hne, elected_tiState he, if_pos hp]
    · have hne : y ≠ x := by rintro rfl; exact he.chosen.notMem_expire h hy
      have hout : y ∉ putBack flags s :=
        fun hp => hb y hp (he.chosen.perm.mem_iff.mp (List.mem_append_right _ hy))
      rw [tiState_relabel_of_ne he hne, elected_tiState he, if_neg hout, ← hinfo]
      exact hl'.2 y hy hne

end

/-! ## One step -/

section

variable {s t : State}

theorem chosen_unique {x y : Thread} {s' s'' : State} (hx : Chosen s x s') (hy : Chosen s y s'') :
    x = y := by
  have hq := hx.queues.1.trans hy.queues.1.symm
  have hnil : queued s' = [] ↔ queued s'' = [] := by
    rw [← List.perm_nil, ← List.perm_nil]
    exact ⟨fun hp => (hy.perm.trans hx.perm.symm).trans hp,
      fun hp => (hx.perm.trans hy.perm.symm).trans hp⟩
  rcases hx.first with ⟨hn, rfl⟩ | hf
  · rcases hy.first with ⟨-, rfl⟩ | hf'
    · rw [hx.frame.2.2, hy.frame.2.2]
    · exact absurd hf'.mem (by rw [(List.append_eq_nil_iff.mp (hnil.mp hn)).1]; simp)
  · rcases hy.first with ⟨hn, -⟩ | hf'
    · exact absurd hf.mem (by rw [(List.append_eq_nil_iff.mp (hnil.mpr hn)).1]; simp)
    · have hf'' : First s'.active y := by
        unfold First
        rw [hq]
        exact hf'
      exact hf.unique hf''

theorem schedElect_accurate_iff {flags : SchedOpt} (h : Linked s) (hm : MapOk s) (hacc : Accurate s)
    (ht : schedElect flags s = some t) : Accurate t ↔ SafeLabel s (.elect flags) := by
  obtain ⟨x, s', u, he, rfl⟩ := schedElect_elected h ht
  have hb : ∀ y ∈ putBack flags s, y ∉ queued s := by
    intro y hy
    unfold putBack at hy
    split at hy
    · rw [List.mem_singleton.mp hy]; exact hacc.current_notMem hm
    · cases hy
  obtain ⟨hact, hexp⟩ := labelled_after he h hb (hacc.labelledBut x)
  have hrun := tiState_relabel_current he hb
  have hcur : (relabel flags s u).current = x := (queues_relabel flags s u).2.2.2.trans he.current
  constructor
  · intro ht y s'' hy
    obtain rfl := chosen_unique he.chosen hy
    rw [← or_assoc]
    exact hrun.mp (hcur ▸ ht.current)
  · intro hs
    refine ⟨hact, hexp, ?_⟩
    rw [hcur]
    exact hrun.mpr (or_assoc.mpr (hs x s' he.chosen))

theorem tiState_schedEnqueue_of_ne {x y : Thread} (hy : y ≠ x) :
    ((schedEnqueue x s).info y).tiState = (s.info y).tiState := tiState_setState_of_ne _ _ _ _ hy

theorem tiState_schedEnqueue_self (x : Thread) (s : State) :
    ((schedEnqueue x s).info x).tiState = threadSchedState.actived := tiState_setState_self _ _ _

theorem tiMach_schedEnqueue (x y : Thread) (s : State) :
    ((schedEnqueue x s).info y).tiMach = (s.info y).tiMach := tiMach_setState _ _ _ _

theorem mem_active_schedEnqueue {x y : Thread} :
    y ∈ members (schedEnqueue x s).active ↔ y = x ∨ y ∈ members s.active := by
  rw [active_schedEnqueue, (members_bitmapEnqueue _ _ _).mem_iff, List.mem_cons]

/-- After an enqueue every other thread is labelled as before. -/
theorem labelledBut_schedEnqueue (hacc : Accurate s) (x : Thread) :
    LabelledBut x (schedEnqueue x s) := by
  refine ⟨fun y hy hne => ?_, fun y hy hne => ?_⟩
  · rw [tiState_schedEnqueue_of_ne hne]
    exact hacc.active y ((mem_active_schedEnqueue.mp hy).resolve_left hne)
  · rw [tiState_schedEnqueue_of_ne hne]
    exact hacc.expire y hy

/-- While the two maps agree, the enqueued thread is labelled right as well. -/
theorem labelled_schedEnqueue {x : Thread} (hm : MapOk s) (hacc : Accurate s) (hx : x ∉ queued s)
    (hmap : s.stateMap = threadSchedState) :
    (∀ y ∈ members (schedEnqueue x s).active,
      ((schedEnqueue x s).info y).tiState = s.stateMap.actived) ∧
    (∀ y ∈ members s.expire, ((schedEnqueue x s).info y).tiState = s.stateMap.expired) := by
  obtain ⟨hact, hexp⟩ := labelledBut_schedEnqueue hacc x
  refine ⟨fun y hy => ?_, fun y hy => ?_⟩
  · by_cases hyx : y = x
    · rw [hyx, tiState_schedEnqueue_self]
      exact hm.eq_iff.mp hmap
    · exact hact y hy hyx
  · refine hexp y hy ?_
    rintro rfl
    exact hx (List.mem_append_right _ hy)

theorem schedEnqueue_accurate_iff {x : Thread} (hm : MapOk s) (hacc : Accurate s)
    (hx : x ∉ queued s) : Accurate (schedEnqueue x s) ↔ SafeLabel s (.enqueue x) := by
  constructor
  · intro ht
    refine ⟨?_, ?_⟩
    · rintro rfl
      have hrun := ht.current
      rw [current_schedEnqueue, tiState_schedEnqueue_self] at hrun
      cases hrun
    · rw [hm.eq_iff, ← tiState_schedEnqueue_self x s]
      exact ht.active x (mem_active_schedEnqueue.mpr (.inl rfl))
  · rintro ⟨hne, hmap⟩
    obtain ⟨hact, hexp⟩ := labelled_schedEnqueue hm hacc hx hmap
    refine ⟨hact, hexp, ?_⟩
    rw [current_schedEnqueue, tiState_schedEnqueue_of_ne (Ne.symm hne)]
    exact hacc.current

/-- Right after the enqueue of the running thread the active array is not empty,
so the election of a yield does not swap. -/
theorem chosen_schedEnqueue {x y : Thread} {s' : State} (hc : Chosen (schedEnqueue x s) y s') :
    s' = schedEnqueue x s ∧ y ∈ members (schedEnqueue x s).active := by
  have hx : x ∈ members (schedEnqueue x s).active := mem_active_schedEnqueue.mpr (.inl rfl)
  cases hc with
  | idle hnil => rw [(List.append_eq_nil_iff.mp hnil).1] at hx; cases hx
  | active hy => exact ⟨rfl, hy.mem⟩
  | expire hnil _ => rw [hnil] at hx; cases hx

theorem threadYield_accurate_iff (h : Linked s) (hm : MapOk s) (hacc : Accurate s)
    (hi : s.current ≠ s.threadIdle) (ht : threadYield s = some t) :
    Accurate t ↔ SafeLabel s .yield := by
  have hcq := hacc.current_notMem hm
  have h1 := h.schedEnqueue hcq hi
  obtain ⟨x, s', u, he, rfl⟩ := schedElect_elected h1 ht
  have hback : ∀ y, y ∉ putBack .none (schedEnqueue s.current s) := by simp [putBack]
  have hb : ∀ y ∈ putBack .none (schedEnqueue s.current s), y ∉ queued (schedEnqueue s.current s) :=
    fun y hy => absurd hy (hback y)
  have hrun := tiState_relabel_current he hb
  obtain ⟨hqa, -, hqm, hqc⟩ := queues_relabel .none (schedEnqueue s.current s) u
  have hcur := hqc.trans he.current
  obtain ⟨hs', hxin⟩ := chosen_schedEnqueue he.chosen
  by_cases hx : x = s.current
  · -- the thread that yields is elected again
    refine ⟨fun _ y s'' hy => .inl ((chosen_unique he.chosen hy).symm.trans hx), fun _ => ?_⟩
    obtain ⟨hact, hexp⟩ := labelled_after he h1 hb (hx ▸ labelledBut_schedEnqueue hacc s.current)
    refine ⟨hact, hexp, ?_⟩
    rw [hcur]
    exact hrun.mpr (.inl (.inl ⟨by decide, hx⟩))
  · constructor
    · intro hacc' y s'' hy
      obtain rfl := chosen_unique he.chosen hy
      refine .inr ⟨?_, ?_⟩
      · -- the thread that yields waits in the active array now
        have hmem : s.current ∈ members (relabel .none (schedEnqueue s.current s) u).active := by
          rw [hqa, he.active, hs', members_takeNext h1, h1.nodupActive.mem_erase_iff]
          exact ⟨Ne.symm hx, mem_active_schedEnqueue.mpr (.inl rfl)⟩
        have hlab := hacc'.active _ hmem
        rw [tiState_relabel_of_ne he (Ne.symm hx), elected_tiState he, if_neg (hback _),
          tiState_schedEnqueue_self, hqm, he.stateMap, hs'] at hlab
        exact hm.eq_iff.mpr hlab
      · have hr := hrun.mp (hcur ▸ hacc'.current)
        rw [tiMach_schedEnqueue, tiState_schedEnqueue_of_ne hx] at hr
        rcases hr with (⟨-, hc⟩ | hmach) | hl
        · exact absurd hc hx
        · exact hmach
        · have hin := (mem_active_schedEnqueue.mp hxin).resolve_left hx
          exact absurd ((hacc.active x hin).symm.trans hl) hm.ne_running.1
    · intro hs
      obtain ⟨hmap, hmach⟩ := (hs x s' he.chosen).resolve_left hx
      obtain ⟨hact, hexp⟩ := labelled_schedEnqueue hm hacc hcq hmap
      have hl : LabelledBut x (schedEnqueue s.current s) :=
        ⟨fun y hy _ => hact y hy, fun y hy _ => hexp y hy⟩
      obtain ⟨hact, hexp⟩ := labelled_after he h1 hb hl
      refine ⟨hact, hexp, ?_⟩
      rw [hcur]
      exact hrun.mpr (.inl (.inr ((tiMach_schedEnqueue _ _ _).trans hmach)))

/-- A dequeue relabels nothing. -/
theorem schedDequeue_accurate (x : Thread) (hacc : Accurate s) : Accurate (schedDequeue x s).2 := by
  rcases schedDequeue_unlinked x s with hd | hu
  · rw [hd]; exact hacc
  · have hactive : ∀ y, y ∈ members (schedDequeue x s).2.active → y ∈ members s.active := by
      intro y hy
      obtain ⟨p, hp⟩ := mem_members.mp hy
      rw [hu.active] at hp
      exact mem_members.mpr ⟨p, List.mem_of_mem_erase hp⟩
    have hexpire : ∀ y, y ∈ members (schedDequeue x s).2.expire → y ∈ members s.expire := by
      intro y hy
      obtain ⟨p, hp⟩ := mem_members.mp hy
      rw [hu.expire] at hp
      exact mem_members.mpr ⟨p, List.mem_of_mem_erase hp⟩
    refine ⟨fun y hy => ?_, fun y hy => ?_, ?_⟩
    · have := hacc.active y (hactive y hy)
      rw [hu.frame]
      exact this
    · have := hacc.expire y (hexpire y hy)
      rw [hu.frame]
      exact this
    · rw [hu.frame]
      exact hacc.current

theorem MapOk.schedElect {flags : SchedOpt} (hm : MapOk s) (h : Linked s)
    (ht : schedElect flags s = some t) : MapOk t := by
  obtain ⟨x, s', u, he, rfl⟩ := schedElect_elected h ht
  have hs' : MapOk s' := by
    cases he.chosen with
    | idle hnil => exact hm
    | active hx => exact hm
    | expire hnil hx => exact hm.swapQueues
  unfold MapOk
  rw [(queues_relabel flags s u).2.2.1, he.stateMap]
  exact hs'

theorem step_mapOk {a : Op} (hm : MapOk s) (h : Linked s) (ht : step s a = some t) : MapOk t := by
  cases a with
  | enqueue x =>
    simp only [step, Option.ite_none_left_eq_some] at ht
    obtain ⟨-, ht⟩ := ht
    cases ht
    exact hm
  | dequeue x =>
    simp only [step, Option.ite_none_left_eq_some] at ht
    obtain ⟨-, ht⟩ := ht
    cases ht
    rcases schedDequeue_unlinked x s with hd | hu
    · rw [hd]; exact hm
    · rw [hu.frame]; exact hm
  | elect flags =>
    simp only [step, Option.ite_none_left_eq_some] at ht
    exact hm.schedElect h ht.2
  | yield =>
    simp only [step, Option.ite_none_left_eq_some, not_or] at ht
    obtain ⟨⟨hx, hi⟩, ht⟩ := ht
    have hm1 : MapOk (schedEnqueue s.current s) := hm
    exact hm1.schedElect (h.schedEnqueue hx hi) ht
  | setPriority x p =>
    cases ht
    exact hm

/-- **Step lemma.** From accurate labels a call leads to accurate labels exactly
under the condition. -/
theorem step_accurate_iff {a : Op} (h : Linked s) (hm : MapOk s) (hacc : Accurate s)
    (ht : step s a = some t) : Accurate t ↔ SafeLabel s a := by
  cases a with
  | enqueue x =>
    simp only [step, Option.ite_none_left_eq_some, not_or] at ht
    obtain ⟨⟨hx, -⟩, ht⟩ := ht
    cases ht
    exact schedEnqueue_accurate_iff hm hacc hx
  | dequeue x =>
    simp only [step, Option.ite_none_left_eq_some] at ht
    obtain ⟨-, ht⟩ := ht
    cases ht
    exact ⟨fun _ => trivial, fun _ => schedDequeue_accurate x hacc⟩
  | elect flags =>
    simp only [step, Option.ite_none_left_eq_some] at ht
    exact schedElect_accurate_iff h hm hacc ht.2
  | yield =>
    simp only [step, Option.ite_none_left_eq_some, not_or] at ht
    obtain ⟨⟨-, hi⟩, ht⟩ := ht
    exact threadYield_accurate_iff h hm hacc hi ht
  | setPriority x p =>
    cases ht
    have hlab : ∀ y, ((threadSetPriority x p s).info y).tiState = (s.info y).tiState := by
      intro y
      unfold threadSetPriority
      by_cases hy : y = x
      · subst hy; simp
      · simp [hy]
    refine ⟨fun _ => trivial, fun _ => ⟨fun y hy => ?_, fun y hy => ?_, ?_⟩⟩
    · exact (hlab y).trans (hacc.active y hy)
    · exact (hlab y).trans (hacc.expire y hy)
    · exact (hlab s.current).trans hacc.current

end

/-! ## Every run -/

/-- **Accurate labels.** Once the labels are accurate, they stay so along a run,
and `sched_dequeue` goes to the right array, exactly when no thread is enqueued
after an odd number of swaps or while it runs, and no thread is elected for the
first time. -/
theorem runs_accurate_iff (idle main : Thread) (s : State)
    (hs : Reachable step (boot idle main) s) (hacc : Accurate s) (ops : List Op) :
    (∀ x ∈ trace step s ops, Accurate x.post ∧ DequeueHits x.post) ↔
      ∀ x ∈ trace step s ops, SafeLabel x.pre x.act := by
  have hreach : Linked s ∧ MapOk s := by
    refine hs.invariant (I := fun s => Linked s ∧ MapOk s) ?_ ⟨linked_boot idle main, .inl rfl⟩
    exact fun u a v hu hv => ⟨step_linked u a v hu.1 hv, step_mapOk hu.2 hu.1 hv⟩
  refine trace_forall_iff (I := fun s => (Linked s ∧ MapOk s) ∧ Accurate s)
    (Q := fun _ _ t => Accurate t ∧ DequeueHits t) (C := SafeLabel) ?_ ?_ ⟨hreach, hacc⟩
  · intro u a v hu hv
    rw [← step_accurate_iff hu.1.1 hu.1.2 hu.2 hv]
    refine ⟨fun hq => hq.1, fun hq => ⟨hq, ?_⟩⟩
    exact hq.dequeueHits (step_mapOk hu.1.2 hu.1.1 hv) (step_linked u a v hu.1.1 hv)
  · intro u a v hu hc hv
    exact ⟨⟨step_linked u a v hu.1.1 hv, step_mapOk hu.1.2 hu.1.1 hv⟩,
      (step_accurate_iff hu.1.1 hu.1.2 hu.2 hv).mpr hc⟩

/-- The first `thread_yield` of the main thread labels it; from there on a thread
may be enqueued and dequeued. -/
theorem runs_accurate_iff_afterYield : ∃ s, Reachable step (boot 0 1) s ∧ Accurate s ∧
    ∀ x ∈ trace step s [.enqueue 2, .dequeue 2], Accurate x.post ∧ DequeueHits x.post := by
  obtain ⟨s, hs, hnil, hlab, hmap, hcur⟩ : ∃ s, run step (boot 0 1) [.yield] = some s ∧
      queued s = [] ∧ (s.info s.current).tiState = .running ∧ s.stateMap = threadSchedState ∧
      s.current = 1 :=
    ⟨_, rfl, by decide +kernel, by decide +kernel, by decide +kernel, by decide +kernel⟩
  obtain ⟨ha, he⟩ := List.append_eq_nil_iff.mp hnil
  have hacc : Accurate s := ⟨by rw [ha]; simp, by rw [he]; simp, hlab⟩
  refine ⟨s, ⟨_, hs⟩, hacc, (runs_accurate_iff 0 1 s ⟨_, hs⟩ hacc _).mpr ?_⟩
  have henq : SafeLabel s (.enqueue 2) := ⟨by rw [hcur]; decide, hmap⟩
  intro x hx
  cases h1 : step s (.enqueue 2) with
  | none => rw [trace_cons_none h1] at hx; cases hx
  | some t =>
    rw [trace_cons_some h1] at hx
    rcases List.mem_cons.mp hx with rfl | hx
    · exact henq
    · cases h2 : step t (.dequeue 2) with
      | none => rw [trace_cons_none h2] at hx; cases hx
      | some u =>
        rw [trace_cons_some h2] at hx
        rw [List.mem_singleton.mp hx]
        trivial

/-- Two ticks swap the arrays; the thread enqueued then is active and labelled
expired. Its dequeue leaves the bit of an empty queue behind, and the next
election takes a list head for a thread. -/
theorem enqueued_after_swap : ∃ s, run step (boot 0 1)
      [.enqueue 2, .elect .tick, .elect .tick, .enqueue 3] = some s ∧ ¬ Accurate s ∧
    3 ∈ members s.active ∧ (s.info 3).tiState = s.stateMap.expired ∧
    findNextThread s.threadIdle (schedDequeue 3 s).2.active = none := by
  obtain ⟨s, hs, hin, hlab, hne, hbad⟩ : ∃ s, run step (boot 0 1)
      [.enqueue 2, .elect .tick, .elect .tick, .enqueue 3] = some s ∧ 3 ∈ members s.active ∧
      (s.info 3).tiState = s.stateMap.expired ∧ s.stateMap.expired ≠ s.stateMap.actived ∧
      findNextThread s.threadIdle (schedDequeue 3 s).2.active = none :=
    ⟨_, rfl, by decide +kernel, by decide +kernel, by decide +kernel, by decide +kernel⟩
  exact ⟨s, hs, fun hacc => hne (hlab.symm.trans (hacc.active 3 hin)), hin, hlab, hbad⟩

end PikoRT.Sched.Labels

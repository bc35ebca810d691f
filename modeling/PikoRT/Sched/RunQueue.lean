import PikoRT.Sched.Model

/-! # What the run queues hold

`Linked` is what every run keeps whatever the priorities and the labels are: no
node is linked twice, the idle thread is in no queue, and a queue that is not
empty has its bit set. The other half of the bitmap's meaning, that a bit is set
only for a queue that is not empty, can be lost; `Agreement` says when. -/
namespace PikoRT.Sched.RunQueue
open PikoRT.Kernel.Bitmap PikoRT.Lib.PrioQueue PikoRT.Lib.Run PikoRT.Sched.Model

structure Linked (s : State) : Prop where
  marksActive : Marks s.active
  marksExpire : Marks s.expire
  nodup : (queued s).Nodup
  idle : s.threadIdle ∉ queued s

section

variable {s : State}

theorem Linked.nodupActive (h : Linked s) : (members s.active).Nodup := (List.nodup_append.mp h.nodup).1

theorem Linked.nodupExpire (h : Linked s) : (members s.expire).Nodup :=
  (List.nodup_append.mp h.nodup).2.1

theorem Linked.apart (h : Linked s) {x : Thread} (ha : x ∈ members s.active) : x ∉ members s.expire :=
  fun he => (List.nodup_append.mp h.nodup).2.2 x ha x he rfl

theorem Linked.idleActive (h : Linked s) : s.threadIdle ∉ members s.active :=
  fun hm => h.idle (List.mem_append_left _ hm)

theorem Linked.idleExpire (h : Linked s) : s.threadIdle ∉ members s.expire :=
  fun hm => h.idle (List.mem_append_right _ hm)

theorem queued_swapQueues_perm (s : State) : (queued (swapQueues s)).Perm (queued s) :=
  List.perm_append_comm

theorem Linked.swapQueues (h : Linked s) : Linked (swapQueues s) where
  marksActive := h.marksExpire
  marksExpire := h.marksActive
  nodup := (queued_swapQueues_perm s).nodup_iff.mpr h.nodup
  idle := fun hm => h.idle ((queued_swapQueues_perm s).mem_iff.mp hm)

end

/-! ## The choice of the next thread -/

/-- `x` is the first thread of the least level of `bm` that is not empty. -/
def First (bm : BitmapStruct Thread) (x : Thread) : Prop :=
  ∃ p xs, bm.queue p = x :: xs ∧ ∀ r < p, bm.queue r = []

theorem First.mem {bm : BitmapStruct Thread} {x : Thread} (h : First bm x) : x ∈ members bm := by
  obtain ⟨p, xs, hp, -⟩ := h
  exact mem_members.mpr ⟨p, by rw [hp]; simp⟩

theorem First.unique {bm : BitmapStruct Thread} {x y : Thread} (hx : First bm x) (hy : First bm y) :
    x = y := by
  obtain ⟨p, xs, hp, hlow⟩ := hx
  obtain ⟨r, ys, hr, hlow'⟩ := hy
  rcases lt_trichotomy p r with hlt | rfl | hlt
  · rw [hlow' p hlt] at hp; cases hp
  · rw [hp] at hr; exact (List.cons.inj hr).1
  · rw [hlow r hlt] at hr; cases hr

/-- What `find_next_thread` returns, if it is a thread at all. -/
theorem findNextThread_some {bm : BitmapStruct Thread} (hm : Marks bm) {idle x : Thread}
    (h : findNextThread idle bm = some x) : (members bm = [] ∧ x = idle) ∨ First bm x := by
  unfold findNextThread at h
  split at h
  · rename_i hlt
    right
    obtain ⟨xs, hxs⟩ := List.head?_eq_some_iff.mp h
    refine ⟨_, xs, hxs, fun r hr => ?_⟩
    by_contra hne
    have hbit := (bitmapFirstBit_spec hlt).2 r (Fin.lt_def.mp hr)
    rw [hm r hne] at hbit
    cases hbit
  · rename_i hge
    left
    refine ⟨members_eq_nil.mpr fun p => ?_, (Option.some.inj h).symm⟩
    by_contra hne
    exact hge (bitmapFirstBit_lt_iff.mpr ⟨p, hm p hne⟩)

/-- With the bits in order `find_next_thread` never takes a list head for a
thread. -/
theorem findNextThread_ne_none {bm : BitmapStruct Thread} (hc : Consistent bm) (idle : Thread) :
    findNextThread idle bm ≠ none := by
  unfold findNextThread
  split
  · rename_i hlt
    intro hnone
    exact (hc _).mp (bitmapFirstBit_spec hlt).1 (List.head?_eq_none_iff.mp hnone)
  · simp

/-- The choice of `sched_bitmap_elect`: the thread, and the state with the arrays
swapped or not. -/
inductive Chosen (s : State) : Thread → State → Prop where
  | idle (hnil : queued s = []) : Chosen s s.threadIdle s
  | active {x : Thread} (hx : First s.active x) : Chosen s x s
  | expire {x : Thread} (hnil : members s.active = []) (hx : First s.expire x) :
    Chosen s x (swapQueues s)

theorem chooseNext_chosen {s s' : State} {x : Thread} (h : Linked s)
    (hc : chooseNext s = some (x, s')) : Chosen s x s' := by
  unfold chooseNext at hc
  obtain ⟨next, hnext, hc⟩ := Option.bind_eq_some_iff.mp hc
  split at hc
  · rename_i hswap
    obtain ⟨hidle, hexp⟩ := hswap
    obtain ⟨y, hy, hc⟩ := Option.bind_eq_some_iff.mp hc
    obtain ⟨rfl, rfl⟩ := Prod.mk.inj (Option.some.inj hc)
    have hnil : members s.active = [] := by
      rcases findNextThread_some h.marksActive hnext with ⟨hn, -⟩ | hf
      · exact hn
      · exact absurd (hidle ▸ hf.mem) h.idleActive
    rcases findNextThread_some h.marksExpire hy with ⟨-, hyi⟩ | hf
    · exact absurd (hyi ▸ hy) hexp
    · exact .expire hnil hf
  · rename_i hswap
    obtain ⟨rfl, rfl⟩ := Prod.mk.inj (Option.some.inj hc)
    rcases findNextThread_some h.marksActive hnext with ⟨hn, rfl⟩ | hf
    · have hexp : findNextThread s.threadIdle s.expire = some s.threadIdle :=
        by_contra fun hne => hswap ⟨rfl, hne⟩
      rcases findNextThread_some h.marksExpire hexp with ⟨hn', -⟩ | hf
      · exact .idle (by unfold queued; rw [hn, hn']; rfl)
      · exact absurd hf.mem h.idleExpire
    · exact .active hf

/-- Both arrays have their bits in order. -/
def Agree (s : State) : Prop := Consistent s.active ∧ Consistent s.expire

theorem chooseNext_of_agree {s : State} (h : Agree s) : ∃ x s', chooseNext s = some (x, s') := by
  obtain ⟨x, hx⟩ := Option.ne_none_iff_exists'.mp (findNextThread_ne_none h.1 s.threadIdle)
  obtain ⟨y, hy⟩ := Option.ne_none_iff_exists'.mp (findNextThread_ne_none h.2 s.threadIdle)
  unfold chooseNext
  rw [hx]
  by_cases hswap : x = s.threadIdle ∧ findNextThread s.threadIdle s.expire ≠ some s.threadIdle
  · refine ⟨y, swapQueues s, ?_⟩
    simp only [Option.bind_eq_bind, Option.bind_some]
    rw [if_pos hswap]
    show (findNextThread s.threadIdle s.expire).bind _ = _
    rw [hy]
    rfl
  · refine ⟨x, s, ?_⟩
    simp only [Option.bind_eq_bind, Option.bind_some]
    rw [if_neg hswap]
    rfl

section

variable {s s' : State} {x : Thread}

theorem Chosen.linked (hc : Chosen s x s') (h : Linked s) : Linked s' := by
  cases hc with
  | idle hnil => exact h
  | active hx => exact h
  | expire hnil hx => exact h.swapQueues

theorem Chosen.perm (hc : Chosen s x s') : (queued s').Perm (queued s) := by
  cases hc with
  | idle hnil => exact List.Perm.refl _
  | active hx => exact List.Perm.refl _
  | expire hnil hx => exact queued_swapQueues_perm s

theorem Chosen.agree (hc : Chosen s x s') (h : Agree s) : Agree s' := by
  cases hc with
  | idle hnil => exact h
  | active hx => exact h
  | expire hnil hx => exact ⟨h.2, h.1⟩

theorem Chosen.frame (hc : Chosen s x s') :
    s'.info = s.info ∧ s'.current = s.current ∧ s'.threadIdle = s.threadIdle := by
  cases hc <;> exact ⟨rfl, rfl, rfl⟩

/-- The chosen thread is the first of the array that is active now, unless there
is none. -/
theorem Chosen.first (hc : Chosen s x s') :
    (queued s' = [] ∧ x = s'.threadIdle) ∨ First s'.active x := by
  cases hc with
  | idle hnil => exact .inl ⟨hnil, rfl⟩
  | active hx => exact .inr hx
  | expire hnil hx => exact .inr hx

theorem Chosen.eq_idle_iff (hc : Chosen s x s') (h : Linked s) : x = s.threadIdle ↔ queued s = [] := by
  constructor
  · rintro rfl
    cases hc with
    | idle hnil => exact hnil
    | active hx => exact absurd hx.mem h.idleActive
    | expire hnil hx => exact absurd hx.mem h.idleExpire
  · intro hq
    have hnil := List.append_eq_nil_iff.mp hq
    cases hc with
    | idle _ => rfl
    | active hx => exact absurd hx.mem (by rw [hnil.1]; simp)
    | expire _ hx => exact absurd hx.mem (by rw [hnil.2]; simp)

end

/-! ## One election -/

section

variable {s s' : State} {x : Thread}

theorem Chosen.notMem_expire (hc : Chosen s x s') (h : Linked s) : x ∉ members s'.expire := by
  rcases hc.first with ⟨hnil, -⟩ | hf
  · rw [(List.append_eq_nil_iff.mp hnil).2]; simp
  · exact (hc.linked h).apart hf.mem

theorem expire_takeNext (hc : Chosen s x s') (h : Linked s) : (takeNext x s').expire = s'.expire := by
  unfold takeNext
  split
  · exact unlink_of_not_mem (hc.notMem_expire h)
  · rfl

/-- `list_del` and the clearing of the bit are one `bitmap_queue_del`; for the idle
thread nothing is done. -/
theorem active_takeNext (s : State) (x : Thread) : (takeNext x s).active =
    if x = s.threadIdle then s.active else bitmapQueueDel x (s.info x).tiPriority s.active := by
  unfold takeNext bitmapQueueDel
  by_cases hx : x = s.threadIdle
  · simp [hx]
  · simp [hx]

theorem queue_takeNext (h : Linked s) (x : Thread) (p : Fin 32) :
    (takeNext x s).active.queue p = (s.active.queue p).erase x := by
  rw [active_takeNext]
  split
  · rename_i hx
    rw [List.erase_of_not_mem]
    rintro hm
    exact h.idleActive (hx ▸ mem_members.mpr ⟨p, hm⟩)
  · rw [bitmapQueueDel, queue_clearIfEmpty, queue_unlink]

theorem members_takeNext (h : Linked s) (x : Thread) :
    members (takeNext x s).active = (members s.active).erase x := by
  have hq : (takeNext x s).active.queue = remove s.active.queue x :=
    funext fun p => queue_takeNext h x p
  unfold members
  rw [hq]
  exact flat_remove h.nodupActive x

theorem Marks.takeNext (h : Marks s.active) (x : Thread) : Marks (takeNext x s).active := by
  rw [active_takeNext]
  split
  · exact h
  · exact (h.unlink x).clearIfEmpty _

/-- The threads that an election puts back. -/
def putBack (flags : SchedOpt) (s : State) : List Thread :=
  if flags = .tick ∧ s.current ≠ s.threadIdle then [s.current] else []

/-- What `sched_bitmap_elect` does, in terms of the chosen thread. -/
structure Elected (flags : SchedOpt) (s : State) (x : Thread) (s' t : State) : Prop where
  chosen : Chosen s x s'
  eq : t = dispatch flags x (takeNext x s')

theorem schedBitmapElect_elected {flags : SchedOpt} {t : State} (h : Linked s)
    (ht : schedBitmapElect flags s = some t) : ∃ x s', Elected flags s x s' t := by
  obtain ⟨x, s', hc, ht⟩ := schedBitmapElect_some ht
  exact ⟨x, s', chooseNext_chosen h hc, ht⟩

section

variable {flags : SchedOpt} {t : State}

theorem Elected.current (he : Elected flags s x s' t) : t.current = x := by
  rw [he.eq, current_dispatch]

theorem Elected.active (he : Elected flags s x s' t) : t.active = (takeNext x s').active := by
  rw [he.eq, active_dispatch]

theorem Elected.stateMap (he : Elected flags s x s' t) : t.stateMap = s'.stateMap := by
  rw [he.eq, stateMap_dispatch, stateMap_takeNext]

theorem Elected.threadIdle (he : Elected flags s x s' t) : t.threadIdle = s.threadIdle := by
  rw [he.eq, threadIdle_dispatch, threadIdle_takeNext, he.chosen.frame.2.2]

theorem Elected.expire (he : Elected flags s x s' t) (h : Linked s) : t.expire =
    if flags = .tick ∧ s.current ≠ s.threadIdle then threadEnqueue s.info s.current s'.expire
    else s'.expire := by
  obtain ⟨hinfo, hcur, hidle⟩ := he.chosen.frame
  rw [he.eq, expire_dispatch, expire_takeNext he.chosen h, current_takeNext, threadIdle_takeNext,
    info_takeNext, hinfo, hcur, hidle]

theorem Elected.members_expire (he : Elected flags s x s' t) (h : Linked s) :
    (members t.expire).Perm (putBack flags s ++ members s'.expire) := by
  rw [he.expire h]
  unfold putBack
  split
  · exact members_bitmapEnqueue _ _ _
  · exact List.Perm.refl _

/-- **No thread is lost.** What waits after the election is what waited before,
without the elected thread and with the one put back. -/
theorem Elected.queued_perm (he : Elected flags s x s' t) (h : Linked s) :
    (queued t).Perm (putBack flags s ++ (queued s).erase x) := by
  have h' := he.chosen.linked h
  have herase : (queued s').erase x = (members s'.active).erase x ++ members s'.expire := by
    by_cases hx : x ∈ members s'.active
    · exact List.erase_append_left _ hx
    · rw [List.erase_of_not_mem hx, List.erase_of_not_mem]
      · rfl
      · exact fun hm => (List.mem_append.mp hm).elim hx (he.chosen.notMem_expire h)
  calc (queued t).Perm ((members s'.active).erase x ++ (putBack flags s ++ members s'.expire)) := by
        unfold queued
        rw [he.active, members_takeNext h']
        exact (he.members_expire h).append_left _
    List.Perm _ (putBack flags s ++ ((members s'.active).erase x ++ members s'.expire)) := by
        rw [← List.append_assoc, ← List.append_assoc]
        exact List.perm_append_comm.append_right _
    List.Perm _ (putBack flags s ++ (queued s).erase x) := by
        rw [← herase]
        exact (he.chosen.perm.erase x).append_left _

/-- The thread put back is not the elected one. -/
theorem Elected.notMem_putBack (he : Elected flags s x s' t) (hb : ∀ y ∈ putBack flags s, y ∉ queued s) :
    x ∉ putBack flags s := by
  intro hx
  rcases he.chosen.first with ⟨-, hidle⟩ | hf
  · unfold putBack at hx
    split at hx
    · rename_i hc
      rw [he.chosen.frame.2.2] at hidle
      exact hc.2 ((List.mem_singleton.mp hx).symm.trans hidle)
    · cases hx
  · exact hb x hx (he.chosen.perm.mem_iff.mp (List.mem_append_left _ hf.mem))

/-- An election keeps the nodes in order, if the thread to put back is in no
queue. -/
theorem Elected.linked (he : Elected flags s x s' t) (h : Linked s)
    (hcur : flags = .tick → s.current ∉ queued s) : Linked t := by
  have h' := he.chosen.linked h
  have hback : ∀ y ∈ putBack flags s, y ∉ queued s ∧ y ≠ s.threadIdle := by
    intro y hy
    unfold putBack at hy
    split at hy
    · rename_i hc
      rw [List.mem_singleton.mp hy]
      exact ⟨hcur hc.1, hc.2⟩
    · cases hy
  have hnd : (putBack flags s).Nodup := by unfold putBack; split <;> simp
  refine ⟨?_, ?_, ?_, ?_⟩
  · rw [he.active]
    exact Marks.takeNext h'.marksActive x
  · rw [he.expire h]
    split
    · exact h'.marksExpire.enqueue _ _
    · exact h'.marksExpire
  · rw [(he.queued_perm h).nodup_iff, List.nodup_append]
    refine ⟨hnd, h.nodup.erase x, ?_⟩
    intro a ha b hb hab
    exact (hback a ha).1 (hab ▸ List.mem_of_mem_erase hb)
  · rw [he.threadIdle, (he.queued_perm h).mem_iff, List.mem_append]
    rintro (hm | hm)
    · exact (hback _ hm).2 rfl
    · exact h.idle (List.mem_of_mem_erase hm)

end

end

/-! ## One call -/

theorem linked_boot (idle main : Thread) : Linked (boot idle main) where
  marksActive := consistent_initBitmap.marks
  marksExpire := consistent_initBitmap.marks
  nodup := by simp [queued, boot]
  idle := by simp [queued, boot]

theorem agree_boot (idle main : Thread) : Agree (boot idle main) :=
  ⟨consistent_initBitmap, consistent_initBitmap⟩

section

variable {s t : State} {x : Thread}

theorem active_schedEnqueue (x : Thread) (s : State) :
    (schedEnqueue x s).active = bitmapEnqueue x (s.info x).tiPriority s.active := by
  show threadEnqueue _ _ _ = _
  unfold threadEnqueue
  rw [tiPriority_setState]
  rfl

@[simp] theorem expire_schedEnqueue (x : Thread) (s : State) : (schedEnqueue x s).expire = s.expire := rfl

@[simp] theorem threadIdle_schedEnqueue (x : Thread) (s : State) :
    (schedEnqueue x s).threadIdle = s.threadIdle := rfl

@[simp] theorem current_schedEnqueue (x : Thread) (s : State) :
    (schedEnqueue x s).current = s.current := rfl

theorem queued_schedEnqueue (x : Thread) (s : State) :
    (queued (schedEnqueue x s)).Perm (x :: queued s) := by
  unfold queued
  rw [active_schedEnqueue, expire_schedEnqueue]
  exact (members_bitmapEnqueue _ _ _).append_right _

theorem Linked.schedEnqueue (h : Linked s) (hx : x ∉ queued s) (hi : x ≠ s.threadIdle) :
    Linked (schedEnqueue x s) where
  marksActive := by
    rw [active_schedEnqueue]
    exact h.marksActive.enqueue _ _
  marksExpire := h.marksExpire
  nodup := (queued_schedEnqueue x s).nodup_iff.mpr (List.nodup_cons.mpr ⟨hx, h.nodup⟩)
  idle := by
    rw [(queued_schedEnqueue x s).mem_iff, threadIdle_schedEnqueue, List.mem_cons]
    rintro (he | hm)
    · exact hi he.symm
    · exact h.idle hm

theorem Agree.schedEnqueue (h : Agree s) (x : Thread) : Agree (schedEnqueue x s) := by
  refine ⟨?_, h.2⟩
  rw [active_schedEnqueue]
  exact h.1.enqueue _ _

/-- Both arrays without the node; the bits only change for empty queues. -/
structure Unlinked (x : Thread) (s t : State) : Prop where
  active : t.active.queue = (unlink x s.active).queue
  expire : t.expire.queue = (unlink x s.expire).queue
  marksActive : Marks s.active → Marks t.active
  marksExpire : Marks s.expire → Marks t.expire
  frame : t = { s with active := t.active, expire := t.expire }

theorem Unlinked.queued (hu : Unlinked x s t) (h : Linked s) : queued t = (queued s).erase x := by
  have ha : members t.active = (members s.active).erase x := by
    rw [← members_unlink h.nodupActive]
    unfold members
    rw [hu.active]
  have he : members t.expire = (members s.expire).erase x := by
    rw [← members_unlink h.nodupExpire]
    unfold members
    rw [hu.expire]
  unfold Model.queued
  rw [ha, he]
  by_cases hx : x ∈ members s.active
  · rw [List.erase_append_left _ hx, List.erase_of_not_mem (h.apart hx)]
  · rw [List.erase_append_right _ hx, List.erase_of_not_mem hx]

theorem Unlinked.linked (hu : Unlinked x s t) (h : Linked s) : Linked t where
  marksActive := hu.marksActive h.marksActive
  marksExpire := hu.marksExpire h.marksExpire
  nodup := by
    rw [hu.queued h]
    exact h.nodup.erase x
  idle := by
    rw [hu.queued h, hu.frame]
    exact fun hm => h.idle (List.mem_of_mem_erase hm)

/-- `sched_dequeue` does nothing, or unlinks the thread and looks at one bit of
the array that the label names. -/
theorem schedDequeue_cases (x : Thread) (s : State) :
    schedDequeue x s = (-1, s) ∨
    (x ≠ s.current ∧ (s.info x).tiState = s.stateMap.actived ∧
      schedDequeue x s = (0, { s with
        active := bitmapQueueDel x (s.info x).tiPriority s.active
        expire := unlink x s.expire })) ∨
    (x ≠ s.current ∧ (s.info x).tiState ≠ s.stateMap.actived ∧
      (s.info x).tiState = s.stateMap.expired ∧
      schedDequeue x s = (0, { s with
        active := unlink x s.active
        expire := bitmapQueueDel x (s.info x).tiPriority s.expire })) := by
  unfold schedDequeue schedBitmapDequeue threadDequeueActive threadDequeueExpire
  by_cases hc : x = s.current
  · left
    simp only [if_pos hc]
    split
    · rfl
    · split <;> rfl
  · by_cases ha : (s.info x).tiState = s.stateMap.actived
    · right; left
      rw [if_pos ha, if_neg hc]
      exact ⟨hc, ha, rfl⟩
    · by_cases he : (s.info x).tiState = s.stateMap.expired
      · right; right
        rw [if_neg ha, if_pos he, if_neg hc]
        exact ⟨hc, ha, he, rfl⟩
      · left
        simp only [if_neg ha, if_neg he]

theorem schedDequeue_unlinked (x : Thread) (s : State) :
    (schedDequeue x s).2 = s ∨ Unlinked x s (schedDequeue x s).2 := by
  rcases schedDequeue_cases x s with hd | ⟨-, -, hd⟩ | ⟨-, -, -, hd⟩
  · left; rw [hd]
  · right
    rw [hd]
    exact ⟨queue_clearIfEmpty _ _, rfl, fun hm => (hm.unlink x).clearIfEmpty _,
      fun hm => hm.unlink x, rfl⟩
  · right
    rw [hd]
    exact ⟨rfl, queue_clearIfEmpty _ _, fun hm => hm.unlink x,
      fun hm => (hm.unlink x).clearIfEmpty _, rfl⟩

theorem Linked.schedDequeue (h : Linked s) (x : Thread) : Linked (schedDequeue x s).2 := by
  rcases schedDequeue_unlinked x s with hd | hu
  · rw [hd]; exact h
  · exact hu.linked h

/-- The label of the elected thread is nothing to the queues. -/
theorem schedElect_elected {flags : SchedOpt} (h : Linked s) (ht : schedElect flags s = some t) :
    ∃ x s' u, Elected flags s x s' u ∧ t = relabel flags s u := by
  obtain ⟨u, hu, ht⟩ := schedElect_some ht
  obtain ⟨x, s', he⟩ := schedBitmapElect_elected h hu
  exact ⟨x, s', u, he, ht⟩

theorem Linked.setState (h : Linked s) (x : Thread) (l : ThreadState) : Linked (setState x l s) :=
  ⟨h.marksActive, h.marksExpire, h.nodup, h.idle⟩

theorem Linked.schedElect {flags : SchedOpt} (h : Linked s)
    (hcur : flags = .tick → s.current ∉ queued s) (ht : schedElect flags s = some t) : Linked t := by
  obtain ⟨x, s', u, he, rfl⟩ := schedElect_elected h ht
  have hu := he.linked h hcur
  unfold relabel
  split
  · exact hu.setState _ _
  · exact hu

/-- An election takes the thread that it elects out of the queues. -/
theorem schedElect_spec {flags : SchedOpt} (h : Linked s) (ht : schedElect flags s = some t) :
    t.threadIdle = s.threadIdle ∧
      (queued t).Perm (putBack flags s ++ (queued s).erase t.current) ∧
      (t.current = s.threadIdle ∨ t.current ∈ queued s) := by
  obtain ⟨x, s', u, hel, rfl⟩ := schedElect_elected h ht
  obtain ⟨ha, hx, -, hc⟩ := queues_relabel flags s u
  have hq : queued (relabel flags s u) = queued u := by
    unfold queued
    rw [ha, hx]
  refine ⟨?_, ?_, ?_⟩
  · unfold relabel
    split
    · exact hel.threadIdle
    · exact hel.threadIdle
  · rw [hq, hc, hel.current]
    exact hel.queued_perm h
  · rw [hc, hel.current]
    rcases hel.chosen.first with ⟨-, hidle⟩ | hf
    · exact .inl (hidle.trans hel.chosen.frame.2.2)
    · exact .inr (hel.chosen.perm.mem_iff.mp (List.mem_append_left _ hf.mem))

/-- **Step lemma.** Every call keeps the nodes in order. -/
theorem step_linked (s : State) (a : Op) (t : State) (h : Linked s) (ht : step s a = some t) :
    Linked t := by
  cases a with
  | enqueue x =>
    simp only [step, Option.ite_none_left_eq_some, not_or] at ht
    obtain ⟨⟨hx, hi⟩, ht⟩ := ht
    cases ht
    exact h.schedEnqueue hx hi
  | dequeue x =>
    simp only [step, Option.ite_none_left_eq_some] at ht
    obtain ⟨-, ht⟩ := ht
    cases ht
    exact h.schedDequeue x
  | elect flags =>
    simp only [step, Option.ite_none_left_eq_some, not_and] at ht
    exact h.schedElect ht.1 ht.2
  | yield =>
    simp only [step, Option.ite_none_left_eq_some, not_or] at ht
    obtain ⟨⟨hx, hi⟩, ht⟩ := ht
    exact (h.schedEnqueue hx hi).schedElect (fun hf => by cases hf) ht
  | setPriority x p =>
    cases ht
    exact ⟨h.marksActive, h.marksExpire, h.nodup, h.idle⟩

theorem reachable_linked {idle main : Thread} (h : Reachable step (boot idle main) s) : Linked s :=
  h.invariant step_linked (linked_boot idle main)

end

/-! ## The election of a state in order -/

/-- Bits and queues agree, no node is linked twice, and the idle thread is in no
queue. -/
structure Sound (s : State) : Prop where
  agree : Agree s
  nodup : (queued s).Nodup
  idle : s.threadIdle ∉ queued s

theorem Sound.linked {s : State} (h : Sound s) : Linked s :=
  ⟨h.agree.1.marks, h.agree.2.marks, h.nodup, h.idle⟩

/-- The run-queue invariant where `sched_bitmap_elect` is called: the running thread
is in no queue, except at a yield, where its time slice does not end. -/
structure RunQueueInv (flags : SchedOpt) (s : State) : Prop extends Sound s where
  current : flags = .tick → s.current ∉ queued s

/-- The array that is active once `sched_bitmap_elect` has looked at both. -/
def nowActive (s : State) : BitmapStruct Thread :=
  if members s.active = [] then s.expire else s.active

def nowExpire (s : State) : BitmapStruct Thread :=
  if members s.active = [] then s.active else s.expire

theorem queue_of_members_nil {bm : BitmapStruct Thread} (h : members bm = []) (p : Fin 32) :
    bm.queue p = [] := members_eq_nil.mp h p

/-- The queues after the choice; when nothing waits, swapped or not is the same. -/
theorem Chosen.queues {s s' : State} {x : Thread} (hc : Chosen s x s') :
    s'.active.queue = (nowActive s).queue ∧ s'.expire.queue = (nowExpire s).queue := by
  unfold nowActive nowExpire
  cases hc with
  | idle hnil =>
    obtain ⟨ha, he⟩ := List.append_eq_nil_iff.mp hnil
    rw [if_pos ha, if_pos ha]
    constructor <;> funext p <;> rw [queue_of_members_nil ha, queue_of_members_nil he]
  | active hx =>
    have hne : members s.active ≠ [] := fun hn => by have := hx.mem; rw [hn] at this; cases this
    rw [if_neg hne, if_neg hne]
    exact ⟨rfl, rfl⟩
  | expire hnil hx =>
    rw [if_pos hnil, if_pos hnil]
    exact ⟨rfl, rfl⟩

/-- **Election.** From every state in order `sched_bitmap_elect` elects the first
thread of the least level of the array whose turn it is, or the idle thread when
nothing waits; it takes that thread out, puts the outgoing thread back on a
tick, and leaves every queue as it was otherwise. No node is linked twice then. -/
theorem schedBitmapElect_elects (flags : SchedOpt) (s : State) (h : RunQueueInv flags s) :
    ∃ t, schedBitmapElect flags s = some t ∧
      (t.current = s.threadIdle ↔ members s.active = [] ∧ members s.expire = []) ∧
      (queued s ≠ [] → First (nowActive s) t.current) ∧
      (∀ p, t.active.queue p = ((nowActive s).queue p).erase t.current) ∧
      (∀ p, t.expire.queue p = if flags = .tick ∧ s.current ≠ s.threadIdle ∧
          p = (s.info s.current).tiPriority then (nowExpire s).queue p ++ [s.current]
        else (nowExpire s).queue p) ∧
      (queued t : Multiset Thread) = (queued s : Multiset Thread).erase t.current +
        (if flags = .tick ∧ s.current ≠ s.threadIdle then {s.current} else 0) ∧
      (queued t).Nodup := by
  obtain ⟨x, s', hcn⟩ := chooseNext_of_agree h.agree
  have hc := chooseNext_chosen h.linked hcn
  have he : Elected flags s x s' (dispatch flags x (takeNext x s')) := ⟨hc, rfl⟩
  refine ⟨_, ?_, ?_, ?_, ?_, ?_, ?_, (he.linked h.linked h.current).nodup⟩
  · unfold schedBitmapElect
    rw [hcn]
    rfl
  · rw [he.current, hc.eq_idle_iff h.linked]
    exact List.append_eq_nil_iff
  · intro hne
    rw [he.current]
    unfold First
    rw [← hc.queues.1]
    rcases hc.first with ⟨hnil, -⟩ | hf
    · exact absurd (List.perm_nil.mp (hnil ▸ hc.perm.symm)) hne
    · exact hf
  · intro p
    rw [he.current, he.active, queue_takeNext (hc.linked h.linked), hc.queues.1]
  · intro p
    rw [he.expire h.linked, ← hc.queues.2]
    by_cases hb : flags = .tick ∧ s.current ≠ s.threadIdle
    · rw [if_pos hb]
      show push s'.expire.queue _ _ p = _
      by_cases hp : p = (s.info s.current).tiPriority
      · rw [if_pos ⟨hb.1, hb.2, hp⟩, hp, push_self]
      · rw [if_neg fun hall => hp hall.2.2, push_of_ne _ hp]
    · rw [if_neg hb, if_neg fun hall => hb ⟨hall.1, hall.2.1⟩]
  · rw [he.current, Multiset.coe_erase, add_comm]
    have hsum := Multiset.coe_eq_coe.mpr (he.queued_perm h.linked)
    rw [hsum, ← Multiset.coe_add]
    unfold putBack
    split <;> rfl

/-- The main thread runs and two threads wait. -/
def twoWaiting : State := schedEnqueue 3 (schedEnqueue 2 (boot 0 1))

theorem linked_twoWaiting : Linked twoWaiting :=
  ((linked_boot 0 1).schedEnqueue (by decide +kernel) (by decide)).schedEnqueue (by decide +kernel)
    (by decide)

theorem schedBitmapElect_elects_twoWaiting :
    RunQueueInv .tick twoWaiting ∧
      ∃ t, schedBitmapElect .tick twoWaiting = some t ∧ First twoWaiting.active t.current := by
  have hinv : RunQueueInv .tick twoWaiting :=
    ⟨⟨((agree_boot 0 1).schedEnqueue 2).schedEnqueue 3, linked_twoWaiting.nodup, linked_twoWaiting.idle⟩,
      fun _ => by decide +kernel⟩
  obtain ⟨t, ht, -, hfirst, -⟩ := schedBitmapElect_elects .tick twoWaiting hinv
  refine ⟨hinv, t, ht, ?_⟩
  have hact : nowActive twoWaiting = twoWaiting.active := if_neg (by decide +kernel)
  rw [← hact]
  exact hfirst (by decide +kernel)

end PikoRT.Sched.RunQueue

import PikoRT.Sync.Pthread

/-! # Waiting for a mutex

The threads that wait for a mutex stand in line on `mutex_head`, among those that wait for other
mutexes. `sys_pthread_mutex_unlock` gives the mutex to the first of the line, and the routines of
`libc/v7m-pthread.S` can take it only when nobody stands there. -/
namespace PikoRT.Sync.MutexQueue
open PikoRT.Lib.Run
open PikoRT.Sched.Model hiding step
open PikoRT.Sync.Kernel hiding step
open PikoRT.Sync.Effect PikoRT.Sync.Place PikoRT.Sync.Mutex PikoRT.Sync.Pthread

/-- The threads that wait for the mutex, in the order of `mutex_head`. -/
def line (m : Ptr) (k : System) : List Thread := k.mutexHead.filter fun t => decide (k.tiPrivate t = m)

/-- Those that a step puts in line, and those that it takes out. -/
def joined (m : Ptr) (x : Transition Machine Act) : List Thread :=
  (line m x.post.kernel).removeAll (line m x.pre.kernel)

def left (m : Ptr) (x : Transition Machine Act) : List Thread :=
  (line m x.pre.kernel).removeAll (line m x.post.kernel)

/-- What a step does to the line of a mutex and to its holder: nothing, or the running thread finds
the mutex held and goes to the end, or the first thread gets it. -/
inductive Moved (m : Ptr) (k k' : System) (holds holds' : Ptr → List Thread) : Prop
  | stays (hline : line m k' = line m k) (hholds : line m k ≠ [] → holds' m = holds m)
  | joins (hline : line m k' = line m k ++ [k.current]) (hnew : k.current ∉ line m k) (hheld : holds m ≠ [])
      (hholds : holds' m = holds m)
  | served (w : Thread) (rest : List Thread) (hpre : line m k = w :: rest) (hpost : line m k' = rest)
      (hholds : holds' m = [w])

section

variable {k k' : System} {holds holds' : Ptr → List Thread} {m n : Ptr}

theorem length_line (m : Ptr) (k : System) : (line m k).length = waiters m k := List.countP_eq_length_filter.symm

theorem line_eq_nil_iff : line m k = [] ↔ waiters m k = 0 := by
  rw [← length_line, List.length_eq_zero_iff]

theorem nodup_line (h : Ready k) (m : Ptr) : (line m k).Nodup := (nodup_mutexHead h).filter _

theorem current_notMem_line (h : Placed k) (m : Ptr) : k.current ∉ line m k := fun hm =>
  h.current (List.mem_append_right _ (List.mem_append_left _ (List.mem_of_mem_filter hm)))

theorem head?_line (m : Ptr) (k : System) : (line m k).head? = findFirstBlockingThread m k := List.head?_filter ..

theorem SameWords.line (h : SameWords k k') (m : Ptr) : line m k' = line m k := by
  unfold MutexQueue.line
  rw [h.mutexHead, h.tiPrivate]

theorem line_blockOnMutex (hc : k.current ∉ k.mutexHead) (m n : Ptr) :
    line n (blockOnMutex m k) = line n k ++ if n = m then [k.current] else [] := by
  have hsame : k.mutexHead.filter (fun t => decide (Function.update k.tiPrivate k.current m t = n)) = line n k := by
    refine List.filter_congr fun t ht => ?_
    have hne : t ≠ k.current := by
      rintro rfl
      exact hc ht
    simp [hne]
  show (k.mutexHead ++ [k.current]).filter (fun t => decide (Function.update k.tiPrivate k.current m t = n)) = _
  rw [List.filter_append, hsame]
  by_cases hn : n = m
  · subst hn
    simp
  · simp [hn, Ne.symm hn]

theorem line_wakeWaiter {w : Thread} (hnd : k.mutexHead.Nodup) (n : Ptr) :
    line n (wakeWaiter w k) = (line n k).erase w := by
  show (k.mutexHead.erase w).filter (fun t => decide (k.tiPrivate t = n)) = _
  rw [line, hnd.erase_eq_filter, (hnd.filter _).erase_eq_filter, List.filter_filter, List.filter_filter]
  exact List.filter_congr fun t _ => Bool.and_comm ..

theorem line_blockOnCond (h : Placed k) (c m n : Ptr) : line n (blockOnCond c m k) = line n k := by
  refine List.filter_congr fun t ht => ?_
  rw [(tiPrivate_blockOnCond h c m ht).2]

theorem Moved.ofSame (hline : line m k' = line m k) (hholds : holds' m = holds m) : Moved m k k' holds holds' :=
  .stays hline fun _ => hholds

/-- The line and the running thread are all that counts of the state before. -/
theorem Moved.congr {p : System} (h : Moved m p k' holds holds') (hline : line m p = line m k)
    (hc : p.current = k.current) :
    Moved m k k' holds holds' := by
  cases h with
  | stays hl hh => exact .stays (hl.trans hline) (hline ▸ hh)
  | joins hl hnew hheld hh => exact .joins (hc ▸ hline ▸ hl) (hc ▸ hline ▸ hnew) hheld hh
  | served w rest hpre hpost hh => exact .served w rest (hline ▸ hpre) hpost hh

/-! ## The system calls -/

theorem sysPthreadMutexLock_moved (ho : Owned k holds) (h : Placed k) (he : sysPthreadMutexLock m k = some k')
    (n : Ptr) :
    Moved n k k' holds (lockHolds m k holds) := by
  unfold sysPthreadMutexLock at he
  simp only [ho.val_addVal_succ h.toReady m, Function.update_self] at he
  unfold lockHolds
  rw [ho.wrap_succ h.toReady m]
  have hcount := ho.count m
  split at he
  · rename_i hzero
    rw [if_pos hzero]
    cases he
    -- nobody waits for a free mutex
    refine .stays rfl fun hne => ?_
    have hnm : n ≠ m := by
      rintro rfl
      exact hne (line_eq_nil_iff.mpr (by omega))
    exact Function.update_of_ne hnm ..
  · rename_i hne
    rw [if_neg hne]
    have hsame := sameWords_of_moves (moves_elect he)
    have hcur : (addVal m 1 k).current ∉ (addVal m 1 k).mutexHead :=
      fun hm => h.current (List.mem_append_right _ (List.mem_append_left _ hm))
    have hline : line n k' = line n k ++ if n = m then [k.current] else [] :=
      (SameWords.line hsame n).trans (line_blockOnMutex hcur m n)
    by_cases hnm : n = m
    · subst hnm
      rw [if_pos rfl] at hline
      refine .joins hline (current_notMem_line h n) (fun hnil => hne ?_) rfl
      rw [hnil, ho.owned n hnil] at hcount
      simpa using hcount
    · rw [if_neg hnm, List.append_nil] at hline
      exact .ofSame hline rfl

theorem sysPthreadMutexUnlock_moved (ho : Owned k holds) (h : Ready k) (hc : k.current ∈ holds m)
    (he : sysPthreadMutexUnlock m k = some k') (n : Ptr) : Moved n k k' holds (unlockHolds m k holds) := by
  have herase : (holds m).erase k.current = [] := by rw [ho.holder hc]; simp
  have hcount := ho.count m
  rw [ho.holder hc] at hcount
  unfold unlockHolds
  rw [herase, List.append_nil]
  rcases sysPthreadMutexUnlock_cases he with ⟨hno, -⟩ | ⟨hlt, hr⟩ | ⟨w, hge, hf, hr⟩
  · exact absurd hno (ho.not_noBlockingThreads h hc)
  · rw [if_neg (not_le.mpr hlt)]
    have hs := sameWords_of_moves (moves_reschedule hr)
    rw [ho.wrap_pred h] at hlt
    refine .stays (SameWords.line hs n) fun hne => ?_
    have hnm : n ≠ m := by
      rintro rfl
      exact hne (line_eq_nil_iff.mpr (by simp at hcount; omega))
    exact Function.update_of_ne hnm ..
  · rw [if_pos hge, hf]
    have hs := sameWords_of_moves (moves_reschedule hr)
    have hnd : (addVal m (-1) k).mutexHead.Nodup := (nodup_mutexHead h : k.mutexHead.Nodup)
    have hline : line n k' = (line n k).erase w :=
      (SameWords.line hs n).trans (line_wakeWaiter (k := addVal m (-1) k) hnd n)
    have hpriv := (mem_of_findFirstBlockingThread hf).2
    by_cases hnm : n = m
    · subst hnm
      obtain ⟨rest, hrest⟩ := List.head?_eq_some_iff.mp ((head?_line n k).trans hf)
      refine .served w rest hrest ?_ (by simp)
      rw [hline, hrest, List.erase_cons_head]
    · refine .ofSame ?_ (Function.update_of_ne hnm ..)
      rw [hline]
      refine List.erase_of_not_mem fun hm => hnm ?_
      exact (of_decide_eq_true (List.mem_filter.mp hm).2).symm.trans hpriv

theorem sysPthreadCondWait_moved {c : Ptr} (ho : Owned k holds) (h : Placed k) (hi : k.current ≠ k.idle)
    (hc : k.current ∈ holds m) (he : sysPthreadCondWait c m k = some k') (n : Ptr) :
    Moved n k k' holds (unlockHolds m (blockOnCond c m k) holds) :=
  (sysPthreadMutexUnlock_moved (ho.blockOnCond h c m) (h.ready_blockOnCond hi c m) hc he n).congr
    (line_blockOnCond h c m n) rfl

/-- Every entry moves the line so. -/
theorem step_moved {e : Entry} (ho : Owned k holds) (h : Placed k)
    (hc : ∀ m, unlocked e = some m → k.current ∈ holds m)
    (he : Kernel.step k e = some k') (n : Ptr) : Moved n k k' holds (entryHolds k holds e) := by
  have hunrelated : Unrelated k e → entryHolds k holds e = holds → Moved n k k' holds (entryHolds k holds e) :=
    fun hu hh => .ofSame (SameWords.line (sameWords_step hu he) n) (by rw [hh])
  cases e with
  | svc c =>
    have hcall := he
    simp only [Kernel.step, Option.ite_none_right_eq_some] at hcall
    obtain ⟨⟨-, hi, -⟩, hcall⟩ := hcall
    cases c with
    | mutexLock m => exact sysPthreadMutexLock_moved ho h hcall n
    | mutexUnlock m => exact sysPthreadMutexUnlock_moved ho h.toReady (hc m rfl) hcall n
    | condWait c m => exact sysPthreadCondWait_moved ho h hi (hc m rfl) hcall n
    | _ => exact hunrelated trivial rfl
  | resume =>
    by_cases hu : ∃ m, k.kont k.current = .condLock m
    · obtain ⟨m, hk⟩ := hu
      have hi : k.current ≠ k.idle := by
        intro hidle
        rw [hidle, h.konts.idle.1] at hk
        cases hk
      have hown : Owned (setKont k.current .user k) holds := ⟨ho.one, ho.count, ho.owned⟩
      simp only [Kernel.step, resume, hk] at he
      simp only [entryHolds, resumeHolds, hk]
      exact (sysPthreadMutexLock_moved hown (h.setKont hi .user) he n).congr rfl rfl
    · refine hunrelated (fun m hk => hu ⟨m, hk⟩) ?_
      simp only [entryHolds, resumeHolds]
      split
      · rename_i m hk
        exact absurd ⟨m, hk⟩ hu
      · rfl
  | _ => exact hunrelated trivial rfl

end

section

variable {s s' : Machine} {m : Ptr} {a : Act}

/-! ## The routines -/

/-- A routine that stores finds nobody in line. -/
theorem strex_moved {x : ℤ} {l : List Thread} {done failed : Pc} (n : Ptr)
    (hw : s.exclusive = true → waiters n s.kernel = 0) :
    Moved m s.kernel (s.strex n x l done failed).kernel s.holds (s.strex n x l done failed).holds := by
  unfold Machine.strex
  split
  · rename_i hx
    refine .stays rfl fun hne => ?_
    have hmn : m ≠ n := by
      rintro rfl
      exact hne (line_eq_nil_iff.mpr (hw hx))
    exact Function.update_of_ne hmn ..
  · exact .ofSame rfl rfl

theorem enter_moved {e : Entry} (h : Inv s) (hc : ∀ m, unlocked e = some m → s.current ∈ s.holds m)
    (he : s.enter e = some s') : Moved m s.kernel s'.kernel s.holds s'.holds := by
  obtain ⟨k', hk, rfl⟩ := Option.map_eq_some_iff.mp he
  exact step_moved h.owned h.placed hc hk m

theorem instr_moved (h : Inv s) (he : s.instr = some s') : Moved m s.kernel s'.kernel s.holds s'.holds := by
  have hout : Inv (s.goto .out) := h.goto (fun m hm => by cases hm) fun _ m x hx => by cases hx
  have hholds := h.unlocks s.current
  -- before a store that the monitor lets through, nobody waits
  have hlock : ∀ n, (s.pc s.current).expects = some (n, -1) → s.exclusive = true → waiters n s.kernel = 0 := by
    intro n hp hx
    have hcount := h.owned.count n
    rw [h.expects hx n _ hp] at hcount
    omega
  have hunlock : ∀ n, s.pc s.current = .unlockStore n → s.exclusive = true → waiters n s.kernel = 0 := by
    intro n hp hx
    have hcount := h.owned.count n
    rw [h.expects hx n 0 (by rw [hp]; rfl), h.owned.holder (hholds n (by rw [hp]; rfl))] at hcount
    simp at hcount
    omega
  unfold Machine.instr at he
  split at he <;> rename_i hpc
  · cases he
  · cases he
    exact .ofSame rfl rfl
  · cases he
    exact strex_moved _ (hlock _ (by rw [hpc]; rfl))
  · exact enter_moved (s := s.goto .out) hout (by simp [unlocked]) he
  · cases he
    exact .ofSame rfl rfl
  · cases he
    exact strex_moved _ (hlock _ (by rw [hpc]; rfl))
  · cases he
    exact .ofSame rfl rfl
  · cases he
    exact strex_moved _ (hunlock _ hpc)
  · refine enter_moved (s := s.goto .out) hout (fun n hn => ?_) he
    exact hholds n (by rw [hpc]; exact hn)

theorem act_moved (h : Inv s) (hd : Disciplined s a) (he : step s a = some s') :
    Moved m s.kernel s'.kernel s.holds s'.holds := by
  cases a with
  | call r n =>
    simp only [step, Option.ite_none_right_eq_some, Option.some.injEq] at he
    obtain ⟨-, rfl⟩ := he
    exact .ofSame rfl rfl
  | instr =>
    simp only [step, Option.ite_none_right_eq_some] at he
    exact instr_moved h he.2
  | entry e =>
    simp only [step, Option.ite_none_right_eq_some] at he
    exact enter_moved h hd.1 he.2
  | exception =>
    cases he
    exact .ofSame rfl rfl

end

/-! ## First come, first served -/

/-- What a step means to the threads in line for the mutex. -/
structure Fair (m : Ptr) (x : Transition Machine Act) : Prop where
  /-- They leave at the front, and others come to the end. -/
  order : line m x.pre.kernel ++ joined m x = left m x ++ line m x.post.kernel
  /-- Who leaves has the mutex. -/
  served : ∀ w ∈ left m x, x.post.holds m = [w]
  /-- While there is a line, nobody else gets the mutex. -/
  noOvertaking : line m x.pre.kernel ≠ [] → x.post.holds m = x.pre.holds m ∨ x.post.holds m = left m x
  /-- Who comes finds the mutex held. -/
  held : joined m x ≠ [] → x.pre.holds m ≠ []
  /-- Nobody stands in line for a free mutex. -/
  notStranded : x.post.holds m = [] → line m x.post.kernel = []

theorem removeAll_of_subset {ts us : List Thread} (h : ts ⊆ us) : ts.removeAll us = [] :=
  List.filter_eq_nil_iff.mpr fun t ht => by simpa using h ht

theorem Moved.fair {m : Ptr} {x : Transition Machine Act}
    (h : Moved m x.pre.kernel x.post.kernel x.pre.holds x.post.holds)
    (hnd : (line m x.pre.kernel).Nodup) (ho : Owned x.post.kernel x.post.holds) : Fair m x := by
  have hstranded : x.post.holds m = [] → line m x.post.kernel = [] := fun hnil => line_eq_nil_iff.mpr (ho.owned m hnil)
  cases h with
  | stays hl hh =>
    have hj : joined m x = [] := by rw [joined, hl, removeAll_of_subset (List.Subset.refl _)]
    have hf : left m x = [] := by rw [left, hl, removeAll_of_subset (List.Subset.refl _)]
    refine ⟨by rw [hj, hf, hl, List.append_nil, List.nil_append], ?_, fun hne => .inl (hh hne), ?_, hstranded⟩
    · rw [hf]
      exact fun w hw => (nomatch hw)
    · exact fun hne => absurd hj hne
  | joins hl hnew hheld hh =>
    have hj : joined m x = [x.pre.kernel.current] := by
      rw [joined, hl, List.removeAll, List.filter_append, ← List.removeAll, removeAll_of_subset (List.Subset.refl _),
        List.nil_append]
      simpa using hnew
    have hf : left m x = [] := by
      rw [left, hl]
      exact removeAll_of_subset (List.subset_append_left _ _)
    refine ⟨by rw [hj, hf, hl, List.nil_append], ?_, fun _ => .inl hh, fun _ => hheld, hstranded⟩
    rw [hf]
    exact fun w hw => (nomatch hw)
  | served w rest hpre hpost hh =>
    rw [hpre] at hnd
    obtain ⟨hw, -⟩ := List.nodup_cons.mp hnd
    have hj : joined m x = [] := by
      rw [joined, hpre, hpost]
      exact removeAll_of_subset (List.subset_cons_self w rest)
    have hf : left m x = [w] := by
      rw [left, hpre, hpost, List.removeAll, List.filter_cons_of_pos (by simpa using hw), ← List.removeAll,
        removeAll_of_subset (List.Subset.refl _)]
    refine ⟨by rw [hj, hf, hpre, hpost, List.append_nil, List.singleton_append], ?_,
      fun _ => .inr (hh.trans hf.symm), ?_, hstranded⟩
    · rw [hf]
      exact fun v hv => (List.mem_singleton.mp hv) ▸ hh
    · exact fun hne => absurd hj hne

/-- **A mutex is served first come, first served.** In a run where only the holder unlocks or waits,
on the fast path and in the kernel, every step is fair to every line, and the threads that came to
stand in line are those that have got the mutex from it, in this order, and those that still wait.
-/
theorem runs_fair (b : Threads) (as : List Act) (s : Machine) (hr : run step (init b) as = some s)
    (hd : ∀ x ∈ trace step (init b) as, Disciplined x.pre x.act) (m : Ptr) :
    (∀ x ∈ trace step (init b) as, Fair m x) ∧
      (trace step (init b) as).flatMap (joined m) = (trace step (init b) as).flatMap (left m) ++ line m s.kernel := by
  have hfair : ∀ x ∈ trace step (init b) as, Fair m x := by
    intro x hx
    obtain ⟨hpre, hpost⟩ := trace_invariant (fun s a s' h hc he => (step_inv a h hc he).1) (inv_init b) hd x hx
    exact (act_moved hpre (hd x hx) (step_of_mem_trace hx)).fair (nodup_line hpre.placed.toReady m) hpost.owned
  refine ⟨hfair, ?_⟩
  have hqueue := run_conserves (f := fun s : Machine => line m s.kernel) (fun x hx => (hfair x hx).order) hr
  have hnil : line m (init b).kernel = [] := rfl
  rwa [hnil, List.nil_append] at hqueue

/-- A new thread has come to stand in line behind the main thread. -/
theorem runs_fair_contended :
    ∃ s, run step (init threads) contended = some s ∧ line 8 s.kernel = [3] ∧
      (trace step (init threads) contended).flatMap (joined 8) = (trace step (init threads) contended).flatMap
        (left 8) ++ [3] := by
  obtain ⟨s, hs, hline⟩ : ∃ s, run step (init threads) contended = some s ∧ line 8 s.kernel = [3] :=
    ⟨_, rfl, by decide +kernel⟩
  have hd : ∀ x ∈ trace step (init threads) contended, Disciplined x.pre x.act := fun x hx =>
    disciplined_of_mem_contended (act_mem_of_mem_trace hx) x.pre
  have hqueue := (runs_fair threads contended s hs hd 8).2
  rw [hline] at hqueue
  exact ⟨s, hs, hline, hqueue⟩

end PikoRT.Sync.MutexQueue

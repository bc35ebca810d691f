import PikoRT.Sync.Place

/-! # Holders of a mutex

The lock word of a mutex is -1 when it is free and counts the waiters when it is
not; `sys_pthread_mutex_unlock` hands a mutex over to a waiter without freeing it.
The threads that hold each mutex are an auxiliary variable here. This file says
what the kernel entries do to it. -/
namespace PikoRT.Sync.Mutex
open PikoRT.Kernel.Bitmap PikoRT.Lib.Run
open PikoRT.Sched.Model hiding step
open PikoRT.Sched.RunQueue PikoRT.Sync.Kernel PikoRT.Sync.Effect PikoRT.Sync.Place

/-- The threads on `mutex_head` that wait for the mutex. -/
def waiters (m : Ptr) (k : System) : ℕ := k.mutexHead.countP fun t => decide (k.tiPrivate t = m)

/-! ## Holders through the system calls -/

/-- The running thread holds the mutex if the lock found it free. -/
def lockHolds (m : Ptr) (k : System) (holds : Ptr → List Thread) : Ptr → List Thread :=
  if wrap32 (k.val m + 1) = 0 then Function.update holds m (k.current :: holds m) else holds

/-- The running thread gives the mutex up, to the first waiter if the word counts
one. -/
def unlockHolds (m : Ptr) (k : System) (holds : Ptr → List Thread) : Ptr → List Thread :=
  Function.update holds m
    ((if 0 ≤ wrap32 (k.val m - 1) then (findFirstBlockingThread m k).toList else []) ++
      (holds m).erase k.current)

/-- At most one holder, and the word counts holder and waiters; nobody waits for a
free mutex. -/
structure Owned (k : System) (holds : Ptr → List Thread) : Prop where
  one : ∀ m, (holds m).length ≤ 1
  count : ∀ m, k.val m + 1 = (holds m).length + waiters m k
  owned : ∀ m, holds m = [] → waiters m k = 0

section

variable {k k' : System} {holds : Ptr → List Thread} {m : Ptr}

theorem findFirstBlockingThread_eq_none : findFirstBlockingThread m k = none ↔ waiters m k = 0 := by
  unfold findFirstBlockingThread waiters
  rw [List.find?_eq_none, List.countP_eq_zero]

/-- There are fewer threads than would make a counter wrap around. -/
theorem length_lt (l : List Thread) (h : l.Nodup) : l.length ≤ 2 ^ 23 := by
  have hnd : (l.map BitVec.toFin).Nodup := h.map fun a b hab => BitVec.toFin_inj.mp hab
  have hle := hnd.length_le_card
  rwa [List.length_map, Fintype.card_fin] at hle

theorem wrap32_of_small {x : ℤ} (hl : -2 ≤ x) (hu : x ≤ 2 ^ 24) : wrap32 x = x :=
  Int.bmod_eq_of_le (by norm_num; omega) (by norm_num; omega)

theorem nodup_mutexHead (h : Ready k) : k.mutexHead.Nodup :=
  (List.nodup_append.mp (List.nodup_append.mp h.nodup).2.1).1

theorem waiters_le (h : Ready k) (m : Ptr) : waiters m k ≤ 2 ^ 23 :=
  le_trans List.countP_le_length (length_lt _ (nodup_mutexHead h))

/-- The word of a mutex stays in a small range. -/
theorem Owned.val_range (ho : Owned k holds) (h : Ready k) (m : Ptr) :
    -1 ≤ k.val m ∧ k.val m ≤ 2 ^ 23 := by
  have hc := ho.count m
  have h1 := ho.one m
  have hw := waiters_le h m
  constructor <;> omega

theorem Owned.wrap_succ (ho : Owned k holds) (h : Ready k) (m : Ptr) :
    wrap32 (k.val m + 1) = k.val m + 1 := by
  obtain ⟨hl, hu⟩ := ho.val_range h m
  exact wrap32_of_small (by omega) (by omega)

theorem Owned.wrap_pred (ho : Owned k holds) (h : Ready k) (m : Ptr) :
    wrap32 (k.val m - 1) = k.val m - 1 := by
  obtain ⟨hl, hu⟩ := ho.val_range h m
  exact wrap32_of_small (by omega) (by omega)

theorem Owned.holder (ho : Owned k holds) {t : Thread} (ht : t ∈ holds m) : holds m = [t] := by
  have h1 := ho.one m
  cases hm : holds m with
  | nil => rw [hm] at ht; cases ht
  | cons x l =>
    rw [hm] at h1 ht
    have hl : l = [] := List.length_eq_zero_iff.mp (by simpa using h1)
    subst hl
    rw [List.mem_singleton.mp ht]

/-- A held mutex that counts a waiter has one: the complaint of
`sys_pthread_mutex_unlock` is not reached. -/
theorem Owned.not_noBlockingThreads (ho : Owned k holds) (h : Ready k) {t : Thread}
    (ht : t ∈ holds m) : ¬ noBlockingThreads m k := by
  rintro ⟨hval, hfind⟩
  rw [ho.wrap_pred h] at hval
  have hc := ho.count m
  rw [ho.holder ht, findFirstBlockingThread_eq_none.mp hfind] at hc
  simp at hc
  omega

/-- The word and the holders of one mutex change, and nobody joins or leaves the
waiters of another. -/
theorem Owned.update {l : List Thread} {x : ℤ} (ho : Owned k holds)
    (hval : k'.val = Function.update k.val m x) (hw : ∀ n ≠ m, waiters n k' = waiters n k)
    (hone : l.length ≤ 1) (hcount : x + 1 = l.length + waiters m k')
    (howned : l = [] → waiters m k' = 0) : Owned k' (Function.update holds m l) := by
  refine ⟨fun n => ?_, fun n => ?_, fun n hn => ?_⟩ <;> by_cases hnm : n = m
  · subst hnm; simpa using hone
  · simpa [hnm] using ho.one n
  · subst hnm; simpa [hval] using hcount
  · simpa [hval, hnm, hw n hnm] using ho.count n
  · subst hnm; exact howned (by simpa using hn)
  · rw [hw n hnm]; exact ho.owned n (by simpa [hnm] using hn)

/-- What `Owned` reads of the kernel. -/
structure SameWords (k k' : System) : Prop where
  val : k'.val = k.val
  mutexHead : k'.mutexHead = k.mutexHead
  tiPrivate : k'.tiPrivate = k.tiPrivate

theorem SameWords.refl (k : System) : SameWords k k := ⟨rfl, rfl, rfl⟩

theorem SameWords.waiters (h : SameWords k k') (m : Ptr) : waiters m k' = waiters m k := by
  unfold Mutex.waiters
  rw [h.mutexHead, h.tiPrivate]

theorem SameWords.owned (h : SameWords k k') (ho : Owned k holds) : Owned k' holds :=
  ⟨ho.one, fun m => by rw [h.val, h.waiters]; exact ho.count m,
    fun m hm => by rw [h.waiters]; exact ho.owned m hm⟩

theorem sameWords_of_moves (h : Moves k k') : SameWords k k' := by
  obtain ⟨s, rfl⟩ := h
  exact ⟨rfl, rfl, rfl⟩

/-- The mutexes of the threads that left `mutex_head` are theirs now. -/
def Handed (k k' : System) (holds : Ptr → List Thread) : Prop :=
  ∀ w ∈ k.mutexHead, w ∉ k'.mutexHead → holds (k.tiPrivate w) = [w]

theorem handed_of_subset (h : ∀ w ∈ k.mutexHead, w ∈ k'.mutexHead) : Handed k k' holds :=
  fun w hw hw' => absurd (h w hw) hw'

/-! ### Lock -/

/-- A thread that is not on the list joins the waiters of one mutex. -/
theorem waiters_blockOnMutex (hc : k.current ∉ k.mutexHead) (m n : Ptr) :
    waiters n (blockOnMutex m k) = waiters n k + if n = m then 1 else 0 := by
  have hsame : k.mutexHead.countP
      (fun t => decide (Function.update k.tiPrivate k.current m t = n)) = waiters n k := by
    refine List.countP_congr fun t ht => ?_
    have hne : t ≠ k.current := by rintro rfl; exact hc ht
    simp [hne]
  show (k.mutexHead ++ [k.current]).countP
    (fun t => decide (Function.update k.tiPrivate k.current m t = n)) = _
  rw [List.countP_append, hsame]
  by_cases hn : n = m
  · subst hn; simp
  · simp [hn, Ne.symm hn]

theorem Owned.val_addVal_succ (ho : Owned k holds) (h : Ready k) (m : Ptr) :
    (addVal m 1 k).val = Function.update k.val m (k.val m + 1) := by
  rw [← ho.wrap_succ h m]
  rfl

/-- The running thread takes a free mutex. -/
theorem Owned.acquire (ho : Owned k holds) (h : Ready k) (hzero : k.val m + 1 = 0) :
    Owned (addVal m 1 k) (Function.update holds m (k.current :: holds m)) := by
  have hcount := ho.count m
  have hnil : holds m = [] := List.length_eq_zero_iff.mp (by omega)
  have hw0 : waiters m (addVal m 1 k) = 0 := ho.owned m hnil
  refine ho.update (ho.val_addVal_succ h m) (fun n _ => rfl) ?_ ?_ fun _ => hw0
  · simp [hnil]
  · rw [hw0, hnil, hzero]; simp

/-- The running thread joins the waiters of a held mutex. -/
theorem Owned.wait (ho : Owned k holds) (h : Placed k) (hne : k.val m + 1 ≠ 0) :
    Owned (blockOnMutex m (addVal m 1 k)) holds := by
  have hcount := ho.count m
  have hcur : (addVal m 1 k).current ∉ (addVal m 1 k).mutexHead :=
    fun hm => h.current (List.mem_append_right _ (List.mem_append_left _ hm))
  have hwait := waiters_blockOnMutex hcur m
  have hwm : waiters m (blockOnMutex m (addVal m 1 k)) = waiters m k + 1 := by
    rw [hwait m, if_pos rfl]; rfl
  rw [← Function.update_eq_self m holds]
  refine ho.update (ho.val_addVal_succ h.toReady m) (fun n hn => ?_) (ho.one m) ?_ fun hnil => ?_
  · rw [hwait n, if_neg hn]; rfl
  · rw [hwm]; push_cast; omega
  · rw [hnil, ho.owned m hnil] at hcount
    simp at hcount
    omega

theorem sysPthreadMutexLock_owned (ho : Owned k holds) (h : Placed k)
    (he : sysPthreadMutexLock m k = some k') :
    Owned k' (lockHolds m k holds) ∧ Handed k k' (lockHolds m k holds) := by
  unfold sysPthreadMutexLock at he
  simp only [ho.val_addVal_succ h.toReady m, Function.update_self] at he
  unfold lockHolds
  rw [ho.wrap_succ h.toReady m]
  split at he
  · rename_i hzero
    rw [if_pos hzero]
    cases he
    exact ⟨ho.acquire h.toReady hzero, handed_of_subset fun w hw => hw⟩
  · rename_i hne
    rw [if_neg hne]
    have hsame := sameWords_of_moves (moves_elect he)
    refine ⟨hsame.owned (ho.wait h hne), handed_of_subset fun w hw => ?_⟩
    rw [hsame.mutexHead]
    exact List.mem_append_left _ hw

/-! ### Unlock -/

theorem waiters_wakeWaiter {w : Thread} (hw : w ∈ k.mutexHead) (n : Ptr) :
    waiters n (wakeWaiter w k) = waiters n k - if k.tiPrivate w = n then 1 else 0 := by
  show (k.mutexHead.erase w).countP (fun t => decide (k.tiPrivate t = n)) = _
  rw [List.countP_erase]
  unfold waiters
  simp [hw]

theorem Owned.val_addVal_pred (ho : Owned k holds) (h : Ready k) (m : Ptr) :
    (addVal m (-1) k).val = Function.update k.val m (k.val m - 1) := by
  rw [← ho.wrap_pred h m, sub_eq_add_neg]
  rfl

/-- The holder gives up a mutex that nobody waits for. -/
theorem Owned.release (ho : Owned k holds) (h : Ready k) (hc : k.current ∈ holds m)
    (hlt : wrap32 (k.val m - 1) < 0) : Owned (addVal m (-1) k) (Function.update holds m []) := by
  have hcount := ho.count m
  rw [ho.holder hc] at hcount
  rw [ho.wrap_pred h] at hlt
  have hw0 : waiters m k = 0 := by simp at hcount; omega
  refine ho.update (ho.val_addVal_pred h m) (fun n _ => rfl) (by simp) ?_ fun _ => hw0
  show _ = _ + (waiters m k : ℤ)
  rw [hw0] at hcount ⊢
  simp at hcount ⊢
  omega

/-- The holder hands the mutex over to a waiter. -/
theorem Owned.handOver {w : Thread} (ho : Owned k holds) (h : Ready k) (hc : k.current ∈ holds m)
    (hw : w ∈ k.mutexHead) (hpriv : k.tiPrivate w = m) :
    Owned (wakeWaiter w (addVal m (-1) k)) (Function.update holds m [w]) := by
  have hcount := ho.count m
  rw [ho.holder hc] at hcount
  have hwait : ∀ n, waiters n (wakeWaiter w (addVal m (-1) k)) =
      waiters n k - if m = n then 1 else 0 := by
    intro n
    rw [← hpriv]
    exact waiters_wakeWaiter (k := addVal m (-1) k) hw n
  have hpos : 0 < waiters m k := List.countP_pos_iff.mpr ⟨w, hw, by simpa using hpriv⟩
  refine ho.update (ho.val_addVal_pred h m) (fun n hn => ?_) (by simp) ?_ (by simp)
  · rw [hwait n, if_neg (Ne.symm hn)]
    rfl
  · rw [hwait m, if_pos rfl]
    simp at hcount ⊢
    omega

theorem sysPthreadMutexUnlock_owned (ho : Owned k holds) (h : Ready k) (hc : k.current ∈ holds m)
    (he : sysPthreadMutexUnlock m k = some k') :
    Owned k' (unlockHolds m k holds) ∧ Handed k k' (unlockHolds m k holds) := by
  have herase : (holds m).erase k.current = [] := by rw [ho.holder hc]; simp
  unfold unlockHolds
  rw [herase, List.append_nil]
  rcases sysPthreadMutexUnlock_cases he with ⟨hno, -⟩ | ⟨hlt, hr⟩ | ⟨w, hge, hf, hr⟩
  · exact absurd hno (ho.not_noBlockingThreads h hc)
  · -- nobody waits
    rw [if_neg (not_le.mpr hlt)]
    have hs := sameWords_of_moves (moves_reschedule hr)
    refine ⟨hs.owned (ho.release h hc hlt), handed_of_subset fun w hw => ?_⟩
    rw [hs.mutexHead]
    exact hw
  · -- the first waiter takes over
    obtain ⟨hmem, hpriv⟩ := mem_of_findFirstBlockingThread hf
    rw [if_pos hge, hf]
    have hs := sameWords_of_moves (moves_reschedule hr)
    refine ⟨hs.owned (ho.handOver h hc hmem hpriv), fun v hv hv' => ?_⟩
    rw [hs.mutexHead] at hv'
    have hvw : v = w := by
      by_contra hne
      exact hv' ((List.mem_erase_of_ne hne).mpr hv)
    rw [hvw, hpriv]
    simp

/-! ### Wait -/

theorem waiters_blockOnCond (h : Placed k) (c m n : Ptr) :
    waiters n (blockOnCond c m k) = waiters n k := by
  refine List.countP_congr fun t ht => ?_
  rw [(tiPrivate_blockOnCond h c m ht).2]

theorem Owned.blockOnCond (ho : Owned k holds) (h : Placed k) (c m : Ptr) :
    Owned (blockOnCond c m k) holds :=
  ⟨ho.one, fun n => by rw [waiters_blockOnCond h]; exact ho.count n,
    fun n hn => by rw [waiters_blockOnCond h]; exact ho.owned n hn⟩

theorem sysPthreadCondWait_owned {c : Ptr} (ho : Owned k holds) (h : Placed k) (hi : k.current ≠ k.idle)
    (hc : k.current ∈ holds m) (he : sysPthreadCondWait c m k = some k') :
    Owned k' (unlockHolds m (blockOnCond c m k) holds) ∧
      Handed k k' (unlockHolds m (blockOnCond c m k) holds) := by
  obtain ⟨hown, hhanded⟩ :=
    sysPthreadMutexUnlock_owned (ho.blockOnCond h c m) (h.ready_blockOnCond hi c m) hc he
  refine ⟨hown, fun w hw hw' => ?_⟩
  rw [← (tiPrivate_blockOnCond h c m hw).2]
  exact hhanded w hw hw'

/-! ## Holders through the entries -/

/-- The entries that leave the words and `mutex_head` alone. -/
def Unrelated (k : System) : Entry → Prop
  | .svc (.mutexLock _) | .svc (.mutexUnlock _) | .svc (.condWait _ _) => False
  | .resume => ∀ m, k.kont k.current ≠ .condLock m
  | _ => True

theorem sameWords_of_reads (h : Reads k k') : SameWords k k' := by
  cases h with
  | _ => exact ⟨rfl, rfl, rfl⟩

theorem sameWords_of_calls {c : Syscall} (hu : Unrelated k (.svc c)) (h : Calls k c k') :
    SameWords k k' := by
  cases h with
  | locks m h => exact hu.elim
  | unlocks m h => exact hu.elim
  | condWaits c m h => exact hu.elim
  | reads count h => exact sameWords_of_reads h
  | _ => exact ⟨rfl, rfl, rfl⟩

theorem sameWords_step {e : Entry} (hu : Unrelated k e) (he : step k e = some k') :
    SameWords k k' := by
  cases step_enters he with
  | calls c h => exact sameWords_of_calls hu h
  | condLocks m hk h => exact absurd hk (hu m)
  | reads h => exact sameWords_of_reads h
  | _ => exact ⟨rfl, rfl, rfl⟩

def callHolds (k : System) (holds : Ptr → List Thread) : Syscall → Ptr → List Thread
  | .mutexLock m => lockHolds m k holds
  | .mutexUnlock m => unlockHolds m k holds
  | .condWait c m => unlockHolds m (blockOnCond c m k) holds
  | _ => holds

def resumeHolds (k : System) (holds : Ptr → List Thread) : Ptr → List Thread :=
  match k.kont k.current with
  | .condLock m => lockHolds m k holds
  | _ => holds

/-- The holders after an entry. -/
def entryHolds (k : System) (holds : Ptr → List Thread) : Entry → Ptr → List Thread
  | .svc c => callHolds k holds c
  | .resume => resumeHolds k holds
  | _ => holds

/-- The mutex that an entry unlocks. -/
def unlocked : Entry → Option Ptr
  | .svc (.mutexUnlock m) | .svc (.condWait _ m) => some m
  | _ => none

theorem unrelated_owned {e : Entry} (ho : Owned k holds) (he : step k e = some k')
    (hu : Unrelated k e) : Owned k' holds ∧ Handed k k' holds := by
  have hs := sameWords_step hu he
  refine ⟨hs.owned ho, handed_of_subset fun w hw => ?_⟩
  rw [hs.mutexHead]
  exact hw

theorem resume_owned (ho : Owned k holds) (h : Placed k) (he : step k .resume = some k') :
    Owned k' (resumeHolds k holds) ∧ Handed k k' (resumeHolds k holds) := by
  by_cases hu : ∃ m, k.kont k.current = .condLock m
  · obtain ⟨m, hk⟩ := hu
    have hi : k.current ≠ k.idle := by
      intro hidle
      rw [hidle, h.konts.idle.1] at hk
      cases hk
    have hown : Owned (setKont k.current .user k) holds := ⟨ho.one, ho.count, ho.owned⟩
    simp only [step, resume, hk] at he
    simp only [resumeHolds, hk]
    have hlock := sysPthreadMutexLock_owned hown (h.setKont hi .user) he
    exact hlock
  · have hholds : resumeHolds k holds = holds := by
      unfold resumeHolds
      split
      · rename_i m hk
        exact absurd ⟨m, hk⟩ hu
      · rfl
    rw [hholds]
    exact unrelated_owned ho he fun m hk => hu ⟨m, hk⟩

/-- **Holders through one entry**, if only the holder unlocks. -/
theorem step_owned {e : Entry} (ho : Owned k holds) (h : Placed k)
    (hc : ∀ m, unlocked e = some m → k.current ∈ holds m) (he : step k e = some k') :
    Owned k' (entryHolds k holds e) ∧ Handed k k' (entryHolds k holds e) := by
  cases e with
  | svc c =>
    have hcall := he
    simp only [step, Option.ite_none_right_eq_some] at hcall
    obtain ⟨⟨-, hi, -⟩, hcall⟩ := hcall
    cases c with
    | mutexLock m => exact sysPthreadMutexLock_owned ho h hcall
    | mutexUnlock m => exact sysPthreadMutexUnlock_owned ho h.toReady (hc m rfl) hcall
    | condWait c m => exact sysPthreadCondWait_owned ho h hi (hc m rfl) hcall
    | _ => exact unrelated_owned ho he trivial
  | resume => exact resume_owned ho h he
  | _ => exact unrelated_owned ho he trivial

end

end PikoRT.Sync.Mutex

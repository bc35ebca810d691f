import PikoRT.Sync.Mutex

/-! # Mutual exclusion

Two protocols change the lock word of a mutex: the routines of
`libc/v7m-pthread.S`, which load and store it exclusively when nobody waits, and
the system calls of `kernel/mutex.c`. The machine below takes the routines an
instruction at a time, where one of them reads or writes memory, and an exception
may come before each. -/
namespace PikoRT.Sync.Pthread
open PikoRT.Kernel.Bitmap PikoRT.Lib.Run
open PikoRT.Sched.Model hiding step
open PikoRT.Sync.Kernel hiding step
open PikoRT.Sync.Place PikoRT.Sync.Mutex

/-! ## The routines -/

/-- Where a thread is in a routine of `v7m-pthread.S`: before its `ldrex`, before
its `strex` or before its `svc`. -/
inductive Pc where
  | out
  | lockLoad (mutex : Ptr)
  | lockStore (mutex : Ptr)
  | lockSvc (mutex : Ptr)
  | trylockLoad (mutex : Ptr)
  | trylockStore (mutex : Ptr)
  | unlockLoad (mutex : Ptr)
  | unlockStore (mutex : Ptr)
  | unlockSvc (mutex : Ptr)
  deriving DecidableEq, Repr

structure Machine where
  kernel : System
  pc : Thread → Pc
  /-- The exclusive monitor. -/
  exclusive : Bool
  holds : Ptr → List Thread

inductive Routine where
  | lock
  | trylock
  | unlock
  deriving DecidableEq, Repr

def Routine.first (m : Ptr) : Routine → Pc
  | .lock => .lockLoad m
  | .trylock => .trylockLoad m
  | .unlock => .unlockLoad m

inductive Act where
  | call (r : Routine) (mutex : Ptr)
  | instr
  | entry (e : Entry)
  | exception
  deriving DecidableEq, Repr

namespace Machine

def current (s : Machine) : Thread := s.kernel.current

def goto (p : Pc) (s : Machine) : Machine := { s with pc := Function.update s.pc s.current p }

/-- `ldrex`, the comparison with `x` and the branch. -/
def ldrex (m : Ptr) (x : ℤ) (eq ne : Pc) (s : Machine) : Machine :=
  goto (if s.kernel.val m = x then eq else ne) { s with exclusive := true }

/-- `strex` of `x`: it stores if the monitor is still set. -/
def strex (m : Ptr) (x : ℤ) (holders : List Thread) (done failed : Pc) (s : Machine) : Machine :=
  if s.exclusive then
    goto done { s with
      kernel := { s.kernel with val := Function.update s.kernel.val m x }
      exclusive := false
      holds := Function.update s.holds m holders }
  else goto failed s

/-- A kernel entry clears the monitor, as every exception does. -/
def enter (e : Entry) (s : Machine) : Option Machine :=
  (Kernel.step s.kernel e).map fun k =>
    { s with kernel := k, exclusive := false, holds := entryHolds s.kernel s.holds e }

def instr (s : Machine) : Option Machine :=
  match s.pc s.current with
  | .out => none
  | .lockLoad m => some (ldrex m (-1) (.lockStore m) (.lockSvc m) s)
  | .lockStore m => some (strex m 0 (s.current :: s.holds m) .out (.lockLoad m) s)
  | .lockSvc m => enter (.svc (.mutexLock m)) (goto .out s)
  | .trylockLoad m => some (ldrex m (-1) (.trylockStore m) .out s)
  | .trylockStore m => some (strex m 0 (s.current :: s.holds m) .out .out s)
  | .unlockLoad m => some (ldrex m 0 (.unlockStore m) (.unlockSvc m) s)
  | .unlockStore m => some (strex m (-1) ((s.holds m).erase s.current) .out (.unlockLoad m) s)
  | .unlockSvc m => enter (.svc (.mutexUnlock m)) (goto .out s)

end Machine

def isSvc : Entry → Bool
  | .svc _ => true
  | _ => false

/-- The running thread calls a routine, takes the next instruction of the one it is
in, or makes another system call; interrupts come at any time. -/
def step (s : Machine) : Act → Option Machine
  | .call r m =>
    if s.kernel.threadMode ∧ s.current ≠ s.kernel.idle ∧ s.pc s.current = .out then
      some (s.goto (r.first m))
    else none
  | .instr => if s.kernel.threadMode then s.instr else none
  | .entry e => if isSvc e = true → s.pc s.current = .out then s.enter e else none
  | .exception => some { s with exclusive := false }

/-- The mutexes are unlocked, as `pthread_mutex_init` leaves them. -/
def init (b : Threads) : Machine where
  kernel := start b fun _ => -1
  pc := fun _ => .out
  exclusive := false
  holds := fun _ => []

/-- Only the holder unlocks or waits. The entries that have nothing to do with a
mutex keep every thread in one place. -/
def Disciplined (s : Machine) : Act → Prop
  | .call .unlock m => s.current ∈ s.holds m
  | .entry e =>
    (∀ m, unlocked e = some m → s.current ∈ s.holds m) ∧ (unlocked e = none → Safe s.kernel e)
  | _ => True

/-- The call of `sys_pthread_mutex_unlock` in a system call: the mutex and the
state it is made in. -/
def unlockCall (k : System) : Syscall → Option (Ptr × System)
  | .mutexUnlock m => some (m, k)
  | .condWait c m => some (m, blockOnCond c m k)
  | _ => none

def unlockStep (s : Machine) : Act → Option (Ptr × System)
  | .entry (.svc c) => unlockCall s.kernel c
  | .instr => match s.pc s.current with
    | .unlockSvc m => some (m, s.kernel)
    | _ => none
  | _ => none

/-! ## The invariant -/

/-- The mutex that a routine is about to unlock. -/
def Pc.unlocks : Pc → Option Ptr
  | .unlockLoad m | .unlockStore m | .unlockSvc m => some m
  | _ => none

/-- The word that a `strex` relies on. -/
def Pc.expects : Pc → Option (Ptr × ℤ)
  | .lockStore m | .trylockStore m => some (m, -1)
  | .unlockStore m => some (m, 0)
  | _ => none

structure Inv (s : Machine) : Prop where
  placed : Placed s.kernel
  owned : Owned s.kernel s.holds
  unlocks : ∀ t m, (s.pc t).unlocks = some m → t ∈ s.holds m
  expects : s.exclusive = true → ∀ m x, (s.pc s.current).expects = some (m, x) → s.kernel.val m = x

section

variable {s s' : Machine} {k : System} {holds : Ptr → List Thread} {m : Ptr}

theorem Inv.goto {p : Pc} (h : Inv s) (hu : ∀ m, p.unlocks = some m → s.current ∈ s.holds m)
    (hx : s.exclusive = true → ∀ m x, p.expects = some (m, x) → s.kernel.val m = x) :
    Inv (s.goto p) := by
  refine ⟨h.placed, h.owned, fun t m ht => ?_, fun he m x hp => hx he m x ?_⟩
  · by_cases hc : t = s.current
    · subst hc
      exact hu m (by simpa [Machine.goto] using ht)
    · exact h.unlocks t m (by simpa [Machine.goto, hc] using ht)
  · have hp' : ((s.goto p).pc s.current).expects = some (m, x) := hp
    simpa [Machine.goto] using hp'

/-- The monitor may be set or cleared while the thread is not before a `strex`. -/
theorem Inv.monitor (h : Inv s) (b : Bool)
    (hx : b = true → ∀ m x, (s.pc s.current).expects = some (m, x) → s.kernel.val m = x) :
    Inv { s with exclusive := b } :=
  ⟨h.placed, h.owned, h.unlocks, hx⟩

/-! ### The fast path -/

theorem Inv.ldrex {x : ℤ} {eq ne : Pc} (h : Inv s)
    (hp : (s.pc s.current).expects = none)
    (hu : ∀ p ∈ [eq, ne], ∀ n, p.unlocks = some n → s.current ∈ s.holds n)
    (heq : ∀ y, eq.expects = some y → y = (m, x)) (hne : ne.expects = none) :
    Inv (s.ldrex m x eq ne) := by
  have hm : Inv { s with exclusive := true } := h.monitor true (by rw [hp]; simp)
  unfold Machine.ldrex
  split
  · rename_i hval
    refine hm.goto (hu eq (by simp)) fun _ n y hy => ?_
    cases heq (n, y) hy
    exact hval
  · refine hm.goto (hu ne (by simp)) fun _ n y hy => ?_
    rw [hne] at hy
    cases hy

/-- A store leaves every list and the running thread as they are. -/
theorem Placed.store (h : Placed k) (v : Ptr → ℤ) : Placed { k with val := v } :=
  h.same ⟨rfl, rfl, rfl, rfl, rfl, rfl, rfl⟩ rfl rfl

theorem Inv.strex {x : ℤ} {l : List Thread} {failed : Pc} (h : Inv s)
    (hl : s.exclusive = true → l.length ≤ 1 ∧ x + 1 = l.length + waiters m s.kernel ∧
      (l = [] → waiters m s.kernel = 0))
    (hholds : ∀ t ∈ s.holds m, t ≠ s.current → t ∈ l) (hf : failed.expects = none)
    (hu : ∀ n, failed.unlocks = some n → s.current ∈ s.holds n) :
    Inv (s.strex m x l .out failed) := by
  unfold Machine.strex
  split
  · rename_i hx
    obtain ⟨hone, hcount, hnil⟩ := hl hx
    refine ⟨Placed.store h.placed _, h.owned.update rfl (fun n _ => rfl) hone hcount hnil,
      fun t n ht => ?_, fun hx => by cases hx⟩
    by_cases hc : t = s.current
    · subst hc
      have hout : (Function.update s.pc s.current .out s.current).unlocks = some n := ht
      rw [Function.update_self] at hout
      cases hout
    · have hmem : t ∈ s.holds n := by
        refine h.unlocks t n ?_
        have hpc : (Function.update s.pc s.current .out t).unlocks = some n := ht
        rwa [Function.update_of_ne hc] at hpc
      show t ∈ Function.update s.holds m l n
      by_cases hn : n = m
      · subst hn
        rw [Function.update_self]
        exact hholds t hmem hc
      · rwa [Function.update_of_ne hn]
  · exact h.goto hu fun _ n y hy => by rw [hf] at hy; cases hy

/-! ### The slow path -/

theorem mem_lockHolds {t : Thread} {n : Ptr} (h : t ∈ holds n) : t ∈ lockHolds m k holds n := by
  unfold lockHolds
  split
  · by_cases hn : n = m
    · subst hn; simp [h]
    · simpa [hn] using h
  · exact h

theorem mem_unlockHolds {t : Thread} {n : Ptr} (h : t ∈ holds n) (hc : t ≠ k.current) :
    t ∈ unlockHolds m k holds n := by
  unfold unlockHolds
  by_cases hn : n = m
  · subst hn
    rw [Function.update_self]
    exact List.mem_append_right _ ((List.mem_erase_of_ne hc).mpr h)
  · simpa [hn] using h

/-- An entry takes a mutex from nobody but the thread that unlocks. -/
theorem mem_entryHolds {e : Entry} {t : Thread} {n : Ptr} (h : t ∈ holds n)
    (hc : isSvc e = true → t ≠ k.current) : t ∈ entryHolds k holds e n := by
  cases e with
  | svc c =>
    cases c with
    | mutexLock m => exact mem_lockHolds h
    | mutexUnlock m => exact mem_unlockHolds h (hc rfl)
    | condWait c m => exact mem_unlockHolds h (hc rfl)
    | _ => exact h
  | resume =>
    show t ∈ resumeHolds k holds n
    unfold resumeHolds
    cases k.kont k.current with
    | condLock m => exact mem_lockHolds h
    | _ => exact h
  | _ => exact h

theorem safe_of_disciplined {e : Entry} (h : Placed k) (ho : Owned k holds)
    (hc : ∀ m, unlocked e = some m → k.current ∈ holds m)
    (hs : unlocked e = none → Safe k e) : Safe k e := by
  cases hu : unlocked e with
  | none => exact hs hu
  | some m =>
    have hno := ho.not_noBlockingThreads h.toReady (hc m hu)
    cases e with
    | svc c =>
      cases c with
      | condWait c n => cases hu; exact hno
      | _ => trivial
    | _ => cases hu

theorem Inv.enter {e : Entry} (h : Inv s) (hpc : isSvc e = true → s.pc s.current = .out)
    (hc : ∀ m, unlocked e = some m → s.current ∈ s.holds m)
    (hs : unlocked e = none → Safe s.kernel e) (he : s.enter e = some s') :
    Inv s' ∧ Handed s.kernel s'.kernel s'.holds := by
  obtain ⟨k', hk, rfl⟩ := Option.map_eq_some_iff.mp he
  obtain ⟨hown, hhanded⟩ := step_owned h.owned h.placed hc hk
  have hsafe := safe_of_disciplined h.placed h.owned hc hs
  refine ⟨⟨step_placed _ e k' h.placed hsafe hk, hown, fun t m ht => ?_, fun hx => by cases hx⟩,
    hhanded⟩
  refine mem_entryHolds (h.unlocks t m ht) fun hsvc htc => ?_
  subst htc
  have hout := hpc hsvc
  rw [show s.pc s.kernel.current = .out from hout] at ht
  cases ht

/-! ### One step -/

/-- What a `strex` of a lock finds once the monitor is still set: no holder and no
waiter. -/
theorem Inv.lock_store (h : Inv s) (hx : s.exclusive = true)
    (hp : (s.pc s.current).expects = some (m, -1)) :
    (s.current :: s.holds m).length ≤ 1 ∧
      (0 : ℤ) + 1 = (s.current :: s.holds m).length + waiters m s.kernel ∧
      (s.current :: s.holds m = [] → waiters m s.kernel = 0) := by
  have hcount := h.owned.count m
  rw [h.expects hx m _ hp] at hcount
  have hnil : s.holds m = [] := List.length_eq_zero_iff.mp (by omega)
  have hw0 := h.owned.owned m hnil
  simp [hnil, hw0]

/-- What a `strex` of an unlock finds: the running thread holds and nobody waits. -/
theorem Inv.unlock_store (h : Inv s) (hp : s.pc s.current = .unlockStore m)
    (hx : s.exclusive = true) :
    ((s.holds m).erase s.current).length ≤ 1 ∧
      (-1 : ℤ) + 1 = ((s.holds m).erase s.current).length + waiters m s.kernel ∧
      ((s.holds m).erase s.current = [] → waiters m s.kernel = 0) := by
  have hholder := h.owned.holder (h.unlocks s.current m (by rw [hp]; rfl))
  have hcount := h.owned.count m
  rw [h.expects hx m 0 (by rw [hp]; rfl), hholder] at hcount
  have hw0 : waiters m s.kernel = 0 := by simp at hcount; omega
  simp [hholder, hw0]

theorem handed_ldrex {x : ℤ} {eq ne : Pc} {f : Ptr → List Thread} :
    Handed s.kernel (s.ldrex m x eq ne).kernel f :=
  handed_of_subset fun _ hw => hw

theorem handed_strex {x : ℤ} {l : List Thread} {done failed : Pc} {f : Ptr → List Thread} :
    Handed s.kernel (s.strex m x l done failed).kernel f := by
  refine handed_of_subset fun w hw => ?_
  unfold Machine.strex
  split <;> exact hw

theorem Inv.instr (h : Inv s) (he : s.instr = some s') :
    Inv s' ∧ Handed s.kernel s'.kernel s'.holds := by
  have hout : Inv (s.goto .out) := h.goto (fun m hm => by cases hm) fun _ m x hx => by cases hx
  have hpcout : (s.goto .out).pc s.current = .out := Function.update_self ..
  have hholds := h.unlocks s.current
  unfold Machine.instr at he
  split at he <;> rename_i hpc
  · cases he
  · cases he
    refine ⟨h.ldrex (by rw [hpc]; rfl) ?_ ?_ rfl, handed_ldrex⟩
    · simp [Pc.unlocks]
    · simp [Pc.expects]
  · cases he
    refine ⟨h.strex (fun hx => h.lock_store hx (by rw [hpc]; rfl)) ?_ rfl ?_, handed_strex⟩
    · exact fun t ht _ => List.mem_cons_of_mem _ ht
    · simp [Pc.unlocks]
  · refine hout.enter (fun _ => hpcout) ?_ ?_ he
    · simp [unlocked]
    · exact fun _ => trivial
  · cases he
    refine ⟨h.ldrex (by rw [hpc]; rfl) ?_ ?_ rfl, handed_ldrex⟩
    · simp [Pc.unlocks]
    · simp [Pc.expects]
  · cases he
    refine ⟨h.strex (fun hx => h.lock_store hx (by rw [hpc]; rfl)) ?_ rfl ?_, handed_strex⟩
    · exact fun t ht _ => List.mem_cons_of_mem _ ht
    · simp [Pc.unlocks]
  · cases he
    refine ⟨h.ldrex (by rw [hpc]; rfl) ?_ ?_ rfl, handed_ldrex⟩
    · simpa [Pc.unlocks, hpc] using hholds
    · simp [Pc.expects]
  · cases he
    refine ⟨h.strex (h.unlock_store hpc) ?_ rfl ?_, handed_strex⟩
    · exact fun t ht hne => (List.mem_erase_of_ne hne).mpr ht
    · simpa [Pc.unlocks, hpc] using hholds
  · refine hout.enter (fun _ => hpcout) (fun n hn => ?_) (fun hn => by cases hn) he
    exact hholds n (by rw [hpc]; exact hn)

/-- **One step.** -/
theorem step_inv (a : Act) (h : Inv s) (hd : Disciplined s a) (he : step s a = some s') :
    Inv s' ∧ Handed s.kernel s'.kernel s'.holds := by
  cases a with
  | call r m =>
    simp only [step, Option.ite_none_right_eq_some, Option.some.injEq] at he
    obtain ⟨-, rfl⟩ := he
    refine ⟨h.goto (fun n hn => ?_) fun _ n x hx => ?_, handed_of_subset fun w hw => hw⟩
    · cases r with
      | unlock => cases hn; exact hd
      | _ => cases hn
    · cases r <;> cases hx
  | instr =>
    simp only [step, Option.ite_none_right_eq_some] at he
    exact h.instr he.2
  | entry e =>
    simp only [step, Option.ite_none_right_eq_some] at he
    exact h.enter he.1 hd.1 hd.2 he.2
  | exception =>
    cases he
    exact ⟨h.monitor false (by simp), handed_of_subset fun w hw => hw⟩

end

theorem inv_init (b : Threads) : Inv (init b) := by
  refine ⟨placed_start b _, ⟨fun m => by simp [init], fun m => ?_, fun m _ => rfl⟩, fun t m ht => ?_,
    fun hx => by cases hx⟩
  · show (-1 : ℤ) + 1 = (0 : ℕ) + (waiters m (start b fun _ => -1) : ℤ)
    rfl
  · cases ht

/-- The complaint of `sys_pthread_mutex_unlock` is not reached. -/
theorem not_noBlockingThreads_unlockStep {s : Machine} {a : Act} {m : Ptr} {k : System} (h : Inv s)
    (hd : Disciplined s a) (hm : unlockStep s a = some (m, k)) : ¬ noBlockingThreads m k := by
  cases a with
  | call r n => cases hm
  | instr =>
    simp only [unlockStep] at hm
    split at hm
    · rename_i n hpc
      cases hm
      exact h.owned.not_noBlockingThreads h.placed.toReady (h.unlocks s.current m (by rw [hpc]; rfl))
    · cases hm
  | entry e =>
    cases e with
    | svc c =>
      cases c with
      | mutexUnlock n =>
        cases hm
        exact h.owned.not_noBlockingThreads h.placed.toReady (hd.1 m rfl)
      | condWait c n =>
        cases hm
        rintro ⟨hval, hfind⟩
        rw [findFirst_blockOnCond h.placed] at hfind
        exact h.owned.not_noBlockingThreads h.placed.toReady (hd.1 m rfl) ⟨hval, hfind⟩
      | _ => cases hm
    | _ => cases hm
  | exception => cases hm

/-- **Mutual exclusion.** In a run where only the holder unlocks or waits, every
mutex has at most one holder, and its word counts the holder and the waiters. A
counted waiter is always found, and the thread that leaves `mutex_head` holds the
mutex it waited for. -/
theorem runs_exclusive (b : Threads) (as : List Act)
    (hd : ∀ x ∈ trace step (init b) as, Disciplined x.pre x.act) :
    ∀ x ∈ trace step (init b) as,
      (∀ m, (x.post.holds m).length ≤ 1 ∧
        x.post.kernel.val m + 1 = (x.post.holds m).length + waiters m x.post.kernel) ∧
      (∀ m k, unlockStep x.pre x.act = some (m, k) → ¬ noBlockingThreads m k) ∧
      Handed x.pre.kernel x.post.kernel x.post.holds := by
  intro x hx
  obtain ⟨hpre, hpost⟩ :=
    trace_invariant (fun s a s' h hc he => (step_inv a h hc he).1) (inv_init b) hd x hx
  refine ⟨fun m => ⟨hpost.owned.one m, hpost.owned.count m⟩, fun m k hm => ?_, ?_⟩
  · exact not_noBlockingThreads_unlockStep hpre (hd x hx) hm
  · exact (step_inv x.act hpre (hd x hx) (step_of_mem_trace hx)).2

/-- The main thread locks a mutex on the fast path and lets a new thread run, which
has to wait for it. -/
def contended : List Act :=
  [.call .lock 8, .instr, .instr, .entry (.svc (.create (some 3))), .entry (.svc .yield),
    .call .lock 8, .instr, .instr]

theorem disciplined_of_mem_contended {a : Act} (ha : a ∈ contended) (s : Machine) :
    Disciplined s a := by
  simp only [contended, List.mem_cons, List.not_mem_nil, or_false] at ha
  rcases ha with rfl | rfl | rfl | rfl | rfl | rfl | rfl | rfl
  case inr.inr.inr.inl => exact ⟨fun _ hm => (nomatch hm), fun _ => trivial⟩
  case inr.inr.inr.inr.inl => exact ⟨fun _ hm => (nomatch hm), fun _ => trivial⟩
  all_goals trivial

/-- The main thread then unlocks it on the slow path. -/
theorem runs_exclusive_contended :
    (∀ x ∈ trace step (init threads) (contended ++ [.call .unlock 8, .instr, .instr]),
      Disciplined x.pre x.act) ∧
    ∃ s s', run step (init threads) (contended ++ [.call .unlock 8, .instr]) = some s ∧
      step s .instr = some s' ∧ s.kernel.mutexHead = [3] ∧ s'.kernel.mutexHead = [] ∧
      s'.holds 8 = [3] := by
  obtain ⟨s, hs, hcur⟩ : ∃ s, run step (init threads) contended = some s ∧
      s.current ∈ s.holds 8 := ⟨_, rfl, by decide +kernel⟩
  have hd : ∀ x ∈ trace step (init threads) (contended ++ [.call .unlock 8, .instr, .instr]),
      Disciplined x.pre x.act := by
    intro x hx
    rw [trace_append hs] at hx
    rcases List.mem_append.mp hx with hx | hx
    · exact disciplined_of_mem_contended (act_mem_of_mem_trace hx) _
    · cases ht : step s (.call .unlock 8) with
      | none => rw [trace_cons_none ht] at hx; cases hx
      | some t =>
        rw [trace_cons_some ht] at hx
        rcases List.mem_cons.mp hx with rfl | hx
        · exact hcur
        · have ha := act_mem_of_mem_trace hx
          simp only [List.mem_cons, List.not_mem_nil, or_false, or_self] at ha
          rw [ha]
          trivial
  refine ⟨hd, ?_⟩
  obtain ⟨u, u', hu, hstep, hbefore, hafter, hpriv⟩ : ∃ u u',
      run step (init threads) (contended ++ [.call .unlock 8, .instr]) = some u ∧
      step u .instr = some u' ∧ u.kernel.mutexHead = [3] ∧ u'.kernel.mutexHead = [] ∧
      u.kernel.tiPrivate 3 = 8 :=
    ⟨_, _, rfl, rfl, by decide +kernel, by decide +kernel, by decide +kernel⟩
  have hmem : ⟨u, .instr, u'⟩ ∈
      trace step (init threads) (contended ++ [.call .unlock 8, .instr, .instr]) :=
    mem_trace_of_run hu hstep
  have hhanded := (runs_exclusive threads _ hd _ hmem).2.2 3 (by rw [hbefore]; simp)
    (by rw [hafter]; simp)
  rw [hpriv] at hhanded
  exact ⟨u, u', hu, hstep, hbefore, hafter, hhanded⟩

end PikoRT.Sync.Pthread

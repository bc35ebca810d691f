import PikoRT.Libc.HeapLedger
import PikoRT.Time.TimerList

/-! # Timers and the heap

A timer takes two blocks of the heap: `timer_alloc` asks for the `struct timer_info`, and the
driver for its `struct systick_timer`. `timer_free` gives both back. The calls that allocate
or free are those of `Time.Timer` once more, here with the heap; what the memory they get
holds is a parameter of the call. -/
namespace PikoRT.Time.Alloc
open PikoRT.Lib.Run PikoRT.Lib.Rings PikoRT.Kernel.Bitops PikoRT.Kernel.LinuxList PikoRT.Kernel.ListFamily
open PikoRT.Libc PikoRT.Time.Timer
open PikoRT.Sched.Model (Thread)
open PikoRT.Libc.Malloc (Allocation Region)
open PikoRT.Libc.HeapRun (Modest)
open PikoRT.Libc.HeapRestore (BlockList)
open PikoRT.Libc.HeapLedger (Holding)

/-- `sizeof(struct timer_info)`, which depends on the `time_t` of the C library, and
`sizeof(struct systick_timer)`. -/
structure Sizes where
  timerInfo : Word
  systickTimer : Word
  modestInfo : Modest timerInfo
  modestTimer : Modest systickTimer

/-- What the memory holds that `malloc` returns. -/
structure Stale where
  info : TimerInfo
  next : Node Unit TimerAddr
  prev : Node Unit TimerAddr

def Stale.block (m : Stale) (t : TimerAddr) : Block := ⟨t, m.info, m.next, m.prev⟩

structure System where
  timers : Timers
  heap : Malloc.State
  /-- `timer->dev`. -/
  dev : TimerAddr → ℕ

/-- `malloc`, with the block noted as allocated. -/
def malloc (fuel : ℕ) (size : Word) (h : Malloc.State) : Option (Option ℕ × Malloc.State) :=
  (Malloc.malloc fuel size h.heap).map fun r =>
    (r.1, ⟨r.2, match r.1 with
      | some ptr => ⟨ptr, size⟩ :: h.live
      | none => h.live⟩)

/-- `free`. -/
def free (ptr : ℕ) (h : Malloc.State) : Option Malloc.State := Malloc.step h (.free ptr)

variable (z : Sizes)

def timerAlloc (fuel : ℕ) (m : Stale) (s : System) : Option (Option TimerAddr × System) :=
  (malloc fuel z.timerInfo s.heap).bind fun r =>
    match r.1 with
    | none => some (none, { s with heap := r.2 })
    | some t =>
      -- `systick_timer_alloc`
      (malloc fuel z.systickTimer r.2).bind fun q =>
        match q.1 with
        | none => (free t q.2).map fun h => (none, { s with heap := h })
        | some dev =>
          some (some t, ⟨Timer.timerAlloc (m.block t) s.timers, q.2, Function.update s.dev t dev⟩)

def timerFree (t : TimerAddr) (s : System) : Option System :=
  (free (s.dev t) s.heap).bind fun h => (free t h).map fun h =>
    { s with timers := Timer.timerFree t s.timers, heap := h }

/-- The end of `sys_timer_create`. -/
def enlist (t : TimerAddr) (id : ℕ) (bitmap : List Word) (sevp : Sigevent) (s : Timers) : Timers :=
  let s := s.setInfo t { s.info t with id := id, disarmed := true, sigev := sevp }
  { s with bitmap := bitmap, timerHead := t :: s.timerHead }

/-- With the value the call returns, -1, `EAGAIN` or 0, and what it leaves in `*timerid`. -/
def sysTimerCreate (fuel : ℕ) (m : Stale) (sevp : Sigevent) (s : System) : Option ((ℤ × Option ℕ) × System) :=
  (timerAlloc z fuel m s).bind fun r =>
    match r.1 with
    | none => some ((-1, none), r.2)
    | some t =>
      match reserveTimerId r.2.timers.bitmap with
      | none => (timerFree t r.2).map fun s => ((11, none), s)
      | some (id, bitmap) => some ((0, some id), { r.2 with timers := enlist t id bitmap sevp r.2.timers })

/-- `sys_msleep` between `timer_alloc` and `sched_elect`. -/
def fallAsleep (t : TimerAddr) (msec : Word) (currThread : Thread) (s : Timers) : Timers :=
  let s := s.setInfo t { s.info t with
    owner := currThread, disarmed := false, type := .oneshot, callback := some .msleepCallback }
  let s := systickTimerSet t (msecTimespec msec) s
  { s with sleeping := t :: s.sleeping }

/-- With the timer of the call, if it sleeps; else it returns -1. -/
def sysMsleep (fuel : ℕ) (m : Stale) (msec : Word) (currThread : Thread) (s : System) :
    Option (Option TimerAddr × System) :=
  (timerAlloc z fuel m s).map fun r =>
    match r.1 with
    | none => (none, r.2)
    | some t => (some t, { r.2 with timers := fallAsleep t msec currThread r.2.timers })

def sysMsleepReturn (t : TimerAddr) (s : System) : Option System :=
  timerFree t { s with timers := { s.timers with sleeping := s.timers.sleeping.erase t } }

inductive Act where
  | timerCreate (fuel : ℕ) (m : Stale) (sevp : Sigevent)
  | timerSettime (timerid : ℕ) (newValue : Itimerspec) (currThread : Thread)
  | msleep (fuel : ℕ) (m : Stale) (msec : Word) (currThread : Thread)
  | msleepReturn (t : TimerAddr)
  | systick
  | systickBh (fuel : ℕ)

/-- A thread returns from `sys_msleep` when the callback has enqueued it. -/
def step (s : System) : Act → Option System
  | .timerCreate fuel m sevp => (sysTimerCreate z fuel m sevp s).map Prod.snd
  | .timerSettime timerid newValue currThread =>
    some { s with timers := (sysTimerSettime timerid newValue currThread s.timers).2 }
  | .msleep fuel m msec currThread => (sysMsleep z fuel m msec currThread s).map Prod.snd
  | .msleepReturn t =>
    if t ∈ s.timers.sleeping ∧ (s.timers.info t).disarmed = true then sysMsleepReturn t s else none
  | .systick => some { s with timers := Timer.systick s.timers }
  | .systickBh fuel => (systickBh fuel s.timers).map fun t => { s with timers := t }

/-! ## The calls of `Time.Timer` -/

/-- The memory that `timer_alloc` returns. -/
def granted (fuel : ℕ) (m : Stale) (s : System) : Option Block :=
  ((timerAlloc z fuel m s).bind Prod.fst).map m.block

/-- The step without the heap. -/
def timerAct (s : System) : Act → Timer.Act
  | .timerCreate fuel m sevp => .timerCreate (granted z fuel m s) sevp
  | .timerSettime timerid newValue currThread => .timerSettime timerid newValue currThread
  | .msleep fuel m msec currThread => .msleep (granted z fuel m s) msec currThread
  | .msleepReturn t => .msleepReturn t
  | .systick => .systick
  | .systickBh fuel => .systickBh fuel

/-- The step keeps the list of the timers. -/
def Meets (s : System) (a : Act) : Prop := TimerList.Meets s.timers (timerAct z s a)

/-- The blocks of the timers. -/
def blocks (dev : TimerAddr → ℕ) (ts : List TimerAddr) : List Allocation :=
  ts.flatMap fun t => [⟨dev t, z.systickTimer⟩, ⟨t, z.timerInfo⟩]

def users (s : Timers) : List TimerAddr := s.timerHead ++ s.sleeping

/-- The allocated timers are those of the users. -/
def Owned (s : Timers) : Prop := ∀ t, s.allocated t = true → t ∈ users s

/-- The list is kept, and in addition to those of `h₀` the blocks in use are those of the
timers. -/
structure Kept (g : Region) (h₀ : Malloc.State) (s : System) : Prop where
  list : ∃ xs, TimerList.Inv s.timers xs
  held : Holding g h₀ s.heap (blocks z s.dev (users s.timers))
  owned : Owned s.timers

/-- The heap is in use as `h₀` is, and there are no timers yet. -/
def start (h₀ : Malloc.State) (mem : Memory Unit TimerAddr) (info : TimerAddr → TimerInfo) (dev : TimerAddr → ℕ) :
    System :=
  ⟨init mem info, h₀, dev⟩

section

variable {z} {g : Region} {h₀ h h' : Malloc.State} {us : List Allocation} {s s' : System} {fuel : ℕ} {m : Stale}
  {t : TimerAddr} {ts : List TimerAddr}

/-! ## `timer_alloc` and `timer_free` -/

theorem malloc_spec {size : Word} {r : Option ℕ × Malloc.State} (hh : Holding g h₀ h us) (hm : Modest size)
    (he : malloc fuel size h = some r) :
    r = (none, h) ∨ ∃ ptr, r.1 = some ptr ∧ ptr ∉ h.live.map Allocation.ptr ∧
      Holding g h₀ r.2 (⟨ptr, size⟩ :: us) := by
  obtain ⟨q, hq, rfl⟩ := Option.map_eq_some_iff.mp he
  obtain ⟨p, k⟩ := q
  cases p with
  | none =>
    obtain rfl := hh.malloc_none hm hq
    exact .inl rfl
  | some ptr =>
    obtain ⟨hheld, hnew⟩ := hh.malloc hm hq
    exact .inr ⟨ptr, rfl, hnew, hheld⟩

/-- **`timer_alloc`** gets both blocks, or leaves everything as it was. -/
theorem timerAlloc_spec {r : Option TimerAddr × System} (hh : Holding g h₀ s.heap us)
    (he : timerAlloc z fuel m s = some r) :
    (r.1 = none ∧ r.2.timers = s.timers ∧ r.2.dev = s.dev ∧ Holding g h₀ r.2.heap us) ∨
    ∃ t d, r.1 = some t ∧ r.2.timers = Timer.timerAlloc (m.block t) s.timers ∧
      r.2.dev = Function.update s.dev t d ∧ t ∉ s.heap.live.map Allocation.ptr ∧
      Holding g h₀ r.2.heap (⟨d, z.systickTimer⟩ :: ⟨t, z.timerInfo⟩ :: us) := by
  obtain ⟨q, hq, he⟩ := Option.bind_eq_some_iff.mp he
  rcases malloc_spec hh z.modestInfo hq with rfl | ⟨t, hqt, hnew, hheld⟩
  · obtain rfl := Option.some.inj he
    exact .inl ⟨rfl, rfl, rfl, hh⟩
  · rw [hqt] at he
    obtain ⟨p, hp, he⟩ := Option.bind_eq_some_iff.mp he
    rcases malloc_spec hheld z.modestTimer hp with rfl | ⟨d, hpd, -, hboth⟩
    · obtain ⟨k, hk, rfl⟩ := Option.map_eq_some_iff.mp he
      obtain ⟨k', hk', hback⟩ := hheld.free
      obtain rfl : k' = k := Option.some.inj (hk'.symm.trans hk)
      exact .inl ⟨rfl, rfl, rfl, hback⟩
    · rw [hpd] at he
      obtain rfl := Option.some.inj he
      exact .inr ⟨t, d, rfl, rfl, rfl, hnew, hboth⟩

/-- **`timer_free`** gives both blocks back. -/
theorem timerFree_spec
    (hh : Holding g h₀ s.heap (⟨s.dev t, z.systickTimer⟩ :: ⟨t, z.timerInfo⟩ :: us)) :
    ∃ k, timerFree t s = some { s with timers := Timer.timerFree t s.timers, heap := k } ∧ Holding g h₀ k us := by
  obtain ⟨k, hk, hheld⟩ := hh.free
  obtain ⟨k', hk', hheld'⟩ := hheld.free
  refine ⟨k', ?_, hheld'⟩
  unfold timerFree free
  rw [hk, Option.bind_some, hk']
  rfl

/-! ## Who uses the timers -/

theorem timerFree_rest (t : TimerAddr) (s : Timers) :
    (Timer.timerFree t s).allocated = Function.update s.allocated t false ∧
      users (Timer.timerFree t s) = users s := by
  obtain ⟨l, he⟩ := timerFree_writes t s
  rw [he]
  exact ⟨rfl, rfl⟩

theorem users_sysMsleepReturn (t : TimerAddr) (s : Timers) :
    users (Timer.sysMsleepReturn t s) = s.timerHead ++ s.sleeping.erase t := (timerFree_rest t _).2

theorem sysMsleep_rest (b : Block) (msec : Word) (c : Thread) (s : Timers) :
    (Timer.sysMsleep (some b) msec c s).allocated = Function.update s.allocated b.addr true ∧
      users (Timer.sysMsleep (some b) msec c s) = s.timerHead ++ b.addr :: s.sleeping := by
  obtain ⟨i, l, he⟩ := sysMsleep_writes b msec c s
  rw [he]
  exact ⟨rfl, rfl⟩

/-- A timer id is left. -/
theorem sysTimerCreate_reserved {b : Block} {sevp : Sigevent} {r : Timers} {id : ℕ} {bitmap : List Word}
    (hid : reserveTimerId r.bitmap = some (id, bitmap)) :
    (Timer.sysTimerCreate (some b) sevp r).2 = enlist b.addr id bitmap sevp (Timer.timerAlloc b r) := by
  have hid' : reserveTimerId (Timer.timerAlloc b r).bitmap = some (id, bitmap) := hid
  simp only [Timer.sysTimerCreate, hid']
  rfl

/-- None is left. -/
theorem sysTimerCreate_exhausted {b : Block} {sevp : Sigevent} {r : Timers} (hid : reserveTimerId r.bitmap = none) :
    (Timer.sysTimerCreate (some b) sevp r).2 = Timer.timerFree b.addr (Timer.timerAlloc b r) := by
  have hid' : reserveTimerId (Timer.timerAlloc b r).bitmap = none := hid
  simp only [Timer.sysTimerCreate, hid']

theorem sysTimerSettime_rest (timerid : ℕ) (newValue : Itimerspec) (c : Thread) (s : Timers) :
    (sysTimerSettime timerid newValue c s).2.allocated = s.allocated ∧
      users (sysTimerSettime timerid newValue c s).2 = users s := by
  rcases TimerList.sysTimerSettime_writes timerid newValue c s with he | ⟨t, i, l, -, he⟩
  · rw [he]
    exact ⟨rfl, rfl⟩
  · rw [he]
    exact ⟨rfl, rfl⟩

/-! ## Calls -/

theorem granted_eq {r : Option TimerAddr × System} (he : timerAlloc z fuel m s = some r) :
    granted z fuel m s = r.1.map m.block := by
  unfold granted
  rw [he]
  rfl

/-- What `timer_alloc` got, if the call for it keeps one timer more. -/
structure Gets (z : Sizes) (g : Region) (h₀ : Malloc.State) (us : List Allocation) (s s' : System) (t : TimerAddr) :
    Prop where
  new : t ∉ s.heap.live.map Allocation.ptr
  dev : ∀ u, u ≠ t → s'.dev u = s.dev u
  held : Holding g h₀ s'.heap (blocks z s'.dev [t] ++ us)

/-- What is left if it keeps none. -/
structure Loses (g : Region) (h₀ : Malloc.State) (us : List Allocation) (s s' : System) : Prop where
  dev : ∀ u, u ∈ s.heap.live.map Allocation.ptr → s'.dev u = s.dev u
  held : Holding g h₀ s'.heap us

/-- **`sys_timer_create`**: no memory; no timer id; or one timer more. -/
theorem sysTimerCreate_spec {sevp : Sigevent} {r : ℤ × Option ℕ} (hh : Holding g h₀ s.heap us)
    (he : sysTimerCreate z fuel m sevp s = some (r, s')) :
    s'.timers = (Timer.sysTimerCreate (granted z fuel m s) sevp s.timers).2 ∧
      (r = (-1, none) ∧ granted z fuel m s = none ∧ Loses g h₀ us s s' ∨
        (∃ t, r = (11, none) ∧ granted z fuel m s = some (m.block t) ∧ reserveTimerId s.timers.bitmap = none ∧
          Loses g h₀ us s s') ∨
        ∃ t id bitmap, r = (0, some id) ∧ granted z fuel m s = some (m.block t) ∧
          reserveTimerId s.timers.bitmap = some (id, bitmap) ∧ Gets z g h₀ us s s' t) := by
  obtain ⟨q, hq, he⟩ := Option.bind_eq_some_iff.mp he
  rw [granted_eq hq]
  rcases timerAlloc_spec hh hq with ⟨hn, hsame, hdev, hheld⟩ | ⟨t, d, hs, hsame, hdev, hnew, hheld⟩
  · rw [hn] at he ⊢
    obtain ⟨rfl, rfl⟩ := Prod.mk.inj (Option.some.inj he)
    exact ⟨hsame, .inl ⟨rfl, rfl, fun _ _ => by rw [hdev], hheld⟩⟩
  · have hother : ∀ u, u ≠ t → q.2.dev u = s.dev u := by
      intro u hu
      rw [hdev, Function.update_of_ne hu]
    have hbits : (Timer.timerAlloc (m.block t) s.timers).bitmap = s.timers.bitmap := rfl
    simp only [hs, hsame, hbits, Option.map_some, Timer.sysTimerCreate] at he ⊢
    cases hid : reserveTimerId s.timers.bitmap with
    | none =>
      rw [hid] at he
      obtain ⟨v, hv, he⟩ := Option.map_eq_some_iff.mp he
      obtain ⟨rfl, rfl⟩ := Prod.mk.inj he
      have hboth : Holding g h₀ q.2.heap (⟨q.2.dev t, z.systickTimer⟩ :: ⟨t, z.timerInfo⟩ :: us) := by
        rw [hdev, Function.update_self]
        exact hheld
      obtain ⟨k, hk, hback⟩ := timerFree_spec hboth
      obtain rfl := Option.some.inj (hv.symm.trans hk)
      refine ⟨by rw [hsame]; rfl, .inr (.inl ⟨t, rfl, rfl, rfl, fun u hu => hother u ?_, hback⟩)⟩
      rintro rfl
      exact hnew hu
    | some p =>
      rw [hid] at he
      obtain ⟨rfl, rfl⟩ := Prod.mk.inj (Option.some.inj he)
      refine ⟨rfl, .inr (.inr ⟨t, p.1, p.2, rfl, rfl, rfl, hnew, hother, ?_⟩)⟩
      simpa [blocks, hdev] using hheld

/-- **`sys_msleep`** up to its `sched_elect`: no memory, or one timer more. -/
theorem sysMsleep_spec {msec : Word} {c : Thread} {r : Option TimerAddr} (hh : Holding g h₀ s.heap us)
    (he : sysMsleep z fuel m msec c s = some (r, s')) :
    s'.timers = Timer.sysMsleep (granted z fuel m s) msec c s.timers ∧
      (r = none ∧ granted z fuel m s = none ∧ Loses g h₀ us s s' ∨
        ∃ t, r = some t ∧ granted z fuel m s = some (m.block t) ∧ Gets z g h₀ us s s' t) := by
  obtain ⟨q, hq, he⟩ := Option.map_eq_some_iff.mp he
  rw [granted_eq hq]
  rcases timerAlloc_spec hh hq with ⟨hn, hsame, hdev, hheld⟩ | ⟨t, d, hs, hsame, hdev, hnew, hheld⟩
  · rw [hn] at he ⊢
    obtain ⟨rfl, rfl⟩ := Prod.mk.inj he
    exact ⟨hsame, .inl ⟨rfl, rfl, fun _ _ => by rw [hdev], hheld⟩⟩
  · rw [hs] at he ⊢
    obtain ⟨rfl, rfl⟩ := Prod.mk.inj he
    refine ⟨by rw [hsame]; rfl, .inr ⟨t, rfl, rfl, hnew, fun u hu => ?_, ?_⟩⟩
    · exact (congrFun hdev u).trans (Function.update_of_ne hu _ _)
    · simpa [blocks, hdev] using hheld

/-! ## One step -/

theorem mem_blocks {dev : TimerAddr → ℕ} (ht : t ∈ ts) : (⟨t, z.timerInfo⟩ : Allocation) ∈ blocks z dev ts :=
  List.mem_flatMap.mpr ⟨t, ht, by simp⟩

theorem blocks_congr {dev dev' : TimerAddr → ℕ} (h : ∀ t ∈ ts, dev' t = dev t) : blocks z dev' ts = blocks z dev ts :=
  List.flatMap_congr fun t ht => by rw [h t ht]

theorem Kept.mem_live (h : Kept z g h₀ s) (ht : t ∈ users s.timers) : t ∈ s.heap.live.map Allocation.ptr :=
  h.held.mem_live (List.mem_append_left _ (mem_blocks ht))

/-- Memory that `malloc` returns is not that of a timer. -/
theorem Kept.fresh (h : Kept z g h₀ s) (ht : t ∉ s.heap.live.map Allocation.ptr) : s.timers.allocated t = false := by
  by_contra ha
  exact ht (h.mem_live (h.owned t (by simpa using ha)))

theorem Kept.gets (h : Kept z g h₀ s) (hg : Gets z g h₀ (blocks z s.dev (users s.timers)) s s' t) :
    Holding g h₀ s'.heap (blocks z s'.dev (t :: users s.timers)) := by
  have hsame : blocks z s'.dev (users s.timers) = blocks z s.dev (users s.timers) := by
    refine blocks_congr fun u hu => hg.dev u ?_
    rintro rfl
    exact hg.new (h.mem_live hu)
  have hcons : blocks z s'.dev (t :: users s.timers) = blocks z s'.dev [t] ++ blocks z s.dev (users s.timers) := by
    rw [← hsame]
    rfl
  rw [hcons]
  exact hg.held

theorem Kept.loses (h : Kept z g h₀ s) (hl : Loses g h₀ (blocks z s.dev (users s.timers)) s s') :
    Holding g h₀ s'.heap (blocks z s'.dev (users s.timers)) := by
  rw [blocks_congr fun u hu => hl.dev u (h.mem_live hu)]
  exact hl.held

/-- A thread that returns from `sys_msleep` gives its blocks back. -/
theorem sysMsleepReturn_spec (h : Kept z g h₀ s) (ht : t ∈ s.timers.sleeping) :
    ∃ k, sysMsleepReturn t s = some { s with timers := Timer.sysMsleepReturn t s.timers, heap := k } ∧
      Holding g h₀ k (blocks z s.dev (users (Timer.sysMsleepReturn t s.timers))) := by
  have hperm : (users s.timers).Perm (t :: (s.timers.timerHead ++ s.timers.sleeping.erase t)) :=
    ((List.perm_cons_erase ht).append_left _).trans List.perm_middle
  have hheld := h.held.perm (hperm.flatMap_right _)
  rw [users_sysMsleepReturn]
  exact timerFree_spec (s := { s with timers := { s.timers with sleeping := s.timers.sleeping.erase t } }) hheld

theorem Kept.validMem (h : Kept z g h₀ s) (fuel : ℕ) (m : Stale) :
    validMem s.timers (granted z fuel m s) = true := by
  cases hr : timerAlloc z fuel m s with
  | none =>
    unfold granted
    rw [hr]
    rfl
  | some r =>
    rw [granted_eq hr]
    rcases timerAlloc_spec h.held hr with ⟨hn, -⟩ | ⟨t, d, hs, -, -, hnew, -⟩
    · rw [hn]
      rfl
    · rw [hs]
      simpa [Timer.validMem, Stale.block] using h.fresh hnew

/-- **The step without the heap** is the step of the timers. -/
theorem step_timers {a : Act} (h : Kept z g h₀ s) (he : step z s a = some s') :
    Timer.step s.timers (timerAct z s a) = some s'.timers := by
  cases a with
  | timerCreate fuel m sevp =>
    obtain ⟨⟨r, w⟩, hr, rfl⟩ := Option.map_eq_some_iff.mp he
    obtain ⟨htimers, -⟩ := sysTimerCreate_spec h.held hr
    exact (if_pos (h.validMem fuel m)).trans (congrArg some htimers.symm)
  | timerSettime timerid newValue c =>
    cases he
    rfl
  | msleep fuel m msec c =>
    obtain ⟨⟨r, w⟩, hr, rfl⟩ := Option.map_eq_some_iff.mp he
    obtain ⟨htimers, -⟩ := sysMsleep_spec h.held hr
    exact (if_pos (h.validMem fuel m)).trans (congrArg some htimers.symm)
  | msleepReturn t =>
    obtain ⟨⟨ht, -⟩, he⟩ := Option.ite_none_right_eq_some.mp he
    obtain ⟨k, hk, -⟩ := sysMsleepReturn_spec h ht
    obtain rfl := Option.some.inj (he.symm.trans hk)
    exact if_pos ht
  | systick =>
    cases he
    rfl
  | systickBh fuel =>
    obtain ⟨v, hv, rfl⟩ := Option.map_eq_some_iff.mp he
    exact hv

/-! ## Who has the memory -/

theorem Owned.same {r r' : Timers} (h : Owned r) (ha : r'.allocated = r.allocated) (hu : users r' = users r) :
    Owned r' := by
  intro t ht
  rw [hu]
  exact h t (ha ▸ ht)

theorem Owned.add {r r' : Timers} (h : Owned r) (ha : r'.allocated = Function.update r.allocated t true)
    (hu : (users r').Perm (t :: users r)) : Owned r' := by
  intro u hal
  rw [hu.mem_iff]
  by_cases hut : u = t
  · rw [hut]
    exact List.mem_cons_self
  · rw [ha, Function.update_of_ne hut] at hal
    exact List.mem_cons_of_mem _ (h u hal)

/-- `timer_free` of a timer that has left its user. -/
theorem Owned.remove {r r' : Timers} (h : Owned r) (ha : r'.allocated = Function.update r.allocated t false)
    (hu : ∀ u, u ≠ t → u ∈ users r → u ∈ users r') : Owned r' := by
  intro u hal
  have hut : u ≠ t := by
    rintro rfl
    rw [ha, Function.update_self] at hal
    cases hal
  rw [ha, Function.update_of_ne hut] at hal
  exact hu u hut (h u hal)

/-- Every step keeps account of the blocks. -/
theorem step_accounts {a : Act} (h : Kept z g h₀ s) (he : step z s a = some s') :
    Holding g h₀ s'.heap (blocks z s'.dev (users s'.timers)) ∧ Owned s'.timers := by
  cases a with
  | timerCreate fuel m sevp =>
    obtain ⟨⟨r, w⟩, hr, rfl⟩ := Option.map_eq_some_iff.mp he
    obtain ⟨htimers, hcases⟩ := sysTimerCreate_spec h.held hr
    rw [htimers]
    rcases hcases with ⟨-, hg, hl⟩ | ⟨t, -, hg, hid, hl⟩ | ⟨t, id, bitmap, -, hg, hid, hgets⟩
    · rw [hg]
      exact ⟨h.loses hl, h.owned⟩
    · rw [hg, sysTimerCreate_exhausted hid]
      obtain ⟨ha, hu⟩ := timerFree_rest t (Timer.timerAlloc (m.block t) s.timers)
      refine ⟨?_, h.owned.remove (t := t) (ha.trans (Function.update_idem ..)) fun u _ hmem => ?_⟩
      · show Holding g h₀ w.heap (blocks z w.dev (users (Timer.timerFree t _)))
        rw [hu]
        exact h.loses hl
      · show u ∈ users (Timer.timerFree t _)
        rw [hu]
        exact hmem
    · rw [hg, sysTimerCreate_reserved hid]
      exact ⟨h.gets hgets, h.owned.add rfl (.refl _)⟩
  | timerSettime timerid newValue c =>
    cases he
    obtain ⟨ha, hu⟩ := sysTimerSettime_rest timerid newValue c s.timers
    refine ⟨?_, h.owned.same ha hu⟩
    rw [hu]
    exact h.held
  | msleep fuel m msec c =>
    obtain ⟨⟨r, w⟩, hr, rfl⟩ := Option.map_eq_some_iff.mp he
    obtain ⟨htimers, hcases⟩ := sysMsleep_spec h.held hr
    rw [htimers]
    rcases hcases with ⟨-, hg, hl⟩ | ⟨t, -, hg, hgets⟩
    · rw [hg]
      exact ⟨h.loses hl, h.owned⟩
    · rw [hg]
      obtain ⟨ha, hu⟩ := sysMsleep_rest (m.block t) msec c s.timers
      have hperm : (users (Timer.sysMsleep (some (m.block t)) msec c s.timers)).Perm (t :: users s.timers) := by
        rw [hu]
        exact List.perm_middle
      exact ⟨(h.gets hgets).perm (hperm.symm.flatMap_right _), h.owned.add ha hperm⟩
  | msleepReturn t =>
    obtain ⟨⟨ht, -⟩, he⟩ := Option.ite_none_right_eq_some.mp he
    obtain ⟨k, hk, hheld⟩ := sysMsleepReturn_spec h ht
    obtain rfl := Option.some.inj (he.symm.trans hk)
    refine ⟨hheld, h.owned.remove (timerFree_rest t _).1 fun u hut hu => ?_⟩
    show u ∈ users (Timer.sysMsleepReturn t s.timers)
    rw [users_sysMsleepReturn, List.mem_append, List.mem_erase_of_ne hut]
    exact List.mem_append.mp hu
  | systick =>
    cases he
    exact ⟨h.held, h.owned⟩
  | systickBh fuel =>
    obtain ⟨v, hv, rfl⟩ := Option.map_eq_some_iff.mp he
    obtain ⟨xs, hi⟩ := h.list
    obtain ⟨-, hh⟩ := TimerList.systickBh_inv hi hv
    have hu : users v = users s.timers := congrArg₂ _ hh.timerHead hh.sleeping
    refine ⟨?_, h.owned.same hh.allocated hu⟩
    show Holding g h₀ s.heap (blocks z s.dev (users v))
    rw [hu]
    exact h.held

/-- **One step** that keeps the list keeps the account. -/
theorem step_kept {a : Act} (h : Kept z g h₀ s) (hm : Meets z s a) (he : step z s a = some s') :
    Kept z g h₀ s' := by
  obtain ⟨hheld, howned⟩ := step_accounts h he
  exact ⟨TimerList.step_inv h.list hm (step_timers h he), hheld, howned⟩

theorem kept_start (h₀ : Malloc.State) (mem : Memory Unit TimerAddr) (info : TimerAddr → TimerInfo)
    (dev : TimerAddr → ℕ) (hi : ∃ xs, HeapRun.Inv g h₀ xs) : Kept z g h₀ (start h₀ mem info dev) := by
  obtain ⟨xs, hi⟩ := hi
  exact ⟨⟨[], TimerList.inv_init mem info⟩, .refl hi, fun t ht => (nomatch ht)⟩

end

/-! ## Concrete runs -/

/-- A heap of 8 KB. -/
def region : Region where
  start := 0x20000000
  size := 8192#32
  aligned := HeapRun.smallRegion.aligned
  words := by decide
  atLeast := by decide
  atMost := by decide

def sizes : Sizes := ⟨80#32, 20#32, by simp [HeapRun.Modest], by simp [HeapRun.Modest]⟩

def boot : System :=
  start (Malloc.init region HeapRun.zeroed) TimerList.memory (fun _ => TimerList.garbage) fun _ => 0

theorem kept_boot : Kept sizes region (Malloc.init region HeapRun.zeroed) boot :=
  kept_start _ _ _ _ ⟨_, HeapRun.inv_init region HeapRun.zeroed⟩

/-- `disarmed` is zero, and the pointers are those of a node of `systick_timers`. -/
def armedMemory : Stale := ⟨TimerList.garbage, systickTimers, .poison1⟩

def disarmedMemory : Stale := { armedMemory with info := { TimerList.garbage with disarmed := true } }

end PikoRT.Time.Alloc

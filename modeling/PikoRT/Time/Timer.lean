import PikoRT.Kernel.Bitops
import PikoRT.Kernel.LinuxList
import PikoRT.Sched.Model

/-! # Timers

`kernel/time.c`, `drivers/timer/timercore.c` and `drivers/timer/systick.c`. A timer is
the `struct timer_info` together with the `struct systick_timer` of the driver: the two
are allocated and freed together. The driver links the timers that run in
`systick_timers`, through nodes that hold anything before the first `list_add`, and
the flag `disarmed` is to say which these are.

`sys_msleep` gives up the processor between `timer_set` and `timer_free`, so it is two
steps here. The other calls and the bottom half run to their end. -/
namespace PikoRT.Time.Timer
open PikoRT.Kernel.Bitops PikoRT.Kernel.LinuxList PikoRT.Sched.Model

/-- A `struct timer_info *`. -/
abbrev TimerAddr := ℕ

/-- An `unsigned long` that counts milliseconds. -/
abbrev Clock := BitVec 32

structure Timespec where
  tvSec : ℤ
  tvNsec : ℤ
  deriving DecidableEq, Repr

def Timespec.zero : Timespec := ⟨0, 0⟩

structure Itimerspec where
  itInterval : Timespec
  itValue : Timespec
  deriving DecidableEq, Repr

/-- The fields of `struct sigevent` that `do_sigevent` reads. -/
structure Sigevent where
  sigevValue : ℤ
  sigevNotifyFunction : BitVec 32
  deriving DecidableEq, Repr

inductive TimerType where
  | oneshot
  | interval
  deriving DecidableEq, Repr

inductive Callback where
  | msleepCallback
  | timerCallback
  | timerCallbackAndLink
  deriving DecidableEq, Repr

structure TimerInfo where
  id : ℕ
  disarmed : Bool
  type : TimerType
  callback : Option Callback
  owner : Thread
  value : Itimerspec
  sigev : Sigevent
  startClocktime : Clock
  expireClocktime : Clock
  deriving DecidableEq, Repr

/-- A callback ran: the thread it was for, and the event for `do_sigevent`, which
`msleep_callback` has none of. -/
structure Fire where
  timer : TimerAddr
  owner : Thread
  sigev : Option Sigevent
  deriving DecidableEq, Repr

structure Timers where
  clocktimeInMsec : Clock
  /-- The nodes of `systick_timers`. -/
  links : Memory Unit TimerAddr
  info : TimerAddr → TimerInfo
  allocated : TimerAddr → Bool
  timerHead : List TimerAddr
  /-- `bitmap` of `reserve_timer_id`. -/
  bitmap : List Word
  /-- The timers of the calls of `sys_msleep` in progress. -/
  sleeping : List TimerAddr
  /-- The callbacks so far. -/
  fired : List Fire

def systickTimers : Node Unit TimerAddr := .head ()

namespace Timers

def setInfo (t : TimerAddr) (i : TimerInfo) (s : Timers) : Timers :=
  { s with info := Function.update s.info t i }

def setLinks (l : Memory Unit TimerAddr) (s : Timers) : Timers := { s with links := l }

variable (t : TimerAddr) (i : TimerInfo) (l : Memory Unit TimerAddr) (s : Timers)

@[simp] theorem setInfo_info : (s.setInfo t i).info = Function.update s.info t i := rfl

@[simp] theorem setInfo_links : (s.setInfo t i).links = s.links := rfl

@[simp] theorem setInfo_clocktimeInMsec : (s.setInfo t i).clocktimeInMsec = s.clocktimeInMsec := rfl

@[simp] theorem setLinks_info : (s.setLinks l).info = s.info := rfl

@[simp] theorem setLinks_links : (s.setLinks l).links = l := rfl

@[simp] theorem setLinks_clocktimeInMsec : (s.setLinks l).clocktimeInMsec = s.clocktimeInMsec := rfl

end Timers

/-! ## The driver -/

/-- What `malloc` returns: memory that nothing uses, and what it holds. -/
structure Block where
  addr : TimerAddr
  info : TimerInfo
  next : Node Unit TimerAddr
  prev : Node Unit TimerAddr

def timerAlloc (b : Block) (s : Timers) : Timers :=
  { s with
    allocated := Function.update s.allocated b.addr true
    info := Function.update s.info b.addr b.info
    links := (s.links.setNext (.item b.addr) b.next).setPrev (.item b.addr) b.prev }

/-- The clock after so much time. -/
def after (value : Timespec) (clock : Clock) : Clock :=
  clock + BitVec.ofInt 32 (value.tvSec * 1000) + BitVec.ofInt 32 (value.tvNsec.tdiv 1000000)

def systickTimerSet (t : TimerAddr) (value : Timespec) (s : Timers) : Timers :=
  if value = .zero then s.setLinks (listDel (.item t) s.links)
  else
    (s.setInfo t { s.info t with
      startClocktime := s.clocktimeInMsec, expireClocktime := after value s.clocktimeInMsec }).setLinks
      (listAdd (.item t) systickTimers s.links)

theorem systickTimerSet_zero (t : TimerAddr) (s : Timers) :
    systickTimerSet t .zero s = s.setLinks (listDel (.item t) s.links) := if_pos rfl

theorem systickTimerSet_of_ne (t : TimerAddr) {value : Timespec} (hv : value ≠ .zero) (s : Timers) :
    systickTimerSet t value s =
      (s.setInfo t { s.info t with
        startClocktime := s.clocktimeInMsec, expireClocktime := after value s.clocktimeInMsec }).setLinks
        (listAdd (.item t) systickTimers s.links) := if_neg hv

/-- It writes the fields of the timer and the links. -/
theorem systickTimerSet_writes (t : TimerAddr) (value : Timespec) (s : Timers) :
    ∃ i l, systickTimerSet t value s = (s.setInfo t i).setLinks l := by
  by_cases hv : value = .zero
  · refine ⟨s.info t, listDel (.item t) s.links, ?_⟩
    rw [hv, systickTimerSet_zero, Timers.setInfo, Function.update_eq_self]
  · exact ⟨_, _, systickTimerSet_of_ne t hv s⟩

/-- `it_interval` of the caller's `struct itimerspec` stays what it was. -/
def systickTimerGet (t : TimerAddr) (currValue : Itimerspec) (s : Timers) : Itimerspec :=
  let msecs := s.clocktimeInMsec - (s.info t).startClocktime
  { currValue with itValue := ⟨msecs.toNat / 1000, msecs.toNat % 1000 * 1000000⟩ }

def timerFree (t : TimerAddr) (s : Timers) : Timers :=
  let s := if (s.info t).disarmed = false then systickTimerSet t .zero s else s
  { s with allocated := Function.update s.allocated t false }

theorem timerFree_writes (t : TimerAddr) (s : Timers) :
    ∃ l, timerFree t s = { s.setLinks l with allocated := Function.update s.allocated t false } := by
  unfold timerFree
  split
  · exact ⟨_, by rw [systickTimerSet_zero]; rfl⟩
  · exact ⟨s.links, rfl⟩

/-! ## Callbacks -/

def fire (t : TimerAddr) (sigev : Option Sigevent) (s : Timers) : Timers :=
  { s with fired := s.fired ++ [⟨t, (s.info t).owner, sigev⟩] }

/-- `sched_enqueue` of the owner, then the flag. -/
def msleepCallback (t : TimerAddr) (s : Timers) : Timers :=
  let s := fire t none s
  s.setInfo t { s.info t with disarmed := true }

def timerCallback (t : TimerAddr) (s : Timers) : Timers :=
  let s := if (s.info t).type = .oneshot then s.setInfo t { s.info t with disarmed := true } else s
  fire t (some (s.info t).sigev) s

def timerCallbackAndLink (t : TimerAddr) (s : Timers) : Timers :=
  let s := s.setInfo t { s.info t with type := .interval, callback := some .timerCallback }
  let s := systickTimerSet t (s.info t).value.itInterval s
  fire t (some (s.info t).sigev) s

def timerExpireCallback (t : TimerAddr) (s : Timers) : Timers :=
  match (s.info t).callback with
  | some .msleepCallback => msleepCallback t s
  | some .timerCallback => timerCallback t s
  | some .timerCallbackAndLink => timerCallbackAndLink t s
  | none => s

/-! ## The bottom half -/

def expired (s : Timers) (t : TimerAddr) : Bool := decide ((s.info t).expireClocktime < s.clocktimeInMsec)

/-- The body of the loop of `systick_bh`. -/
def expire (t : TimerAddr) (s : Timers) : Timers :=
  if expired s t then
    let s := s.setLinks (listDel (.item t) s.links)
    let s := if (s.info t).type = .interval then systickTimerSet t (s.info t).value.itInterval s else s
    timerExpireCallback t s
  else s

/-- `list_for_each_entry_safe`; there is nothing to read behind a poisoned pointer. -/
def systickBhFrom : ℕ → Node Unit TimerAddr → Node Unit TimerAddr → Timers → Option Timers
  | 0, _, _, _ => none
  | fuel + 1, pos, pos1, s =>
    match pos with
    | .head () => some s
    | .item t =>
      let s := expire t s
      systickBhFrom fuel pos1 (s.links.next pos1) s
    | .poison1 => none
    | .poison2 => none

def systickBh (fuel : ℕ) (s : Timers) : Option Timers :=
  let pos := s.links.next systickTimers
  systickBhFrom fuel pos (s.links.next pos) s

theorem timerExpireCallback_writes (t : TimerAddr) (s : Timers) :
    ∃ info l fs, timerExpireCallback t s = { s with info := info, links := l, fired := fs } := by
  unfold timerExpireCallback
  split
  · exact ⟨_, _, _, rfl⟩
  · unfold timerCallback
    split
    · exact ⟨_, _, _, rfl⟩
    · exact ⟨_, _, _, rfl⟩
  · unfold timerCallbackAndLink
    obtain ⟨i, l, he⟩ := systickTimerSet_writes t (s.info t).value.itInterval
      (s.setInfo t { s.info t with type := .interval, callback := some .timerCallback })
    simp only [Timers.setInfo_info, Function.update_self, he]
    exact ⟨_, _, _, rfl⟩
  · exact ⟨_, _, _, rfl⟩

theorem expire_writes (t : TimerAddr) (s : Timers) :
    ∃ info l fs, expire t s = { s with info := info, links := l, fired := fs } := by
  unfold expire
  split
  · dsimp only
    split
    · obtain ⟨i, l, hset⟩ := systickTimerSet_writes t
        ((s.setLinks (listDel (.item t) s.links)).info t).value.itInterval (s.setLinks (listDel (.item t) s.links))
      obtain ⟨info, l', fs, he⟩ := timerExpireCallback_writes t
        (((s.setLinks (listDel (.item t) s.links)).setInfo t i).setLinks l)
      rw [hset, he]
      exact ⟨info, l', fs, rfl⟩
    · obtain ⟨info, l, fs, he⟩ := timerExpireCallback_writes t (s.setLinks (listDel (.item t) s.links))
      rw [he]
      exact ⟨info, l, fs, rfl⟩
  · exact ⟨_, _, _, rfl⟩

/-- The bottom half writes the fields of timers and the links, and runs callbacks. -/
theorem systickBhFrom_writes {fuel : ℕ} {pos pos1 : Node Unit TimerAddr} {s s' : Timers}
    (he : systickBhFrom fuel pos pos1 s = some s') :
    ∃ info l fs, s' = { s with info := info, links := l, fired := fs } := by
  induction fuel generalizing pos pos1 s with
  | zero => cases he
  | succ fuel ih =>
    cases pos with
    | head =>
      cases he
      exact ⟨_, _, _, rfl⟩
    | item t =>
      obtain ⟨info, l, fs, hrest⟩ := ih he
      obtain ⟨info', l', fs', hstep⟩ := expire_writes t s
      rw [hstep] at hrest
      exact ⟨info, l, fs, hrest⟩
    | poison1 => cases he
    | poison2 => cases he

def systick (s : Timers) : Timers := { s with clocktimeInMsec := s.clocktimeInMsec + 1 }

/-! ## Calls -/

def msecTimespec (msec : Word) : Timespec := ⟨msec.toNat / 1000, msec.toNat % 1000 * 1000000⟩

/-- `sys_msleep` up to its `sched_elect`. -/
def sysMsleep (mem : Option Block) (msec : Word) (currThread : Thread) (s : Timers) : Timers :=
  match mem with
  | none => s
  | some b =>
    let t := b.addr
    let s := timerAlloc b s
    let s := s.setInfo t { s.info t with
      owner := currThread, disarmed := false, type := .oneshot, callback := some .msleepCallback }
    let s := systickTimerSet t (msecTimespec msec) s
    { s with sleeping := t :: s.sleeping }

theorem sysMsleep_writes (b : Block) (msec : Word) (c : Thread) (s : Timers) :
    ∃ i l, sysMsleep (some b) msec c s =
      { ((timerAlloc b s).setInfo b.addr i).setLinks l with sleeping := b.addr :: s.sleeping } := by
  obtain ⟨i, l, he⟩ := systickTimerSet_writes b.addr (msecTimespec msec)
    ((timerAlloc b s).setInfo b.addr { (timerAlloc b s).info b.addr with
      owner := c, disarmed := false, type := .oneshot, callback := some .msleepCallback })
  refine ⟨i, l, ?_⟩
  simp only [sysMsleep, he]
  simp only [Timers.setInfo, Function.update_idem]
  rfl

/-- The rest of `sys_msleep`. -/
def sysMsleepReturn (t : TimerAddr) (s : Timers) : Timers :=
  timerFree t { s with sleeping := s.sleeping.erase t }

def findTimerById (timerid : ℕ) (s : Timers) : Option TimerAddr :=
  s.timerHead.find? fun t => decide ((s.info t).id = timerid)

def reserveTimerId (bitmap : List Word) : Option (ℕ × List Word) :=
  let bit := findFirstZeroBit bitmap BITS_PER_LONG
  if bit = BITS_PER_LONG then none else some (bit, bitmapSetBit bitmap bit)

/-- With the value the call returns: -1, `EAGAIN` or 0. -/
def sysTimerCreate (mem : Option Block) (sevp : Sigevent) (s : Timers) : ℤ × Timers :=
  match mem with
  | none => (-1, s)
  | some b =>
    let t := b.addr
    let s := timerAlloc b s
    match reserveTimerId s.bitmap with
    | none => (11, timerFree t s)
    | some (id, bitmap) =>
      let s := s.setInfo t { s.info t with id := id, disarmed := true, sigev := sevp }
      (0, { s with bitmap := bitmap, timerHead := t :: s.timerHead })

/-- `sys_timer_settime` past the disarming of a timer. -/
def armTimer (t : TimerAddr) (newValue : Itimerspec) (currThread : Thread) (s : Timers) : Timers :=
  let i := { s.info t with owner := currThread, disarmed := false }
  if newValue.itInterval ≠ .zero then
    if newValue.itValue = newValue.itInterval then
      systickTimerSet t newValue.itInterval
        (s.setInfo t { i with type := .interval, callback := some .timerCallback })
    else
      systickTimerSet t newValue.itValue
        (s.setInfo t { i with type := .oneshot, callback := some .timerCallbackAndLink })
  else
    systickTimerSet t newValue.itValue
      (s.setInfo t { i with type := .oneshot, callback := some .timerCallback })

/-- With the value the call returns, `EINVAL` or 0, and the value the timer had. -/
def sysTimerSettime (timerid : ℕ) (newValue : Itimerspec) (currThread : Thread) (s : Timers) :
    (ℤ × Option Itimerspec) × Timers :=
  match findTimerById timerid s with
  | none => ((22, none), s)
  | some t =>
    let oldValue := (s.info t).value
    let s := s.setInfo t { s.info t with value := newValue }
    let s :=
      if newValue.itValue = .zero then
        if (s.info t).disarmed = false then
          let s := systickTimerSet t newValue.itValue s
          s.setInfo t { s.info t with disarmed := true }
        else s
      else armTimer t newValue currThread s
    ((0, some oldValue), s)

/-- With the value the call returns, `EINVAL` or 0, and what it leaves in `curr_value`. -/
def sysTimerGettime (timerid : ℕ) (currValue : Itimerspec) (s : Timers) : ℤ × Itimerspec :=
  match findTimerById timerid s with
  | none => (22, currValue)
  | some t => (0, systickTimerGet t currValue s)

/-! ## Runs -/

inductive Act where
  | timerCreate (mem : Option Block) (sevp : Sigevent)
  | timerSettime (timerid : ℕ) (newValue : Itimerspec) (currThread : Thread)
  | msleep (mem : Option Block) (msec : Word) (currThread : Thread)
  | msleepReturn (t : TimerAddr)
  | systick
  | systickBh (fuel : ℕ)

/-- `malloc` returns memory that is not in use. -/
def validMem (s : Timers) : Option Block → Bool
  | none => true
  | some b => !s.allocated b.addr

def step (s : Timers) : Act → Option Timers
  | .timerCreate mem sevp => if validMem s mem then some (sysTimerCreate mem sevp s).2 else none
  | .timerSettime timerid newValue currThread => some (sysTimerSettime timerid newValue currThread s).2
  | .msleep mem msec currThread => if validMem s mem then some (sysMsleep mem msec currThread s) else none
  | .msleepReturn t => if t ∈ s.sleeping then some (sysMsleepReturn t s) else none
  | .systick => some (systick s)
  | .systickBh fuel => systickBh fuel s

/-- No timer yet; the memory holds anything. -/
def init (mem : Memory Unit TimerAddr) (info : TimerAddr → TimerInfo) : Timers where
  clocktimeInMsec := 0
  links := initListHead systickTimers mem
  info := info
  allocated := fun _ => false
  timerHead := []
  bitmap := [0]
  sleeping := []
  fired := []

end PikoRT.Time.Timer

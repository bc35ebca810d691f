import PikoRT.Kernel.ListFamily
import PikoRT.Sched.RunQueue

/-! # The run queue in memory (`kernel/sched/bitmap.c`, `include/kernel/bitmap.h`)

The scheduler on the nodes themselves: two variables with 32 list heads and a word each, pointers that say which of
them is `active`, and a node `ti_q` in every thread. `Model` has the lists of threads in their place. -/
namespace PikoRT.Sched.Links
open PikoRT.Lib PikoRT.Lib.Run PikoRT.Lib.Rings PikoRT.Kernel.Bitops PikoRT.Kernel.LinuxList PikoRT.Kernel.ListFamily
open PikoRT.Sched.Model (Thread ThreadState SchedOpt ThreadInfo StateMap threadSchedState Op queued)

/-- The variables `_active` and `_expire`. -/
inductive Var where
  | active
  | expire
  deriving DecidableEq, Repr

/-- `&bm->queue[bit]`. -/
abbrev Head := Var × Fin 32

structure State where
  links : Memory Head Thread
  map : Var → Word
  /-- `sched_struct.active` and `sched_struct.expire`. -/
  active : Var
  expire : Var
  stateMap : StateMap
  info : Thread → ThreadInfo
  current : Thread
  threadIdle : Thread

/-! ## `bitmap.h` -/

/-- `INIT_BITMAP`. -/
def initBitmap (bm : Var) (s : State) : State :=
  { s with
    map := Function.update s.map bm 0
    links := (List.finRange 32).foldl (fun l i => initListHead (.head (bm, i)) l) s.links }

def bitmapEnqueue (new : Thread) (bit : Fin 32) (bm : Var) (s : State) : State :=
  { s with
    links := listAddTail (.item new) (.head (bm, bit)) s.links
    map := Function.update s.map bm (setBit bit (s.map bm)) }

/-- `if (list_empty(&bm->queue[bit])) bitmap_clear_bit(&bm->map, bit)`. -/
def clearIfEmpty (bit : Fin 32) (bm : Var) (s : State) : State :=
  if listEmpty (.head (bm, bit)) s.links then { s with map := Function.update s.map bm (clearBit bit (s.map bm)) }
    else s

def unlink (node : Thread) (s : State) : State := { s with links := listDel (.item node) s.links }

def bitmapQueueDel (node : Thread) (bit : Fin 32) (bm : Var) (s : State) : State := clearIfEmpty bit bm (unlink node s)

/-- The thread whose `ti_q` is at the pointer; no other pointer is that of a thread. -/
def entryOf : Node Head Thread → Option Thread
  | .item t => some t
  | _ => none

def bitmapFirstEntry (bm : Var) (bit : Fin 32) (s : State) : Option Thread := entryOf (s.links.next (.head (bm, bit)))

/-! ## `bitmap.c` -/

def schedBitmapInit (s : State) : State := initBitmap s.expire (initBitmap s.active s)

def findNextThread (bm : Var) (s : State) : Option Thread :=
  if h : findFirstBit [s.map bm] 32 < 32 then bitmapFirstEntry bm ⟨findFirstBit [s.map bm] 32, h⟩ s else some
    s.threadIdle

def threadEnqueue (t : Thread) (bm : Var) (s : State) : State := bitmapEnqueue t (s.info t).tiPriority bm s

def schedBitmapEnqueue (t : Thread) (s : State) : State := threadEnqueue t s.active s

def threadDequeue (t : Thread) (bm : Var) (s : State) : ℤ × State :=
  if t = s.current then (-1, s) else (0, bitmapQueueDel t (s.info t).tiPriority bm s)

def schedBitmapDequeue (t : Thread) (s : State) : ℤ × State :=
  if (s.info t).tiState = s.stateMap.actived then threadDequeue t s.active s
  else if (s.info t).tiState = s.stateMap.expired then threadDequeue t s.expire s
  else (-1, s)

/-- `SWAP` and `swap_sched_state_map`. -/
def swapQueues (s : State) : State :=
  { s with active := s.expire, expire := s.active, stateMap := ⟨s.stateMap.expired, s.stateMap.actived⟩ }

def chooseNext (s : State) : Option (Thread × State) := do
  let next ← findNextThread s.active s
  if next = s.threadIdle ∧ findNextThread s.expire s ≠ some s.threadIdle then
    let s' := swapQueues s
    let next ← findNextThread s'.active s'
    return (next, s')
  return (next, s)

def takeNext (next : Thread) (s : State) : State :=
  if next ≠ s.threadIdle then clearIfEmpty (s.info next).tiPriority s.active (unlink next s) else s

def setState (t : Thread) (x : ThreadState) (s : State) : State :=
  { s with info := Function.update s.info t { s.info t with tiState := x } }

def requeueCurrent (flags : SchedOpt) (s : State) : State :=
  if flags = .tick ∧
    s.current ≠ s.threadIdle then setState s.current s.stateMap.expired (threadEnqueue s.current s.expire s)
  else s

def switchTo (next : Thread) (s : State) : State :=
  if next = s.current then s
  else { s with
    info := Function.update s.info s.current { s.info s.current with tiMach := .elect }
    current := next }

def dispatch (flags : SchedOpt) (next : Thread) (s : State) : State :=
  if flags = .restoreOnly then { s with current := next } else switchTo next (requeueCurrent flags s)

def schedBitmapElect (flags : SchedOpt) (s : State) : Option State := do
  let (next, s') ← chooseNext s
  return dispatch flags next (takeNext next s')

/-! ## `kernel/sched.c` -/

def schedEnqueue (t : Thread) (s : State) : State := schedBitmapEnqueue t (setState t threadSchedState.actived s)

/-- The label that `sched_elect` sets, of the thread that returns from the election. -/
def relabel (flags : SchedOpt) (s t : State) : State :=
  if (flags ≠ .restoreOnly ∧ t.current = s.current) ∨
    (t.info t.current).tiMach = .elect then setState t.current .running t
  else t

def schedElect (flags : SchedOpt) (s : State) : Option State := (schedBitmapElect flags s).map (relabel flags s)

def step (s : State) : Op → Option State
  | .enqueue t => some (schedEnqueue t s)
  | .dequeue t => some (schedBitmapDequeue t s).2
  | .elect flags => schedElect flags s
  | .yield => schedElect .none (schedEnqueue s.current s)
  | .setPriority t priority =>
    some { s with info := Function.update s.info t { s.info t with tiPriority := priority } }

/-- `start_kernel`, with anything in memory before it. -/
def boot (links : Memory Head Thread) (map : Var → Word) (idle main : Thread) : State :=
  schedBitmapInit
    { links, map, active := .active, expire := .expire, stateMap := threadSchedState
      info := fun _ => ⟨.start, Model.priMin, .new⟩, current := main, threadIdle := idle }

/-! ## The lists of threads -/

/-- The queues of the two arrays, by the variable that is `active`. -/
def queues (v : Var) (s : Model.State) (h : Head) : List Thread :=
  if h.1 = v then s.active.queue h.2 else s.expire.queue h.2

/-- The nodes are linked as the lists say, and everything else is the same. -/
structure Represents (m : State) (s : Model.State) : Prop where
  apart : m.active ≠ m.expire
  lists : Lists Set.univ m.links (queues m.active s)
  activeMap : m.map m.active = s.active.map
  expireMap : m.map m.expire = s.expire.map
  stateMap : m.stateMap = s.stateMap
  info : m.info = s.info
  current : m.current = s.current
  threadIdle : m.threadIdle = s.threadIdle

section

variable {m : State} {s : Model.State} {t x : Thread} {p bit : Fin 32}

theorem queues_active (v : Var) (s : Model.State) (p : Fin 32) : queues v s (v, p) = s.active.queue p := if_pos rfl

theorem queues_other {v w : Var} (h : w ≠ v) (s : Model.State) (p : Fin 32) :
    queues v s (w, p) = s.expire.queue p := if_neg h

theorem Represents.eq_expire (hr : Represents m s) {v : Var} (h : v ≠ m.active) : v = m.expire := by
  have hne := hr.apart
  cases v <;> cases ha : m.active <;> cases he : m.expire <;> simp_all

theorem mem_queued_iff (v : Var) : t ∈ queued s ↔ ∃ h, t ∈ queues v s h := by
  unfold queued
  rw [List.mem_append, Kernel.Bitmap.mem_members, Kernel.Bitmap.mem_members]
  constructor
  · rintro (⟨p, hp⟩ | ⟨p, hp⟩)
    · exact ⟨(v, p), by rwa [queues_active]⟩
    · cases v with
      | active => exact ⟨(.expire, p), hp⟩
      | expire => exact ⟨(.active, p), hp⟩
  · rintro ⟨⟨w, p⟩, hp⟩
    unfold queues at hp
    split at hp
    · exact .inl ⟨p, hp⟩
    · exact .inr ⟨p, hp⟩

/-- The two arrays are alike: what is shown for the one holds for the other when they have traded places. -/
theorem Represents.swap (hr : Represents m s) : Represents (swapQueues m) (Model.swapQueues s) where
  apart := hr.apart.symm
  lists := by
    have heq : queues m.expire (Model.swapQueues s) = queues m.active s := by
      funext ⟨v, p⟩
      by_cases hv : v = m.active
      · subst hv
        rw [queues_other hr.apart, queues_active]
        rfl
      · obtain rfl := hr.eq_expire hv
        rw [queues_active, queues_other hv]
        rfl
    show Lists Set.univ m.links (queues m.expire (Model.swapQueues s))
    rw [heq]
    exact hr.lists
  activeMap := hr.expireMap
  expireMap := hr.activeMap
  stateMap := by
    show StateMap.mk _ _ = StateMap.mk _ _
    rw [hr.stateMap]
  info := hr.info
  current := hr.current
  threadIdle := hr.threadIdle

/-! ## One node -/

theorem Represents.enqueueActive (hr : Represents m s) (ht : t ∉ queued s) (bit : Fin 32) :
    Represents (bitmapEnqueue t bit m.active m) { s with active := Kernel.Bitmap.bitmapEnqueue t bit s.active } := by
  have hfree : ∀ h, t ∉ queues m.active s h := fun h hm => ht ((mem_queued_iff m.active).mpr ⟨h, hm⟩)
  refine { hr with lists := ?_, activeMap := ?_, expireMap := ?_ }
  · have heq : queues m.active { s with active := Kernel.Bitmap.bitmapEnqueue t bit s.active } =
        Function.update (queues m.active s) (m.active, bit) (queues m.active s (m.active, bit) ++ [t]) := by
      funext ⟨v, p⟩
      by_cases hv : v = m.active
      · subst hv
        rw [queues_active, queues_active, Kernel.Bitmap.queue_bitmapEnqueue]
        by_cases hp : p = bit
        · subst hp
          simp
        · rw [PrioQueue.push_of_ne _ hp, Function.update_of_ne (by simp [hp]), queues_active]
      · rw [Function.update_of_ne (by simp [hv]), queues_other hv, queues_other hv]
    show Lists Set.univ _ (queues m.active _)
    rw [heq]
    exact hr.lists.addTail (Set.mem_univ (m.active, bit)) hfree
  · show Function.update m.map m.active _ m.active = _
    rw [Function.update_self, hr.activeMap]
    rfl
  · show Function.update m.map m.active _ m.expire = _
    rw [Function.update_of_ne hr.apart.symm, hr.expireMap]

theorem Represents.enqueueExpire (hr : Represents m s) (ht : t ∉ queued s) (bit : Fin 32) :
    Represents (bitmapEnqueue t bit m.expire m) { s with expire := Kernel.Bitmap.bitmapEnqueue t bit s.expire } := by
  have ht' : t ∉ queued (Model.swapQueues s) := fun hm => ht (List.perm_append_comm.mem_iff.mp hm)
  exact (hr.swap.enqueueActive ht' bit).swap

theorem Represents.unlink (hr : Represents m s) (ht : t ∈ queued s) :
    Represents (Links.unlink t m)
      { s with active := Kernel.Bitmap.unlink t s.active, expire := Kernel.Bitmap.unlink t s.expire } := by
  obtain ⟨g, hg⟩ := (mem_queued_iff m.active).mp ht
  refine { hr with lists := ?_ }
  have hall : ∀ h, queues m.active
      { s with active := Kernel.Bitmap.unlink t s.active, expire := Kernel.Bitmap.unlink t s.expire } h =
        (queues m.active s h).erase t := by
    rintro ⟨v, p⟩
    unfold queues
    split <;> rfl
  have heq :
    queues m.active { s with active := Kernel.Bitmap.unlink t s.active, expire := Kernel.Bitmap.unlink t s.expire } =
      Function.update (queues m.active s) g ((queues m.active s g).erase t) := by
    funext h
    rw [hall]
    by_cases hh : h = g
    · subst hh
      rw [Function.update_self]
    · rw [Function.update_of_ne hh]
      exact List.erase_of_not_mem fun hm => hh (hr.lists.apart h g t hm hg)
  show Lists Set.univ _ (queues m.active _)
  rw [heq]
  exact hr.lists.del hg

theorem Represents.clearActive (hr : Represents m s) (bit : Fin 32) :
    Represents (clearIfEmpty bit m.active m) { s with active := Kernel.Bitmap.clearIfEmpty bit s.active } := by
  have hempty := hr.lists.listEmpty (Set.mem_univ (m.active, bit))
  rw [queues_active] at hempty
  have hq : queues m.active { s with active := Kernel.Bitmap.clearIfEmpty bit s.active } = queues m.active s := by
    unfold queues
    rw [Kernel.Bitmap.queue_clearIfEmpty]
  unfold clearIfEmpty
  by_cases hnil : s.active.queue bit = []
  · rw [if_pos (hempty.mpr hnil)]
    refine { hr with lists := hq ▸ hr.lists, activeMap := ?_, expireMap := ?_ }
    · show Function.update m.map m.active _ m.active = _
      rw [Function.update_self, hr.activeMap, Kernel.Bitmap.clearIfEmpty, hnil]
    · show Function.update m.map m.active _ m.expire = _
      rw [Function.update_of_ne hr.apart.symm, hr.expireMap]
  · rw [if_neg (mt hempty.mp hnil)]
    refine { hr with lists := hq ▸ hr.lists, activeMap := ?_ }
    rw [hr.activeMap, Kernel.Bitmap.clearIfEmpty]
    split
    · rename_i h
      exact absurd h hnil
    · rfl

theorem Represents.clearExpire (hr : Represents m s) (bit : Fin 32) :
    Represents (clearIfEmpty bit m.expire m) { s with expire := Kernel.Bitmap.clearIfEmpty bit s.expire } := by
  have hcleared := (hr.swap.clearActive bit).swap
  have hcomm : swapQueues (clearIfEmpty bit (swapQueues m).active (swapQueues m)) = clearIfEmpty bit m.expire m := by
    unfold clearIfEmpty swapQueues
    split <;> rfl
  rwa [hcomm] at hcleared

theorem Represents.setInfo (hr : Represents m s) (f : Thread → ThreadInfo) :
    Represents { m with info := f } { s with info := f } :=
  { hr with info := rfl }

/-! ## The calls -/

theorem entryOf_first (h : Head) (xs : List Thread) : entryOf (first h xs) = xs.head? := by
  cases xs <;> rfl

theorem Represents.findActive (hr : Represents m s) :
    findNextThread m.active m = Model.findNextThread s.threadIdle s.active := by
  unfold findNextThread Model.findNextThread Kernel.Bitmap.bitmapFirstBit
  simp only [hr.activeMap, hr.threadIdle]
  refine dite_congr rfl (fun h => ?_) fun _ => rfl
  rw [bitmapFirstEntry, hr.lists.next_head (Set.mem_univ _), entryOf_first, queues_active]
  rfl

theorem Represents.findExpire (hr : Represents m s) :
    findNextThread m.expire m = Model.findNextThread s.threadIdle s.expire := hr.swap.findActive

/-- A thread that is found is linked. -/
theorem findNextThread_mem {bm : Kernel.Bitmap.BitmapStruct Thread} {idle : Thread}
    (h : Model.findNextThread idle bm = some x) (hx : x ≠ idle) : x ∈ Kernel.Bitmap.members bm := by
  unfold Model.findNextThread at h
  split at h
  · exact Kernel.Bitmap.mem_members.mpr ⟨_, List.mem_of_mem_head? h⟩
  · exact absurd (Option.some.inj h).symm hx

theorem Represents.chooseNext {s' : Model.State} (hr : Represents m s) (h : Model.chooseNext s = some (x, s')) :
    ∃ m', Links.chooseNext m = some (x, m') ∧ Represents m' s' ∧ (x ≠ s'.threadIdle → x ∈ queued s') ∧
      (∀ y, y ∈ queued s' → y ∈ queued s) ∧ s'.current = s.current ∧ s'.threadIdle = s.threadIdle := by
  obtain ⟨next, hnext, h⟩ := Option.bind_eq_some_iff.mp h
  unfold Links.chooseNext
  rw [hr.findActive, hnext]
  simp only [Option.bind_eq_bind, Option.bind_some, hr.threadIdle, hr.findExpire]
  split at h
  · rename_i hc
    rw [if_pos hc]
    obtain ⟨y, hy, h⟩ := Option.bind_eq_some_iff.mp h
    obtain ⟨rfl, rfl⟩ := Prod.mk.inj (Option.some.inj h)
    have hy' : Model.findNextThread (Model.swapQueues s).threadIdle (Model.swapQueues s).active = some y := hy
    rw [hr.swap.findActive, hy']
    refine ⟨_, rfl, hr.swap, fun hne => ?_, fun z hz => List.perm_append_comm.mem_iff.mp hz, rfl, rfl⟩
    exact List.mem_append_left _ (findNextThread_mem hy hne)
  · rename_i hc
    rw [if_neg hc]
    obtain ⟨rfl, rfl⟩ := Prod.mk.inj (Option.some.inj h)
    exact ⟨m, rfl, hr, fun hne => List.mem_append_left _ (findNextThread_mem hnext hne), fun _ => id, rfl, rfl⟩

theorem Represents.takeNext (hr : Represents m s) (hx : x ≠ s.threadIdle → x ∈ queued s) :
    Represents (Links.takeNext x m) (Model.takeNext x s) := by
  unfold Links.takeNext Model.takeNext
  rw [hr.threadIdle, hr.info]
  by_cases hne : x ≠ s.threadIdle
  · rw [if_pos hne, if_pos hne]
    exact (hr.unlink (hx hne)).clearActive _
  · rw [if_neg hne, if_neg hne]
    exact hr

theorem queued_takeNext {y : Thread} (h : y ∈ queued (Model.takeNext x s)) : y ∈ queued s := by
  unfold Model.takeNext at h
  split at h
  · simp only [queued, List.mem_append, Kernel.Bitmap.mem_members, Kernel.Bitmap.queue_clearIfEmpty,
      Kernel.Bitmap.queue_unlink] at h ⊢
    exact h.imp (Exists.imp fun p => List.mem_of_mem_erase) (Exists.imp fun p => List.mem_of_mem_erase)
  · exact h

theorem Represents.setState (hr : Represents m s) (t : Thread) (l : ThreadState) :
    Represents (Links.setState t l m) (Model.setState t l s) := by
  refine { hr with info := ?_ }
  show Function.update m.info t _ = Function.update s.info t _
  rw [hr.info]

theorem Represents.requeueCurrent (hr : Represents m s) {flags : SchedOpt}
    (hc : flags = .tick → s.current ∉ queued s) :
    Represents (Links.requeueCurrent flags m) (Model.requeueCurrent flags s) := by
  unfold Links.requeueCurrent Model.requeueCurrent threadEnqueue Model.threadEnqueue
  rw [hr.current, hr.threadIdle, hr.info, hr.stateMap]
  split
  · rename_i h
    exact (hr.enqueueExpire (hc h.1) _).setState _ _
  · exact hr

theorem Represents.switchTo (hr : Represents m s) (x : Thread) :
    Represents (Links.switchTo x m) (Model.switchTo x s) := by
  unfold Links.switchTo Model.switchTo
  rw [hr.current, hr.info]
  split
  · exact hr
  · exact { hr with info := rfl, current := rfl }

theorem Represents.dispatch (hr : Represents m s) {flags : SchedOpt} (hc : flags = .tick → s.current ∉ queued s)
    (x : Thread) :
    Represents (Links.dispatch flags x m) (Model.dispatch flags x s) := by
  unfold Links.dispatch Model.dispatch
  split
  · exact { hr with current := rfl }
  · exact (hr.requeueCurrent hc).switchTo x

theorem Represents.schedBitmapElect {u : Model.State} (hr : Represents m s) {flags : SchedOpt}
    (hc : flags = .tick → s.current ∉ queued s) (h : Model.schedBitmapElect flags s = some u) :
    ∃ m', Links.schedBitmapElect flags m = some m' ∧ Represents m' u := by
  obtain ⟨x, s', hx, rfl⟩ := Model.schedBitmapElect_some h
  obtain ⟨m', hm', hr', hmem, hsub, hcur, -⟩ := hr.chooseNext hx
  unfold Links.schedBitmapElect
  rw [hm']
  refine ⟨_, rfl, (hr'.takeNext hmem).dispatch (fun htick hm => hc htick ?_) x⟩
  rw [Model.current_takeNext, hcur] at hm
  exact hsub _ (queued_takeNext hm)

theorem Represents.schedElect {u : Model.State} (hr : Represents m s) {flags : SchedOpt}
    (hc : flags = .tick → s.current ∉ queued s) (h : Model.schedElect flags s = some u) :
    ∃ m', Links.schedElect flags m = some m' ∧ Represents m' u := by
  obtain ⟨v, hv, rfl⟩ := Model.schedElect_some h
  obtain ⟨m', hm', hr'⟩ := hr.schedBitmapElect hc hv
  refine ⟨Links.relabel flags m m', by rw [Links.schedElect, hm', Option.map_some], ?_⟩
  unfold Links.relabel Model.relabel
  have hiff : ((flags ≠ .restoreOnly ∧ m'.current = m.current) ∨ (m'.info m'.current).tiMach = .elect) ↔
      Model.inElect flags s v := by
    unfold Model.inElect
    rw [hr'.current, hr'.info, hr.current]
  by_cases hin : Model.inElect flags s v
  · rw [if_pos (hiff.mpr hin), if_pos hin, hr'.current]
    exact hr'.setState _ _
  · rw [if_neg (mt hiff.mp hin), if_neg hin]
    exact hr'

theorem Represents.schedEnqueue (hr : Represents m s) (ht : t ∉ queued s) :
    Represents (Links.schedEnqueue t m) (Model.schedEnqueue t s) := by
  have hset := hr.setState t threadSchedState.actived
  have hp := hset.enqueueActive (t := t) ht ((Links.setState t threadSchedState.actived m).info t).tiPriority
  unfold Links.schedEnqueue Model.schedEnqueue schedBitmapEnqueue Model.schedBitmapEnqueue threadEnqueue
    Model.threadEnqueue
  rw [hset.info] at hp ⊢
  exact hp

theorem Represents.schedDequeue (hr : Represents m s) (ht : (Model.schedDequeue t s).1 = 0 → t ∈ queued s) :
    (schedBitmapDequeue t m).1 = (Model.schedDequeue t s).1 ∧
      Represents (schedBitmapDequeue t m).2 (Model.schedDequeue t s).2 := by
  unfold Model.schedDequeue Model.schedBitmapDequeue at ht ⊢
  unfold schedBitmapDequeue
  rw [hr.info, hr.stateMap]
  split
  · rename_i hl
    rw [if_pos hl] at ht
    unfold threadDequeue Model.threadDequeueActive at *
    rw [hr.current]
    split
    · exact ⟨rfl, hr⟩
    · rename_i hne
      rw [if_neg hne] at ht
      refine ⟨rfl, ?_⟩
      rw [hr.info]
      exact (hr.unlink (ht rfl)).clearActive _
  · rename_i hl
    rw [if_neg hl] at ht
    split
    · rename_i hl'
      rw [if_pos hl'] at ht
      unfold threadDequeue Model.threadDequeueExpire at *
      rw [hr.current]
      split
      · exact ⟨rfl, hr⟩
      · rename_i hne
        rw [if_neg hne] at ht
        refine ⟨rfl, ?_⟩
        rw [hr.info]
        exact (hr.unlink (ht rfl)).clearExpire _
    · exact ⟨rfl, hr⟩

/-- A call on the lists is the same call on the nodes. -/
theorem Represents.step {u : Model.State} {op : Op} (hr : Represents m s) (h : Model.step s op = some u) :
    ∃ m', Links.step m op = some m' ∧ Represents m' u := by
  cases op with
  | enqueue t =>
    simp only [Model.step] at h
    split at h
    · cases h
    · rename_i hg
      obtain rfl := Option.some.inj h
      exact ⟨_, rfl, hr.schedEnqueue fun hm => hg (.inl hm)⟩
  | dequeue t =>
    simp only [Model.step] at h
    split at h
    · cases h
    · rename_i hg
      obtain rfl := Option.some.inj h
      refine ⟨_, rfl, (hr.schedDequeue fun hz => ?_).2⟩
      by_contra hm
      exact hg ⟨hz, hm⟩
  | elect flags =>
    simp only [Model.step] at h
    split at h
    · cases h
    · rename_i hg
      exact hr.schedElect (fun htick hm => hg ⟨htick, hm⟩) h
  | yield =>
    simp only [Model.step] at h
    split at h
    · cases h
    · rename_i hg
      have hfree : s.current ∉ queued s := fun hm => hg (.inl hm)
      have henq : Represents (Links.schedEnqueue m.current m) (Model.schedEnqueue s.current s) := by
        rw [hr.current]
        exact hr.schedEnqueue hfree
      exact henq.schedElect (fun htick => by cases htick) h
  | setPriority t priority =>
    obtain rfl := Option.some.inj h
    refine ⟨_, rfl, ?_⟩
    show Represents { m with info := _ } { s with info := _ }
    rw [hr.info]
    exact hr.setInfo _

/-! ## The start -/

theorem lists_initBitmap {l : Memory Head Thread} {D : Set Head} (hl : Lists D l fun _ => []) (v : Var)
    {is : List (Fin 32)}
    (hnd : is.Nodup) (hD : ∀ i ∈ is, (v, i) ∉ D) :
    Lists (D ∪ {h | h.1 = v ∧ h.2 ∈ is}) (is.foldl (fun l i => initListHead (.head (v, i)) l) l) fun _ => [] := by
  induction is generalizing D l with
  | nil => simpa using hl
  | cons i is ih =>
    obtain ⟨hi, hnd⟩ := List.nodup_cons.mp hnd
    have hrest := ih (hl.init (hD i List.mem_cons_self)) hnd fun j hj hm => by
      rcases hm with he | hm
      · obtain rfl : j = i := congrArg Prod.snd he
        exact hi hj
      · exact hD j (List.mem_cons_of_mem _ hj) hm
    have heq : insert (v, i) D ∪ {h : Head | h.1 = v ∧ h.2 ∈ is} = D ∪ {h | h.1 = v ∧ h.2 ∈ i :: is} := by
      ext ⟨w, j⟩
      simp only [Set.mem_union, Set.mem_insert_iff, Set.mem_ofPred_eq, List.mem_cons, Prod.mk.injEq]
      tauto
    rw [heq] at hrest
    exact hrest

theorem represents_boot (links : Memory Head Thread) (map : Var → Word) (idle main : Thread) :
    Represents (boot links map idle main) (Model.boot idle main) := by
  have hnone : Lists ∅ links (fun _ : Head => ([] : List Thread)) :=
    ⟨fun _ h => absurd h (Set.notMem_empty _), fun _ _ => rfl, fun _ _ _ h => (nomatch h)⟩
  have hnd := List.nodup_finRange 32
  have hactive := lists_initBitmap hnone .active hnd fun _ _ h => absurd h (Set.notMem_empty _)
  have hboth := lists_initBitmap hactive .expire hnd fun i _ h => by simp at h
  refine ⟨fun h => Var.noConfusion h, ?_, rfl, rfl, rfl, rfl, rfl, rfl⟩
  have hall : (∅ ∪ {h : Head | h.1 = .active ∧ h.2 ∈ List.finRange 32} ∪
      {h | h.1 = .expire ∧ h.2 ∈ List.finRange 32}) = Set.univ := by
    ext ⟨v, i⟩
    cases v <;> simp
  rw [hall] at hboth
  have hq : queues .active (Model.boot idle main) = fun _ => [] := by
    funext h
    unfold queues
    split <;> rfl
  show Lists Set.univ _ (queues .active (Model.boot idle main))
  rw [hq]
  exact hboth

end

/-- **The scheduler in memory is the one on lists**: whatever memory held before, every run of calls on the lists is a
run of the code on the nodes, which elects the same threads and leaves the same queues, bits and labels. -/
theorem runs_represented (links : Memory Head Thread) (map : Var → Word) (idle main : Thread) (ops : List Op)
    (s : Model.State)
    (h : run Model.step (Model.boot idle main) ops = some s) :
    ∃ m, run step (boot links map idle main) ops = some m ∧ Represents m s := by
  have hrel := run_related (g := id) (R := fun s m => Represents m s)
    (fun s op t m hr hs => Represents.step hr hs) (represents_boot links map idle main) h
  rwa [List.map_id] at hrel

/-- Two threads are added, and the time slice of the main thread ends. -/
def twoThreads : List Op := [.enqueue 2, .enqueue 3, .elect .tick]

theorem runs_represented_twoThreads :
    ∃ m s, run step (boot ⟨id, id⟩ (fun _ => 5) 0 1) twoThreads = some m ∧ Represents m s ∧ m.current = 2 := by
  have hrun : (run Model.step (Model.boot 0 1) twoThreads).map Model.State.current = some 2 := by decide
  obtain ⟨s, hs, hcur⟩ := Option.map_eq_some_iff.mp hrun
  obtain ⟨m, hm, hr⟩ := runs_represented ⟨id, id⟩ (fun _ => 5) 0 1 twoThreads s hs
  exact ⟨m, s, hm, hr, hr.current.trans hcur⟩

end PikoRT.Sched.Links

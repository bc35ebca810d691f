import PikoRT.Softirq.TaskletQueue

/-! # Calls of `tasklet_schedule`

`tasklet_schedule` masks no interrupt: between any two of its accesses to the queues an
interrupt may come, or another thread may run, and schedule a tasklet or go on with
`tasklet_action`. Here every caller has its place in `bitmap_enqueue`.

A call that is left between its first and its last access works with a neighbour, or with
a word, that may be old when it goes on: a tasklet or a bit that has come in meanwhile is
lost. A call that is not left there, for the queues at least, is the one step that
`Tasklet` takes for it. -/
namespace PikoRT.Softirq.TaskletCalls
open PikoRT.Lib.Rings PikoRT.Lib.Run PikoRT.Kernel.Bitops PikoRT.Kernel.LinuxList
open PikoRT.Kernel.ListFamily PikoRT.Softirq.Tasklet
open PikoRT.Softirq.TaskletQueue hiding Inv

/-- Where a call is in `bitmap_enqueue`: before it loads the last node of the queue; in
`__list_add`, before each of its four stores; before it loads the word of the map and
before it stores it. -/
inductive Place where
  | loadPrev
  | storeNextPrev (prev : Node (Fin 32) TaskletAddr)
  | storeNewNext (prev : Node (Fin 32) TaskletAddr)
  | storeNewPrev (prev : Node (Fin 32) TaskletAddr)
  | storePrevNext (prev : Node (Fin 32) TaskletAddr)
  | loadMap
  | storeMap (word : Word)
  deriving DecidableEq, Repr

/-- A call that has accepted its tasklet. -/
structure Call where
  task : TaskletAddr
  bit : Fin 32
  place : Place
  deriving DecidableEq, Repr

/-- The next access of a call, and its place after it unless it was the last one. A tasklet
is pending when its call has made all of them. -/
def bitmapEnqueue (c : Call) (s : Tasklet.State) : Tasklet.State × Option Place :=
  match c.place with
  | .loadPrev => (s, some (.storeNextPrev (s.links.prev (.head c.bit))))
  | .storeNextPrev prev =>
    ({ s with links := s.links.setPrev (.head c.bit) (.item c.task) }, some (.storeNewNext prev))
  | .storeNewNext prev =>
    ({ s with links := s.links.setNext (.item c.task) (.head c.bit) }, some (.storeNewPrev prev))
  | .storeNewPrev prev => ({ s with links := s.links.setPrev (.item c.task) prev }, some (.storePrevNext prev))
  | .storePrevNext prev => ({ s with links := s.links.setNext prev (.item c.task) }, some .loadMap)
  | .loadMap => (s, some (.storeMap s.map))
  | .storeMap word =>
    ({ s with map := setBit c.bit word, pending := Function.update s.pending c.task true }, none)

/-- `ι` are the interrupts and the threads that call `tasklet_schedule`. -/
structure State (ι : Type*) where
  tasklets : Tasklet.State
  calls : ι → Option Call

inductive Act (ι : Type*) where
  | taskletInit (tsk : TaskletAddr) (prio : Word) (func : Option Word)
  | taskletSchedule (i : ι) (task : Option TaskletAddr)
  | bitmapEnqueue (i : ι)
  | taskletAction

section

variable {ι : Type*} [DecidableEq ι]

/-- `tasklet_schedule` up to `bitmap_enqueue`, which a tasklet that is refused does not
come to. -/
def taskletSchedule (i : ι) (task : Option TaskletAddr) (s : State ι) : State ι :=
  match task with
  | none => s
  | some tsk =>
    if h : prioTaskletMinprio < (s.tasklets.info tsk).prio then s
    else { s with
      calls := Function.update s.calls i
        (some ⟨tsk, ⟨(s.tasklets.info tsk).prio.toNat, toNat_lt_of_minprio h⟩, .loadPrev⟩) }

/-- `tasklet_init` and `tasklet_action` are those of `Tasklet`. -/
def step (s : State ι) : Act ι → Option (State ι)
  | .taskletInit tsk prio func =>
    (Tasklet.step s.tasklets (.taskletInit tsk prio func)).map fun t => { s with tasklets := t }
  | .taskletSchedule i task =>
    if s.calls i = none ∧ ∀ tsk ∈ task, s.tasklets.allocated tsk then some (taskletSchedule i task s) else none
  | .bitmapEnqueue i =>
    (s.calls i).map fun c =>
      let r := bitmapEnqueue c s.tasklets
      ⟨r.1, Function.update s.calls i (r.2.map fun place => { c with place := place })⟩
  | .taskletAction => (taskletAction s.tasklets).map fun t => { s with tasklets := t }

def init (mem : Memory (Fin 32) TaskletAddr) (info : TaskletAddr → TaskletStruct) : State ι where
  tasklets := Tasklet.init mem info
  calls := fun _ => none

/-! ## The condition -/

/-- The call has made an access, and has not made them all. -/
def Begun (s : State ι) (i : ι) : Prop := ∃ c, s.calls i = some c ∧ c.place ≠ .loadPrev

/-- No call that has begun is left by another access to the queues; and a call begins only
with a tasklet that is not pending and where it does not meet `tasklet_action`. -/
def Meets (s : State ι) : Act ι → Prop
  | .bitmapEnqueue i => (∀ j, Begun s j → j = i) ∧
      ∀ c, s.calls i = some c → c.place = .loadPrev → Undisturbed s.tasklets c.task
  | .taskletAction => ∀ i, ¬ Begun s i
  | _ => True

/-- Neither a call nor `tasklet_action` is in the middle of its work on the queues. -/
def AtRest (s : State ι) : Prop := Quiet s.tasklets.phase ∧ ∀ i, ¬ Begun s i

end

/-! ## A call that has begun -/

/-- The queues while the call is at its place, when `u` is what it has found. -/
def during (c : Call) (u : Tasklet.State) : Tasklet.State :=
  match c.place with
  | .loadPrev | .storeNextPrev _ => u
  | .storeNewNext _ => { u with links := u.links.setPrev (.head c.bit) (.item c.task) }
  | .storeNewPrev _ =>
    { u with links := (u.links.setPrev (.head c.bit) (.item c.task)).setNext (.item c.task) (.head c.bit) }
  | .storePrevNext prev => { u with
      links := ((u.links.setPrev (.head c.bit) (.item c.task)).setNext (.item c.task) (.head c.bit)).setPrev
        (.item c.task) prev }
  | .loadMap | .storeMap _ => { u with links := listAddTail (.item c.task) (.head c.bit) u.links }

/-- What the call has loaded. -/
def Loaded (c : Call) (u : Tasklet.State) : Prop :=
  match c.place with
  | .loadPrev | .loadMap => True
  | .storeNextPrev prev | .storeNewNext prev | .storeNewPrev prev | .storePrevNext prev =>
    prev = u.links.prev (.head c.bit)
  | .storeMap word => word = u.map

section

variable {c : Call} {u : Tasklet.State}

/-- Only the nodes differ. -/
theorem during_frame (c : Call) (u : Tasklet.State) :
    (during c u).info = u.info ∧ (during c u).allocated = u.allocated := by
  obtain ⟨task, bit, place⟩ := c
  cases place <;> exact ⟨rfl, rfl⟩

/-- **The accesses of a call**, one after the other, make the one step. -/
theorem bitmapEnqueue_during (h : Loaded c u) :
    match (bitmapEnqueue c (during c u)).2 with
    | some place => (bitmapEnqueue c (during c u)).1 = during { c with place := place } u ∧
        Loaded { c with place := place } u
    | none => (bitmapEnqueue c (during c u)).1 = Tasklet.bitmapEnqueue c.task c.bit u := by
  obtain ⟨task, bit, place⟩ := c
  cases place with
  | loadPrev => exact ⟨rfl, rfl⟩
  | storeNextPrev prev => exact ⟨rfl, h⟩
  | storeNewNext prev => exact ⟨rfl, h⟩
  | storeNewPrev prev => exact ⟨rfl, h⟩
  | storePrevNext prev =>
    have hprev : prev = u.links.prev (.head bit) := h
    rw [hprev]
    exact ⟨rfl, trivial⟩
  | loadMap => exact ⟨rfl, rfl⟩
  | storeMap word =>
    have hword : word = u.map := h
    rw [hword]
    rfl

theorem place_ne_loadPrev {s : Tasklet.State} {place : Place} (h : (bitmapEnqueue c s).2 = some place) :
    place ≠ .loadPrev := by
  rintro rfl
  obtain ⟨task, bit, place⟩ := c
  cases place <;> cases h

/-! ### A node is initialised meanwhile -/

variable {l : Memory (Fin 32) TaskletAddr} {q : Queues} {t : TaskletAddr} {prio : Word} {func : Option Word}

theorem setPrev_initListHead {n a b : Node (Fin 32) TaskletAddr} (ha : a ≠ n) :
    (initListHead n l).setPrev a b = initListHead n (l.setPrev a b) :=
  Links.ext rfl (Function.update_comm ha.symm ..)

theorem setNext_initListHead {n a b : Node (Fin 32) TaskletAddr} (ha : a ≠ n) :
    (initListHead n l).setNext a b = initListHead n (l.setNext a b) :=
  Links.ext (Function.update_comm ha.symm ..) rfl

/-- The last node of a queue is that of a tasklet that exists, or a head. -/
theorem prev_head_ne (h : TaskletQueue.Inv u q) (ht : u.allocated t = false) (b : Fin 32) :
    u.links.prev (.head b) ≠ .item t := by
  obtain ⟨l, hl, hlinks⟩ := h.rings
  have hlast : l.prev (.head b) ≠ .item t := by
    intro he
    have hmem := (hl.ring b trivial).prev_mem List.mem_cons_self
    rw [he] at hmem
    have hq := mem_nodes.mp ((List.mem_cons.mp hmem).resolve_left nofun)
    rw [h.made t ((h.mem_iff b t).mp hq).1] at ht
    cases ht
  rw [hlinks]
  have hknow := h.knows
  cases hph : u.phase with
  | storeNext p w prev next =>
    rw [hph] at hknow
    by_cases hb : (.head b : Node (Fin 32) TaskletAddr) = next
    · rw [hb, hknow.1]
      exact fun he => by simp [midway, Links.prev_setPrev_self] at he
    · exact (Links.prev_setPrev_of_ne hb).symm ▸ hlast
  | _ => exact hlast

theorem during_taskletInit (hne : c.task ≠ t) (hprev : u.links.prev (.head c.bit) ≠ .item t) (h : Loaded c u) :
    during c (taskletInit t prio func u) = taskletInit t prio func (during c u) ∧
      Loaded c (taskletInit t prio func u) := by
  obtain ⟨task, bit, place⟩ := c
  have htask : (.item task : Node (Fin 32) TaskletAddr) ≠ .item t := fun he => hne (Node.item.inj he)
  have hhead : (.head bit : Node (Fin 32) TaskletAddr) ≠ .item t := nofun
  have hread : (taskletInit t prio func u).links.prev (.head bit) = u.links.prev (.head bit) :=
    Links.prev_setPrev_of_ne hhead
  have hstate : ∀ l l', l = initListHead (.item t) l' →
      { taskletInit t prio func u with links := l } = taskletInit t prio func { u with links := l' } := by
    rintro l l' rfl
    rfl
  have hadd : listAddTail (.item task) (.head bit) (initListHead (.item t) u.links) =
      initListHead (.item t) (listAddTail (.item task) (.head bit) u.links) := by
    unfold listAddTail listAddBetween
    rw [show (initListHead (.item t) u.links).prev (.head bit) = u.links.prev (.head bit) from hread,
      setPrev_initListHead hhead, setNext_initListHead htask, setPrev_initListHead htask, setNext_initListHead hprev]
  cases place with
  | loadPrev => exact ⟨rfl, trivial⟩
  | storeNextPrev prev => exact ⟨rfl, h.trans hread.symm⟩
  | storeNewNext prev => exact ⟨hstate _ _ (setPrev_initListHead hhead), h.trans hread.symm⟩
  | storeNewPrev prev =>
    refine ⟨hstate _ _ ?_, h.trans hread.symm⟩
    rw [← setNext_initListHead htask, ← setPrev_initListHead hhead]
    rfl
  | storePrevNext prev =>
    refine ⟨hstate _ _ ?_, h.trans hread.symm⟩
    rw [← setPrev_initListHead htask, ← setNext_initListHead htask, ← setPrev_initListHead hhead]
    rfl
  | loadMap => exact ⟨hstate _ _ hadd, trivial⟩
  | storeMap word => exact ⟨hstate _ _ hadd, h⟩

theorem undisturbed_taskletInit (hne : c.task ≠ t) (h : Undisturbed u c.task) :
    Undisturbed (taskletInit t prio func u) c.task := by
  have hinfo : (taskletInit t prio func u).info c.task = u.info c.task := Function.update_of_ne hne _ _
  unfold Undisturbed at h ⊢
  rw [hinfo]
  exact h

end

/-! ## The invariant -/

section

variable {ι : Type*} {s s' : State ι}

/-- The queues as they are when no call has begun, or as a call has changed them by now. -/
inductive Held (s : State ι) : Prop where
  | still (q : Queues) (inv : TaskletQueue.Inv s.tasklets q) (none : ∀ i, ¬ Begun s i)
  | begun (i : ι) (c : Call) (u : Tasklet.State) (q : Queues) (call : s.calls i = some c) (place : c.place ≠ .loadPrev)
      (only : ∀ j, Begun s j → j = i) (inv : TaskletQueue.Inv u q) (undisturbed : Undisturbed u c.task)
      (loaded : Loaded c u) (queues : s.tasklets = during c u)

structure Inv (s : State ι) : Prop where
  /-- A call has the tasklet that it was given, and the queue of its priority. -/
  calls : ∀ i c, s.calls i = some c →
    s.tasklets.allocated c.task = true ∧ (s.tasklets.info c.task).prio.toNat = c.bit
  held : Held s

theorem Inv.wellQueued (h : Inv s) (hr : AtRest s) : WellQueued s.tasklets := by
  obtain ⟨hq, hnone⟩ := hr
  cases h.held with
  | still q hinv => exact hinv.wellQueued hq
  | begun i c u q hc hplace => exact absurd ⟨c, hc, hplace⟩ (hnone i)

theorem inv_init (mem : Memory (Fin 32) TaskletAddr) (info : TaskletAddr → TaskletStruct) :
    Inv (init mem info : State ι) := by
  refine ⟨fun i c hc => (by cases hc), .still _ (TaskletQueue.inv_init mem info) fun i hi => ?_⟩
  obtain ⟨c, hc, -⟩ := hi
  cases hc

/-- An access of `tasklet_action`, when no call has begun. -/
theorem Inv.taskletAction {t : Tasklet.State} (h : Inv s) (hnone : ∀ i, ¬ Begun s i)
    (he : taskletAction s.tasklets = some t) : Inv { s with tasklets := t } := by
  cases h.held with
  | begun i c u q hc hplace => exact absurd ⟨c, hc, hplace⟩ (hnone i)
  | still q hinv =>
    have hrun : s.tasklets.phase ≠ .stopped := by
      intro hph
      simp only [Tasklet.taskletAction, hph] at he
      cases he
    obtain ⟨t', ht', hinv'⟩ := taskletAction_inv hinv hrun
    obtain rfl : t' = t := Option.some.inj (ht'.symm.trans he)
    obtain ⟨hinfo, halloc⟩ := taskletAction_frame he
    refine ⟨fun i c hc => ?_, .still _ hinv' hnone⟩
    rw [hinfo, halloc]
    exact h.calls i c hc

theorem Inv.taskletInit {t : TaskletAddr} {prio : Word} {func : Option Word} (h : Inv s)
    (ht : s.tasklets.allocated t = false) : Inv { s with tasklets := taskletInit t prio func s.tasklets } := by
  have hne : ∀ i c, s.calls i = some c → c.task ≠ t := by
    rintro i c hc rfl
    rw [(h.calls i c hc).1] at ht
    cases ht
  refine ⟨fun i c hc => ?_, ?_⟩
  · show Function.update s.tasklets.allocated t true c.task = true ∧
      (Function.update s.tasklets.info t ⟨prio, func⟩ c.task).prio.toNat = c.bit
    rw [Function.update_of_ne (hne i c hc), Function.update_of_ne (hne i c hc)]
    exact h.calls i c hc
  · cases h.held with
    | still q hinv hnone => exact .still q (hinv.init ht) hnone
    | begun i c u q hc hplace honly hinv hu hl hs =>
      have htu : u.allocated t = false := by
        rw [hs, (during_frame c u).2] at ht
        exact ht
      obtain ⟨hduring, hl'⟩ :=
        @during_taskletInit c u t prio func (hne i c hc) (prev_head_ne hinv htu c.bit) hl
      refine .begun i c _ q hc hplace honly (hinv.init htu) (undisturbed_taskletInit (hne i c hc) hu) hl' ?_
      rw [hduring, ← hs]

variable [DecidableEq ι]

theorem begun_update {i j : ι} {tasklets : Tasklet.State} {r : Option Call} :
    Begun ⟨tasklets, Function.update s.calls i r⟩ j ↔
      (j = i ∧ ∃ c, r = some c ∧ c.place ≠ .loadPrev) ∨ (j ≠ i ∧ Begun s j) := by
  unfold Begun
  by_cases hj : j = i
  · subst hj
    simp
  · simp [hj]

theorem Inv.taskletSchedule {i : ι} {task : Option TaskletAddr} (h : Inv s) (hi : s.calls i = none)
    (ha : ∀ t ∈ task, s.tasklets.allocated t = true) : Inv (taskletSchedule i task s) := by
  cases task with
  | none => exact h
  | some t =>
    unfold TaskletCalls.taskletSchedule
    dsimp only
    split
    · exact h
    rename_i hprio
    have hother : ∀ j c, j ≠ i → s.calls j = some c →
        Function.update s.calls i (some ⟨t, ⟨(s.tasklets.info t).prio.toNat, toNat_lt_of_minprio hprio⟩, .loadPrev⟩)
        j =
          some c := fun j c hj hc => (Function.update_of_ne hj _ _).trans hc
    refine ⟨fun j c hc => ?_, ?_⟩
    · by_cases hj : j = i
      · subst hj
        have hnew := (Function.update_self ..).symm.trans hc
        obtain rfl := Option.some.inj hnew
        exact ⟨ha t rfl, rfl⟩
      · exact h.calls j c ((Function.update_of_ne hj _ _).symm.trans hc)
    · have hbegun : ∀ j, Begun ⟨s.tasklets, Function.update s.calls i
          (some ⟨t, ⟨(s.tasklets.info t).prio.toNat, toNat_lt_of_minprio hprio⟩, .loadPrev⟩)⟩ j → Begun s j := by
        intro j hj
        rcases begun_update.mp hj with ⟨-, c, hc, hplace⟩ | ⟨-, hj⟩
        · obtain rfl := Option.some.inj hc
          exact absurd rfl hplace
        · exact hj
      cases h.held with
      | still q hinv hnone => exact .still q hinv fun j hj => hnone j (hbegun j hj)
      | begun j c u q hc hplace honly hinv hu hl hs =>
        have hj : j ≠ i := by
          rintro rfl
          rw [hi] at hc
          cases hc
        exact .begun j c u q (hother j c hj hc) hplace (fun k hk => honly k (hbegun k hk)) hinv hu hl hs

/-- The next access of a call that nobody meets. -/
theorem Inv.bitmapEnqueue {i : ι} {c : Call} (h : Inv s) (hm : Meets s (.bitmapEnqueue i)) (hc : s.calls i = some c) :
    Inv ⟨(bitmapEnqueue c s.tasklets).1, Function.update s.calls i
      ((bitmapEnqueue c s.tasklets).2.map fun place => { c with place := place })⟩ := by
  obtain ⟨honly, hbegin⟩ := hm
  obtain ⟨ha, hbit⟩ := h.calls i c hc
  -- what the call has found
  obtain ⟨u, q, hinv, hu, hl, hs⟩ : ∃ u q, TaskletQueue.Inv u q ∧ Undisturbed u c.task ∧ Loaded c u ∧
      s.tasklets = during c u := by
    by_cases hplace : c.place = .loadPrev
    · cases h.held with
      | still q hinv =>
        refine ⟨s.tasklets, q, hinv, hbegin c hc hplace, ?_, ?_⟩
        · unfold Loaded
          rw [hplace]
          trivial
        · unfold during
          rw [hplace]
      | begun j d u q hd hdplace =>
        obtain rfl := honly j ⟨d, hd, hdplace⟩
        obtain rfl := Option.some.inj (hc.symm.trans hd)
        exact absurd hplace hdplace
    · cases h.held with
      | still q hinv hnone => exact absurd ⟨c, hc, hplace⟩ (hnone i)
      | begun j d u q hd hdplace _ hinv hu hl hs =>
        obtain rfl := honly j ⟨d, hd, hdplace⟩
        obtain rfl := Option.some.inj (hc.symm.trans hd)
        exact ⟨u, q, hinv, hu, hl, hs⟩
  have haccess := bitmapEnqueue_during hl
  have hcalls : ∀ j d, s.calls j = some d → u.allocated d.task = true ∧ (u.info d.task).prio.toNat = d.bit := by
    intro j d hd
    have hcall := h.calls j d hd
    rwa [hs, (during_frame c u).1, (during_frame c u).2] at hcall
  have hothers : ∀ {tasklets : Tasklet.State} {r : Option Call} {j : ι},
      Begun ⟨tasklets, Function.update s.calls i r⟩ j → j = i ∧ ∃ d, r = some d ∧ d.place ≠ .loadPrev := by
    intro tasklets r j hj
    rcases begun_update.mp hj with hj | ⟨hj, hbegun⟩
    · exact hj
    · exact absurd (honly j hbegun) hj
  rw [hs]
  cases hr : (TaskletCalls.bitmapEnqueue c (during c u)).2 with
  | some place =>
    rw [hr] at haccess
    rw [haccess.1]
    refine ⟨fun j d hd => ?_,
      .begun i _ u q (Function.update_self ..) (place_ne_loadPrev hr) (fun j hj => (hothers hj).1) hinv
      hu haccess.2 rfl⟩
    rw [(during_frame _ u).1, (during_frame _ u).2]
    by_cases hj : j = i
    · subst hj
      have hnew := (Function.update_self ..).symm.trans hd
      obtain rfl := Option.some.inj hnew
      exact hcalls j c hc
    · exact hcalls j d ((Function.update_of_ne hj _ _).symm.trans hd)
  | none =>
    rw [hr] at haccess
    rw [haccess]
    refine ⟨fun j d hd => ?_, .still _ (hinv.enqueue (hcalls i c hc).2 (hcalls i c hc).1 hu) fun j hj => ?_⟩
    · by_cases hj : j = i
      · subst hj
        have hnew := (Function.update_self ..).symm.trans hd
        cases hnew
      · exact hcalls j d ((Function.update_of_ne hj _ _).symm.trans hd)
    · obtain ⟨-, d, hd, -⟩ := hothers hj
      cases hd

/-- **Step lemma.** -/
theorem step_inv (s : State ι) (a : Act ι) (s' : State ι) (h : Inv s) (hm : Meets s a) (he : step s a = some s') :
    Inv s' := by
  cases a with
  | taskletInit t prio func =>
    obtain ⟨u, hu, rfl⟩ := Option.map_eq_some_iff.mp he
    simp only [Tasklet.step, Option.ite_none_left_eq_some, Option.some.injEq] at hu
    obtain ⟨ht, rfl⟩ := hu
    exact h.taskletInit (by simpa using ht)
  | taskletSchedule i task =>
    simp only [step, Option.ite_none_right_eq_some, Option.some.injEq] at he
    obtain ⟨⟨hi, ha⟩, rfl⟩ := he
    exact h.taskletSchedule hi ha
  | bitmapEnqueue i =>
    obtain ⟨c, hc, rfl⟩ := Option.map_eq_some_iff.mp he
    exact h.bitmapEnqueue hm hc
  | taskletAction =>
    obtain ⟨t, ht, rfl⟩ := Option.map_eq_some_iff.mp he
    exact h.taskletAction hm ht

/-! ## Every run -/

/-- **The tasklet queues.** In every run whose calls meet the condition, whatever interrupts
and threads call `tasklet_schedule` and wherever they are left, in every state in which
neither a call nor `tasklet_action` is in the middle of its work on the queues they are well
formed, the bits say which are not empty, and the pending tasklets are linked, each once. -/
theorem runs_wellQueued (mem : Memory (Fin 32) TaskletAddr) (info : TaskletAddr → TaskletStruct) (as : List (Act ι))
    (hm : ∀ x ∈ trace step (init mem info) as, Meets x.pre x.act) :
    ∀ x ∈ trace step (init mem info) as, AtRest x.post → WellQueued x.post.tasklets := by
  intro x hx hrest
  exact (trace_invariant step_inv (inv_init mem info) hm x hx).2.wellQueued hrest

end

/-! ## Concrete runs -/

/-- The tasklet of the tick is created, and the tick schedules it. -/
def ticked {ι : Type*} (tick : ι) : List (Act ι) :=
  .taskletInit 0 0 (some 1) :: .taskletSchedule tick (some 0) :: .replicate 7 (.bitmapEnqueue tick)

theorem runs_wellQueued_ticked : ∃ s : State Unit, run step (init memory fun _ => ⟨0, none⟩) (ticked ()) = some s ∧
    s.tasklets.pending 0 = true ∧ WellQueued s.tasklets := by
  have hbegun : ∀ (s : State Unit) c, s.calls () = some c → c.place ≠ .loadPrev → Meets s (.bitmapEnqueue ()) := by
    refine fun s c hc hplace => ⟨fun _ _ => rfl, fun d hd hd' => ?_⟩
    obtain rfl := Option.some.inj (hc.symm.trans hd)
    exact absurd hd' hplace
  have hm : ∀ x ∈ trace step (init memory fun _ => ⟨0, none⟩ : State Unit) (ticked ()), Meets x.pre x.act := by
    refine forall_trace_cons rfl trivial (forall_trace_cons rfl trivial (forall_trace_cons rfl ?_ ?_))
    · refine ⟨fun _ _ => rfl, fun c hc _ => ?_⟩
      obtain rfl := Option.some.inj hc
      exact ⟨rfl, trivial⟩
    · exact forall_trace_cons rfl (hbegun _ _ rfl nofun) (forall_trace_cons rfl (hbegun _ _ rfl nofun)
        (forall_trace_cons rfl (hbegun _ _ rfl nofun) (forall_trace_cons rfl (hbegun _ _ rfl nofun)
        (forall_trace_cons rfl (hbegun _ _ rfl nofun) (forall_trace_cons rfl (hbegun _ _ rfl nofun)
        fun x hx => by cases hx)))))
  obtain ⟨u, s, hu, hs, hrest, hp⟩ : ∃ u s : State Unit, run step (init memory fun _ => ⟨0, none⟩)
      (.taskletInit 0 0 (some 1) :: .taskletSchedule () (some 0) :: .replicate 6 (.bitmapEnqueue ())) = some u ∧
      step u (.bitmapEnqueue ()) = some s ∧ AtRest s ∧ s.tasklets.pending 0 = true := by
    refine ⟨_, _, rfl, rfl, ⟨rfl, fun i hi => ?_⟩, rfl⟩
    obtain ⟨c, hc, -⟩ := hi
    cases hc
  exact ⟨s, run_concat hu hs, hp, runs_wellQueued memory _ (ticked ()) hm _ (mem_trace_of_run hu hs) hrest⟩

/-- The next tick comes before `softirqd` has run. And a tick comes while a thread is at the
first store of its call: the queue then has the tasklet of the thread alone. -/
theorem ticked_twice_not_wellQueued :
    (∃ s : State Bool, run step (init memory fun _ => ⟨0, none⟩)
      (ticked true ++ .taskletSchedule true (some 0) :: .replicate 7 (.bitmapEnqueue true)) = some s ∧
      AtRest s ∧ ¬ WellQueued s.tasklets) ∧
    ∃ s : State Bool, run step (init memory fun _ => ⟨0, none⟩)
      ([.taskletInit 0 0 (some 1), .taskletInit 1 0 (some 2), .taskletSchedule false (some 1), .bitmapEnqueue false,
        .taskletSchedule true (some 0)] ++ .replicate 7 (.bitmapEnqueue true) ++
        .replicate 6 (.bitmapEnqueue false)) = some s ∧
      AtRest s ∧ ¬ WellQueued s.tasklets := by
  constructor
  · refine ⟨_, rfl, ⟨rfl, fun i hi => ?_⟩, ?_⟩
    · obtain ⟨c, hc, -⟩ := hi
      cases i <;> cases hc
    · rintro ⟨q, hring, -, -⟩
      have hback := (hring 0).prev_next List.mem_cons_self
      revert hback
      decide
  · refine ⟨_, rfl, ⟨rfl, fun i hi => ?_⟩, ?_⟩
    · obtain ⟨c, hc, -⟩ := hi
      cases i <;> cases hc
    · rintro ⟨q, hring, -, hmem⟩
      have hq : (0 : TaskletAddr) ∈ q 0 := (hmem 0 0).mpr ⟨rfl, rfl⟩
      have hback := (hring 0).next_prev (List.mem_cons_of_mem _ (mem_nodes.mpr hq))
      revert hback
      decide

end PikoRT.Softirq.TaskletCalls

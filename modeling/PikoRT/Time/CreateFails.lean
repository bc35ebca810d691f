import PikoRT.Time.Alloc

/-! # Calls of `sys_timer_create` that fail

When all timer ids are reserved, `sys_timer_create` frees the timer before it has set any
of its fields. `timer_free` then looks at `disarmed` as `malloc` left it, and where that is
zero it unlinks a node that was never linked. -/
namespace PikoRT.Time.CreateFails
open PikoRT.Lib.Run PikoRT.Lib.Rings PikoRT.Kernel.Bitops PikoRT.Kernel.LinuxList PikoRT.Kernel.ListFamily
open PikoRT.Libc PikoRT.Time.Timer PikoRT.Time.Alloc
open PikoRT.Libc.Malloc (Allocation Region)
open PikoRT.Libc.HeapRestore (BlockList)
open PikoRT.Libc.HeapLedger (Holding)

/-- Nothing is left of what the call did. -/
structure NoTrace (s s' : System) : Prop where
  timerHead : s'.timers.timerHead = s.timers.timerHead
  systickTimers : ∃ xs, Ring s.timers.links systickTimers (nodes xs) ∧ Ring s'.timers.links systickTimers (nodes xs)
  bitmap : s'.timers.bitmap = s.timers.bitmap
  live : s'.heap.live.Perm s.heap.live
  blocks : ∀ xs, BlockList s.heap xs ↔ BlockList s'.heap xs

variable (z : Sizes)

/-- What a step that is a call of `sys_timer_create` returns. -/
def returned (x : Transition System Alloc.Act) : Option (ℤ × Option ℕ) :=
  match x.act with
  | .timerCreate fuel m sevp => (sysTimerCreate z fuel m sevp x.pre).map Prod.fst
  | _ => none

/-- The timer id that it returns. -/
def timerid (x : Transition System Alloc.Act) : Option ℕ := (returned z x).bind Prod.snd

def timerids (xs : List (Transition System Alloc.Act)) : List ℕ := xs.filterMap (timerid z)

/-- The calls of a run come to their end, those that fail leave no trace, and the others
return different timer ids. -/
structure Clean (xs : List (Transition System Alloc.Act)) : Prop where
  returns : ∀ x ∈ xs, ∀ m sevp, ∃ n r, ∀ fuel ≥ n, sysTimerCreate z fuel m sevp x.pre = some r
  fails : ∀ x ∈ xs, ∀ r, returned z x = some r → r.1 ≠ 0 → NoTrace x.pre x.post
  distinct : (timerids z xs).Nodup

section

variable {z} {g : Region} {h₀ h : Malloc.State} {us : List Allocation} {s s' : System} {fuel : ℕ} {m : Stale}
  {sevp : Sigevent} {r : ℤ × Option ℕ}

/-! ## A call that fails -/

/-- The heap as it is now, taken as the start. -/
theorem holding_self (h : Kept z g h₀ s) : Holding g s.heap s.heap [] := by
  obtain ⟨-, xs, -, hi, -⟩ := h.held.blocks
  exact .refl hi

theorem timerFree_lists (t : TimerAddr) (r : Timers) :
    (Timer.timerFree t r).timerHead = r.timerHead ∧ (Timer.timerFree t r).bitmap = r.bitmap := by
  obtain ⟨l, he⟩ := timerFree_writes t r
  rw [he]
  exact ⟨rfl, rfl⟩

/-- **A call that fails** leaves no trace, if memory that does not look like an armed
timer is what it frees. -/
theorem noTrace_of_fails (h : Kept z g h₀ s) (hm : Meets z s (.timerCreate fuel m sevp))
    (he : sysTimerCreate z fuel m sevp s = some (r, s')) (hr : r.1 ≠ 0) : NoTrace s s' := by
  obtain ⟨xs, hi⟩ := h.list
  have hm : TimerList.Meets s.timers (.timerCreate (granted z fuel m s) sevp) := hm
  have hvalid := h.validMem fuel m
  obtain ⟨htimers, hcases⟩ := sysTimerCreate_spec (holding_self h) he
  rcases hcases with ⟨-, hg, hl⟩ | ⟨t, -, hg, hid, hl⟩ | ⟨t, id, bitmap, rfl, -⟩
  · obtain ⟨hlive, hblocks⟩ := hl.held.restored
    have hsame : s'.timers = s.timers := by
      rw [htimers, hg]
      rfl
    refine ⟨?_, ⟨xs, hi.ring, ?_⟩, ?_, hlive, hblocks⟩
    · rw [hsame]
    · rw [hsame]
      exact hi.ring
    · rw [hsame]
  · obtain ⟨hlive, hblocks⟩ := hl.held.restored
    rw [hg] at htimers hm hvalid
    have hlist : TimerList.Inv (Timer.sysTimerCreate (some (m.block t)) sevp s.timers).2 xs :=
      TimerList.sysTimerCreate_list hi (by simpa [Timer.validMem] using hvalid) hm
    rw [← htimers] at hlist
    rw [sysTimerCreate_exhausted hid] at htimers
    obtain ⟨hhead, hbits⟩ := timerFree_lists (m.block t).addr (Timer.timerAlloc (m.block t) s.timers)
    refine ⟨?_, ⟨xs, hi.ring, hlist.ring⟩, ?_, hlive, hblocks⟩
    · rw [htimers]
      exact hhead
    · rw [htimers]
      exact hbits
  · exact absurd rfl hr

/-! ## Every call ends -/

theorem malloc_mono {fuel' : ℕ} {size : Word} {p : Option ℕ × Malloc.State} (hle : fuel ≤ fuel')
    (he : malloc fuel size h = some p) : malloc fuel' size h = some p := by
  obtain ⟨q, hq, rfl⟩ := Option.map_eq_some_iff.mp he
  unfold malloc
  rw [HeapRestore.malloc_mono hle hq]
  rfl

theorem timerAlloc_mono {fuel' : ℕ} {p : Option TimerAddr × System} (hle : fuel ≤ fuel')
    (he : Alloc.timerAlloc z fuel m s = some p) : Alloc.timerAlloc z fuel' m s = some p := by
  obtain ⟨q, hq, he⟩ := Option.bind_eq_some_iff.mp he
  unfold Alloc.timerAlloc
  rw [malloc_mono hle hq, Option.bind_some]
  cases hptr : q.1 with
  | none =>
    rw [hptr] at he
    exact he
  | some t =>
    rw [hptr] at he
    obtain ⟨k, hk, he⟩ := Option.bind_eq_some_iff.mp he
    dsimp only
    rw [malloc_mono hle hk, Option.bind_some]
    exact he

theorem sysTimerCreate_mono {fuel' : ℕ} {p : (ℤ × Option ℕ) × System} (hle : fuel ≤ fuel')
    (he : Alloc.sysTimerCreate z fuel m sevp s = some p) : Alloc.sysTimerCreate z fuel' m sevp s = some p := by
  obtain ⟨q, hq, he⟩ := Option.bind_eq_some_iff.mp he
  unfold Alloc.sysTimerCreate
  rw [timerAlloc_mono hle hq, Option.bind_some]
  exact he

theorem malloc_returns (hh : Holding g h₀ h us) (size : Word) : ∃ n p, malloc n size h = some p := by
  obtain ⟨n, p, hp⟩ := hh.malloc_returns size
  exact ⟨n, _, Option.map_eq_some_iff.mpr ⟨p, hp n le_rfl, rfl⟩⟩

theorem timerAlloc_returns (hh : Holding g h₀ s.heap us) (m : Stale) :
    ∃ n p, Alloc.timerAlloc z n m s = some p := by
  obtain ⟨n, p, hp⟩ := malloc_returns hh z.timerInfo
  rcases malloc_spec hh z.modestInfo hp with rfl | ⟨t, hpt, -, hheld⟩
  · refine ⟨n, (none, s), ?_⟩
    unfold Alloc.timerAlloc
    rw [hp]
    rfl
  · obtain ⟨k, q, hq⟩ := malloc_returns hheld z.systickTimer
    refine ⟨max n k, ?_⟩
    unfold Alloc.timerAlloc
    rw [malloc_mono (le_max_left n k) hp, Option.bind_some, hpt]
    dsimp only
    rw [malloc_mono (le_max_right n k) hq, Option.bind_some]
    rcases malloc_spec hheld z.modestTimer hq with rfl | ⟨d, hqd, -⟩
    · obtain ⟨h', hfree, -⟩ := hheld.free
      exact ⟨_, by rw [free, hfree]; rfl⟩
    · rw [hqd]
      exact ⟨_, rfl⟩

theorem sysTimerCreate_returns (hh : Holding g h₀ s.heap us) (m : Stale) (sevp : Sigevent) :
    ∃ n p, ∀ fuel ≥ n, Alloc.sysTimerCreate z fuel m sevp s = some p := by
  obtain ⟨n, q, hq⟩ := timerAlloc_returns (z := z) hh m
  obtain ⟨p, hp⟩ : ∃ p, Alloc.sysTimerCreate z n m sevp s = some p := by
    unfold Alloc.sysTimerCreate
    rw [hq, Option.bind_some]
    rcases timerAlloc_spec hh hq with ⟨hnone, -⟩ | ⟨t, d, hsome, -, hdev, -, hheld⟩
    · rw [hnone]
      exact ⟨_, rfl⟩
    · have hboth : Holding g h₀ q.2.heap (⟨q.2.dev t, z.systickTimer⟩ :: ⟨t, z.timerInfo⟩ :: us) := by
        rw [hdev, Function.update_self]
        exact hheld
      obtain ⟨k, hk, -⟩ := timerFree_spec hboth
      rw [hsome]
      dsimp only
      rw [hk]
      split
      · exact ⟨_, rfl⟩
      · exact ⟨_, rfl⟩
  exact ⟨n, p, fun fuel hle => sysTimerCreate_mono hle hp⟩

/-! ## Timer ids -/

/-- The ids that are reserved. -/
def Reserved (s : System) (id : ℕ) : Prop := testBit s.timers.bitmap id = true

theorem reserveTimerId_spec {bitmap bitmap' : List Word} {id : ℕ} (hlen : bitmap.length = 1)
    (h : reserveTimerId bitmap = some (id, bitmap')) :
    testBit bitmap id = false ∧ bitmap'.length = 1 ∧
      ∀ i, testBit bitmap' i = true ↔ i = id ∨ testBit bitmap i = true := by
  have hsize : BITS_PER_LONG ≤ 32 * bitmap.length := by rw [hlen]
  obtain ⟨hle, hclear, -⟩ := findFirstZeroBit_spec hsize
  obtain ⟨hne, he⟩ := Option.ite_none_left_eq_some.mp h
  obtain ⟨rfl, rfl⟩ := Prod.mk.inj (Option.some.inj he)
  have hlt := Nat.lt_of_le_of_ne hle hne
  have hword : findFirstZeroBit bitmap BITS_PER_LONG / 32 < bitmap.length := by
    rw [hlen]
    exact Nat.div_lt_of_lt_mul hlt
  refine ⟨hclear hlt, (length_bitmapSetBit _ _).trans hlen, fun i => ?_⟩
  rw [testBit_bitmapSetBit hword]
  simp

/-- A step reserves the id that it returns, which is not reserved yet, and no other. -/
theorem step_reserves {a : Alloc.Act} (h : Kept z g h₀ s) (hlen : s.timers.bitmap.length = 1)
    (he : Alloc.step z s a = some s') :
    s'.timers.bitmap.length = 1 ∧
      match timerid z ⟨s, a, s'⟩ with
      | none => s'.timers.bitmap = s.timers.bitmap
      | some id => ¬ Reserved s id ∧ ∀ i, Reserved s' i ↔ i = id ∨ Reserved s i := by
  have hsame : s'.timers.bitmap = s.timers.bitmap → returned z ⟨s, a, s'⟩ = none →
      s'.timers.bitmap.length = 1 ∧
        match timerid z ⟨s, a, s'⟩ with
        | none => s'.timers.bitmap = s.timers.bitmap
        | some id => ¬ Reserved s id ∧ ∀ i, Reserved s' i ↔ i = id ∨ Reserved s i := by
    intro hb hn
    rw [timerid, hn]
    exact ⟨(congrArg _ hb).trans hlen, hb⟩
  cases a with
  | timerCreate fuel m sevp =>
    obtain ⟨⟨r, w⟩, hr, rfl⟩ := Option.map_eq_some_iff.mp he
    have hret : returned z ⟨s, .timerCreate fuel m sevp, w⟩ = some r := by
      unfold returned
      dsimp only
      rw [hr]
      rfl
    obtain ⟨htimers, hcases⟩ := sysTimerCreate_spec h.held hr
    rw [timerid, hret]
    rcases hcases with ⟨rfl, hg, -⟩ | ⟨t, rfl, hg, hid, -⟩ | ⟨t, id, bitmap, rfl, hg, hid, -⟩
    · have hbits : w.timers.bitmap = s.timers.bitmap := by
        rw [htimers, hg]
        rfl
      exact ⟨(congrArg _ hbits).trans hlen, hbits⟩
    · rw [hg, sysTimerCreate_exhausted hid] at htimers
      have hbits : w.timers.bitmap = s.timers.bitmap := by
        rw [htimers]
        exact (timerFree_lists ..).2
      exact ⟨(congrArg _ hbits).trans hlen, hbits⟩
    · rw [hg, sysTimerCreate_reserved hid] at htimers
      have hbits : w.timers.bitmap = bitmap := by
        rw [htimers]
        rfl
      obtain ⟨hclear, hlen', hset⟩ := reserveTimerId_spec hlen hid
      refine ⟨(congrArg _ hbits).trans hlen', ?_, fun i => ?_⟩
      · rw [Reserved, hclear]
        exact Bool.false_ne_true
      · rw [Reserved, hbits]
        exact hset i
  | timerSettime timerid newValue c =>
    cases he
    rcases TimerList.sysTimerSettime_writes timerid newValue c s.timers with he | ⟨t, i, l, -, he⟩
    · have hbits := congrArg Timers.bitmap he
      exact hsame hbits rfl
    · have hbits := congrArg Timers.bitmap he
      exact hsame hbits rfl
  | msleep fuel m msec c =>
    obtain ⟨⟨r, w⟩, hr, rfl⟩ := Option.map_eq_some_iff.mp he
    obtain ⟨htimers, -⟩ := sysMsleep_spec h.held hr
    refine hsame ?_ rfl
    rw [htimers]
    cases granted z fuel m s with
    | none => rfl
    | some b =>
      obtain ⟨i, l, he⟩ := sysMsleep_writes b msec c s.timers
      rw [he]
      rfl
  | msleepReturn t =>
    obtain ⟨⟨ht, -⟩, he⟩ := Option.ite_none_right_eq_some.mp he
    obtain ⟨k, hk, -⟩ := sysMsleepReturn_spec h ht
    obtain rfl := Option.some.inj (he.symm.trans hk)
    exact hsame (timerFree_lists ..).2 rfl
  | systick =>
    cases he
    exact hsame rfl rfl
  | systickBh fuel =>
    obtain ⟨v, hv, rfl⟩ := Option.map_eq_some_iff.mp he
    obtain ⟨info, l, fs, rfl⟩ := systickBhFrom_writes hv
    exact hsame rfl rfl

/-- **The run lemma.** The ids that a run returns are all different, and were not reserved
before it. -/
theorem timerids_nodup (as : List Alloc.Act) (h : Kept z g h₀ s) (hlen : s.timers.bitmap.length = 1)
    (hm : ∀ x ∈ trace (Alloc.step z) s as, Meets z x.pre x.act) :
    (timerids z (trace (Alloc.step z) s as)).Nodup ∧
      ∀ id ∈ timerids z (trace (Alloc.step z) s as), ¬ Reserved s id := by
  induction as generalizing s with
  | nil => exact ⟨List.nodup_nil, fun id hid => (nomatch hid)⟩
  | cons a as ih =>
    cases hs : Alloc.step z s a with
    | none =>
      rw [trace_cons_none hs]
      exact ⟨List.nodup_nil, fun id hid => (nomatch hid)⟩
    | some s' =>
      rw [trace_cons_some hs] at hm ⊢
      obtain ⟨ha, hm⟩ := List.forall_mem_cons.mp hm
      obtain ⟨hlen', hstep⟩ := step_reserves h hlen hs
      obtain ⟨hnd, hfresh⟩ := ih (step_kept h ha hs) hlen' hm
      cases hid : timerid z ⟨s, a, s'⟩ with
      | none =>
        rw [hid] at hstep
        rw [timerids, List.filterMap_cons_none hid]
        refine ⟨hnd, fun i hi => ?_⟩
        rw [Reserved, ← hstep]
        exact hfresh i hi
      | some id =>
        rw [hid] at hstep
        obtain ⟨hnew, hres⟩ := hstep
        rw [timerids, List.filterMap_cons_some hid]
        refine ⟨List.nodup_cons.mpr ⟨fun hi => hfresh id hi ((hres id).mpr (.inl rfl)), hnd⟩, fun i hi => ?_⟩
        rcases List.mem_cons.mp hi with rfl | hi
        · exact hnew
        · exact fun hr => hfresh i hi ((hres i).mpr (.inr hr))

/-- **Timers that cannot be created.** In every run whose steps keep the list (a
`sys_timer_create` that finds all ids reserved is given memory whose `disarmed` is not
zero), the calls that fail leave no trace, and the others return different timer ids. -/
theorem runs_clean (h₀ : Malloc.State) (hs : List Malloc.Act) (mem : Malloc.Heap)
    (hheap : run Malloc.step (Malloc.init g mem) hs = some h₀) (hmod : ∀ a ∈ hs, HeapRun.Act.Modest a)
    (links : Memory Unit TimerAddr) (info : TimerAddr → TimerInfo) (dev : TimerAddr → ℕ) (as : List Alloc.Act)
    (hm : ∀ x ∈ trace (Alloc.step z) (start h₀ links info dev) as, Meets z x.pre x.act) :
    Clean z (trace (Alloc.step z) (start h₀ links info dev) as) := by
  have hk := kept_start (z := z) h₀ links info dev (HeapRun.run_inv hheap hmod)
  have hkept : ∀ x ∈ trace (Alloc.step z) (start h₀ links info dev) as, Kept z g h₀ x.pre := by
    intro x hx
    exact (trace_invariant (I := Kept z g h₀) (fun s a t h hm he => step_kept h hm he) hk hm x hx).1
  refine ⟨fun x hx m sevp => ?_, fun x hx r hr hne => ?_, (timerids_nodup as hk rfl hm).1⟩
  · exact sysTimerCreate_returns (hkept x hx).held m sevp
  · have hstep := step_of_mem_trace hx
    have hmeets := hm x hx
    unfold returned at hr
    split at hr
    · rename_i fuel m sevp hact
      rw [hact] at hstep hmeets
      obtain ⟨q, hq, rfl⟩ := Option.map_eq_some_iff.mp hr
      obtain ⟨p, hp, hpost⟩ := Option.map_eq_some_iff.mp hstep
      obtain rfl := Option.some.inj (hq.symm.trans hp)
      rw [← hpost]
      exact noTrace_of_fails (hkept x hx) hmeets hq hne
    · cases hr

end

/-! ## Concrete runs -/

def creates (n : ℕ) (m : Stale) : List Alloc.Act := .replicate n (.timerCreate 100 m ⟨7, 0⟩)

theorem runs_clean_disarmedMemory : Clean sizes (trace (Alloc.step sizes) boot (creates 33 disarmedMemory)) := by
  refine runs_clean _ [] HeapRun.zeroed rfl (by simp) TimerList.memory _ _ _ fun x hx => ?_
  have hact : x.act = .timerCreate 100 disarmedMemory ⟨7, 0⟩ :=
    List.eq_of_mem_replicate (act_mem_of_mem_trace hx)
  rw [hact, Meets, timerAct, granted]
  cases (Alloc.timerAlloc sizes 100 disarmedMemory x.pre).bind Prod.fst with
  | none => trivial
  | some t => exact .inr rfl

/-- After 32 timers, the cleanup of the next one writes into the head of `systick_timers`. -/
theorem armedMemory_not_clean : ¬ Clean sizes (trace (Alloc.step sizes) boot (creates 33 armedMemory)) := by
  intro hclean
  have hrun : ((run (Alloc.step sizes) boot (creates 32 armedMemory)).bind fun s =>
      (Alloc.sysTimerCreate sizes 100 armedMemory ⟨7, 0⟩ s).map fun q =>
        (q.1, s.timers.links.next systickTimers, q.2.timers.links.prev systickTimers)) =
      some ((11, none), systickTimers, .poison1) := by decide +kernel
  obtain ⟨s, hs, hlast⟩ := Option.bind_eq_some_iff.mp hrun
  obtain ⟨⟨r, s'⟩, hr, hq⟩ := Option.map_eq_some_iff.mp hlast
  obtain ⟨rfl, hq⟩ := Prod.mk.inj hq
  obtain ⟨hnext, hprev⟩ := Prod.mk.inj hq
  have hstep : Alloc.step sizes s (.timerCreate 100 armedMemory ⟨7, 0⟩) = some s' := by
    rw [Alloc.step, hr]
    rfl
  have hmem := mem_trace_of_run hs hstep
  have hsnoc : creates 33 armedMemory = creates 32 armedMemory ++ [.timerCreate 100 armedMemory ⟨7, 0⟩] :=
    List.replicate_succ' ..
  rw [← hsnoc] at hmem
  have hret : returned sizes ⟨s, .timerCreate 100 armedMemory ⟨7, 0⟩, s'⟩ = some (11, none) := by
    unfold returned
    dsimp only
    rw [hr]
    rfl
  obtain ⟨xs, hbefore, hafter⟩ := (hclean.fails _ hmem _ hret (by decide)).systickTimers
  have hempty : s.timers.links.next systickTimers = first () xs := TimerList.next_head_eq_first hbefore
  cases xs with
  | nil =>
    have hhead := hafter.prev_next List.mem_cons_self
    rw [hafter.next_head] at hhead
    have hhead : s'.timers.links.prev systickTimers = systickTimers := hhead
    rw [hprev] at hhead
    cases hhead
  | cons t ts =>
    rw [hnext] at hempty
    cases hempty

end PikoRT.Time.CreateFails

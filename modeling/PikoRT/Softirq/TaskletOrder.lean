import PikoRT.Lib.Service
import PikoRT.Softirq.TaskletQueue

/-! # The order of the tasklets

`tasklet_action` calls one tasklet after the other, and the functions that it calls may
schedule tasklets, themselves included. Nobody else runs meanwhile. Seen from outside, the
queues are then a server by level: a tasklet is served when its function is called, which
is some accesses after it has left its queue. -/
namespace PikoRT.Softirq.TaskletOrder
open PikoRT.Lib.Rings PikoRT.Lib.Run PikoRT.Lib.PrioQueue PikoRT.Lib.Service PikoRT.Kernel.Bitops
open PikoRT.Kernel.LinuxList PikoRT.Kernel.ListFamily PikoRT.Softirq.Tasklet
open PikoRT.Softirq.TaskletQueue
  (Queues Rings Inv Knows Undisturbed afterAccess midway removedFrom taskletAction_frame)

/-- `tasklet_action` is called with the tasklets `q` in the queues. -/
structure Called (s : State) (q : Queues) : Prop where
  phase : s.phase = .test
  ring : ∀ p, Ring s.links (.head p) (nodes (q p))
  marks : ∀ p : Fin 32, s.map.getLsbD p = true ↔ q p ≠ []
  mem_iff : ∀ p t, t ∈ q p ↔ s.pending t = true ∧ (s.info t).prio.toNat = p
  made : ∀ t, s.pending t = true → s.allocated t = true
  func : ∀ t, s.allocated t = true → (s.info t).func ≠ none

/-- What the functions do that are called: they schedule tasklets that are not pending, and
create tasklets with functions. -/
def ByFunctions (s : State) : Act → Prop
  | .taskletInit _ _ func => (∃ t, s.phase = .call t) ∧ func ≠ none
  | .taskletSchedule task =>
    (∃ t, s.phase = .call t) ∧ ∀ t ∈ task, (s.info t).prio ≤ prioTaskletMinprio → s.pending t = false
  | .taskletAction => True

/-- The tasklet that is no longer in its queue and whose function is not called yet. -/
def taken : Phase → Option (Fin 32 × TaskletAddr)
  | .poisonNext p t => some (p, t)
  | .poisonPrev p t => some (p, t)
  | .isEmpty p t => some (p, t)
  | .loadMap p t => some (p, t)
  | .storeMap p t _ => some (p, t)
  | _ => none

/-- A tasklet comes in when `tasklet_schedule` accepts it, and is served when
`tasklet_action` comes to the call of its function. -/
def event (x : Transition State Act) : Option (Event 32 TaskletAddr) :=
  match x.act with
  | .taskletSchedule (some t) =>
    if h : prioTaskletMinprio < (x.pre.info t).prio then none
    else some (.arrive ⟨(x.pre.info t).prio.toNat, toNat_lt_of_minprio h⟩ t)
  | .taskletAction =>
    match taken x.pre.phase, x.post.phase with
    | some (p, _), .call t => some (.serve p t)
    | _, _ => none
  | _ => none

def events (xs : List (Transition State Act)) : List (Event 32 TaskletAddr) := xs.filterMap event

/-- The queues seen from outside. -/
def view (ph : Phase) (q : Queues) : Queues :=
  match taken ph with
  | some (p, t) => Function.update q p (t :: q p)
  | none => q

/-- The level that `find_first_bit` has returned. -/
def level : Phase → Option (Fin 32)
  | .entry p => some p
  | .del p _ => some p
  | .storePrev p _ _ _ => some p
  | .storeNext p _ _ _ => some p
  | ph => (taken ph).map Prod.fst

/-- The tasklet that `tasklet_action` has in hand. -/
def inHand : Phase → Option TaskletAddr
  | .del _ t => some t
  | .storePrev _ t _ _ => some t
  | .storeNext _ t _ _ => some t
  | .call t => some t
  | ph => (taken ph).map Prod.snd

/-- `tasklet_action` serves, and has not stopped. -/
structure Serving (s : State) (q : Queues) : Prop where
  inv : Inv s q
  least : ∀ p, level s.phase = some p → ∀ r < p, q r = []
  func : ∀ t, s.allocated t = true → (s.info t).func ≠ none
  hand : ∀ t, inHand s.phase = some t → s.allocated t = true
  running : s.phase ≠ .stopped

section

variable {s s' : State} {q : Queues} {t : TaskletAddr}

theorem Called.serving (h : Called s q) : Serving s q := by
  have hrings : Rings s.links q := by
    refine ⟨fun p _ => h.ring p, fun p hp => absurd trivial hp, fun p r t hp hr => Fin.ext ?_⟩
    rw [← ((h.mem_iff p t).mp hp).2, ← ((h.mem_iff r t).mp hr).2]
  refine ⟨⟨⟨s.links, hrings, ?_⟩, h.mem_iff, h.made, fun p => ?_, ?_⟩, ?_, h.func, ?_, ?_⟩
  · rw [h.phase]
    rfl
  · rw [h.marks, h.phase]
    simp [removedFrom]
  · rw [h.phase]
    trivial
  · rw [h.phase]
    intro _ hp
    cases hp
  · rw [h.phase]
    intro _ ht
    cases ht
  · rw [h.phase]
    intro hph
    cases hph

/-- `find_first_bit` returns the least level that is not empty. -/
theorem least_of_findFirstBit (h : Inv s q) {r : Fin 32} (hr : (r : ℕ) < findFirstBit [s.map] 32) : q r = [] := by
  have hclear := (findFirstBit_spec [s.map] 32).2.2 r hr
  rw [testBit_cons_lt _ _ r.isLt] at hclear
  by_contra hne
  rw [(h.marks r).mpr (.inl hne)] at hclear
  cases hclear

/-- The tasklet that has been taken is the one to be served. -/
theorem serve_taken {t : TaskletAddr} {p : Fin 32} (hlow : ∀ r < p, q r = []) :
    Lib.Service.step (Function.update q p (t :: q p)) (.serve p t) = some q := by
  have hhead : (Function.update q p (t :: q p) p).head? = some t := by rw [Function.update_self, List.head?_cons]
  have hleast : ∀ r < p, Function.update q p (t :: q p) r = [] := by
    intro r hr
    rw [Function.update_of_ne hr.ne]
    exact hlow r hr
  have hback : Function.update (Function.update q p (t :: q p)) p ((Function.update q p (t :: q p)) p).tail = q := by
    rw [Function.update_idem, Function.update_self, List.tail_cons, Function.update_eq_self]
  exact (if_pos ⟨hhead, hleast⟩).trans (congrArg some hback)

/-- Seen from outside, a step does nothing or is what it stands for. -/
def Follows (x : Transition State Act) (q q' : Queues) : Prop :=
  match event x with
  | none => q' = q
  | some e => Lib.Service.step q e = some q'

/-- **One access** of `tasklet_action`. -/
theorem Serving.access (h : Serving s q) (hs : taskletAction s = some s') :
    Serving s' (afterAccess s.phase q) ∧
      Follows ⟨s, .taskletAction, s'⟩ (view s.phase q) (view s'.phase (afterAccess s.phase q)) := by
  obtain ⟨u, hu, hinv⟩ := TaskletQueue.taskletAction_inv h.inv h.running
  obtain rfl : u = s' := Option.some.inj (hu.symm.trans hs)
  obtain ⟨hinfo, halloc⟩ := taskletAction_frame hs
  have hserving : (∀ p, level u.phase = some p → ∀ r < p, afterAccess s.phase q r = []) →
      (∀ t, inHand u.phase = some t → s.allocated t = true) → u.phase ≠ .stopped →
      Serving u (afterAccess s.phase q) := by
    intro hleast hhand hrun
    refine ⟨hinv, hleast, fun t ht => ?_, fun t ht => halloc ▸ hhand t ht, hrun⟩
    rw [hinfo]
    exact h.func t (halloc ▸ ht)
  have hleast := h.least
  have hhand := h.hand
  have hknows := h.inv.knows
  unfold taskletAction at hs
  unfold Follows event
  cases hph : s.phase with
  | test =>
    rw [hph] at hs hserving
    have hs := Option.some.inj hs
    by_cases hm : s.map = 0
    · rw [if_pos hm] at hs
      obtain rfl := hs
      rw [hph] at hserving
      refine ⟨hserving nofun nofun nofun, ?_⟩
      rw [hph]
      rfl
    · rw [if_neg hm] at hs
      obtain rfl := hs
      exact ⟨hserving nofun nofun nofun, rfl⟩
  | find =>
    rw [hph] at hs hserving
    obtain ⟨hlt, hs⟩ := Option.dite_none_right_eq_some.mp hs
    obtain rfl := Option.some.inj hs
    refine ⟨hserving (fun p hp r hr => ?_) nofun nofun, rfl⟩
    obtain rfl := Option.some.inj hp
    exact least_of_findFirstBit h.inv hr
  | entry p =>
    simp only [hph] at hs
    rw [hph] at hserving hleast
    split at hs
    · obtain rfl := Option.some.inj hs
      rename_i t hnext
      obtain ⟨rest, hq⟩ : ∃ rest, q p = t :: rest := by
        have hknows := hinv.knows
        rw [hph] at hknows
        exact hknows
      refine ⟨hserving hleast (fun u hu => ?_) nofun, rfl⟩
      obtain rfl := Option.some.inj hu
      have hmem : t ∈ q p := hq ▸ List.mem_cons_self
      exact h.inv.made t ((h.inv.mem_iff p t).mp hmem).1
    · cases hs
  | del p t =>
    rw [hph] at hs hserving hleast hhand
    obtain rfl := Option.some.inj hs
    exact ⟨hserving hleast hhand nofun, rfl⟩
  | storePrev p t prev next =>
    rw [hph] at hs hserving hleast hhand
    obtain rfl := Option.some.inj hs
    exact ⟨hserving hleast hhand nofun, rfl⟩
  | storeNext p t prev next =>
    rw [hph] at hs hserving hleast hhand hknows
    obtain rfl := Option.some.inj hs
    obtain ⟨-, rest, hq, -⟩ := hknows
    refine ⟨hserving (fun r hr r' hr' => ?_) hhand nofun, ?_⟩
    · obtain rfl := Option.some.inj hr
      exact (Function.update_of_ne hr'.ne _ _).trans (hleast p rfl r' hr')
    · -- seen from outside, the tasklet still waits
      show Function.update (Function.update q p (q p).tail) p (t :: Function.update q p (q p).tail p) = q
      rw [Function.update_idem, Function.update_self, hq, List.tail_cons, ← hq, Function.update_eq_self]
  | poisonNext p t =>
    rw [hph] at hs hserving hleast hhand
    obtain rfl := Option.some.inj hs
    exact ⟨hserving hleast hhand nofun, rfl⟩
  | poisonPrev p t =>
    rw [hph] at hs hserving hleast hhand
    obtain rfl := Option.some.inj hs
    exact ⟨hserving hleast hhand nofun, rfl⟩
  | isEmpty p t =>
    rw [hph] at hs hserving hleast hhand
    obtain rfl := Option.some.inj hs
    cases he : listEmpty (.head p) s.links with
    | true =>
      rw [he] at hserving
      exact ⟨hserving hleast hhand nofun, rfl⟩
    | false =>
      rw [he] at hserving
      exact ⟨hserving nofun hhand nofun, serve_taken (hleast p rfl)⟩
  | loadMap p t =>
    rw [hph] at hs hserving hleast hhand
    obtain rfl := Option.some.inj hs
    exact ⟨hserving hleast hhand nofun, rfl⟩
  | storeMap p t word =>
    rw [hph] at hs hserving hleast hhand
    obtain rfl := Option.some.inj hs
    exact ⟨hserving nofun hhand nofun, serve_taken (hleast p rfl)⟩
  | call t =>
    rw [hph] at hs hserving hhand
    obtain rfl := Option.some.inj hs
    have hfunc : (s.info t).func ≠ none := h.func t (hhand t rfl)
    simp only [if_neg hfunc] at hserving ⊢
    exact ⟨hserving nofun nofun nofun, rfl⟩
  | stopped => exact absurd hph h.running

/-- A function that is running schedules a tasklet. -/
theorem Serving.schedule {u : TaskletAddr} {task : Option TaskletAddr} (h : Serving s q) (hph : s.phase = .call u)
    (ha : ∀ t ∈ task, s.allocated t = true)
    (hp : ∀ t ∈ task, (s.info t).prio ≤ prioTaskletMinprio → s.pending t = false) :
    ∃ q', Serving (taskletSchedule task s).2 q' ∧
      Follows ⟨s, .taskletSchedule task, (taskletSchedule task s).2⟩ (view s.phase q)
        (view (taskletSchedule task s).2.phase q') := by
  cases task with
  | none => exact ⟨q, h, rfl⟩
  | some t =>
    by_cases hprio : prioTaskletMinprio < (s.info t).prio
    · have hsame : (taskletSchedule (some t) s).2 = s := by simp only [taskletSchedule, dif_pos hprio]
      have hnone : event ⟨s, .taskletSchedule (some t), s⟩ = none := dif_pos hprio
      rw [hsame]
      refine ⟨q, h, ?_⟩
      unfold Follows
      rw [hnone]
    · let r : Fin 32 := ⟨(s.info t).prio.toNat, toNat_lt_of_minprio hprio⟩
      have henqueue : (taskletSchedule (some t) s).2 = bitmapEnqueue t r s := by
        simp only [taskletSchedule, dif_neg hprio]
        rfl
      have hsome : event ⟨s, .taskletSchedule (some t), bitmapEnqueue t r s⟩ = some (.arrive r t) := dif_neg hprio
      have hnew : s.pending t = false := hp t rfl (BitVec.not_lt.mp hprio)
      have hundisturbed : Undisturbed s t := by
        refine ⟨hnew, ?_⟩
        rw [hph]
        trivial
      have hinv := h.inv.enqueue (r := r) rfl (ha t rfl) hundisturbed
      rw [henqueue]
      refine ⟨_, ⟨hinv, ?_, h.func, h.hand, h.running⟩, ?_⟩
      · show ∀ p, level s.phase = some p → _
        rw [hph]
        exact nofun
      · unfold Follows
        rw [hsome]
        show Lib.Service.step (view s.phase q) _ = some (view s.phase _)
        rw [hph]
        refine if_neg fun hmem => ?_
        obtain ⟨p, hmem⟩ := mem_flat.mp hmem
        exact h.inv.notMem hnew p hmem

/-- **Step lemma.** -/
theorem Serving.step {a : Act} (h : Serving s q) (hf : ByFunctions s a) (he : Tasklet.step s a = some s') :
    ∃ q', Serving s' q' ∧ Follows ⟨s, a, s'⟩ (view s.phase q) (view s'.phase q') := by
  cases a with
  | taskletInit t prio func =>
    obtain ⟨⟨u, hph⟩, hfunc⟩ := hf
    obtain ⟨ht, rfl⟩ := Option.ite_none_left_eq_some.mp he |>.imp_right Option.some.inj
    refine ⟨q, ⟨h.inv.init (by simpa using ht), h.least, fun v hv => ?_, fun v hv => ?_, h.running⟩, rfl⟩
    · show (Function.update s.info t ⟨prio, func⟩ v).func ≠ none
      have hv : Function.update s.allocated t true v = true := hv
      by_cases hvt : v = t
      · rw [hvt, Function.update_self]
        exact hfunc
      · rw [Function.update_of_ne hvt] at hv ⊢
        exact h.func v hv
    · show Function.update s.allocated t true v = true
      by_cases hvt : v = t
      · rw [hvt, Function.update_self]
      · rw [Function.update_of_ne hvt]
        exact h.hand v hv
  | taskletSchedule task =>
    obtain ⟨⟨u, hph⟩, hp⟩ := hf
    obtain ⟨ha, rfl⟩ := Option.ite_none_right_eq_some.mp he |>.imp_right Option.some.inj
    exact h.schedule hph ha hp
  | taskletAction => exact ⟨_, h.access he⟩

/-- **Run lemma.** A run of `tasklet_action` is a run of the server. -/
theorem Serving.run {as : List Act} (h : Serving s q)
    (hf : ∀ x ∈ trace Tasklet.step s as, ByFunctions x.pre x.act) (hr : Lib.Run.run Tasklet.step s as = some s') :
    ∃ q', Serving s' q' ∧
      Lib.Run.run Lib.Service.step (view s.phase q) (events (trace Tasklet.step s as)) = some (view s'.phase q') := by
  induction as generalizing s q with
  | nil =>
    cases hr
    exact ⟨q, h, rfl⟩
  | cons a as ih =>
    obtain ⟨u, hu, hr⟩ := run_cons_some hr
    rw [trace_cons_some hu] at hf ⊢
    obtain ⟨ha, hf⟩ := List.forall_mem_cons.mp hf
    obtain ⟨q₁, h₁, hfollows⟩ := h.step ha hu
    obtain ⟨q', h', hrun⟩ := ih h₁ hf hr
    refine ⟨q', h', ?_⟩
    unfold Follows at hfollows
    cases he : event ⟨s, a, u⟩ with
    | none =>
      rw [he] at hfollows
      rw [events, List.filterMap_cons_none he, ← hfollows]
      exact hrun
    | some e =>
      rw [he] at hfollows
      rw [events, List.filterMap_cons_some he, run_cons, hfollows]
      exact hrun

/-! ## Progress -/

/-- `tasklet_action` returns 0. -/
def Returns (s : State) : Prop := s.phase = .test ∧ s.map = 0

/-- The accesses to the next service, at most. -/
def untilServe : Phase → ℕ
  | .call _ => 12
  | .test => 11
  | .find => 10
  | .entry _ => 9
  | .del .. => 8
  | .storePrev .. => 7
  | .storeNext .. => 6
  | .poisonNext .. => 5
  | .poisonPrev .. => 4
  | .isEmpty .. => 3
  | .loadMap .. => 2
  | .storeMap .. => 1
  | .stopped => 0

theorem untilServe_pos {ph : Phase} (h : ph ≠ .stopped) : 0 < untilServe ph := by
  cases ph with
  | stopped => exact absurd rfl h
  | _ => simp [untilServe]

theorem untilServe_le (ph : Phase) : untilServe ph ≤ 12 := by
  cases ph <;> simp [untilServe]

/-- An access is a service or brings the next one nearer. -/
theorem taskletAction_nearer (hs : taskletAction s = some s') (hr : ¬ Returns s) :
    (∃ p t, event ⟨s, .taskletAction, s'⟩ = some (.serve p t)) ∨
      event ⟨s, .taskletAction, s'⟩ = none ∧ untilServe s'.phase < untilServe s.phase := by
  unfold taskletAction at hs
  unfold event
  cases hph : s.phase with
  | test =>
    rw [hph] at hs
    have hm : s.map ≠ 0 := fun hm => hr ⟨hph, hm⟩
    rw [if_neg hm] at hs
    obtain rfl := Option.some.inj hs
    exact .inr ⟨rfl, by simp [untilServe]⟩
  | find =>
    rw [hph] at hs
    obtain ⟨hlt, hs⟩ := Option.dite_none_right_eq_some.mp hs
    obtain rfl := Option.some.inj hs
    exact .inr ⟨rfl, by simp [untilServe]⟩
  | entry p =>
    simp only [hph] at hs
    split at hs
    · obtain rfl := Option.some.inj hs
      exact .inr ⟨rfl, by simp [untilServe]⟩
    · cases hs
  | isEmpty p t =>
    rw [hph] at hs
    obtain rfl := Option.some.inj hs
    cases listEmpty (.head p) s.links with
    | true => exact .inr ⟨rfl, by simp [untilServe]⟩
    | false => exact .inl ⟨p, t, rfl⟩
  | storeMap p t word =>
    rw [hph] at hs
    obtain rfl := Option.some.inj hs
    exact .inl ⟨p, t, rfl⟩
  | call t =>
    rw [hph] at hs
    obtain rfl := Option.some.inj hs
    refine .inr ⟨rfl, ?_⟩
    dsimp only
    split <;> simp [untilServe]
  | stopped =>
    rw [hph] at hs
    cases hs
  | _ =>
    rw [hph] at hs
    obtain rfl := Option.some.inj hs
    exact .inr ⟨rfl, by simp [untilServe]⟩

theorem Serving.view_of_returns (h : Serving s q) (hr : Returns s) (p : Fin 32) : view s.phase q p = [] := by
  obtain ⟨hph, hmap⟩ := hr
  rw [hph]
  by_contra hne
  have hbit := (h.inv.marks p).mpr (.inl hne)
  rw [hmap] at hbit
  simp at hbit

/-- Something waits, seen from outside, while a bit is set. -/
theorem Serving.waits_of_map (h : Serving s q) (hm : s.map ≠ 0) : ∃ p, view s.phase q p ≠ [] := by
  cases ht : taken s.phase with
  | some x =>
    refine ⟨x.1, ?_⟩
    unfold view
    rw [ht]
    simp
  | none =>
    have hrem : removedFrom s.phase = none := by
      cases hph : s.phase <;> rw [hph] at ht <;> first | rfl | cases ht
    obtain ⟨p, hp⟩ := TaskletQueue.exists_ne_nil h.inv hrem hm
    refine ⟨p, ?_⟩
    unfold view
    rw [ht]
    exact hp

/-- Where nothing waits, `tasklet_action` is at its test or has just called a function. -/
theorem Serving.phase_of_empty (h : Serving s q) (hq : ∀ p, view s.phase q p = []) :
    s.map = 0 ∧ (s.phase = .test ∨ ∃ t, s.phase = .call t) := by
  have hmap : s.map = 0 := by
    by_contra hm
    obtain ⟨p, hp⟩ := h.waits_of_map hm
    exact hp (hq p)
  refine ⟨hmap, ?_⟩
  have hknow := h.inv.knows
  have hrun := h.running
  cases hph : s.phase <;> rw [hph] at hq hknow hrun
  case test => exact .inl rfl
  case call t => exact .inr ⟨t, rfl⟩
  case find =>
    obtain ⟨p, hp⟩ := hknow
    exact absurd (hq p) hp
  case entry p => exact absurd (hq p) hknow
  case del p t =>
    obtain ⟨rest, hp⟩ := hknow
    exact absurd (hp.symm.trans (hq p)) (List.cons_ne_nil _ _)
  case storePrev p t prev next =>
    obtain ⟨-, rest, hp, -⟩ := hknow
    exact absurd (hp.symm.trans (hq p)) (List.cons_ne_nil _ _)
  case storeNext p t prev next =>
    obtain ⟨-, rest, hp, -⟩ := hknow
    exact absurd (hp.symm.trans (hq p)) (List.cons_ne_nil _ _)
  case stopped => exact absurd rfl hrun
  -- the tasklet has left its queue and waits all the same
  case storeMap p t word => exact absurd (hq p) (by simp [view, taken])
  all_goals
    rename_i p t
    exact absurd (hq p) (by simp [view, taken])

theorem byFunctions_replicate (n : ℕ) (s : State) :
    ∀ x ∈ trace Tasklet.step s (.replicate n .taskletAction), ByFunctions x.pre x.act := by
  intro x hx
  rw [List.eq_of_mem_replicate (act_mem_of_mem_trace hx)]
  trivial

/-- **Progress.** Where a tasklet waits, the next service comes within twelve accesses. -/
theorem Serving.serves (h : Serving s q) (hq : ∃ p, view s.phase q p ≠ []) :
    ∃ n ≤ untilServe s.phase, ∃ u p t, Lib.Run.run Tasklet.step s (.replicate n .taskletAction) = some u ∧
      events (trace Tasklet.step s (.replicate n .taskletAction)) = [.serve p t] := by
  induction hk : untilServe s.phase using Nat.strong_induction_on generalizing s q with
  | _ k ih =>
    obtain ⟨u, hu, -⟩ := TaskletQueue.taskletAction_inv h.inv h.running
    obtain ⟨h', hfollows⟩ := h.access hu
    have hstep : Tasklet.step s .taskletAction = some u := hu
    have hnot : ¬ Returns s := fun hr => by
      obtain ⟨p, hp⟩ := hq
      exact hp (h.view_of_returns hr p)
    rcases taskletAction_nearer hu hnot with ⟨p, t, he⟩ | ⟨he, hlt⟩
    · refine ⟨1, hk ▸ untilServe_pos h.running, u, p, t, ?_, ?_⟩
      · rw [List.replicate_one, run_cons, hstep]
        rfl
      · rw [List.replicate_one, trace_cons_some hstep]
        exact List.filterMap_cons_some he
    · unfold Follows at hfollows
      rw [he] at hfollows
      obtain ⟨n, hn, v, p, t, hv, hev⟩ := ih (untilServe u.phase) (hk ▸ hlt) h' (hfollows ▸ hq) rfl
      refine ⟨n + 1, by omega, v, p, t, ?_, ?_⟩
      · rw [List.replicate_succ, run_cons, hstep]
        exact hv
      · rw [List.replicate_succ, trace_cons_some hstep]
        exact (List.filterMap_cons_none he).trans hev

/-- **Return.** When the functions schedule nothing more, `tasklet_action` serves what waits
and returns 0. -/
theorem Serving.returns (h : Serving s q) : ∃ n ≤ 12 * (flat (view s.phase q)).length + 1, ∃ u,
    Lib.Run.run Tasklet.step s (.replicate n .taskletAction) = some u ∧ Returns u := by
  induction hk : (flat (view s.phase q)).length generalizing s q with
  | zero =>
    have hempty := flat_eq_nil.mp (List.length_eq_zero_iff.mp hk)
    obtain ⟨hmap, hph | ⟨t, hph⟩⟩ := h.phase_of_empty hempty
    · exact ⟨0, Nat.zero_le _, s, rfl, hph, hmap⟩
    · have hfunc : (s.info t).func ≠ none := h.func t (h.hand t (by rw [hph]; rfl))
      refine ⟨1, le_refl _, { s with phase := .test }, ?_, rfl, hmap⟩
      rw [List.replicate_one, run_cons]
      simp only [Tasklet.step, taskletAction, hph, if_neg hfunc]
      rfl
  | succ k ih =>
    have hwaits : ∃ p, view s.phase q p ≠ [] := by
      by_contra hnone
      rw [flat_eq_nil.mpr fun p => not_not.mp fun hp => hnone ⟨p, hp⟩] at hk
      cases hk
    obtain ⟨n, hn, u, p, t, hu, hev⟩ := h.serves hwaits
    have hle := untilServe_le s.phase
    obtain ⟨q', h', hserve⟩ := h.run (byFunctions_replicate n s) hu
    rw [hev, run_cons] at hserve
    obtain ⟨q₁, hq₁, hlast⟩ := Option.bind_eq_some_iff.mp hserve
    obtain rfl := Option.some.inj hlast
    obtain ⟨⟨hhead, -⟩, hq₁⟩ := Option.ite_none_right_eq_some.mp hq₁ |>.imp_right Option.some.inj
    have hlength : (flat (view u.phase q')).length = k := by
      have hperm := (flat_tail hhead).length_eq
      rw [hq₁, List.length_cons, hk] at hperm
      exact (Nat.succ.inj hperm).symm
    obtain ⟨m, hm, v, hv, hret⟩ := ih h' hlength
    refine ⟨n + m, by omega, v, ?_, hret⟩
    rw [List.replicate_add, run_append, hu]
    exact hv

/-- **The order of the tasklets.** Whatever the queues hold and the functions schedule,
`tasklet_action` goes on, and what it serves is a run of the server by level: each time the
first tasklet of the least level that is not empty. While a tasklet waits or a bit is set the
next service comes within twelve accesses; when the functions schedule nothing more it returns
0. When it returns 0 the queues are empty and the word is zero, and each tasklet has been
served once for each time that it was scheduled (the first time, for those that were in a
queue when it was called). -/
theorem runs_in_order {as : List Act} (h : Called s q) (hf : ∀ x ∈ trace step s as, ByFunctions x.pre x.act)
    (hr : run step s as = some s') :
    (taskletAction s').isSome ∧ s'.phase ≠ .stopped ∧
    ∃ q', run Lib.Service.step q (events (trace step s as)) = some q' ∧
      (s'.phase = .test ∧ s'.map = 0 → (∀ p, Ring s'.links (.head p) []) ∧ (∀ p, q' p = []) ∧
        ∀ t, (events (trace step s as)).countP (Event.serves t) =
          (events (trace step s as)).countP (Event.arrives t) + (flat q).count t) ∧
      (s'.map ≠ 0 ∨ (∃ p, q' p ≠ []) → ∃ n ≤ 12, ∃ u p t, run step s' (.replicate n .taskletAction) = some u ∧
        events (trace step s' (.replicate n .taskletAction)) = [.serve p t]) ∧
      ∃ n ≤ 12 * (flat q').length + 1, ∃ u, run step s' (.replicate n .taskletAction) = some u ∧
        u.phase = .test ∧ u.map = 0 := by
  have hview : view s.phase q = q := by
    rw [h.phase]
    rfl
  obtain ⟨q', h', hrun⟩ := h.serving.run hf hr
  rw [hview] at hrun
  obtain ⟨u, hu, -⟩ := TaskletQueue.taskletAction_inv h'.inv h'.running
  refine ⟨by rw [hu]; rfl, h'.running, _, hrun, fun hend => ?_, fun hwaits => ?_, h'.returns⟩
  · have hempty := h'.view_of_returns hend
    refine ⟨fun p => ?_, hempty, fun t => ?_⟩
    · obtain ⟨l, hl, hlinks⟩ := h'.inv.rings
      rw [hend.1] at hlinks hempty
      have hlinks : s'.links = l := hlinks
      have hring := hl.ring p trivial
      rw [show q' p = [] from hempty p, ← hlinks] at hring
      exact hring
    · have hcount := count_serves t hrun
      rw [flat_eq_nil.mpr hempty] at hcount
      exact hcount
  · obtain ⟨n, hn, v, p, t, hv, hev⟩ := h'.serves (hwaits.elim h'.waits_of_map id)
    exact ⟨n, hn.trans (untilServe_le _), v, p, t, hv, hev⟩

/-- Between two calls of `tasklet_action`, in the runs that keep the queues. -/
theorem called_of_inv (h : Inv s q) (hph : s.phase = .test)
    (hf : ∀ t, s.allocated t = true → (s.info t).func ≠ none) : Called s q := by
  obtain ⟨l, hl, hlinks⟩ := h.rings
  rw [hph] at hlinks
  refine ⟨hph, fun p => ?_, fun p => ?_, h.mem_iff, h.made, hf⟩
  · have hlinks : s.links = l := hlinks
    rw [hlinks]
    exact hl.ring p trivial
  · rw [h.marks, hph]
    simp [removedFrom]

end

/-! ## Concrete runs -/

/-- The tasklet of the tick is scheduled. -/
def ticked : State :=
  (taskletSchedule (some 0) (taskletInit 0 0 (some 1) (init TaskletQueue.memory fun _ => ⟨0, none⟩))).2

theorem called_ticked : Called ticked (Function.update (fun _ => []) 0 [0]) := by
  have hinit := TaskletQueue.inv_init TaskletQueue.memory fun _ => ⟨0, none⟩
  have hmade : Inv (taskletInit 0 0 (some 1) (init TaskletQueue.memory fun _ => ⟨0, none⟩)) fun _ => [] :=
    hinit.init rfl
  refine called_of_inv (hmade.enqueue (r := 0) rfl rfl ⟨rfl, trivial⟩) rfl fun t ht => ?_
  have ht : Function.update (fun _ => false) 0 true t = true := ht
  by_cases h0 : t = 0
  · subst h0
    exact nofun
  · rw [Function.update_of_ne h0] at ht
    cases ht

/-- Its function schedules it again, once. -/
def again : List Act :=
  .replicate 11 .taskletAction ++ .taskletSchedule (some 0) :: .replicate 13 .taskletAction

theorem runs_in_order_again : ∃ s', run Tasklet.step ticked again = some s' ∧ s'.phase = .test ∧ s'.map = 0 ∧
    (∀ p, Ring s'.links (.head p) []) ∧ (events (trace Tasklet.step ticked again)).countP (Event.serves 0) = 2 := by
  have hf : ∀ x ∈ trace Tasklet.step ticked again, ByFunctions x.pre x.act := by
    obtain ⟨u, hu, hph, hp⟩ : ∃ u, run Tasklet.step ticked (.replicate 11 .taskletAction) = some u ∧
      u.phase = .call 0 ∧
        u.pending 0 = false := ⟨_, rfl, rfl, rfl⟩
    intro x hx
    rw [again, trace_append hu] at hx
    rcases List.mem_append.mp hx with hx | hx
    · exact byFunctions_replicate 11 ticked x hx
    · have hschedule : ByFunctions u (.taskletSchedule (some 0)) := by
        refine ⟨⟨0, hph⟩, fun t ht _ => ?_⟩
        obtain rfl := Option.mem_some.mp ht
        exact hp
      exact forall_trace_of_step hschedule (fun v _ => byFunctions_replicate 13 v) x hx
  obtain ⟨s', hs, hph, hmap⟩ : ∃ s', run Tasklet.step ticked again = some s' ∧ s'.phase = .test ∧ s'.map = 0 :=
    ⟨_, rfl, rfl, rfl⟩
  obtain ⟨-, -, q', -, hend, -⟩ := runs_in_order called_ticked hf hs
  obtain ⟨hring, -, hcount⟩ := hend ⟨hph, hmap⟩
  exact ⟨s', hs, hph, hmap, hring, (hcount 0).trans rfl⟩

end PikoRT.Softirq.TaskletOrder

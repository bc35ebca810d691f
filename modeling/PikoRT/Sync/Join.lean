import PikoRT.Sync.Wake

/-! # Join, exit and detach

`thread_join` suspends the caller until its target exits and then reads the value
that the target left in `ti_retval`. A target that is detached leaves nothing and
frees its page. `thread_exit` decides between the two by `ti_detached` alone: a
thread that was detached after another one had begun to join it exits without a
word to the joining thread.

Nothing takes a thread off the list that `find_thread_by_id` searches, so the exit of a
detached thread also leaves a free page there (`TaskList`). The runs here are those up to
the first such exit. -/
namespace PikoRT.Sync.Join
open PikoRT.Kernel.Bitmap PikoRT.Lib.Run
open PikoRT.Sched.Model hiding step
open PikoRT.Sched.RunQueue PikoRT.Sync.Effect PikoRT.Sync.Place
open PikoRT.Sync.Kernel hiding step
open PikoRT.Sync.Wake (IsReady isReady_elect)

/-- A `void *`. -/
abbrev Val := BitVec 32

/-- The kernel with `ti_retval`, and for each thread the value it has passed to
`thread_exit`. -/
structure Threaded where
  kernel : System
  tiRetval : Thread → Val
  passed : Thread → Option Val

inductive Act where
  | entry (e : Entry)
  | exit (retval : Val)
  /-- Somebody else uses a free page. -/
  | scribble (t : Thread) (v : Val)
  deriving DecidableEq, Repr

namespace Threaded

def current (s : Threaded) : Thread := s.kernel.current

/-- `thread_exit(retval)`. -/
def exit (retval : Val) (s : Threaded) : Option Threaded :=
  (Kernel.step s.kernel (.svc .exit)).map fun k =>
    { kernel := k
      tiRetval := if s.kernel.tiDetached s.current = false then
          Function.update s.tiRetval s.current retval
        else s.tiRetval
      passed := Function.update s.passed s.current (some retval) }

end Threaded

/-- A new thread has passed nothing yet. -/
def entryPassed (passed : Thread → Option Val) : Entry → Thread → Option Val
  | .svc (.create (some t)) => Function.update passed t none
  | _ => passed

def step (s : Threaded) : Act → Option Threaded
  | .entry e =>
    if e = .svc .exit then none
    else (Kernel.step s.kernel e).map fun k => { s with kernel := k, passed := entryPassed s.passed e }
  | .exit retval => s.exit retval
  | .scribble t v =>
    if s.kernel.life t = .free then some { s with tiRetval := Function.update s.tiRetval t v } else none

/-- `*retval` of a `thread_join` that finds its target joinable. -/
def callReturn (s : Threaded) : Syscall → Option (Thread × Val)
  | .join other =>
    if findThread other s.kernel = true ∧ s.kernel.tiDetached other = false ∧
        s.kernel.tiJoinable other = true then
      some (other, s.tiRetval other)
    else none
  | _ => none

/-- `*retval` of a `thread_join` that had to wait. -/
def resumeReturn (s : Threaded) : Option (Thread × Val) :=
  match s.kernel.kont s.current with
  | .joinRet other => some (other, s.tiRetval other)
  | _ => none

def entryReturn (s : Threaded) : Entry → Option (Thread × Val)
  | .svc c => callReturn s c
  | .resume => resumeReturn s
  | _ => none

/-- The thread and the value with which a `thread_join` returns 0. -/
def joinReturn (s : Threaded) : Act → Option (Thread × Val)
  | .entry e => entryReturn s e
  | _ => none

def init (b : Threads) (val : Ptr → ℤ) (retval : Thread → Val) : Threaded :=
  ⟨start b val, retval, fun _ => none⟩

/-! ## The protocol -/

/-- At most one thread is suspended in a join of another. -/
def OneJoiner (s : Threaded) : Prop :=
  ∀ i j o, s.kernel.kont i = .joinRet o → s.kernel.kont j = .joinRet o → i = j

/-- The protocol in one step: a join returns what its target passed to
`thread_exit`, and an exit makes the thread that joins ready. -/
structure Follows (s : Threaded) (a : Act) (s' : Threaded) : Prop where
  one : OneJoiner s'
  returns : ∀ o v, joinReturn s a = some (o, v) → s.passed o = some v
  wakes : ∀ v, a = .exit v → ∀ j, s.kernel.kont j = .joinRet s.current → IsReady s'.kernel j

/-- A thread that is detached exits with nobody in a join of it. -/
def JoinedKept (s : Threaded) : Act → Prop
  | .exit _ => s.kernel.tiDetached s.current = true → s.kernel.tiJoining s.current = none
  | _ => True

/-- The thread that exits keeps its page, so that the list of threads stays as it is. -/
def KeepsPage (s : Threaded) : Act → Prop
  | .exit _ => s.kernel.tiDetached s.current = false
  | _ => True

theorem KeepsPage.joinedKept {s : Threaded} {a : Act} (h : KeepsPage s a) : JoinedKept s a := by
  cases a with
  | exit v =>
    intro hd
    rw [show s.kernel.tiDetached s.current = false from h] at hd
    cases hd
  | entry e => trivial
  | scribble t v => trivial

/-- The entries keep every thread in one place. -/
def Allowed (s : Threaded) : Act → Prop
  | .entry e => Safe s.kernel e
  | _ => True

structure Inv (s : Threaded) : Prop where
  placed : Placed s.kernel
  joining : ∀ j o, s.kernel.kont j = .joinRet o →
    s.kernel.tiJoining o = some j ∧ s.kernel.life o ≠ .free
  joinable : ∀ o, s.kernel.tiJoinable o = true → s.kernel.life o = .exited
  passed : ∀ o, s.kernel.life o = .exited → s.passed o = some (s.tiRetval o)

theorem Inv.oneJoiner {s : Threaded} (h : Inv s) : OneJoiner s := by
  intro i j o hi hj
  exact Option.some.inj ((h.joining i o hi).1.symm.trans (h.joining j o hj).1)

/-! ## The entries that have nothing to do with a join -/

/-- The flags of `thread_join` are the same and nobody begins to join. -/
structure SameJoins (k k' : System) : Prop where
  life : k'.life = k.life
  joining : k'.tiJoining = k.tiJoining
  joinable : k'.tiJoinable = k.tiJoinable
  kont : ∀ j o, k'.kont j = .joinRet o → k.kont j = .joinRet o

section

variable {k k' : System}

theorem SameJoins.of_eq (hl : k'.life = k.life) (hj : k'.tiJoining = k.tiJoining)
    (hb : k'.tiJoinable = k.tiJoinable) (hk : k'.kont = k.kont) : SameJoins k k' :=
  ⟨hl, hj, hb, fun _ _ h => hk ▸ h⟩

theorem SameJoins.setKont {p : System} {t : Thread} {x : Kont} (h : SameJoins k p)
    (hx : ∀ o, x ≠ .joinRet o) : SameJoins k (setKont t x p) := by
  refine ⟨h.life, h.joining, h.joinable, fun j o hj => ?_⟩
  by_cases hjt : j = t
  · rw [hjt] at hj
    exact absurd ((Function.update_self ..).symm.trans hj) (hx o)
  · exact h.kont j o ((setKont_kont_of_ne x p hjt).symm.trans hj)

theorem SameJoins.moves {p : System} (h : SameJoins k p) (hm : Moves p k') : SameJoins k k' := by
  obtain ⟨s, rfl⟩ := hm
  exact ⟨h.life, h.joining, h.joinable, h.kont⟩

theorem SameJoins.locks {p : System} {m : Ptr} (h : SameJoins k p) (hl : Locks m p k') :
    SameJoins k k' := by
  cases hl with
  | _ => exact ⟨h.life, h.joining, h.joinable, h.kont⟩

theorem SameJoins.unlocks {p : System} {m : Ptr} (h : SameJoins k p) (hl : Unlocks m p k') :
    SameJoins k k' := by
  cases hl with
  | _ => exact ⟨h.life, h.joining, h.joinable, h.kont⟩

theorem SameJoins.reads (hr : Reads k k') : SameJoins k k' := by
  have hself : SameJoins k k := .of_eq rfl rfl rfl rfl
  cases hr with
  | waits count s => exact (hself.setKont (by simp)).moves ⟨s, rfl⟩
  | returns => exact SameJoins.setKont (p := stm32Getc k) (.of_eq rfl rfl rfl rfl) (by simp)

/-- The entries but exit, join and the creation of a thread. -/
def Apart : Entry → Prop
  | .svc .exit => False
  | .svc (.join _) => False
  | .svc (.create (some _)) => False
  | _ => True

theorem sameJoins_of_calls {c : Syscall} (ha : Apart (.svc c)) (h : Calls k c k') : SameJoins k k' := by
  have hself : SameJoins k k := .of_eq rfl rfl rfl rfl
  cases h with
  | creates t s => exact ha.elim
  | exitsFreed s hd => exact ha.elim
  | exitsJoined j s hd hj => exact ha.elim
  | exitsJoinable s hd hj => exact ha.elim
  | joinFails other => exact ha.elim
  | joins other s hfind hnone => exact ha.elim
  | locks m h => exact hself.locks h
  | unlocks m h => exact hself.unlocks h
  | condWaits c m h =>
    have hblock : SameJoins k { block c k with condHead := k.condHead ++ [k.current] } :=
      .of_eq rfl rfl rfl rfl
    exact (hblock.setKont (t := k.current) (x := .condLock m) (by simp)).unlocks h
  | sleeps alloc msec s =>
    have hsleep : SameJoins k { k with timers := k.current :: k.timers } := .of_eq rfl rfl rfl rfl
    exact (hsleep.setKont (t := k.current) (x := .timerFree) (by simp)).moves ⟨s, rfl⟩
  | reads count h => exact .reads h
  | _ => exact .of_eq rfl rfl rfl rfl

theorem sameJoins_step {e : Entry} (ha : Apart e) (he : Kernel.step k e = some k') : SameJoins k k' := by
  have hself : SameJoins k k := .of_eq rfl rfl rfl rfl
  cases step_enters he with
  | calls c h => exact sameJoins_of_calls ha h
  | condLocks m hk h => exact (hself.setKont (by simp)).locks h
  | reads h => exact .reads h
  | returns => exact hself.setKont (by simp)
  | _ => exact .of_eq rfl rfl rfl rfl

end

/-! ## Every step -/

section

variable {s : Threaded} {k : System}

theorem Inv.same {p : Thread → Option Val} (h : Inv s) (hk : SameJoins s.kernel k) (hp : Placed k)
    (hpassed : p = s.passed) : Inv { s with kernel := k, passed := p } where
  placed := hp
  joining := fun j o hj => by
    show k.tiJoining o = some j ∧ k.life o ≠ .free
    rw [hk.joining, hk.life]
    exact h.joining j o (hk.kont j o hj)
  joinable := fun o ho => by
    show k.life o = .exited
    rw [hk.life]
    exact h.joinable o (hk.joinable ▸ ho)
  passed := fun o ho => by
    show p o = some (s.tiRetval o)
    rw [hpassed]
    exact h.passed o (hk.life ▸ ho)

/-- A new thread is on a free page, and nobody joins one of these. -/
theorem Inv.create {t : Thread} (h : Inv s) (hfree : s.kernel.life t = .free) :
    Inv { s with
      kernel := enqueue t (threadCreate t s.kernel)
      passed := Function.update s.passed t none } := by
  have hother : ∀ o, s.kernel.life o ≠ .free → o ≠ t := by
    rintro o ho rfl
    exact ho hfree
  refine ⟨h.placed.sysPthreadCreate hfree, fun j o hj => ?_, fun o ho => ?_, fun o ho => ?_⟩
  · obtain ⟨hjoin, hlife⟩ := h.joining j o hj
    refine ⟨(Function.update_of_ne (hother o hlife) _ _).trans hjoin, ?_⟩
    exact (life_threadCreate_of_ne (hother o hlife)).symm ▸ hlife
  · by_cases hot : o = t
    · subst hot
      have ho' : Function.update s.kernel.tiJoinable o false o = true := ho
      simp at ho'
    · have ho' : s.kernel.tiJoinable o = true := (Function.update_of_ne hot _ _).symm.trans ho
      exact (life_threadCreate_of_ne hot).trans (h.joinable o ho')
  · by_cases hot : o = t
    · subst hot
      have ho' : Function.update s.kernel.life o .live o = .exited := ho
      simp at ho'
    · have ho' : s.kernel.life o = .exited := (life_threadCreate_of_ne hot).symm.trans ho
      exact (Function.update_of_ne hot _ _).trans (h.passed o ho')

theorem Inv.join {other : Thread} (h : Inv s) (hp : Placed k)
    (he : sysPthreadJoin other s.kernel = some k) : Inv { s with kernel := k } := by
  cases sysPthreadJoin_calls he with
  | joinFails => exact ⟨h.placed, h.joining, h.joinable, h.passed⟩
  | joins _ t hfind hnone =>
    have hlife : s.kernel.life other ≠ .free := (of_decide_eq_true hfind).1
    refine ⟨hp, fun j o hj => ?_, h.joinable, h.passed⟩
    show Function.update s.kernel.tiJoining other (some s.kernel.current) o = some j ∧ _
    have hj' : Function.update s.kernel.kont s.kernel.current (.joinRet other) j = .joinRet o := hj
    by_cases hjc : j = s.kernel.current
    · subst hjc
      rw [Function.update_self] at hj'
      cases hj'
      exact ⟨Function.update_self .., hlife⟩
    · rw [Function.update_of_ne hjc] at hj'
      obtain ⟨hjoin, ho⟩ := h.joining j o hj'
      have hoo : o ≠ other := by
        rintro rfl
        rw [hnone] at hjoin
        cases hjoin
      exact ⟨(Function.update_of_ne hoo _ _).trans hjoin, ho⟩

/-! ### Exit -/

theorem step_exit {k' : System} (he : Kernel.step k (.svc .exit) = some k') :
    k.current ≠ k.idle ∧ elect .restoreOnly (exitThread k) = some k' := by
  simp only [Kernel.step, Option.ite_none_right_eq_some] at he
  exact ⟨he.1.2.1, he.2⟩

theorem exitThread_kept (hd : k.tiDetached k.current = false) :
    (exitThread k).life = Function.update k.life k.current .exited ∧
      (exitThread k).tiJoining = k.tiJoining ∧ (exitThread k).kont = k.kont ∧
      ∀ o, o ≠ k.current → (exitThread k).tiJoinable o = k.tiJoinable o := by
  unfold exitThread
  rw [if_pos hd]
  cases k.tiJoining k.current with
  | some j => exact ⟨rfl, rfl, rfl, fun _ _ => rfl⟩
  | none => exact ⟨rfl, rfl, rfl, fun o ho => Function.update_of_ne ho _ _⟩

theorem exitThread_freed (hd : k.tiDetached k.current = true) :
    exitThread k = { k with life := Function.update k.life k.current .free } :=
  if_neg (by rw [hd]; simp)

theorem Inv.exit_kept {v : Val} {s' : Threaded} (h : Inv s) (hd : s.kernel.tiDetached s.current = false)
    (he : s.exit v = some s') : Inv s' := by
  obtain ⟨k', hk, rfl⟩ := Option.map_eq_some_iff.mp he
  have hplaced := step_placed _ (.svc .exit) k' h.placed trivial hk
  have hframe : k'.life = Function.update s.kernel.life s.kernel.current .exited ∧
      k'.tiJoining = s.kernel.tiJoining ∧ k'.kont = s.kernel.kont ∧
      ∀ o, o ≠ s.kernel.current → k'.tiJoinable o = s.kernel.tiJoinable o := by
    obtain ⟨t, -, rfl⟩ := Option.map_eq_some_iff.mp (step_exit hk).2
    exact exitThread_kept hd
  obtain ⟨hlife, hjoining, hkont, hjoinable⟩ := hframe
  refine ⟨hplaced, fun j o hj => ?_, fun o ho => ?_, fun o ho => ?_⟩
  · show k'.tiJoining o = some j ∧ k'.life o ≠ .free
    obtain ⟨hjoin, hne⟩ := h.joining j o (hkont ▸ hj)
    refine ⟨hjoining ▸ hjoin, ?_⟩
    rw [hlife]
    by_cases hoc : o = s.kernel.current
    · rw [hoc, Function.update_self]
      decide
    · rw [Function.update_of_ne hoc]
      exact hne
  · show k'.life o = .exited
    rw [hlife]
    by_cases hoc : o = s.kernel.current
    · rw [hoc, Function.update_self]
    · rw [Function.update_of_ne hoc]
      exact h.joinable o (hjoinable o hoc ▸ ho)
  · show Function.update s.passed s.current (some v) o = some ((if s.kernel.tiDetached s.current = false
      then Function.update s.tiRetval s.current v else s.tiRetval) o)
    rw [if_pos hd]
    by_cases hoc : o = s.current
    · rw [hoc, Function.update_self, Function.update_self]
    · rw [Function.update_of_ne hoc, Function.update_of_ne hoc]
      have ho' : k'.life o = .exited := ho
      rw [hlife, Function.update_of_ne (show o ≠ s.kernel.current from hoc)] at ho'
      exact h.passed o ho'

theorem Inv.exit_freed {v : Val} {s' : Threaded} (h : Inv s) (hd : s.kernel.tiDetached s.current = true)
    (hj : s.kernel.tiJoining s.current = none) (he : s.exit v = some s') : Inv s' := by
  obtain ⟨k', hk, rfl⟩ := Option.map_eq_some_iff.mp he
  have hplaced := step_placed _ (.svc .exit) k' h.placed trivial hk
  have hd' : ¬ s.kernel.tiDetached s.kernel.current = false := by
    rw [show s.kernel.tiDetached s.kernel.current = true from hd]
    simp
  obtain ⟨t, -, rfl⟩ := Option.map_eq_some_iff.mp (step_exit hk).2
  rw [exitThread_freed hd] at hplaced ⊢
  have hcur : ∀ o, s.kernel.life o = .exited → o ≠ s.kernel.current := by
    rintro o ho rfl
    rw [h.placed.live] at ho
    cases ho
  refine ⟨hplaced, fun j o hjo => ?_, fun o ho => ?_, fun o ho => ?_⟩
  · obtain ⟨hjoin, hne⟩ := h.joining j o hjo
    have hoc : o ≠ s.kernel.current := by
      intro hoc
      rw [hoc, show s.kernel.tiJoining s.kernel.current = none from hj] at hjoin
      cases hjoin
    refine ⟨hjoin, ?_⟩
    show Function.update s.kernel.life s.kernel.current .free o ≠ .free
    rw [Function.update_of_ne hoc]
    exact hne
  · have hex := h.joinable o ho
    exact (Function.update_of_ne (hcur o hex) _ _).trans hex
  · have ho' : Function.update s.kernel.life s.kernel.current .free o = .exited := ho
    have hoc : o ≠ s.kernel.current := by
      rintro rfl
      rw [Function.update_self] at ho'
      cases ho'
    rw [Function.update_of_ne hoc] at ho'
    show Function.update s.passed s.kernel.current (some v) o =
      some ((if s.kernel.tiDetached s.kernel.current = false
        then Function.update s.tiRetval s.current v else s.tiRetval) o)
    rw [if_neg hd', Function.update_of_ne hoc]
    exact h.passed o ho'

/-- An exit of a thread that is not detached wakes the one that joins it. -/
theorem exit_wakes {k' : System} {j : Thread} (h : Placed k) (hd : k.tiDetached k.current = false)
    (hj : k.tiJoining k.current = some j) (he : Kernel.step k (.svc .exit) = some k') : IsReady k' j := by
  obtain ⟨hi, he⟩ := step_exit he
  have hexit : exitThread k =
      enqueue j { k with life := Function.update k.life k.current .exited } := by
    unfold exitThread
    rw [if_pos hd, hj]
  rw [hexit] at he
  obtain ⟨hnl, hni⟩ := h.off j (.inr (.inl ⟨_, hj, h.live⟩))
  have hlinked : Linked (schedEnqueue j k.sched) :=
    h.queues.schedEnqueue (fun hq => hnl (List.mem_append_left _ hq)) hni
  exact isReady_elect hlinked he ((queued_schedEnqueue j k.sched).mem_iff.mpr List.mem_cons_self)

/-- An exit of a detached thread leaves the one that joins it where it is. -/
theorem exit_leaves {k' : System} {j : Thread} (h : Placed k) (hd : k.tiDetached k.current = true)
    (hj : k.tiJoining k.current = some j) (he : Kernel.step k (.svc .exit) = some k') : ¬ IsReady k' j := by
  obtain ⟨-, he⟩ := step_exit he
  rw [exitThread_freed hd] at he
  obtain ⟨hnl, hni⟩ := h.off j (.inr (.inl ⟨_, hj, h.live⟩))
  have hnq : j ∉ queued k.sched := fun hq => hnl (List.mem_append_left _ hq)
  obtain ⟨t, -, rfl, -, hperm, hcur⟩ :=
    elect_linked (p := { k with life := Function.update k.life k.current .free }) h.queues he
  rintro (hq | hq)
  · rcases List.mem_append.mp (hperm.mem_iff.mp hq) with hb | hb
    · simp [putBack] at hb
    · exact hnq (List.mem_of_mem_erase hb)
  · rcases hcur with hc | hc
    · exact hni (hq.trans hc)
    · exact hnq (hq ▸ hc)

/-! ### One step -/

theorem Inv.entry {e : Entry} (h : Inv s) (hsafe : Safe s.kernel e) (hne : e ≠ .svc .exit)
    (he : Kernel.step s.kernel e = some k) : Inv { s with kernel := k, passed := entryPassed s.passed e } := by
  have hp := step_placed _ e k h.placed hsafe he
  have hsame : Apart e → entryPassed s.passed e = s.passed →
      Inv { s with kernel := k, passed := entryPassed s.passed e } :=
    fun ha hpassed => h.same (sameJoins_step ha he) hp hpassed
  cases e with
  | svc c =>
    cases c with
    | exit => exact absurd rfl hne
    | join other =>
      simp only [Kernel.step, Option.ite_none_right_eq_some] at he
      exact h.join hp he.2
    | create page =>
      cases page with
      | none => exact hsame trivial rfl
      | some t =>
        simp only [Kernel.step, Option.ite_none_right_eq_some] at he
        obtain ⟨⟨-, -, hpage⟩, he⟩ := he
        cases he
        exact h.create (of_decide_eq_true hpage)
    | _ => exact hsame trivial rfl
  | _ => exact hsame trivial rfl

theorem step_inv (s : Threaded) (a : Act) (s' : Threaded) (h : Inv s)
    (ha : Allowed s a ∧ JoinedKept s a) (he : step s a = some s') : Inv s' := by
  cases a with
  | entry e =>
    simp only [step, Option.ite_none_left_eq_some] at he
    obtain ⟨hne, he⟩ := he
    obtain ⟨k', hk, rfl⟩ := Option.map_eq_some_iff.mp he
    exact h.entry ha.1 hne hk
  | exit v =>
    cases hd : s.kernel.tiDetached s.current with
    | false => exact h.exit_kept hd he
    | true => exact h.exit_freed hd (ha.2 hd) he
  | scribble t v =>
    simp only [step, Option.ite_none_right_eq_some, Option.some.injEq] at he
    obtain ⟨hfree, rfl⟩ := he
    refine ⟨h.placed, h.joining, h.joinable, fun o ho => ?_⟩
    have hot : o ≠ t := by
      rintro rfl
      rw [show s.kernel.life o = .exited from ho] at hfree
      cases hfree
    show s.passed o = some (Function.update s.tiRetval t v o)
    rw [Function.update_of_ne hot]
    exact h.passed o ho

/-- The target of the join that the running thread is back from has exited. -/
theorem Inv.target_exited {o : Thread} (h : Inv s) (hk : s.kernel.kont s.current = .joinRet o) :
    s.kernel.life o = .exited := by
  obtain ⟨hjoin, hfree⟩ := h.joining _ o hk
  -- the running thread does not wait, so its target does not live
  have hdead : s.kernel.life o ≠ .live := fun hl => h.placed.awake (.inr (.inl ⟨o, hjoin, hl⟩))
  cases hl : s.kernel.life o with
  | free => exact absurd hl hfree
  | live => exact absurd hl hdead
  | exited => rfl

/-- A join reads what its target left there. -/
theorem Inv.callReturn {c : Syscall} {o : Thread} {v : Val} (h : Inv s)
    (hr : callReturn s c = some (o, v)) : s.passed o = some v := by
  cases c with
  | join other =>
    simp only [Join.callReturn, Option.ite_none_right_eq_some, Option.some.injEq, Prod.mk.injEq] at hr
    obtain ⟨⟨-, -, hjoinable⟩, rfl, rfl⟩ := hr
    exact h.passed _ (h.joinable _ hjoinable)
  | _ => cases hr

theorem Inv.resumeReturn {o : Thread} {v : Val} (h : Inv s) (hr : resumeReturn s = some (o, v)) :
    s.passed o = some v := by
  unfold Join.resumeReturn at hr
  split at hr
  · rename_i other hk
    obtain ⟨rfl, rfl⟩ := Prod.mk.inj (Option.some.inj hr)
    exact h.passed _ (h.target_exited hk)
  · cases hr

theorem Inv.returns {a : Act} {o : Thread} {v : Val} (h : Inv s) (hr : joinReturn s a = some (o, v)) :
    s.passed o = some v := by
  cases a with
  | exit w => cases hr
  | scribble t w => cases hr
  | entry e =>
    cases e with
    | svc c => exact h.callReturn hr
    | resume => exact h.resumeReturn hr
    | _ => cases hr

/-- **One step** follows the protocol exactly when it does not leave a joining
thread behind. -/
theorem step_follows_iff {a : Act} {s' : Threaded} (h : Inv s) (ha : Allowed s a)
    (he : step s a = some s') : Follows s a s' ↔ JoinedKept s a := by
  constructor
  · intro hf
    cases a with
    | entry e => trivial
    | scribble t v => trivial
    | exit v =>
      intro hd
      obtain ⟨k', hk, hk'⟩ := Option.map_eq_some_iff.mp he
      cases hj : s.kernel.tiJoining s.current with
      | none => rfl
      | some j =>
        have hkont := h.placed.konts.joins _ j hj h.placed.live
        have hready := hf.wakes v rfl j hkont
        rw [← hk'] at hready
        exact absurd hready (exit_leaves h.placed hd hj hk)
  · intro hc
    refine ⟨(step_inv s a s' h ⟨ha, hc⟩ he).oneJoiner, fun o v => h.returns, ?_⟩
    rintro v rfl j hj
    obtain ⟨k', hk, rfl⟩ := Option.map_eq_some_iff.mp he
    have hjoin := (h.joining j _ hj).1
    cases hd : s.kernel.tiDetached s.current with
    | false => exact exit_wakes h.placed hd hjoin hk
    | true => rw [hc hd] at hjoin; cases hjoin

end

/-! ## Every run -/

theorem inv_init (b : Threads) (val : Ptr → ℤ) (retval : Thread → Val) : Inv (init b val retval) := by
  refine ⟨placed_start b val, fun j o hj => (by cases hj), fun o ho => (by cases ho), fun o ho => ?_⟩
  have ho' : (if o = b.idle ∨ o = b.main ∨ o = b.softirqd then Life.live else .free) = .exited := ho
  split at ho' <;> cases ho'

/-- **Join and exit.** In a run in which no detached thread exits all steps follow the
protocol, and so does the step that comes next, unless it is the exit of a detached thread
while another one joins it. -/
theorem runs_follow (b : Threads) (val : Ptr → ℤ) (retval : Thread → Val) (as : List Act)
    (hok : ∀ x ∈ trace step (init b val retval) as, Allowed x.pre x.act)
    (hkeep : ∀ x ∈ trace step (init b val retval) as, KeepsPage x.pre x.act) :
    (∀ x ∈ trace step (init b val retval) as, Follows x.pre x.act x.post) ∧
      ∀ s a s', run step (init b val retval) as = some s → Allowed s a → step s a = some s' →
        (Follows s a s' ↔ JoinedKept s a) := by
  have hstep : ∀ s a s', Inv s → Allowed s a ∧ KeepsPage s a → step s a = some s' → Inv s' := fun s a s' h hc he =>
    step_inv s a s' h ⟨hc.1, hc.2.joinedKept⟩ he
  have hboth : ∀ x ∈ trace step (init b val retval) as, Allowed x.pre x.act ∧ KeepsPage x.pre x.act := fun x hx =>
    ⟨hok x hx, hkeep x hx⟩
  constructor
  · intro x hx
    obtain ⟨hpre, -⟩ := trace_invariant hstep (inv_init b val retval) hboth x hx
    exact (step_follows_iff hpre (hok x hx) (step_of_mem_trace hx)).mpr (hkeep x hx).joinedKept
  · intro s a s' hr ha he
    exact step_follows_iff (run_invariant_of_trace hstep hr (inv_init b val retval) hboth) ha he

/-- The main thread joins a thread that then exits with the value 7, and reads it. -/
theorem runs_follow_seven : ∃ s s', run step (init threads (fun _ => -1) fun _ => 0)
      [.entry (.svc (.create (some 3))), .entry (.svc (.join 3)), .exit 7] = some s ∧
    step s (.entry .resume) = some s' ∧ joinReturn s (.entry .resume) = some (3, 7) ∧ s.passed 3 = some 7 := by
  have hok : ∀ x ∈ trace step (init threads (fun _ => -1) fun _ => 0)
      [.entry (.svc (.create (some 3))), .entry (.svc (.join 3)), .exit 7, .entry .resume],
      Allowed x.pre x.act := by
    intro x hx
    have ha := act_mem_of_mem_trace hx
    simp only [List.mem_cons, List.not_mem_nil, or_false] at ha
    rcases ha with ha | ha | ha | ha <;> rw [ha] <;> trivial
  obtain ⟨s, s', u, hu, hs, hs', hret, hdet⟩ : ∃ s s' u, run step (init threads (fun _ => -1) fun _ => 0)
        [.entry (.svc (.create (some 3))), .entry (.svc (.join 3))] = some u ∧
      step u (.exit 7) = some s ∧ step s (.entry .resume) = some s' ∧
      joinReturn s (.entry .resume) = some (3, 7) ∧ u.kernel.tiDetached u.current = false :=
    ⟨_, _, _, rfl, rfl, rfl, by decide +kernel, by decide +kernel⟩
  have hrun := run_concat hu hs
  refine ⟨s, s', hrun, hs', hret, ?_⟩
  refine ((runs_follow threads _ _ _ hok fun x hx => ?_).1 _ (mem_trace_of_run hrun hs')).returns 3 7 hret
  rw [show [Act.entry (.svc (.create (some 3))), .entry (.svc (.join 3)), .exit 7, .entry .resume] =
      [.entry (.svc (.create (some 3))), .entry (.svc (.join 3))] ++ [.exit 7, .entry .resume] from rfl,
    trace_append hu, trace_cons_some hs, trace_cons_some hs'] at hx
  rcases List.mem_append.mp hx with hx | hx
  · have ha := act_mem_of_mem_trace hx
    rcases List.mem_pair.mp ha with ha | ha <;> rw [ha] <;> trivial
  · rcases List.mem_pair.mp hx with rfl | rfl
    · exact hdet
    · trivial

/-- The main thread joins a thread that detaches itself and exits: nobody wakes the
main thread. -/
theorem detached_after_join : ∃ s s', run step (init threads (fun _ => -1) fun _ => 0)
      [.entry (.svc (.create (some 3))), .entry (.svc (.join 3)), .entry (.svc (.detach 3))] = some s ∧
    step s (.exit 7) = some s' ∧ ¬ Follows s (.exit 7) s' := by
  obtain ⟨s, s', hs, hs', hkont, hcur, hq, hc⟩ : ∃ s s', run step (init threads (fun _ => -1) fun _ => 0)
        [.entry (.svc (.create (some 3))), .entry (.svc (.join 3)), .entry (.svc (.detach 3))] = some s ∧
      step s (.exit 7) = some s' ∧ s.kernel.kont 1 = .joinRet 3 ∧ s.current = 3 ∧
      1 ∉ queued s'.kernel.sched ∧ 1 ≠ s'.kernel.current :=
    ⟨_, _, rfl, rfl, by decide +kernel, by decide +kernel, by decide +kernel, by decide +kernel⟩
  refine ⟨s, s', hs, hs', fun h => ?_⟩
  rcases h.wakes 7 rfl 1 (by rw [hcur]; exact hkont) with hr | hr
  · exact hq hr
  · exact hc hr

end PikoRT.Sync.Join

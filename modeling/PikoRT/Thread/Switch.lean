import PikoRT.Thread.Context

/-! # Switching between threads

Threads are created, call `switch_to` and `thread_restore`, and between these calls any code
may run that leaves the words of the waiting threads alone. -/
namespace PikoRT.Thread.Switch
open PikoRT.Kernel.Bitops PikoRT.Lib.Words PikoRT.Lib.Run PikoRT.Arch.V7m PikoRT.Thread.Stack PikoRT.Thread.Context
open PikoRT.Thread.Create (ThreadPrivilege)
open PikoRT.Arch.Entry (kernelContext)

structure State where
  /-- None after a fault. -/
  core : Option Core
  current : Option Word
  origin : Word → Option Origin
  priv : Word → ThreadPrivilege
  /-- The threads that were left by `thread_restore`. -/
  gone : Word → Bool

inductive Act
  | runs (f : Core → Core)
  | create (n : NewThread)
  | switchTo (next : Word)
  | threadRestore (next : Word)

/-- The thread that is resumed. -/
def Act.next : Act → Option Word
  | .runs _ => none
  | .create _ => none
  | .switchTo next => some next
  | .threadRestore next => some next

namespace State

/-- Nothing runs: the current thread has called one of the two. -/
def leave (c : Core) (a : Act) (s : State) : State :=
  match s.current, a with
  | some prev, .switchTo _ => { s with current := none, origin := Function.update s.origin prev (some (.left c)) }
  | some prev, .threadRestore _ => { s with current := none, gone := Function.update s.gone prev true }
  | _, _ => s

/-- `thread_create` has run. -/
def create (pthreadExit : Word) (c : Core) (n : NewThread) (s : State) : State :=
  { s with
    core := some { c with mem := n.prepare pthreadExit c.mem }
    origin := Function.update s.origin n.thread (some (.new n))
    priv := Function.update s.priv n.thread n.priv
    gone := Function.update s.gone n.thread false }

/-- `next` runs, if it is a thread. -/
def enter (next : Word) (core : Option Core) (s : State) : Option State :=
  (s.origin next).map fun _ => { s with core := core, current := some next }

end State

def step (pthreadExit : Word) (s : State) (a : Act) : Option State :=
  s.core.bind fun c => match a with
  | .runs f => some { s with core := some (f c) }
  | .create n => some (s.create pthreadExit c n)
  | .switchTo next => s.current.bind fun prev =>
      (s.leave c a).enter next (c.args next prev).saveContext.threadRestore
  | .threadRestore next => (s.leave c a).enter next (c.args next (c.r .r1)).threadRestore

/-- The state in which `start_kernel` has returned, in Handler mode. -/
def boot (c : Core) : State := ⟨some c, none, fun _ => none, fun _ => .supervisor, fun _ => false⟩

/-! ## What is promised and what is asked for -/

namespace State

def Live (s : State) (t : Word) : Prop := s.origin t ≠ none ∧ s.gone t = false

/-- The thread at `t` is not running and can be resumed. -/
def Waits (s : State) (t : Word) (o : Origin) : Prop :=
  s.origin t = some o ∧ s.gone t = false ∧ s.current ≠ some t

/-- The interrupt stack of a thread, and its first context as long as it is not used. -/
def owns (s : State) (t : Word) : Set Word := {x | x ∈ block t ∨ ∃ o, s.Waits t o ∧ x ∈ o.frame}

end State

/-- Between two switches, the words of the waiting threads stay as they are. -/
structure Undisturbed (s : State) (m m' : Mem) : Prop where
  waits : ∀ t o, s.Waits t o → Set.EqOn m' m (o.keeps t)
  priv : ∀ t, s.current = some t → m' (t + 8) = m (t + 8)

/-- The blocks are new ones. -/
structure Fresh (s : State) (n : NewThread) : Prop where
  thread : n.thread.toNat % 512 = 0
  memp : n.memp.toNat % 4 = 0
  free : ¬ s.Live n.thread
  own : Disjoint (Origin.new n).frame (block n.thread)
  others : ∀ t, s.Live t → Disjoint (block n.thread ∪ (Origin.new n).frame) (s.owns t)

/-- Disjoint stacks, and the calling convention. -/
def Promised (s : State) (a : Act) : Prop :=
  ∀ c, s.core = some c → match a with
  | .runs f => Undisturbed s c.mem (f c).mem
  | .create n => Fresh s n
  | .switchTo _ => ∀ t, s.current = some t → Calls t c
  | .threadRestore _ => c.mode = .handler

/-- The thread that a step resumes is in the state that its origin asks for. -/
def Isolated (pthreadExit : Word) (s : State) (a : Act) (t : State) : Prop :=
  ∀ next c o, a.next = some next → s.core = some c → (s.leave c a).origin next = some o →
    ∃ u, t.core = some u ∧ Resumes pthreadExit (s.priv next) u o

/-- The thread that a step resumes was not left by `thread_restore`, and the size of a first
stack is a multiple of four. -/
def Sound (s : State) (a : Act) : Prop :=
  ∀ next c, a.next = some next → s.core = some c → (s.leave c a).gone next = false ∧
    ∀ n, (s.leave c a).origin next = some (.new n) → n.stacksize.toNat % 4 = 0

/-! ## The invariant of a run -/

/-- Every waiting thread can be restored from the memory `m`, and no two threads own a word
in common. -/
structure Inv (pthreadExit : Word) (s : State) (m : Mem) : Prop where
  current : ∀ t, s.current = some t → s.Live t ∧ m (t + 8) = (s.priv t).word
  parked : ∀ t o, s.Waits t o → o.Wf t ∧ Parked pthreadExit m t (s.priv t) o
  apart : ∀ t u, s.Live t → s.Live u → t ≠ u → Disjoint (s.owns t) (s.owns u)

/-- The machine has not faulted. -/
def Sane (pthreadExit : Word) (s : State) : Prop := ∃ c, s.core = some c ∧ Inv pthreadExit s c.mem

section

variable {pthreadExit t u next prev : Word} {s v : State} {m m' : Mem} {o : Origin} {n : NewThread} {c : Core}
    {a : Act}
  {as : List Act}

theorem keeps_subset_owns (ho : o.Wf t) (h : s.Waits t o) : o.keeps t ⊆ s.owns t := by
  obtain ⟨hlower, hupper⟩ := ho.msp_sub
  intro x hx
  rcases hx with hx | hx | hx
  · refine .inl ?_
    change _ < 512
    omega
  · refine .inl ?_
    change (x - t).toNat < 512
    bv_omega
  · exact .inr ⟨o, h, hx⟩

theorem State.Waits.live (h : s.Waits t o) : s.Live t := by
  refine ⟨?_, h.2.1⟩
  rw [h.1]
  simp

theorem boot_inv (pthreadExit : Word) (c : Core) : Inv pthreadExit (boot c) c.mem := by
  refine ⟨fun t ht => ?_, fun t o h => ?_, fun t u ht => ?_⟩
  · cases ht
  · cases h.1
  · exact absurd rfl ht.1

theorem Inv.runs {core : Option Core} (h : Inv pthreadExit s m) (hu : Undisturbed s m m') :
    Inv pthreadExit { s with core := core } m' := by
  refine ⟨fun t ht => ?_, fun t o hw => ?_, h.apart⟩
  · obtain ⟨hlive, hpriv⟩ := h.current t ht
    exact ⟨hlive, (hu.priv t ht).trans hpriv⟩
  · obtain ⟨ho, hparked⟩ := h.parked t o hw
    exact ⟨ho, hparked.congr ho (hu.waits t o hw)⟩

/-! ### Creation -/

theorem create_live_of_ne (ht : t ≠ n.thread) : (s.create pthreadExit c n).Live t ↔ s.Live t := by
  simp only [State.create, State.Live, Function.update_of_ne ht]

theorem create_waits_of_ne (ht : t ≠ n.thread) : (s.create pthreadExit c n).Waits t o ↔ s.Waits t o := by
  simp only [State.create, State.Waits, Function.update_of_ne ht]

theorem create_owns_of_ne (ht : t ≠ n.thread) : (s.create pthreadExit c n).owns t = s.owns t := by
  unfold State.owns
  simp only [create_waits_of_ne ht]

theorem create_origin_of_waits (h : (s.create pthreadExit c n).Waits n.thread o) : o = .new n := by
  have horigin := h.1
  simp only [State.create, Function.update_self, Option.some.injEq] at horigin
  exact horigin.symm

theorem create_owns : (s.create pthreadExit c n).owns n.thread ⊆ block n.thread ∪ (Origin.new n).frame := by
  rintro x (hx | ⟨o, hw, hx⟩)
  · exact .inl hx
  · rw [create_origin_of_waits hw] at hx
    exact .inr hx

theorem Inv.create (h : Inv pthreadExit s c.mem) (hf : Fresh s n) :
    Inv pthreadExit (s.create pthreadExit c n) (n.prepare pthreadExit c.mem) := by
  have hother : ∀ t, s.Live t → ∀ x ∈ s.owns t, n.prepare pthreadExit c.mem x = c.mem x := by
    intro t ht x hx
    have hout := Set.disjoint_right.mp (hf.others t ht) hx
    exact prepare_of_notMem (fun hb => hout (.inl hb)) fun hb => hout (.inr hb)
  refine ⟨fun t ht => ?_, fun t o hw => ?_, fun t u ht hu hne => ?_⟩
  · obtain ⟨hlive, hpriv⟩ := h.current t ht
    have hne : t ≠ n.thread := by
      intro he
      subst he
      exact hf.free hlive
    refine ⟨(create_live_of_ne hne).mpr hlive, ?_⟩
    rw [hother t hlive (t + 8)]
    · simpa only [State.create, Function.update_of_ne hne] using hpriv
    · refine .inl ?_
      change (t + 8 - t).toNat < 512
      rw [add_sub_cancel_left]
      decide
  · by_cases hne : t = n.thread
    · subst hne
      cases create_origin_of_waits hw
      refine ⟨⟨rfl, hf.thread, hf.memp⟩, ?_⟩
      simpa only [State.create, Function.update_self] using parked_prepare hf.own hf.memp
    · have hw' := (create_waits_of_ne hne).mp hw
      obtain ⟨ho, hparked⟩ := h.parked t o hw'
      refine ⟨ho, ?_⟩
      have hkept := hparked.congr ho fun x hx => hother t hw'.live x (keeps_subset_owns ho hw' hx)
      simpa only [State.create, Function.update_of_ne hne] using hkept
  · by_cases hnt : t = n.thread
    · subst hnt
      have hnu : u ≠ n.thread := hne.symm
      rw [create_owns_of_ne hnu]
      exact (hf.others u ((create_live_of_ne hnu).mp hu)).mono_left create_owns
    · rw [create_owns_of_ne hnt]
      by_cases hnu : u = n.thread
      · subst hnu
        exact ((hf.others t ((create_live_of_ne hnt).mp ht)).mono_left create_owns).symm
      · rw [create_owns_of_ne hnu]
        exact h.apart t u ((create_live_of_ne hnt).mp ht) ((create_live_of_ne hnu).mp hu) hne

/-! ### Leaving a thread and entering another -/

@[simp] theorem leave_priv : (s.leave c a).priv = s.priv := by
  unfold State.leave
  split <;> rfl

theorem leave_current (h : a.next = some next) : (s.leave c a).current = none := by
  cases hcur : s.current with
  | none => simp [State.leave, hcur]
  | some prev => cases a <;> simp_all [State.leave, Act.next]

theorem Inv.leave_switchTo (h : Inv pthreadExit s c.mem) (hcur : s.current = some prev) (hc : Calls prev c) :
    Inv pthreadExit (s.leave c (.switchTo next)) (c.args next prev).saveContext.mem := by
  obtain ⟨hprev, hpriv⟩ := h.current prev hcur
  have hleave : s.leave c (.switchTo next) =
      { s with current := none, origin := Function.update s.origin prev (some (.left c)) } := by
    simp only [State.leave, hcur]
  rw [hleave]
  generalize hs' : ({ s with
    current := none, origin := Function.update s.origin prev (some (.left c)) } : State) = s'
  have hlive : ∀ t, s'.Live t → s.Live t := by
    intro t ht
    subst hs'
    by_cases hne : t = prev
    · exact hne ▸ hprev
    · simpa only [State.Live, Function.update_of_ne hne] using ht
  have hwaits : ∀ t o, t ≠ prev → s'.Waits t o → s.Waits t o := by
    intro t o hne hw
    subst hs'
    refine ⟨?_, hw.2.1, ?_⟩
    · simpa only [Function.update_of_ne hne] using hw.1
    · rw [hcur]
      exact fun he => hne (Option.some.inj he).symm
  have hleft : ∀ o, s'.Waits prev o → o = .left c := by
    intro o hw
    subst hs'
    simpa using hw.1.symm
  have howns : ∀ t, s'.owns t ⊆ s.owns t := by
    rintro t x (hx | ⟨o, hw, hx⟩)
    · exact .inl hx
    · by_cases hne : t = prev
      · subst hne
        rw [hleft o hw] at hx
        cases hx
      · exact .inr ⟨o, hwaits t o hne hw, hx⟩
  refine ⟨fun t ht => ?_, fun t o hw => ?_, fun t u ht hu hne => ?_⟩
  · subst hs'
    cases ht
  · have hpriv' : s'.priv = s.priv := by subst hs'; rfl
    rw [hpriv']
    by_cases hne : t = prev
    · subst hne
      cases hleft o hw
      exact ⟨hc, parked_args_saveContext hc hpriv⟩
    · have hw' := hwaits t o hne hw
      obtain ⟨ho, hparked⟩ := h.parked t o hw'
      refine ⟨ho, hparked.congr ho fun x hx => args_saveContext_of_notMem hc fun hb => ?_⟩
      exact Set.disjoint_left.mp (h.apart t prev hw'.live hprev hne) (keeps_subset_owns ho hw' hx) (.inl hb)
  · exact (h.apart t u (hlive t ht) (hlive u hu) hne).mono (howns t) (howns u)

theorem Inv.leave_threadRestore (h : Inv pthreadExit s m) : Inv pthreadExit (s.leave c (.threadRestore next)) m := by
  cases hcur : s.current with
  | none =>
    have hleave : s.leave c (.threadRestore next) = s := by simp only [State.leave, hcur]
    rwa [hleave]
  | some prev =>
    have hleave : s.leave c (.threadRestore next) =
        { s with current := none, gone := Function.update s.gone prev true } := by
      simp only [State.leave, hcur]
    rw [hleave]
    generalize hs' : ({ s with current := none, gone := Function.update s.gone prev true } : State) = s'
    have hgone : ∀ t, s'.gone t = false → t ≠ prev ∧ s.gone t = false := by
      intro t ht
      subst hs'
      by_cases hne : t = prev
      · subst hne
        simp at ht
      · exact ⟨hne, by simpa only [Function.update_of_ne hne] using ht⟩
    have hlive : ∀ t, s'.Live t → s.Live t := by
      intro t ht
      refine ⟨?_, (hgone t ht.2).2⟩
      subst hs'
      exact ht.1
    have hwaits : ∀ t o, s'.Waits t o → s.Waits t o := by
      intro t o hw
      obtain ⟨hne, hgone'⟩ := hgone t hw.2.1
      subst hs'
      refine ⟨hw.1, hgone', ?_⟩
      rw [hcur]
      exact fun he => hne (Option.some.inj he).symm
    have howns : ∀ t, s'.owns t ⊆ s.owns t := by
      rintro t x (hx | ⟨o, hw, hx⟩)
      · exact .inl hx
      · exact .inr ⟨o, hwaits t o hw, hx⟩
    refine ⟨fun t ht => ?_, fun t o hw => ?_, fun t u ht hu hne => ?_⟩
    · subst hs'
      cases ht
    · have hpriv' : s'.priv = s.priv := by subst hs'; rfl
      rw [hpriv']
      exact h.parked t o (hwaits t o hw)
    · exact (h.apart t u (hlive t ht) (hlive u hu) hne).mono (howns t) (howns u)

theorem Inv.enter {core : Option Core} (h : Inv pthreadExit s m) (hcur : s.current = none) (hw : s.Waits next o) :
    Inv pthreadExit { s with core := core, current := some next } m := by
  have hwaits : ∀ t o, State.Waits { s with core := core, current := some next } t o → s.Waits t o := by
    intro t o hw
    refine ⟨hw.1, hw.2.1, ?_⟩
    rw [hcur]
    simp
  have howns : ∀ t, State.owns { s with core := core, current := some next } t ⊆ s.owns t := by
    rintro t x (hx | ⟨o, hw, hx⟩)
    · exact .inl hx
    · exact .inr ⟨o, hwaits t o hw, hx⟩
  refine ⟨fun t ht => ?_, fun t o hw => h.parked t o (hwaits t o hw), fun t u ht hu hne => ?_⟩
  · cases ht
    exact ⟨hw.live, (h.parked next o hw).2.priv⟩
  · exact (h.apart t u ht hu hne).mono (howns t) (howns u)

/-- `thread_restore` of a thread that waits. -/
theorem Inv.resume (h : Inv pthreadExit s c.mem) (hcur : s.current = none) (hgone : s.gone next = false)
    (hsize : ∀ n, s.origin next = some (.new n) → n.stacksize.toNat % 4 = 0) (hmode : c.mode = .handler)
    (hr0 : c.r .r0 = next) (hv : s.enter next c.threadRestore = some v) :
    ∃ d, v.core = some d ∧ Inv pthreadExit v d.mem ∧
      ∀ o, s.origin next = some o → Resumes pthreadExit (s.priv next) d o := by
  obtain ⟨o, ho, rfl⟩ := Option.map_eq_some_iff.mp hv
  have hw : s.Waits next o := ⟨ho, hgone, by rw [hcur]; simp⟩
  obtain ⟨hwf, hparked⟩ := h.parked next o hw
  obtain ⟨d, hd, hresumes, hmem⟩ := hparked.resumes hwf (fun n hn => hsize n (hn ▸ ho)) hmode hr0
  refine ⟨d, hd, ?_, fun o' ho' => ?_⟩
  · rw [hmem]
    exact h.enter hcur hw
  · cases Option.some.inj (ho.symm.trans ho')
    exact hresumes

theorem isolated_of_resumes {d : Core} (hnext : a.next = some next) (hcore : s.core = some c) (hd : v.core = some d)
    (h : ∀ o, (s.leave c a).origin next = some o → Resumes pthreadExit (s.priv next) d o) :
      Isolated pthreadExit s a v := by
  intro next' c' o hnext' hcore' ho
  cases Option.some.inj (hnext.symm.trans hnext')
  cases Option.some.inj (hcore.symm.trans hcore')
  exact ⟨d, hd, h o ho⟩

/-- A step keeps the invariant and resumes what it should. -/
theorem step_isolated (hsane : Sane pthreadExit s) (hok : Promised s a ∧ Sound s a)
    (hstep : step pthreadExit s a = some v) : Isolated pthreadExit s a v ∧ Sane pthreadExit v := by
  obtain ⟨c, hcore, h⟩ := hsane
  have hp := hok.1 c hcore
  have hs := hok.2
  rw [step, hcore, Option.bind_some] at hstep
  cases a with
  | runs f =>
    cases hstep
    refine ⟨?_, f c, rfl, h.runs hp⟩
    intro next c' o hnext
    cases hnext
  | create n =>
    cases hstep
    refine ⟨?_, _, rfl, h.create hp⟩
    intro next c' o hnext
    cases hnext
  | switchTo next =>
    obtain ⟨prev, hcur, hstep⟩ := Option.bind_eq_some_iff.mp hstep
    have hcalls := hp prev hcur
    obtain ⟨hgone, hsize⟩ := hs next c rfl hcore
    have hleft : Inv pthreadExit (s.leave c (.switchTo next)) (c.args next prev).saveContext.mem :=
      h.leave_switchTo hcur hcalls
    obtain ⟨d, hd, hinv, hresumes⟩ := hleft.resume (leave_current rfl) hgone hsize
      (args_saveContext_mode hcalls.mode) (args_saveContext_r0 hcalls.mode) hstep
    exact ⟨isolated_of_resumes rfl hcore hd (by simpa using hresumes), d, hd, hinv⟩
  | threadRestore next =>
    obtain ⟨hgone, hsize⟩ := hs next c rfl hcore
    have hleft : Inv pthreadExit (s.leave c (.threadRestore next)) (c.args next (c.r .r1)).mem :=
      h.leave_threadRestore
    obtain ⟨d, hd, hinv, hresumes⟩ := hleft.resume (leave_current rfl) hgone hsize hp rfl hstep
    exact ⟨isolated_of_resumes rfl hcore hd (by simpa using hresumes), d, hd, hinv⟩

theorem boot_sane (pthreadExit : Word) (c : Core) : Sane pthreadExit (boot c) := ⟨c, rfl, boot_inv pthreadExit c⟩

/-- **Isolation.** In every run from the boot in which the stacks are disjoint, no thread is
resumed that was left by `thread_restore`, and the sizes of first stacks are multiples of
four, a resumed thread goes on where it called `switch_to`, and a new one starts. -/
theorem runs_isolated (pthreadExit : Word) (c : Core) (as : List Act)
    (hp : ∀ x ∈ trace (step pthreadExit) (boot c) as, Promised x.pre x.act)
    (hs : ∀ x ∈ trace (step pthreadExit) (boot c) as, Sound x.pre x.act) :
    ∀ x ∈ trace (step pthreadExit) (boot c) as, Isolated pthreadExit x.pre x.act x.post := by
  have hsane := trace_invariant (I := Sane pthreadExit) (C := fun s a => Promised s a ∧ Sound s a)
    (fun _ _ _ hs hok hstep => (step_isolated hs hok hstep).2) (boot_sane pthreadExit c)
    fun x hx => ⟨hp x hx, hs x hx⟩
  exact fun x hx => (step_isolated (hsane x hx).1 ⟨hp x hx, hs x hx⟩ (step_of_mem_trace hx)).1

/-- The running thread may use its interrupt stack. -/
theorem Inv.undisturbed (h : Inv pthreadExit s m) (hcur : s.current = some prev)
    (hm : ∀ x, x ∉ block prev → m' x = m x) (hpriv : m' (prev + 8) = m (prev + 8)) : Undisturbed s m m' := by
  refine ⟨fun t o hw x hx => hm x fun hb => ?_, fun t ht => ?_⟩
  · have hne : t ≠ prev := by
      intro he
      subst he
      exact hw.2.2 hcur
    have hown := keeps_subset_owns (h.parked t o hw).1 hw hx
    exact Set.disjoint_left.mp (h.apart t prev hw.live (h.current prev hcur).1 hne) hown (.inl hb)
  · cases Option.some.inj (hcur.symm.trans ht)
    exact hpriv

end

/-! ## Runs -/

/-- The machine in Handler mode, at the return of `start_kernel`. -/
def bootCore : Core := ⟨⟨fun _ => 0, 0x20003000, 0, 0x08000100, 0, .handler, fun _ => 0⟩, false⟩

def firstThread (stacksize : Word) : NewThread := ⟨0x20000200, 0x20001000, 0x08002001, 5, stacksize, .user⟩

def secondThread : NewThread := ⟨0x20000400, 0x20001400, 0x08002101, 6, 1024, .supervisor⟩

/-- The running thread has come to a call of `switch_to`. -/
def atCall (msp psp : Word) (c : Core) : Core :=
  ⟨{ c.toCpu with r := Function.update c.r .lr 0x08003001, msp := msp, psp := psp, mode := .handler }, c.npriv⟩

/-- A stack of 1022 bytes. -/
def oddStack : List Act := [.create (firstThread 1022), .threadRestore 0x20000200]

/-- Each of two threads calls `switch_to` once. -/
def twoThreads : List Act :=
  [.create (firstThread 1024), .create secondThread, .threadRestore 0x20000200,
    .runs (atCall 0x200003c0 0x200013e0), .switchTo 0x20000400,
    .runs (atCall 0x200005c0 0x200017e0), .switchTo 0x20000200]

section

variable {s : State} {n : NewThread}

theorem fresh_boot (c : Core) (hthread : n.thread.toNat % 512 = 0) (hmemp : n.memp.toNat % 4 = 0)
    (hown : Disjoint (Origin.new n).frame (block n.thread)) : Fresh (boot c) n :=
  ⟨hthread, hmemp, fun h => h.1 rfl, hown, fun _ ht => absurd rfl ht.1⟩

theorem sound_of_next_eq_none {a : Act} (h : a.next = none) : Sound s a := by
  intro next c hnext
  rw [h] at hnext
  cases hnext

theorem step_runs {pthreadExit : Word} {f : Core → Core} {t : State} (h : step pthreadExit s (.runs f) = some t) :
    ∃ c, s.core = some c ∧ t = { s with core := some (f c) } := by
  obtain ⟨c, hc, ht⟩ := Option.bind_eq_some_iff.mp h
  exact ⟨c, hc, (Option.some.inj ht).symm⟩

theorem promised_atCall (s : State) (msp psp : Word) : Promised s (.runs (atCall msp psp)) :=
  fun _ _ => ⟨fun _ _ _ _ _ => rfl, fun _ _ => rfl⟩

theorem calls_atCall {t msp psp : Word} (c : Core) (hlower : 52 ≤ (msp - t).toNat) (hupper : (msp - t).toNat ≤ 512)
    (hmsp : wordOf msp = msp) (hpsp : wordOf psp = psp) : Calls t (atCall msp psp c) := by
  have hlr : (atCall msp psp c).r .lr = 0x08003001 := by simp [atCall]
  refine ⟨rfl, hlower, hupper, hmsp, hpsp, ?_, ?_⟩
  · rw [hlr]
    rfl
  · rw [hlr]
    decide

end

theorem firstThread_own (stacksize : Word) (h : 32 ≤ stacksize.toNat) (h' : stacksize.toNat ≤ 1024) :
    Disjoint (Origin.new (firstThread stacksize)).frame (block (firstThread stacksize).thread) := by
  refine Set.disjoint_left.mpr fun x hx => ?_
  have hsub := frame_sub hx
  unfold NewThread.tcr at hsub
  change ¬ (x - 0x20000200).toNat < 512
  change (x - (0x20001000 + stacksize - 32 - 3)).toNat < 35 at hsub
  bv_omega

/-- With a stack of 1022 bytes the first function gets a wrong argument. -/
theorem not_isolated_oddStack :
    (trace (step 0x08001001) (boot bootCore) oddStack).length = 2 ∧
    (∀ x ∈ trace (step 0x08001001) (boot bootCore) oddStack, Promised x.pre x.act) ∧
    ¬ ∀ x ∈ trace (step 0x08001001) (boot bootCore) oddStack, Isolated 0x08001001 x.pre x.act x.post := by
  refine ⟨rfl, ?_, ?_⟩
  · refine forall_trace_cons rfl ?_ (forall_trace_cons rfl ?_ ?_)
    · intro c hc
      exact fresh_boot bootCore rfl rfl (firstThread_own 1022 (by decide) (by decide))
    · intro c hc
      cases hc
      rfl
    · intro x hx
      cases hx
  · intro h
    obtain ⟨u, hu, hresumes⟩ := h _ (List.mem_cons_of_mem _ List.mem_cons_self) 0x20000200 _ _ rfl rfl rfl
    have harg : u.r .r0 = 5 := hresumes.arg
    have hr0 := congrArg (Option.map (·.r .r0)) hu
    rw [Option.map_some, harg] at hr0
    revert hr0
    decide +kernel

theorem fresh_secondThread : Fresh ((boot bootCore).create 0x08001001 bootCore (firstThread 1024)) secondThread := by
  have hlive : ∀ t, ((boot bootCore).create 0x08001001 bootCore (firstThread 1024)).Live t → t = 0x20000200 := by
    intro t ht
    by_contra hne
    exact absurd rfl ((create_live_of_ne (n := firstThread 1024) hne).mp ht).1
  have hfirst : (firstThread 1024).tcr - 3 = 0x200013dd := rfl
  have hsecond : secondThread.tcr - 3 = 0x200017dd := rfl
  refine ⟨rfl, rfl, fun h => absurd (hlive _ h) (by decide), ?_, fun t ht => ?_⟩
  · refine Set.disjoint_left.mpr fun x hx => ?_
    have hsub := frame_sub hx
    rw [hsecond] at hsub
    change ¬ (x - 0x20000400).toNat < 512
    bv_omega
  · rw [hlive t ht]
    refine Disjoint.mono_right create_owns (Set.disjoint_left.mpr fun x hx hx' => ?_)
    have hnew := hx.imp_right frame_sub
    have hold := hx'.imp_right frame_sub
    rw [hsecond] at hnew
    rw [hfirst] at hold
    change (x - 0x20000400).toNat < 512 ∨ _ at hnew
    change (x - 0x20000200).toNat < 512 ∨ _ at hold
    rcases hnew with hnew | hnew <;> rcases hold with hold | hold <;> bv_omega

theorem twoThreads_ok : ∀ x ∈ trace (step 0x08001001) (boot bootCore) twoThreads,
    Promised x.pre x.act ∧ Sound x.pre x.act := by
  refine forall_trace_cons rfl ⟨?_, sound_of_next_eq_none rfl⟩ ?_
  · exact fun c hc => fresh_boot bootCore rfl rfl (firstThread_own 1024 (by decide) (by decide))
  refine forall_trace_cons rfl ⟨?_, sound_of_next_eq_none rfl⟩ ?_
  · exact fun c hc => fresh_secondThread
  refine forall_trace_cons rfl ⟨?_, ?_⟩ ?_
  · intro c hc
    cases hc
    rfl
  · intro next c hnext hc
    cases hnext
    refine ⟨rfl, fun n hn => ?_⟩
    cases hn
    rfl
  refine forall_trace_of_step (P := fun s a => Promised s a ∧ Sound s a)
    ⟨promised_atCall _ _ _, sound_of_next_eq_none rfl⟩ fun t ht => ?_
  obtain ⟨c, hc, rfl⟩ := step_runs ht
  refine forall_trace_cons rfl ⟨?_, ?_⟩ ?_
  · intro d hd t ht
    cases hd
    cases ht
    exact calls_atCall c (by decide) (by decide) rfl rfl
  · intro next d hnext hd
    cases hnext
    cases hd
    refine ⟨rfl, fun n hn => ?_⟩
    cases hn
    rfl
  refine forall_trace_of_step (P := fun s a => Promised s a ∧ Sound s a)
    ⟨promised_atCall _ _ _, sound_of_next_eq_none rfl⟩ fun t ht => ?_
  obtain ⟨c, hc, rfl⟩ := step_runs ht
  refine forall_trace_cons rfl ⟨?_, ?_⟩ ?_
  · intro d hd t ht
    cases hd
    cases ht
    exact calls_atCall c (by decide) (by decide) rfl rfl
  · intro next d hnext hd
    cases hnext
    cases hd
    refine ⟨rfl, fun n hn => ?_⟩
    cases hn
  · intro x hx
    cases hx

/-- Both threads start, and the first one goes on. -/
theorem runs_isolated_twoThreads :
    (trace (step 0x08001001) (boot bootCore) twoThreads).length = 7 ∧
    ∀ x ∈ trace (step 0x08001001) (boot bootCore) twoThreads, Isolated 0x08001001 x.pre x.act x.post :=
  ⟨by decide +kernel, runs_isolated 0x08001001 bootCore twoThreads (fun x hx => (twoThreads_ok x hx).1)
    fun x hx => (twoThreads_ok x hx).2⟩

/-- The first thread has pushed a word to its interrupt stack and comes to a call again. -/
def pushesWord (c : Core) : Core :=
  { atCall 0x200003c0 0x200013e0 c with mem := Function.update c.mem 0x20000398 1 }

/-- The first thread uses its interrupt stack, then it is left by `thread_restore`, and then
resumed. -/
def staleContext : List Act :=
  twoThreads ++
    [.runs pushesWord, .threadRestore 0x20000400, .runs (atCall 0x200005c0 0x200017e0), .switchTo 0x20000200]

/-- The value of `r4` at the last call of `switch_to` of the thread at `t`. -/
def lastR4 (t : Word) (s : State) : Option Word :=
  (s.origin t).bind fun o => match o with
    | .new _ => none
    | .left c => some (c.r .r4)

theorem promised_staleContext :
    ∀ x ∈ trace (step 0x08001001) (boot bootCore) staleContext, Promised x.pre x.act := by
  obtain ⟨t, ht⟩ := Option.isSome_iff_exists.mp
    (show (run (step 0x08001001) (boot bootCore) twoThreads).isSome by decide +kernel)
  have hcurrent : (run (step 0x08001001) (boot bootCore) twoThreads).map State.current = some (some 0x20000200) := by
    decide +kernel
  rw [ht] at hcurrent
  have hcur : t.current = some 0x20000200 := Option.some.inj hcurrent
  obtain ⟨d, hd, hinv⟩ := run_invariant_of_trace (I := Sane 0x08001001) (C := fun s a => Promised s a ∧ Sound s a)
    (fun _ _ _ hs hok hstep => (step_isolated hs hok hstep).2) ht (boot_sane _ bootCore) twoThreads_ok
  rw [staleContext, trace_append ht]
  refine List.forall_mem_append.mpr ⟨fun x hx => (twoThreads_ok x hx).1, ?_⟩
  refine forall_trace_of_step ?_ fun t₀ ht₀ => ?_
  · intro c hc
    cases Option.some.inj (hd.symm.trans hc)
    have hne : (0x20000200 + 8 : Word) ≠ 0x20000398 := by decide
    change Undisturbed t d.mem (Function.update d.mem 0x20000398 1)
    refine hinv.undisturbed hcur (fun x hx => Function.update_of_ne ?_ _ _) (Function.update_of_ne hne _ _)
    intro he
    subst he
    exact hx (by change _ < 512; decide)
  obtain ⟨c, hc, rfl⟩ := step_runs ht₀
  refine forall_trace_of_step ?_ fun t₁ ht₁ => ?_
  · intro c' hc'
    cases hc'
    rfl
  obtain ⟨o, ho, rfl⟩ := Option.map_eq_some_iff.mp ht₁
  refine forall_trace_of_step (promised_atCall _ _ _) fun t₂ ht₂ => ?_
  obtain ⟨c₁, hc₁, rfl⟩ := step_runs ht₂
  refine forall_trace_of_step ?_ fun t₃ ht₃ => ?_
  · intro c' hc' t' ht'
    cases hc'
    cases ht'
    exact calls_atCall c₁ (by decide) (by decide) rfl rfl
  · intro x hx
    cases hx

/-- A thread that was left by `thread_restore` goes on with the old words. -/
theorem not_isolated_staleContext :
    (∀ x ∈ trace (step 0x08001001) (boot bootCore) staleContext, Promised x.pre x.act) ∧
    ¬ ∀ x ∈ trace (step 0x08001001) (boot bootCore) staleContext, Isolated 0x08001001 x.pre x.act x.post := by
  refine ⟨promised_staleContext, fun h => ?_⟩
  obtain ⟨w, hw⟩ := Option.isSome_iff_exists.mp
    (show (run (step 0x08001001) (boot bootCore) staleContext).isSome by decide +kernel)
  have hlast : staleContext = staleContext.dropLast ++ [.switchTo 0x20000200] := rfl
  have hr4 : (run (step 0x08001001) (boot bootCore) staleContext).bind (fun s => s.core.map (·.r .r4)) = some 1 := by
    decide +kernel
  have hsaved : (run (step 0x08001001) (boot bootCore) staleContext.dropLast).bind
      (fun s => s.current.map fun t => (t, lastR4 0x20000200 s)) = some (0x20000400, some 0) := by
    decide +kernel
  rw [hw, Option.bind_some] at hr4
  rw [hlast, run_append] at hw
  obtain ⟨v, hv, hvw⟩ := Option.bind_eq_some_iff.mp hw
  obtain ⟨w', hstep, hw'⟩ := run_cons_some hvw
  cases hw'
  rw [hv, Option.bind_some] at hsaved
  obtain ⟨t, hcur, ht⟩ := Option.map_eq_some_iff.mp hsaved
  obtain ⟨rfl, hlastR4⟩ := Prod.mk.inj ht
  obtain ⟨o, ho, he⟩ := Option.bind_eq_some_iff.mp hlastR4
  obtain ⟨c, hc, -⟩ := Option.bind_eq_some_iff.mp hstep
  have horigin : (v.leave c (.switchTo 0x20000200)).origin 0x20000200 = some o := by
    have hne : (0x20000200 : Word) ≠ 0x20000400 := by decide
    simpa only [State.leave, hcur, Function.update_of_ne hne] using ho
  have hmem := mem_trace_of_run hv hstep
  rw [← hlast] at hmem
  obtain ⟨u, hu, hresumes⟩ := h _ hmem 0x20000200 c o rfl hc horigin
  rw [hu, Option.map_some] at hr4
  cases o with
  | new n => cases he
  | left e =>
    have hkept : u.r .r4 = e.r .r4 := hresumes.regs .r4 List.mem_cons_self
    have hzero : e.r .r4 = 0 := Option.some.inj he
    have hone : u.r .r4 = 1 := Option.some.inj hr4
    rw [hkept, hzero] at hone
    exact absurd hone (by decide)

end PikoRT.Thread.Switch

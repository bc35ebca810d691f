import PikoRT.Arch.Signal

/-! # Timer events for a thread that is not running

A thread gives way through `switch_to`. Until it is resumed, other threads run, and its
timers expire: `timer_callback` calls `do_sigevent`, which puts a frame under those that are
already on the thread's stack. The stack is followed over any such interval: it holds one
frame for every event, the latest at the bottom, and above them the frame of the exception.
When the thread is resumed the notifications run, and then the thread goes on. In a system
call the thread may give way more than once, and the frames add up. -/
namespace PikoRT.Arch.Sigevent
open PikoRT.Kernel.Bitops PikoRT.Lib.Words PikoRT.Arch.V7m PikoRT.Arch.Entry PikoRT.Arch.Svcall PikoRT.Arch.Signal

/-- The thread calls `switch_to` from the kernel; `ret` is the return address. -/
def suspend (thread ret : Word) (q : Cpu) : Cpu := saveContext ((q.set .r1 thread).set .lr ret)

def resume (thread : Word) (s : Cpu) : Option Cpu := threadRestore (s.set .r0 thread)

/-- The thread's `thread_info`, and the ends of its kernel stack and of the frames on its
user stack. -/
structure Stacks where
  thread : Word
  ktop : Word
  top : Word

/-- The words in which the suspended thread is kept: the saved stack pointers, and both
stacks from there on. -/
def Protected (p : Stacks) (s : Cpu) (x : Word) : Prop :=
  x = p.thread ∨ x = miPsp p.thread ∨ (x - s.mem p.thread).toNat < (p.ktop - s.mem p.thread).toNat ∨
    (x - s.mem (miPsp p.thread)).toNat ≤ (p.top - s.mem (miPsp p.thread)).toNat

/-- There is room for a frame under those on the user stack. -/
def Room (p : Stacks) (s : Cpu) : Prop :=
  ∀ x, (x - (s.mem (miPsp p.thread) - 32)).toNat < 32 → ¬ Protected p s x

/-- The thread is suspended in `s`; until `t` the events `es` have occurred, in this order. -/
inductive Sleeps (L : Labels) (p : Stacks) (s : Cpu) : List Sigevent → Cpu → Prop
  | refl : Sleeps L p s [] s
  /-- Other threads run and do not touch the thread. -/
  | others {es : List Sigevent} {t u : Cpu} (h : Sleeps L p s es t)
      (hu : ∀ x, Protected p t x → u.mem x = t.mem x) : Sleeps L p s es u
  /-- A timer of the thread expires. -/
  | expire {es : List Sigevent} {t : Cpu} (e : Sigevent) (h : Sleeps L p s es t)
      (hcurr : p.thread ≠ currentThreadInfo t) (hroom : Room p t) :
      Sleeps L p s (es ++ [e]) (doSigevent L e p.thread t)

/-- From `a` to `top` lie the frames of the events `es`, the latest at `a`, and above them the
frame `f` of the exception. -/
structure Stacked (L : Labels) (top : Word) (f : ThreadContextRegs) (es : List Sigevent) (m : Word → Word) (a : Word) :
    Prop where
  frames : Frames m a ((es.map (sigeventContext L)).reverse ++ [f])
  size : (top - a).toNat = 32 * (es.length + 1)

/-- The stacks of the thread, suspended in `s`, when `es` are all its events up to `t`. -/
structure Asleep (L : Labels) (p : Stacks) (f : ThreadContextRegs) (s : Cpu) (es : List Sigevent)
    (t : Cpu) : Prop where
  msp : t.mem p.thread = s.mem p.thread
  kernel : Agree s.mem t.mem (s.mem p.thread) (p.ktop - s.mem p.thread).toNat
  stacked : Stacked L p.top f es t.mem (t.mem (miPsp p.thread))
  mach : (p.top - t.mem (miPsp p.thread)).toNat < (miPsp p.thread - t.mem (miPsp p.thread)).toNat
  apart : (p.ktop - s.mem p.thread).toNat ≤ (t.mem (miPsp p.thread) - s.mem p.thread).toNat

/-- Where the thread is suspended: its frames are on the stack, and the saved stack pointers
are not on a stack. -/
structure Start (L : Labels) (p : Stacks) (f : ThreadContextRegs) (es : List Sigevent) (s : Cpu) : Prop where
  stacked : Stacked L p.top f es s.mem (s.mem (miPsp p.thread))
  mach : (p.top - s.mem (miPsp p.thread)).toNat < (miPsp p.thread - s.mem (miPsp p.thread)).toNat
  kernel : (p.ktop - s.mem p.thread).toNat ≤ (miPsp p.thread - s.mem p.thread).toNat
  apart : (p.ktop - s.mem p.thread).toNat ≤ (s.mem (miPsp p.thread) - s.mem p.thread).toNat

section

variable {L : Labels} {p : Stacks} {f : ThreadContextRegs} {s t : Cpu} {es fs : List Sigevent} {m m' : Word → Word}
  {a : Word}

theorem Stacked.congr (h : Stacked L p.top f es m a) (hm : ∀ x, (x - a).toNat < (p.top - a).toNat → m' x = m x) :
    Stacked L p.top f es m' a :=
  ⟨h.frames.congr (n := 32 * (es.length + 1)) (fun x hx => hm x (by rwa [h.size])) (by simp), h.size⟩

/-- The frame of one more event. -/
theorem Stacked.push (h : Stacked L p.top f es m a) {e : Sigevent}
    (hload : ThreadContextRegs.load m (a - 32) = sigeventContext L e)
    (hgrow : (p.top - (a - 32)).toNat = (p.top - a).toNat + 32) : Stacked L p.top f (es ++ [e]) m (a - 32) := by
  constructor
  · rw [List.map_append, List.reverse_append]
    refine ⟨hload, ?_⟩
    rw [sub_add_cancel]
    exact h.frames
  · rw [hgrow, h.size, List.length_append, List.length_singleton]
    omega

theorem Start.asleep (h : Start L p f es s) : Asleep L p f s es s :=
  ⟨rfl, Agree.refl _ _ _, h.stacked, h.mach, h.apart⟩

theorem Asleep.others (h : Asleep L p f s es t) {u : Cpu} (hu : ∀ x, Protected p t x → u.mem x = t.mem x) :
    Asleep L p f s es u := by
  have hmsp : u.mem p.thread = t.mem p.thread := hu _ (.inl rfl)
  have hpsp : u.mem (miPsp p.thread) = t.mem (miPsp p.thread) := hu _ (.inr (.inl rfl))
  refine ⟨hmsp.trans h.msp, fun x hx => ?_, ?_, by rw [hpsp]; exact h.mach, by rw [hpsp]; exact h.apart⟩
  · rw [hu x (.inr (.inr (.inl (by rwa [h.msp])))), h.kernel x hx]
  · rw [hpsp]
    exact h.stacked.congr fun x hx => hu x (.inr (.inr (.inr hx.le)))

/-- What an event writes. -/
theorem doSigevent_mem {e : Sigevent} (hcurr : p.thread ≠ currentThreadInfo t) :
    (doSigevent L e p.thread t).mem = storeWords (Function.update t.mem (miPsp p.thread) (t.mem (miPsp p.thread) - 32))
      (t.mem (miPsp p.thread) - 32) (sigeventContext L e).words := by
  simp only [doSigevent, hcurr, if_false, v7mAllocaThreadContext, Function.update_self]

theorem Room.le (h : Room p t) {x : Word} (hx : Protected p t x) :
    32 ≤ (x - (t.mem (miPsp p.thread) - 32)).toNat := by
  by_contra hlt
  exact h x (Nat.not_le.mp hlt) hx

theorem Asleep.expire (h : Asleep L p f s es t)
    (hs : (p.ktop - s.mem p.thread).toNat ≤ (miPsp p.thread - s.mem p.thread).toNat) {e : Sigevent}
    (hcurr : p.thread ≠ currentThreadInfo t) (hroom : Room p t) :
    Asleep L p f s (es ++ [e]) (doSigevent L e p.thread t) := by
  have hmem := doSigevent_mem (L := L) (e := e) hcurr
  have hkept : ∀ x, Protected p t x → x ≠ miPsp p.thread → (doSigevent L e p.thread t).mem x = t.mem x := by
    intro x hx hne
    rw [hmem, ThreadContextRegs.words_of_le _ _ (hroom.le hx), Function.update_of_ne hne]
  have hpsp : (doSigevent L e p.thread t).mem (miPsp p.thread) = t.mem (miPsp p.thread) - 32 := by
    rw [hmem, ThreadContextRegs.words_of_le _ _ (hroom.le (.inr (.inl rfl))), Function.update_self]
  have hmsp : (doSigevent L e p.thread t).mem p.thread = t.mem p.thread := by
    refine hkept _ (.inl rfl) ?_
    unfold miPsp
    exact fun heq => absurd (left_eq_add.mp heq) (by decide)
  -- the stack grows by the frame, and does not reach around to its top
  have hgrow : (p.top - (t.mem (miPsp p.thread) - 32)).toNat = (p.top - t.mem (miPsp p.thread)).toNat + 32 := by
    have hfull : ¬ (t.mem (miPsp p.thread) - 32 - t.mem (miPsp p.thread)).toNat ≤
        (p.top - t.mem (miPsp p.thread)).toNat :=
      fun hle => hroom _ (by simp) (.inr (.inr (.inr hle)))
    bv_omega
  have hmach : (miPsp p.thread - (t.mem (miPsp p.thread) - 32)).toNat =
      (miPsp p.thread - t.mem (miPsp p.thread)).toNat + 32 := by
    have hle := hroom.le (.inr (.inl rfl))
    bv_omega
  have hmach' := h.mach
  refine ⟨hmsp.trans h.msp, fun x hx => ?_, ?_, ?_, ?_⟩
  · have hne : x ≠ miPsp p.thread := by
      rintro rfl
      omega
    rw [hkept x (.inr (.inr (.inl (by rwa [h.msp])))) hne, h.kernel x hx]
  · rw [hpsp]
    refine (h.stacked.congr fun x hx => hkept x (.inr (.inr (.inr hx.le))) ?_).push ?_ hgrow
    · rintro rfl
      omega
    · rw [hmem]
      exact ThreadContextRegs.load_words _ _ _
  · rw [hpsp]
    omega
  · rw [hpsp, ← h.msp]
    by_contra hlt
    exact hroom _ (by simp) (.inr (.inr (.inl (Nat.not_le.mp hlt))))

theorem Sleeps.asleep (hs : Start L p f es s) (h : Sleeps L p s fs t) : Asleep L p f s (es ++ fs) t := by
  induction h with
  | refl =>
    rw [List.append_nil]
    exact hs.asleep
  | others _ hu ih => exact ih.others hu
  | expire _ _ hcurr hroom ih =>
    rw [← List.append_assoc]
    exact ih.expire hs.kernel hcurr hroom

/-- Without an event the stack pointer is the one of the exception. -/
theorem Stacked.eq_of_nil (h : Stacked L p.top f [] m a) {b : Word} (htop : p.top = b + 32) : a = b := by
  have hoff : p.top - a = 32 := BitVec.eq_of_toNat_eq h.size
  rw [htop, sub_eq_iff_eq_add, add_comm b] at hoff
  exact (add_left_cancel hoff).symm

/-! ## Suspended and resumed -/

/-- The kernel, in `q`, is about to suspend the thread: the words that `switch_to` writes are
apart from each other and from the frames on the user stack. -/
structure Placed (p : Stacks) (q : Cpu) : Prop where
  mode : q.mode = .handler
  kernel : 40 ≤ (p.ktop - (q.msp - 40)).toNat
  mach : ∀ x, x = p.thread ∨ x = miPsp p.thread →
    (p.ktop - (q.msp - 40)).toNat ≤ (x - (q.msp - 40)).toNat ∧ (p.top - q.psp).toNat < (x - q.psp).toNat
  stack : ∀ x, (x - q.psp).toNat < (p.top - q.psp).toNat → (p.ktop - (q.msp - 40)).toNat ≤ (x - (q.msp - 40)).toNat

variable {q : Cpu} {ret : Word}

/-- The ten words that `switch_to` pushes. -/
def pushed (ret : Word) (q : Cpu) : List Word := kernelContext.map q.r ++ [ret]

theorem suspend_mem (h : q.mode = .handler) (thread : Word) :
    (suspend thread ret q).mem =
      storeWords (storeWords q.mem (q.msp - 40) (pushed ret q)) thread [q.msp - 40, q.psp] := by
  have hregs : (kernelContext ++ [Reg.lr]).map ((q.set .r1 thread).set .lr ret).r = pushed ret q := by
    simp [kernelContext, pushed, Cpu.set]
  have hr1 : ((q.set .r1 thread).set .lr ret).r .r1 = thread := by simp [Cpu.set]
  have hmem := saveContext_mem (s := (q.set .r1 thread).set .lr ret) h
  rw [hregs, hr1] at hmem
  exact hmem

theorem suspend_mode (h : q.mode = .handler) : (suspend p.thread ret q).mode = .handler := by
  have h' : ((q.set .r1 p.thread).set .lr ret).mode = .handler := h
  rw [suspend, saveContext, Cpu.push_handler h']
  exact h

theorem suspend_thread (h : q.mode = .handler) : (suspend p.thread ret q).mem p.thread = q.msp - 40 := by
  rw [suspend_mem h]
  simp [storeWords]

theorem suspend_miPsp (h : q.mode = .handler) : (suspend p.thread ret q).mem (miPsp p.thread) = q.psp := by
  rw [suspend_mem h]
  simp [storeWords, miPsp]

/-- The other words. -/
theorem suspend_other (h : q.mode = .handler) {x : Word} (hx : x ≠ p.thread) (hx' : x ≠ miPsp p.thread) :
    (suspend p.thread ret q).mem x = storeWords q.mem (q.msp - 40) (pushed ret q) x := by
  rw [suspend_mem h, storeWords, storeWords, storeWords]
  exact (Function.update_of_ne hx' _ _).trans (Function.update_of_ne hx _ _)

/-- A word of the frames. -/
theorem Placed.suspend_user (h : Placed p q) {x : Word} (hx : (x - q.psp).toNat < (p.top - q.psp).toNat) :
    (suspend p.thread ret q).mem x = q.mem x := by
  have hne : ∀ y, y = p.thread ∨ y = miPsp p.thread → x ≠ y := by
    rintro y hy rfl
    have := (h.mach x hy).2
    omega
  rw [suspend_other h.mode (hne _ (.inl rfl)) (hne _ (.inr rfl)), storeWords_of_le]
  exact h.kernel.trans (h.stack x hx)

theorem Placed.start (h : Placed p q) (hq : Stacked L p.top f es q.mem q.psp) :
    Start L p f es (suspend p.thread ret q) := by
  obtain ⟨hkernel, hmach⟩ := h.mach _ (.inr rfl)
  refine ⟨?_, ?_, ?_, ?_⟩
  · rw [suspend_miPsp h.mode]
    exact hq.congr fun x hx => h.suspend_user hx
  · rw [suspend_miPsp h.mode]
    exact hmach
  · rw [suspend_thread h.mode]
    exact hkernel
  · rw [suspend_thread h.mode, suspend_miPsp h.mode]
    refine h.stack _ ?_
    rw [sub_self, hq.size]
    exact Nat.mul_pos (by decide) (Nat.succ_pos _)

/-- A word of the kernel stack above what `switch_to` has pushed. -/
theorem Placed.suspend_kernel (h : Placed p q) {x : Word} (hx : 40 ≤ (x - (q.msp - 40)).toNat)
    (hk : (x - (q.msp - 40)).toNat < (p.ktop - (q.msp - 40)).toNat) :
    (suspend p.thread ret q).mem x = q.mem x := by
  have hne : ∀ y, y = p.thread ∨ y = miPsp p.thread → x ≠ y := by
    rintro y hy rfl
    have := (h.mach x hy).1
    omega
  rw [suspend_other h.mode (hne _ (.inl rfl)) (hne _ (.inr rfl)), storeWords_of_le]
  exact hx

/-- **Resumption.** The thread is back in the kernel with its registers, on a user stack that
has one frame more for each event. -/
theorem Placed.resume_spec (h : Placed p q) (hret : ret.getLsbD 0 = true) (hexc : ret ≠ 0xFFFFFFFD)
    (ht : Asleep L p f (suspend p.thread ret q) es t) (hmode : t.mode = .handler) :
    ∃ u, resume p.thread t = some u ∧ u.mode = .handler ∧ u.msp = q.msp ∧ u.psp = t.mem (miPsp p.thread) ∧
      u.mem = t.mem ∧ ∀ rd ∈ calleeSaved, u.r rd = q.r rd := by
  have hword : ∀ i v, (pushed ret q)[i]? = some v → t.mem (q.msp - 40 + BitVec.ofNat 32 (4 * i)) = v := by
    intro i v hi
    have hlen : i < 10 := (List.getElem?_eq_some_iff.mp hi).1
    have hoff : (q.msp - 40 + BitVec.ofNat 32 (4 * i) - (q.msp - 40)).toNat = 4 * i :=
      toNat_add_sub _ (by omega)
    have hkernel := h.kernel
    have hne : ∀ y, y = p.thread ∨ y = miPsp p.thread → q.msp - 40 + BitVec.ofNat 32 (4 * i) ≠ y := by
      rintro y hy rfl
      have := (h.mach _ hy).1
      omega
    have hsame := ht.kernel (q.msp - 40 + BitVec.ofNat 32 (4 * i)) (by rw [suspend_thread h.mode]; omega)
    rw [hsame, suspend_other h.mode (hne _ (.inl rfl)) (hne _ (.inr rfl))]
    exact storeWords_apply q.mem (by simp [pushed, kernelContext]) hi
  have hmsp : t.mem p.thread = q.msp - 40 := ht.msp.trans (suspend_thread h.mode)
  have hctx : ∀ i rd, kernelContext[i]? = some rd → t.mem (q.msp - 40 + BitVec.ofNat 32 (4 * i)) = q.r rd := by
    intro i rd hi
    refine hword i _ ?_
    rw [pushed, List.getElem?_append_left, List.getElem?_map, hi, Option.map_some]
    rw [List.length_map]
    exact (List.getElem?_eq_some_iff.mp hi).1
  have hr0 : (t.set .r0 p.thread).r .r0 = p.thread := by simp [Cpu.set]
  have hpsp : (t.set .r0 p.thread).mem (p.thread + 4) = t.mem (miPsp p.thread) := rfl
  have hlast : t.mem (q.msp - 40 + 36) = ret := by
    have hnine := hword 9 ret (by simp [pushed, kernelContext])
    rwa [show BitVec.ofNat 32 (4 * 9) = (36 : Word) by decide] at hnine
  obtain ⟨u, hu, humode, humsp, hupsp, humem, hur⟩ := threadRestore_spec (s := t.set .r0 p.thread)
    hmode hr0 hmsp hpsp hctx hlast hret hexc
  refine ⟨u, hu, humode, humsp.trans (sub_add_cancel _ _), hupsp, humem, fun rd hrd => hur rd ?_⟩
  revert rd
  decide

/-! ## The notifications -/

theorem sigeventContext_notifies (e : Sigevent) : Notifies L (sigeventContext L e) := by
  refine ⟨rfl, ?_⟩
  simp [sigeventContext]

variable {fns : Word → Cpu → Cpu} {e : Sigevent}

/-- The call that an event asks for. -/
def notification (e : Sigevent) : Word × Word := (e.notifyFunction &&& ~~~1, e.sivalInt)

theorem Stacked.head (h : Stacked L p.top f (es ++ [e]) m a) : ThreadContextRegs.load m a = sigeventContext L e := by
  have hframes := h.frames
  rw [List.map_append, List.reverse_append] at hframes
  exact hframes.1

/-- From the frame of the latest event, `e`, on: `y` is the state behind the exception return
to it. -/
theorem Stacked.unwind (ht : Stacked L p.top f (es ++ [e]) m a) (hf : ∀ b, Respects (stackWords 0 p.top) (fns b))
    {y : Cpu}
    (hmode : y.mode = .thread) (hlr : y.r .lr = L.returnFromSighandler ||| 1) (hpsp : y.psp = a + 32)
    (hmem : ∀ x, 32 ≤ (x - a).toNat → (x - a).toNat < (p.top - a).toNat → y.mem x = m x) :
    ∃ w, handles L fns (es.length + 1) y = some ((y.pc, y.r .r0) :: (es.map notification).reverse, w) ∧
      Popped f (32 * (es.length + 1)) p.top y w ∧ w.psp = p.top := by
  have htop := ht.size
  rw [List.length_append, List.length_singleton] at htop
  have hframes := ht.frames
  rw [List.map_append, List.reverse_append] at hframes
  have htop' : (p.top - y.psp).toNat = 32 * (es.length + 1) := by
    have hoff := offset_add (x := p.top) (a := a) (k := 32) (by omega)
    rw [hpsp]
    exact hoff.trans (by omega)
  have hkept : Agree m y.mem y.psp (32 * (es.length + 1)) := by
    intro x hx
    have hlt := (p.top - a).isLt
    have hoff := offset_of_add (x := x) (a := a) (k := 32) (by
      rw [hpsp] at hx
      change (x - (a + 32)).toNat + 32 < 2 ^ 32
      omega)
    rw [hpsp] at hx
    refine hmem x (by omega) ?_
    rw [hoff]
    change (x - (a + 32)).toNat + 32 < _
    omega
  have hframes' : Frames y.mem y.psp ((es.map (sigeventContext L)).reverse ++ [f]) := by
    have habove := hframes.2
    rw [← hpsp] at habove
    exact habove.congr hkept (by simp)
  have hlen : (es.map (sigeventContext L)).reverse.length = es.length := by simp
  obtain ⟨w, hw, hpopped⟩ := handles_popped hf hmode hlr (fun g hg => by
    obtain ⟨e', -, rfl⟩ := List.mem_map.mp (List.mem_reverse.mp hg)
    exact sigeventContext_notifies e') hframes' (by rw [hlen, htop'])
  rw [hlen] at hw hpopped
  have hcalls : (es.map (sigeventContext L)).reverse.map (fun g => (g.retAddr, g.r0)) =
      (es.map notification).reverse := by
    rw [List.map_reverse, List.map_map]
    rfl
  refine ⟨w, by rw [hw, hcalls], hpopped, ?_⟩
  have hzero := offset_add (x := p.top) (a := y.psp) (k := 32 * (es.length + 1)) htop'.ge
  rw [← hpopped.psp, htop', Nat.sub_self] at hzero
  exact (sub_eq_zero.mp (BitVec.eq_of_toNat_eq hzero)).symm

/-- Without an event the hardware pops its own frame. -/
theorem exceptionReturn_resumed {c u : Cpu} (hpsp : u.psp = (exceptionEntry c).psp)
    (hload : ThreadContextRegs.load u.mem u.psp = stackedContext c)
    (hsaved : ∀ rd ∈ calleeSaved, u.r rd = c.r rd) : Resumed c (exceptionReturn u) (c.r .r0) := by
  refine ⟨?_, ?_, fun rd hrd => ?_, ?_, ?_⟩
  · exact congrArg ThreadContextRegs.retAddr hload
  · exact congrArg ThreadContextRegs.r0 hload
  · have hregs : (exceptionReturn u).r rd = (stackedContext c).regs u.r rd := by rw [← hload]; rfl
    rw [hregs]
    by_cases hs : rd ∈ calleeSaved
    · rw [ThreadContextRegs.regs_saved _ _ hs, hsaved rd hs]
    · cases rd <;> first | rfl | exact absurd rfl hrd | exact absurd (by decide) hs
  · have hxpsr : (exceptionReturn u).xpsr = (stackedContext c).xpsr &&& ~~~0x200 := by rw [← hload]; rfl
    have hmask : (~~~0x200 : Word) &&& 0xF8000000 = 0xF8000000 := by decide
    rw [Cpu.flags, hxpsr, BitVec.and_assoc, hmask, stackedContext_flags]
  · refine exceptionReturn_psp hpsp ?_
    rw [hload]
    exact stackedContext_bit c

variable {c : Cpu}

/-- The frame of the exception, on a stack without events. -/
theorem stacked_exceptionEntry (htop : p.top = (exceptionEntry c).psp + 32) :
    Stacked L p.top (stackedContext c) [] (exceptionEntry c).mem (exceptionEntry c).psp := by
  refine ⟨⟨load_exceptionEntry c, trivial⟩, ?_⟩
  rw [htop, add_sub_cancel_left]
  rfl

/-- **Timer events for a preempted thread.** -/
theorem preempted_resumed_iff (h : Placed p (exceptionEntry c)) (htop : p.top = (exceptionEntry c).psp + 32)
    (hret : ret.getLsbD 0 = true) (hexc : ret ≠ 0xFFFFFFFD)
    (ht : Sleeps L p (suspend p.thread ret (exceptionEntry c)) es t) (hmode : t.mode = .handler)
    (hf : ∀ a, Respects (stackWords 0 p.top) (fns a)) (heven : c.pc.getLsbD 0 = false)
    (haligned : c.psp.toNat % 4 = 0) :
    ∃ u w, resume p.thread t = some u ∧
      handles L fns es.length (exceptionReturn u) = some ((es.map notification).reverse, w) ∧
      (Resumed c w (c.r .r0) ↔ es = [] ∨ c.psp.toNat % 8 = 0) := by
  have hasleep := ht.asleep (h.start (stacked_exceptionEntry htop))
  obtain ⟨u, hu, -, -, hupsp, humem, hur⟩ := h.resume_spec hret hexc hasleep hmode
  have hstacked : Stacked L p.top (stackedContext c) es u.mem u.psp := by
    rw [humem, hupsp]
    exact hasleep.stacked
  have hsaved : ∀ rd ∈ calleeSaved, u.r rd = c.r rd := by
    intro rd hrd
    rw [hur rd hrd]
    refine Function.update_of_ne ?_ _ _
    rintro rfl
    exact absurd hrd (by decide)
  rcases List.eq_nil_or_concat es with rfl | ⟨es, e, rfl⟩
  · refine ⟨u, exceptionReturn u, hu, rfl, iff_of_true ?_ (.inl rfl)⟩
    exact exceptionReturn_resumed (hstacked.eq_of_nil htop) hstacked.frames.1 hsaved
  · rw [List.concat_eq_append] at *
    have hhead := hstacked.head
    have hback := exceptionReturn_staged (s := u) (by rw [hhead]; rfl)
    rw [hhead] at hback
    obtain ⟨w, hw, hpopped, hwtop⟩ := hstacked.unwind hf (y := exceptionReturn u) (by rw [hback]) (by rw [hback]; rfl)
      (by rw [hback]) (fun x _ _ => by rw [hback])
    refine ⟨u, w, hu, ?_, ?_⟩
    · rw [List.length_append, List.length_singleton, hw, hback, List.map_append, List.reverse_append]
      rfl
    · rw [or_iff_right (by simp)]
      refine Signal.resumed_iff (c.r .r0) hpopped (fun rd hrd => ?_) (by rw [hwtop, htop]) heven haligned
      rw [hback]
      exact (ThreadContextRegs.regs_saved _ _ hrd).trans (hsaved rd hrd)

/-- The thread `c` was preempted, and until it is resumed in `t` the events `es` have
occurred. -/
structure Preempted (L : Labels) (p : Stacks) (c : Cpu) (ret : Word) (es : List Sigevent) (t : Cpu) : Prop where
  placed : Placed p (exceptionEntry c)
  top : p.top = (exceptionEntry c).psp + 32
  thumb : ret.getLsbD 0 = true
  ne_exc : ret ≠ 0xFFFFFFFD
  sleeps : Sleeps L p (suspend p.thread ret (exceptionEntry c)) es t
  mode : t.mode = .handler
  even : c.pc.getLsbD 0 = false
  aligned : c.psp.toNat % 4 = 0

/-- **Delivery.** A signal or timer events are transparent to the thread exactly when its
stack pointer was a multiple of eight. -/
theorem delivery_transparent_iff (L : Labels) (fns : Word → Cpu → Cpu) :
    (∀ rom kfns act s, Kill L rom kfns act s →
      Respects (stackWords (ownBytes act) ((svc s).psp + 32)) (fns (act.handler &&& ~~~1)) →
      ∃ y w, svcall rom kfns (svc s) = some y ∧ handles L fns 1 y = some ([(act.handler &&& ~~~1, s.r .r1)], w) ∧
        (Resumed { s with pc := s.pc + 2 } w 0 ↔ s.psp.toNat % 8 = 0)) ∧
    ∀ p c ret es t, Preempted L p c ret es t → es ≠ [] → (∀ a, Respects (stackWords 0 p.top) (fns a)) →
      ∃ u w, resume p.thread t = some u ∧
        handles L fns es.length (exceptionReturn u) = some ((es.map notification).reverse, w) ∧
        (Resumed c w (c.r .r0) ↔ c.psp.toNat % 8 = 0) := by
  refine ⟨fun rom kfns act s h hf => h.resumed_iff hf, fun p c ret es t h hes hf => ?_⟩
  obtain ⟨u, w, hu, hw, hiff⟩ :=
    preempted_resumed_iff h.placed h.top h.thumb h.ne_exc h.sleeps h.mode hf h.even h.aligned
  exact ⟨u, w, hu, hw, hiff.trans (or_iff_right hes)⟩

/-- Addresses for the two labels, and the stacks of a thread whose frame is at `0x20000FE0`. -/
def labels : Labels := ⟨0x6000, 0x7000, by decide, by decide, by decide⟩

def threadStacks : Stacks := ⟨0x20000000, 0x20000200, 0x20001000⟩

/-- A function that returns at once. -/
def returning (_ : Word) (s : Cpu) : Cpu := { s with pc := s.r .lr }

theorem respects_returning (callers : Cpu → Word → Prop) (a : Word) : Respects callers (returning a) :=
  ⟨fun _ => rfl, fun _ => rfl, fun _ => rfl, fun _ => rfl, fun _ _ _ => rfl, fun _ _ _ => rfl⟩

/-- The event `e` occurs while another thread is in the kernel. -/
def fired (e : Sigevent) (q : Cpu) : Cpu :=
  doSigevent labels e threadStacks.thread { suspend threadStacks.thread 0x9001 q with msp := 0x20003000 }

theorem placed_stacks (hmode : q.mode = .handler) (hpsp : q.psp = 0x20000FE0) (hlow : 0x20000100 ≤ q.msp.toNat)
    (hhigh : q.msp.toNat ≤ 0x20000200) : Placed threadStacks q := by
  refine ⟨hmode, ?_, ?_, ?_⟩
  · simp only [threadStacks]
    bv_omega
  · intro x hx
    rw [hpsp]
    simp only [threadStacks, miPsp] at hx ⊢
    rcases hx with rfl | rfl
    · constructor <;> bv_omega
    · constructor <;> bv_omega
  · intro x hx
    rw [hpsp] at hx
    simp only [threadStacks] at hx ⊢
    bv_omega

theorem sleeps_fired (e : Sigevent) (h : Placed threadStacks q) (hpsp : q.psp = 0x20000FE0)
    (hlow : 0x20000100 ≤ q.msp.toNat)
    (hhigh : q.msp.toNat ≤ 0x20000200) :
    Sleeps labels threadStacks (suspend threadStacks.thread 0x9001 q) [e] (fired e q) := by
  have hother : Sleeps labels threadStacks (suspend threadStacks.thread 0x9001 q) []
      { suspend threadStacks.thread 0x9001 q with msp := 0x20003000 } := Sleeps.refl.others fun _ _ => rfl
  have hthread : (suspend threadStacks.thread 0x9001 q).mem threadStacks.thread = q.msp - 40 := suspend_thread h.mode
  have hmiPsp : (suspend threadStacks.thread 0x9001 q).mem (miPsp threadStacks.thread) = 0x20000FE0 :=
    (suspend_miPsp h.mode).trans hpsp
  refine hother.expire e ?_ ?_
  · have hmode : (suspend threadStacks.thread 0x9001 q).mode = .handler := suspend_mode h.mode
    simp only [currentThreadInfo, Cpu.sp, hmode]
    decide
  · intro x hx hprotected
    simp only [Protected, hthread, hmiPsp] at hx hprotected
    simp only [threadStacks, miPsp] at hprotected
    rcases hprotected with rfl | rfl | hkernel | hstack
    · exact absurd hx (by decide)
    · exact absurd hx (by decide)
    · bv_omega
    · bv_omega

theorem delivery_transparent_iff_aligned :
    (∃ y w, svcall (stubOf 2) (fun _ => sysKill labels ⟨0x8001, 1⟩) (svc (caller 0x20001000)) = some y ∧
      handles labels returning 1 y = some ([(0x8000, 0)], w) ∧ Resumed { caller 0x20001000 with pc := 0x102 } w 0) ∧
    ∃ u w, resume threadStacks.thread (fired ⟨7, 0x8001⟩ (exceptionEntry (caller 0x20001000))) = some u ∧
      handles labels returning 1 (exceptionReturn u) = some ([(0x8000, 7)], w) ∧
      Resumed (caller 0x20001000) w 0 := by
  obtain ⟨hsignal, htimer⟩ := delivery_transparent_iff labels returning
  have hkill : Kill labels (stubOf 2) (fun _ => sysKill labels ⟨0x8001, 1⟩) ⟨0x8001, 1⟩ (caller 0x20001000) :=
    ⟨stub_caller (by decide) (by decide), rfl, by decide, by decide, by decide, by decide, by decide⟩
  have hplaced : Placed threadStacks (exceptionEntry (caller 0x20001000)) :=
    placed_stacks rfl (by decide) (by decide) (by decide)
  have hpreempted : Preempted labels threadStacks (caller 0x20001000) 0x9001 [⟨7, 0x8001⟩]
      (fired ⟨7, 0x8001⟩ (exceptionEntry (caller 0x20001000))) :=
    ⟨hplaced, by decide, by decide, by decide, sleeps_fired _ hplaced (by decide) (by decide) (by decide),
      suspend_mode rfl, by decide, by decide⟩
  obtain ⟨y, w, hy, hw, hiff⟩ := hsignal _ _ _ _ hkill (respects_returning _ _)
  obtain ⟨u, w', hu, hw', hiff'⟩ := htimer _ _ _ _ _ hpreempted (by simp) (respects_returning _)
  exact ⟨⟨y, w, hy, hw, hiff.mpr (by decide)⟩, u, w', hu, hw', hiff'.mpr (by decide)⟩

/-- A handler with a `siginfo_t`, for a thread whose stack pointer is not a multiple of
eight: it comes back four bytes lower. -/
theorem unaligned_sp_lost :
    Kill labels (stubOf 2) (fun _ => sysKill labels ⟨0x8001, 1⟩) ⟨0x8001, 1⟩ (caller 0x20001004) ∧
      (∀ callers a, Respects callers (returning a)) ∧
      ∃ y calls w, svcall (stubOf 2) (fun _ => sysKill labels ⟨0x8001, 1⟩) (svc (caller 0x20001004)) = some y ∧
        handles labels returning 1 y = some (calls, w) ∧
        ¬ Resumed { caller 0x20001004 with pc := 0x102 } w 0 := by
  refine ⟨⟨stub_caller (by decide) (by decide), rfl, by decide, by decide, by decide, by decide, by decide⟩,
    respects_returning, ?_⟩
  have hsp : ((svcall (stubOf 2) (fun _ => sysKill labels ⟨0x8001, 1⟩) (svc (caller 0x20001004))).bind fun y =>
      (handles labels returning 1 y).map fun r => r.2.psp) = some 0x20001000 := by decide +kernel
  obtain ⟨y, hy, hmap⟩ := Option.bind_eq_some_iff.mp hsp
  obtain ⟨⟨calls, w⟩, hw, hpsp⟩ := Option.map_eq_some_iff.mp hmap
  refine ⟨y, calls, w, hy, hw, fun h => ?_⟩
  have hsame := h.sp
  rw [show w.psp = 0x20001000 from hpsp] at hsame
  exact absurd hsame (by decide)

/-! ## A system call that blocks -/

variable {rom : Rom} {n : ℕ} {t₀ u v : Cpu}

/-- The system call of `s`, entered in `t₀`: the kernel stack begins with what `svcall` pushes,
and the frame of the exception is the only one on the user stack. -/
structure Called (rom : Rom) (n : ℕ) (p : Stacks) (s t₀ : Cpu) : Prop where
  stub : Stub rom n s
  enter : svcallEnter rom (svc s) = some (n, t₀)
  ktop : p.ktop = s.msp
  top : p.top = t₀.psp + 32

/-- The handler runs from `u` to `v`. It may write to its own part of the kernel stack, and to
all the rest but the link that `svcall` has pushed and the frames on the user stack. -/
structure RunsOn (p : Stacks) (u v : Cpu) : Prop where
  mode : v.mode = u.mode
  psp : v.psp = u.psp
  link : v.mem (p.ktop - 4) = u.mem (p.ktop - 4)
  stack : ∀ x, (x - u.psp).toNat < (p.top - u.psp).toNat → v.mem x = u.mem x

/-- In `q` the handler calls `switch_to`, from which it goes on at `ret`. -/
structure Blocks (p : Stacks) (t₀ : Cpu) (ret : Word) (q : Cpu) : Prop where
  placed : Placed p q
  deeper : (t₀.msp - q.msp).toNat < 2 ^ 31
  thumb : ret.getLsbD 0 = true
  ne_exc : ret ≠ 0xFFFFFFFD

/-- The handler, entered in `t₀`, runs in `q`. It may have been suspended before, and while it
was, the events `es` have occurred. -/
inductive InCall (L : Labels) (p : Stacks) (t₀ : Cpu) : List Sigevent → Cpu → Prop
  | entered {q : Cpu} (hq : RunsOn p t₀ q) : InCall L p t₀ [] q
  | resumed {es fs : List Sigevent} {ret : Word} {q t u v : Cpu} (h : InCall L p t₀ es q) (hq : Blocks p t₀ ret q)
      (ht : Sleeps L p (suspend p.thread ret q) fs t) (hmode : t.mode = .handler)
      (hu : resume p.thread t = some u) (hv : RunsOn p u v) : InCall L p t₀ (es ++ fs) v

/-- The handler, back from its last suspension in `u`, returns in `v`. -/
structure Returns (p : Stacks) (t₀ u v : Cpu) : Prop extends RunsOn p u v where
  msp : v.msp = t₀.msp

/-- What stays of the system call while its handler runs. -/
structure InKernel (L : Labels) (p : Stacks) (s : Cpu) (es : List Sigevent) (q : Cpu) : Prop where
  mode : q.mode = .handler
  link : q.mem (p.ktop - 4) = 0xFFFFFFFD
  stacked : Stacked L p.top (stackedContext { s with pc := s.pc + 2 }) es q.mem q.psp

theorem Called.entered (h : Called rom n p s t₀) : Entered rom n s t₀ := by
  obtain ⟨t', hent, ht⟩ := h.stub.enter
  rw [h.enter] at hent
  obtain rfl : t₀ = t' := (Prod.mk.inj (Option.some.inj hent)).2
  exact ht

theorem Called.inKernel (h : Called rom n p s t₀) : InKernel L p s [] t₀ := by
  have ht₀ := h.entered
  refine ⟨ht₀.mode, by rw [h.ktop]; exact ht₀.link, ⟨⟨?_, trivial⟩, ?_⟩⟩
  · rw [ht₀.psp, ThreadContextRegs.load_congr ((h.stub.agree ht₀.mem).mono (by decide)), load_svc]
  · rw [h.top, add_sub_cancel_left]
    rfl

theorem InKernel.runsOn (h : InKernel L p s es u) (hv : RunsOn p u v) : InKernel L p s es v := by
  refine ⟨hv.mode.trans h.mode, hv.link.trans h.link, ?_⟩
  rw [hv.psp]
  exact h.stacked.congr hv.stack

/-- The link is above what `switch_to` pushes. -/
theorem Blocks.link_above (hq : Blocks p t₀ ret q) (h : Called rom n p s t₀) :
    40 ≤ (p.ktop - 4 - (q.msp - 40)).toNat ∧
      (p.ktop - 4 - (q.msp - 40)).toNat + 4 = (p.ktop - (q.msp - 40)).toNat := by
  have hle := h.stub.le_six
  have hstack : (BitVec.ofNat 32 (4 * onStack n)).toNat ≤ 8 := by
    unfold onStack
    rw [BitVec.toNat_ofNat]
    omega
  have hmsp := h.entered.msp
  have hdeeper := hq.deeper
  rw [h.ktop]
  generalize BitVec.ofNat 32 (4 * onStack n) = args at hstack hmsp
  constructor <;> bv_omega

/-- **A suspension.** The thread is resumed in the kernel, with the frames of the events that
have occurred, and above them those that were there. -/
theorem InKernel.resumes (h : InKernel L p s es q) (h₀ : Called rom n p s t₀) (hq : Blocks p t₀ ret q)
    (ht : Sleeps L p (suspend p.thread ret q) fs t) (hmode : t.mode = .handler) :
    ∃ u, resume p.thread t = some u ∧ InKernel L p s (es ++ fs) u ∧ p.ktop - 4 ≠ u.psp := by
  have hasleep := ht.asleep (hq.placed.start h.stacked)
  obtain ⟨habove, hlast⟩ := hq.link_above h₀
  obtain ⟨u, hu, humode, -, hupsp, humem, -⟩ := hq.placed.resume_spec hq.thumb hq.ne_exc hasleep hmode
  refine ⟨u, hu, ⟨humode, ?_, ?_⟩, ?_⟩
  · have hlink := hasleep.kernel (p.ktop - 4) (by rw [suspend_thread h.mode]; omega)
    rw [humem, hlink, hq.placed.suspend_kernel habove (by omega)]
    exact h.link
  · rw [humem, hupsp]
    exact hasleep.stacked
  · rw [hupsp]
    intro heq
    have hapart := hasleep.apart
    rw [← heq, suspend_thread h.mode] at hapart
    omega

/-- **Every suspension** of the call, by induction on their number. -/
theorem InCall.inKernel (h : InCall L p t₀ es q) (h₀ : Called rom n p s t₀) : InKernel L p s es q := by
  induction h with
  | entered hq => exact h₀.inKernel.runsOn hq
  | resumed _ hq ht hmode hu hv ih =>
    obtain ⟨u', hu', hin, -⟩ := ih.resumes h₀ hq ht hmode
    obtain rfl := Option.some.inj (hu.symm.trans hu')
    exact hin.runsOn hv

/-- The notifications have been called with the values of the events, and the caller of the
system call gets its result. -/
def Undisturbed (es : List Sigevent) (calls : List (Word × Word)) (result : Word) (w : Cpu) : Prop :=
  calls = (es.map notification).reverse ∧ w.r .r0 = result

/-- The frame of an event on top takes the result in its `r0`, and its function is called with it. -/
theorem epilogue_event (hn : n ≤ 6) (hmode : v.mode = .handler)
    (hmsp : v.msp = s.msp - 4 - BitVec.ofNat 32 (4 * onStack n))
    (hlink : v.mem (s.msp - 4) = 0xFFFFFFFD) (hne : s.msp - 4 ≠ v.psp)
    (hhead : ThreadContextRegs.load v.mem v.psp = sigeventContext L e) :
    epilogue n v = some { v with
      r := ({ sigeventContext L e with r0 := v.r .r0 } : ThreadContextRegs).regs
        (Function.update (epilogueRegs n v) .r1 v.psp)
      msp := s.msp - 4 + 4
      psp := v.psp + 32
      pc := e.notifyFunction &&& ~~~1
      xpsr := xpsrT
      mode := .thread
      mem := Function.update v.mem v.psp (v.r .r0) } := by
  have hr0 : epilogueRegs n v .r0 = v.r .r0 := by
    unfold epilogueRegs
    split <;> simp
  have hfake : ThreadContextRegs.load (Function.update v.mem v.psp (v.r .r0)) v.psp =
      { sigeventContext L e with r0 := v.r .r0 } := by
    rw [load_update, hhead]
  have hreturn := syscallReturn_eq (s := { v with r := epilogueRegs n v, msp := s.msp - 4 }) hmode hlink hne
  simp only [hr0] at hreturn
  have hback := exceptionReturn_staged (s := { v with
    r := Function.update (epilogueRegs n v) .r1 v.psp
    msp := s.msp - 4 + 4
    mem := Function.update v.mem v.psp (v.r .r0) }) (by rw [hfake]; rfl)
  rw [hfake] at hback
  rw [epilogue_eq hn hmode hmsp, hreturn, hback]
  rfl

/-- **Events for a thread in a system call.** `syscall_return` writes the result into the
frame of the latest event. -/
theorem blocked_undisturbed_iff (fns : Word → Cpu → Cpu) (h₀ : Called rom n p s t₀) (h : InCall L p t₀ es q)
    (hq : Blocks p t₀ ret q) (ht : Sleeps L p (suspend p.thread ret q) fs t) (hmode : t.mode = .handler)
    (hf : ∀ a, Respects (stackWords 0 p.top) (fns a)) :
    ∃ u, resume p.thread t = some u ∧ ∀ v, Returns p t₀ u v →
      ∃ y calls w, epilogue n v = some y ∧ handles L fns (es ++ fs).length y = some (calls, w) ∧
        (Undisturbed (es ++ fs) calls (v.r .r0) w ↔
          ∀ e, (es ++ fs).getLast? = some e → e.sivalInt = v.r .r0 ∧ s.r .r0 = v.r .r0) := by
  have ht₀ := h₀.entered
  obtain ⟨u, hu, hin, hne⟩ := (h.inKernel h₀).resumes h₀ hq ht hmode
  refine ⟨u, hu, fun v hv => ?_⟩
  obtain ⟨hvmode, hlink, hstacked⟩ := hin.runsOn hv.toRunsOn
  have hvmsp := hv.msp.trans ht₀.msp
  rw [← hv.psp, h₀.ktop] at hne
  rw [h₀.ktop] at hlink
  rcases List.eq_nil_or_concat (es ++ fs) with hnil | ⟨gs, e, hlast⟩
  · rw [hnil] at hstacked ⊢
    have hpsp : v.psp = (svc s).psp := (hstacked.eq_of_nil h₀.top).trans ht₀.psp
    obtain ⟨w, hw, hleft, -⟩ := h₀.stub.epilogue_left
      ⟨hvmode, hpsp, hvmsp, hlink, by rw [← hpsp]; exact hstacked.frames.1⟩
    refine ⟨w, [], w, hw, rfl, iff_of_true ⟨rfl, hleft.r0⟩ fun e he => ?_⟩
    cases he
  · rw [List.concat_eq_append] at hlast
    rw [hlast] at hstacked ⊢
    rw [epilogue_event h₀.stub.le_six hvmode hvmsp hlink hne hstacked.head]
    obtain ⟨w, hw, hpopped, -⟩ := hstacked.unwind hf (y := { v with
      r := ({ sigeventContext L e with r0 := v.r .r0 } : ThreadContextRegs).regs
        (Function.update (epilogueRegs n v) .r1 v.psp)
      msp := s.msp - 4 + 4
      psp := v.psp + 32
      pc := e.notifyFunction &&& ~~~1
      xpsr := xpsrT
      mode := .thread
      mem := Function.update v.mem v.psp (v.r .r0) }) rfl rfl rfl fun x hlow _ => by
        refine Function.update_of_ne ?_ _ _
        rintro rfl
        rw [sub_self] at hlow
        exact absurd hlow (by decide)
    refine ⟨_, _, w, rfl, by rw [List.length_append, List.length_singleton]; exact hw, ?_⟩
    have hwr0 : w.r .r0 = s.r .r0 := by
      rw [hpopped.regs]
      rfl
    have hcalls : (e.notifyFunction &&& ~~~1, v.r .r0) :: (gs.map notification).reverse =
        ((gs ++ [e]).map notification).reverse ↔ e.sivalInt = v.r .r0 := by
      simp [notification, eq_comm]
    have hgetLast : (gs ++ [e]).getLast? = some e := by simp
    unfold Undisturbed
    rw [hwr0]
    refine (and_congr_left' hcalls).trans ⟨fun heq e' he' => ?_, fun hall => hall e hgetLast⟩
    rw [hgetLast] at he'
    cases he'
    exact heq

/-- The caller of a system call with one argument. -/
def sleeper (arg : Word) : Cpu := { caller 0x20001000 with r := Function.update (caller 0x20001000).r .r0 arg }

theorem stub_sleeper (arg : Word) : Stub (stubOf 1) 1 (sleeper arg) := by
  have h : Stub (stubOf 1) 1 (caller 0x20001000) := stub_caller (by decide) (by decide)
  exact ⟨h.mode, h.le_six, h.imm, h.back, by simp [stubOf], h.apart⟩

/-- The handler has pushed a word, and calls `switch_to`. -/
def blocking (t₀ : Cpu) : Cpu :=
  { t₀ with msp := t₀.msp - 16, mem := Function.update t₀.mem (t₀.msp - 16) (t₀.r .r4) }

/-- The handler, back from `switch_to`, uses its word for something else and returns `result`. -/
def returned (result : Word) (t₀ u : Cpu) : Cpu :=
  { u with
    msp := t₀.msp
    r := Function.update u.r .r0 result
    mem := Function.update u.mem (t₀.msp - 16) result }

/-- The call of `sleeper` is entered in `t₀`. -/
theorem sleeper_called (arg : Word) : ∃ t₀, Called (stubOf 1) 1 threadStacks (sleeper arg) t₀ ∧
    t₀.mode = .handler ∧ t₀.psp = 0x20000FE0 ∧ t₀.msp = 0x200001FC := by
  obtain ⟨t₀, hent, ht₀⟩ := (stub_sleeper arg).enter
  have hpsp : t₀.psp = 0x20000FE0 := ht₀.psp.trans (show (svc (caller 0x20001000)).psp = 0x20000FE0 by decide)
  have hmsp : t₀.msp = 0x200001FC :=
    ht₀.msp.trans (show (0x20000200 : Word) - 4 - BitVec.ofNat 32 (4 * onStack 1) = 0x200001FC by decide)
  exact ⟨t₀, ⟨stub_sleeper arg, hent, rfl, by rw [hpsp]; rfl⟩, ht₀.mode, hpsp, hmsp⟩

/-- A word of the handler is apart from the link and from the frames. -/
theorem apart_of_word {x : Word} (hmsp : t₀.msp = 0x200001FC)
    (hx : x = threadStacks.ktop - 4 ∨ 0x20000FC0 ≤ x.toNat) : x ≠ t₀.msp - 16 := by
  rw [hmsp]
  rintro rfl
  exact absurd hx (by decide)

/-- The handler gives way for the first time. -/
theorem inCall_blocking (hmode : t₀.mode = .handler) (hpsp : t₀.psp = 0x20000FE0) (hmsp : t₀.msp = 0x200001FC) :
    InCall L threadStacks t₀ [] (blocking t₀) ∧ Blocks threadStacks t₀ 0x9001 (blocking t₀) := by
  have hlow : (blocking t₀).msp = 0x200001EC := by
    rw [blocking, hmsp]
    rfl
  refine ⟨.entered ⟨rfl, rfl, ?_, fun x hx => ?_⟩, ⟨placed_stacks hmode hpsp ?_ ?_, ?_, by decide, by decide⟩⟩
  · exact Function.update_of_ne (apart_of_word hmsp (.inl rfl)) _ _
  · refine Function.update_of_ne (apart_of_word hmsp (.inr ?_)) _ _
    rw [hpsp] at hx
    simp only [threadStacks] at hx
    bv_omega
  all_goals rw [hlow]
  · decide
  · decide
  · rw [hmsp]
    decide

/-- The event `e` occurs meanwhile. -/
theorem sleeps_blocking (e : Sigevent) (hmode : t₀.mode = .handler) (hpsp : t₀.psp = 0x20000FE0)
    (hmsp : t₀.msp = 0x200001FC) :
    Sleeps labels threadStacks (suspend threadStacks.thread 0x9001 (blocking t₀)) [e] (fired e (blocking t₀)) := by
  have hlow : (blocking t₀).msp = 0x200001EC := by
    rw [blocking, hmsp]
    rfl
  exact sleeps_fired e (inCall_blocking (L := labels) hmode hpsp hmsp).2.placed hpsp (by rw [hlow]; decide)
    (by rw [hlow]; decide)

/-- The handler returns after one event. -/
theorem returns_returned (result : Word) (hu : InKernel L threadStacks s [e] u) (hmsp : t₀.msp = 0x200001FC) :
    Returns threadStacks t₀ u (returned result t₀ u) := by
  have hsize : (threadStacks.top - u.psp).toNat = 64 := hu.stacked.size
  refine ⟨⟨rfl, rfl, ?_, fun x hx => ?_⟩, rfl⟩
  · exact Function.update_of_ne (apart_of_word hmsp (.inl rfl)) _ _
  · refine Function.update_of_ne (apart_of_word hmsp (.inr ?_)) _ _
    simp only [threadStacks] at hsize hx
    bv_omega

theorem blocked_undisturbed_iff_same :
    ∃ t₀ u y calls w, Called (stubOf 1) 1 threadStacks (sleeper 0) t₀ ∧
      resume threadStacks.thread (fired ⟨0, 0x8001⟩ (blocking t₀)) = some u ∧
      epilogue 1 (returned 0 t₀ u) = some y ∧ handles labels returning 1 y = some (calls, w) ∧
      Undisturbed [⟨0, 0x8001⟩] calls 0 w := by
  obtain ⟨t₀, hcalled, hmode, hpsp, hmsp⟩ := sleeper_called 0
  obtain ⟨hin, hblocks⟩ := inCall_blocking (L := labels) hmode hpsp hmsp
  have hsleeps := sleeps_blocking ⟨0, 0x8001⟩ hmode hpsp hmsp
  have hfired : (fired ⟨0, 0x8001⟩ (blocking t₀)).mode = .handler := suspend_mode hblocks.placed.mode
  obtain ⟨u, hu, hall⟩ := blocked_undisturbed_iff returning hcalled hin hblocks hsleeps hfired (respects_returning _)
  obtain ⟨u', hu', hkernel, -⟩ := (hin.inKernel hcalled).resumes hcalled hblocks hsleeps hfired
  obtain rfl := Option.some.inj (hu.symm.trans hu')
  obtain ⟨y, calls, w, hy, hw, hiff⟩ := hall _ (returns_returned 0 hkernel hmsp)
  have hr0 : (returned 0 t₀ u).r .r0 = 0 := by simp [returned]
  rw [hr0] at hiff
  refine ⟨t₀, u, y, calls, w, hcalled, hu, hy, hw, hiff.mpr fun e he => ?_⟩
  cases he
  exact ⟨rfl, rfl⟩

/-- `msleep(100)`, which returns 0, and a timer with the value 7: the notification is called
with 0, and the call returns 100. -/
theorem result_in_wrong_frame :
    ∃ t₀ u y calls w, Called (stubOf 1) 1 threadStacks (sleeper 100) t₀ ∧
      InCall labels threadStacks t₀ [] (blocking t₀) ∧ Blocks threadStacks t₀ 0x9001 (blocking t₀) ∧
      Sleeps labels threadStacks (suspend threadStacks.thread 0x9001 (blocking t₀)) [⟨7, 0x8001⟩]
        (fired ⟨7, 0x8001⟩ (blocking t₀)) ∧
      resume threadStacks.thread (fired ⟨7, 0x8001⟩ (blocking t₀)) = some u ∧
      Returns threadStacks t₀ u (returned 0 t₀ u) ∧
      epilogue 1 (returned 0 t₀ u) = some y ∧ handles labels returning 1 y = some (calls, w) ∧
      ¬ Undisturbed [⟨7, 0x8001⟩] calls 0 w := by
  have hrun : ((svcallEnter (stubOf 1) (svc (sleeper 100))).bind fun r =>
      (resume threadStacks.thread (fired ⟨7, 0x8001⟩ (blocking r.2))).bind fun u =>
        (epilogue 1 (returned 0 r.2 u)).bind fun y =>
          (handles labels returning 1 y).map fun c => (c.1, c.2.r .r0)) = some ([(0x8000, 0)], 100) := by
    decide +kernel
  obtain ⟨t₀, hcalled, hmode, hpsp, hmsp⟩ := sleeper_called 100
  rw [hcalled.enter, Option.bind_some] at hrun
  obtain ⟨u, hu, hrun⟩ := Option.bind_eq_some_iff.mp hrun
  obtain ⟨y, hy, hrun⟩ := Option.bind_eq_some_iff.mp hrun
  obtain ⟨⟨calls, w⟩, hw, hcalls⟩ := Option.map_eq_some_iff.mp hrun
  obtain ⟨hin, hblocks⟩ := inCall_blocking (L := labels) hmode hpsp hmsp
  have hsleeps := sleeps_blocking ⟨7, 0x8001⟩ hmode hpsp hmsp
  obtain ⟨u', hu', hkernel, -⟩ :=
    (hin.inKernel hcalled).resumes hcalled hblocks hsleeps (suspend_mode hblocks.placed.mode)
  obtain rfl := Option.some.inj (hu.symm.trans hu')
  refine ⟨t₀, u, y, calls, w, hcalled, hin, hblocks, hsleeps, hu, returns_returned 0 hkernel hmsp, hy, hw, fun h => ?_⟩
  have hr0 : w.r .r0 = 100 := (Prod.mk.inj hcalls).2
  rw [h.2] at hr0
  exact absurd hr0 (by decide)

end

end PikoRT.Arch.Sigevent

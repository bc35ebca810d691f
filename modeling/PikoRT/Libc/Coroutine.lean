import PikoRT.Lib.Run
import PikoRT.Libc.Ucontext

/-! # Coroutines

Contexts are made, swapped and finished in any order, and between these calls any code may run that
leaves alone what the contexts hold and the links on top of their stacks. -/
namespace PikoRT.Libc.Coroutine
open PikoRT.Kernel.Bitops PikoRT.Lib.Run PikoRT.Arch.V7m PikoRT.Libc.Ucontext
open PikoRT.Thread.Context (wordOf)

structure State where
  /-- None after a fault. -/
  cpu : Option Cpu
  slots : Word → Option Origin
  /-- The functions that have started and have not returned. -/
  started : List Made

inductive Act
  | runs (f : Cpu → Cpu)
  | make (ucp func : Word) (args : List Word)
  | swap (oucp ucp : Word)
  /-- The function of a context returns. -/
  | finish (n : Made)
  /-- A context is not used any more. -/
  | drop (ucp : Word)

/-- The arguments of `swapcontext`. -/
def call (oucp ucp : Word) (c : Cpu) : Cpu := (c.set .r0 oucp).set .r1 ucp

namespace State

def put (x : Word) (o : Option Origin) (s : State) : State := { s with slots := Function.update s.slots x o }

/-- Control goes to the context at `x`, if it holds something. -/
def enter (x : Word) (cpu : Option Cpu) (s : State) : Option State :=
  (s.slots x).map fun o => { s with
    cpu := cpu
    started := match o with
      | .made n => n :: s.started
      | .left _ => s.started }

/-- `return_from_makecontext` is to read the link of `n`. -/
def Linked (s : State) (n : Made) : Prop := n ∈ s.started ∨ ∃ x, s.slots x = some (.made n)

end State

def step (ret : Word) (s : State) (a : Act) : Option State :=
  s.cpu.bind fun c => match a with
  | .runs f => some { s with cpu := some (f c) }
  | .make ucp func args =>
    some { s.put ucp (some (.made (newContext ucp func args c.mem))) with
      cpu := some { c with mem := makecontext ret ucp func args c.mem } }
  | .swap oucp ucp => (s.put oucp (some (.left (call oucp ucp c)))).enter ucp (swapcontext (call oucp ucp c))
  | .finish n => State.enter (c.mem (n.ucp + UC_LINK)) (returnFromMakecontext c)
    { s with started := s.started.erase n }
  | .drop ucp => some { s.put ucp none with started := s.started.filter fun n => decide (n.ucp ≠ ucp) }

/-- No context is in use. -/
def start (c : Cpu) : State := ⟨some c, fun _ => none, []⟩

/-! ## What is promised -/

/-- What the contexts hold and the links stay as they are. -/
structure Undisturbed (s : State) (m m' : Mem) : Prop where
  slots : ∀ x, s.slots x ≠ none → ∀ i < 16, mcontext m' x i = mcontext m x i
  links : ∀ n, s.Linked n → m' n.sp = m n.sp

/-- The `ucontext_t` at `x` is an object of its own. -/
structure Own (s : State) (x : Word) : Prop where
  slots : ∀ y, s.slots y ≠ none → Disjoint (struct y) (struct x)
  links : ∀ n, s.Linked n → n.sp ∉ struct x

/-- So is the top of the new stack. -/
structure Fresh (s : State) (n : Made) : Prop extends Own s n.ucp where
  aligned : wordOf n.sp = n.sp
  stack : n.sp ∉ struct n.ucp
  stackSlots : ∀ y, s.slots y ≠ none → n.sp ∉ struct y
  stackLinks : ∀ k, s.Linked k → k.sp ≠ n.sp

/-- `swapcontext` is called, from Thumb code. -/
structure Calls (c : Cpu) : Prop where
  aligned : wordOf c.sp = c.sp
  thumb : (c.r .lr).getLsbD 0 = true

/-- Objects and stacks are disjoint, and functions return with the stack pointer that they were started with. -/
def Promised (s : State) (a : Act) : Prop :=
  ∀ c, s.cpu = some c → match a with
  | .runs f => Undisturbed s c.mem (f c).mem
  | .make ucp func args => Fresh (s.put ucp none) (newContext ucp func args c.mem)
  | .swap oucp _ => Calls c ∧ Own (s.put oucp none) oucp
  | .finish n => n ∈ s.started ∧ c.sp = n.sp
  | .drop _ => True

/-! ## Where control should go -/

/-- Control is where it should be. -/
def Goes (ret : Word) (o : Option Origin) (t : State) : Prop :=
  ∀ org, o = some org → ∃ v, t.cpu = some v ∧ Resumes ret v org

/-- A swap starts the function of the other context or continues behind the swap that was called there, and the end of
a function does the same with the context of its `uc_link`. -/
def Right (ret : Word) (s : State) (a : Act) (t : State) : Prop :=
  ∀ c, s.cpu = some c → match a with
  | .swap oucp ucp => Goes ret ((s.put oucp (some (.left (call oucp ucp c)))).slots ucp) t
  | .finish n => Goes ret (s.slots (c.mem (n.ucp + UC_LINK))) t
  | _ => True

/-- The function that is started has at most four arguments, or the others happen to be on top of its stack. -/
def Passes (s : State) (a : Act) : Prop :=
  ∀ c, s.cpu = some c → match a with
  | .swap oucp ucp => ∀ org, (s.put oucp (some (.left (call oucp ucp c)))).slots ucp = some org →
      Spilled (saveContext (call oucp ucp c)).mem org
  | .finish n => ∀ org, s.slots (c.mem (n.ucp + UC_LINK)) = some org → Spilled c.mem org
  | _ => True

/-! ## The invariant of a run -/

structure Inv (ret : Word) (s : State) (m : Mem) : Prop where
  holds : ∀ x o, s.slots x = some o → Holds ret m x o
  links : ∀ n, s.Linked n → m n.sp = n.ucp

/-- The machine has not faulted. -/
def Sane (ret : Word) (s : State) : Prop := ∃ c, s.cpu = some c ∧ Inv ret s c.mem

section

variable {ret x : Word} {s t : State} {m m' : Mem} {c : Cpu} {o : Option Origin} {org : Origin} {n : Made} {a : Act}
  {cpu : Option Cpu}

theorem Inv.congr (h : Inv ret s m) (hu : Undisturbed s m m') : Inv ret s m' := by
  refine ⟨fun x o ho => (h.holds x o ho).congr (hu.slots x ?_), fun n hn => (hu.links n hn).trans (h.links n hn)⟩
  rw [ho]
  exact Option.some_ne_none o

/-- With fewer contexts. -/
theorem Inv.mono (h : Inv ret s m) (hslots : ∀ x o, t.slots x = some o → s.slots x = some o)
    (hstarted : ∀ n ∈ t.started, s.Linked n) : Inv ret t m := by
  refine ⟨fun x o ho => h.holds x o (hslots x o ho), fun n hn => h.links n ?_⟩
  rcases hn with hn | ⟨x, hx⟩
  · exact hstarted n hn
  · exact .inr ⟨x, hslots x _ hx⟩

theorem Inv.withCpu (h : Inv ret s m) (cpu : Option Cpu) : Inv ret { s with cpu := cpu } m := ⟨h.holds, h.links⟩

theorem slots_put_self (s : State) (x : Word) (o : Option Origin) : (s.put x o).slots x = o := Function.update_self ..

theorem slots_put_of_ne {y : Word} (h : y ≠ x) (o : Option Origin) : (s.put x o).slots y = s.slots y :=
  Function.update_of_ne h ..

theorem slots_of_put_none {y : Word} (h : (s.put x none).slots y = some org) : s.slots y = some org := by
  by_cases hy : y = x
  · rw [hy, slots_put_self] at h
    cases h
  · rwa [slots_put_of_ne hy] at h

theorem Inv.put_none (h : Inv ret s m) : Inv ret (s.put x none) m :=
  h.mono (fun _ _ => slots_of_put_none) fun _ hn => .inl hn

theorem Inv.put (h : Inv ret (s.put x none) m) (ho : Holds ret m x org) (hn : ∀ n, org = .made n → m n.sp = n.ucp) :
    Inv ret (s.put x (some org)) m := by
  have hcases : ∀ y o, (s.put x (some org)).slots y = some o → y = x ∧ o = org ∨ (s.put x none).slots y = some o := by
    intro y o hy
    by_cases hyx : y = x
    · rw [hyx, slots_put_self] at hy
      exact .inl ⟨hyx, (Option.some.inj hy).symm⟩
    · rw [slots_put_of_ne hyx] at hy ⊢
      exact .inr hy
  refine ⟨fun y o hy => ?_, fun n hlinked => ?_⟩
  · rcases hcases y o hy with ⟨rfl, rfl⟩ | hy
    · exact ho
    · exact h.holds y o hy
  · rcases hlinked with hstarted | ⟨y, hy⟩
    · exact h.links n (.inl hstarted)
    · rcases hcases y _ hy with ⟨-, horg⟩ | hy
      · exact hn n horg.symm
      · exact h.links n (.inr ⟨y, hy⟩)

/-- Writing to a new context and to the top of a new stack. -/
theorem undisturbed_of_own (h : Own s x) (hm : ∀ y, y ∉ struct x → m' y = m y) : Undisturbed s m m' := by
  refine ⟨fun y hy i hi => ?_, fun n hn => hm _ (h.links n hn)⟩
  rw [mcontext_eq, mcontext_eq]
  exact hm _ (Set.disjoint_left.mp (h.slots y hy) (field_mem (by omega)))

theorem Fresh.undisturbed (h : Fresh s n) (hm : ∀ y, y ∉ struct n.ucp → y ≠ n.sp → m' y = m y) :
    Undisturbed s m m' := by
  refine ⟨fun y hy i hi => ?_, fun k hk => hm _ (h.links k hk) (h.stackLinks k hk)⟩
  rw [mcontext_eq, mcontext_eq]
  have hfield : y + BitVec.ofNat 32 (16 + 4 * i) ∈ struct y := field_mem (by omega)
  exact hm _ (Set.disjoint_left.mp (h.slots y hy) hfield) (ne_of_mem_of_not_mem hfield (h.stackSlots y hy))

/-! ## Control goes to another context -/

theorem Inv.enter (h : Inv ret s m) (ht : s.enter x cpu = some t) : Inv ret t m := by
  obtain ⟨o, ho, rfl⟩ := Option.map_eq_some_iff.mp ht
  refine h.mono (fun _ _ hy => hy) fun n hn => ?_
  cases o with
  | made k =>
    rcases List.mem_cons.mp hn with rfl | hn
    · exact .inr ⟨x, ho⟩
    · exact .inl hn
  | left c => exact .inl hn

/-- The restore goes where it should, up to the arguments. -/
theorem enter_goes {rt : Reg} (h : Inv ret s c.mem) (hrt : rt ≠ .lr) (hx : c.r rt = x)
    (ht : s.enter x (restoreContext rt c) = some t) :
    ∃ v, t.cpu = some v ∧ Inv ret t v.mem ∧
      (Goes ret (s.slots x) t ↔ ∀ org, s.slots x = some org → Spilled c.mem org) := by
  have hinv := h.enter ht
  obtain ⟨o, ho, rfl⟩ := Option.map_eq_some_iff.mp ht
  obtain ⟨v, hv, hmem, hiff⟩ := restoreContext_resumes hrt (hx ▸ h.holds x o ho)
  refine ⟨v, hv, hmem ▸ hinv, ?_⟩
  constructor
  · intro hgoes org horg
    obtain rfl := Option.some.inj (ho.symm.trans horg)
    obtain ⟨w, hw, hres⟩ := hgoes o ho
    obtain rfl := Option.some.inj (hv.symm.trans hw)
    exact hiff.mp hres
  · intro hspilled org horg
    obtain rfl := Option.some.inj (ho.symm.trans horg)
    exact ⟨v, hv, hiff.mpr (hspilled o ho)⟩

/-! ## The steps -/

theorem make_sane {ucp func : Word} {args : List Word} (h : Inv ret s c.mem)
    (hf : Fresh (s.put ucp none) (newContext ucp func args c.mem)) :
    Inv ret (s.put ucp (some (.made (newContext ucp func args c.mem)))) (makecontext ret ucp func args c.mem) := by
  have hu : Undisturbed (s.put ucp none) c.mem (makecontext ret ucp func args c.mem) :=
    hf.undisturbed fun y hy hne => makecontext_of_notMem hf.stack hy hne
  refine (h.put_none.congr hu).put (makecontext_holds hf.stack hf.aligned) fun n hn => ?_
  obtain rfl := Origin.made.inj hn
  exact makecontext_link hf.stack

theorem swap_goes {oucp ucp : Word} (h : Inv ret s c.mem) (hc : Calls c) (hown : Own (s.put oucp none) oucp)
    (ht : (s.put oucp (some (.left (call oucp ucp c)))).enter ucp (swapcontext (call oucp ucp c)) = some t) :
    ∃ v, t.cpu = some v ∧ Inv ret t v.mem ∧
      (Goes ret ((s.put oucp (some (.left (call oucp ucp c)))).slots ucp) t ↔
        ∀ org, (s.put oucp (some (.left (call oucp ucp c)))).slots ucp = some org →
          Spilled (saveContext (call oucp ucp c)).mem org) := by
  have hr0 : (call oucp ucp c).r .r0 = oucp := rfl
  have hu : Undisturbed (s.put oucp none) c.mem (saveContext (call oucp ucp c)).mem :=
    undisturbed_of_own hown fun y hy => saveContext_of_notMem (hr0.symm ▸ hy)
  have hholds : Holds ret (saveContext (call oucp ucp c)).mem oucp (.left (call oucp ucp c)) :=
    saveContext_holds (c := call oucp ucp c) hc.aligned hc.thumb
  have hinv := (h.put_none.congr hu).put hholds fun n hn => by cases hn
  exact enter_goes hinv (by decide) rfl ht

theorem finish_goes (h : Inv ret s c.mem) (hn : n ∈ s.started) (hsp : c.sp = n.sp)
    (ht : State.enter (c.mem (n.ucp + UC_LINK)) (returnFromMakecontext c) { s with started := s.started.erase n } =
      some t) :
    ∃ v, t.cpu = some v ∧ Inv ret t v.mem ∧
      (Goes ret (s.slots (c.mem (n.ucp + UC_LINK))) t ↔
        ∀ org, s.slots (c.mem (n.ucp + UC_LINK)) = some org → Spilled c.mem org) := by
  have hinv : Inv ret { s with started := s.started.erase n } c.mem :=
    h.mono (fun _ _ hy => hy) fun k hk => .inl (List.mem_of_mem_erase hk)
  -- the link on top of the stack leads to the context, and from there to the next one
  have hlink : c.mem c.sp = n.ucp := by
    rw [hsp]
    exact h.links n (.inl hn)
  let d := (c.ldr .r0 c.sp).ldr .r0 ((c.ldr .r0 c.sp).r .r0 + UC_LINK)
  have hr0 : d.r .r0 = c.mem (n.ucp + UC_LINK) := by
    rw [← hlink]
    rfl
  exact enter_goes (s := { s with started := s.started.erase n }) (c := d) hinv (by decide) hr0 ht

theorem forall_cpu (h : s.cpu = some c) (P : Cpu → Prop) : (∀ d, s.cpu = some d → P d) ↔ P c := by
  rw [h]
  exact ⟨fun hall => hall c rfl, fun hc d hd => Option.some.inj hd ▸ hc⟩

/-- A step keeps the invariant, and control goes where it should if the arguments are passed. -/
theorem step_right (hsane : Sane ret s) (hp : Promised s a) (hstep : step ret s a = some t) :
    Sane ret t ∧ (Right ret s a t ↔ Passes s a) := by
  obtain ⟨c, hcpu, h⟩ := hsane
  have hp := hp c hcpu
  rw [step, hcpu, Option.bind_some] at hstep
  cases a with
  | runs f =>
    obtain rfl := Option.some.inj hstep
    exact ⟨⟨f c, rfl, (h.congr hp).withCpu _⟩, iff_of_true (fun _ _ => trivial) fun _ _ => trivial⟩
  | make ucp func args =>
    obtain rfl := Option.some.inj hstep
    exact ⟨⟨_, rfl, (make_sane h hp).withCpu _⟩, iff_of_true (fun _ _ => trivial) fun _ _ => trivial⟩
  | swap oucp ucp =>
    obtain ⟨v, hv, hinv, hiff⟩ := swap_goes h hp.1 hp.2 hstep
    refine ⟨⟨v, hv, hinv⟩, Iff.trans ?_ (hiff.trans (Iff.symm ?_))⟩
    · exact forall_cpu hcpu fun d => Goes ret ((s.put oucp (some (.left (call oucp ucp d)))).slots ucp) t
    · exact forall_cpu hcpu fun d => ∀ org, (s.put oucp (some (.left (call oucp ucp d)))).slots ucp = some org →
        Spilled (saveContext (call oucp ucp d)).mem org
  | finish n =>
    obtain ⟨v, hv, hinv, hiff⟩ := finish_goes h hp.1 hp.2 hstep
    refine ⟨⟨v, hv, hinv⟩, Iff.trans ?_ (hiff.trans (Iff.symm ?_))⟩
    · exact forall_cpu hcpu fun d => Goes ret (s.slots (d.mem (n.ucp + UC_LINK))) t
    · exact forall_cpu hcpu fun d => ∀ org, s.slots (d.mem (n.ucp + UC_LINK)) = some org → Spilled d.mem org
  | drop ucp =>
    obtain rfl := Option.some.inj hstep
    refine ⟨⟨c, hcpu, h.mono (fun _ _ => slots_of_put_none) fun n hn => .inl (List.mem_of_mem_filter hn)⟩, ?_⟩
    exact iff_of_true (fun _ _ => trivial) fun _ _ => trivial

theorem start_sane (ret : Word) (c : Cpu) : Sane ret (start c) := by
  refine ⟨c, rfl, ⟨fun x o ho => ?_, fun n hn => ?_⟩⟩
  · cases ho
  · rcases hn with hn | ⟨x, hx⟩
    · cases hn
    · cases hx

end

/-- **Coroutines.** In every run with disjoint contexts and stacks, every swap and every end of a
function goes where it should exactly when the arguments of the functions that are started are
passed. -/
theorem runs_right_iff (ret : Word) (c : Cpu) (acts : List Act)
    (hp : ∀ x ∈ trace (step ret) (start c) acts, Promised x.pre x.act) :
    (∀ x ∈ trace (step ret) (start c) acts, Right ret x.pre x.act x.post) ↔
      ∀ x ∈ trace (step ret) (start c) acts, Passes x.pre x.act :=
  trace_forall_iff_of (I := Sane ret) (fun _ _ _ hs hp ht => (step_right hs hp ht).2)
    (fun _ _ _ hs hp _ ht => (step_right hs hp ht).1) (start_sane ret c) hp

/-! ## A context and its link -/

def mainContext : Word := 0x20000100

def otherContext : Word := 0x20000000

/-- The other context has the main one as its link, and its stack ends at `0x20001000`. -/
def contextMem : Mem :=
  fun a => if a = otherContext then mainContext else if a = otherContext + 4 then 0x20001000 else 0

/-- `main`, about to call `swapcontext`. -/
def mainCpu : Cpu where
  r _ := 0x1001
  msp := 0x20004000
  psp := 0x20003000
  pc := 0x1000
  xpsr := 0
  mode := .thread
  mem := contextMem

/-- The address of `return_from_makecontext`. -/
def returnAddress : Word := 0x801

def function : Word := 0x2001

def other (args : List Word) : Made := ⟨otherContext, function, args, 0x20000ffc⟩

/-- `makecontext` has made the other context. -/
def made (args : List Word) : State :=
  { (start mainCpu).put otherContext (some (.made (other args))) with
    cpu := some { mainCpu with mem := makecontext returnAddress otherContext function args contextMem } }

theorem step_make (args : List Word) :
    step returnAddress (start mainCpu) (.make otherContext function args) = some (made args) := rfl

theorem no_slots {y : Word} {o : Origin} (h : ((start mainCpu).put otherContext none).slots y = some o) : False := by
  cases slots_of_put_none h

theorem promised_make (args : List Word) : Promised (start mainCpu) (.make otherContext function args) := by
  intro c hc
  obtain rfl := Option.some.inj hc
  have hslots : ∀ y, ((start mainCpu).put otherContext none).slots y ≠ none → False := fun y hy => by
    obtain ⟨o, ho⟩ := Option.ne_none_iff_exists'.mp hy
    exact no_slots ho
  have hlinked : ∀ n, ((start mainCpu).put otherContext none).Linked n → False := fun n hn => by
    rcases hn with hn | ⟨y, hy⟩
    · cases hn
    · exact no_slots hy
  have hsp : newContext otherContext function args mainCpu.mem = other args := rfl
  have hout : (0x20000ffc : Word) ∉ struct otherContext := show ¬ (0x20000ffc - otherContext).toNat < 80 by decide
  show Fresh _ (newContext otherContext function args mainCpu.mem)
  rw [hsp]
  refine ⟨⟨fun y hy => (hslots y hy).elim, fun n hn => (hlinked n hn).elim⟩, ?_, hout, fun y hy => (hslots y hy).elim,
    fun n hn => (hlinked n hn).elim⟩
  show wordOf 0x20000ffc = 0x20000ffc
  decide

theorem promised_swap (args : List Word) : Promised (made args) (.swap mainContext otherContext) := by
  intro c hc
  obtain rfl := Option.some.inj hc
  have hslots : ∀ y o, ((made args).put mainContext none).slots y = some o → y = otherContext ∧
      o = .made (other args) := by
    intro y o hy
    have hmade : (made args).slots y = some o := slots_of_put_none hy
    by_cases hne : y = otherContext
    · subst hne
      have hput : (made args).slots otherContext = some (.made (other args)) :=
        slots_put_self (start mainCpu) otherContext (some (.made (other args)))
      exact ⟨rfl, Option.some.inj (hmade.symm.trans hput)⟩
    · have hput : (made args).slots y = none := slots_put_of_ne hne _
      cases hput.symm.trans hmade
  refine ⟨⟨?_, ?_⟩, fun y hy => ?_, fun n hn => ?_⟩
  · show wordOf 0x20003000 = 0x20003000
    decide
  · show (0x1001 : Word).getLsbD 0 = true
    decide
  · obtain ⟨o, ho⟩ := Option.ne_none_iff_exists'.mp hy
    obtain ⟨rfl, -⟩ := hslots y o ho
    refine Set.disjoint_left.mpr fun a ha hb => ?_
    change (a - 0x20000000).toNat < 80 at ha
    change (a - 0x20000100).toNat < 80 at hb
    bv_omega
  · rcases hn with hn | ⟨y, hy⟩
    · cases hn
    · obtain ⟨-, hmade⟩ := hslots y _ hy
      obtain rfl := Origin.made.inj hmade
      show ¬ (0x20000ffc - mainContext).toNat < 80
      decide

theorem promised_run (args : List Word) {acts : List Act}
    (h : ∀ t, step returnAddress (made args) (.swap mainContext otherContext) = some t →
      ∀ x ∈ trace (step returnAddress) t acts, Promised x.pre x.act) :
    ∀ x ∈ trace (step returnAddress) (start mainCpu)
      (.make otherContext function args :: .swap mainContext otherContext :: acts), Promised x.pre x.act := by
  refine forall_trace_of_step (promised_make args) fun s hs => ?_
  obtain rfl := Option.some.inj ((step_make args).symm.trans hs)
  exact forall_trace_of_step (promised_swap args) h

/-- The function is called with two arguments and returns to `main`. -/
def twoArguments : List Act :=
  [.make otherContext function [1, 2], .swap mainContext otherContext, .finish (other [1, 2])]

theorem promised_twoArguments :
    ∀ x ∈ trace (step returnAddress) (start mainCpu) twoArguments, Promised x.pre x.act := by
  refine promised_run [1, 2] fun t ht => forall_trace_of_step (fun c hc => ?_) fun _ _ x hx => by cases hx
  have hswap :
    (step returnAddress (made [1, 2]) (.swap mainContext otherContext)).map (fun t => (t.cpu.map Cpu.sp, t.started)) =
      some (some 0x20000ffc, [other [1, 2]]) := by
    decide +kernel
  rw [ht, Option.map_some, Option.some.injEq, Prod.mk.injEq, hc, Option.map_some, Option.some.injEq] at hswap
  exact ⟨hswap.2 ▸ List.mem_singleton_self _, hswap.1⟩

theorem runs_right_iff_twoArguments :
    (trace (step returnAddress) (start mainCpu) twoArguments).length = 3 ∧
      ∀ x ∈ trace (step returnAddress) (start mainCpu) twoArguments, Right returnAddress x.pre x.act x.post := by
  refine ⟨by decide +kernel, (runs_right_iff returnAddress mainCpu twoArguments promised_twoArguments).mpr ?_⟩
  refine forall_trace_of_step (fun _ _ => trivial) fun s hs => ?_
  obtain rfl := Option.some.inj ((step_make [1, 2]).symm.trans hs)
  -- no context has more than two arguments
  have hfew : ∀ (m : Mem) c y org,
    ((made [1, 2]).put mainContext (some (.left (call mainContext otherContext c)))).slots y =
      some org → Spilled m org := by
    intro m c y org hy
    by_cases hmain : y = mainContext
    · rw [hmain, slots_put_self] at hy
      obtain rfl := Option.some.inj hy
      trivial
    · rw [slots_put_of_ne hmain] at hy
      by_cases hother : y = otherContext
      · rw [hother] at hy
        obtain rfl := Option.some.inj ((slots_put_self (start mainCpu) otherContext _).symm.trans hy)
        exact fun i w hw => by cases hw
      · cases (slots_put_of_ne (s := start mainCpu) hother _).symm.trans hy
  refine forall_trace_of_step (fun c _ org horg => hfew _ c _ org horg) fun t ht => ?_
  obtain ⟨d, -, ht⟩ := Option.bind_eq_some_iff.mp ht
  obtain ⟨o, -, rfl⟩ := Option.map_eq_some_iff.mp (show Option.map _ _ = some t from ht)
  exact forall_trace_of_step (fun c _ org horg => hfew _ d _ org horg) fun _ _ x hx => by cases hx

/-- With five arguments. -/
def fiveArguments : List Act := [.make otherContext function [1, 2, 3, 4, 5], .swap mainContext otherContext]

/-- The function gets the address of its own context in the place of the fifth. -/
theorem fifth_argument_lost :
    (∀ x ∈ trace (step returnAddress) (start mainCpu) fiveArguments, Promised x.pre x.act) ∧
      ¬ ∀ x ∈ trace (step returnAddress) (start mainCpu) fiveArguments, Right returnAddress x.pre x.act x.post := by
  refine ⟨promised_run [1, 2, 3, 4, 5] fun _ _ x hx => (by cases hx), fun hall => ?_⟩
  have hswap : (step returnAddress (made [1, 2, 3, 4, 5]) (.swap mainContext otherContext)).map
      (fun t => t.cpu.map fun c => c.argument 4) = some (some otherContext) := by
    decide +kernel
  obtain ⟨t, ht, hcpu⟩ := Option.map_eq_some_iff.mp hswap
  obtain ⟨v, hv, harg⟩ := Option.map_eq_some_iff.mp hcpu
  have hmem : ⟨made [1, 2, 3, 4, 5], .swap mainContext otherContext, t⟩ ∈
      trace (step returnAddress) (start mainCpu) fiveArguments :=
    mem_trace_of_run
    (show run (step returnAddress) (start mainCpu) [.make otherContext function [1, 2, 3, 4, 5]] = _ from rfl) ht
  obtain ⟨w, hw, hstarts⟩ := hall _ hmem _ rfl (.made (other [1, 2, 3, 4, 5])) rfl
  obtain rfl := Option.some.inj (hv.symm.trans hw)
  have hfive : v.argument 4 = 5 := hstarts.args 4 5 rfl
  rw [harg] at hfive
  cases hfive

end PikoRT.Libc.Coroutine

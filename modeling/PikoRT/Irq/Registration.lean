import PikoRT.Libc.HeapLedger

/-! # Registration of interrupt handlers (`kernel/irq.c`)

`IRQ_NOREQUEST` in the status of a line is to say that nobody has requested it. `init_IRQ`
sets it for all lines and `free_irq` for the one it frees, but `request_irq` does not clear
it: a line can be requested again while it is in use, and cannot be freed. -/
namespace PikoRT.Irq.Registration
open PikoRT.Lib.Run PikoRT.Kernel.Bitops PikoRT.Libc
open PikoRT.Libc.Malloc (Heap Allocation Region)
open PikoRT.Libc.HeapRun (Inv)
open PikoRT.Libc.HeapLedger (Holding)

abbrev NR_IRQS : ℕ := 64

abbrev IRQ_NOREQUEST : Word := 1

structure IrqDesc where
  action : ℕ
  status : Word

structure Irqaction where
  handler : Word
  irq : Word

structure Irqs where
  heap : Malloc.State
  irqDesc : ℕ → IrqDesc
  /-- What the blocks hold. -/
  irqaction : ℕ → Irqaction
  irqHandler : ℕ → Word

/-- `sizeof(struct irqaction)`. -/
def sizeofIrqaction : Word := 8

def irqToDesc (irq : Word) : Option ℕ := if irq.toNat < NR_IRQS then some irq.toNat else none

def Irqs.install (i action : ℕ) (irq hdlr : Word) (s : Irqs) : Irqs :=
  { s with
    irqaction := Function.update s.irqaction action ⟨hdlr, irq⟩
    irqDesc := Function.update s.irqDesc i { s.irqDesc i with action := action }
    irqHandler := Function.update s.irqHandler i hdlr }

/-- With the value it returns; the fuel is that of the loop of `malloc`. -/
def requestIrq (fuel : ℕ) (irq hdlr : Word) (s : Irqs) : Option (ℤ × Irqs) :=
  match irqToDesc irq with
  | none => some (-1, s)
  | some i =>
    if (s.irqDesc i).status &&& IRQ_NOREQUEST ≠ 0 then
      (Malloc.malloc fuel sizeofIrqaction s.heap.heap).map fun r =>
        match r.1 with
        | none => (-1, { s with heap := ⟨r.2, s.heap.live⟩ })
        | some action =>
          (0, { s with heap := ⟨r.2, ⟨action, sizeofIrqaction⟩ :: s.heap.live⟩ }.install i action irq hdlr)
    else some (-1, s)

def Irqs.uninstall (i : ℕ) (s : Irqs) : Irqs :=
  { s with
    irqDesc := Function.update s.irqDesc i { s.irqDesc i with status := (s.irqDesc i).status ||| IRQ_NOREQUEST }
    irqHandler := Function.update s.irqHandler i 0 }

def freeIrq (irq : Word) (s : Irqs) : Option (ℤ × Irqs) :=
  match irqToDesc irq with
  | none => some (-1, s)
  | some i =>
    if (s.irqDesc i).status &&& IRQ_NOREQUEST = 0 then
      (Malloc.free (s.irqDesc i).action s.heap.heap).map fun h =>
        let live := s.heap.live.eraseP fun u => decide (u.ptr = (s.irqDesc i).action)
        (0, { s with heap := ⟨h, live⟩ }.uninstall i)
    else some (-1, s)

/-- `init_IRQ`. -/
def initIRQ (s : Irqs) : Irqs :=
  { s with irqDesc := fun i => if i < NR_IRQS then { s.irqDesc i with status := IRQ_NOREQUEST } else s.irqDesc i }

inductive Act where
  | request (fuel : ℕ) (irq hdlr : Word)
  | free (irq : Word)

def call (s : Irqs) : Act → Option (ℤ × Irqs)
  | .request fuel irq hdlr => requestIrq fuel irq hdlr s
  | .free irq => freeIrq irq s

/-! ## What the callers know -/

/-- The handlers of the requests that were granted and not given back. -/
def record (requested : ℕ → Option Word) (r : ℤ) : Act → ℕ → Option Word
  | .request _ irq hdlr => if r = 0 then Function.update requested irq.toNat (some hdlr) else requested
  | .free irq => if r = 0 then Function.update requested irq.toNat none else requested

structure Watch where
  irqs : Irqs
  requested : ℕ → Option Word

def watchStep (w : Watch) (a : Act) : Option Watch :=
  (call w.irqs a).map fun r => ⟨r.2, record w.requested r.1 a⟩

def MemoryAvailable (fuel : ℕ) (s : Irqs) : Prop :=
  ∃ ptr h, Malloc.malloc fuel sizeofIrqaction s.heap.heap = some (some ptr, h)

/-- When a call should succeed. -/
def Grants (w : Watch) : Act → Prop
  | .request fuel irq _ => irq.toNat < NR_IRQS ∧ MemoryAvailable fuel w.irqs ∧ w.requested irq.toNat = none
  | .free irq => w.requested irq.toNat ≠ none

def requestedLines (requested : ℕ → Option Word) : Finset ℕ :=
  (Finset.range NR_IRQS).filter fun i => (requested i).isSome

/-- The table has the handlers of the requested lines, and there are as many blocks, more
than in the heap `h₀`. -/
structure Accurate (h₀ : Malloc.State) (w : Watch) : Prop where
  table : ∀ i < NR_IRQS, w.irqs.irqHandler i = (w.requested i).getD 0
  blocks : w.irqs.heap.live.length = h₀.live.length + (requestedLines w.requested).card

/-- The call returns what it should, and leaves what it should. -/
def Lawful (h₀ : Malloc.State) (w : Watch) (a : Act) (w' : Watch) : Prop :=
  (∀ r, call w.irqs a = some r → (r.1 = 0 ↔ Grants w a)) ∧ Accurate h₀ w'

/-- No request, when there is memory for it, of a line that is in use; and none is given back. -/
def Meets (w : Watch) : Act → Prop
  | .request fuel irq _ => irq.toNat < NR_IRQS → MemoryAvailable fuel w.irqs → w.requested irq.toNat = none
  | .free irq => w.requested irq.toNat = none

section

variable {g : Region} {h₀ : Malloc.State} {w w' : Watch} {s : Irqs} {irq hdlr : Word} {fuel : ℕ}

/-! ## Both calls -/

/-- No line looks requested. -/
def Unclaimed (s : Irqs) : Prop := ∀ i < NR_IRQS, (s.irqDesc i).status &&& IRQ_NOREQUEST ≠ 0

theorem unclaimed_initIRQ (s : Irqs) : Unclaimed (initIRQ s) := by
  intro i hi
  simp [initIRQ, hi]

theorem freeIrq_eq (h : Unclaimed s) (irq : Word) : freeIrq irq s = some (-1, s) := by
  unfold freeIrq irqToDesc
  by_cases hi : irq.toNat < NR_IRQS
  · rw [if_pos hi]
    exact if_neg (h _ hi)
  · rw [if_neg hi]

/-- What `request_irq` does while no line looks requested. -/
theorem requestIrq_cases (h : Unclaimed s) {r : ℤ × Irqs} (he : requestIrq fuel irq hdlr s = some r) :
    (∃ ptr k, irq.toNat < NR_IRQS ∧ Malloc.malloc fuel sizeofIrqaction s.heap.heap = some (some ptr, k) ∧
      r = (0, { s with heap := ⟨k, ⟨ptr, sizeofIrqaction⟩ :: s.heap.live⟩ }.install irq.toNat ptr irq hdlr)) ∨
    (r.1 = -1 ∧ ¬ (irq.toNat < NR_IRQS ∧ MemoryAvailable fuel s) ∧
      (r.2 = s ∨ ∃ k, Malloc.malloc fuel sizeofIrqaction s.heap.heap = some (none, k) ∧
        r.2 = { s with heap := ⟨k, s.heap.live⟩ })) := by
  unfold requestIrq irqToDesc at he
  by_cases hi : irq.toNat < NR_IRQS
  · rw [if_pos hi] at he
    dsimp only at he
    rw [if_pos (h _ hi)] at he
    obtain ⟨q, hq, rfl⟩ := Option.map_eq_some_iff.mp he
    obtain ⟨p, k⟩ := q
    cases p with
    | some ptr => exact .inl ⟨ptr, k, hi, hq, rfl⟩
    | none =>
      refine .inr ⟨rfl, ?_, .inr ⟨k, hq, rfl⟩⟩
      rintro ⟨-, ptr, k', hk⟩
      rw [hq] at hk
      cases hk
  · rw [if_neg hi] at he
    cases he
    exact .inr ⟨rfl, fun hboth => hi hboth.1, .inl rfl⟩

/-! ## Runs -/

/-- While no line is requested twice: the blocks in addition to those of `h₀` are those of the
requested lines. -/
structure Kept (g : Region) (h₀ : Malloc.State) (w : Watch) : Prop where
  unclaimed : Unclaimed w.irqs
  held : ∃ us, Holding g h₀ w.irqs.heap us ∧ us.length = (requestedLines w.requested).card
  table : ∀ i < NR_IRQS, w.irqs.irqHandler i = (w.requested i).getD 0

theorem Kept.accurate (h : Kept g h₀ w) : Accurate h₀ w := by
  obtain ⟨us, hus, hlen⟩ := h.held
  refine ⟨h.table, ?_⟩
  rw [hus.live.length_eq, List.length_append, hlen, add_comm]

/-- One more line. -/
theorem card_requestedLines {requested : ℕ → Option Word} {i : ℕ} (hi : i < NR_IRQS) (hn : requested i = none)
    (hdlr : Word) : (requestedLines (Function.update requested i (some hdlr))).card =
      (requestedLines requested).card + 1 := by
  have hout : i ∉ requestedLines requested := by simp [requestedLines, hn]
  rw [← Finset.card_insert_of_notMem hout]
  congr 1
  ext j
  by_cases hj : j = i
  · subst hj
    simpa [requestedLines] using hi
  · simp [requestedLines, hj]

theorem modest_sizeofIrqaction : HeapRun.Modest sizeofIrqaction := by
  unfold HeapRun.Modest
  decide

theorem Kept.install {ptr : ℕ} {k : Heap} (h : Kept g h₀ w) (hi : irq.toNat < NR_IRQS)
    (hn : w.requested irq.toNat = none)
    (he : Malloc.malloc fuel sizeofIrqaction w.irqs.heap.heap = some (some ptr, k)) :
    Kept g h₀ ⟨{ w.irqs with heap := ⟨k, ⟨ptr, sizeofIrqaction⟩ :: w.irqs.heap.live⟩ }.install irq.toNat ptr irq hdlr,
      Function.update w.requested irq.toNat (some hdlr)⟩ := by
  obtain ⟨us, hus, hlen⟩ := h.held
  obtain ⟨hus', -⟩ := hus.malloc modest_sizeofIrqaction he
  refine ⟨fun i hlt => ?_, ⟨_, hus', ?_⟩, fun i hlt => ?_⟩
  · have hstatus := h.unclaimed i hlt
    by_cases hii : i = irq.toNat
    · subst hii
      simpa [Irqs.install] using hstatus
    · simpa [Irqs.install, hii] using hstatus
  · rw [card_requestedLines hi hn, List.length_cons, hlen]
  · by_cases hii : i = irq.toNat
    · simp [Irqs.install, hii]
    · simpa [Irqs.install, hii] using h.table i hlt

theorem kept_step {a : Act} (h : Kept g h₀ w) (hm : Meets w a) (hw : watchStep w a = some w') : Kept g h₀ w' := by
  obtain ⟨r, hr, rfl⟩ := Option.map_eq_some_iff.mp hw
  cases a with
  | request fuel irq hdlr =>
    rcases requestIrq_cases h.unclaimed hr with ⟨ptr, k, hi, he, rfl⟩ | ⟨hr1, -, hsame⟩
    · exact h.install hi (hm hi ⟨ptr, k, he⟩) he
    · have hrec : record w.requested r.1 (.request fuel irq hdlr) = w.requested := by simp [record, hr1]
      rw [hrec]
      have hr2 : r.2 = w.irqs := by
        rcases hsame with hs | ⟨k, he, hs⟩
        · exact hs
        · obtain ⟨us, hus, -⟩ := h.held
          rw [hs, hus.malloc_none modest_sizeofIrqaction he]
      rw [hr2]
      exact h
  | free irq =>
    rw [call, freeIrq_eq h.unclaimed] at hr
    cases hr
    exact h

theorem returns_iff {a : Act} {r : ℤ × Irqs} (h : Unclaimed w.irqs) (hr : call w.irqs a = some r) :
    (r.1 = 0 ↔ Grants w a) ↔ Meets w a := by
  cases a with
  | request fuel irq hdlr =>
    rcases requestIrq_cases h hr with ⟨ptr, k, hi, he, rfl⟩ | ⟨hr1, hnot, -⟩
    · have havail : MemoryAvailable fuel w.irqs := ⟨ptr, k, he⟩
      simp [Grants, Meets, hi, havail]
    · rw [hr1]
      simp only [Grants, Meets]
      tauto
  | free irq =>
    rw [call, freeIrq_eq h] at hr
    cases hr
    simp [Grants, Meets]

theorem lawful_iff {a : Act} (h : Kept g h₀ w) (hw : watchStep w a = some w') : Lawful h₀ w a w' ↔ Meets w a := by
  obtain ⟨r, hr, -⟩ := Option.map_eq_some_iff.mp hw
  constructor
  · rintro ⟨hret, -⟩
    exact (returns_iff h.unclaimed hr).mp (hret r hr)
  · intro hm
    refine ⟨fun q hq => ?_, (kept_step h hm hw).accurate⟩
    exact (returns_iff h.unclaimed hq).mpr hm

/-- After `init_IRQ`, with the heap `h₀`. -/
def boot (h₀ : Malloc.State) (irqDesc : ℕ → IrqDesc) (irqaction : ℕ → Irqaction) : Watch :=
  ⟨initIRQ ⟨h₀, irqDesc, irqaction, fun _ => 0⟩, fun _ => none⟩

theorem kept_boot {xs : List Lib.Tiling.Seg} (hi : Inv g h₀ xs) (irqDesc : ℕ → IrqDesc) (irqaction : ℕ → Irqaction) :
    Kept g h₀ (boot h₀ irqDesc irqaction) := by
  refine ⟨unclaimed_initIRQ _, ⟨[], Holding.refl hi, ?_⟩, fun i _ => rfl⟩
  simp [requestedLines, boot]

/-- **Registration.** Along every run of requests and releases, each call returns and leaves
what it should exactly when no line in use is requested again with memory left, and no line
in use is given back. -/
theorem registrations_lawful_iff {xs : List Lib.Tiling.Seg} (hi : Inv g h₀ xs) (irqDesc : ℕ → IrqDesc)
    (irqaction : ℕ → Irqaction) (as : List Act) :
    (∀ x ∈ trace watchStep (boot h₀ irqDesc irqaction) as, Lawful h₀ x.pre x.act x.post) ↔
      ∀ x ∈ trace watchStep (boot h₀ irqDesc irqaction) as, Meets x.pre x.act :=
  trace_forall_iff (I := Kept g h₀) (Q := Lawful h₀) (C := Meets) (fun _ _ _ hk hw => lawful_iff hk hw)
    (fun _ _ _ hk hm hw => kept_step hk hm hw)
    (kept_boot hi irqDesc irqaction)

end

/-- A heap of 64 bytes, nothing in it. -/
def smallBoot : Watch :=
  boot (Malloc.init HeapRun.smallRegion HeapRun.zeroed) (fun _ => ⟨0, 0⟩) fun _ => ⟨0, 0⟩

theorem registrations_lawful_one : (trace watchStep smallBoot [.request 2 37 0x08001001]).length = 1 ∧
    ∀ x ∈ trace watchStep smallBoot [.request 2 37 0x08001001],
      Lawful (Malloc.init HeapRun.smallRegion HeapRun.zeroed) x.pre x.act x.post := by
  refine ⟨rfl, ?_⟩
  exact (registrations_lawful_iff (HeapRun.inv_init HeapRun.smallRegion HeapRun.zeroed) (fun _ => ⟨0, 0⟩)
    (fun _ => ⟨0, 0⟩)
    [.request 2 37 0x08001001]).mpr (List.forall_mem_singleton.mpr fun _ _ => rfl)

/-- A line is requested twice, and both requests are granted; and the line cannot be given back. -/
theorem registrations_twice :
    (∃ w, run watchStep smallBoot [.request 2 37 0x08001001, .request 2 37 0x08002001] = some w ∧
      w.irqs.heap.live.length = 2 ∧ (requestedLines w.requested).card = 1) ∧
    (∃ w, run watchStep smallBoot [.request 2 37 0x08001001] = some w ∧
      (call w.irqs (.free 37)).map Prod.fst = some (-1)) ∧
    ¬ ∀ x ∈ trace watchStep smallBoot [.request 2 37 0x08001001, .request 2 37 0x08002001],
      Lawful (Malloc.init HeapRun.smallRegion HeapRun.zeroed) x.pre x.act x.post := by
  refine ⟨⟨_, rfl, rfl, rfl⟩, ⟨_, rfl, rfl⟩, fun hall => ?_⟩
  obtain ⟨-, hrest⟩ := List.forall_mem_cons.mp hall
  obtain ⟨hreturns, -⟩ := List.forall_mem_singleton.mp hrest
  obtain ⟨-, -, hfree⟩ := (hreturns _ rfl).mp rfl
  cases hfree

end PikoRT.Irq.Registration

import PikoRT.Mm.PageRun

/-! # The page allocator and the linker script

`piko.lds.S` lays out the last 32 KB of RAM from `__pgmem_start__` on: 26 KB of
pages, the 2 KB early stack up to `__pgmem_end__`, then the 4 KB of `.mtdram`.
`page_bitmap` starts with 15 free blocks of 2 KB, which cover 30 KB: the early
stack and the first half of `.mtdram` among them. Along a run the allocations
stay clear of both exactly when `start_kernel` has not yet reclaimed the early
stack and no allocation has to look above 26 KB (`stays_iff_low`). -/
namespace PikoRT.Mm.PageLayout
open PikoRT.Kernel.Bitops PikoRT.Lib.Run PikoRT.Lib.Buddy
open PikoRT.Mm.Page PikoRT.Mm.PageBuddy PikoRT.Mm.PageRun

/-! ## The sections -/

/-- `.pgmem`: from `__pgmem_start__` to `__pgmem_end__`. -/
def pgmem (mem : PgMem) : Set Addr := {x | (x - mem.start).toNat < 28 * 1024}

/-- From `__early_stack_end__` to `__early_stack_start__` (the stack grows down). -/
def earlyStack (mem : PgMem) : Set Addr :=
  {x | 26 * 1024 ≤ (x - mem.start).toNat ∧ (x - mem.start).toNat < 28 * 1024}

def earlyStackEnd (mem : PgMem) : Addr := mem.start + BitVec.ofNat 32 (26 * 1024)

def mtdram (mem : PgMem) : Set Addr :=
  {x | 28 * 1024 ≤ (x - mem.start).toNat ∧ (x - mem.start).toNat < 32 * 1024}

/-! ## The kernel's use of the allocator from boot on -/

structure BootState where
  pages : State
  reclaimed : Bool
  deriving DecidableEq

/-- A call of the allocator, or the line of `start_kernel` that frees the early
stack. -/
inductive Event where
  | call (c : Call)
  | reclaim

def bootStep (mem : PgMem) (s : BootState) : Event → Option BootState
  | .call c => (step mem s.pages c).map fun t => ⟨t, s.reclaimed⟩
  | .reclaim =>
    if s.reclaimed then none
    else some ⟨⟨freePages mem.start s.pages.pb (earlyStackEnd mem) (sizeToPageOrder 2048).toNat,
      s.pages.live⟩, true⟩

def bootState : BootState := ⟨boot, false⟩

/-- What the step should do: a block returned lies in `.pgmem`, apart from
`.mtdram` and, before the reclaim, from the early stack; the reclaim finds the
early stack not marked free. -/
def Stays (mem : PgMem) (s : BootState) : Event → Prop
  | .call (.alloc k) => ∀ addr, (allocPages mem.start s.pages.pb k).1 = some addr →
      bytes addr k ⊆ pgmem mem ∧ Disjoint (bytes addr k) (mtdram mem) ∧
      (s.reclaimed = false → Disjoint (bytes addr k) (earlyStack mem))
  | .call (.free _ _) => True
  | .reclaim => ∀ o i, o ≤ 3 → freeBit s.pages.pb o i = true →
      Disjoint (bytes (pageIdxToAddr mem.start i o) o) (earlyStack mem)

/-- Before an allocation the least order with a free block has one in the first
26 KB (104 pages); the reclaim is not reached. -/
def Low (s : BootState) : Event → Prop
  | .call (.alloc k) => ∀ o, k ≤ o → o ≤ 3 →
      (∀ o', k ≤ o' → o' < o → ∀ i, freeBit s.pages.pb o' i = false) →
      (∃ i, freeBit s.pages.pb o i = true) →
      ∃ i, freeBit s.pages.pb o i = true ∧ (i + 1) * 2 ^ o ≤ 104
  | .call (.free _ _) => True
  | .reclaim => False

/-! ## One step -/

/-- The 2 KB block of the early stack. -/
def stackBlock : Block := ⟨3, 13⟩

/-- While no allocation went above 26 KB, the early stack is marked free. -/
structure BootInv (mem : PgMem) (s : BootState) : Prop where
  inv : Inv mem s.pages
  notYet : s.reclaimed = false
  marked : stackBlock ∈ freeBlocks s.pages.pb

theorem source_idx_le {pb : PageBitmap} {k : ℕ} {b : Block} (hs : Source pb k b) {i : ℕ}
    (hi : freeBit pb b.order i = true) : b.idx ≤ i := by
  by_contra hlt
  have hlow := (findFirstBit_spec (pb.getD b.order []) (pageBitmapSz b.order)).2.2 i
  rw [hs.first.2] at hlow
  have := hlow (by omega)
  unfold freeBit at hi
  rw [hi] at this
  cases this

/-- The source of an allocation lies in the first 26 KB exactly when the step
is low. -/
theorem low_iff_source {s : BootState} {k : ℕ} {b : Block} (hs : Source s.pages.pb k b) :
    Low s (.call (.alloc k)) ↔ (b.idx + 1) * 2 ^ b.order ≤ 104 := by
  constructor
  · intro hlow
    obtain ⟨i, hi, hle⟩ := hlow b.order hs.le hs.mem.1
      (fun o' hk ho' i => by
        by_contra hb
        have := hs.least ⟨o', i⟩ ⟨by have := hs.mem.1; simp only; omega, by simpa using hb⟩ hk
        simp only at this
        omega)
      ⟨b.idx, hs.mem.2⟩
    exact le_trans (Nat.mul_le_mul_right _ (by have := source_idx_le hs hi; omega)) hle
  · intro hle o hk ho hgap hex
    obtain ⟨j, hj⟩ := hex
    have h1 : b.order ≤ o := hs.least ⟨o, j⟩ ⟨ho, hj⟩ hk
    have h2 : o ≤ b.order := by
      by_contra hlt
      have := hgap b.order hs.le (by omega) b.idx
      rw [hs.mem.2] at this
      cases this
    obtain rfl : o = b.order := by omega
    exact ⟨b.idx, hs.mem.2, hle⟩

/-- A block of order at most 3 that starts below 26 KB ends there at the latest. -/
theorem block_below {b : Block} (ho : b.order ≤ 3) (h : b.idx * 2 ^ b.order < 104) :
    (b.idx + 1) * 2 ^ b.order ≤ 104 := by
  obtain ⟨o, i⟩ := b
  simp only at ho h ⊢
  interval_cases o <;> simp at h ⊢ <;> omega

theorem page_below {b : Block} {p : ℕ} (h : (b.idx + 1) * 2 ^ b.order ≤ 104) (hp : p ∈ b.pages) :
    p < 104 := by
  rw [Block.mem_pages, Nat.div_eq_iff (by positivity)] at hp
  rw [add_one_mul] at h
  have : 0 < 2 ^ b.order := by positivity
  omega

section

variable {mem : PgMem} {s : BootState}

/-- An allocation that starts below 26 KB returns a block that stays there. -/
theorem stays_of_source {k : ℕ} {addr : Addr} {b r : Block} (hr : r.order = k) (hk : k ≤ 3)
    (hidx : r.idx < pageBitmapSz k) (haddr : addr = pageIdxToAddr mem.start r.idx k)
    (hsub : r.pages ⊆ b.pages) (hb : (b.idx + 1) * 2 ^ b.order ≤ 104) :
    bytes addr k ⊆ pgmem mem ∧ Disjoint (bytes addr k) (mtdram mem) ∧
      Disjoint (bytes addr k) (earlyStack mem) := by
  have hpage : ∀ x ∈ bytes addr k, (x - mem.start).toNat < 26 * 1024 := by
    intro x hx
    rw [haddr, mem_bytes_iff mem hk hidx] at hx
    have hxr : pageOf mem x ∈ r.pages := by rw [Block.mem_pages, hr]; exact hx
    have := page_below hb (hsub hxr)
    simp only [pageOf, MIN_PAGE_SIZE] at this
    omega
  refine ⟨fun x hx => ?_, Set.disjoint_left.mpr fun x hx hm => ?_, Set.disjoint_left.mpr fun x hx hm => ?_⟩
  · have := hpage x hx
    show (x - mem.start).toNat < 28 * 1024
    omega
  · have := hpage x hx
    have := hm.1
    omega
  · have := hpage x hx
    have := hm.1
    omega

/-- The first byte of a block. -/
theorem addr_mem_bytes (addr : Addr) (k : ℕ) : addr ∈ bytes addr k := by
  show (addr - addr).toNat < MIN_PAGE_SIZE * 2 ^ k
  rw [sub_self]
  simp [MIN_PAGE_SIZE]

theorem alloc_stays_iff_low (h : BootInv mem s) (k : ℕ) :
    Stays mem s (.call (.alloc k)) ↔ Low s (.call (.alloc k)) := by
  cases ha : (allocPages mem.start s.pages.pb k).1 with
  | none =>
    have hnone := (allocPages_none h.inv.inRange ha).2
    refine iff_of_true (fun addr he => by rw [ha] at he; cases he) ?_
    rintro o hk ho - ⟨i, hi⟩
    exact absurd hk (hnone ⟨o, i⟩ ⟨ho, hi⟩)
  | some addr =>
    obtain ⟨b, hsrc, -, haddr, -⟩ := allocPages_some h.inv.shape h.inv.inRange ha
    have hk : k ≤ 3 := hsrc.le.trans hsrc.mem.1
    obtain ⟨hcan, hdis, -⟩ := h.inv.ledger.canonical.diff hsrc.mem
    obtain ⟨-, hblk, hsub, -, -⟩ := carve_spec hcan hsrc.mem.1 hsrc.le hdis
      (fun c hc hkc => hsrc.least c hc.1 hkc)
    have hled := h.inv.source_take hsrc
    generalize carve k (freeBlocks s.pages.pb \ {b}) b = r at *
    have hord : r.2.order = k := by rw [hblk]
    have hidx : r.2.idx < pageBitmapSz k := by
      have := idx_lt_of_pages (b := r.2) (by omega) (hled.inside r.2 (by simp)).2
      rwa [hord] at this
    rw [low_iff_source hsrc]
    constructor
    · intro hstays
      obtain ⟨hin, -, hstack⟩ := hstays addr ha
      apply block_below hsrc.mem.1
      -- the first page of the block returned is the first page of its source
      have hfirst : r.2.idx * 2 ^ k = b.idx * 2 ^ b.order := by
        rw [hblk]
        simp only
        rw [mul_assoc, ← pow_add, Nat.sub_add_cancel hsrc.le]
      have hmem := addr_mem_bytes addr k
      have hlt : (addr - mem.start).toNat < 28 * 1024 := hin hmem
      have hnot : ¬ (26 * 1024 ≤ (addr - mem.start).toNat ∧ (addr - mem.start).toNat < 28 * 1024) :=
        Set.disjoint_left.mp (hstack h.notYet) hmem
      have hoff : (addr - mem.start).toNat = r.2.idx * 2 ^ k * 256 := by
        rw [haddr, pageIdxToAddr, add_sub_cancel_left, BitVec.toNat_ofNat, Nat.mod_eq_of_lt]
        · rw [pow_add, ← mul_assoc]; rfl
        · interval_cases k <;> simp [pageBitmapSz, MIN_PAGE_SHIFT] at hidx ⊢ <;> omega
      rw [← hfirst]
      omega
    · intro hle addr' ha'
      obtain rfl : addr = addr' := by rw [ha] at ha'; exact Option.some.inj ha'
      obtain ⟨h1, h2, h3⟩ := stays_of_source hord hk hidx haddr hsub hle
      exact ⟨h1, h2, fun _ => h3⟩

theorem not_reclaim_stays (h : BootInv mem s) : ¬ Stays mem s .reclaim := by
  intro hstays
  have hd := hstays 3 13 (le_refl _) h.marked.2
  refine Set.disjoint_left.mp hd (addr_mem_bytes _ _) ?_
  have hoff : pageIdxToAddr mem.start 13 3 - mem.start = 26624#32 := by
    unfold pageIdxToAddr; rw [add_sub_cancel_left]; rfl
  show 26 * 1024 ≤ (pageIdxToAddr mem.start 13 3 - mem.start).toNat ∧ _
  rw [hoff]
  decide

theorem stays_iff_low_step (e : Event) (h : BootInv mem s) : Stays mem s e ↔ Low s e := by
  cases e with
  | call c =>
    cases c with
    | alloc k => exact alloc_stays_iff_low h k
    | free addr k => exact Iff.rfl
  | reclaim => exact iff_of_false (not_reclaim_stays h) id

theorem alloc_marked (h : BootInv mem s) {k : ℕ} (hlow : Low s (.call (.alloc k))) :
    stackBlock ∈ freeBlocks (allocPages mem.start s.pages.pb k).2 := by
  cases ha : (allocPages mem.start s.pages.pb k).1 with
  | none => rw [(allocPages_none h.inv.inRange ha).1]; exact h.marked
  | some addr =>
    obtain ⟨b, hsrc, -, -, hfree⟩ := allocPages_some h.inv.shape h.inv.inRange ha
    rw [hfree]
    refine subset_carve _ _ _ ⟨h.marked, ?_⟩
    rintro rfl
    have := (low_iff_source hsrc).mp hlow
    simp [stackBlock] at this

theorem bootInv_step (e : Event) (t : BootState) (h : BootInv mem s) (hlow : Low s e)
    (hs : bootStep mem s e = some t) : BootInv mem t := by
  cases e with
  | call c =>
    obtain ⟨p, hp, rfl⟩ := Option.map_eq_some_iff.mp hs
    refine ⟨inv_step mem s.pages c p h.inv hp, h.notYet, ?_⟩
    cases c with
    | alloc k =>
      have hm := alloc_marked h hlow
      simp only [step] at hp
      cases ha : (allocPages mem.start s.pages.pb k).1 with
      | some addr => rw [ha] at hp; cases hp; exact hm
      | none => rw [ha] at hp; cases hp; exact hm
    | free addr k =>
      simp only [step] at hp
      split at hp
      · rename_i hl
        cases hp
        have hv := h.inv.valid _ hl
        obtain ⟨-, hfree⟩ := freeBlocks_freePages mem.aligned (b := blockOf mem ⟨addr, k⟩) h.inv.shape
          hv.order_le hv.idx_lt
        have haddr : pageIdxToAddr mem.start (blockOf mem ⟨addr, k⟩).idx (blockOf mem ⟨addr, k⟩).order =
            addr := hv.addr_eq.symm
        rw [haddr] at hfree
        show stackBlock ∈ freeBlocks (freePages mem.start s.pages.pb addr (blockOf mem ⟨addr, k⟩).order)
        rw [hfree]
        exact mem_release h.marked rfl
      · cases hp
  | reclaim => exact hlow.elim

end

theorem bootInv_boot (mem : PgMem) : BootInv mem bootState :=
  ⟨inv_boot mem, rfl, mem_freeBlocks_boot.mpr ⟨rfl, by decide⟩⟩

/-- **Exactly when the allocator stays inside its memory.** Along a run from
boot every step does what it should if and only if the run does not reach the
reclaim of the early stack and every allocation finds its block in the first
26 KB. -/
theorem stays_iff_low (mem : PgMem) (events : List Event) :
    (∀ x ∈ trace (bootStep mem) bootState events, Stays mem x.pre x.act) ↔
      ∀ x ∈ trace (bootStep mem) bootState events, Low x.pre x.act :=
  trace_forall_iff (Q := fun s e _ => Stays mem s e) (fun _ e _ h _ => stays_iff_low_step e h)
    (fun _ e t h hlow hs => bootInv_step e t h hlow hs) (bootInv_boot mem)

/-- The state after fourteen allocations of 2 KB. -/
def fourteenBlocks : BootState :=
  ⟨⟨[[0, 0, 0, 0], [0, 0], [0], [0x4000]],
    [⟨0x2000e800, 3⟩, ⟨0x2000e000, 3⟩, ⟨0x2000d800, 3⟩, ⟨0x2000d000, 3⟩, ⟨0x2000c800, 3⟩,
      ⟨0x2000c000, 3⟩, ⟨0x2000b800, 3⟩, ⟨0x2000b000, 3⟩, ⟨0x2000a800, 3⟩, ⟨0x2000a000, 3⟩,
      ⟨0x20009800, 3⟩, ⟨0x20009000, 3⟩, ⟨0x20008800, 3⟩, ⟨0x20008000, 3⟩]⟩, false⟩

/-- Fifteen allocations of 2 KB, with the reclaim not reached: the fourteenth
has returned the early stack, the fifteenth returns the start of `.mtdram`.
And at boot the early stack is already marked free. -/
theorem fifteenth_block_in_mtdram :
    (¬ ∀ events, ∀ x ∈ trace (bootStep pgMem64k) bootState events, Stays pgMem64k x.pre x.act) ∧
    run (bootStep pgMem64k) bootState (List.replicate 14 (.call (.alloc 3))) = some fourteenBlocks ∧
    fourteenBlocks.pages.live.head? = some ⟨earlyStackEnd pgMem64k, 3⟩ ∧
    (allocPages pgMem64k.start fourteenBlocks.pages.pb 3).1 = some 0x2000f000 ∧
    0x2000f000 ∈ mtdram pgMem64k ∧ ¬ Stays pgMem64k bootState .reclaim := by
  have hrun : run (bootStep pgMem64k) bootState (List.replicate 14 (.call (.alloc 3))) =
      some fourteenBlocks := by decide +kernel
  have halloc : (allocPages pgMem64k.start fourteenBlocks.pages.pb 3).1 = some 0x2000f000 := by decide
  have hmtd : 0x2000f000 ∈ mtdram pgMem64k := by
    show 28 * 1024 ≤ (0x2000f000#32 - pgMem64k.start).toNat ∧
      (0x2000f000#32 - pgMem64k.start).toNat < 32 * 1024
    decide
  refine ⟨fun hall => ?_, hrun, rfl, halloc, hmtd, not_reclaim_stays (bootInv_boot _)⟩
  have hnext : bootStep pgMem64k fourteenBlocks (.call (.alloc 3)) =
      some ⟨⟨[[0, 0, 0, 0], [0, 0], [0], [0]], ⟨0x2000f000, 3⟩ :: fourteenBlocks.pages.live⟩, false⟩ := by
    decide
  have hmem := mem_trace_of_run hrun hnext
  have hstays := hall _ _ hmem
  have hd := (hstays 0x2000f000 halloc).2.1
  exact Set.disjoint_left.mp hd (addr_mem_bytes _ _) hmtd

end PikoRT.Mm.PageLayout

import PikoRT.Mm.PageLayout
import PikoRT.Mm.PageUse

/-! # The page allocator finds what is there

An allocation fails only when no run of free pages has room for it: buddies that are free
have been coalesced, so that a run of free pages that is aligned to its size lies in one
free block. -/
namespace PikoRT.Mm.PageComplete
open PikoRT.Kernel.Bitops PikoRT.Lib.Run PikoRT.Lib.Buddy PikoRT.Mm.Page PikoRT.Mm.PageBuddy
open PikoRT.Mm.PageRun
open PikoRT.Mm.PageUse (ulongOrder ulongOrder_of_le ulongOrder_of_lt)

/-! ## An allocation that fails -/

section

variable {pb : PageBitmap} {start : Addr} {k : ℕ}

theorem allocPages_none_eq (h : (allocPages start pb k).1 = none) : allocPages start pb k = (none, pb) := by
  unfold allocPages at h ⊢
  by_cases hbig : searchOrder pb k (MAX_PAGE_ORDER + 1) > MAX_PAGE_ORDER
  · rw [if_pos hbig]
  · rw [if_neg hbig] at h
    cases h

theorem allocPages_eq_none_iff :
    (allocPages start pb k).1 = none ↔ ∀ o, k ≤ o → o ≤ 3 → findFirstFreePage pb o < 0 := by
  obtain ⟨hle, hgap, hfound⟩ := searchOrder_spec pb (k := k) (n := MAX_PAGE_ORDER + 1) (by simp)
  unfold allocPages
  by_cases hbig : searchOrder pb k (MAX_PAGE_ORDER + 1) > MAX_PAGE_ORDER
  · simp only [hbig, if_true, true_iff]
    intro o hk ho
    exact findFirstFreePage_neg.mpr (hgap o hk (lt_of_le_of_lt ho hbig))
  · simp only [hbig, if_false, reduceCtorEq, false_iff]
    intro hneg
    obtain ⟨i, hi, hfree⟩ := hfound (by simpa using hbig)
    rw [findFirstFreePage_neg.mp (hneg _ hle (by simpa using hbig)) i hi] at hfree
    cases hfree

end

/-! ## Runs of free pages -/

/-- `2 ^ k` pages that are all free, the first of them aligned to their number. -/
def FreeRun (pb : PageBitmap) (k : ℕ) : Prop := ∃ i, ∀ p, p / 2 ^ k = i → FreePage pb p

/-- The block that was allocated: large enough, taken from the free pages, which are fewer
by just this block afterwards. -/
structure Granted (pg : PgMem) (size : Word) (pb : PageBitmap) (addr : Addr) (pb' : PageBitmap) : Prop where
  room : size.toNat ≤ MIN_PAGE_SIZE * 2 ^ ulongOrder size
  wasFree : ∀ x ∈ bytes addr (ulongOrder size), FreePage pb (pageOf pg x)
  taken : ∀ x, FreePage pb' (pageOf pg x) ↔ FreePage pb (pageOf pg x) ∧ x ∉ bytes addr (ulongOrder size)

section

variable {pg : PgMem} {s : State} {k : ℕ} {addr : Addr}

theorem alloc_of_freeRun (h : Inv pg s) (hk : k ≤ 3) (hrun : FreeRun s.pb k) :
    ∃ addr, (allocPages pg.start s.pb k).1 = some addr := by
  obtain ⟨i, hi⟩ := hrun
  have hsub : (⟨k, i⟩ : Block).pages ⊆ pagesOf (freeBlocks s.pb) :=
    fun p hp => mem_pagesOf_freeBlocks.mpr (hi p (Block.mem_pages.mp hp))
  obtain ⟨c, hc, hle, -⟩ := h.ledger.canonical.exists_cover hk hsub
  cases ha : (allocPages pg.start s.pb k).1 with
  | some addr => exact ⟨addr, rfl⟩
  | none => exact absurd hle ((allocPages_none h.inRange ha).2 c hc)

/-- The pages of a new block and what was free before and after. -/
theorem pages_of_alloc (h : Inv pg s) (ha : (allocPages pg.start s.pb k).1 = some addr) :
    (∀ p ∈ (blockOf pg ⟨addr, k⟩).pages, FreePage s.pb p) ∧
      ∀ p, FreePage (allocPages pg.start s.pb k).2 p ↔
        FreePage s.pb p ∧ p ∉ (blockOf pg ⟨addr, k⟩).pages := by
  have hbefore := h.ledger
  have hafter := (h.alloc_some ha).ledger
  rw [List.map_cons] at hafter
  obtain ⟨happart, -⟩ := List.pairwise_cons.mp hafter.apart
  have hnotLive : ∀ p ∈ (blockOf pg ⟨addr, k⟩).pages, ∀ b ∈ s.live.map (blockOf pg), p ∉ b.pages :=
    fun p hp b hb => Set.disjoint_left.mp (happart b hb) hp
  simp only [← mem_pagesOf_freeBlocks]
  refine ⟨fun p hp => (hbefore.cover p).mpr ⟨(hafter.inside _ List.mem_cons_self).2 hp, hnotLive p hp⟩, fun p => ?_⟩
  rw [hafter.cover p, hbefore.cover p, List.forall_mem_cons]
  tauto

theorem granted_of_alloc {size : Word} (h : Inv pg s) (hsize : size.toNat ≤ 2048)
    (ha : (allocPages pg.start s.pb (ulongOrder size)).1 = some addr) :
    Granted pg size s.pb addr (allocPages pg.start s.pb (ulongOrder size)).2 := by
  obtain ⟨hfree, htaken⟩ := pages_of_alloc h ha
  have hv := (h.alloc_some ha).valid ⟨addr, ulongOrder size⟩ List.mem_cons_self
  have hbytes : ∀ x, x ∈ bytes addr (ulongOrder size) ↔
      pageOf pg x ∈ (blockOf pg ⟨addr, ulongOrder size⟩).pages := by
    intro x
    have hmem := mem_bytes_iff pg hv.order_le hv.idx_lt x
    rwa [← hv.addr_eq] at hmem
  refine ⟨(ulongOrder_of_le hsize).2.2, fun x hx => hfree _ ((hbytes x).mp hx), fun x => ?_⟩
  rw [htaken, hbytes]

theorem freeRun_of_alloc (h : Inv pg s) (ha : (allocPages pg.start s.pb k).1 = some addr) : FreeRun s.pb k :=
  ⟨_, fun p hp => (pages_of_alloc h ha).1 p (Block.mem_pages.mpr hp)⟩

end

/-- `start_kernel` frees the early stack, whose block is free: this leaves the maps as they
are, so that the states of the allocator are those that its calls lead to. -/
theorem reclaim_eq {pg : PgMem} {pb : PageBitmap} (hs : Shape pb) (hb : PageLayout.stackBlock ∈ freeBlocks pb) :
    freePages pg.start pb (PageLayout.earlyStackEnd pg) (sizeToPageOrder 2048).toNat = pb := by
  obtain ⟨hs', hfree⟩ := freeBlocks_freePages pg.aligned (b := PageLayout.stackBlock) hs le_rfl (by decide)
  refine ext_freeBlocks hs' hs (hfree.trans ?_)
  rw [release, if_neg (by simp [PageLayout.stackBlock]), Set.insert_eq_of_mem hb]

/-- **Completeness.** In every reachable state and for every size, a block of at least that
size is allocated if and only if the size is at most 2048 and the free pages contain an
aligned run of its order; otherwise nothing changes. -/
theorem alloc_complete (pg : PgMem) (s : State) (hs : Reachable (step pg) boot s) (size : Word) :
    ((∃ addr pb, allocPages pg.start s.pb (ulongOrder size) = (some addr, pb) ∧
        Granted pg size s.pb addr pb) ↔
      size.toNat ≤ 2048 ∧ FreeRun s.pb (sizeToPageOrder size.toNat).toNat) ∧
    (¬ (size.toNat ≤ 2048 ∧ FreeRun s.pb (sizeToPageOrder size.toNat).toNat) →
      allocPages pg.start s.pb (ulongOrder size) = (none, s.pb)) := by
  have hinv := reachable_inv hs
  have hsome : ∀ addr, (allocPages pg.start s.pb (ulongOrder size)).1 = some addr →
      size.toNat ≤ 2048 ∧ FreeRun s.pb (sizeToPageOrder size.toNat).toNat := by
    intro addr ha
    by_cases hsize : size.toNat ≤ 2048
    · have hrun := freeRun_of_alloc hinv ha
      rw [(ulongOrder_of_le hsize).1] at hrun
      exact ⟨hsize, hrun⟩
    · have hnone : (allocPages pg.start s.pb (ulongOrder size)).1 = none := by
        rw [allocPages_eq_none_iff, ulongOrder_of_lt (by omega)]
        intro o hk ho
        omega
      rw [hnone] at ha
      cases ha
  refine ⟨⟨?_, ?_⟩, fun hnot => ?_⟩
  · rintro ⟨addr, pb, ha, -⟩
    exact hsome addr (by rw [ha])
  · rintro ⟨hsize, hrun⟩
    rw [← (ulongOrder_of_le hsize).1] at hrun
    obtain ⟨addr, ha⟩ := alloc_of_freeRun hinv (ulongOrder_of_le hsize).2.1 hrun
    exact ⟨addr, _, Prod.ext ha rfl, granted_of_alloc hinv hsize ha⟩
  · refine allocPages_none_eq ?_
    cases ha : (allocPages pg.start s.pb (ulongOrder size)).1 with
    | none => rfl
    | some addr => exact absurd (hsome addr ha) hnot

theorem alloc_complete_2048 :
    ∃ addr pb, allocPages pgMem64k.start boot.pb (ulongOrder 2048) = (some addr, pb) ∧
      Granted pgMem64k 2048 boot.pb addr pb := by
  refine (alloc_complete pgMem64k boot (Reachable.refl _) 2048).1.mpr ⟨by decide, 0, fun p hp => ⟨3, le_rfl, ?_⟩⟩
  rw [show (2048 : Word).toNat = 2048 from rfl, show (sizeToPageOrder 2048).toNat = 3 from rfl] at hp
  rw [hp]
  rfl

end PikoRT.Mm.PageComplete

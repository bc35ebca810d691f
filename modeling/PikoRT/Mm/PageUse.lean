import PikoRT.Mm.PageRun

/-! # Users of the page allocator

`alloc_pages` and `free_pages` as the rest of the kernel calls them. A user that has
aligned some address of its block down frees the block: `free_pages` looks at the number
of the block alone. -/
namespace PikoRT.Mm.PageUse
open PikoRT.Kernel.Bitops PikoRT.Mm.Page
open PikoRT.Mm.PageRun (PgMem Lease bytes)

/-- `align(x, a)` of `kernel/kernel.h`. -/
def align (x : Addr) (a : ℕ) : Addr := x &&& ~~~(BitVec.ofNat 32 a - 1)

/-- `size_to_page_order` as it is passed on: the order is an `unsigned long`, and -1 a very
large one. -/
def ulongOrder (size : Word) : ℕ := (BitVec.ofInt 32 (sizeToPageOrder size.toNat)).toNat

/-- `alloc_pages`. -/
def allocate (mem : PgMem) (order : ℕ) (p : PageRun.State) : Option Addr × PageRun.State :=
  let r := allocPages mem.start p.pb order
  match r.1 with
  | some addr => (some addr, ⟨r.2, ⟨addr, order⟩ :: p.live⟩)
  | none => (none, ⟨r.2, p.live⟩)

/-- `free_pages` of an address in the block of a lease. -/
def release (mem : PgMem) (addr : Addr) (l : Lease) (p : PageRun.State) : PageRun.State :=
  ⟨freePages mem.start p.pb addr l.order, p.live.erase l⟩

theorem ulongOrder_of_le {size : Word} (h : size.toNat ≤ 2048) :
    ulongOrder size = (sizeToPageOrder size.toNat).toNat ∧ ulongOrder size ≤ 3 ∧
      size.toNat ≤ MIN_PAGE_SIZE * 2 ^ ulongOrder size := by
  unfold ulongOrder sizeToPageOrder
  split_ifs <;> simp [MIN_PAGE_SIZE] <;> omega

theorem ulongOrder_of_lt {size : Word} (h : 2048 < size.toNat) : ulongOrder size = 2 ^ 32 - 1 := by
  unfold ulongOrder sizeToPageOrder
  rw [if_neg (by omega), if_neg (by omega), if_neg (by omega), if_neg (by omega)]
  rfl

variable {mem : PgMem} {p : PageRun.State} {o : ℕ} {addr : Addr}

theorem inv_allocate (h : PageRun.Inv mem p) (o : ℕ) : PageRun.Inv mem (allocate mem o p).2 := by
  refine PageRun.inv_step mem p (.alloc o) _ h ?_
  unfold allocate PageRun.step
  dsimp only
  cases (allocPages mem.start p.pb o).1 <;> rfl

theorem allocate_some (ha : (allocate mem o p).1 = some addr) :
    (allocate mem o p).2.live = ⟨addr, o⟩ :: p.live := by
  unfold allocate at ha ⊢
  dsimp only at ha ⊢
  cases hr : (allocPages mem.start p.pb o).1 with
  | none => rw [hr] at ha; cases ha
  | some a =>
    rw [hr] at ha
    cases ha
    rfl

theorem allocate_none (ha : (allocate mem o p).1 = none) : (allocate mem o p).2.live = p.live := by
  unfold allocate at ha ⊢
  dsimp only at ha ⊢
  cases hr : (allocPages mem.start p.pb o).1 with
  | none => rfl
  | some a =>
    rw [hr] at ha
    cases ha

theorem live_subset_allocate (mem : PgMem) (o : ℕ) (p : PageRun.State) {l : Lease} (hl : l ∈ p.live) :
    l ∈ (allocate mem o p).2.live := by
  unfold allocate
  dsimp only
  cases (allocPages mem.start p.pb o).1 with
  | none => exact hl
  | some a => exact List.mem_cons_of_mem _ hl

theorem nodup_live (h : PageRun.Inv mem p) : p.live.Nodup := by
  refine h.live_disjoint.imp_of_mem fun {l m} hl _ hd he => ?_
  subst he
  have hmem : l.addr ∈ bytes l.addr l.order := by
    show (l.addr - l.addr).toNat < _
    rw [sub_self]
    simp
  exact Set.disjoint_left.mp hd hmem hmem

/-- A block that is handed out was not held. -/
theorem allocate_fresh (h : PageRun.Inv mem p) (ha : (allocate mem o p).1 = some addr) :
    ⟨addr, o⟩ ∉ p.live := by
  have hnd := nodup_live (inv_allocate h o)
  rw [allocate_some ha] at hnd
  exact (List.nodup_cons.mp hnd).1

theorem shiftRight_sub_congr {x y start : Addr} (ho : o ≤ 3) (hs : start.toNat % 2048 = 0)
    (h : x.toNat / 2 ^ (o + MIN_PAGE_SHIFT) = y.toNat / 2 ^ (o + MIN_PAGE_SHIFT)) :
    addrToPageIdx start x o = addrToPageIdx start y o := by
  have hx := x.isLt
  have hy := y.isLt
  have hlt := start.isLt
  unfold addrToPageIdx
  simp only [BitVec.toNat_ushiftRight, BitVec.toNat_sub, Nat.shiftRight_eq_div_pow]
  interval_cases o <;> simp only [MIN_PAGE_SHIFT] at h ⊢ <;> omega

/-- `free_pages` looks at the number of the block alone. -/
theorem freePages_congr {x y : Addr} (ho : o ≤ 3)
    (h : x.toNat / 2 ^ (o + MIN_PAGE_SHIFT) = y.toNat / 2 ^ (o + MIN_PAGE_SHIFT)) (pb : PageBitmap) :
    freePages mem.start pb x o = freePages mem.start pb y o := by
  have hidx := shiftRight_sub_congr ho mem.aligned h
  unfold freePages
  cases hn : MAX_PAGE_ORDER - o with
  | zero => simp only [freeLoop, hidx]
  | succ n =>
    have ho2 : o ≤ 2 := by simp only [MAX_PAGE_ORDER] at hn; omega
    have hmask : x &&& coalesceMask o = y &&& coalesceMask o := by
      apply BitVec.eq_of_toNat_eq
      rw [PageBuddy.toNat_and_coalesceMask x ho2, PageBuddy.toNat_and_coalesceMask y ho2,
        show o + 9 = (o + MIN_PAGE_SHIFT) + 1 from rfl, pow_succ 2 (o + MIN_PAGE_SHIFT),
        ← Nat.div_div_eq_div_mul, ← Nat.div_div_eq_div_mul, h]
    simp only [freeLoop, hidx, hmask]

/-- `align` changes the bits below the size only. -/
theorem align_div {a k : ℕ} (x : Addr) (ha : 0 < a) (hk : a ≤ 2 ^ k) (hk32 : k < 32) :
    (align x a).toNat / 2 ^ k = x.toNat / 2 ^ k := by
  have hsmall : a < 2 ^ 32 := lt_of_le_of_lt hk (Nat.pow_lt_pow_right (by norm_num) hk32)
  have hm : (BitVec.ofNat 32 a - 1 : Addr).toNat < 2 ^ k := by
    rw [BitVec.toNat_sub_of_le]
    · simp only [BitVec.toNat_ofNat, Nat.mod_eq_of_lt hsmall]
      show a - 1 < _
      omega
    · rw [BitVec.le_def, BitVec.toNat_ofNat, Nat.mod_eq_of_lt hsmall]
      exact ha
  have hbits : align x a >>> k = x >>> k := by
    apply BitVec.eq_of_getLsbD_eq
    intro i hi
    rw [BitVec.getLsbD_ushiftRight, BitVec.getLsbD_ushiftRight]
    unfold align
    rw [BitVec.getLsbD_and, BitVec.getLsbD_not]
    have hzero : (BitVec.ofNat 32 a - 1 : Addr).getLsbD (k + i) = false :=
      Nat.testBit_lt_two_pow (lt_of_lt_of_le hm (Nat.pow_le_pow_right (by norm_num) (by omega)))
    rw [hzero]
    by_cases hki : k + i < 32
    · simp [hki]
    · rw [BitVec.getLsbD_of_ge x (k + i) (by omega)]
      simp
  have hnat := congrArg BitVec.toNat hbits
  rwa [BitVec.toNat_ushiftRight, BitVec.toNat_ushiftRight, Nat.shiftRight_eq_div_pow,
    Nat.shiftRight_eq_div_pow] at hnat

theorem inv_release {l : Lease} {x : Addr} (h : PageRun.Inv mem p) (hl : l ∈ p.live)
    (hx : x.toNat / 2 ^ (l.order + MIN_PAGE_SHIFT) = l.addr.toNat / 2 ^ (l.order + MIN_PAGE_SHIFT)) :
    PageRun.Inv mem (release mem x l p) := by
  unfold release
  rw [freePages_congr (h.valid l hl).order_le hx]
  exact h.free hl

/-- An address in a block has the number of the block. -/
theorem div_of_mem_bytes {l : Lease} {x : Addr} (h : PageRun.Inv mem p) (hl : l ∈ p.live)
    (hx : (x - l.addr).toNat < 2 ^ (l.order + MIN_PAGE_SHIFT)) :
    x.toNat / 2 ^ (l.order + MIN_PAGE_SHIFT) = l.addr.toNat / 2 ^ (l.order + MIN_PAGE_SHIFT) := by
  have hv := h.valid l hl
  have ho : l.order ≤ 3 := hv.order_le
  have hal := PageRun.aligned_pageIdxToAddr mem hv.order_le hv.idx_lt
  rw [← hv.addr_eq] at hal
  have hxlt := x.isLt
  have halt := l.addr.isLt
  rw [BitVec.toNat_sub] at hx
  generalize l.order = o at *
  interval_cases o <;> simp only [MIN_PAGE_SHIFT, MIN_PAGE_SIZE] at hx hal ⊢ <;> omega

end PikoRT.Mm.PageUse

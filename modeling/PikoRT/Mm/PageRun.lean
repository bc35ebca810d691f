import PikoRT.Lib.Run
import PikoRT.Mm.PageBuddy

/-! # Runs of the page allocator

The allocator as a state machine: `page_bitmap` and the blocks its callers
hold. A caller allocates with any order and frees a block that it holds, with
the order it was allocated with. The invariant `Inv` says that free and held
blocks tile the 120 pages of the initial bitmap and that the free ones are
coalesced; from it follow safety (`reachable_safe`) and that the bitmaps are a
function of what is held (`reachable_restores`). -/
namespace PikoRT.Mm.PageRun
open PikoRT.Kernel.Bitops PikoRT.Lib.Run PikoRT.Lib.Buddy PikoRT.Mm.Page PikoRT.Mm.PageBuddy

/-- The page memory as the linker places it: `__pgmem_start__` is aligned to the
largest block. -/
structure PgMem where
  start : Addr
  aligned : start.toNat % 2048 = 0

/-- A block that `alloc_pages` returned: its address and its order. -/
structure Lease where
  addr : Addr
  order : ℕ
  deriving DecidableEq

structure State where
  pb : PageBitmap
  live : List Lease
  deriving DecidableEq

inductive Call where
  | alloc (order : ℕ)
  | free (addr : Addr) (order : ℕ)
  deriving DecidableEq

/-- One call. Only a block that is held can be freed. -/
def step (mem : PgMem) (s : State) : Call → Option State
  | .alloc order =>
    let r := allocPages mem.start s.pb order
    match r.1 with
    | some addr => some ⟨r.2, ⟨addr, order⟩ :: s.live⟩
    | none => some ⟨r.2, s.live⟩
  | .free addr order =>
    if ⟨addr, order⟩ ∈ s.live then
      some ⟨freePages mem.start s.pb addr order, s.live.erase ⟨addr, order⟩⟩
    else none

def boot : State := ⟨pageBitmapInit, []⟩

/-- The bytes of a block. -/
def bytes (addr : Addr) (order : ℕ) : Set Addr := {x | (x - addr).toNat < MIN_PAGE_SIZE * 2 ^ order}

/-! ## Blocks and bytes -/

/-- The number of the page that holds a byte. -/
def pageOf (mem : PgMem) (x : Addr) : ℕ := (x - mem.start).toNat / MIN_PAGE_SIZE

theorem mem_bytes_iff (mem : PgMem) {o i : ℕ} (ho : o ≤ 3) (hi : i < pageBitmapSz o) (x : Addr) :
    x ∈ bytes (pageIdxToAddr mem.start i o) o ↔ pageOf mem x ∈ (⟨o, i⟩ : Block).pages := by
  have hsub : x - pageIdxToAddr mem.start i o =
      (x - mem.start) - BitVec.ofNat 32 (i * 2 ^ (o + MIN_PAGE_SHIFT)) := by
    unfold pageIdxToAddr; rw [sub_add_eq_sub_sub]
  show (x - pageIdxToAddr mem.start i o).toNat < _ ↔ _
  rw [hsub]
  simp only [Block.mem_pages, pageOf, BitVec.toNat_sub (x - mem.start), BitVec.toNat_ofNat]
  have hx := (x - mem.start).isLt
  generalize (x - mem.start).toNat = y at *
  interval_cases o <;> simp [pageBitmapSz, MIN_PAGE_SHIFT, MIN_PAGE_SIZE] at hi ⊢ <;> omega

/-- Blocks apart in pages are apart in bytes. -/
theorem disjoint_bytes (mem : PgMem) {b c : Block} (hb : b.order ≤ 3)
    (hbi : b.idx < pageBitmapSz b.order) (hc : c.order ≤ 3) (hci : c.idx < pageBitmapSz c.order)
    (h : Disjoint b.pages c.pages) :
    Disjoint (bytes (pageIdxToAddr mem.start b.idx b.order) b.order)
      (bytes (pageIdxToAddr mem.start c.idx c.order) c.order) := by
  refine Set.disjoint_left.mpr fun x hxb hxc => ?_
  rw [mem_bytes_iff mem hb hbi] at hxb
  rw [mem_bytes_iff mem hc hci] at hxc
  exact Set.disjoint_left.mp h hxb hxc

theorem aligned_pageIdxToAddr (mem : PgMem) {o i : ℕ} (ho : o ≤ 3) (hi : i < pageBitmapSz o) :
    (pageIdxToAddr mem.start i o).toNat % (MIN_PAGE_SIZE * 2 ^ o) = 0 := by
  have hal := mem.aligned
  have hlt := mem.start.isLt
  simp only [pageIdxToAddr, BitVec.toNat_add, BitVec.toNat_ofNat]
  interval_cases o <;> simp [pageBitmapSz, MIN_PAGE_SHIFT, MIN_PAGE_SIZE] at hi ⊢ <;> omega

/-! ## The invariant -/

/-- The block of a lease. -/
def blockOf (mem : PgMem) (l : Lease) : Block := ⟨l.order, addrToPageIdx mem.start l.addr l.order⟩

/-- The pages of the initial bitmap: 15 blocks of 8 pages. -/
def bootPages : Set ℕ := {p | p < 120}

/-- The lease's address is that of a block of the maps. -/
structure Valid (mem : PgMem) (l : Lease) : Prop where
  order_le : l.order ≤ 3
  idx_lt : (blockOf mem l).idx < pageBitmapSz l.order
  addr_eq : l.addr = pageIdxToAddr mem.start (blockOf mem l).idx l.order

structure Inv (mem : PgMem) (s : State) : Prop where
  shape : Shape s.pb
  valid : ∀ l ∈ s.live, Valid mem l
  ledger : Ledger 3 bootPages (freeBlocks s.pb) (s.live.map (blockOf mem))

theorem idx_lt_of_pages {b : Block} (ho : b.order ≤ 3) (h : b.pages ⊆ bootPages) :
    b.idx < pageBitmapSz b.order := by
  have hp : b.idx * 2 ^ b.order ∈ b.pages := Nat.mul_div_cancel _ (by positivity)
  have hlt : b.idx * 2 ^ b.order < 120 := h hp
  obtain ⟨o, i⟩ := b
  simp only at ho hlt ⊢
  interval_cases o <;> simp [pageBitmapSz] at hlt ⊢ <;> omega

section

variable {mem : PgMem} {s : State}

theorem Inv.idx_lt (h : Inv mem s) {b : Block} (hb : b ∈ freeBlocks s.pb) :
    b.idx < pageBitmapSz b.order :=
  idx_lt_of_pages hb.1 (h.ledger.pages_subset_of_mem hb)

theorem Inv.inRange (h : Inv mem s) : InRange s.pb := fun _ hb => h.idx_lt hb

theorem Inv.source_take (h : Inv mem s) {b : Block} {k : ℕ} (hs : Source s.pb k b) :
    Ledger 3 bootPages (carve k (freeBlocks s.pb \ {b}) b).1
      ((carve k (freeBlocks s.pb \ {b}) b).2 :: s.live.map (blockOf mem)) :=
  h.ledger.take hs.mem hs.le hs.least

/-- What a successful allocation returns: the carved block, valid and apart from
what is held. -/
theorem Inv.alloc_some (h : Inv mem s) {k : ℕ} {addr : Addr}
    (ha : (allocPages mem.start s.pb k).1 = some addr) :
    Inv mem ⟨(allocPages mem.start s.pb k).2, ⟨addr, k⟩ :: s.live⟩ := by
  obtain ⟨b, hsrc, hsh, haddr, hfree⟩ := allocPages_some h.shape h.inRange ha
  have hled := h.source_take hsrc
  have hord : (carve k (freeBlocks s.pb \ {b}) b).2.order = k := carve_order k _ b hsrc.le
  have hk : k ≤ 3 := hsrc.le.trans hsrc.mem.1
  generalize carve k (freeBlocks s.pb \ {b}) b = r at *
  have hidx : r.2.idx < pageBitmapSz k := by
    have := idx_lt_of_pages (b := r.2) (by omega) (hled.inside r.2 (by simp)).2
    rwa [hord] at this
  have hblk : blockOf mem ⟨addr, k⟩ = r.2 := by
    ext
    · exact hord.symm
    · simp only [blockOf, haddr, addrToPageIdx_pageIdxToAddr mem.start hk hidx]
  refine ⟨hsh, ?_, ?_⟩
  · intro l hl
    rcases List.mem_cons.mp hl with rfl | hl
    · exact ⟨hk, by rw [hblk]; exact hidx, by rw [hblk]; exact haddr⟩
    · exact h.valid l hl
  · simp only [List.map_cons, hblk, hfree]
    exact hled

theorem Inv.free (h : Inv mem s) {l : Lease} (hl : l ∈ s.live) :
    Inv mem ⟨freePages mem.start s.pb l.addr l.order, s.live.erase l⟩ := by
  have hv := h.valid l hl
  obtain ⟨hsh, hfree⟩ := freeBlocks_freePages mem.aligned (b := blockOf mem l) h.shape
    hv.order_le hv.idx_lt
  have haddr : pageIdxToAddr mem.start (blockOf mem l).idx (blockOf mem l).order = l.addr :=
    hv.addr_eq.symm
  rw [haddr] at hsh hfree
  have hperm : (s.live.map (blockOf mem)).Perm
      (blockOf mem l :: (s.live.erase l).map (blockOf mem)) := (List.perm_cons_erase hl).map _
  refine ⟨hsh, fun l' hl' => h.valid l' (List.mem_of_mem_erase hl'), ?_⟩
  show Ledger 3 bootPages (freeBlocks (freePages mem.start s.pb l.addr (blockOf mem l).order)) _
  rw [hfree]
  exact (h.ledger.perm hperm).give

end

theorem inv_step (mem : PgMem) (s : State) (c : Call) (t : State) (h : Inv mem s)
    (hs : step mem s c = some t) : Inv mem t := by
  cases c with
  | alloc k =>
    simp only [step] at hs
    cases ha : (allocPages mem.start s.pb k).1 with
    | some addr =>
      rw [ha] at hs
      cases hs
      exact h.alloc_some ha
    | none =>
      rw [ha] at hs
      cases hs
      rw [(allocPages_none h.inRange ha).1]
      exact h
  | free addr k =>
    simp only [step] at hs
    split at hs
    · rename_i hl
      cases hs
      exact h.free hl
    · cases hs

theorem mem_freeBlocks_boot {b : Block} :
    b ∈ freeBlocks pageBitmapInit ↔ b.order = 3 ∧ b.idx < 15 := by
  obtain ⟨o, i⟩ := b
  simp only [mem_freeBlocks]
  have hzero : ∀ o ≤ 2, ∀ i, freeBit pageBitmapInit o i = false := by
    intro o ho i
    unfold freeBit testBit
    have hw : (pageBitmapInit.getD o []).getD (i / 32) 0 = 0 := by
      interval_cases o <;> simp only [pageBitmapInit, List.getD_cons_zero, List.getD_cons_succ]
      · rcases i / 32 with _ | _ | _ | _ | _ <;> simp
      · rcases i / 32 with _ | _ | _ <;> simp
      · rcases i / 32 with _ | _ <;> simp
    rw [hw]; simp
  have htop : ∀ i, freeBit pageBitmapInit 3 i = decide (i < 15) := by
    intro i
    by_cases hi : i < 32
    · interval_cases i <;> rfl
    · have hw : i / 32 ≠ 0 := by omega
      have hlt : ¬ i < 15 := by omega
      obtain ⟨w, hw'⟩ := Nat.exists_eq_succ_of_ne_zero hw
      simp [freeBit, testBit, pageBitmapInit, hw', hlt]
  by_cases h2 : o ≤ 2
  · simp [hzero o h2]; omega
  · by_cases h3 : o = 3
    · subst h3; simp [htop]
    · simp only [h3, false_and, iff_false, not_and]; omega

theorem inv_boot (mem : PgMem) : Inv mem boot := by
  refine ⟨shape_init, by simp [boot], ⟨⟨?_, ?_, ?_⟩, by simp [boot], by simp [boot], ?_⟩⟩
  · intro b hb; exact hb.1
  · intro b hb c hc hne
    have hb' := mem_freeBlocks_boot.mp hb
    have hc' := mem_freeBlocks_boot.mp hc
    exact Block.disjoint_of_order_eq (hb'.1.trans hc'.1.symm) hne
  · intro b hb hlt
    have := (mem_freeBlocks_boot.mp hb).1
    omega
  · intro p
    simp only [boot, List.map_nil, List.not_mem_nil, false_imp_iff, implies_true, and_true]
    constructor
    · rintro ⟨b, hb, hp⟩
      obtain ⟨ho, hi⟩ := mem_freeBlocks_boot.mp hb
      rw [Block.mem_pages, ho] at hp
      show p < 120
      omega
    · intro hp
      have hp' : p < 120 := hp
      exact ⟨⟨3, p / 8⟩, mem_freeBlocks_boot.mpr ⟨rfl, by simp only; omega⟩, rfl⟩

theorem reachable_inv {mem : PgMem} {s : State} (h : Reachable (step mem) boot s) : Inv mem s :=
  h.invariant (inv_step mem) (inv_boot mem)

/-! ## Safety -/

section

variable {mem : PgMem} {s : State}

theorem Inv.order_eq (h : Inv mem s) {p o o' : ℕ} (ho : o ≤ 3) (ho' : o' ≤ 3)
    (hb : freeBit s.pb o (p / 2 ^ o) = true) (hb' : freeBit s.pb o' (p / 2 ^ o') = true) : o = o' := by
  have hm : (⟨o, p / 2 ^ o⟩ : Block) ∈ freeBlocks s.pb := ⟨ho, hb⟩
  have hm' : (⟨o', p / 2 ^ o'⟩ : Block) ∈ freeBlocks s.pb := ⟨ho', hb'⟩
  have he := h.ledger.canonical.eq_of_mem hm hm' (p := p) rfl rfl
  exact congrArg Block.order he

theorem Inv.live_disjoint (h : Inv mem s) :
    s.live.Pairwise fun l m => Disjoint (bytes l.addr l.order) (bytes m.addr m.order) := by
  have hpages := List.pairwise_map.mp h.ledger.apart
  refine hpages.imp_of_mem fun {l m} hl hm hd => ?_
  have hvl := h.valid l hl
  have hvm := h.valid m hm
  have := disjoint_bytes mem (b := blockOf mem l) (c := blockOf mem m) hvl.order_le hvl.idx_lt
    hvm.order_le hvm.idx_lt hd
  rw [hvl.addr_eq, hvm.addr_eq]
  exact this

theorem Inv.free_live_disjoint (h : Inv mem s) {o i : ℕ} (ho : o ≤ 3) (hb : freeBit s.pb o i = true)
    {l : Lease} (hl : l ∈ s.live) :
    Disjoint (bytes (pageIdxToAddr mem.start i o) o) (bytes l.addr l.order) := by
  have hm : (⟨o, i⟩ : Block) ∈ freeBlocks s.pb := ⟨ho, hb⟩
  have hv := h.valid l hl
  have hd := h.ledger.disjoint_of_mem hm (List.mem_map_of_mem hl)
  have := disjoint_bytes mem ho (h.idx_lt hm) (c := blockOf mem l) hv.order_le hv.idx_lt hd
  rw [hv.addr_eq]
  exact this

theorem Inv.alloc_aligned (h : Inv mem s) {k : ℕ} {addr : Addr}
    (ha : (allocPages mem.start s.pb k).1 = some addr) :
    addr.toNat % (MIN_PAGE_SIZE * 2 ^ k) = 0 := by
  have hv := (h.alloc_some ha).valid ⟨addr, k⟩ (by simp)
  rw [show addr = _ from hv.addr_eq]
  exact aligned_pageIdxToAddr mem hv.order_le hv.idx_lt

end

/-- **Safety.** In every reachable state no page is covered by two free bits of
any orders, free blocks are apart from held ones, held blocks are pairwise
apart, and a block that `alloc_pages` returns next is aligned to its size and
apart from every held one. -/
theorem reachable_safe (mem : PgMem) (s : State) (h : Reachable (step mem) boot s) :
    (∀ p o o', o ≤ 3 → o' ≤ 3 → freeBit s.pb o (p / 2 ^ o) = true →
      freeBit s.pb o' (p / 2 ^ o') = true → o = o') ∧
    (∀ o i, o ≤ 3 → freeBit s.pb o i = true → ∀ l ∈ s.live,
      Disjoint (bytes (pageIdxToAddr mem.start i o) o) (bytes l.addr l.order)) ∧
    (s.live.Pairwise fun l m => Disjoint (bytes l.addr l.order) (bytes m.addr m.order)) ∧
    ∀ k addr, (allocPages mem.start s.pb k).1 = some addr →
      addr.toNat % (MIN_PAGE_SIZE * 2 ^ k) = 0 ∧
      ∀ l ∈ s.live, Disjoint (bytes addr k) (bytes l.addr l.order) := by
  have hinv := reachable_inv h
  refine ⟨fun p o o' ho ho' hb hb' => hinv.order_eq ho ho' hb hb',
    fun o i ho hb l hl => hinv.free_live_disjoint ho hb hl, hinv.live_disjoint, ?_⟩
  intro k addr ha
  exact ⟨hinv.alloc_aligned ha, (List.pairwise_cons.mp (hinv.alloc_some ha).live_disjoint).1⟩

/-- Page memory at the place it has with 64 KB of RAM. -/
def pgMem64k : PgMem := ⟨0x20008000, by decide⟩

theorem reachable_safe_two_blocks :
    ∃ s, Reachable (step pgMem64k) boot s ∧ s.live.length = 2 ∧
      s.live.Pairwise fun l m => Disjoint (bytes l.addr l.order) (bytes m.addr m.order) :=
  have h : Reachable (step pgMem64k) boot ⟨[[2, 0, 0, 0], [0, 0], [2], [0x7ffe]],
      [⟨0x20008200, 1⟩, ⟨0x20008000, 0⟩]⟩ := ⟨[.alloc 0, .alloc 1], by decide⟩
  ⟨_, h, rfl, (reachable_safe pgMem64k _ h).2.2.1⟩

/-! ## The bitmaps are a function of what is held -/

/-- Page `p` is covered by a free block. -/
def FreePage (pb : PageBitmap) (p : ℕ) : Prop := ∃ o ≤ 3, freeBit pb o (p / 2 ^ o) = true

theorem mem_pagesOf_freeBlocks {pb : PageBitmap} {p : ℕ} :
    p ∈ pagesOf (freeBlocks pb) ↔ FreePage pb p := by
  constructor
  · rintro ⟨b, hb, hp⟩
    exact ⟨b.order, hb.1, by rw [Block.mem_pages.mp hp]; exact hb.2⟩
  · rintro ⟨o, ho, hb⟩
    exact ⟨⟨o, p / 2 ^ o⟩, ⟨ho, hb⟩, rfl⟩

theorem Inv.coalesced {mem : PgMem} {s : State} (h : Inv mem s) {o : ℕ} (ho : o < 3) (i : ℕ) :
    ¬ (freeBit s.pb o (2 * i) = true ∧ freeBit s.pb o (2 * i + 1) = true) := by
  rintro ⟨hl, hr⟩
  refine h.ledger.canonical.coalesced ⟨o, 2 * i⟩ ⟨ho.le, hl⟩ ho ?_
  have hbud : (⟨o, 2 * i⟩ : Block).buddy = ⟨o, 2 * i + 1⟩ := by simp [Block.buddy]
  rw [hbud]
  exact ⟨ho.le, hr⟩

/-- Every page of the initial bitmap is free or held. -/
theorem Inv.ncard_freePage {mem : PgMem} {s : State} (h : Inv mem s) :
    {p | FreePage s.pb p}.ncard + (s.live.map fun l => 2 ^ l.order).sum = 120 := by
  have hboot : bootPages = ((Finset.range 120 : Finset ℕ) : Set ℕ) := by
    ext p
    simp [bootPages]
  have hfree : pagesOf (freeBlocks s.pb) = {p | FreePage s.pb p} := by
    ext p
    exact mem_pagesOf_freeBlocks
  have hcount := h.ledger.ncard (hboot ▸ Finset.finite_toSet _)
  rwa [hfree, hboot, Set.ncard_coe_finset, Finset.card_range, List.map_map] at hcount

/-- Blocks that others hold do not change what a run does. -/
theorem step_frame {mem : PgMem} {s t : State} {c : Call} (h : step mem s c = some t)
    (L : List Lease) : step mem ⟨s.pb, s.live ++ L⟩ c = some ⟨t.pb, t.live ++ L⟩ := by
  cases c with
  | alloc k =>
    simp only [step] at h ⊢
    cases ha : (allocPages mem.start s.pb k).1 with
    | some addr => rw [ha] at h; cases h; rfl
    | none => rw [ha] at h; cases h; rfl
  | free addr k =>
    simp only [step] at h ⊢
    split at h
    · rename_i hl
      cases h
      rw [if_pos (List.mem_append_left _ hl), List.erase_append_left _ hl]
    · cases h

theorem run_frame {mem : PgMem} {s t : State} {calls : List Call}
    (h : run (step mem) s calls = some t) (L : List Lease) :
    run (step mem) ⟨s.pb, s.live ++ L⟩ calls = some ⟨t.pb, t.live ++ L⟩ := by
  induction calls generalizing s with
  | nil => cases h; rfl
  | cons c calls ih =>
    obtain ⟨u, hu, hr⟩ := run_cons_some h
    rw [run_cons, step_frame hu L]
    exact ih hr

/-- Whatever is held can be freed, in any order. -/
theorem run_free_all (mem : PgMem) {t : State} {ls : List Lease} (hp : ls.Perm t.live) :
    ∃ pb, run (step mem) t (ls.map fun l => .free l.addr l.order) = some ⟨pb, []⟩ := by
  induction ls generalizing t with
  | nil =>
    have hnil : t.live = [] := List.nil_perm.mp hp
    exact ⟨t.pb, by rw [List.map_nil, run_nil, ← hnil]⟩
  | cons l ls ih =>
    have hl : l ∈ t.live := hp.subset (by simp)
    obtain ⟨pb, hpb⟩ := ih (t := ⟨freePages mem.start t.pb l.addr l.order, t.live.erase l⟩)
      (List.cons_perm_iff_perm_erase.mp hp).2
    refine ⟨pb, ?_⟩
    rw [List.map_cons, run_cons]
    simp only [step]
    rw [if_pos hl]
    exact hpb

/-- A run that frees what it allocated leaves the bitmaps as they were. -/
theorem Inv.session {mem : PgMem} {s : State} (h : Inv mem s) {calls : List Call} {pb : PageBitmap}
    (hr : run (step mem) ⟨s.pb, []⟩ calls = some ⟨pb, []⟩) : pb = s.pb := by
  have hrun : run (step mem) s calls = some ⟨pb, s.live⟩ := run_frame hr s.live
  have hend : Inv mem ⟨pb, s.live⟩ := run_invariant (inv_step mem) hrun h
  exact ext_freeBlocks hend.shape h.shape (hend.ledger.free_eq h.ledger)

/-- **The allocator restores memory.** In every reachable state no two buddies
below the largest order are both free; the bitmaps are determined by the free
pages; any run of calls from there that in the end has freed all it allocated,
in whatever order, ends with the same bitmaps and the same signature; and after
allocations of any orders the blocks obtained can be freed in every
permutation, which restores the bitmaps. -/
theorem reachable_restores (mem : PgMem) (s : State) (h : Reachable (step mem) boot s) :
    (∀ o < 3, ∀ i, ¬ (freeBit s.pb o (2 * i) = true ∧ freeBit s.pb o (2 * i + 1) = true)) ∧
    (∀ t, Reachable (step mem) boot t → (∀ p, FreePage s.pb p ↔ FreePage t.pb p) → s.pb = t.pb) ∧
    (∀ calls pb, run (step mem) ⟨s.pb, []⟩ calls = some ⟨pb, []⟩ →
      pb = s.pb ∧ pageAllocSignature pb = pageAllocSignature s.pb) ∧
    ∀ (orders : List ℕ) (t : State), run (step mem) ⟨s.pb, []⟩ (orders.map .alloc) = some t →
      ∀ ls : List Lease, ls.Perm t.live →
      run (step mem) t (ls.map fun l => .free l.addr l.order) = some ⟨s.pb, []⟩ := by
  have hinv := reachable_inv h
  refine ⟨fun o ho i => hinv.coalesced ho i, ?_, ?_, ?_⟩
  · intro t ht hp
    have hinv' := reachable_inv ht
    refine ext_freeBlocks hinv.shape hinv'.shape
      (hinv.ledger.canonical.eq_of_pagesOf hinv'.ledger.canonical ?_)
    ext p
    rw [mem_pagesOf_freeBlocks, mem_pagesOf_freeBlocks]
    exact hp p
  · intro calls pb hr
    have := hinv.session hr
    exact ⟨this, congrArg pageAllocSignature this⟩
  · intro orders t ht ls hls
    obtain ⟨pb, hpb⟩ := run_free_all mem hls
    have hsess : run (step mem) ⟨s.pb, []⟩
        (orders.map .alloc ++ ls.map fun l => .free l.addr l.order) = some ⟨pb, []⟩ := by
      rw [run_append, ht]
      exact hpb
    rw [hpb, hinv.session hsess]

theorem reachable_restores_three_blocks :
    ∃ calls pb, calls.length = 6 ∧ run (step pgMem64k) ⟨boot.pb, []⟩ calls = some ⟨pb, []⟩ ∧
      pb = pageBitmapInit :=
  have hr : run (step pgMem64k) ⟨boot.pb, []⟩ [.alloc 0, .alloc 2, .free 0x20008000 0, .alloc 1,
      .free 0x20008400 2, .free 0x20008000 1] = some ⟨[[0, 0, 0, 0], [0, 0], [0], [0x7fff]], []⟩ := by
    decide
  ⟨_, _, rfl, hr, ((reachable_restores pgMem64k boot (Reachable.refl _)).2.2.1 _ _ hr).1⟩

end PikoRT.Mm.PageRun

import PikoRT.Lib.Buddy
import PikoRT.Mm.Page

/-! # The page allocator is a buddy allocator

The bits of the four maps are read as a set of blocks (`freeBlocks`). On that
set `alloc_pages` carves a block out of the first free one of the least order
that has any (`allocPages_some`), and `free_pages` releases its block with
coalescing (`freeBlocks_freePages`). -/
namespace PikoRT.Mm.PageBuddy
open PikoRT.Kernel.Bitops PikoRT.Lib.Buddy PikoRT.Mm.Page

/-- The blocks that the four maps record as free. -/
def freeBlocks (pb : PageBitmap) : Set Block := {b | b.order ≤ 3 ∧ freeBit pb b.order b.idx = true}

theorem mem_freeBlocks {pb : PageBitmap} {b : Block} :
    b ∈ freeBlocks pb ↔ b.order ≤ 3 ∧ freeBit pb b.order b.idx = true := Iff.rfl

theorem freeBlocks_set {pb : PageBitmap} (h : Shape pb) {o i : ℕ} (ho : o ≤ 3)
    (hi : i < pageBitmapSz o) :
    freeBlocks (pb.modify o (bitmapSetBit · i)) = insert ⟨o, i⟩ (freeBlocks pb) := by
  ext b
  simp only [mem_freeBlocks, Set.mem_insert_iff, freeBit_set h ho hi, Block.ext_iff]
  by_cases hb : b.order = o ∧ b.idx = i
  · simp [hb, ho]
  · simp [hb]

theorem freeBlocks_clear {pb : PageBitmap} (h : Shape pb) {o : ℕ} (ho : o ≤ 3) (i : ℕ) :
    freeBlocks (pb.modify o (bitmapClearBit · i)) = freeBlocks pb \ {⟨o, i⟩} := by
  ext b
  simp only [mem_freeBlocks, Set.mem_sdiff, Set.mem_singleton_iff, freeBit_clear h ho, Block.ext_iff]
  by_cases hb : b.order = o ∧ b.idx = i
  · simp [hb]
  · simp [hb]

theorem shape_set {pb : PageBitmap} (h : Shape pb) (o i : ℕ) :
    Shape (pb.modify o (bitmapSetBit · i)) := h.modify o (length_bitmapSetBit · i)

theorem shape_clear {pb : PageBitmap} (h : Shape pb) (o i : ℕ) :
    Shape (pb.modify o (bitmapClearBit · i)) := h.modify o (length_bitmapClearBit · i)

/-- The four maps are determined by the free blocks. -/
theorem ext_freeBlocks {pb pb' : PageBitmap} (h : Shape pb) (h' : Shape pb')
    (hf : freeBlocks pb = freeBlocks pb') : pb = pb' := by
  refine ext_freeBit h h' fun o ho i => ?_
  have := Set.ext_iff.mp hf ⟨o, i⟩
  simp only [mem_freeBlocks, ho, true_and] at this
  exact Bool.eq_iff_iff.mpr this

/-! ## Splitting -/

/-- `b` is the free block that a search at its order finds. -/
def IsFirst (pb : PageBitmap) (b : Block) : Prop :=
  b.idx < pageBitmapSz b.order ∧ findFirstBit (pb.getD b.order []) (pageBitmapSz b.order) = b.idx

theorem isFirst_of {pb : PageBitmap} {b : Block} (hi : b.idx < pageBitmapSz b.order)
    (hb : b ∈ freeBlocks pb) (hlow : ∀ j < b.idx, ⟨b.order, j⟩ ∉ freeBlocks pb) :
    IsFirst pb b := by
  refine ⟨hi, findFirstBit_eq hi hb.2 fun j hj => ?_⟩
  have := hlow j hj
  simp only [mem_freeBlocks, hb.1, true_and, Bool.not_eq_true] at this
  exact this

theorem shape_split {pb : PageBitmap} (h : Shape pb) (o : ℕ) : Shape (splitFirstFreePage pb o) :=
  shape_set (shape_set (shape_clear h _ _) _ _) _ _

/-- The halves of a block are inside the bitmap below. -/
theorem right_lt {b : Block} (ho : b.order ≤ 3) (hpos : 0 < b.order)
    (hi : b.idx < pageBitmapSz b.order) : b.idx * 2 + 1 < pageBitmapSz (b.order - 1) := by
  obtain ⟨o, i⟩ := b
  simp only at ho hpos hi ⊢
  interval_cases o <;> simp [pageBitmapSz] at hi ⊢ <;> omega

theorem freeBlocks_split {pb : PageBitmap} (h : Shape pb) {b : Block} (ho : b.order ≤ 3)
    (hpos : 0 < b.order) (hf : IsFirst pb b) :
    freeBlocks (splitFirstFreePage pb b.order) =
      insert b.left (insert b.right (freeBlocks pb \ {b})) := by
  have hsz := right_lt ho hpos hf.1
  have hc := shape_clear h b.order b.idx
  unfold splitFirstFreePage
  simp only [hf.2]
  rw [freeBlocks_set (shape_set hc _ _) (by omega) hsz, freeBlocks_set hc (by omega) (by omega),
    freeBlocks_clear h ho, Set.insert_comm]
  rfl

/-- When no smaller block was free, the left half is the first of its order. -/
theorem isFirst_left_split {pb : PageBitmap} {b : Block} (h : Shape pb) (ho : b.order ≤ 3)
    (hpos : 0 < b.order) (hf : IsFirst pb b)
    (hnone : ∀ c ∈ freeBlocks pb, c.order ≠ b.order - 1) :
    IsFirst (splitFirstFreePage pb b.order) b.left := by
  have hsplit := freeBlocks_split h ho hpos hf
  refine isFirst_of ?_ (by rw [hsplit]; exact Set.mem_insert _ _) ?_
  · exact (Nat.lt_succ_self _).trans (right_lt ho hpos hf.1)
  · intro j hj hin
    rw [hsplit] at hin
    rcases hin with he | he | hin
    · have hidx := congrArg Block.idx he
      simp only at hidx
      omega
    · have hidx := congrArg Block.idx he
      simp only [Block.left, Block.right] at hidx hj
      omega
    · exact hnone _ hin.1 rfl

/-- The splitting loop computes `carve`: afterwards the carved block is free
and is the first of its order. -/
theorem freeBlocks_splitDown {pb : PageBitmap} {k o : ℕ} {b : Block} (h : Shape pb) (hb : b.order = o)
    (ho : o ≤ 3) (hk : k ≤ o) (hmem : b ∈ freeBlocks pb) (hf : IsFirst pb b)
    (hgap : ∀ c ∈ freeBlocks pb, k ≤ c.order → o ≤ c.order) :
    Shape (splitDown k o pb) ∧ IsFirst (splitDown k o pb) (carve k (freeBlocks pb \ {b}) b).2 ∧
      (carve k (freeBlocks pb \ {b}) b).2 ∈ freeBlocks (splitDown k o pb) ∧
      (carve k (freeBlocks pb \ {b}) b).2 ∉ (carve k (freeBlocks pb \ {b}) b).1 ∧
      freeBlocks (splitDown k o pb) = insert (carve k (freeBlocks pb \ {b}) b).2
        (carve k (freeBlocks pb \ {b}) b).1 := by
  induction o generalizing pb b with
  | zero =>
    rw [carve, if_neg (by omega)]
    refine ⟨h, hf, hmem, by simp, ?_⟩
    rw [Set.insert_sdiff_singleton, Set.insert_eq_of_mem hmem]
    rfl
  | succ o ih =>
    by_cases hlt : k < o + 1
    · have hpos : 0 < b.order := by omega
      have hsplit := freeBlocks_split h (by omega) hpos hf
      have hl : b.left.order = o := by simp [Block.left, hb]
      have hr : b.right.order = o := by simp [Block.right, hb]
      -- no block of order `o` was free, so the left half is the first there
      have hnone : ∀ c ∈ freeBlocks pb, c.order ≠ o := fun c hc he => by
        have := hgap c hc (by omega); omega
      have hlr : b.left ≠ b.right := by simp [Block.left, Block.right]
      have hlnot : b.left ∉ insert b.right (freeBlocks pb \ {b}) := by
        rintro (he | hin)
        · exact hlr he
        · exact hnone _ hin.1 hl
      have hrest : freeBlocks (splitFirstFreePage pb b.order) \ {b.left} =
          insert b.right (freeBlocks pb \ {b}) := by
        rw [hsplit, Set.insert_sdiff_self_of_notMem hlnot]
      have hfirst := isFirst_left_split h (by omega) hpos hf (by rw [hb]; exact hnone)
      have hgap' : ∀ c ∈ freeBlocks (splitFirstFreePage pb b.order), k ≤ c.order → o ≤ c.order := by
        intro c hc hkc
        rw [hsplit] at hc
        rcases hc with rfl | rfl | hc
        · omega
        · omega
        · have := hgap c hc.1 hkc; omega
      have := ih (shape_split h b.order) hl (by omega) (by omega)
        (by rw [hsplit]; exact Set.mem_insert _ _) hfirst hgap'
      rw [hrest] at this
      have hcarve : carve k (freeBlocks pb \ {b}) b =
          carve k (insert b.right (freeBlocks pb \ {b})) b.left := by
        rw [carve, if_pos (by omega)]
      have hloop : splitDown k (o + 1) pb = splitDown k o (splitFirstFreePage pb b.order) := by
        rw [splitDown, if_pos hlt, hb]
      rw [hcarve, hloop]
      exact this
    · rw [carve, if_neg (by omega), splitDown, if_neg (by omega)]
      refine ⟨h, hf, hmem, by simp, ?_⟩
      rw [Set.insert_sdiff_singleton, Set.insert_eq_of_mem hmem]

/-! ## Allocating -/

theorem findFirstFreePage_neg {pb : PageBitmap} {o : ℕ} :
    findFirstFreePage pb o < 0 ↔ ∀ i < pageBitmapSz o, freeBit pb o i = false := by
  unfold findFirstFreePage
  have key : findFirstBit (pb.getD o []) (pageBitmapSz o) < pageBitmapSz o ↔
      ∃ j < pageBitmapSz o, testBit (pb.getD o []) j = true := findFirstBit_lt_iff
  by_cases h : findFirstBit (pb.getD o []) (pageBitmapSz o) ≥ pageBitmapSz o
  · simp only [h, if_true]
    refine ⟨fun _ i hi => ?_, fun _ => by decide⟩
    by_contra hb
    exact absurd (key.mpr ⟨i, hi, by simpa [freeBit] using hb⟩) (by omega)
  · simp only [h, if_false]
    obtain ⟨i, hi, hb⟩ := key.mp (by omega)
    refine ⟨fun hneg => by omega, fun hall => ?_⟩
    have := hall i hi
    simp only [freeBit, hb] at this
    cases this

/-- The search stops at the least order with a free block. -/
theorem searchOrder_spec (pb : PageBitmap) {k n : ℕ} (hn : 4 ≤ k + n) :
    k ≤ searchOrder pb k n ∧
    (∀ o, k ≤ o → o < searchOrder pb k n → ∀ i < pageBitmapSz o, freeBit pb o i = false) ∧
    (searchOrder pb k n ≤ 3 →
      ∃ i < pageBitmapSz (searchOrder pb k n), freeBit pb (searchOrder pb k n) i = true) := by
  induction n generalizing k with
  | zero =>
    simp only [searchOrder]
    exact ⟨le_refl _, fun o h1 h2 => by omega, fun h => by omega⟩
  | succ n ih =>
    unfold searchOrder
    by_cases hc : k ≤ MAX_PAGE_ORDER ∧ findFirstFreePage pb k < 0
    · rw [if_pos hc]
      obtain ⟨hle, hgap, hex⟩ := ih (k := k + 1) (by omega)
      refine ⟨by omega, ?_, hex⟩
      intro o hko ho
      rcases Nat.eq_or_lt_of_le hko with rfl | hlt
      · exact findFirstFreePage_neg.mp hc.2
      · exact hgap o hlt ho
    · rw [if_neg hc]
      refine ⟨le_refl _, fun o h1 h2 => by omega, fun h3 => ?_⟩
      by_contra hno
      refine hc ⟨h3, findFirstFreePage_neg.mpr fun i hi => ?_⟩
      by_contra hb
      exact hno ⟨i, hi, by simpa using hb⟩

/-- All free bits lie below the sizes of their maps. -/
def InRange (pb : PageBitmap) : Prop := ∀ b ∈ freeBlocks pb, b.idx < pageBitmapSz b.order

/-- A failed allocation finds no free block of the order or above, and changes
nothing. -/
theorem allocPages_none {start : Addr} {pb : PageBitmap} {k : ℕ} (hr : InRange pb)
    (h : (allocPages start pb k).1 = none) :
    (allocPages start pb k).2 = pb ∧ ∀ b ∈ freeBlocks pb, ¬ k ≤ b.order := by
  unfold allocPages at h ⊢
  by_cases ho : searchOrder pb k (MAX_PAGE_ORDER + 1) > MAX_PAGE_ORDER
  · simp only [ho, if_true, true_and]
    obtain ⟨-, hgap, -⟩ := searchOrder_spec pb (k := k) (n := MAX_PAGE_ORDER + 1) (by simp)
    intro b hb hk
    have := hgap b.order hk (lt_of_le_of_lt hb.1 ho) b.idx (hr b hb)
    rw [hb.2] at this
    cases this
  · simp [ho] at h

/-- The free block an allocation of order `k` starts from: the first one of the
least order from `k` on that has any. -/
structure Source (pb : PageBitmap) (k : ℕ) (b : Block) : Prop where
  mem : b ∈ freeBlocks pb
  le : k ≤ b.order
  first : IsFirst pb b
  least : ∀ c ∈ freeBlocks pb, k ≤ c.order → b.order ≤ c.order

/-- A successful allocation returns the block carved out of its source. -/
theorem allocPages_some {start addr : Addr} {pb : PageBitmap} {k : ℕ} (h : Shape pb)
    (hr : InRange pb) (ha : (allocPages start pb k).1 = some addr) :
    ∃ b, Source pb k b ∧ Shape (allocPages start pb k).2 ∧
      addr = pageIdxToAddr start (carve k (freeBlocks pb \ {b}) b).2.idx k ∧
      freeBlocks (allocPages start pb k).2 = (carve k (freeBlocks pb \ {b}) b).1 := by
  unfold allocPages at ha ⊢
  by_cases ho : searchOrder pb k (MAX_PAGE_ORDER + 1) > MAX_PAGE_ORDER
  · simp [ho] at ha
  · obtain ⟨hk, hgap, hex⟩ := searchOrder_spec pb (k := k) (n := MAX_PAGE_ORDER + 1) (by simp)
    simp only [ho, if_false] at ha ⊢
    generalize searchOrder pb k (MAX_PAGE_ORDER + 1) = o at *
    have ho3 : o ≤ 3 := by simpa using ho
    have hlt := findFirstBit_lt_iff.mpr (hex ho3)
    obtain ⟨b, hbdef⟩ : ∃ b : Block, b = ⟨o, findFirstBit (pb.getD o []) (pageBitmapSz o)⟩ := ⟨_, rfl⟩
    have hbo : b.order = o := by rw [hbdef]
    have hfirst : IsFirst pb b := by rw [hbdef]; exact ⟨hlt, rfl⟩
    have hmem : b ∈ freeBlocks pb := by
      rw [hbdef]; exact ⟨ho3, (findFirstBit_spec _ _).2.1 hlt⟩
    have hleast : ∀ c ∈ freeBlocks pb, k ≤ c.order → o ≤ c.order := by
      intro c hc hkc
      by_contra hco
      have := hgap c.order hkc (by omega) c.idx (hr c hc)
      rw [hc.2] at this
      cases this
    obtain ⟨hsh, hfst, hin, hnot, hfree⟩ := freeBlocks_splitDown h hbo ho3 hk hmem hfirst hleast
    have hord : (carve k (freeBlocks pb \ {b}) b).2.order = k := by
      have hk' : k ≤ b.order := by omega
      clear hnot hfree hin hfst hsh
      generalize freeBlocks pb \ {b} = G at *
      exact carve_order k G b hk'
    have hidx : findFirstBit ((splitDown k o pb).getD k []) (pageBitmapSz k) =
        (carve k (freeBlocks pb \ {b}) b).2.idx := by
      have := hfst.2
      rwa [hord] at this
    refine ⟨b, ⟨hmem, by omega, hfirst, fun c hc hkc => hbo ▸ hleast c hc hkc⟩, shape_clear hsh _ _, ?_, ?_⟩
    · rw [← hidx]
      simpa using ha.symm
    · have hblk : (⟨k, (carve k (freeBlocks pb \ {b}) b).2.idx⟩ : Block) =
          (carve k (freeBlocks pb \ {b}) b).2 := by ext <;> simp [hord]
      rw [freeBlocks_clear hsh (by omega), hidx, hblk, hfree,
        Set.insert_sdiff_self_of_notMem hnot]

/-! ## Freeing -/

theorem getBuddyIndex_eq (b : Block) : getBuddyIndex b.idx = b.buddy.idx := by
  by_cases h : b.idx % 2 = 0 <;> simp [getBuddyIndex, Block.buddy, h]

/-- The block index is read back from the block's address. -/
theorem addrToPageIdx_pageIdxToAddr (start : Addr) {o i : ℕ} (ho : o ≤ 3)
    (hi : i < pageBitmapSz o) : addrToPageIdx start (pageIdxToAddr start i o) o = i := by
  unfold addrToPageIdx pageIdxToAddr
  rw [add_sub_cancel_left, BitVec.toNat_ushiftRight, BitVec.toNat_ofNat, Nat.shiftRight_eq_div_pow]
  interval_cases o <;> simp [pageBitmapSz, MIN_PAGE_SHIFT] at hi ⊢ <;> omega

/-- Masking clears the low bits. -/
theorem toNat_and_coalesceMask (addr : Addr) {o : ℕ} (ho : o ≤ 2) :
    (addr &&& coalesceMask o).toNat = addr.toNat / 2 ^ (o + 9) * 2 ^ (o + 9) := by
  have hmask : coalesceMask o = ~~~lowMask (o + 9) := by interval_cases o <;> rfl
  rw [hmask, toNat_and_not_lowMask]

/-- Rounding a block's address down to the next order gives the address of its
parent; this is where `__pgmem_start__` has to be aligned to the largest block. -/
theorem pageIdxToAddr_and_coalesceMask {start : Addr} (hs : start.toNat % 2048 = 0) {o i : ℕ}
    (ho : o ≤ 2) (hi : i < pageBitmapSz o) :
    pageIdxToAddr start i o &&& coalesceMask o = pageIdxToAddr start (i / 2) (o + 1) := by
  apply BitVec.eq_of_toNat_eq
  have hlt := start.isLt
  rw [toNat_and_coalesceMask _ ho]
  simp only [pageIdxToAddr, BitVec.toNat_add, BitVec.toNat_ofNat]
  interval_cases o <;> simp [pageBitmapSz, MIN_PAGE_SHIFT] at hi ⊢ <;> omega

theorem getBit_ne_zero_iff {pb : PageBitmap} {b : Block} (ho : b.order ≤ 3) :
    bitmapGetBit (pb.getD b.order []) b.idx ≠ 0 ↔ b ∈ freeBlocks pb := by
  rw [bitmapGetBit_eq, mem_freeBlocks]
  unfold freeBit
  cases testBit (pb.getD b.order []) b.idx <;> simp [ho]

theorem freeBlocks_freeLoop {start : Addr} (hs : start.toNat % 2048 = 0) {n : ℕ} {pb : PageBitmap}
    {b : Block} (h : Shape pb) (hn : b.order + n = 3) (hi : b.idx < pageBitmapSz b.order) :
    Shape (freeLoop start n pb (pageIdxToAddr start b.idx b.order) b.order) ∧
      freeBlocks (freeLoop start n pb (pageIdxToAddr start b.idx b.order) b.order) =
        release 3 (freeBlocks pb) b := by
  induction n generalizing pb b with
  | zero =>
    simp only [freeLoop, addrToPageIdx_pageIdxToAddr start (by omega : b.order ≤ 3) hi]
    rw [release, if_neg (by omega)]
    exact ⟨shape_set h _ _, freeBlocks_set h (by omega) hi⟩
  | succ n ih =>
    have ho : b.order ≤ 3 := by omega
    simp only [freeLoop, addrToPageIdx_pageIdxToAddr start ho hi, getBuddyIndex_eq]
    have hbud : bitmapGetBit (pb.getD b.order []) b.buddy.idx ≠ 0 ↔ b.buddy ∈ freeBlocks pb :=
      getBit_ne_zero_iff (b := b.buddy) ho
    by_cases hb : b.buddy ∈ freeBlocks pb
    · have hpi : b.parent.idx < pageBitmapSz b.parent.order := by
        obtain ⟨o, i⟩ := b
        simp only [Block.parent] at hi hn ⊢
        have ho2 : o ≤ 2 := by omega
        interval_cases o <;> simp [pageBitmapSz] at hi ⊢ <;> omega
      have hclr : freeBlocks (pb.modify b.order (bitmapClearBit · b.buddy.idx)) =
          freeBlocks pb \ {b.buddy} := freeBlocks_clear h ho _
      obtain ⟨hsh, hfr⟩ := ih (b := b.parent) (shape_clear h b.order b.buddy.idx)
        (by simp only [Block.parent]; omega) hpi
      rw [if_pos (hbud.mpr hb), pageIdxToAddr_and_coalesceMask hs (by omega) hi, release,
        if_pos ⟨by omega, hb⟩, ← hclr]
      exact ⟨hsh, hfr⟩
    · rw [if_neg (mt hbud.mp hb), release, if_neg (fun hc => hb hc.2)]
      exact ⟨shape_set h _ _, freeBlocks_set h ho hi⟩

/-- `free_pages` of a block's address releases the block. -/
theorem freeBlocks_freePages {start : Addr} (hs : start.toNat % 2048 = 0) {pb : PageBitmap}
    {b : Block} (h : Shape pb) (ho : b.order ≤ 3) (hi : b.idx < pageBitmapSz b.order) :
    Shape (freePages start pb (pageIdxToAddr start b.idx b.order) b.order) ∧
      freeBlocks (freePages start pb (pageIdxToAddr start b.idx b.order) b.order) =
        release 3 (freeBlocks pb) b :=
  freeBlocks_freeLoop hs h (by simp only [MAX_PAGE_ORDER]; omega) hi

end PikoRT.Mm.PageBuddy

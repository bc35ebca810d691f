import PikoRT.Mm.Slab

/-! # The page of a slab

Where the objects of a slab are, how the slab and the bit of one are found from its
address, and what the bitmap counts. -/
namespace PikoRT.Mm.SlabPage
open PikoRT.Kernel.Bitops PikoRT.Mm.Page PikoRT.Mm.Slab
open PikoRT.Mm.PageRun (PgMem)

/-! ## Addresses -/

section

variable {slab : Addr} {bit objsize : ℕ}

/-- The object lies in the page, behind the header. -/
def InPage (bit objsize : ℕ) : Prop := sizeofSlab + bit * objsize + objsize ≤ cachePageSize

theorem inPage_of_lt (hb : bit < objectsPerSlab objsize) : InPage bit objsize := by
  have hmul : (bit + 1) * objsize ≤ objectsPerSlab objsize * objsize := Nat.mul_le_mul_right _ hb
  have hdiv : objectsPerSlab objsize * objsize ≤ cachePageSize - sizeofSlab := Nat.div_mul_le_self ..
  rw [Nat.add_mul, Nat.one_mul] at hmul
  unfold InPage sizeofSlab cachePageSize at *
  omega

theorem toNat_objectAddr (ha : slab.toNat % 256 = 0) (hp : InPage bit objsize) (hs : 0 < objsize) :
    (objectAddr slab bit objsize).toNat = slab.toNat + sizeofSlab + bit * objsize := by
  have hlt := slab.isLt
  unfold InPage cachePageSize sizeofSlab at hp
  unfold objectAddr sizeofSlab
  rw [BitVec.toNat_add, BitVec.toNat_add, BitVec.toNat_ofNat, BitVec.toNat_ofNat]
  omega

/-- The header is found from the address. -/
theorem getSlabFromObj_objectAddr (ha : slab.toNat % 256 = 0) (hp : InPage bit objsize) (hs : 0 < objsize) :
    getSlabFromObj (objectAddr slab bit objsize) 256 = slab := by
  refine BitVec.eq_of_toNat_eq ?_
  have halign : (getSlabFromObj (objectAddr slab bit objsize) 256).toNat =
      (objectAddr slab bit objsize).toNat / 2 ^ 8 * 2 ^ 8 := toNat_and_not_lowMask _ 8
  rw [halign, toNat_objectAddr ha hp hs]
  unfold InPage cachePageSize sizeofSlab at hp
  unfold sizeofSlab
  omega

/-- So is the index. -/
theorem objIndexInSlab_objectAddr (ha : slab.toNat % 256 = 0) (hp : InPage bit objsize) (hs : 0 < objsize) :
    objIndexInSlab (objectAddr slab bit objsize) objsize = bit := by
  have hlow : (objectAddr slab bit objsize &&& 255#32).toNat = (objectAddr slab bit objsize).toNat % 2 ^ 8 :=
    toNat_and_lowMask _ 8
  rw [toNat_objectAddr ha hp hs] at hlow
  unfold InPage cachePageSize at hp
  have hdata : ((objectAddr slab bit objsize &&& 255#32) - BitVec.ofNat 32 sizeofSlab).toNat = bit * objsize := by
    rw [BitVec.toNat_sub, hlow, BitVec.toNat_ofNat]
    unfold sizeofSlab at hp ⊢
    omega
  unfold objIndexInSlab
  rw [hdata, Nat.mul_div_cancel _ hs]

end

/-- A page is aligned. -/
theorem aligned_of_live {mem : PgMem} {p : PageRun.State} {a : Addr} (h : PageRun.Inv mem p)
    (ha : ⟨a, 0⟩ ∈ p.live) : a.toNat % 256 = 0 := by
  have hv := h.valid ⟨a, 0⟩ ha
  have hal := PageRun.aligned_pageIdxToAddr mem hv.order_le hv.idx_lt
  rw [← hv.addr_eq] at hal
  exact hal

/-! ## The bitmap of a slab -/

/-- The number of bits set below `n`. -/
def used (n : ℕ) (w : Word) : ℕ := ((Finset.range n).filter fun i => testBit [w] i).card

section

variable {w : Word} {n i j : ℕ}

theorem testBit_set (hi : i < 32) :
    testBit [(bitmapSetBit [w] i).headD 0] j = (decide (j = i) || testBit [w] j) := by
  have hlist : [(bitmapSetBit [w] i).headD 0] = bitmapSetBit [w] i := by
    unfold bitmapSetBit
    rw [Nat.div_eq_of_lt hi]
    rfl
  rw [hlist, testBit_bitmapSetBit (by simpa using hi)]

theorem testBit_clear (hi : i < 32) :
    testBit [(bitmapClearBit [w] i).headD 0] j = (!decide (j = i) && testBit [w] j) := by
  have hlist : [(bitmapClearBit [w] i).headD 0] = bitmapClearBit [w] i := by
    unfold bitmapClearBit
    rw [Nat.div_eq_of_lt hi]
    rfl
  rw [hlist, testBit_bitmapClearBit]

theorem testBit_zero (i : ℕ) : testBit [(0 : Word)] i = false := by
  unfold testBit
  cases i / 32 <;> simp

theorem used_zero (n : ℕ) : used n 0 = 0 := by
  unfold used
  simp only [testBit_zero]
  simp

theorem used_set (hi : i < n) (hn : n ≤ 32) (hb : testBit [w] i = false) :
    used n ((bitmapSetBit [w] i).headD 0) = used n w + 1 := by
  unfold used
  have hinsert : ((Finset.range n).filter fun j => testBit [(bitmapSetBit [w] i).headD 0] j) =
      Insert.insert i ((Finset.range n).filter fun j => testBit [w] j) := by
    ext j
    rw [Finset.mem_insert, Finset.mem_filter, Finset.mem_filter, testBit_set (by omega)]
    by_cases hj : j = i
    · subst hj
      simp [hi]
    · simp [hj]
  rw [hinsert, Finset.card_insert_of_notMem (by simp [hb])]

theorem used_clear (hi : i < n) (hn : n ≤ 32) (hb : testBit [w] i = true) :
    used n w = used n ((bitmapClearBit [w] i).headD 0) + 1 := by
  unfold used
  have hinsert : ((Finset.range n).filter fun j => testBit [w] j) =
      Insert.insert i ((Finset.range n).filter fun j => testBit [(bitmapClearBit [w] i).headD 0] j) := by
    ext j
    rw [Finset.mem_insert, Finset.mem_filter, Finset.mem_filter, testBit_clear (by omega)]
    by_cases hj : j = i
    · subst hj
      simp [hi, hb]
    · simp [hj]
  have hnot : i ∉ (Finset.range n).filter fun j => testBit [(bitmapClearBit [w] i).headD 0] j := by
    rw [Finset.mem_filter, testBit_clear (by omega)]
    simp
  rw [hinsert, Finset.card_insert_of_notMem hnot]

/-- With fewer than `n` bits set, `find_first_zero_bit` finds one that is not. -/
theorem findFirstZeroBit_lt (hn : n ≤ 32) (hu : used n w < n) :
    findFirstZeroBit [w] n < n ∧ testBit [w] (findFirstZeroBit [w] n) = false := by
  have hsize : n ≤ 32 * [w].length := hn
  obtain ⟨hle, hzero, hlow⟩ := findFirstZeroBit_spec hsize
  have hlt : findFirstZeroBit [w] n < n := by
    by_contra hge
    have hall : ∀ i ∈ Finset.range n, testBit [w] i = true := by
      intro i hi
      exact hlow i (by have := Finset.mem_range.mp hi; omega)
    unfold used at hu
    rw [Finset.filter_true_of_mem hall, Finset.card_range] at hu
    exact lt_irrefl n hu
  exact ⟨hlt, hzero hlt⟩

/-- A bit set below `n` is counted. -/
theorem used_pos (hi : i < n) (hb : testBit [w] i = true) : 0 < used n w :=
  Finset.card_pos.mpr ⟨i, Finset.mem_filter.mpr ⟨Finset.mem_range.mpr hi, hb⟩⟩

end

end PikoRT.Mm.SlabPage

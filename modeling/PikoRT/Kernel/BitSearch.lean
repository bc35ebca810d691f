import PikoRT.Kernel.Bitops

/-! # The searches in 32 bits (`include/kernel/bitops.h`)

`Kernel.Bitops` has the searches with sizes that are numbers. Here the size, the index of the loop and
the product `i * BITS_PER_LONG` are those of an `unsigned long`, the memory goes on behind the array, and
the words that are read are noted. -/
namespace PikoRT.Kernel.BitSearch
open PikoRT.Kernel.Bitops

/-- The words from an address on. -/
abbrev Memory := ℕ → Word

def bitmapSetBit (map : Memory) (bit : Word) : Memory :=
  let i := bit.toNat / BITS_PER_LONG
  Function.update map i (setBit (bit.toNat % BITS_PER_LONG) (map i))

def bitmapClearBit (map : Memory) (bit : Word) : Memory :=
  let i := bit.toNat / BITS_PER_LONG
  Function.update map i (clearBit (bit.toNat % BITS_PER_LONG) (map i))

def bitmapGetBit (map : Memory) (bit : Word) : Word :=
  (map (bit.toNat / BITS_PER_LONG) >>> (bit.toNat % BITS_PER_LONG)) &&& 1#32

/-- The loop of the searches: it stops at the first word with `stop`, and looks there for a bit of
`word`. With the result come the indices of the words that were read. -/
def search (stop : Word → Bool) (word : Word → Word) (addr : Memory) (size : Word) :
    ℕ → Word → List ℕ → Option (Word × List ℕ)
  | 0, _, _ => none
  | fuel + 1, i, reads =>
    if i * 32#32 < size then
      let reads := reads ++ [i.toNat]
      if stop (addr i.toNat) then
        let bit := i * 32#32 + BitVec.ofNat 32 (ffsl (word (addr i.toNat))) - 1#32
        some (if bit < size then bit else size, reads)
      else search stop word addr size fuel (i + 1#32) reads
    else some (size, reads)

def findFirstBit (fuel : ℕ) (addr : Memory) (size : Word) : Option (Word × List ℕ) :=
  search (· ≠ 0) id addr size fuel 0 []

def findFirstZeroBit (fuel : ℕ) (addr : Memory) (size : Word) : Option (Word × List ℕ) :=
  search (· ≠ BitVec.allOnes 32) (~~~·) addr size fuel 0 []

/-! ## What they owe -/

/-- The least index below `size` whose bit is `b`, or `size` if there is none. -/
structure FindsFirst (b : Word) (addr : Memory) (size r : Word) : Prop where
  le : r ≤ size
  found : r < size → bitmapGetBit addr r = b
  before : ∀ j < r, bitmapGetBit addr j ≠ b

/-- The search comes back with the first such bit, and reads no word behind that of bit `size - 1`. -/
def SearchRight (find : ℕ → Memory → Word → Option (Word × List ℕ)) (b : Word) (addr : Memory) (size : Word) : Prop :=
  ∃ fuel r reads, find fuel addr size = some (r, reads) ∧ FindsFirst b addr size r ∧ ∀ i ∈ reads, 32 * i < size.toNat

/-- A bit is written, and no other one. -/
def UpdatesRight (map : Memory) : Prop := ∀ i j,
  bitmapGetBit (bitmapSetBit map i) j = (if j = i then 1 else bitmapGetBit map j) ∧
    bitmapGetBit (bitmapClearBit map i) j = if j = i then 0 else bitmapGetBit map j

/-- The product stays within 32 bits for all words of the size; or there are both a bit that is set and one that is
clear. -/
def Bounded (addr : Memory) (size : Word) : Prop :=
  size.toNat ≤ 2 ^ 32 - 32 ∨ (∃ j, bitmapGetBit addr j = 1) ∧ ∃ j, bitmapGetBit addr j = 0

/-! ## One bit -/

/-- Bit `j` of the memory. -/
def testBit (map : Memory) (j : ℕ) : Bool := (map (j / 32)).getLsbD (j % 32)

section

variable {map addr : Memory} {size i j : Word} {n : ℕ} {stop : Word → Bool} {word : Word → Word}

theorem bitmapGetBit_eq (map : Memory) (j : Word) : bitmapGetBit map j = if testBit map j.toNat then 1 else 0 := by
  unfold bitmapGetBit testBit
  refine BitVec.eq_of_getLsbD_eq fun k hk => ?_
  rw [BitVec.getLsbD_and, BitVec.getLsbD_ushiftRight, BitVec.getLsbD_one]
  by_cases h0 : k = 0
  · subst h0
    split <;> simp_all
  · split <;> simp [h0]

theorem bitmapGetBit_eq_one : bitmapGetBit map j = 1 ↔ testBit map j.toNat = true := by
  rw [bitmapGetBit_eq]
  split <;> simp_all

theorem bitmapGetBit_eq_zero : bitmapGetBit map j = 0 ↔ testBit map j.toNat = false := by
  rw [bitmapGetBit_eq]
  split <;> simp_all

/-- One word is written. -/
theorem testBit_update (map : Memory) (w : ℕ) (word : Word) (j : ℕ) :
    testBit (Function.update map w word) j = if j / 32 = w then word.getLsbD (j % 32) else testBit map j := by
  unfold testBit
  split
  · rename_i hw
    rw [hw, Function.update_self]
  · rename_i hw
    rw [Function.update_of_ne hw]

/-- Two bits of one word. -/
theorem mod_eq_iff {i j : ℕ} (hw : j / 32 = i / 32) : j % 32 = i % 32 ↔ j = i := by
  constructor
  · intro h
    omega
  · intro h
    rw [h]

theorem testBit_bitmapSetBit (map : Memory) (i : Word) (j : ℕ) :
    testBit (bitmapSetBit map i) j = (decide (j = i.toNat) || testBit map j) := by
  rw [bitmapSetBit, testBit_update]
  split
  · rename_i hw
    rw [getLsbD_setBit _ (Nat.mod_lt _ (by norm_num)) (Nat.mod_lt _ (by norm_num)), ← hw, ← testBit,
      decide_eq_decide.mpr (mod_eq_iff hw)]
  · rename_i hw
    rw [decide_eq_false fun h => hw (by rw [h]), Bool.false_or]

theorem testBit_bitmapClearBit (map : Memory) (i : Word) (j : ℕ) :
    testBit (bitmapClearBit map i) j = (!decide (j = i.toNat) && testBit map j) := by
  rw [bitmapClearBit, testBit_update]
  split
  · rename_i hw
    rw [getLsbD_clearBit _ (Nat.mod_lt _ (by norm_num)) (Nat.mod_lt _ (by norm_num)), ← hw, ← testBit,
      decide_eq_decide.mpr (mod_eq_iff hw)]
  · rename_i hw
    rw [decide_eq_false fun h => hw (by rw [h]), Bool.not_false, Bool.true_and]

theorem updatesRight (map : Memory) : UpdatesRight map := by
  intro i j
  simp only [bitmapGetBit_eq, testBit_bitmapSetBit, testBit_bitmapClearBit, ← BitVec.toNat_inj]
  by_cases h : j.toNat = i.toNat <;> simp [h]

/-! ## The loop -/

theorem toNat_bits (hi : i.toNat < 2 ^ 27) : (i * 32#32).toNat = 32 * i.toNat := by
  have h32 : (32#32).toNat = 32 := rfl
  rw [BitVec.toNat_mul, h32]
  omega

theorem toNat_found {k : ℕ} (hi : i.toNat < 2 ^ 27) (hk : k < 32) :
    (i * 32#32 + BitVec.ofNat 32 (k + 1) - 1#32).toNat = 32 * i.toNat + k := by
  have hbits := toNat_bits hi
  have hsucc : (BitVec.ofNat 32 (k + 1)).toNat = k + 1 := by
    rw [BitVec.toNat_ofNat]
    omega
  have h1 : (1#32).toNat = 1 := rfl
  rw [BitVec.toNat_sub, BitVec.toNat_add, hbits, hsucc, h1]
  omega

theorem toNat_succ (hi : i.toNat < 2 ^ 27) : (i + 1#32).toNat = i.toNat + 1 := by
  rw [BitVec.toNat_add]
  have h1 : (1#32).toNat = 1 := rfl
  omega

/-- The bits of the words that are zero. -/
theorem testBit_of_zero {map : Memory} {k j : ℕ} (h : ∀ w < k, map w = 0) (hj : j < 32 * k) :
    testBit map j = false := by
  rw [testBit, h _ (by omega)]
  exact BitVec.getLsbD_zero

/-- The word that stops the loop gives the first bit, or none of the size. -/
theorem found_spec (hi : i.toNat < 2 ^ 27) (hword : word (addr i.toNat) ≠ 0) (hpast : ∀ w < i.toNat, word (addr w) = 0)
    {r : Word} (hr : r = i * 32#32 + BitVec.ofNat 32 (ffsl (word (addr i.toNat))) - 1#32) :
    testBit (word ∘ addr) r.toNat = true ∧ ∀ j < r.toNat, testBit (word ∘ addr) j = false := by
  obtain ⟨k, hk, hffs, hset, hlow⟩ := ffsl_spec hword
  have hfound := toNat_found hi hk
  rw [← hffs, ← hr] at hfound
  rw [hfound]
  constructor
  · have hd : (32 * i.toNat + k) / 32 = i.toNat := by omega
    have hm : (32 * i.toNat + k) % 32 = k := by omega
    rw [testBit, Function.comp_apply, hd, hm]
    exact hset
  · intro j hj
    by_cases hj' : j < 32 * i.toNat
    · exact testBit_of_zero hpast hj'
    · have hd : j / 32 = i.toNat := by omega
      rw [testBit, Function.comp_apply, hd]
      exact hlow _ (by omega)

/-- The loop from word `i` on, when no word before it stops it. Either the product does not wrap around before
the size is reached, or a word that stops the loop comes first. -/
theorem search_spec (hstop : ∀ w, stop w = true ↔ word w ≠ 0) (hn : 2 ^ 27 ≤ i.toNat + n) (hi : i.toNat < 2 ^ 27)
    (hpast : ∀ w < i.toNat, word (addr w) = 0)
    (hlimit : size.toNat ≤ 2 ^ 32 - 32 ∨ ∃ w, i.toNat ≤ w ∧ w < 2 ^ 27 ∧ word (addr w) ≠ 0)
    {reads : List ℕ} (hreads : ∀ w ∈ reads, 32 * w < size.toNat) :
    ∃ r reads', search stop word addr size n i reads = some (r, reads') ∧ (∀ w ∈ reads', 32 * w < size.toNat) ∧
      r ≤ size ∧ (r < size → testBit (word ∘ addr) r.toNat = true) ∧ ∀ j < r.toNat,
      testBit (word ∘ addr) j = false := by
  induction n generalizing i reads with
  | zero => omega
  | succ n ih =>
    rw [search]
    by_cases hlt : i * 32#32 < size
    · rw [if_pos hlt]
      rw [BitVec.lt_def, toNat_bits hi] at hlt
      have hreads' : ∀ w ∈ reads ++ [i.toNat], 32 * w < size.toNat := by
        intro w hw
        rcases List.mem_append.mp hw with hw | hw
        · exact hreads w hw
        · rw [List.mem_singleton.mp hw]
          exact hlt
      by_cases hs : stop (addr i.toNat) = true
      · obtain ⟨hset, hbefore⟩ := found_spec hi ((hstop _).mp hs) hpast rfl
        simp only [if_pos hs]
        refine ⟨_, _, rfl, hreads', ?_⟩
        split
        · rename_i hmin
          exact ⟨BitVec.le_of_lt hmin, fun _ => hset, hbefore⟩
        · rename_i hmin
          rw [BitVec.lt_def] at hmin
          exact ⟨BitVec.le_refl _, fun h => absurd h (BitVec.lt_irrefl _), fun j hj => hbefore j (by omega)⟩
      · have hword : word (addr i.toNat) = 0 := by
          by_contra hne
          exact hs ((hstop _).mpr hne)
        rw [if_neg hs]
        have hnext : i.toNat + 1 < 2 ^ 27 := by
          rcases hlimit with hsmall | ⟨w, hw, hw', hne⟩
          · omega
          · have hne' : w ≠ i.toNat := fun he => hne (he ▸ hword)
            omega
        have hsucc := toNat_succ hi
        refine ih (by omega) (by omega) (fun w hw => ?_) ?_ hreads'
        · rcases Nat.lt_succ_iff_lt_or_eq.mp (hsucc ▸ hw) with hw | rfl
          · exact hpast w hw
          · exact hword
        · refine hlimit.imp id fun hw => ?_
          obtain ⟨w, hw, hw', hne⟩ := hw
          have hne' : w ≠ i.toNat := fun he => hne (he ▸ hword)
          exact ⟨w, by omega, hw', hne⟩
    · rw [if_neg hlt]
      rw [BitVec.lt_def, toNat_bits hi] at hlt
      exact ⟨size, reads, rfl, hreads, BitVec.le_refl _, fun h => absurd h (BitVec.lt_irrefl _),
        fun j hj => testBit_of_zero hpast (by omega)⟩

theorem mem_of_search {reads reads' : List ℕ} {r : Word} {w : ℕ} (hw : w ∈ reads)
    (h : search stop word addr size n i reads = some (r, reads')) : w ∈ reads' := by
  induction n generalizing i reads with
  | zero => cases h
  | succ n ih =>
    rw [search] at h
    split at h
    · dsimp only at h
      split at h
      · cases h
        exact List.mem_append_left _ hw
      · exact ih (List.mem_append_left _ hw) h
    · cases h
      exact hw

/-- When nothing stops it and the product wraps around, the loop goes on behind the array. -/
theorem search_wraps (hstop : ∀ w, stop w = true ↔ word w ≠ 0) (hi : i.toNat ≤ 2 ^ 27)
    (hsize : 2 ^ 32 - 32 < size.toNat)
    (hnone : ∀ w < 2 ^ 27, word (addr w) = 0) {reads reads' : List ℕ} {r : Word}
    (h : search stop word addr size n i reads = some (r, reads')) : 2 ^ 27 ∈ reads' := by
  induction n generalizing i reads with
  | zero => cases h
  | succ n ih =>
    rw [search] at h
    rcases Nat.lt_or_eq_of_le hi with hlt | heq
    · have hin : i * 32#32 < size := by
        rw [BitVec.lt_def, toNat_bits hlt]
        omega
      have hs : ¬ stop (addr i.toNat) = true := fun hs => (hstop _).mp hs (hnone _ hlt)
      rw [if_pos hin, if_neg hs] at h
      exact ih (by rw [toNat_succ hlt]; omega) h
    · have hzero : i * 32#32 = 0#32 := by
        refine BitVec.eq_of_toNat_eq ?_
        rw [BitVec.toNat_mul, heq]
        rfl
      have hin : i * 32#32 < size := by
        rw [hzero, BitVec.lt_def]
        exact (by norm_num : 0 < 2 ^ 32 - 32).trans hsize
      have hmem : 2 ^ 27 ∈ reads ++ [i.toNat] := by
        rw [heq]
        exact List.mem_append_right _ (List.mem_singleton_self _)
      rw [if_pos hin] at h
      dsimp only at h
      split at h
      · cases h
        exact hmem
      · exact mem_of_search hmem h

/-! ## The searches -/

variable {b : Word}

/-- A search for the bits that are set in `word` of the memory. -/
theorem searchRight_iff (hstop : ∀ w, stop w = true ↔ word w ≠ 0)
    (hb : ∀ j, bitmapGetBit addr j = b ↔ testBit (word ∘ addr) j.toNat = true) :
    SearchRight (fun fuel addr size => search stop word addr size fuel 0 []) b addr size ↔
      size.toNat ≤ 2 ^ 32 - 32 ∨ ∃ j, bitmapGetBit addr j = b := by
  constructor
  · intro h
    obtain ⟨n, r, reads, hr, -, hreads⟩ := h
    by_contra hnot
    obtain ⟨hsize, hnone⟩ := not_or.mp hnot
    have hzero : ∀ w < 2 ^ 27, word (addr w) = 0 := fun w hw => by
      refine BitVec.eq_of_getLsbD_eq fun k hk => ?_
      have hj : (BitVec.ofNat 32 (32 * w + k)).toNat = 32 * w + k := by
        rw [BitVec.toNat_ofNat]
        omega
      have hd : (32 * w + k) / 32 = w := by omega
      have hm : (32 * w + k) % 32 = k := by omega
      have hbit : ¬ testBit (word ∘ addr) (32 * w + k) = true := fun ht => hnone ⟨_, (hb _).mpr (hj.symm ▸ ht)⟩
      rw [testBit, Function.comp_apply, hd, hm] at hbit
      rw [Bool.eq_false_of_not_eq_true hbit]
      exact BitVec.getLsbD_zero.symm
    have hmem := search_wraps hstop (Nat.zero_le _) (Nat.lt_of_not_le hsize) hzero hr
    have hlt := hreads _ hmem
    have hsize' := size.isLt
    omega
  · intro h
    have hlimit : size.toNat ≤ 2 ^ 32 - 32 ∨ ∃ w, (0 : Word).toNat ≤ w ∧ w < 2 ^ 27 ∧ word (addr w) ≠ 0 := by
      refine h.imp id fun hj => ?_
      obtain ⟨j, hj⟩ := hj
      refine ⟨j.toNat / 32, Nat.zero_le _, by omega, fun hz => ?_⟩
      have ht := (hb j).mp hj
      rw [testBit, Function.comp_apply, hz] at ht
      exact absurd ht (by simp)
    have hempty : ∀ w ∈ ([] : List ℕ), 32 * w < size.toNat := fun w hw => absurd hw List.not_mem_nil
    obtain ⟨r, reads, hr, hreads, hle, hset, hlow⟩ :=
      search_spec hstop (i := 0) (n := 2 ^ 27) (Nat.le_add_left ..) (by decide)
      (fun w hw => absurd hw (Nat.not_lt_zero w)) hlimit hempty
    refine ⟨_, r, reads, hr, ⟨hle, fun hlt => (hb r).mpr (hset hlt), fun j hj hbit => ?_⟩, hreads⟩
    have hfalse := hlow j.toNat hj
    rw [(hb j).mp hbit] at hfalse
    cases hfalse

theorem findFirstBit_right_iff :
    SearchRight findFirstBit 1 addr size ↔ size.toNat ≤ 2 ^ 32 - 32 ∨ ∃ j, bitmapGetBit addr j = 1 :=
  searchRight_iff (fun w => by simp) fun j => bitmapGetBit_eq_one

theorem findFirstZeroBit_right_iff :
    SearchRight findFirstZeroBit 0 addr size ↔ size.toNat ≤ 2 ^ 32 - 32 ∨ ∃ j, bitmapGetBit addr j = 0 := by
  refine searchRight_iff (fun w => ?_) fun j => ?_
  · rw [decide_eq_true_iff]
    exact ne_allOnes_iff w
  · rw [bitmapGetBit_eq_zero, testBit, testBit, Function.comp_apply, BitVec.getLsbD_not,
      decide_eq_true (Nat.mod_lt _ (by norm_num : 0 < 32))]
    simp

end

/-- **The bit operations** do what they owe exactly when the searches cannot wrap around, or have something to find. -/
theorem searches_right_iff (addr : Memory) (size : Word) :
    SearchRight findFirstBit 1 addr size ∧ SearchRight findFirstZeroBit 0 addr size ∧ UpdatesRight addr ↔
      Bounded addr size := by
  rw [findFirstBit_right_iff, findFirstZeroBit_right_iff, Bounded]
  constructor
  · intro h
    obtain ⟨hone, hzero, -⟩ := h
    rcases hone with hsize | hone
    · exact .inl hsize
    · exact hzero.imp id fun hzero => ⟨hone, hzero⟩
  · intro h
    exact ⟨h.imp id And.left, h.imp id And.right, updatesRight addr⟩

/-- The search of 2 ^ 27 words of zeros for one of 2 ^ 32 - 1 bits. -/
theorem zeros_searched_beyond : ¬ SearchRight findFirstBit 1 (fun _ => 0) 0xffffffff := by
  rw [findFirstBit_right_iff]
  refine not_or.mpr ⟨by decide, fun h => ?_⟩
  obtain ⟨j, hj⟩ := h
  have ht := bitmapGetBit_eq_one.mp hj
  exact absurd ht (by simp [testBit])

/-! ## Sizes that are numbers -/

/-- The search of `Kernel.Bitops`, in an array that holds the bits. -/
theorem findFirstBit_getD {words : List Word} {size : Word} (hsize : size.toNat ≤ 2 ^ 32 - 32) :
    ∃ fuel r reads, findFirstBit fuel (fun i => words.getD i 0) size = some (r, reads) ∧
      r.toNat = Bitops.findFirstBit words size.toNat := by
  obtain ⟨n, r, reads, hr, hfirst, -⟩ := findFirstBit_right_iff.mpr (.inl hsize)
  refine ⟨n, r, reads, hr, ?_⟩
  obtain ⟨hle, hset, hlow⟩ := findFirstBit_spec words size.toNat
  refine le_antisymm (Nat.le_of_not_lt fun hlt => ?_) (Nat.le_of_not_lt fun hlt => ?_)
  · have hj : (BitVec.ofNat 32 (Bitops.findFirstBit words size.toNat)).toNat = Bitops.findFirstBit words size.toNat :=
      Nat.mod_eq_of_lt (hle.trans_lt size.isLt)
    refine hfirst.before _ (by rw [BitVec.lt_def, hj]; exact hlt) (bitmapGetBit_eq_one.mpr ?_)
    rw [hj]
    exact hset (hlt.trans_le hfirst.le)
  · have hfalse : testBit (fun i => words.getD i 0) r.toNat = false := hlow _ hlt
    have htrue := bitmapGetBit_eq_one.mp (hfirst.found (hlt.trans_le hle))
    rw [hfalse] at htrue
    cases htrue

end PikoRT.Kernel.BitSearch

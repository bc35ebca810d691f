import Mathlib

/-! # Bit operations (`include/kernel/bitops.h`)

A bitmap is an array of 32-bit words, here a list. `testBit` is the meaning of
a bitmap: a predicate on bit indices. Every operation of the header is
described by what it does to `testBit`. An index past the array reads as 0 and
writes nothing; the callers stay inside their arrays. -/
namespace PikoRT.Kernel.Bitops

abbrev Word := BitVec 32

/-- `BITS_PER_LONG`. -/
abbrev BITS_PER_LONG : ℕ := 32

def clearBit (bit : ℕ) (word : Word) : Word := word &&& ~~~(1#32 <<< bit)

def setBit (bit : ℕ) (word : Word) : Word := word ||| (1#32 <<< bit)

def bitmapSetBit (map : List Word) (bit : ℕ) : List Word :=
  map.modify (bit / BITS_PER_LONG) (setBit (bit % BITS_PER_LONG))

def bitmapClearBit (map : List Word) (bit : ℕ) : List Word :=
  map.modify (bit / BITS_PER_LONG) (clearBit (bit % BITS_PER_LONG))

def bitmapGetBit (map : List Word) (bit : ℕ) : Word :=
  (map.getD (bit / BITS_PER_LONG) 0 >>> (bit % BITS_PER_LONG)) &&& 1#32

/-- `__builtin_ffsl`: one plus the index of the least bit set, 0 for 0. -/
def ffsl (word : Word) : ℕ :=
  match (List.range 32).find? (word.getLsbD ·) with
  | some i => i + 1
  | none => 0

/-- The loop of `find_first_bit` from word `i` on. -/
def findFirstBitFrom (size : ℕ) : ℕ → List Word → ℕ
  | _, [] => size
  | i, word :: rest =>
    if i * BITS_PER_LONG < size then
      if word ≠ 0 then min (i * BITS_PER_LONG + ffsl word - 1) size
      else findFirstBitFrom size (i + 1) rest
    else size

def findFirstBit (addr : List Word) (size : ℕ) : ℕ := findFirstBitFrom size 0 addr

/-- The loop of `find_first_zero_bit` from word `i` on. -/
def findFirstZeroBitFrom (size : ℕ) : ℕ → List Word → ℕ
  | _, [] => size
  | i, word :: rest =>
    if i * BITS_PER_LONG < size then
      if word ≠ BitVec.allOnes 32 then min (i * BITS_PER_LONG + ffsl (~~~word) - 1) size
      else findFirstZeroBitFrom size (i + 1) rest
    else size

def findFirstZeroBit (addr : List Word) (size : ℕ) : ℕ := findFirstZeroBitFrom size 0 addr

/-! ## What the operations do to a bitmap -/

/-- Bit `bit` of the bitmap is set. -/
def testBit (map : List Word) (bit : ℕ) : Bool := (map.getD (bit / 32) 0).getLsbD (bit % 32)

theorem getLsbD_setBit (word : Word) {bit i : ℕ} (hb : bit < 32) (hi : i < 32) :
    (setBit bit word).getLsbD i = (decide (i = bit) || word.getLsbD i) := by
  simp only [setBit, BitVec.getLsbD_or, BitVec.getLsbD_shiftLeft, BitVec.getLsbD_one, hi]
  by_cases h : i = bit
  · subst h; simp
  · by_cases hlt : i < bit
    · simp [h, hlt]
    · have : i - bit ≠ 0 := by omega
      simp [h, hlt, this]

theorem getLsbD_clearBit (word : Word) {bit i : ℕ} (hb : bit < 32) (hi : i < 32) :
    (clearBit bit word).getLsbD i = (!decide (i = bit) && word.getLsbD i) := by
  simp only [clearBit, BitVec.getLsbD_and, BitVec.getLsbD_not, BitVec.getLsbD_shiftLeft,
    BitVec.getLsbD_one, hi]
  by_cases h : i = bit
  · subst h; simp
  · by_cases hlt : i < bit
    · simp [h, hlt]
    · have : i - bit ≠ 0 := by omega
      simp [h, hlt, this]

theorem testBit_bitmapSetBit {map : List Word} {i : ℕ} (hi : i / 32 < map.length) (j : ℕ) :
    testBit (bitmapSetBit map i) j = (decide (j = i) || testBit map j) := by
  unfold testBit bitmapSetBit
  rw [List.getD_eq_getElem?_getD, List.getElem?_modify, List.getD_eq_getElem?_getD]
  by_cases hw : i / 32 = j / 32
  · have hj : j / 32 < map.length := hw ▸ hi
    simp only [BITS_PER_LONG, hw, if_true, List.getElem?_eq_getElem hj, Option.map_eq_map,
      Option.map_some, Option.getD_some]
    rw [getLsbD_setBit _ (by omega) (by omega)]
    have : (j % 32 = i % 32) ↔ j = i := by omega
    simp only [this]
  · have : j ≠ i := fun h => hw (by rw [h])
    cases hm : map[j / 32]? <;> simp [BITS_PER_LONG, hw, this]

theorem testBit_bitmapClearBit (map : List Word) (i j : ℕ) :
    testBit (bitmapClearBit map i) j = (!decide (j = i) && testBit map j) := by
  unfold testBit bitmapClearBit
  rw [List.getD_eq_getElem?_getD, List.getElem?_modify, List.getD_eq_getElem?_getD]
  cases hm : map[j / 32]? with
  | none => simp
  | some word =>
    by_cases hw : i / 32 = j / 32
    · simp only [BITS_PER_LONG, hw, if_true, Option.map_eq_map, Option.map_some, Option.getD_some]
      rw [getLsbD_clearBit _ (by omega) (by omega)]
      have : (j % 32 = i % 32) ↔ j = i := by omega
      simp only [this]
    · have : j ≠ i := fun h => hw (by rw [h])
      simp [BITS_PER_LONG, hw, this]

theorem bitmapGetBit_eq (map : List Word) (i : ℕ) :
    bitmapGetBit map i = if testBit map i then 1#32 else 0#32 := by
  unfold bitmapGetBit testBit
  apply BitVec.eq_of_getLsbD_eq
  intro j hj
  simp only [BITS_PER_LONG, BitVec.getLsbD_and, BitVec.getLsbD_ushiftRight, BitVec.getLsbD_one]
  by_cases h0 : j = 0
  · subst h0; split <;> simp_all
  · split <;> simp [h0]

@[simp] theorem length_bitmapSetBit (map : List Word) (i : ℕ) :
    (bitmapSetBit map i).length = map.length := by simp [bitmapSetBit]

@[simp] theorem length_bitmapClearBit (map : List Word) (i : ℕ) :
    (bitmapClearBit map i).length = map.length := by simp [bitmapClearBit]

/-- Bitmaps of one length with the same bits are equal. -/
theorem ext_testBit {m n : List Word} (hlen : m.length = n.length)
    (h : ∀ i < 32 * m.length, testBit m i = testBit n i) : m = n := by
  apply List.ext_getElem hlen
  intro w hm hn
  apply BitVec.eq_of_getLsbD_eq
  intro i hi
  have hb := h (32 * w + i) (by omega)
  unfold testBit at hb
  have hd : (32 * w + i) / 32 = w := by omega
  have hr : (32 * w + i) % 32 = i := by omega
  rw [hd, hr] at hb
  simpa [List.getD_eq_getElem?_getD, hm, hn] using hb

/-! ## The search for the first bit -/

theorem ffsl_spec {word : Word} (h : word ≠ 0) :
    ∃ i < 32, ffsl word = i + 1 ∧ word.getLsbD i = true ∧ ∀ j < i, word.getLsbD j = false := by
  unfold ffsl
  cases hf : (List.range 32).find? (word.getLsbD ·) with
  | some i =>
    obtain ⟨hi, hr, hlt⟩ := List.find?_range_eq_some.mp hf
    exact ⟨i, by simpa using hr, rfl, hi, fun j hj => by simpa using hlt j hj⟩
  | none =>
    refine absurd (BitVec.eq_of_getLsbD_eq fun i hi => ?_) h
    have := List.find?_eq_none.mp hf i (by simpa using hi)
    simpa using this

theorem testBit_cons_lt (word : Word) (rest : List Word) {j : ℕ} (hj : j < 32) :
    testBit (word :: rest) j = word.getLsbD j := by
  have hd : j / 32 = 0 := by omega
  have hr : j % 32 = j := by omega
  simp [testBit, hd, hr]

theorem testBit_cons_ge (word : Word) (rest : List Word) {j : ℕ} (hj : 32 ≤ j) :
    testBit (word :: rest) j = testBit rest (j - 32) := by
  obtain ⟨k, rfl⟩ := Nat.exists_eq_add_of_le hj
  have hd : (32 + k) / 32 = k / 32 + 1 := by omega
  have hr : (32 + k) % 32 = k % 32 := by omega
  simp [testBit, hd, hr]

/-- The loop from word `i` on returns the least set bit at or past `32 * i`, or
`size`. -/
theorem findFirstBitFrom_spec (size : ℕ) (ws : List Word) (i : ℕ) :
    findFirstBitFrom size i ws ≤ size ∧
    (findFirstBitFrom size i ws < size → i * 32 ≤ findFirstBitFrom size i ws ∧
      testBit ws (findFirstBitFrom size i ws - i * 32) = true) ∧
    ∀ j, i * 32 ≤ j → j < findFirstBitFrom size i ws → testBit ws (j - i * 32) = false := by
  induction ws generalizing i with
  | nil =>
    refine ⟨le_refl _, fun h => absurd h (lt_irrefl _), fun j _ _ => ?_⟩
    simp [testBit]
  | cons word rest ih =>
    unfold findFirstBitFrom
    by_cases hlt : i * BITS_PER_LONG < size
    · rw [if_pos hlt]
      simp only [BITS_PER_LONG] at hlt ⊢
      by_cases hw : word ≠ 0
      · rw [if_pos hw]
        obtain ⟨k, hk, hff, hset, hlow⟩ := ffsl_spec hw
        have hmin : i * 32 + ffsl word - 1 = i * 32 + k := by omega
        rw [hmin]
        refine ⟨min_le_right _ _, ?_, ?_⟩
        · intro hr
          have hr' : min (i * 32 + k) size = i * 32 + k := by omega
          rw [hr']
          refine ⟨by omega, ?_⟩
          rw [Nat.add_sub_cancel_left, testBit_cons_lt _ _ hk]
          exact hset
        · intro j hj hjr
          rw [testBit_cons_lt _ _ (by omega)]
          exact hlow _ (by omega)
      · rw [if_neg hw]
        have hz : word = 0 := by simpa using hw
        obtain ⟨hle, hset, hlow⟩ := ih (i + 1)
        refine ⟨hle, ?_, ?_⟩
        · intro hr
          obtain ⟨hge, ht⟩ := hset hr
          refine ⟨by omega, ?_⟩
          rw [testBit_cons_ge _ _ (by omega)]
          convert ht using 2
          omega
        · intro j hj hjr
          by_cases hj32 : j - i * 32 < 32
          · rw [testBit_cons_lt _ _ hj32, hz]; simp
          · rw [testBit_cons_ge _ _ (by omega)]
            have := hlow j (by omega) hjr
            convert this using 2
            omega
    · rw [if_neg hlt]
      refine ⟨le_refl _, fun h => absurd h (lt_irrefl _), fun j hj hjr => ?_⟩
      simp only [BITS_PER_LONG] at hlt
      omega

/-- **`find_first_bit`.** The result is the least set bit below `size`, or
`size` when there is none. -/
theorem findFirstBit_spec (addr : List Word) (size : ℕ) :
    findFirstBit addr size ≤ size ∧
    (findFirstBit addr size < size → testBit addr (findFirstBit addr size) = true) ∧
    ∀ j < findFirstBit addr size, testBit addr j = false := by
  unfold findFirstBit
  obtain ⟨hle, hset, hlow⟩ := findFirstBitFrom_spec size addr 0
  refine ⟨hle, fun h => by simpa using (hset h).2, fun j hj => by simpa using hlow j (by omega) hj⟩

theorem findFirstBit_lt_iff {addr : List Word} {size : ℕ} :
    findFirstBit addr size < size ↔ ∃ j < size, testBit addr j = true := by
  obtain ⟨_, hset, hlow⟩ := findFirstBit_spec addr size
  constructor
  · intro h; exact ⟨_, h, hset h⟩
  · rintro ⟨j, hj, ht⟩
    by_contra hge
    have := hlow j (by omega)
    rw [ht] at this
    cases this

/-- The search stops at `i` when `i` is set and nothing below it is. -/
theorem findFirstBit_eq {addr : List Word} {size i : ℕ} (hi : i < size)
    (hset : testBit addr i = true) (hlow : ∀ j < i, testBit addr j = false) :
    findFirstBit addr size = i := by
  obtain ⟨_, hset', hlow'⟩ := findFirstBit_spec addr size
  have hlt := findFirstBit_lt_iff.mpr ⟨i, hi, hset⟩
  rcases Nat.lt_trichotomy (findFirstBit addr size) i with h | h | h
  · rw [hlow _ h] at hset'
    exact absurd (hset' hlt) (by simp)
  · exact h
  · rw [hlow' i h] at hset
    cases hset

example : findFirstBit [0#32, 0x50#32] 64 = 36 := by decide

/-! ## Masks of the low bits -/

/-- The bits below `k`. -/
def lowMask (k : ℕ) : Word := BitVec.ofNat 32 (2 ^ k - 1)

theorem getLsbD_lowMask (k : ℕ) {i : ℕ} (hi : i < 32) : (lowMask k).getLsbD i = decide (i < k) := by
  rw [lowMask, BitVec.getLsbD_ofNat, Nat.testBit_two_pow_sub_one]
  simp [hi]

theorem toNat_and_lowMask (w : Word) (k : ℕ) : (w &&& lowMask k).toNat = w.toNat % 2 ^ k := by
  refine Nat.eq_of_testBit_eq fun i => ?_
  rw [Nat.testBit_mod_two_pow]
  show (w &&& lowMask k).getLsbD i = (decide (i < k) && w.getLsbD i)
  rw [BitVec.getLsbD_and]
  by_cases hi : i < 32
  · rw [getLsbD_lowMask k hi, Bool.and_comm]
  · rw [BitVec.getLsbD_of_ge w i (by omega)]
    simp

theorem and_not_lowMask (w : Word) (k : ℕ) : w &&& ~~~lowMask k = (w >>> k) <<< k := by
  refine BitVec.eq_of_getLsbD_eq fun i hi => ?_
  rw [BitVec.getLsbD_and, BitVec.getLsbD_not, getLsbD_lowMask k hi, BitVec.getLsbD_shiftLeft,
    BitVec.getLsbD_ushiftRight]
  by_cases hk : i < k
  · simp [hk]
  · simp [hk, hi, show k + (i - k) = i by omega]

/-- Rounding down to a multiple of `2 ^ k`. -/
theorem toNat_and_not_lowMask (w : Word) (k : ℕ) : (w &&& ~~~lowMask k).toNat = w.toNat / 2 ^ k * 2 ^ k := by
  have hle : w.toNat / 2 ^ k * 2 ^ k ≤ w.toNat := Nat.div_mul_le_self ..
  rw [and_not_lowMask, BitVec.toNat_shiftLeft, BitVec.toNat_ushiftRight, Nat.shiftLeft_eq,
    Nat.shiftRight_eq_div_pow, Nat.mod_eq_of_lt (lt_of_le_of_lt hle w.isLt)]

/-! ## The search for the first zero bit -/

theorem ne_allOnes_iff (word : Word) : word ≠ BitVec.allOnes 32 ↔ ~~~word ≠ 0 := by
  rw [not_iff_not]
  constructor
  · intro h
    rw [h]
    decide
  · intro h
    rw [← BitVec.not_not (b := word), h]
    decide

theorem findFirstZeroBitFrom_eq (size : ℕ) (ws : List Word) (i : ℕ) :
    findFirstZeroBitFrom size i ws = findFirstBitFrom size i (ws.map (~~~·)) := by
  induction ws generalizing i with
  | nil => rfl
  | cons word rest ih =>
    simp only [findFirstZeroBitFrom, findFirstBitFrom, List.map_cons, ne_allOnes_iff, ih]

theorem testBit_map_not {ws : List Word} {j : ℕ} (hj : j < 32 * ws.length) :
    testBit (ws.map (~~~·)) j = !testBit ws j := by
  unfold testBit
  have hw : j / 32 < ws.length := by omega
  have hb : j % 32 < 32 := by omega
  simp [List.getD_eq_getElem?_getD, hw, hb]

/-- **`find_first_zero_bit`.** The result is the least zero bit below `size`, or
`size` when there is none. -/
theorem findFirstZeroBit_spec {addr : List Word} {size : ℕ} (hs : size ≤ 32 * addr.length) :
    findFirstZeroBit addr size ≤ size ∧
    (findFirstZeroBit addr size < size → testBit addr (findFirstZeroBit addr size) = false) ∧
    ∀ j < findFirstZeroBit addr size, testBit addr j = true := by
  have he : findFirstZeroBit addr size = findFirstBit (addr.map (~~~·)) size :=
    findFirstZeroBitFrom_eq size addr 0
  obtain ⟨hle, hset, hlow⟩ := findFirstBit_spec (addr.map (~~~·)) size
  rw [← he] at hle hset hlow
  refine ⟨hle, fun h => ?_, fun j hj => ?_⟩
  · have hb := hset h
    rw [testBit_map_not (by omega)] at hb
    simpa using hb
  · have hb := hlow j hj
    rw [testBit_map_not (by omega)] at hb
    simpa using hb

example : findFirstZeroBit [0xffffffff#32, 0x2f#32] 64 = 36 := by decide

end PikoRT.Kernel.Bitops

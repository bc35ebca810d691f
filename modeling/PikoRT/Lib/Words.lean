import Mathlib

/-! # Consecutive words of a memory

A memory gives the word at every address that is a multiple of four. Addresses wrap
around, so that "above `a`" is said by the offset `x - a`: the words of `storeWords m a vs`
are those whose offset from `a` is less than `4 * vs.length`. -/
namespace PikoRT.Lib.Words

variable {α : Type*} {m m' : BitVec 32 → α} {a b x : BitVec 32} {n : ℕ}

/-- The words `vs`, stored from `a` upwards. -/
def storeWords (m : BitVec 32 → α) (a : BitVec 32) : List α → BitVec 32 → α
  | [] => m
  | v :: vs => storeWords (Function.update m a v) (a + 4) vs

/-- The words at the offsets below `n` from `a` are the same in both memories. -/
def Agree (m m' : BitVec 32 → α) (a : BitVec 32) (n : ℕ) : Prop :=
  ∀ x, (x - a).toNat < n → m' x = m x

theorem toNat_ofNat_of_lt {k : ℕ} (h : k < 2 ^ 32) : (BitVec.ofNat 32 k).toNat = k := by
  rw [BitVec.toNat_ofNat, Nat.mod_eq_of_lt h]

theorem toNat_add_sub (a : BitVec 32) {k : ℕ} (h : k < 2 ^ 32) : (a + BitVec.ofNat 32 k - a).toNat = k := by
  rw [add_sub_cancel_left, toNat_ofNat_of_lt h]

/-- The offset from a base that is `k` bytes further up. -/
theorem offset_add {k : ℕ} (h : k ≤ (x - a).toNat) : (x - (a + BitVec.ofNat 32 k)).toNat = (x - a).toNat - k := by
  have hlt := (x - a).isLt
  have hk : (BitVec.ofNat 32 k).toNat = k := toNat_ofNat_of_lt (by omega)
  rw [sub_add_eq_sub_sub, BitVec.toNat_sub_of_le (by rw [BitVec.le_def, hk]; exact h), hk]

theorem toNat_offset (x a : BitVec 32) (k : ℕ) :
    (x - a).toNat = ((x - (a + BitVec.ofNat 32 k)).toNat + k) % 2 ^ 32 := by
  have hoff : x - a = (x - (a + BitVec.ofNat 32 k)) + BitVec.ofNat 32 k := by
    rw [sub_add_eq_sub_sub, sub_add_cancel]
  rw [hoff, BitVec.toNat_add, BitVec.toNat_ofNat]
  omega

theorem offset_of_add {k : ℕ} (h : (x - (a + BitVec.ofNat 32 k)).toNat + k < 2 ^ 32) :
    (x - a).toNat = (x - (a + BitVec.ofNat 32 k)).toNat + k :=
  (toNat_offset x a k).trans (Nat.mod_eq_of_lt h)

theorem Agree.refl (m : BitVec 32 → α) (a : BitVec 32) (n : ℕ) : Agree m m a n := fun _ _ => rfl

theorem Agree.trans {m₁ m₂ m₃ : BitVec 32 → α} (h : Agree m₁ m₂ a n) (h' : Agree m₂ m₃ a n) :
    Agree m₁ m₃ a n :=
  fun x hx => (h' x hx).trans (h x hx)

/-- A part of the words, `k` bytes further up. -/
theorem Agree.drop {k : ℕ} (h : Agree m m' a n) (hk : k ≤ n) :
    Agree m m' (a + BitVec.ofNat 32 k) (n - k) := by
  intro x hx
  refine h x ?_
  rw [toNat_offset x a k]
  omega

theorem Agree.mono {k : ℕ} (h : Agree m m' a n) (hk : k ≤ n) : Agree m m' a k :=
  fun x hx => h x (Nat.lt_of_lt_of_le hx hk)

theorem Agree.apply {k : ℕ} (h : Agree m m' a n) (hk : k < n) (hw : k < 2 ^ 32) :
    m' (a + BitVec.ofNat 32 k) = m (a + BitVec.ofNat 32 k) := by
  refine h _ ?_
  rw [toNat_add_sub a hw]
  exact hk

theorem agree_update (h : n ≤ (x - a).toNat) (v : α) : Agree m (Function.update m x v) a n := by
  intro y hy
  refine Function.update_of_ne ?_ _ _
  rintro rfl
  omega

/-- Two memories that differ in one word still do so. -/
theorem storeWords_congr {k : BitVec 32} (h : ∀ x, x ≠ k → m' x = m x) (a : BitVec 32) (vs : List α) :
    ∀ x, x ≠ k → storeWords m' a vs x = storeWords m a vs x := by
  induction vs generalizing m m' a with
  | nil => exact h
  | cons v vs ih =>
    refine ih (fun x hx => ?_) (a + 4)
    by_cases hxa : x = a
    · rw [hxa, Function.update_self, Function.update_self]
    · rw [Function.update_of_ne hxa, Function.update_of_ne hxa, h x hx]

/-- Storing leaves the words at higher offsets alone. -/
theorem storeWords_of_le (m : BitVec 32 → α) (vs : List α) (h : 4 * vs.length ≤ (x - a).toNat) :
    storeWords m a vs x = m x := by
  induction vs generalizing m a with
  | nil => rfl
  | cons v vs ih =>
    rw [List.length_cons] at h
    have hoff : (x - (a + 4)).toNat = (x - a).toNat - 4 := by
      rw [sub_add_eq_sub_sub]
      bv_omega
    have hne : x ≠ a := by
      rintro rfl
      rw [sub_self] at h
      have : (0 : BitVec 32).toNat = 0 := rfl
      omega
    rw [storeWords, ih (Function.update m a v) (by omega), Function.update_of_ne hne]

theorem add_mul_succ (a : BitVec 32) (i : ℕ) :
    a + BitVec.ofNat 32 (4 * (i + 1)) = a + 4 + BitVec.ofNat 32 (4 * i) := by
  rw [Nat.mul_succ, Nat.add_comm, BitVec.ofNat_add, add_assoc]
  rfl

/-- A stored word. -/
theorem storeWords_apply (m : BitVec 32 → α) {vs : List α} (hlen : 4 * vs.length ≤ 2 ^ 32) {i : ℕ} {v : α}
    (hi : vs[i]? = some v) : storeWords m a vs (a + BitVec.ofNat 32 (4 * i)) = v := by
  induction vs generalizing m a i with
  | nil => cases hi
  | cons w vs ih =>
    rw [List.length_cons] at hlen
    cases i with
    | zero =>
      rw [storeWords, storeWords_of_le]
      · simpa using hi
      · rw [Nat.mul_zero]
        bv_omega
    | succ i =>
      rw [storeWords, add_mul_succ]
      exact ih (Function.update m a w) (by omega) hi

theorem storeWords_head (m : BitVec 32 → α) {v : α} {vs : List α} (hlen : 4 * (v :: vs).length ≤ 2 ^ 32) :
    storeWords m a (v :: vs) a = v := by
  have hfirst := storeWords_apply (a := a) (i := 0) m hlen rfl
  simpa using hfirst

/-- The words above what was stored, up to `n` bytes. -/
theorem agree_storeWords (m : BitVec 32 → α) (vs : List α) (hn : 4 * vs.length + n ≤ 2 ^ 32) :
    Agree m (storeWords m a vs) (a + BitVec.ofNat 32 (4 * vs.length)) n := by
  intro x hx
  refine storeWords_of_le m vs ?_
  have hoff := offset_of_add (x := x) (a := a) (k := 4 * vs.length) (by omega)
  omega

end PikoRT.Lib.Words

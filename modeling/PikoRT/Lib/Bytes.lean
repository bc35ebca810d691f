import Mathlib

/-! # Runs of bytes in a memory

`bytesAt m a n` are the `n` elements of a memory from the address `a` on, in the order of their
addresses, and `storeBytes m a cs` is the memory with `cs` stored there. Addresses wrap around. -/
namespace PikoRT.Lib.Bytes

variable {α : Type*} {w : ℕ}

def bytesAt (m : BitVec w → α) : BitVec w → ℕ → List α
  | _, 0 => []
  | a, n + 1 => m a :: bytesAt m (a + 1) n

variable (m : BitVec w → α) (a : BitVec w)

@[simp] theorem bytesAt_zero : bytesAt m a 0 = [] := rfl

@[simp] theorem length_bytesAt (n : ℕ) : (bytesAt m a n).length = n := by
  induction n generalizing a with
  | zero => rfl
  | succ n ih => rw [bytesAt, List.length_cons, ih]

theorem bytesAt_add (k n : ℕ) :
    bytesAt m a (k + n) = bytesAt m a k ++ bytesAt m (a + BitVec.ofNat w k) n := by
  induction k generalizing a with
  | zero => rw [Nat.zero_add, bytesAt_zero, List.nil_append, BitVec.add_zero]
  | succ k ih =>
    have hnext : a + 1 + BitVec.ofNat w k = a + BitVec.ofNat w (k + 1) := by
      rw [BitVec.ofNat_add, add_comm (BitVec.ofNat w k), ← add_assoc]
      rfl
    rw [Nat.succ_add, bytesAt, bytesAt, ih, List.cons_append, hnext]

/-- What stands behind the first `k` of `n` bytes. -/
theorem drop_bytesAt {k n : ℕ} (h : k ≤ n) :
    (bytesAt m a n).drop k = bytesAt m (a + BitVec.ofNat w k) (n - k) := by
  obtain ⟨j, rfl⟩ := Nat.exists_eq_add_of_le h
  rw [bytesAt_add, Nat.add_sub_cancel_left]
  exact List.drop_left' (length_bytesAt m a k)

theorem take_bytesAt {k n : ℕ} (h : k ≤ n) : (bytesAt m a n).take k = bytesAt m a k := by
  obtain ⟨j, rfl⟩ := Nat.exists_eq_add_of_le h
  rw [bytesAt_add]
  exact List.take_left' (length_bytesAt m a k)

/-- A part of the bytes, from the `k`-th on. -/
theorem take_drop_bytesAt {k j n : ℕ} (h : k + j ≤ n) :
    ((bytesAt m a n).drop k).take j = bytesAt m (a + BitVec.ofNat w k) j := by
  rw [drop_bytesAt m a (by omega), take_bytesAt m _ (by omega)]

theorem getElem?_bytesAt {n i : ℕ} (h : i < n) : (bytesAt m a n)[i]? = some (m (a + BitVec.ofNat w i)) := by
  obtain ⟨j, rfl⟩ : ∃ j, n = i + (j + 1) := ⟨n - i - 1, by omega⟩
  rw [bytesAt_add, List.getElem?_append_right (by simp), length_bytesAt, Nat.sub_self]
  rfl

/-! ## Stores -/

def storeBytes (m : BitVec w → α) : BitVec w → List α → BitVec w → α
  | _, [] => m
  | a, c :: cs => storeBytes (Function.update m a c) (a + 1) cs

theorem storeBytes_nil : storeBytes m a [] = m := rfl

theorem storeBytes_cons (c : α) (cs : List α) :
    storeBytes m a (c :: cs) = storeBytes (Function.update m a c) (a + 1) cs := rfl

theorem toNat_one (h : 0 < w) : (1 : BitVec w).toNat = 1 := BitVec.toNat_one h

theorem width_pos {a x : BitVec w} (h : x ≠ a) : 0 < w := by
  refine Nat.pos_of_ne_zero fun hw => ?_
  subst hw
  exact h (Subsingleton.elim x a)

/-- An address that is not the first one is one nearer to the second one. -/
theorem toNat_sub_succ {a x : BitVec w} (h : x ≠ a) : (x - a).toNat = (x - (a + 1)).toNat + 1 := by
  have hone := toNat_one (width_pos h)
  have hpos : 0 < (x - a).toNat := by
    refine Nat.pos_of_ne_zero fun hz => h (sub_eq_zero.mp (BitVec.eq_of_toNat_eq ?_))
    rw [hz]
    simp
  have hle : 1 ≤ x - a := by
    rw [BitVec.le_def, hone]
    exact hpos
  rw [← sub_sub, BitVec.toNat_sub_of_le hle, hone]
  omega

/-- The first address is the farthest one from the second one. -/
theorem le_toNat_sub_succ (a : BitVec w) {n : ℕ} (h : n + 1 ≤ 2 ^ w) : n ≤ (a - (a + 1)).toNat := by
  rw [sub_add_cancel_left, BitVec.toNat_neg]
  rcases Nat.eq_zero_or_pos w with rfl | hw
  · rw [Nat.pow_zero] at h
    omega
  · rw [toNat_one hw, Nat.mod_eq_of_lt (by omega)]
    omega

/-- **Each address** has the byte that was stored there, if there is one. -/
theorem storeBytes_apply {cs : List α} (h : cs.length ≤ 2 ^ w) (x : BitVec w) :
    storeBytes m a cs x = (cs[(x - a).toNat]?).getD (m x) := by
  induction cs generalizing m a with
  | nil => rfl
  | cons c cs ih =>
    rw [List.length_cons] at h
    rw [storeBytes_cons, ih _ _ (by omega)]
    by_cases hx : x = a
    · subst hx
      -- the bytes behind the first one do not come around to it
      rw [List.getElem?_eq_none (le_toNat_sub_succ x h), Option.getD_none, Function.update_self, sub_self]
      rfl
    · rw [toNat_sub_succ hx, List.getElem?_cons_succ, Function.update_of_ne hx]

theorem storeBytes_of_le {cs : List α} (h : cs.length ≤ 2 ^ w) {x : BitVec w} (hx : cs.length ≤ (x - a).toNat) :
    storeBytes m a cs x = m x := by
  rw [storeBytes_apply m a h, List.getElem?_eq_none hx, Option.getD_none]

/-- A second store at the same address. -/
theorem storeBytes_storeBytes {cs ds : List α} (hc : cs.length ≤ 2 ^ w) (hd : ds.length ≤ 2 ^ w) :
    storeBytes (storeBytes m a cs) a ds = storeBytes m a (ds ++ cs.drop ds.length) := by
  funext x
  have hlen : (ds ++ cs.drop ds.length).length ≤ 2 ^ w := by
    rw [List.length_append, List.length_drop]
    omega
  rw [storeBytes_apply _ _ hd, storeBytes_apply _ _ hc, storeBytes_apply _ _ hlen]
  by_cases hx : (x - a).toNat < ds.length
  · rw [List.getElem?_append_left hx, List.getElem?_eq_getElem hx]
    rfl
  · have hle : ds.length ≤ (x - a).toNat := Nat.le_of_not_lt hx
    rw [List.getElem?_append_right hle, List.getElem?_eq_none hle, List.getElem?_drop, Nat.add_sub_cancel' hle]
    rfl

end PikoRT.Lib.Bytes

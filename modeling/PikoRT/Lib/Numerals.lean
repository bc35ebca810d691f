import Mathlib

/-! # Positional numerals

A number in a base is written with its most significant digit first, and zero with one digit.
Reading multiplies by the base and adds the next digit. -/
namespace PikoRT.Lib.Numerals

def numeral (b n : ℕ) : List ℕ := if n = 0 then [0] else (b.digits n).reverse

/-- What digits say behind those that make `acc`. -/
def readFrom (b : ℕ) (acc : ℕ) (ds : List ℕ) : ℕ := ds.foldl (fun acc d => acc * b + d) acc

variable {b n m acc : ℕ}

theorem readFrom_append (ds : List ℕ) (d : ℕ) : readFrom b acc (ds ++ [d]) = readFrom b acc ds * b + d := by
  rw [readFrom, List.foldl_append]
  rfl

theorem readFrom_reverse (ds : List ℕ) : readFrom b 0 ds.reverse = Nat.ofDigits b ds := by
  induction ds with
  | nil => rfl
  | cons d ds ih =>
    rw [List.reverse_cons, readFrom_append, ih, Nat.ofDigits_cons, mul_comm, add_comm]

/-- **Reading** a numeral gives its number. -/
theorem read_numeral (b n : ℕ) : readFrom b 0 (numeral b n) = n := by
  unfold numeral
  split
  · rename_i h
    simp [readFrom, h]
  · rw [readFrom_reverse, Nat.ofDigits_digits]

theorem lt_of_mem_numeral (hb : 2 ≤ b) {d : ℕ} (hd : d ∈ numeral b n) : d < b := by
  unfold numeral at hd
  split at hd
  · rw [List.mem_singleton.mp hd]
    omega
  · exact Nat.digits_lt_base hb (List.mem_reverse.mp hd)

theorem numeral_ne_nil (b n : ℕ) : numeral b n ≠ [] := by
  unfold numeral
  split
  · exact List.cons_ne_nil _ _
  · rename_i h
    rw [ne_eq, List.reverse_eq_nil_iff, Nat.digits_eq_nil_iff_eq_zero]
    exact h

/-- Only zero begins with a zero. -/
theorem numeral_of_head_zero (h : (numeral b n).head? = some 0) : numeral b n = [0] := by
  unfold numeral at h ⊢
  split
  · rfl
  · rename_i hn
    rw [if_neg hn, List.head?_reverse] at h
    have hne : b.digits n ≠ [] := Nat.digits_ne_nil_iff_ne_zero.mpr hn
    rw [List.getLast?_eq_some_getLast hne, Option.some.injEq] at h
    exact absurd h (Nat.getLast_digit_ne_zero b hn)

/-- The digits that repeated division gives, from the last one on. -/
theorem numeral_of_lt (h : n < b) : numeral b n = [n] := by
  unfold numeral
  split
  · rename_i hn
    rw [hn]
  · rename_i hn
    rw [Nat.digits_of_lt b n hn h]
    rfl

theorem numeral_of_le (hb : 2 ≤ b) (h : b ≤ n) : numeral b n = numeral b (n / b) ++ [n % b] := by
  have hn : n ≠ 0 := by omega
  have hq : n / b ≠ 0 := (Nat.div_pos h (by omega)).ne'
  unfold numeral
  rw [if_neg hn, if_neg hq, Nat.digits_def' hb (Nat.pos_of_ne_zero hn), List.reverse_cons]

end PikoRT.Lib.Numerals

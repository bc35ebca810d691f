import PikoRT.Libc.Itoa

/-! # When `itoa_base` comes back (`libc/utils.c`)

The function of `Libc.Itoa` with its divisions and its accesses watched: what the loop divides by,
where it reads `base36`, and which offsets of the buffer are stored to. -/
namespace PikoRT.Libc.ItoaFaults
open PikoRT.Kernel.Bitops PikoRT.Libc.Printf PikoRT.Libc.Itoa

inductive Fault where
  | division
  | table (index : ℕ)
  deriving DecidableEq, Repr

/-- The buffer, and the offsets that were stored to. -/
structure Out where
  buf : Buf
  written : List ℕ

def Out.store (i : ℕ) (c : Byte) (o : Out) : Out := ⟨Function.update o.buf i c, i :: o.written⟩

/-- The `do ... while` loop; the NUL behind the 36 digits is no entry of the table. -/
def digitLoop (base : ℕ) : ℕ → ℕ → ℕ → Out → Option (Except Fault (ℕ × Out))
  | 0, _, _, _ => none
  | n + 1, val, i, o =>
    if base = 0 then some (.error .division)
    else
      match base36[val % base]? with
      | none => some (.error (.table (val % base)))
      | some c => if val / base ≠ 0 then digitLoop base n (val / base) (i + 1) (o.store i c) else some
        (.ok (i + 1, o.store i c))

def swapLoop : ℕ → ℕ → ℕ → Out → Option Out
  | 0, _, _, _ => none
  | n + 1, t, u, o =>
    if t < u then swapLoop n (t + 1) (u - 1) ((o.store t (o.buf u)).store u (o.buf t)) else some o

def strrev (fuel : ℕ) (o : Out) : Option Out :=
  if o.buf 0 = 0 then some o else (lastChar fuel 0 o.buf).bind fun u => swapLoop fuel 0 u o

/-- Behind the loop: the sign, the NUL and the reversal. -/
def finish (fuel : ℕ) (isneg : Prop) [Decidable isneg] : ℕ × Out → Option (Except Fault (Option Out))
  | (i, o) =>
    let r := if isneg then (i + 1, o.store i (ch '-')) else (i, o)
    (strrev fuel (r.2.store r.1 0)).map fun o => .ok (some o)

/-- `itoa_base`: a fault, NULL, or the buffer. -/
def itoaBase (fuel : ℕ) (value : Word) (buf : Buf) (base : Word) : Option (Except Fault (Option Out)) :=
  if 36 < base.toInt then some (.ok none)
  else
    let isneg := value.toInt < 0 ∧ base = 10
    let val := if isneg then -value else value
    (digitLoop base.toNat fuel val.toNat 0 ⟨buf, []⟩).bind fun
      | .error f => some (.error f)
      | .ok r => finish fuel isneg r

/-- The call comes back without a fault, and stores into no more than 34 characters. -/
def ComesBack (value base : Word) : Prop :=
  ∀ buf, ∃ fuel o, itoaBase fuel value buf base = some (.ok (some o)) ∧ ∀ i ∈ o.written, i < 34

/-- The base is at least 2; it is 1, for a zero; or it is negative, and stands at most 35 below the value when
both have one sign, or the value is itself a digit. -/
def Divides (value base : Word) : Prop :=
  2 ≤ base.toInt ∨ (base = 1 ∧ value = 0) ∨
    (base.toInt < 0 ∧ (0 ≤ value.toInt ∧ value.toInt ≤ 35 ∨
      value.toInt < 0 ∧ base.toInt ≤ value.toInt ∧ value.toInt ≤ base.toInt + 35))

/-! ## The same function -/

section

variable {fuel n t u i val base : ℕ} {o o' : Out} {r : ℕ × Out}

theorem digitLoop_buf (h : digitLoop base n val i o = some (.ok r)) :
    Itoa.digitLoop base n val i o.buf = some (r.1, r.2.buf) := by
  induction n generalizing val i o with
  | zero => cases h
  | succ n ih =>
    rw [digitLoop] at h
    rw [Itoa.digitLoop]
    split at h
    · cases h
    · rename_i hb
      rw [if_neg hb]
      cases hc : base36[val % base]? with
      | none =>
        rw [hc] at h
        cases h
      | some c =>
        rw [hc] at h
        rw [List.getD_eq_getElem?_getD, hc, Option.getD_some]
        dsimp only at h ⊢
        split at h
        · rename_i hdiv
          rw [if_pos hdiv]
          exact ih h
        · rename_i hdiv
          rw [if_neg hdiv]
          cases h
          rfl

theorem swapLoop_buf : (swapLoop n t u o).map Out.buf = Itoa.swapLoop n t u o.buf := by
  induction n generalizing t u o with
  | zero => rfl
  | succ n ih =>
    rw [swapLoop, Itoa.swapLoop]
    split
    · exact ih
    · rfl

theorem strrev_buf : (strrev fuel o).map Out.buf = Itoa.strrev fuel o.buf := by
  unfold strrev Itoa.strrev
  split
  · rfl
  · rw [Option.map_bind]
    exact Option.bind_congr fun u _ => swapLoop_buf

end

/-- Without a fault, this is the function of `Libc.Itoa`. -/
theorem itoaBase_buf {fuel : ℕ} {value base : Word} {buf : Buf} {o : Option Out}
    (h : itoaBase fuel value buf base = some (.ok o)) : Itoa.itoaBase fuel value buf base = some (o.map Out.buf) := by
  unfold itoaBase at h
  unfold Itoa.itoaBase
  split at h
  · rename_i hbig
    rw [if_pos hbig]
    cases h
    rfl
  · rename_i hbig
    rw [if_neg hbig]
    obtain ⟨d, hd, h⟩ := Option.bind_eq_some_iff.mp h
    cases d with
    | error f => cases h
    | ok r =>
      obtain ⟨o', ho', h⟩ := Option.map_eq_some_iff.mp h
      cases h
      refine Option.bind_eq_some_iff.mpr ⟨_, digitLoop_buf hd, ?_⟩
      have hrev := congrArg (Option.map Out.buf) ho'
      rw [strrev_buf] at hrev
      by_cases hneg : value.toInt < 0 ∧ base = 10
      · simp only [if_pos hneg] at hrev ⊢
        exact congrArg (Option.map some) hrev
      · simp only [if_neg hneg] at hrev ⊢
        exact congrArg (Option.map some) hrev

/-! ## The digits -/

section

variable {fuel n i k val base : ℕ} {o : Out}

/-- The offsets below `i` hold characters, and nothing else was stored to. -/
structure Wrote (i : ℕ) (o : Out) : Prop where
  chars : ∀ j < i, o.buf j ≠ 0
  inside : ∀ j ∈ o.written, j < i

theorem Wrote.store (h : Wrote i o) {c : Byte} (hc : c ≠ 0) : Wrote (i + 1) (o.store i c) := by
  refine ⟨fun j hj => ?_, fun j hj => ?_⟩
  · show Function.update o.buf i c j ≠ 0
    rcases Nat.lt_succ_iff_lt_or_eq.mp hj with hlt | rfl
    · rw [Function.update_of_ne (Nat.ne_of_lt hlt)]
      exact h.chars j hlt
    · rw [Function.update_self]
      exact hc
  · rcases List.mem_cons.mp hj with rfl | hj
    · exact Nat.lt_succ_self _
    · exact Nat.lt_succ_of_lt (h.inside j hj)

theorem digitLoop_zero (h : val % base < 36) (hb : base ≠ 0) :
    digitLoop base (n + 1) val i o =
      if val / base ≠ 0 then digitLoop base n (val / base) (i + 1) (o.store i (charOf (val % base)))
      else some (.ok (i + 1, o.store i (charOf (val % base)))) := by
  rw [digitLoop, if_neg hb, base36_getElem? h]

theorem charOf_ne_zero {d : ℕ} (h : d < 36) : charOf d ≠ 0 := fun hz => zero_notMem_base36 (hz ▸ charOf_mem h)

/-- The loop ends when all its digits are in the table. -/
theorem digitLoop_ends (hb : base ≠ 0) (htable : ∀ j, val / base ^ j % base < 36) (hval : val < base ^ (k + 1))
    (hn : k + 1 ≤ n)
    (hw : Wrote i o) : ∃ r, digitLoop base n val i o = some (.ok r) ∧ r.1 ≤ i + (k + 1) ∧ Wrote r.1 r.2 := by
  obtain ⟨n, rfl⟩ : ∃ m, n = m + 1 := ⟨n - 1, by omega⟩
  have hfirst : val % base < 36 := by simpa using htable 0
  have hw' := hw.store (charOf_ne_zero hfirst)
  rw [digitLoop_zero hfirst hb]
  induction k generalizing n val i o with
  | zero =>
    rw [Nat.zero_add, Nat.pow_one] at hval
    rw [if_neg (not_not.mpr (Nat.div_eq_of_lt hval))]
    exact ⟨_, rfl, le_rfl, hw'⟩
  | succ k ih =>
    by_cases hdiv : val / base = 0
    · rw [if_neg (not_not.mpr hdiv)]
      exact ⟨_, rfl, by omega, hw'⟩
    · obtain ⟨n, rfl⟩ : ∃ m, n = m + 1 := ⟨n - 1, by omega⟩
      have hlt : val / base < base ^ (k + 1) := Nat.div_lt_of_lt_mul (by rwa [Nat.pow_succ, Nat.mul_comm] at hval)
      have htable' : ∀ j, val / base / base ^ j % base < 36 := fun j => by
        rw [Nat.div_div_eq_div_mul, ← Nat.pow_succ']
        exact htable (j + 1)
      have hnext : val / base % base < 36 := by simpa using htable' 0
      rw [if_pos hdiv, digitLoop_zero hnext hb]
      obtain ⟨r, hr, hle, hwr⟩ := ih htable' hlt hw' n (by omega) hnext (hw'.store (charOf_ne_zero hnext))
      exact ⟨r, hr, by omega, hwr⟩

theorem digitLoop_pos {r : ℕ × Out} (h : digitLoop base n val i o = some (.ok r)) : i < r.1 := by
  induction n generalizing val i o with
  | zero => cases h
  | succ n ih =>
    rw [digitLoop] at h
    split at h
    · cases h
    · split at h
      · cases h
      · split at h
        · exact (Nat.lt_succ_self i).trans (ih h)
        · cases h
          exact Nat.lt_succ_self i

/-- In base 1 a value stays what it is. -/
theorem digitLoop_one (hval : val ≠ 0) : digitLoop 1 n val i o = none := by
  induction n generalizing i o with
  | zero => rfl
  | succ n ih =>
    have hzero : val % 1 < 36 := by omega
    rw [digitLoop_zero hzero one_ne_zero, Nat.div_one, if_pos hval]
    exact ih

/-- A digit that is in no table. -/
theorem digitLoop_table (hb : base ≠ 0) (h : 36 ≤ val % base) :
    digitLoop base (n + 1) val i o = some (.error (.table (val % base))) := by
  have hnone : base36[val % base]? = none := List.getElem?_eq_none h
  rw [digitLoop, if_neg hb, hnone]

/-! ## The reversal -/

theorem swapLoop_ends {t u : ℕ} (ht : t ≤ u + 1) (hn : u + 1 < t + 2 * n) :
    ∃ o', swapLoop n t u o = some o' ∧ ∀ j ∈ o'.written, j ∈ o.written ∨ j ≤ u := by
  induction n generalizing t u o with
  | zero => omega
  | succ n ih =>
    rw [swapLoop]
    split
    · obtain ⟨o', ho', hin⟩ :=
        ih (o := (o.store t (o.buf u)).store u (o.buf t)) (t := t + 1) (u := u - 1) (by omega) (by omega)
      refine ⟨o', ho', fun j hj => ?_⟩
      rcases hin j hj with hj | hj
      · rcases List.mem_cons.mp hj with rfl | hj
        · exact .inr le_rfl
        · rcases List.mem_cons.mp hj with rfl | hj
          · exact .inr (by omega)
          · exact .inl hj
      · exact .inr (by omega)
    · exact ⟨o, rfl, fun j hj => .inl hj⟩

/-- Behind the characters there is the NUL. -/
theorem strrev_ends (hw : Wrote i o) (hpos : 0 < i) (hn : i ≤ n) :
    ∃ o', strrev n (o.store i 0) = some o' ∧ ∀ j ∈ o'.written, j ≤ i := by
  have hlen : ((List.range i).map o.buf).length = i := by rw [List.length_map, List.length_range]
  -- the buffer as a string, so that its last character is found
  have hstring : Holds (o.store i 0).buf (o.store i 0).buf ((List.range i).map o.buf) := by
    refine ⟨fun j hj => ?_, ?_, ?_, fun _ _ => rfl⟩
    · rw [hlen] at hj
      rw [List.getElem?_map, List.getElem?_range hj, Option.map_some]
      show _ = some (Function.update o.buf i 0 j)
      rw [Function.update_of_ne (Nat.ne_of_lt hj)]
    · intro hmem
      obtain ⟨j, hj, hz⟩ := List.mem_map.mp hmem
      exact hw.chars j (List.mem_range.mp hj) hz
    · rw [hlen]
      exact Function.update_self ..
  have hlast := lastChar_spec hstring n 0 (hlen.symm ▸ hpos) (by rw [hlen]; omega)
  rw [hlen] at hlast
  have hfirst : (o.store i 0).buf 0 ≠ 0 := by
    show Function.update o.buf i 0 0 ≠ 0
    rw [Function.update_of_ne (Nat.ne_of_lt hpos)]
    exact hw.chars 0 hpos
  obtain ⟨o', ho', hin⟩ := swapLoop_ends (o := o.store i 0) (n := n) (t := 0) (u := i - 1) (by omega) (by omega)
  refine ⟨o', ?_, fun j hj => ?_⟩
  · rw [strrev, if_neg hfirst, hlast]
    exact ho'
  · rcases hin j hj with hj | hj
    · rcases List.mem_cons.mp hj with rfl | hj
      · exact le_rfl
      · exact Nat.le_of_lt (hw.inside j hj)
    · omega

theorem finish_ends {isneg : Prop} [Decidable isneg] (hw : Wrote i o) (hpos : 0 < i) (hi : i ≤ 32) :
    ∃ o', finish 33 isneg (i, o) = some (.ok (some o')) ∧ ∀ j ∈ o'.written, j < 34 := by
  unfold finish
  by_cases h : isneg
  · simp only [if_pos h]
    have hdash : ch '-' ≠ 0 := by decide
    obtain ⟨o', ho', hin⟩ := strrev_ends (hw.store hdash) (Nat.succ_pos i) (Nat.succ_le_succ hi)
    rw [ho']
    exact ⟨o', rfl, fun j hj => by have hle := hin j hj; omega⟩
  · simp only [if_neg h]
    obtain ⟨o', ho', hin⟩ := strrev_ends (n := 33) hw hpos (hi.trans (by norm_num))
    rw [ho']
    exact ⟨o', rfl, fun j hj => by have hle := hin j hj; omega⟩

end

/-! ## The bases -/

section

variable {value base : Word}

theorem toNat_of_negative (h : base.toInt < 0) : (base.toNat : ℤ) = base.toInt + 2 ^ 32 := by
  have hint := BitVec.toInt_eq_toNat_cond base
  split at hint <;> omega

theorem two_pow_le_of_negative (h : base.toInt < 0) : 2 ^ 31 ≤ base.toNat := by
  have hint := BitVec.toInt_eq_toNat_cond base
  split at hint <;> omega

theorem magnitude_of_negative (h : base.toInt < 0) : magnitude base value = value.toNat :=
  if_neg fun hs => by
    rw [hs.2] at h
    exact absurd h (by decide)

/-- The loop is all that can go wrong. -/
theorem comesBack_of_loop (hbase : base.toInt ≤ 36)
    (h : ∀ o, Wrote 0 o → ∃ r, digitLoop base.toNat 33 (magnitude base value) 0 o = some (.ok r) ∧
      0 < r.1 ∧ r.1 ≤ 32 ∧ Wrote r.1 r.2) : ComesBack value base := by
  intro buf
  have hempty : Wrote 0 ⟨buf, []⟩ :=
    ⟨fun j hj => absurd hj (Nat.not_lt_zero j), fun j hj => absurd hj List.not_mem_nil⟩
  obtain ⟨r, hr, hpos, hle, hw⟩ := h ⟨buf, []⟩ hempty
  have hfinish : ∃ o', finish 33 (value.toInt < 0 ∧ base = 10) r = some (.ok (some o')) ∧ ∀ j ∈ o'.written, j < 34 :=
    finish_ends hw hpos hle
  obtain ⟨o', ho', hin⟩ := hfinish
  refine ⟨33, o', ?_, hin⟩
  unfold itoaBase
  rw [if_neg (by omega)]
  refine Option.bind_eq_some_iff.mpr ⟨.ok r, ?_, ho'⟩
  rw [← hr]
  unfold magnitude
  split <;> rfl

theorem loop_of_comesBack (hbase : base.toInt ≤ 36) (h : ComesBack value base) :
    ∃ n o r, digitLoop base.toNat n (magnitude base value) 0 o = some (.ok r) := by
  obtain ⟨n, o', ho', -⟩ := h fun _ => 0
  unfold itoaBase at ho'
  rw [if_neg (by omega)] at ho'
  obtain ⟨d, hd, ho'⟩ := Option.bind_eq_some_iff.mp ho'
  cases d with
  | error f => cases ho'
  | ok r =>
    refine ⟨n, ⟨fun _ => 0, []⟩, r, ?_⟩
    rw [← hd]
    unfold magnitude
    split <;> rfl

theorem comesBack_of_two_le (hlo : 2 ≤ base.toInt) (hhi : base.toInt ≤ 36) : ComesBack value base := by
  obtain ⟨hlo', hhi'⟩ := toNat_bounds hlo hhi
  have hpos : 0 < base.toNat := by omega
  refine comesBack_of_loop hhi fun o hw => ?_
  have htable : ∀ j, magnitude base value / base.toNat ^ j % base.toNat < 36 :=
    fun j => (Nat.mod_lt _ hpos).trans_le hhi'
  obtain ⟨r, hr, hle, hwr⟩ := digitLoop_ends (n := 33) hpos.ne' htable (magnitude_lt hlo' value) (by norm_num) hw
  exact ⟨r, hr, digitLoop_pos hr, by omega, hwr⟩

theorem comesBack_one : ComesBack 0 1 := by
  refine comesBack_of_loop (by decide) fun o hw => ?_
  have htable : ∀ j, magnitude 1 0 / 1 ^ j % 1 < 36 := fun j => by omega
  obtain ⟨r, hr, hle, hwr⟩ := digitLoop_ends (n := 33) (k := 0) one_ne_zero htable (by decide) (by norm_num) hw
  exact ⟨r, hr, digitLoop_pos hr, by omega, hwr⟩

/-- A negative base is so large that there are at most two digits, the second one a 1. -/
theorem comesBack_of_negative (hneg : base.toInt < 0) (h : value.toNat % base.toNat < 36) : ComesBack value base := by
  have hlarge := two_pow_le_of_negative hneg
  have hlt := value.isLt
  refine comesBack_of_loop (by omega) fun o hw => ?_
  rw [magnitude_of_negative hneg]
  have hone : value.toNat / base.toNat ≤ 1 := Nat.le_of_lt_succ (Nat.div_lt_of_lt_mul (by omega))
  have htable : ∀ j, value.toNat / base.toNat ^ j % base.toNat < 36 := fun j => by
    cases j with
    | zero => simpa using h
    | succ j =>
      rw [Nat.pow_succ', ← Nat.div_div_eq_div_mul]
      have hle : value.toNat / base.toNat / base.toNat ^ j ≤ 1 := (Nat.div_le_self ..).trans hone
      exact (Nat.mod_le ..).trans_lt (by omega)
  have hsq : value.toNat < base.toNat ^ (1 + 1) := by
    rw [Nat.pow_two]
    exact hlt.trans_le ((by norm_num : 2 ^ 32 ≤ 2 ^ 31 * 2 ^ 31).trans (Nat.mul_le_mul hlarge hlarge))
  obtain ⟨r, hr, hle, hwr⟩ := digitLoop_ends (n := 33) (by omega) htable hsq (by norm_num) hw
  exact ⟨r, hr, digitLoop_pos hr, by omega, hwr⟩

/-- The digit that a negative base leaves. -/
theorem remainder_lt_iff (hneg : base.toInt < 0) : value.toNat % base.toNat < 36 ↔
    (0 ≤ value.toInt ∧ value.toInt ≤ 35 ∨ value.toInt < 0 ∧ base.toInt ≤ value.toInt ∧
      value.toInt ≤ base.toInt + 35) := by
  have hbase := toNat_of_negative hneg
  have hlarge := two_pow_le_of_negative hneg
  have hvalue := BitVec.toInt_eq_toNat_cond value
  have hlt := value.isLt
  by_cases hbelow : value.toNat < base.toNat
  · rw [Nat.mod_eq_of_lt hbelow]
    split at hvalue <;> omega
  · rw [Nat.mod_eq_sub_mod (Nat.le_of_not_lt hbelow), Nat.mod_eq_of_lt (by omega)]
    split at hvalue <;> omega

end

/-- **`itoa_base` comes back**, without a fault, exactly when the base is at least 2 or the digits happen to end and
to be in the table. -/
theorem comesBack_iff (value : Word) {base : Word} (hbase : base.toInt ≤ 36) :
    ComesBack value base ↔ Divides value base := by
  constructor
  · intro h
    obtain ⟨n, o, r, hr⟩ := loop_of_comesBack hbase h
    rcases lt_trichotomy base.toInt 0 with hneg | hzero | hpos
    · refine .inr (.inr ⟨hneg, (remainder_lt_iff hneg).mp ?_⟩)
      rw [magnitude_of_negative hneg] at hr
      by_contra hbig
      cases n with
      | zero => cases hr
      | succ n =>
        have hlarge := two_pow_le_of_negative hneg
        rw [digitLoop_table (by omega) (Nat.le_of_not_lt hbig)] at hr
        cases hr
    · obtain rfl : base = 0 := BitVec.eq_of_toInt_eq hzero
      cases n with
      | zero => cases hr
      | succ n => cases hr
    · by_cases hone : base.toInt = 1
      · obtain rfl : base = 1 := BitVec.eq_of_toInt_eq hone
        refine .inr (.inl ⟨rfl, ?_⟩)
        by_contra hne
        have hmag : magnitude 1 value = value.toNat := if_neg fun hs => absurd hs.2 (by decide)
        rw [hmag] at hr
        have hval : value.toNat ≠ 0 := fun hz => hne (BitVec.eq_of_toNat_eq hz)
        have hnone : digitLoop 1 n value.toNat 0 o = none := digitLoop_one hval
        exact absurd (hnone.symm.trans hr) (by simp)
      · exact .inl (by omega)
  · intro h
    rcases h with hlo | ⟨rfl, rfl⟩ | ⟨hneg, hdigit⟩
    · exact comesBack_of_two_le hlo hbase
    · exact comesBack_one
    · exact comesBack_of_negative hneg ((remainder_lt_iff hneg).mpr hdigit)

theorem comesBack_iff_minusOne : ComesBack 35 (-1) :=
  (comesBack_iff 35 (by decide)).mpr (.inr (.inr ⟨by decide, .inl ⟨by decide, by decide⟩⟩))

/-- The loop of `itoa_base(1, buf, 1)` does not end. -/
theorem one_in_base_one : (1 : Word).toInt ≤ 36 ∧ ¬ ComesBack 1 1 := by
  refine ⟨by decide, fun h => ?_⟩
  obtain ⟨n, o, r, hr⟩ := loop_of_comesBack (by decide) h
  have hnone : digitLoop 1 n (magnitude 1 1) 0 o = none := digitLoop_one (by decide)
  exact absurd (hnone.symm.trans hr) (by simp)

end PikoRT.Libc.ItoaFaults

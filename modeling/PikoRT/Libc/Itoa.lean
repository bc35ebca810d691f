import PikoRT.Lib.Numerals
import PikoRT.Libc.PrintfPieces

/-! # `itoa_base` in memory (`libc/utils.c`)

The buffer is the memory from `buf` on, addressed by offsets. The digits are written from
the last one on, behind them the sign and the NUL, and the string is then reversed in
place. -/
namespace PikoRT.Libc.Itoa
open PikoRT.Kernel.Bitops PikoRT.Lib.Numerals PikoRT.Libc.Printf

abbrev Buf := ℕ → Byte

/-- `while (*(u + 1) != '\0') u++`. -/
def lastChar : ℕ → ℕ → Buf → Option ℕ
  | 0, _, _ => none
  | n + 1, u, s => if s (u + 1) ≠ 0 then lastChar n (u + 1) s else some u

/-- `t` moves forward, `u` moves backward. -/
def swapLoop : ℕ → ℕ → ℕ → Buf → Option Buf
  | 0, _, _, _ => none
  | n + 1, t, u, s =>
    if t < u then
      let tmp := s t
      let s := Function.update s t (s u)
      swapLoop n (t + 1) (u - 1) (Function.update s u tmp)
    else some s

def strrev (fuel : ℕ) (s : Buf) : Option Buf :=
  if s 0 = 0 then some s else (lastChar fuel 0 s).bind fun u => swapLoop fuel 0 u s

/-- The `do ... while` loop: the index behind the digits, and the buffer. -/
def digitLoop (base : ℕ) : ℕ → ℕ → ℕ → Buf → Option (ℕ × Buf)
  | 0, _, _, _ => none
  | n + 1, val, i, buf =>
    if base = 0 then none
    else
      let buf := Function.update buf i (base36.getD (val % base) 0)
      if val / base ≠ 0 then digitLoop base n (val / base) (i + 1) buf else some (i + 1, buf)

/-- `itoa_base`, into a buffer; the result is NULL or the buffer. The division is that of
`unsigned int`, and `abs(INT_MIN)` is the same word. -/
def itoaBase (fuel : ℕ) (value : Word) (buf : Buf) (base : Word) : Option (Option Buf) :=
  if 36 < base.toInt then some none
  else
    let isneg := value.toInt < 0 ∧ base = 10
    let val := if isneg then -value else value
    (digitLoop base.toNat fuel val.toNat 0 buf).bind fun r =>
      let i := if isneg then r.1 + 1 else r.1
      let buf := if isneg then Function.update r.2 r.1 (ch '-') else r.2
      (strrev fuel (Function.update buf i 0)).map some

/-! ## Reading a string -/

/-- The value of a character as a digit in a base. -/
def digitOf (base : ℕ) (c : Byte) : Option ℕ := (base36.idxOf? c).filter (· < base)

/-- The number that digits make, if all are digits of the base. -/
def parseDigits (base : ℕ) (text : List Byte) : Option ℕ :=
  if text = [] then none else (text.mapM (digitOf base)).map (readFrom base 0)

/-- A sign is read in base 10. -/
def parse (base : ℕ) (text : List Byte) : Option ℤ :=
  if base = 10 ∧ text.head? = some (ch '-') then (parseDigits base text.tail).map fun n : ℕ => -(n : ℤ)
  else (parseDigits base text).map fun n : ℕ => (n : ℤ)

/-- The number that a word stands for. -/
def valueOf (base value : Word) : ℤ := if base = 10 then value.toInt else value.toNat

def sign (base value : Word) : List Byte := if value.toInt < 0 ∧ base = 10 then [ch '-'] else []

/-- Digits of the base without a superfluous zero, behind a sign where there is one. -/
def Canonical (base value : Word) (text : List Byte) : Prop :=
  ∃ digits, text = sign base value ++ digits ∧ digits ≠ [] ∧
    (∀ c ∈ digits, ∃ d < base.toNat, base36[d]? = some c) ∧ (digits.head? = some (ch '0') → digits = [ch '0'])

/-- The buffer holds a string with its NUL, and is `buf` behind it. -/
structure Holds (buf' buf : Buf) (text : List Byte) : Prop where
  chars : ∀ i < text.length, text[i]? = some (buf' i)
  noNul : 0 ∉ text
  nul : buf' text.length = 0
  behind : ∀ i > text.length, buf' i = buf i

section

variable {s buf b : Buf} {text : List Byte} {base val n : ℕ}

/-! ## The reversal -/

theorem Holds.get (h : Holds b buf text) {i : ℕ} (hi : i < text.length) : b i = text.getD i 0 := by
  rw [List.getD_eq_getElem?_getD, h.chars i hi, Option.getD_some]

/-- The string says what the buffer is. -/
theorem Holds.unique {b' : Buf} (h : Holds b buf text) (h' : Holds b' buf text) : b = b' := by
  funext i
  rcases lt_trichotomy i text.length with hi | rfl | hi
  · exact Option.some.inj ((h.chars i hi).symm.trans (h'.chars i hi))
  · rw [h.nul, h'.nul]
  · rw [h.behind i hi, h'.behind i hi]

theorem lastChar_spec (h : Holds s buf text) (n u : ℕ) (hu : u < text.length) (hn : text.length ≤ u + n) :
    lastChar n u s = some (text.length - 1) := by
  induction n generalizing u with
  | zero => omega
  | succ n ih =>
    rw [lastChar]
    by_cases hend : u + 1 = text.length
    · rw [hend, h.nul, if_neg (by simp)]
      congr 1
      omega
    · have hlt : u + 1 < text.length := by omega
      have hne : s (u + 1) ≠ 0 := by
        intro hz
        have hmem := List.mem_of_getElem? (h.chars _ hlt)
        exact h.noNul (hz ▸ hmem)
      rw [if_pos hne]
      exact ih (u + 1) hlt (by omega)

/-- The loop turns the characters from `t` to `u` around. -/
theorem swapLoop_spec (n t u : ℕ) (s : Buf) (ht : t ≤ u + 1) (hn : u + 1 < t + 2 * n) :
    ∃ b, swapLoop n t u s = some b ∧ ∀ j, b j = if t ≤ j ∧ j ≤ u then s (t + u - j) else s j := by
  induction n generalizing t u s with
  | zero => omega
  | succ n ih =>
    rw [swapLoop]
    by_cases hlt : t < u
    · rw [if_pos hlt]
      obtain ⟨b, hb, hget⟩ :=
        ih (t + 1) (u - 1) (Function.update (Function.update s t (s u)) u (s t)) (by omega) (by omega)
      refine ⟨b, hb, fun j => (hget j).trans ?_⟩
      by_cases hin : t + 1 ≤ j ∧ j ≤ u - 1
      · -- inside, between the two characters
        rw [if_pos hin, if_pos (by omega), Function.update_of_ne (by omega), Function.update_of_ne (by omega)]
        congr 1
        omega
      · rw [if_neg hin]
        by_cases hju : j = u
        · rw [hju, Function.update_self, if_pos (by omega), Nat.add_sub_cancel]
        · rw [Function.update_of_ne hju]
          by_cases hjt : j = t
          · rw [hjt, Function.update_self, if_pos (by omega), Nat.add_sub_cancel_left]
          · rw [Function.update_of_ne hjt, if_neg (by omega)]
    · rw [if_neg hlt]
      refine ⟨s, rfl, fun j => ?_⟩
      split
      · congr 1
        omega
      · rfl

/-- **`strrev`** leaves the string backwards. -/
theorem strrev_spec (h : Holds s buf text) (hn : text.length ≤ n) :
    ∃ b, strrev n s = some b ∧ Holds b buf text.reverse := by
  by_cases hnil : text = []
  · subst hnil
    exact ⟨s, if_pos h.nul, h⟩
  · have hpos : 0 < text.length := List.length_pos_iff.mpr hnil
    have hne : s 0 ≠ 0 := by
      intro hz
      have hmem := List.mem_of_getElem? (h.chars 0 hpos)
      exact h.noNul (hz ▸ hmem)
    obtain ⟨b, hb, hget⟩ := swapLoop_spec n 0 (text.length - 1) s (Nat.zero_le _) (by omega)
    have hkeep : ∀ j ≥ text.length, b j = s j := fun j hj => (hget j).trans (if_neg (by omega))
    refine ⟨b, ?_, fun i hi => ?_, ?_, ?_, fun i hi => ?_⟩
    · rw [strrev, if_neg hne, lastChar_spec h n 0 hpos (by omega)]
      exact hb
    · rw [List.length_reverse] at hi
      rw [List.getElem?_reverse hi, h.chars _ (by omega), hget, if_pos (by omega)]
      congr 2
      omega
    · rw [List.mem_reverse]
      exact h.noNul
    · rw [List.length_reverse, hkeep _ le_rfl]
      exact h.nul
    · rw [List.length_reverse] at hi
      rw [hkeep i (Nat.le_of_lt hi)]
      exact h.behind i hi

/-! ## The digits -/

/-- The characters `cs` from the index `i` on. -/
def put (i : ℕ) (cs : List Byte) (b : Buf) : Buf :=
  fun j => if i ≤ j ∧ j < i + cs.length then cs.getD (j - i) 0 else b j

theorem put_cons (i : ℕ) (c : Byte) (cs : List Byte) (b : Buf) :
    put i (c :: cs) b = put (i + 1) cs (Function.update b i c) := by
  funext j
  unfold put
  rw [List.length_cons]
  by_cases hj : j = i
  · rw [hj, if_pos (by omega), if_neg (by omega), Function.update_self, Nat.sub_self, List.getD_cons_zero]
  · rw [Function.update_of_ne hj]
    by_cases hin : i + 1 ≤ j ∧ j < i + 1 + cs.length
    · rw [if_pos (by omega), if_pos hin, show j - i = j - (i + 1) + 1 by omega, List.getD_cons_succ]
    · rw [if_neg (by omega), if_neg hin]

theorem put_nil (i : ℕ) (b : Buf) : put i [] b = b := by
  funext j
  exact if_neg (by rw [List.length_nil]; omega)

theorem put_append (i : ℕ) (cs ds : List Byte) (b : Buf) :
    put i (cs ++ ds) b = put (i + cs.length) ds (put i cs b) := by
  induction cs generalizing i b with
  | nil => rw [List.nil_append, put_nil, List.length_nil, Nat.add_zero]
  | cons c cs ih => rw [List.cons_append, put_cons, put_cons, ih, List.length_cons, Nat.add_right_comm, Nat.add_assoc]

/-- A string that is written with its NUL. -/
theorem holds_put (b : Buf) (h : 0 ∉ text) : Holds (put 0 (text ++ [0]) b) b text := by
  have hlen : (text ++ [(0 : Byte)]).length = text.length + 1 := by rw [List.length_append, List.length_singleton]
  refine ⟨fun i hi => ?_, h, ?_, fun i hi => ?_⟩
  · rw [put, if_pos (by omega), Nat.sub_zero, List.getD_append _ _ _ _ hi, List.getD_eq_getElem?_getD,
      List.getElem?_eq_getElem hi, Option.getD_some]
  · rw [put, if_pos (by omega), Nat.sub_zero, List.getD_append_right _ _ _ _ le_rfl, Nat.sub_self]
    rfl
  · exact if_neg (by omega)

/-- The loop in memory writes what the loop of `Libc.Printf` lists. -/
theorem digitLoop_spec (hb : base ≠ 0) (k val i : ℕ) (buf : Buf) (hval : val < base ^ (k + 1)) (hn : k + 1 ≤ n) :
    digitLoop base n val i buf =
      some (i + (itoaLoop base (k + 1) val).length, put i (itoaLoop base (k + 1) val) buf) := by
  induction k generalizing n val i buf with
  | zero =>
    obtain ⟨n, rfl⟩ : ∃ m, n = m + 1 := ⟨n - 1, by omega⟩
    rw [Nat.zero_add, Nat.pow_one] at hval
    have hdiv : val / base = 0 := Nat.div_eq_of_lt hval
    rw [digitLoop, if_neg hb, if_neg (by simp [hdiv]), itoaLoop, if_pos hdiv, put_cons, put_nil]
    rfl
  | succ k ih =>
    obtain ⟨n, rfl⟩ : ∃ m, n = m + 1 := ⟨n - 1, by omega⟩
    rw [digitLoop, if_neg hb, itoaLoop, put_cons]
    by_cases hdiv : val / base = 0
    · rw [if_neg (by simp [hdiv]), if_pos hdiv, put_nil]
      rfl
    · have hlt : val / base < base ^ (k + 1) := Nat.div_lt_of_lt_mul (by rwa [Nat.pow_succ, Nat.mul_comm] at hval)
      rw [if_pos hdiv, if_neg hdiv, ih _ _ _ hlt (by omega), List.length_cons, Nat.add_right_comm, Nat.add_assoc]

/-! ## The text -/

def charOf (d : ℕ) : Byte := base36.getD d 0

theorem zero_notMem_base36 : 0 ∉ base36 := by decide

theorem dash_notMem_base36 : ch '-' ∉ base36 := by decide

theorem base36_getElem? {d : ℕ} (h : d < 36) : base36[d]? = some (charOf d) := by
  have hlt : d < base36.length := h
  rw [charOf, List.getD_eq_getElem?_getD, List.getElem?_eq_getElem hlt, Option.getD_some]

theorem charOf_mem {d : ℕ} (h : d < 36) : charOf d ∈ base36 := List.mem_of_getElem? (base36_getElem? h)

theorem idxOf?_charOf {d : ℕ} (h : d < 36) : base36.idxOf? (charOf d) = some d := by
  interval_cases d <;> rfl

theorem digitOf_charOf {d : ℕ} (h : d < base) (hb : base ≤ 36) : digitOf base (charOf d) = some d := by
  rw [digitOf, idxOf?_charOf (by omega), Option.filter_some]
  exact if_pos (by simpa using h)

theorem itoaLoop_eq (hlo : 2 ≤ base) (n val : ℕ) (hval : val < base ^ (n + 1)) :
    itoaLoop base (n + 1) val = ((numeral base val).map charOf).reverse := by
  induction n generalizing val with
  | zero =>
    rw [Nat.zero_add, Nat.pow_one] at hval
    rw [itoaLoop, if_pos (Nat.div_eq_of_lt hval), Nat.mod_eq_of_lt hval, numeral_of_lt hval]
    rfl
  | succ n ih =>
    rw [itoaLoop]
    by_cases hlt : val < base
    · rw [if_pos (Nat.div_eq_of_lt hlt), Nat.mod_eq_of_lt hlt, numeral_of_lt hlt]
      rfl
    · have hdiv : val / base < base ^ (n + 1) := Nat.div_lt_of_lt_mul (by rwa [Nat.pow_succ, Nat.mul_comm] at hval)
      have hle : base ≤ val := Nat.le_of_not_lt hlt
      rw [if_neg (Nat.div_pos hle (by omega)).ne', ih _ hdiv, numeral_of_le hlo hle, List.map_append,
        List.reverse_append]
      rfl

end

section

variable {base value : Word}

/-- The number whose digits are written. -/
def magnitude (base value : Word) : ℕ := if value.toInt < 0 ∧ base = 10 then (-value).toNat else value.toNat

theorem neg_toNat (h : value.toInt < 0) : ((-value).toNat : ℤ) = -value.toInt := by
  have hint := BitVec.toInt_eq_toNat_cond value
  have hlt := value.isLt
  rw [BitVec.toNat_neg]
  split at hint <;> omega

theorem base_eq_ten_iff : base.toNat = 10 ↔ base = 10 := by
  constructor
  · exact fun h => BitVec.eq_of_toNat_eq h
  · intro h
    rw [h]
    rfl

theorem magnitude_lt (hlo : 2 ≤ base.toNat) (value : Word) : magnitude base value < base.toNat ^ 32 := by
  have hpow : 2 ^ 32 ≤ base.toNat ^ 32 := Nat.pow_le_pow_left hlo 32
  unfold magnitude
  split
  · exact (-value).isLt.trans_le hpow
  · exact value.isLt.trans_le hpow

/-- The text that is written: a sign, and the digits of the magnitude. -/
def text (base value : Word) : List Byte := sign base value ++ (numeral base.toNat (magnitude base value)).map charOf

theorem zero_notMem_text (hlo : 2 ≤ base.toNat) (hhi : base.toNat ≤ 36) (value : Word) : 0 ∉ text base value := by
  intro hmem
  rcases List.mem_append.mp hmem with hs | hd
  · unfold sign at hs
    split at hs
    · exact absurd (List.mem_singleton.mp hs) (by decide)
    · exact List.not_mem_nil hs
  · obtain ⟨d, hd, hz⟩ := List.mem_map.mp hd
    have hlt := lt_of_mem_numeral hlo hd
    exact zero_notMem_base36 (hz ▸ charOf_mem (by omega))

/-- What stands in the buffer when it is reversed. -/
theorem written_eq (base value : Word) (hlo : 2 ≤ base.toNat) :
    itoaLoop base.toNat 32 (magnitude base value) ++ sign base value = (text base value).reverse := by
  have hsign : (sign base value).reverse = sign base value := by
    unfold sign
    split <;> rfl
  rw [itoaLoop_eq hlo 31 _ (magnitude_lt hlo value), text, List.reverse_append, hsign]

theorem length_text_le (base value : Word) (hlo : 2 ≤ base.toNat) : (text base value).length ≤ 33 := by
  have hlen := congrArg List.length (written_eq base value hlo)
  rw [List.length_append, List.length_reverse] at hlen
  have hdigits := PrintfPieces.length_itoaLoop_le base.toNat 32 (magnitude base value)
  have hsign : (sign base value).length ≤ 1 := by
    unfold sign
    split <;> simp
  omega

theorem toNat_bounds (hlo : 2 ≤ base.toInt) (hhi : base.toInt ≤ 36) : 2 ≤ base.toNat ∧ base.toNat ≤ 36 := by
  have hbase := BitVec.toInt_eq_toNat_cond base
  have hlt := base.isLt
  split at hbase <;> omega

/-- **`itoa_base`** leaves the text in the buffer. -/
theorem itoaBase_spec (hlo : 2 ≤ base.toInt) (hhi : base.toInt ≤ 36) (value : Word) (buf : Buf) {n : ℕ} (hn : 33 ≤ n) :
    ∃ buf', itoaBase n value buf base = some (some buf') ∧ Holds buf' buf (text base value) := by
  obtain ⟨hlo', hhi'⟩ := toNat_bounds hlo hhi
  have hdigits : digitLoop base.toNat n (magnitude base value) 0 buf = _ :=
    digitLoop_spec (by omega) 31 (magnitude base value) 0 buf (magnitude_lt hlo' value) (by omega)
  -- the digits, the sign and the NUL are one string
  have hput := put_append 0 (itoaLoop base.toNat 32 (magnitude base value)) (sign base value ++ [0]) buf
  rw [← List.append_assoc, written_eq base value hlo'] at hput
  have hnul : 0 ∉ (text base value).reverse := fun h => zero_notMem_text hlo' hhi' value (List.mem_reverse.mp h)
  have hholds := holds_put buf hnul
  rw [hput] at hholds
  have hlen : (text base value).reverse.length ≤ n := by
    rw [List.length_reverse]
    exact (length_text_le base value hlo').trans hn
  obtain ⟨buf', hrev, hres⟩ := strrev_spec hholds hlen
  rw [List.reverse_reverse] at hres
  refine ⟨buf', ?_, hres⟩
  unfold itoaBase
  rw [if_neg (by omega)]
  by_cases hneg : value.toInt < 0 ∧ base = 10
  · rw [magnitude, if_pos hneg] at hdigits hrev
    rw [sign, if_pos hneg] at hrev
    simp only [if_pos hneg, hdigits, Option.bind_some]
    rw [List.singleton_append, put_cons, put_cons, put_nil] at hrev
    rw [hrev]
    rfl
  · rw [magnitude, if_neg hneg] at hdigits hrev
    rw [sign, if_neg hneg] at hrev
    simp only [if_neg hneg, hdigits, Option.bind_some]
    rw [List.nil_append, put_cons, put_nil] at hrev
    rw [hrev]
    rfl

/-- The string of `Libc.Printf` is the same one. -/
theorem printf_itoaBase (hlo : 2 ≤ base.toNat) (value : Word) :
    Printf.itoaBase value base.toNat = text base value := by
  have hw := congrArg List.reverse (written_eq base value hlo)
  rw [List.reverse_reverse] at hw
  unfold Printf.itoaBase
  simp only [base_eq_ten_iff]
  rw [PrintfPieces.strrev_eq, PrintfPieces.strrev_eq, ← hw, sign, magnitude]
  split
  · rename_i hneg
    have habs : value.toInt.natAbs = (-value).toNat := by
      have hval := neg_toNat hneg.1
      omega
    rw [habs]
  · rw [List.append_nil]

/-! ## What is read -/

theorem digit_char_of_mem (hlo : 2 ≤ base.toNat) (hhi : base.toNat ≤ 36) {n : ℕ} {c : Byte}
    (hc : c ∈ (numeral base.toNat n).map charOf) : ∃ d < base.toNat, base36[d]? = some c := by
  obtain ⟨d, hd, rfl⟩ := List.mem_map.mp hc
  have hlt := lt_of_mem_numeral hlo hd
  exact ⟨d, hlt, base36_getElem? (by omega)⟩

theorem charOf_eq_zero {d : ℕ} (h : d < 36) (hc : charOf d = ch '0') : d = 0 := by
  have hidx := idxOf?_charOf h
  rw [hc] at hidx
  exact (Option.some.inj hidx).symm

theorem text_canonical (hlo : 2 ≤ base.toNat) (hhi : base.toNat ≤ 36) (value : Word) :
    Canonical base value (text base value) := by
  refine ⟨(numeral base.toNat (magnitude base value)).map charOf, rfl, ?_, fun c hc => digit_char_of_mem hlo hhi hc,
    fun hz => ?_⟩
  · rw [ne_eq, List.map_eq_nil_iff]
    exact numeral_ne_nil _ _
  · obtain ⟨d, hd, hc⟩ := Option.map_eq_some_iff.mp (List.head?_map .. ▸ hz)
    have hlt := lt_of_mem_numeral hlo (List.mem_of_mem_head? hd)
    rw [charOf_eq_zero (by omega) hc] at hd
    rw [numeral_of_head_zero hd]
    rfl

theorem mapM_digitOf {ds : List ℕ} {b : ℕ} (hb : b ≤ 36) (h : ∀ d ∈ ds, d < b) :
    (ds.map charOf).mapM (digitOf b) = some ds := by
  induction ds with
  | nil => rfl
  | cons d ds ih =>
    rw [List.map_cons, List.mapM_cons, digitOf_charOf (h d List.mem_cons_self) hb,
      ih fun e he => h e (List.mem_cons_of_mem _ he)]
    rfl

theorem parseDigits_numeral (hlo : 2 ≤ base.toNat) (hhi : base.toNat ≤ 36) (n : ℕ) :
    parseDigits base.toNat ((numeral base.toNat n).map charOf) = some n := by
  unfold parseDigits
  rw [if_neg (by rw [List.map_eq_nil_iff]; exact numeral_ne_nil _ _), mapM_digitOf hhi fun d hd =>
    lt_of_mem_numeral hlo hd,
    Option.map_some, read_numeral]

theorem parse_text (hlo : 2 ≤ base.toNat) (hhi : base.toNat ≤ 36) (value : Word) :
    parse base.toNat (text base value) = some (valueOf base value) := by
  unfold parse
  by_cases hneg : value.toInt < 0 ∧ base = 10
  · have hten := base_eq_ten_iff.mpr hneg.2
    have htext : text base value = ch '-' :: (numeral base.toNat (-value).toNat).map charOf := by
      rw [text, sign, magnitude, if_pos hneg, if_pos hneg]
      rfl
    rw [htext, if_pos ⟨hten, rfl⟩, List.tail_cons, parseDigits_numeral hlo hhi, Option.map_some, neg_toNat hneg.1,
      neg_neg, valueOf, if_pos hneg.2]
  · have htext : text base value = (numeral base.toNat value.toNat).map charOf := by
      rw [text, sign, magnitude, if_neg hneg, if_neg hneg]
      rfl
    -- no digit is a dash
    have hhead : ((numeral base.toNat value.toNat).map charOf).head? ≠ some (ch '-') := by
      intro hh
      obtain ⟨d, hlt, hd⟩ := digit_char_of_mem hlo hhi (List.mem_of_mem_head? hh)
      exact dash_notMem_base36 (List.mem_of_getElem? hd)
    rw [htext, if_neg fun h => hhead h.2, parseDigits_numeral hlo hhi, Option.map_some, valueOf]
    congr 1
    split
    · rename_i hten
      have hpos : ¬ value.toInt < 0 := fun h => hneg ⟨h, hten⟩
      have hint := BitVec.toInt_eq_toNat_cond value
      have hlt := value.isLt
      split at hint <;> omega
    · rfl

theorem valueOf_injective (base : Word) : Function.Injective (valueOf base) := by
  intro v w h
  unfold valueOf at h
  split at h
  · exact BitVec.eq_of_toInt_eq h
  · exact BitVec.eq_of_toNat_eq (Int.ofNat_inj.mp h)

theorem text_injective (hlo : 2 ≤ base.toNat) (hhi : base.toNat ≤ 36) : Function.Injective (text base) := by
  intro v w h
  have hv := parse_text hlo hhi v
  rw [h, parse_text hlo hhi w] at hv
  exact (valueOf_injective base (Option.some.inj hv)).symm

end

/-- The **round trip**. -/
theorem round_trip (base : Word) (hlo : 2 ≤ base.toInt) (hhi : base.toInt ≤ 36) :
    ∃ text : Word → List Byte, Function.Injective text ∧ ∀ value,
      Canonical base value (text value) ∧ parse base.toNat (text value) = some (valueOf base value) ∧
      ∀ buf, ∃ n buf', (∀ fuel ≥ n, itoaBase fuel value buf base = some (some buf')) ∧
      Holds buf' buf (text value) := by
  obtain ⟨hlo', hhi'⟩ := toNat_bounds hlo hhi
  refine ⟨text base, text_injective hlo' hhi',
    fun value => ⟨text_canonical hlo' hhi' value, parse_text hlo' hhi' value,
    fun buf => ?_⟩⟩
  obtain ⟨buf', -, hholds⟩ := itoaBase_spec hlo hhi value buf le_rfl
  refine ⟨33, buf', fun fuel hfuel => ?_, hholds⟩
  obtain ⟨b, hb, hb'⟩ := itoaBase_spec hlo hhi value buf hfuel
  rw [hb, hb'.unique hholds]

theorem round_trip_ten : ∃ text : Word → List Byte, Function.Injective text ∧ ∀ value,
    Canonical 10 value (text value) ∧ parse 10 (text value) = some (valueOf 10 value) ∧
    ∀ buf, ∃ n buf', (∀ fuel ≥ n, itoaBase fuel value buf 10 = some (some buf')) ∧ Holds buf' buf (text value) :=
  round_trip 10 (by decide) (by decide)

end PikoRT.Libc.Itoa

import PikoRT.Libc.PrintfBound

/-! # `vsnprintf`, piece by piece

A format is made of ordinary characters and directives; what each of them should print is
its rendering, and the output should be the renderings one after the other. The code
keeps one padding count for all directives. A number in its own width leaves in it what
was padded, the next number without a width is padded with that, and a number longer
than the count goes back in the buffer. `Clean` says when none of this happens. -/
namespace PikoRT.Libc.PrintfPieces
open PikoRT.Kernel.Bitops PikoRT.Libc.Printf PikoRT.Libc.PrintfBound

/-! ## Numbers -/

theorem getElem?_strrevLoop (n t u : ℕ) (s : List Byte) (hn : u < t + 2 * n + 1) (hu : u < s.length) (j : ℕ) :
    (strrevLoop n t u s)[j]? = if t ≤ j ∧ j ≤ u then s[t + u - j]? else s[j]? := by
  induction n generalizing t u s with
  | zero =>
    rw [strrevLoop]
    split
    · rw [show t + u - j = j by omega]
    · rfl
  | succ n ih =>
    rw [strrevLoop]
    split
    · rename_i hlt
      have ht : t < s.length := by omega
      rw [ih (t + 1) (u - 1) _ (by omega) (by rw [List.length_set, List.length_set]; omega)]
      simp only [List.getElem?_set, List.length_set, List.getD_eq_getElem?_getD]
      by_cases hj : t + 1 ≤ j ∧ j ≤ u - 1
      · rw [if_pos hj, if_neg (by omega), if_neg (by omega), if_pos (by omega)]
        congr 1
        omega
      · rw [if_neg hj]
        by_cases hju : u = j
        · subst hju
          rw [if_pos rfl, if_pos (by omega), if_pos (by omega), show t + u - u = t by omega,
            List.getElem?_eq_getElem ht, Option.getD_some]
        · rw [if_neg hju]
          by_cases hjt : t = j
          · subst hjt
            rw [if_pos rfl, if_pos ht, if_pos (by omega), show t + u - t = u by omega,
              List.getElem?_eq_getElem hu, Option.getD_some]
          · rw [if_neg hjt, if_neg (by omega)]
    · rename_i hge
      split
      · rw [show t + u - j = j by omega]
      · rfl

theorem strrev_eq (s : List Byte) : strrev s = s.reverse := by
  unfold strrev
  split
  · rename_i h
    rw [h, List.reverse_nil]
  · rename_i h
    have hpos : 0 < s.length := List.length_pos_iff.mpr h
    refine List.ext_getElem? fun j => ?_
    rw [getElem?_strrevLoop _ _ _ _ (by omega) (by omega)]
    by_cases hj : j < s.length
    · rw [if_pos (by omega), List.getElem?_reverse hj, Nat.zero_add]
    · rw [if_neg (by omega), List.getElem?_eq_none (by omega), List.getElem?_eq_none (by simp; omega)]

theorem base36_getD {d : ℕ} (hd : d < 16) : base36.getD d 0 = ch d.digitChar := by
  interval_cases d <;> rfl

/-- The digits of a number, least significant first. -/
theorem itoaLoop_eq {base : ℕ} (hlo : 2 ≤ base) (hhi : base ≤ 16) (n val : ℕ) (hval : val < base ^ (n + 1)) :
    (itoaLoop base (n + 1) val).reverse = (Nat.toDigits base val).map ch := by
  induction n generalizing val with
  | zero =>
    rw [Nat.pow_one] at hval
    rw [itoaLoop, if_pos (Nat.div_eq_of_lt hval), Nat.mod_eq_of_lt hval, Nat.toDigits_of_lt_base hval,
      base36_getD (by omega)]
    rfl
  | succ n ih =>
    have hdigit := base36_getD (d := val % base) ((Nat.mod_lt val (by omega)).trans_le hhi)
    rw [itoaLoop, Nat.toDigits_eq_if (by omega), hdigit]
    by_cases hlt : val < base
    · rw [if_pos (Nat.div_eq_of_lt hlt), if_pos hlt, Nat.mod_eq_of_lt hlt]
      rfl
    · have hdiv : val / base < base ^ (n + 1) := Nat.div_lt_of_lt_mul (by rwa [Nat.pow_succ, Nat.mul_comm] at hval)
      rw [if_neg (Nat.div_pos (by omega) (by omega)).ne', if_neg hlt, List.reverse_cons, ih _ hdiv,
        List.map_append, List.map_singleton]

/-- A word in signed decimal. -/
def decimal (w : Word) : List Byte :=
  (if w.toInt < 0 then [ch '-'] else []) ++ (Nat.toDigits 10 w.toInt.natAbs).map ch

/-- A word in lower-case hexadecimal. -/
def hexadecimal (w : Word) : List Byte := (Nat.toDigits 16 w.toNat).map ch

theorem length_itoaLoop_le (base n val : ℕ) : (itoaLoop base n val).length ≤ n := by
  induction n generalizing val with
  | zero => exact Nat.le_refl 0
  | succ n ih =>
    rw [itoaLoop, List.length_cons]
    split
    · simp
    · exact Nat.succ_le_succ (ih _)

theorem natAbs_toInt_le (w : Word) : w.toInt.natAbs ≤ 2 ^ 31 := by
  have hlt := BitVec.toInt_lt (x := w)
  have hle := BitVec.le_toInt w
  norm_num at hlt hle ⊢
  omega

theorem length_hexadecimal_le (w : Word) : (hexadecimal w).length ≤ 8 := by
  have hlt : w.toNat < 16 ^ (7 + 1) := w.isLt.trans_le (by norm_num)
  have hdigits := length_itoaLoop_le 16 8 w.toNat
  rwa [← List.length_reverse, itoaLoop_eq (by omega) (by omega) 7 _ hlt] at hdigits

theorem itoaBase_ten (w : Word) : itoaBase w 10 = decimal w := by
  have habs : w.toInt.natAbs < 10 ^ (31 + 1) := (natAbs_toInt_le w).trans_lt (by norm_num)
  unfold itoaBase decimal
  by_cases hneg : w.toInt < 0
  · rw [if_pos ⟨hneg, rfl⟩, if_pos hneg, strrev_eq, List.reverse_append, itoaLoop_eq (by omega) (by omega) 31 _ habs]
    rfl
  · rw [if_neg fun h => hneg h.1, if_neg hneg, strrev_eq]
    have heq : w.toInt.natAbs = w.toNat := by
      have hcond := BitVec.toInt_eq_toNat_cond w
      have hlt := w.isLt
      split at hcond
      · omega
      · omega
    rw [heq] at habs ⊢
    rw [itoaLoop_eq (by omega) (by omega) 31 _ habs]
    rfl

theorem itoaBase_sixteen (w : Word) : itoaBase w 16 = hexadecimal w := by
  have hlt : w.toNat < 16 ^ (31 + 1) := w.isLt.trans (by norm_num)
  unfold itoaBase hexadecimal
  rw [if_neg (by simp), strrev_eq, itoaLoop_eq (by omega) (by omega) 31 _ hlt]

/-! ## Pieces -/

/-- A piece of a format, with its argument. -/
inductive Piece where
  | ordinary (c : Byte) (h : c ≠ 0 ∧ c ≠ ch '%')
  | percent
  | dec (a : Arg)
  | hex (a : Arg)
  | ptr (a : Arg)
  | str (a : Arg)
  /-- The directive `%Nd`. -/
  | decN (n : Fin 10) (a : Arg)
  /-- The directives `%0Nd` and `% Nd`. -/
  | decFlag (zero : Bool) (n : Fin 10) (a : Arg)
  /-- The directives `%0Nx` and `% Nx`. -/
  | hexFlag (zero : Bool) (n : Fin 10) (a : Arg)

def digit (n : Fin 10) : Byte := BitVec.ofNat 8 (48 + n)

def flag (zero : Bool) : Byte := if zero then ch '0' else ch ' '

namespace Piece

/-- What the piece is in the format. -/
def text : Piece → List Byte
  | ordinary c _ => [c]
  | percent => [ch '%', ch '%']
  | dec _ => [ch '%', ch 'd']
  | hex _ => [ch '%', ch 'x']
  | ptr _ => [ch '%', ch 'p']
  | str _ => [ch '%', ch 's']
  | decN n _ => [ch '%', digit n, ch 'd']
  | decFlag zero n _ => [ch '%', flag zero, digit n, ch 'd']
  | hexFlag zero n _ => [ch '%', flag zero, digit n, ch 'x']

def args : Piece → List Arg
  | ordinary _ _ | percent => []
  | dec a | hex a | ptr a | str a | decN _ a | decFlag _ _ a | hexFlag _ _ a => [a]

/-- What the piece should print. -/
def render : Piece → List Byte
  | ordinary c _ => [c]
  | percent => [ch '%']
  | dec a => decimal a.word
  | hex a => hexadecimal a.word
  | ptr a => [ch '0', ch 'x'] ++ (hexadecimal a.word).leftpad 8 (ch '0')
  | str a => a.pointee.text
  | decN n a => (decimal a.word).leftpad n (ch ' ')
  | decFlag zero n a => (decimal a.word).leftpad n (flag zero)
  | hexFlag zero n a => (hexadecimal a.word).leftpad n (flag zero)

/-- The digits of a number, and its width if the piece has one. -/
def numeral : Piece → Option (Option ℕ × List Byte)
  | ordinary _ _ | percent | str _ => none
  | dec a => some (none, decimal a.word)
  | hex a => some (none, hexadecimal a.word)
  | ptr a => some (some 8, hexadecimal a.word)
  | decN n a => some (some n, decimal a.word)
  | decFlag _ n a => some (some n, decimal a.word)
  | hexFlag _ n a => some (some n, hexadecimal a.word)

theorem nul_notMem_text (p : Piece) : 0 ∉ p.text := by
  have hdigit : ∀ n, (0 : Byte) ≠ digit n := by decide
  have hflag : ∀ z, (0 : Byte) ≠ flag z := by decide
  cases p with
  | ordinary c h => simpa [text] using h.1.symm
  | decN n a =>
    simp only [text, List.mem_cons, hdigit, false_or, List.not_mem_nil, or_false]
    decide
  | decFlag z n a =>
    simp only [text, List.mem_cons, hdigit, hflag, false_or, List.not_mem_nil, or_false]
    decide
  | hexFlag z n a =>
    simp only [text, List.mem_cons, hdigit, hflag, false_or, List.not_mem_nil, or_false]
    decide
  | _ =>
    simp only [text]
    decide

theorem length_text_pos (p : Piece) : 0 < p.text.length := by
  cases p <;> simp [text]

end Piece

/-- The format that the pieces make. -/
def formatOf (ps : List Piece) (after : ℕ → Byte) : Format :=
  ⟨⟨ps.flatMap Piece.text, fun h =>
    let ⟨p, _, hp⟩ := List.mem_flatMap.mp h
    p.nul_notMem_text hp⟩, after⟩

/-- Their arguments, and what lies behind these. -/
def argsOf (ps : List Piece) (rest : VaList) : VaList := fun n => (ps.flatMap Piece.args).getD n (rest n)

def rendered (ps : List Piece) : List Byte := ps.flatMap Piece.render

/-! ## The padding count -/

/-- The padding count behind a piece. -/
def carry (r : ℕ) (p : Piece) : ℕ :=
  match p.numeral with
  | none => r
  | some (none, digits) => r - digits.length
  | some (some n, digits) => n - digits.length

/-- The number is not longer than its width; without a width, the count is zero or just
its length. -/
def Fitting (r : ℕ) (p : Piece) : Prop :=
  match p.numeral with
  | none => True
  | some (none, digits) => r = 0 ∨ r = digits.length
  | some (some n, digits) => n = 0 ∨ digits.length ≤ n

/-- Every number meets a padding count that suits it. -/
def Clean : ℕ → List Piece → Prop
  | _, [] => True
  | r, p :: ps => Fitting r p ∧ Clean (carry r p) ps

/-! ## Tokens of the pieces -/

section

variable {format : Format} {ap : VaList} {size : Word} {s : State} {o : Out} {p : Piece} {pre post : List Byte}

theorem get_piece (h : format.text = pre ++ (p.text ++ post)) {k : ℕ} (hk : k < p.text.length) :
    format.get (pre.length + k) = p.text.getD k 0 := by
  have hlen : pre.length + k < format.strlen := by
    unfold CString.strlen
    rw [h, List.length_append, List.length_append]
    omega
  rw [Format.get, if_pos hlen, h, List.getD_append_right _ _ _ _ (by omega), Nat.add_sub_cancel_left,
    List.getD_append _ _ _ _ hk]

/-- The padding that a piece sets. -/
def padOfPiece : Piece → Option (Byte × ℤ)
  | .decN n _ => some (ch ' ', (n : ℕ))
  | .decFlag zero n _ | .hexFlag zero n _ => some (flag zero, (n : ℕ))
  | _ => none

def kindOfPiece : Piece → Kind
  | .ordinary c _ => .char c
  | .percent => .char (ch '%')
  | .dec _ | .decN _ _ | .decFlag _ _ _ => .num 10
  | .hex _ | .hexFlag _ _ _ => .num 16
  | .ptr _ => .ptr
  | .str _ => .str

theorem digit_spec : ∀ n : Fin 10, ch '0' ≤ digit n ∧ digit n ≤ ch '9' ∧ digit n ≠ ch '%' ∧ digit n ≠ ch 'd' ∧
    digitVal (digit n) = (n : ℕ) := by decide

theorem flag_spec : ∀ z, flag z ≠ ch '%' ∧ (flag z = ch ' ' ∨ flag z = ch '0') := by decide

/-- A flag and a digit are the padding of the conversion behind them. -/
theorem scan_flag {i : ℕ} {z : Bool} {n : Fin 10} (h0 : format.get i = ch '%') (h1 : format.get (i + 1) = flag z)
    (h2 : format.get (i + 2) = digit n) :
    ∃ reads, scan format i = scanConversion format (i + 2) (some (flag z, (n : ℕ))) reads := by
  obtain ⟨-, -, -, hd, hval⟩ := digit_spec n
  obtain ⟨hne, hflag⟩ := flag_spec z
  unfold scan
  rw [h0, if_pos rfl, h1, h2]
  dsimp only
  rw [if_neg hne, if_neg fun hdec => hd hdec.2.2, if_pos hflag, hval]
  exact ⟨_, rfl⟩

/-- **The token of a piece.** -/
theorem scan_piece (h : format.text = pre ++ (p.text ++ post)) :
    (scan format pre.length).pad = padOfPiece p ∧ (scan format pre.length).kind = kindOfPiece p ∧
      (scan format pre.length).next = (pre ++ p.text).length := by
  have hget := fun k => get_piece (p := p) h (k := k)
  rw [List.length_append]
  cases p with
  | ordinary c hc =>
    have h0 : format.get pre.length = c := hget 0 (by simp [Piece.text])
    unfold scan
    rw [h0, if_neg hc.2]
    exact ⟨rfl, rfl, rfl⟩
  | percent =>
    have h0 : format.get pre.length = ch '%' := hget 0 (by simp [Piece.text])
    have h1 : format.get (pre.length + 1) = ch '%' := hget 1 (by simp [Piece.text])
    unfold scan
    rw [h0, h1]
    exact ⟨rfl, rfl, rfl⟩
  | decN n a =>
    have h0 : format.get pre.length = ch '%' := hget 0 (by simp [Piece.text])
    have h1 : format.get (pre.length + 1) = digit n := hget 1 (by simp [Piece.text])
    have h2 : format.get (pre.length + 2) = ch 'd' := hget 2 (by simp [Piece.text])
    obtain ⟨hlo, hhi, hne, -, hval⟩ := digit_spec n
    unfold scan
    rw [h0, if_pos rfl, h1, h2]
    dsimp only
    rw [if_neg hne, if_pos ⟨hlo, hhi, rfl⟩, hval]
    exact ⟨rfl, rfl, rfl⟩
  | decFlag z n a =>
    have h0 : format.get pre.length = ch '%' := hget 0 (by simp [Piece.text])
    have h1 : format.get (pre.length + 1) = flag z := hget 1 (by simp [Piece.text])
    have h2 : format.get (pre.length + 2) = digit n := hget 2 (by simp [Piece.text])
    have h3 : format.get (pre.length + 2 + 1) = ch 'd' := hget 3 (by simp [Piece.text])
    obtain ⟨reads, hscan⟩ := scan_flag h0 h1 h2
    rw [hscan, scanConversion, h3]
    exact ⟨rfl, rfl, rfl⟩
  | hexFlag z n a =>
    have h0 : format.get pre.length = ch '%' := hget 0 (by simp [Piece.text])
    have h1 : format.get (pre.length + 1) = flag z := hget 1 (by simp [Piece.text])
    have h2 : format.get (pre.length + 2) = digit n := hget 2 (by simp [Piece.text])
    have h3 : format.get (pre.length + 2 + 1) = ch 'x' := hget 3 (by simp [Piece.text])
    obtain ⟨reads, hscan⟩ := scan_flag h0 h1 h2
    rw [hscan, scanConversion, h3]
    exact ⟨rfl, rfl, rfl⟩
  | dec a =>
    have h0 : format.get pre.length = ch '%' := hget 0 (by simp [Piece.text])
    have h1 : format.get (pre.length + 1) = ch 'd' := hget 1 (by simp [Piece.text])
    unfold scan scanConversion
    rw [h0, h1]
    exact ⟨rfl, rfl, rfl⟩
  | hex a =>
    have h0 : format.get pre.length = ch '%' := hget 0 (by simp [Piece.text])
    have h1 : format.get (pre.length + 1) = ch 'x' := hget 1 (by simp [Piece.text])
    unfold scan scanConversion
    rw [h0, h1]
    exact ⟨rfl, rfl, rfl⟩
  | ptr a =>
    have h0 : format.get pre.length = ch '%' := hget 0 (by simp [Piece.text])
    have h1 : format.get (pre.length + 1) = ch 'p' := hget 1 (by simp [Piece.text])
    unfold scan scanConversion
    rw [h0, h1]
    exact ⟨rfl, rfl, rfl⟩
  | str a =>
    have h0 : format.get pre.length = ch '%' := hget 0 (by simp [Piece.text])
    have h1 : format.get (pre.length + 1) = ch 's' := hget 1 (by simp [Piece.text])
    unfold scan scanConversion
    rw [h0, h1]
    exact ⟨rfl, rfl, rfl⟩

/-! ## What the destination holds -/

/-- The destination begins with a text. -/
def Holds (o : Out) (text : List Byte) : Prop := ∀ k < text.length, o.mem (BitVec.ofNat 32 k) = text.getD k 0

theorem ofNat_ne {j k : ℕ} (hj : j < 2 ^ 32) (hk : k < 2 ^ 32) (hne : j ≠ k) :
    BitVec.ofNat 32 j ≠ BitVec.ofNat 32 k := by
  intro he
  have := congrArg BitVec.toNat he
  rw [BitVec.toNat_ofNat, BitVec.toNat_ofNat, Nat.mod_eq_of_lt hj, Nat.mod_eq_of_lt hk] at this
  exact hne this

variable {done text digits : List Byte} {c : Byte}

/-- A write behind the text. -/
theorem Holds.put_behind (h : Holds o done) {j : ℕ} (hj : done.length ≤ j) (hlt : j < 2 ^ 32) :
    Holds (o.put (BitVec.ofNat 32 j) c) done := by
  intro k hk
  rw [← h k hk]
  exact Function.update_of_ne (ofNat_ne (by omega) hlt (by omega)) _ _

theorem Holds.put (h : Holds o done) (hlt : done.length < 2 ^ 32) :
    Holds (o.put (BitVec.ofNat 32 done.length) c) (done ++ [c]) := by
  intro k hk
  rw [List.length_append, List.length_singleton] at hk
  by_cases hk' : k < done.length
  · rw [List.getD_append _ _ _ _ hk']
    exact h.put_behind le_rfl hlt k hk'
  · obtain rfl : k = done.length := by omega
    rw [List.getD_append_right _ _ _ _ le_rfl, Nat.sub_self]
    exact Function.update_self ..

theorem Holds.strcpy (h : Holds o done) (hlt : done.length + text.length < 2 ^ 32) :
    Holds (strcpy (BitVec.ofNat 32 done.length) text o) (done ++ text) := by
  induction text generalizing o done with
  | nil =>
    rw [List.append_nil]
    exact h.put_behind le_rfl (by simpa using hlt)
  | cons c text ih =>
    rw [List.length_cons] at hlt
    have hstep := ih (h.put (c := c) (by omega)) (by rw [List.length_append, List.length_singleton]; omega)
    rw [List.length_append, List.length_singleton, List.append_assoc] at hstep
    have hnext : BitVec.ofNat 32 done.length + 1 = BitVec.ofNat 32 (done.length + 1) := by
      rw [BitVec.ofNat_add]
      rfl
    rw [Printf.strcpy, hnext]
    exact hstep

/-- The padding is written from its end. -/
theorem Holds.padLoop {n : ℕ} (h : Holds o done) (hlt : done.length + n < 2 ^ 32)
    (hbehind : ∀ j, n ≤ j → j < text.length → o.mem (BitVec.ofNat 32 (done.length + j)) = text.getD j 0)
    (hpad : ∀ j < n, text.getD j 0 = c) (hlen : done.length + text.length < 2 ^ 32) :
    Holds (padLoop (BitVec.ofNat 32 done.length) c n o) (done ++ text) := by
  induction n generalizing o with
  | zero =>
    intro k hk
    rw [List.length_append] at hk
    by_cases hk' : k < done.length
    · rw [List.getD_append _ _ _ _ hk']
      exact h k hk'
    · rw [List.getD_append_right _ _ _ _ (by omega), ← hbehind (k - done.length) (by omega) (by omega)]
      rw [show done.length + (k - done.length) = k by omega]
      rfl
  | succ n ih =>
    rw [Printf.padLoop, ← BitVec.ofNat_add]
    refine ih (h.put_behind (by omega) (by omega)) (by omega) (fun j hj hjt => ?_) fun j hj => hpad j (by omega)
    by_cases hjn : j = n
    · subst hjn
      rw [hpad j (by omega)]
      exact Function.update_self ..
    · rw [← hbehind j (by omega) hjt]
      exact Function.update_of_ne (ofNat_ne (by omega) (by omega) (by omega)) _ _

theorem Holds.strpad {n : ℕ} (h : Holds o done) (hlt : done.length + n < 2 ^ 32) :
    Holds (strpad (BitVec.ofNat 32 done.length) c n o) (done ++ List.replicate n c) := by
  have hend : BitVec.ofNat 32 done.length + BitVec.ofInt 32 n = BitVec.ofNat 32 (done.length + n) := by
    rw [BitVec.ofNat_add]
    rfl
  rw [Printf.strpad, hend, Int.toNat_natCast]
  refine (h.put_behind (by omega) hlt).padLoop hlt (fun j hj hjl => ?_) (fun j hj => ?_) (by simpa using hlt)
  · rw [List.length_replicate] at hjl
    omega
  · rw [List.getD_eq_getElem?_getD, List.getElem?_replicate, if_pos hj]
    rfl

/-- A state of the loop: behind `i` characters of the format, `done` is written. -/
structure At (s : State) (i : ℕ) (done : List Byte) (r k : ℕ) : Prop where
  i : s.i = i
  pos : s.strPos = BitVec.ofNat 32 done.length
  pad : s.padCount = r
  ap : s.ap = k
  holds : Holds s.out done

theorem At.putChar {i r k : ℕ} (h : At s i done r k) (c : Byte) (hlt : done.length < 2 ^ 32) :
    At (putChar c s) i (done ++ [c]) r k where
  i := h.i
  pos := by
    rw [List.length_append, List.length_singleton, BitVec.ofNat_add]
    exact congrArg (· + 1) h.pos
  pad := h.pad
  ap := h.ap
  holds := by
    have hput := h.holds.put (c := c) hlt
    rw [← h.pos] at hput
    exact hput

theorem At.putText {i r k : ℕ} (h : At s i done r k) (text : List Byte) (hlt : done.length + text.length < 2 ^ 32) :
    At (putText text s) i (done ++ text) r k where
  i := h.i
  pos := by
    rw [List.length_append, BitVec.ofNat_add, ← h.pos]
    rfl
  pad := h.pad
  ap := h.ap
  holds := by
    have hcpy := h.holds.strcpy hlt
    rw [← h.pos] at hcpy
    exact hcpy

/-- **A number that is not longer than the padding count.** -/
theorem At.printNum {i r k : ℕ} (h : At s i done r k) (hfit : r = 0 ∨ digits.length ≤ r)
    (hlt : done.length + (digits.leftpad r s.padChar).length < 2 ^ 32) :
    At (printNum digits s) i (done ++ digits.leftpad r s.padChar) (r - digits.length) k := by
  unfold Printf.printNum
  by_cases hr : r = 0
  · subst hr
    have hzero : s.padCount = 0 := h.pad
    rw [if_neg (not_not_intro hzero)]
    have hpad : digits.leftpad 0 s.padChar = digits := by simp [List.leftpad]
    rw [hpad] at hlt ⊢
    have hput := h.putText digits hlt
    rw [Nat.zero_sub]
    exact hput
  · have hle := hfit.resolve_left hr
    have hne : s.padCount ≠ 0 := by rw [h.pad]; exact_mod_cast hr
    have hcount : s.padCount - digits.length = ((r - digits.length : ℕ) : ℤ) := by rw [h.pad]; omega
    rw [if_pos hne, hcount]
    have hlen : (digits.leftpad r s.padChar).length = (r - digits.length) + digits.length := by
      simp [List.leftpad]
    have hat : At { s with
        padCount := ((r - digits.length : ℕ) : ℤ)
        out := Printf.strpad s.strPos s.padChar (r - digits.length : ℕ) s.out
        strPos := s.strPos + BitVec.ofInt 32 (r - digits.length : ℕ) } i
        (done ++ List.replicate (r - digits.length) s.padChar) (r - digits.length) k :=
      ⟨h.i, by rw [List.length_append, List.length_replicate, BitVec.ofNat_add, h.pos]; rfl, rfl, h.ap,
        by rw [h.pos]; exact h.holds.strpad (by omega)⟩
    have hput := hat.putText digits (by rw [List.length_append, List.length_replicate]; omega)
    rw [List.append_assoc] at hput
    exact hput

/-! ## A piece after the other -/

variable {i r k : ℕ}

theorem leftpad_of_fitting (hfit : r = 0 ∨ r = digits.length) : digits.leftpad r c = digits := by
  have hzero : r - digits.length = 0 := by omega
  unfold List.leftpad
  rw [hzero]
  rfl

theorem At.setPad {n : ℕ} (h : At s i done r k) (c : Byte) : At (setPad (some (c, (n : ℤ))) s) i done n k :=
  ⟨h.i, h.pos, rfl, h.ap, h.holds⟩

theorem At.takeArg (h : At s i done r k) : At { s with ap := s.ap + 1 } i done r (k + 1) :=
  ⟨h.i, h.pos, h.pad, congrArg (· + 1) h.ap, h.holds⟩

theorem At.printBase {a : Arg} {base : ℕ} (h : At s i done r k) (hdigits : itoaBase a.word base = digits)
    (ha : ap k = a) (hfit : r = 0 ∨ digits.length ≤ r)
    (hlt : done.length + (digits.leftpad r s.padChar).length < 2 ^ 32) :
    At (printBase base ap s) i (done ++ digits.leftpad r s.padChar) (r - digits.length) (k + 1) := by
  unfold Printf.printBase
  rw [h.ap, ha, hdigits]
  have hnum := h.takeArg.printNum hfit hlt
  rw [h.ap] at hnum
  exact hnum

/-- **A fitting piece** appends its rendering. -/
theorem At.exec {t : Token} (h : At s i done r k) (hfit : Fitting r p) (hpad : t.pad = padOfPiece p)
    (hkind : t.kind = kindOfPiece p) (hargs : ∀ a ∈ p.args, ap k = a)
    (hlt : done.length + p.render.length < 2 ^ 32) :
    At (exec ap t s) i (done ++ p.render) (carry r p) (k + p.args.length) := by
  unfold PrintfBound.exec
  rw [hpad, hkind]
  cases p with
  | ordinary c hc => exact h.putChar c (by simp [Piece.render] at hlt; omega)
  | percent => exact h.putChar (ch '%') (by simp [Piece.render] at hlt; omega)
  | dec a =>
    have hr : r = 0 ∨ r = (decimal a.word).length := hfit
    have hnum := h.printBase (itoaBase_ten a.word) (hargs a (by simp [Piece.args])) (by omega)
      (by rw [leftpad_of_fitting hr]; exact hlt)
    rw [leftpad_of_fitting hr] at hnum
    exact hnum
  | hex a =>
    have hr : r = 0 ∨ r = (hexadecimal a.word).length := hfit
    have hnum := h.printBase (itoaBase_sixteen a.word) (hargs a (by simp [Piece.args])) (by omega)
      (by rw [leftpad_of_fitting hr]; exact hlt)
    rw [leftpad_of_fitting hr] at hnum
    exact hnum
  | ptr a =>
    have hlen : (Piece.ptr a).render.length = 2 + ((hexadecimal a.word).leftpad 8 (ch '0')).length := by
      rw [Piece.render, List.length_append]
      rfl
    have htext : At (Printf.putText [ch '0', ch 'x'] s) i (done ++ [ch '0', ch 'x']) r k :=
      h.putText _ (by rw [List.length_cons, List.length_singleton]; omega)
    have hset : At { Printf.putText [ch '0', ch 'x'] s with padChar := ch '0', padCount := 8 } i
        (done ++ [ch '0', ch 'x']) 8 k := ⟨htext.i, htext.pos, rfl, htext.ap, htext.holds⟩
    have hroom : (done ++ [ch '0', ch 'x']).length + ((hexadecimal a.word).leftpad 8 (ch '0')).length < 2 ^ 32 := by
      rw [List.length_append, List.length_cons, List.length_singleton]
      omega
    have hnum := hset.printBase (itoaBase_sixteen a.word) (hargs a (by simp [Piece.args]))
      (.inr (length_hexadecimal_le a.word)) hroom
    rw [List.append_assoc] at hnum
    exact hnum
  | str a =>
    have ha : ap s.ap = a := by rw [h.ap]; exact hargs a (by simp [Piece.args])
    have htext := h.takeArg.putText a.pointee.text hlt
    rw [← ha] at htext ⊢
    exact htext
  | decN n a =>
    exact (h.setPad (ch ' ')).printBase (itoaBase_ten a.word) (hargs a (by simp [Piece.args])) hfit hlt
  | decFlag z n a =>
    exact (h.setPad (flag z)).printBase (itoaBase_ten a.word) (hargs a (by simp [Piece.args])) hfit hlt
  | hexFlag z n a =>
    exact (h.setPad (flag z)).printBase (itoaBase_sixteen a.word) (hargs a (by simp [Piece.args])) hfit hlt

/-- The arguments from the `k`-th on. -/
def Supplies (ap : VaList) (k : ℕ) (as : List Arg) : Prop := ∀ j a, as[j]? = some a → ap (k + j) = a

theorem Supplies.append {as bs : List Arg} (h : Supplies ap k (as ++ bs)) :
    (∀ a, as[0]? = some a → ap k = a) ∧ Supplies ap (k + as.length) bs := by
  refine ⟨fun a ha => ?_, fun j b hb => ?_⟩
  · refine h 0 a ?_
    rw [List.getElem?_append_left]
    · exact ha
    · exact (List.getElem?_eq_some_iff.mp ha).1
  · have hj := h (as.length + j) b (by rw [List.getElem?_append_right (by omega), Nat.add_sub_cancel_left]; exact hb)
    rw [← Nat.add_assoc] at hj
    exact hj

theorem forall_mem_args (p : Piece) (h : ∀ a, p.args[0]? = some a → ap k = a) : ∀ a ∈ p.args, ap k = a := by
  intro a ha
  refine h a ?_
  cases p <;> simp_all [Piece.args]

/-- One iteration of the loop over a piece. -/
theorem loop_piece (size : Word) (ap : VaList) (n : ℕ) (hi : s.i = pre.length)
    (hformat : format.text = pre ++ (p.text ++ post))
    (hpos : s.strPos < size) :
    ∃ reads, loop size format ap (n + 1) s =
      loop size format ap n (moved (pre ++ p.text).length reads (PrintfBound.exec ap (scan format pre.length) s)) := by
  have hlt : s.i < format.strlen := by
    have := p.length_text_pos
    unfold CString.strlen
    rw [hformat, List.length_append, List.length_append]
    omega
  have hiter := iteration_eq format ap s
  dsimp only at hiter
  refine ⟨(scan format pre.length).reads ++ s.reads, ?_⟩
  rw [loop, if_pos ⟨hlt, hpos⟩]
  dsimp only
  rw [hiter, hi, (scan_piece hformat).2.2]

theorem lt_size (h : At s i done r k) (hlt : done.length < size.toNat) : s.strPos < size := by
  have hsize := size.isLt
  rw [h.pos, BitVec.lt_def, BitVec.toNat_ofNat, Nat.mod_eq_of_lt (by omega)]
  exact hlt

/-- **The loop over clean pieces** appends their renderings. -/
theorem loop_pieces (size : Word) (format : Format) (ap : VaList) (post : List Byte) (n : ℕ) (ps : List Piece)
    (h : At s pre.length done r k) (hclean : Clean r ps)
    (hformat : format.text = pre ++ (ps.flatMap Piece.text ++ post)) (hargs : Supplies ap k (ps.flatMap Piece.args))
    (hlt : done.length + (rendered ps).length < size.toNat) :
    ∃ s', loop size format ap (n + ps.length) s = loop size format ap n s' ∧
      At s' (pre ++ ps.flatMap Piece.text).length (done ++ rendered ps) (ps.foldl carry r)
        (k + (ps.flatMap Piece.args).length) := by
  induction ps generalizing s pre done r k with
  | nil => exact ⟨s, rfl, by simpa [rendered] using h⟩
  | cons p ps ih =>
    have hsize := size.isLt
    have hrender : (rendered (p :: ps)).length = p.render.length + (rendered ps).length := by
      simp [rendered]
    rw [List.flatMap_cons] at hargs hformat
    obtain ⟨harg, hargs⟩ := hargs.append
    rw [List.append_assoc] at hformat
    obtain ⟨hpad, hkind, hnext⟩ := scan_piece hformat
    obtain ⟨reads, hstep⟩ := loop_piece size ap (n + ps.length) h.i hformat (lt_size h (by omega))
    have hexec := h.exec hclean.1 hpad hkind (forall_mem_args p harg) (by omega)
    have hmoved : At (moved (pre ++ p.text).length reads (PrintfBound.exec ap (scan format pre.length) s))
        (pre ++ p.text).length (done ++ p.render) (carry r p) (k + p.args.length) :=
      ⟨rfl, hexec.pos, hexec.pad, hexec.ap, hexec.holds⟩
    obtain ⟨s', hloop, hat⟩ := ih hmoved hclean.2 (by rw [hformat, List.append_assoc]) hargs
      (by rw [List.length_append]; omega)
    refine ⟨s', ?_, ?_⟩
    · rw [List.length_cons, ← Nat.add_assoc, hstep, hloop]
    · simpa [rendered, List.append_assoc, Nat.add_assoc] using hat

/-! ## The whole format -/

/-- The output is the renderings one after the other, and the return value is their
length. -/
structure Correct (mem : Word → Byte) (size : Word) (ps : List Piece) (after : ℕ → Byte) (rest : VaList) : Prop where
  text : Holds (vsnprintf mem size (formatOf ps after) (argsOf ps rest)).out (rendered ps)
  nul : (vsnprintf mem size (formatOf ps after) (argsOf ps rest)).out.mem (BitVec.ofNat 32 (rendered ps).length) = 0
  length : (vsnprintf mem size (formatOf ps after) (argsOf ps rest)).strPos.toNat = (rendered ps).length

theorem supplies_argsOf (ps qs : List Piece) (rest : VaList) :
    Supplies (argsOf (ps ++ qs) rest) 0 (ps.flatMap Piece.args) := by
  intro j a ha
  have hj := (List.getElem?_eq_some_iff.mp ha).1
  rw [Nat.zero_add, argsOf, List.flatMap_append, List.getD_append _ _ _ _ hj, List.getD_eq_getElem?_getD, ha]
  rfl

theorem length_le_flatMap_text (ps : List Piece) : ps.length ≤ (ps.flatMap Piece.text).length := by
  induction ps with
  | nil => exact Nat.le_refl 0
  | cons p ps ih =>
    have := p.length_text_pos
    rw [List.flatMap_cons, List.length_append, List.length_cons]
    omega

theorem at_start (mem : Word → Byte) (format : Format) : At (start mem format) ([] : List Byte).length [] 0 0 :=
  ⟨rfl, rfl, rfl, rfl, fun _ hk => (nomatch hk)⟩

theorem loop_end (n : ℕ) (s : State) (hi : format.strlen ≤ s.i) : loop size format ap n s = s := by
  cases n with
  | zero => rfl
  | succ n => rw [loop, if_neg fun h => absurd h.1 (by omega)]

theorem correct_of_clean (mem : Word → Byte) {ps : List Piece} (after : ℕ → Byte) (rest : VaList)
    (hsize : (rendered ps).length < size.toNat) (hclean : Clean 0 ps) : Correct mem size ps after rest := by
  have hlt := size.isLt
  obtain ⟨n, hn⟩ := Nat.exists_eq_add_of_le' (length_le_flatMap_text ps)
  have hargs := supplies_argsOf ps [] rest
  rw [List.append_nil] at hargs
  obtain ⟨s, hloop, hat⟩ := loop_pieces size (formatOf ps after) (argsOf ps rest) [] n ps
    (at_start mem (formatOf ps after)) hclean (by rw [List.append_nil]; rfl) hargs (by simpa using hsize)
  rw [List.nil_append] at hat
  have hend : loop size (formatOf ps after) (argsOf ps rest) (formatOf ps after).strlen
      (start mem (formatOf ps after)) = s := by
    have hlen : (formatOf ps after).strlen = n + ps.length := hn
    rw [hlen, hloop]
    exact loop_end n s hat.i.ge
  have hall : vsnprintf mem size (formatOf ps after) (argsOf ps rest) = finish s := by
    unfold vsnprintf
    rw [hend]
    rfl
  refine ⟨?_, ?_, ?_⟩
  · rw [hall]
    show Holds (s.out.put s.strPos 0) _
    rw [hat.pos]
    exact hat.holds.put_behind le_rfl (by simpa using hsize.trans hlt)
  · rw [hall]
    show Function.update s.out.mem s.strPos 0 _ = 0
    rw [hat.pos]
    exact Function.update_self ..
  · rw [hall]
    show s.strPos.toNat = _
    rw [hat.pos, BitVec.toNat_ofNat, Nat.mod_eq_of_lt (by simpa using hsize.trans hlt)]
    rfl

theorem clean_append {ps qs : List Piece} : Clean r (ps ++ qs) ↔ Clean r ps ∧ Clean (ps.foldl carry r) qs := by
  induction ps generalizing r with
  | nil => exact (and_iff_right trivial).symm
  | cons p ps ih =>
    rw [List.cons_append, Clean, Clean, ih, and_assoc]
    rfl

theorem carry_le (hr : r ≤ 9) (p : Piece) : carry r p ≤ 9 := by
  have hn : ∀ n : Fin 10, (n : ℕ) ≤ 9 := fun n => Nat.le_of_lt_succ n.isLt
  cases p with
  | decN n a => exact (Nat.sub_le _ _).trans (hn n)
  | decFlag z n a => exact (Nat.sub_le _ _).trans (hn n)
  | hexFlag z n a => exact (Nat.sub_le _ _).trans (hn n)
  | ptr a => exact (Nat.sub_le _ _).trans (by omega)
  | dec a => exact (Nat.sub_le _ _).trans hr
  | hex a => exact (Nat.sub_le _ _).trans hr
  | _ => exact hr

theorem foldl_carry_le (hr : r ≤ 9) (ps : List Piece) : ps.foldl carry r ≤ 9 := by
  induction ps generalizing r with
  | nil => exact hr
  | cons p ps ih => exact ih (carry_le hr p)

/-- A number with a padding count always ends that far behind its start. -/
theorem behind_pos {len d w taken : ℕ} (hw : w ≠ 0) :
    (behind len ⟨BitVec.ofNat 32 d, w, taken⟩).pos = BitVec.ofNat 32 (d + w) := by
  have hpad : padBehind len w = (w : ℤ) - len := if_pos (by exact_mod_cast hw)
  have hback : BitVec.ofInt 32 ((w : ℤ) - len) + BitVec.ofNat 32 len = BitVec.ofNat 32 w := by
    rw [← BitVec.ofInt_natCast, ← BitVec.ofInt_add, Int.sub_add_cancel, BitVec.ofInt_natCast]
  show digitsAt len _ _ + _ = _
  rw [digitsAt, hpad, BitVec.add_assoc, hback, BitVec.ofNat_add]

theorem eq_of_behind {len d w taken n : ℕ} (hw : w ≠ 0) (hsmall : w ≤ 9) (hn : d + n < 2 ^ 32)
    (h : (behind len ⟨BitVec.ofNat 32 d, w, taken⟩).pos.toNat = d + n) : w = n := by
  rw [behind_pos hw, BitVec.toNat_ofNat] at h
  omega

theorem le_of_behind {n : Fin 10} {d taken : ℕ} {l : List Byte} (hn : d + (l.leftpad n c).length < 2 ^ 32)
    (h : (behind l.length ⟨BitVec.ofNat 32 d, (n : ℕ), taken⟩).pos.toNat = d + (l.leftpad n c).length) :
    (n : ℕ) = 0 ∨ l.length ≤ n := by
  by_cases hzero : (n : ℕ) = 0
  · exact .inl hzero
  · have hlen : (l.leftpad n c).length = max (n : ℕ) l.length := by
      simp [List.leftpad]
      omega
    have heq := eq_of_behind hzero (Nat.le_of_lt_succ n.isLt) hn h
    rw [hlen] at heq
    exact .inr (by omega)

/-- A piece of the right length fits. -/
theorem fitting_of_advance {t : Token} {taken : ℕ} (hr : r ≤ 9) (hpad : t.pad = padOfPiece p)
    (hkind : t.kind = kindOfPiece p) (hargs : ∀ a ∈ p.args, ap taken = a)
    (hlt : done.length + p.render.length < 2 ^ 32)
    (h : (advance ap t ⟨BitVec.ofNat 32 done.length, r, taken⟩).pos.toNat = done.length + p.render.length) :
    Fitting r p := by
  unfold advance at h
  rw [hpad, hkind] at h
  cases p with
  | dec a =>
    have ha : ap taken = a := hargs a (by simp [Piece.args])
    simp only [kindOfPiece, ha, itoaBase_ten] at h
    by_cases hr0 : r = 0
    · exact .inl hr0
    · exact .inr (eq_of_behind hr0 hr hlt h)
  | hex a =>
    have ha : ap taken = a := hargs a (by simp [Piece.args])
    simp only [kindOfPiece, ha, itoaBase_sixteen] at h
    by_cases hr0 : r = 0
    · exact .inl hr0
    · exact .inr (eq_of_behind hr0 hr hlt h)
  | decN n a =>
    have ha : ap taken = a := hargs a (by simp [Piece.args])
    simp only [kindOfPiece, ha, itoaBase_ten] at h
    exact le_of_behind hlt h
  | decFlag z n a =>
    have ha : ap taken = a := hargs a (by simp [Piece.args])
    simp only [kindOfPiece, ha, itoaBase_ten] at h
    exact le_of_behind hlt h
  | hexFlag z n a =>
    have ha : ap taken = a := hargs a (by simp [Piece.args])
    simp only [kindOfPiece, ha, itoaBase_sixteen] at h
    exact le_of_behind hlt h
  | ptr a => exact .inr (length_hexadecimal_le a.word)
  | _ => trivial

/-- A format that ends in a piece, behind clean ones. -/
theorem fitting_of_correct (mem : Word → Byte) {qs : List Piece} (after : ℕ → Byte) (rest : VaList)
    (hsize : (rendered (qs ++ [p])).length < size.toNat) (hclean : Clean 0 qs)
    (h : Correct mem size (qs ++ [p]) after rest) : Fitting (qs.foldl carry 0) p := by
  have hlt := size.isLt
  have hrender : rendered (qs ++ [p]) = rendered qs ++ p.render := by simp [rendered]
  have htext : (qs ++ [p]).flatMap Piece.text = qs.flatMap Piece.text ++ p.text := by simp
  obtain ⟨n, hn⟩ := Nat.exists_eq_add_of_le' (length_le_flatMap_text (qs ++ [p]))
  rw [List.length_append, List.length_singleton] at hn
  rw [hrender, List.length_append] at hsize
  have hformat : (formatOf (qs ++ [p]) after).text = [] ++ (qs.flatMap Piece.text ++ p.text) := htext
  have hargs : Supplies (argsOf (qs ++ [p]) rest) 0 (qs.flatMap Piece.args ++ p.args) := by
    have hall := supplies_argsOf (qs ++ [p]) [] rest
    rw [List.append_nil, List.flatMap_append, List.flatMap_singleton] at hall
    exact hall
  obtain ⟨s, hloop, hat⟩ := loop_pieces size (formatOf (qs ++ [p]) after) (argsOf (qs ++ [p]) rest) p.text (n + 1) qs
    (at_start mem _) hclean hformat (supplies_argsOf qs [p] rest) (by simp; omega)
  rw [List.nil_append, List.nil_append, Nat.zero_add] at hat
  have hformat' : (formatOf (qs ++ [p]) after).text = qs.flatMap Piece.text ++ (p.text ++ []) := by
    rw [List.append_nil]
    exact htext
  obtain ⟨hpad, hkind, -⟩ := scan_piece hformat'
  obtain ⟨reads, hstep⟩ := loop_piece size (argsOf (qs ++ [p]) rest) n hat.i hformat' (lt_size hat (by omega))
  have hend : loop size (formatOf (qs ++ [p]) after) (argsOf (qs ++ [p]) rest) (formatOf (qs ++ [p]) after).strlen
      (start mem (formatOf (qs ++ [p]) after)) = moved (qs.flatMap Piece.text ++ p.text).length reads
        (PrintfBound.exec (argsOf (qs ++ [p]) rest) (scan (formatOf (qs ++ [p]) after)
          (qs.flatMap Piece.text).length) s) := by
    have hlen : (formatOf (qs ++ [p]) after).strlen = n + 1 + qs.length := by
      unfold CString.strlen
      rw [show (formatOf (qs ++ [p]) after).text = (qs ++ [p]).flatMap Piece.text from rfl]
      omega
    rw [hlen, hloop, hstep]
    refine loop_end n _ ?_
    show ((qs ++ [p]).flatMap Piece.text).length ≤ _
    rw [htext]
    exact le_rfl
  have hpos := h.length
  have hreturn : (vsnprintf mem size (formatOf (qs ++ [p]) after) (argsOf (qs ++ [p]) rest)).strPos =
      (cursor (PrintfBound.exec (argsOf (qs ++ [p]) rest) (scan (formatOf (qs ++ [p]) after)
        (qs.flatMap Piece.text).length) s)).pos := by
    unfold vsnprintf
    rw [hend]
    rfl
  have hcursor : cursor s = ⟨BitVec.ofNat 32 (rendered qs).length, (qs.foldl carry 0 : ℕ),
      (qs.flatMap Piece.args).length⟩ := by
    unfold cursor
    rw [hat.pos, hat.pad, hat.ap]
  rw [hreturn, cursor_exec, hcursor, hrender, List.length_append] at hpos
  have harg := hargs.append.2
  rw [Nat.zero_add] at harg
  exact fitting_of_advance (foldl_carry_le (by omega) qs) hpad hkind (forall_mem_args p fun a ha => harg 0 a ha)
    (by omega) hpos

/-- **`vsnprintf` is right piece by piece exactly on clean formats.** For a buffer that
holds the text and a NUL: the format and every initial part of it print their renderings
one after the other exactly when each number with a width other than zero is no longer
than its width, and each number without one meets a padding count of zero, or of just
its own length, from the last number before it. -/
theorem pieces_correct_iff (mem : Word → Byte) (size : Word) (ps : List Piece) (after : ℕ → Byte) (rest : VaList)
    (hsize : (rendered ps).length < size.toNat) :
    (∀ qs, qs <+: ps → Correct mem size qs after rest) ↔ Clean 0 ps := by
  constructor
  · intro h
    induction ps using List.reverseRecOn with
    | nil => trivial
    | append_singleton qs p ih =>
      have hqs : (rendered qs).length < size.toNat := by
        rw [rendered, List.flatMap_append, List.length_append] at hsize
        exact Nat.lt_of_le_of_lt (Nat.le_add_right _ _) hsize
      have hclean := ih hqs fun rs hrs => h rs (hrs.trans (List.prefix_append qs [p]))
      exact clean_append.mpr ⟨hclean, fitting_of_correct mem after rest hsize hclean (h _ List.prefix_rfl), trivial⟩
  · rintro hclean qs ⟨rs, rfl⟩
    refine correct_of_clean mem after rest ?_ (clean_append.mp hclean).1
    rw [rendered, List.flatMap_append, List.length_append] at hsize
    exact Nat.lt_of_le_of_lt (Nat.le_add_right _ _) hsize

def arg (w : Word) : Arg := ⟨w, ⟨[], by decide⟩⟩

/-- The format `%04d %d`. -/
def paddedThenPlain : List Piece :=
  [.decFlag true 4 (arg 1986), .ordinary (ch ' ') (by decide), .dec (arg 7)]

theorem pieces_correct_iff_padded :
    Clean 0 paddedThenPlain ∧ Correct (fun _ => 0) 64 paddedThenPlain (fun _ => 0) (fun _ => arg 0) := by
  have hclean : Clean 0 paddedThenPlain := by
    refine ⟨.inr ?_, trivial, .inl ?_, trivial⟩
    · decide
    · decide
  have hsize : (rendered paddedThenPlain).length < (64 : Word).toNat := by decide
  exact ⟨hclean, (pieces_correct_iff (fun _ => 0) 64 paddedThenPlain (fun _ => 0) (fun _ => arg 0) hsize).mpr hclean
    _ List.prefix_rfl⟩

/-- The format `%5d%d`: the second number is padded with what is left of the first one's
width. -/
theorem width_left_over :
    ¬ Correct (fun _ => 0) 64 [.decN 5 (arg 1), .dec (arg 2)] (fun _ => 0) (fun _ => arg 0) := by
  intro h
  have hlen : (vsnprintf (fun _ => 0) 64 (formatOf [.decN 5 (arg 1), .dec (arg 2)] fun _ => 0)
      (argsOf [.decN 5 (arg 1), .dec (arg 2)] fun _ => arg 0)).strPos.toNat = 9 := by decide +kernel
  have hrender : (rendered [.decN 5 (arg 1), .dec (arg 2)]).length = 6 := by decide +kernel
  have := h.length
  omega

end

end PikoRT.Libc.PrintfPieces

import Mathlib

/-! # A character terminal

What is printable goes over the row at the cursor, which moves on; the other codes move the
cursor, clear the rest of the row or begin a new one. The rows are as long as need be. -/
namespace PikoRT.Lib.Terminal

abbrev Code := BitVec 8

def code (c : Char) : Code := BitVec.ofNat 8 c.toNat

def Printable (c : Code) : Prop := code ' ' ≤ c ∧ c ≤ code '~'

instance (c : Code) : Decidable (Printable c) := inferInstanceAs (Decidable (_ ∧ _))

/-- How far an escape sequence has come: `control n` is behind `[` and the number. -/
inductive Mode where
  | ground
  | escape
  | control (n : ℕ)
  deriving DecidableEq

/-- The rows that are complete, the first one first, and the row with the cursor. -/
structure Screen where
  mode : Mode
  above : List (List Code)
  row : List Code
  column : ℕ
  deriving DecidableEq

namespace Screen

def blank : Screen := ⟨.ground, [], [], 0⟩

/-- The character at the column; what is missing before it is blank. -/
def put (c : Code) (s : Screen) : Screen :=
  { s with
    row := s.row.take s.column ++ List.replicate (s.column - s.row.length) (code ' ') ++ c :: s.row.drop (s.column + 1)
    column := s.column + 1 }

def ground (c : Code) (s : Screen) : Screen :=
  if c = 27 then { s with mode := .escape }
  else if c = 13 then { s with column := 0 }
  else if c = 10 then { s with above := s.above ++ [s.row], row := [] }
  else if Printable c then s.put c
  else s

/-- The end of a sequence; no number is the number one, or none. -/
def control (n : ℕ) (c : Code) (s : Screen) : Screen :=
  if c = code 'C' then { s with column := s.column + max n 1 }
  else if c = code 'D' then { s with column := s.column - max n 1 }
  else if c = code 'K' ∧ n = 0 then { s with row := s.row.take s.column }
  else s

def receive (s : Screen) (c : Code) : Screen :=
  match s.mode with
  | .ground => ground c s
  | .escape => { s with mode := if c = code '[' then .control 0 else .ground }
  | .control n =>
    if code '0' ≤ c ∧ c ≤ code '9' then { s with mode := .control (10 * n + (c.toNat - '0'.toNat)) }
    else control n c { s with mode := .ground }

def feed (s : Screen) (cs : List Code) : Screen := cs.foldl receive s

/-- The rows, each with the codes that begin a new one behind it. -/
def printed (rows : List (List Code)) : List Code := rows.flatMap fun row => row ++ [13, 10]

variable {s : Screen} {c : Code} {cs ds : List Code} {n : ℕ}

theorem feed_append : s.feed (cs ++ ds) = (s.feed cs).feed ds := List.foldl_append

theorem feed_cons : s.feed (c :: cs) = (s.receive c).feed cs := rfl

/-! ## What is printed -/

theorem ground_printable (hc : Printable c) : ground c s = s.put c := by
  have hne : c ≠ 27 ∧ c ≠ 13 ∧ c ≠ 10 := by
    refine ⟨?_, ?_, ?_⟩ <;>
    · rintro rfl
      exact absurd hc (by decide)
  rw [ground, if_neg hne.1, if_neg hne.2.1, if_neg hne.2.2, if_pos hc]

/-- A text goes over as much of the row as it is long. -/
theorem feed_text {above : List (List Code)} {row : List Code} {column : ℕ} (hcs : ∀ c ∈ cs, Printable c)
    (hin : column ≤ row.length) :
    (⟨.ground, above, row, column⟩ : Screen).feed cs =
      ⟨.ground, above, row.take column ++ cs ++ row.drop (column + cs.length), column + cs.length⟩ := by
  induction cs generalizing row column with
  | nil => simp [feed]
  | cons c cs ih =>
    obtain ⟨hc, hcs⟩ := List.forall_mem_cons.mp hcs
    have hput : (⟨.ground, above, row, column⟩ : Screen).receive c =
        ⟨.ground, above, row.take column ++ c :: row.drop (column + 1), column + 1⟩ := by
      show ground c _ = _
      rw [ground_printable hc]
      simp [put, Nat.sub_eq_zero_of_le hin]
    have hlen : (row.take column).length = column := List.length_take_of_le hin
    have htake : (row.take column ++ c :: row.drop (column + 1)).take (column + 1) = row.take column ++ [c] := by
      rw [List.take_append, hlen, List.take_of_length_le (by omega), Nat.add_sub_cancel_left]
      rfl
    have hdrop : (row.take column ++ c :: row.drop (column + 1)).drop (column + 1 + cs.length) =
        row.drop (column + (cs.length + 1)) := by
      rw [List.drop_append, hlen, List.drop_eq_nil_of_le (by omega), List.nil_append]
      have hsub : column + 1 + cs.length - column = cs.length + 1 := by omega
      rw [hsub, List.drop_succ_cons, List.drop_drop]
      congr 1
      omega
    rw [feed_cons, hput, ih hcs (by rw [List.length_append, hlen, List.length_cons]; omega), htake, hdrop]
    simp only [List.append_assoc, List.singleton_append, List.length_cons, Screen.mk.injEq, true_and]
    omega

theorem feed_newline (hs : s.mode = .ground) : s.feed [13, 10] = ⟨.ground, s.above ++ [s.row], [], 0⟩ := by
  obtain ⟨mode, above, row, column⟩ := s
  obtain rfl : mode = .ground := hs
  rfl

/-- Rows that are printed come below those that are there. -/
theorem feed_printed {above rows : List (List Code)} (hrows : ∀ row ∈ rows, ∀ c ∈ row, Printable c) :
    (⟨.ground, above, [], 0⟩ : Screen).feed (printed rows) = ⟨.ground, above ++ rows, [], 0⟩ := by
  induction rows generalizing above with
  | nil => simp [printed, feed]
  | cons row rows ih =>
    obtain ⟨hrow, hrows⟩ := List.forall_mem_cons.mp hrows
    have hcons : printed (row :: rows) = row ++ ([13, 10] ++ printed rows) := by simp [printed]
    rw [hcons, feed_append, feed_append, feed_text hrow (Nat.le_refl 0), feed_newline rfl]
    simp only [List.take_nil, List.nil_append, List.drop_nil, List.append_nil]
    rw [ih hrows, List.append_assoc]
    rfl

/-! ## Where the cursor goes -/

theorem code_digit {d : Char} (hd : d.isDigit = true) :
    (code '0' ≤ code d ∧ code d ≤ code '9') ∧ (code d).toNat = d.toNat := by
  have hb : 48 ≤ d.toNat ∧ d.toNat ≤ 57 := by
    simp only [Char.isDigit, Bool.and_eq_true, decide_eq_true_eq] at hd
    exact hd
  have hn : (code d).toNat = d.toNat := by
    rw [code, BitVec.toNat_ofNat]
    exact Nat.mod_eq_of_lt (by omega)
  refine ⟨⟨?_, ?_⟩, hn⟩
  · rw [BitVec.le_def, hn]
    exact hb.1
  · rw [BitVec.le_def, hn]
    exact hb.2

theorem feed_digits {ds : List Char} (hds : ∀ d ∈ ds, d.isDigit = true) :
    ({ s with mode := .control n } : Screen).feed (ds.map code) =
      { s with mode := .control (Nat.ofDigitChars 10 ds n) } := by
  induction ds generalizing n with
  | nil => rfl
  | cons d ds ih =>
    obtain ⟨hd, hds⟩ := List.forall_mem_cons.mp hds
    obtain ⟨hrange, hval⟩ := code_digit hd
    have hstep : ({ s with mode := .control n } : Screen).receive (code d) =
        { s with mode := .control (10 * n + (d.toNat - '0'.toNat)) } := by
      simp only [receive, if_pos hrange, hval]
    rw [List.map_cons, feed_cons, hstep, ih hds, Nat.ofDigitChars_cons]

/-- The sequence with the number in decimal. -/
theorem feed_sequence (hs : s.mode = .ground) (hc : ¬ (code '0' ≤ c ∧ c ≤ code '9')) :
    s.feed (27 :: code '[' :: (Nat.toDigits 10 n).map code ++ [c]) = control n c s := by
  obtain ⟨mode, above, row, column⟩ := s
  obtain rfl : mode = .ground := hs
  have hdigits : ∀ d ∈ Nat.toDigits 10 n, d.isDigit = true :=
    fun d hd => Nat.isDigit_of_mem_toDigits (by omega) (by omega) hd
  have hstart : (⟨.ground, above, row, column⟩ : Screen).feed (27 :: code '[' :: (Nat.toDigits 10 n).map code) =
      ⟨.control n, above, row, column⟩ := by
    show ({ (⟨.ground, above, row, column⟩ : Screen) with mode := .control 0 } : Screen).feed _ = _
    rw [feed_digits hdigits, Nat.ofDigitChars_ten_toDigits]
  rw [feed_append, hstart, feed_cons]
  simp only [receive, if_neg hc]
  rfl

theorem feed_left {above : List (List Code)} {row : List Code} {column : ℕ} (hn : 0 < n) :
    (⟨.ground, above, row, column⟩ : Screen).feed (27 :: code '[' :: (Nat.toDigits 10 n).map code ++ [code 'D']) =
      ⟨.ground, above, row, column - n⟩ := by
  rw [feed_sequence rfl (by decide)]
  show Screen.mk _ _ _ (column - max n 1) = _
  rw [max_eq_left hn]

theorem feed_right_one {above : List (List Code)} {row : List Code} {column : ℕ} :
    (⟨.ground, above, row, column⟩ : Screen).feed [27, code '[', code 'C'] = ⟨.ground, above, row, column + 1⟩ := rfl

theorem feed_left_one {above : List (List Code)} {row : List Code} {column : ℕ} :
    (⟨.ground, above, row, column⟩ : Screen).feed [27, code '[', code 'D'] = ⟨.ground, above, row, column - 1⟩ := rfl

theorem feed_erase {above : List (List Code)} {row : List Code} {column : ℕ} :
    (⟨.ground, above, row, column⟩ : Screen).feed [27, code '[', code 'K'] =
      ⟨.ground, above, row.take column, column⟩ := rfl

end Screen

end PikoRT.Lib.Terminal

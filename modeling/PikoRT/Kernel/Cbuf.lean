import Mathlib

/-! # Circular buffers (`kernel/cbuf.h`)

A buffer of `len` characters between two positions. `cbuf_putc` does not look at the
other position: that there is room is for the caller to see to. -/
namespace PikoRT.Kernel.Cbuf

abbrev Byte := BitVec 8

/-- The positions are those of an `int` that never leaves the buffer. -/
structure CbufInfo where
  len : ℕ
  posBegin : ℕ
  posEnd : ℕ
  buf : ℕ → Byte

def cbufInit (buf : ℕ → Byte) (len : ℕ) : CbufInfo := ⟨len, 0, 0, buf⟩

def cbufPutc (c : Byte) (cbuf : CbufInfo) : CbufInfo :=
  { cbuf with
    buf := Function.update cbuf.buf cbuf.posEnd c
    posEnd := (cbuf.posEnd + 1) % cbuf.len }

/-! The test of `cbuf_getc`, its load and its store. -/

def isEmpty (cbuf : CbufInfo) : Bool := decide (cbuf.posBegin = cbuf.posEnd)

def first (cbuf : CbufInfo) : Byte := cbuf.buf cbuf.posBegin

def advance (cbuf : CbufInfo) : CbufInfo := { cbuf with posBegin := (cbuf.posBegin + 1) % cbuf.len }

/-- The characters between the positions. -/
structure Holds (cbuf : CbufInfo) (xs : List Byte) : Prop where
  begin_lt : cbuf.posBegin < cbuf.len
  length_le : xs.length ≤ cbuf.len
  end_eq : cbuf.posEnd = (cbuf.posBegin + xs.length) % cbuf.len
  slot : ∀ j (hj : j < xs.length), cbuf.buf ((cbuf.posBegin + j) % cbuf.len) = xs[j]

section

variable {cbuf : CbufInfo} {xs : List Byte} {c : Byte}

theorem holds_cbufInit (buf : ℕ → Byte) {len : ℕ} (hl : 0 < len) : Holds (cbufInit buf len) [] :=
  ⟨hl, Nat.zero_le _, by simp [cbufInit], fun j hj => absurd hj (Nat.not_lt_zero j)⟩

/-- Slots less than a turn apart are different. -/
theorem slot_ne {b i j n : ℕ} (hij : i < j) (hj : j < n) : (b + i) % n ≠ (b + j) % n := by
  intro he
  have hmod : i ≡ j [MOD n] := Nat.ModEq.add_left_cancel' b he
  rw [Nat.ModEq, Nat.mod_eq_of_lt (hij.trans hj), Nat.mod_eq_of_lt hj] at hmod
  exact absurd hmod (Nat.ne_of_lt hij)

theorem Holds.cbufPutc (h : Holds cbuf xs) (hl : xs.length < cbuf.len) (c : Byte) :
    Holds (cbufPutc c cbuf) (xs ++ [c]) := by
  refine ⟨h.begin_lt, ?_, ?_, fun j hj => ?_⟩
  · rw [List.length_append]
    exact hl
  · show (cbuf.posEnd + 1) % cbuf.len = (cbuf.posBegin + (xs ++ [c]).length) % cbuf.len
    rw [h.end_eq, Nat.mod_add_mod, List.length_append, List.length_singleton, Nat.add_assoc]
  · show Function.update cbuf.buf cbuf.posEnd c ((cbuf.posBegin + j) % cbuf.len) = _
    rw [h.end_eq]
    rw [List.length_append, List.length_singleton] at hj
    rcases Nat.lt_succ_iff_lt_or_eq.mp hj with hlt | rfl
    · rw [Function.update_of_ne (slot_ne hlt hl), h.slot j hlt, List.getElem_append_left hlt]
    · rw [Function.update_self]
      simp

theorem Holds.isEmpty_iff (h : Holds cbuf xs) (hl : xs.length < cbuf.len) : isEmpty cbuf = true ↔ xs = [] := by
  rw [isEmpty, decide_eq_true_iff, h.end_eq]
  constructor
  · intro he
    by_contra hne
    refine slot_ne (b := cbuf.posBegin) (List.length_pos_iff.mpr hne) hl ?_
    rw [← he, Nat.add_zero, Nat.mod_eq_of_lt h.begin_lt]
  · rintro rfl
    rw [List.length_nil, Nat.add_zero, Nat.mod_eq_of_lt h.begin_lt]

theorem Holds.first (h : Holds cbuf (c :: xs)) : first cbuf = c := by
  have h0 := h.slot 0 (Nat.succ_pos _)
  rw [Nat.add_zero, Nat.mod_eq_of_lt h.begin_lt] at h0
  exact h0

theorem Holds.advance (h : Holds cbuf (c :: xs)) : Holds (advance cbuf) xs := by
  have hlen := h.length_le
  rw [List.length_cons] at hlen
  have hpos : 0 < cbuf.len := Nat.lt_of_lt_of_le (Nat.succ_pos _) hlen
  refine ⟨Nat.mod_lt _ hpos, Nat.le_of_succ_le hlen, ?_, fun j hj => ?_⟩
  · show cbuf.posEnd = ((cbuf.posBegin + 1) % cbuf.len + xs.length) % cbuf.len
    rw [h.end_eq, Nat.mod_add_mod, List.length_cons, Nat.add_assoc, Nat.add_comm 1]
  · show cbuf.buf (((cbuf.posBegin + 1) % cbuf.len + j) % cbuf.len) = xs[j]
    rw [Nat.mod_add_mod, Nat.add_assoc, Nat.add_comm 1]
    exact h.slot (j + 1) (Nat.succ_lt_succ hj)

end

end PikoRT.Kernel.Cbuf

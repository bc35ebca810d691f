import Mathlib

/-! # A volume that several cursors read and write

The handles share the cells. A request that does not fit is refused and moves the cursor
back; any other one moves it by what it has read or written. -/
namespace PikoRT.Lib.Volumes

variable {H P α : Type*}

/-- How the positions of the cursors move, and which cell each of them stands at. -/
structure Positions (P : Type*) where
  place : P → ℤ
  advance : P → ℕ → P
  back : P → P

@[ext] structure Volume (H P α : Type*) where
  cells : List α
  cursor : H → P

inductive Request (H P α : Type*) where
  | read (h : H) (n : ℕ)
  | write (h : H) (items : List α)
  | seek (h : H) (target : P → Option P)

inductive Answer (α : Type*) where
  | moved (n : ℕ) (items : List α)
  | refused

def piece (cells : List α) (k n : ℕ) : List α := (cells.drop k).take n

def overwrite (cells : List α) (k : ℕ) (items : List α) : List α :=
  cells.take k ++ items ++ cells.drop (k + items.length)

/-- A cell, with as many behind it. -/
def Within (cells : List α) (p : ℤ) (n : ℕ) : Prop := 0 ≤ p ∧ p < cells.length ∧ n ≤ cells.length - p

instance (cells : List α) (p : ℤ) (n : ℕ) : Decidable (Within cells p n) := inferInstanceAs (Decidable (_ ∧ _))

section

variable [DecidableEq H]

def Volume.setCursor (h : H) (p : P) (v : Volume H P α) : Volume H P α :=
  { v with cursor := Function.update v.cursor h p }

variable (g : Positions P)

def serve (v : Volume H P α) : Request H P α → Answer α × Volume H P α
  | .read h n =>
    let p := v.cursor h
    if n = 0 then (.moved 0 [], v)
    else if Within v.cells (g.place p) n then
      (.moved n (piece v.cells (g.place p).toNat n), v.setCursor h (g.advance p n))
    else (.refused, v.setCursor h (g.back p))
  | .write h items =>
    let p := v.cursor h
    if Within v.cells (g.place p) items.length then
      (.moved items.length [],
        ({ v with cells := overwrite v.cells (g.place p).toNat items }).setCursor h (g.advance p items.length))
    else (.refused, v.setCursor h (g.back p))
  | .seek h target =>
    match target (v.cursor h) with
    | some p => (.moved 0 [], v.setCursor h p)
    | none => (.refused, v)

/-- The answers to a sequence of requests, and the volume after them. -/
def serveAll (v : Volume H P α) : List (Request H P α) → List (Answer α) × Volume H P α
  | [] => ([], v)
  | r :: rs =>
    let w := serve g v r
    let ws := serveAll w.2 rs
    (w.1 :: ws.1, ws.2)

/-- The cells that a request writes. -/
def Writes (v : Volume H P α) (j : ℕ) : Request H P α → Prop
  | .write h items => Within v.cells (g.place (v.cursor h)) items.length ∧
      (g.place (v.cursor h)).toNat ≤ j ∧ j < (g.place (v.cursor h)).toNat + items.length
  | .read .. | .seek .. => False

/-- No request of the sequence writes the cell. -/
def Spares (j : ℕ) (v : Volume H P α) : List (Request H P α) → Prop
  | [] => True
  | r :: rs => ¬ Writes g v j r ∧ Spares j (serve g v r).2 rs

end

/-! ## Pieces -/

section

variable {cells items : List α} {j k n : ℕ}

theorem getElem?_piece : (piece cells k n)[j]? = if j < n then cells[k + j]? else none := by
  rw [piece, List.getElem?_take]
  exact ite_congr rfl (fun _ => List.getElem?_drop) fun _ => rfl

theorem piece_piece (h : j + n ≤ k) (c : ℕ) : piece (piece cells c k) j n = piece cells (c + j) n := by
  refine List.ext_getElem? fun i => ?_
  rw [getElem?_piece, getElem?_piece, getElem?_piece]
  by_cases hi : i < n
  · rw [if_pos hi, if_pos hi, if_pos (by omega), Nat.add_assoc]
  · rw [if_neg hi, if_neg hi]

/-- Every cell has what was written there, or what it had. -/
theorem getElem?_overwrite (h : k + items.length ≤ cells.length) :
    (overwrite cells k items)[j]? = if k ≤ j ∧ j < k + items.length then items[j - k]? else cells[j]? := by
  have htake : (cells.take k).length = k := by
    rw [List.length_take]
    omega
  unfold overwrite
  by_cases hlt : j < k + items.length
  · rw [List.getElem?_append_left (by rw [List.length_append, htake]; exact hlt)]
    by_cases hle : k ≤ j
    · rw [if_pos ⟨hle, hlt⟩, List.getElem?_append_right (by omega), htake]
    · rw [if_neg fun hin => hle hin.1, List.getElem?_append_left (by omega), List.getElem?_take, if_pos (by omega)]
  · rw [if_neg fun hin => hlt hin.2, List.getElem?_append_right (by rw [List.length_append, htake]; omega),
      List.getElem?_drop, List.length_append, htake]
    congr 1
    omega

/-- Pieces with the same cells. -/
theorem piece_congr {cells' : List α} (h : ∀ i < n, cells[k + i]? = cells'[k + i]?) :
    piece cells k n = piece cells' k n := by
  refine List.ext_getElem? fun i => ?_
  rw [getElem?_piece, getElem?_piece]
  exact ite_congr rfl (fun hi => h i hi) fun _ => rfl

theorem piece_overwrite (h : k + items.length ≤ cells.length) :
    piece (overwrite cells k items) k items.length = items := by
  refine List.ext_getElem? fun i => ?_
  rw [getElem?_piece, getElem?_overwrite h]
  by_cases hi : i < items.length
  · rw [if_pos hi, if_pos ⟨by omega, by omega⟩, Nat.add_sub_cancel_left]
  · rw [if_neg hi, List.getElem?_eq_none (by omega)]

end

/-! ## What requests leave alone -/

section

variable [DecidableEq H] {g : Positions P} {v : Volume H P α} {r : Request H P α} {rs : List (Request H P α)}
    {j k n : ℕ}

theorem Within.end_le {cells : List α} {p : ℤ} (h : Within cells p n) : p.toNat + n ≤ cells.length := by
  obtain ⟨hnonneg, -, hlen⟩ := h
  omega

theorem serve_spares (h : ¬ Writes g v j r) : (serve g v r).2.cells[j]? = v.cells[j]? := by
  cases r with
  | read h n =>
    simp only [serve]
    split
    · rfl
    · split <;> rfl
  | write h items =>
    simp only [serve]
    split
    · rename_i hfits
      refine (getElem?_overwrite hfits.end_le).trans (if_neg fun hin => ?_)
      exact h ⟨hfits, hin⟩
    · rfl
  | seek h target =>
    simp only [serve]
    split <;> rfl

theorem serveAll_spares (h : Spares g j v rs) : (serveAll g v rs).2.cells[j]? = v.cells[j]? := by
  induction rs generalizing v with
  | nil => rfl
  | cons r rs ih =>
    obtain ⟨hr, hrs⟩ := h
    exact (ih hrs).trans (serve_spares hr)

/-- **What is written is read back**, when nothing is written over it. -/
theorem read_back {h : H} {items : List α} (hfits : Within v.cells (g.place (v.cursor h)) items.length)
    (hspares : ∀ i < items.length, Spares g ((g.place (v.cursor h)).toNat + i) (serve g v (.write h items)).2 rs) :
    piece (serveAll g v (.write h items :: rs)).2.cells (g.place (v.cursor h)).toNat items.length = items := by
  have hcells : (serve g v (.write h items)).2.cells = overwrite v.cells (g.place (v.cursor h)).toNat items := by
    simp only [serve, if_pos hfits]
    rfl
  have hsame : ∀ i < items.length, (serveAll g v (.write h items :: rs)).2.cells[(g.place (v.cursor h)).toNat + i]? =
      (overwrite v.cells (g.place (v.cursor h)).toNat items)[(g.place (v.cursor h)).toNat + i]? :=
    fun i hi => (serveAll_spares (hspares i hi)).trans (by rw [hcells])
  rw [piece_congr hsame, piece_overwrite hfits.end_le]

end

end PikoRT.Lib.Volumes

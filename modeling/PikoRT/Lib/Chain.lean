import Mathlib

/-! # Following links

From a point one goes on by `f`, up to the first point that stops. On a finite type this ends
exactly when no point is reached twice. -/
namespace PikoRT.Lib.Chain

variable {α : Type*} (f : α → α) (Stop : α → Prop)

/-- No point before the `k`-th one stops. -/
def Reaches (a : α) (k : ℕ) : Prop := ∀ i < k, ¬ Stop (f^[i] a)

/-- The points that are reached, up to the first that stops. -/
def walk [DecidablePred Stop] : ℕ → α → Option (List α)
  | 0, _ => none
  | n + 1, a => if Stop a then some [a] else (walk n (f a)).map (a :: ·)

variable {f Stop} {a x : α} {k n m : ℕ} {l : List α}

theorem Reaches.mono (h : Reaches f Stop a k) (hle : m ≤ k) : Reaches f Stop a m := fun i hi => h i (hi.trans_le hle)

theorem reaches_zero : Reaches f Stop a 0 := fun _ hi => absurd hi (Nat.not_lt_zero _)

theorem reaches_succ : Reaches f Stop a (k + 1) ↔ ¬ Stop a ∧ Reaches f Stop (f a) k := by
  constructor
  · exact fun h => ⟨h 0 (Nat.succ_pos k), fun i hi => h (i + 1) (Nat.succ_lt_succ hi)⟩
  · intro h i hi
    cases i with
    | zero => exact h.1
    | succ i => exact h.2 i (Nat.lt_of_succ_lt_succ hi)

/-- **It ends** exactly when no point is reached twice. -/
theorem ends_iff [Finite α] :
    (∃ k, Stop (f^[k] a)) ↔ ∀ i j, i < j → Reaches f Stop a j → f^[i] a ≠ f^[j] a := by
  classical
  constructor
  · intro h i j hij hj heq
    -- `k` is the first point that stops; the repetition brings it nearer
    have hmin : ∀ m < Nat.find h, ¬ Stop (f^[m] a) := fun m hm => Nat.find_min h hm
    have hle : j ≤ Nat.find h := Nat.le_of_not_lt fun hlt => hj _ hlt (Nat.find_spec h)
    refine hmin (Nat.find h - j + i) (by omega) ?_
    rw [Function.iterate_add_apply, heq, ← Function.iterate_add_apply, Nat.sub_add_cancel hle]
    exact Nat.find_spec h
  · intro h
    by_contra hstop
    have hall : ∀ j, Reaches f Stop a j := fun j i _ hs => hstop ⟨i, hs⟩
    refine not_injective_infinite_finite (fun k => f^[k] a) fun i j heq => ?_
    by_contra hne
    rcases Nat.lt_or_gt_of_ne hne with hlt | hlt
    · exact h i j hlt (hall j) heq
    · exact h j i hlt (hall i) heq.symm

section

variable [DecidablePred Stop]

theorem mem_walk_iff (h : walk f Stop n a = some l) : x ∈ l ↔ ∃ k, Reaches f Stop a k ∧ x = f^[k] a := by
  induction n generalizing a l with
  | zero => cases h
  | succ n ih =>
    rw [walk] at h
    by_cases hs : Stop a
    · rw [if_pos hs] at h
      obtain rfl := Option.some.inj h
      rw [List.mem_singleton]
      constructor
      · exact fun hx => ⟨0, reaches_zero, hx⟩
      · intro hx
        obtain ⟨k, hk, rfl⟩ := hx
        cases k with
        | zero => rfl
        | succ k => exact absurd hs (hk 0 (Nat.succ_pos k))
    · rw [if_neg hs] at h
      obtain ⟨l', hl', rfl⟩ := Option.map_eq_some_iff.mp h
      rw [List.mem_cons, ih hl']
      constructor
      · intro hx
        rcases hx with rfl | ⟨k, hk, rfl⟩
        · exact ⟨0, reaches_zero, rfl⟩
        · exact ⟨k + 1, reaches_succ.mpr ⟨hs, hk⟩, rfl⟩
      · intro hx
        obtain ⟨k, hk, rfl⟩ := hx
        cases k with
        | zero => exact .inl rfl
        | succ k => exact .inr ⟨k, (reaches_succ.mp hk).2, rfl⟩

theorem walk_returns_iff : (∃ n l, walk f Stop n a = some l) ↔ ∃ k, Stop (f^[k] a) := by
  constructor
  · intro h
    obtain ⟨n, l, hl⟩ := h
    induction n generalizing a l with
    | zero => cases hl
    | succ n ih =>
      rw [walk] at hl
      by_cases hs : Stop a
      · exact ⟨0, hs⟩
      · rw [if_neg hs] at hl
        obtain ⟨l', hl', -⟩ := Option.map_eq_some_iff.mp hl
        obtain ⟨k, hk⟩ := ih l' hl'
        exact ⟨k + 1, hk⟩
  · intro h
    obtain ⟨k, hk⟩ := h
    induction k generalizing a with
    | zero => exact ⟨1, [a], if_pos hk⟩
    | succ k ih =>
      by_cases hs : Stop a
      · exact ⟨1, [a], if_pos hs⟩
      · obtain ⟨n, l, hl⟩ := ih hk
        refine ⟨n + 1, a :: l, ?_⟩
        rw [walk, if_neg hs, hl]
        rfl

end

end PikoRT.Lib.Chain

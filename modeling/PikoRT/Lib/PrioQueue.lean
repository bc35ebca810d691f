import Mathlib

/-! # Queues by level

A family of queues `q : Fin n → List α`, level 0 served first. `flat q` is the
order of service: level by level, and first in first out inside a level. -/
namespace PikoRT.Lib.PrioQueue

variable {n : ℕ} {α : Type*}

/-- The elements in the order of service. -/
def flat (q : Fin n → List α) : List α := (List.finRange n).flatMap q

/-- Append to one level. -/
def push (q : Fin n → List α) (p : Fin n) (x : α) : Fin n → List α :=
  Function.update q p (q p ++ [x])

@[simp] theorem push_self (q : Fin n → List α) (p : Fin n) (x : α) : push q p x p = q p ++ [x] := by
  simp [push]

theorem push_of_ne (q : Fin n → List α) {p r : Fin n} (h : r ≠ p) (x : α) : push q p x r = q r := by
  simp [push, h]

theorem mem_flat {q : Fin n → List α} {x : α} : x ∈ flat q ↔ ∃ p, x ∈ q p := by
  simp [flat]

theorem flat_eq_nil {q : Fin n → List α} : flat q = [] ↔ ∀ p, q p = [] := by
  simp [flat]

theorem finRange_split (p : Fin n) : List.finRange n =
    (List.finRange n).take p ++ p :: (List.finRange n).drop (p + 1) := by
  have hlt : (p : ℕ) < (List.finRange n).length := by simp
  conv_lhs => rw [← List.take_append_drop p (List.finRange n), List.drop_eq_getElem_cons hlt]
  simp

theorem lt_of_mem_take {p r : Fin n} (h : r ∈ (List.finRange n).take p) : r < p := by
  obtain ⟨i, hi, hri⟩ := List.mem_iff_getElem.mp h
  simp only [List.getElem_take, List.getElem_finRange] at hri
  simp only [List.length_take, lt_min_iff] at hi
  rw [← hri]
  exact hi.1

theorem gt_of_mem_drop {p r : Fin n} (h : r ∈ (List.finRange n).drop (p + 1)) : p < r := by
  obtain ⟨i, hi, hri⟩ := List.mem_iff_getElem.mp h
  simp only [List.getElem_drop, List.getElem_finRange] at hri
  rw [← hri]
  exact Fin.lt_def.mpr (by simp; omega)

/-- What is served before level `p`, at level `p`, and after it. -/
theorem flat_split (q : Fin n → List α) (p : Fin n) : flat q =
    ((List.finRange n).take p).flatMap q ++ (q p ++ ((List.finRange n).drop (p + 1)).flatMap q) := by
  unfold flat
  conv_lhs => rw [finRange_split p]
  rw [List.flatMap_append, List.flatMap_cons]

/-- The first element served is the head of the least level that is not empty. -/
theorem flat_of_least {q : Fin n → List α} {p : Fin n} {x : α} {xs : List α} (hp : q p = x :: xs)
    (hlow : ∀ r < p, q r = []) : ∃ rest, flat q = x :: rest := by
  have hnil : ((List.finRange n).take p).flatMap q = [] :=
    List.flatMap_eq_nil_iff.mpr fun r hr => hlow r (lt_of_mem_take hr)
  refine ⟨xs ++ ((List.finRange n).drop (p + 1)).flatMap q, ?_⟩
  rw [flat_split q p, hnil, hp]
  simp

theorem flatMap_push {q : Fin n → List α} {p : Fin n} {x : α} {l : List (Fin n)} (hl : l.Nodup)
    (hp : p ∈ l) : (l.flatMap (push q p x)).Perm (x :: l.flatMap q) := by
  induction l with
  | nil => cases hp
  | cons r l ih =>
    obtain ⟨hr, hl'⟩ := List.nodup_cons.mp hl
    simp only [List.flatMap_cons]
    rcases List.mem_cons.mp hp with rfl | hp
    · have hsame : l.flatMap (push q p x) = l.flatMap q :=
        List.flatMap_congr fun a ha => push_of_ne q (by rintro rfl; exact hr ha) x
      rw [hsame, push_self, List.append_assoc]
      exact List.perm_middle
    · have hne : r ≠ p := by rintro rfl; exact hr hp
      rw [push_of_ne q hne]
      exact ((ih hl' hp).append_left (q r)).trans List.perm_middle

/-- Appending to a level adds one element. -/
theorem flat_push (q : Fin n → List α) (p : Fin n) (x : α) :
    (flat (push q p x)).Perm (x :: flat q) :=
  flatMap_push (List.nodup_finRange n) (List.mem_finRange p)

theorem nodup_level {q : Fin n → List α} (h : (flat q).Nodup) (p : Fin n) : (q p).Nodup :=
  (List.nodup_flatMap.mp h).1 p (List.mem_finRange p)

/-! ## Levels as keys -/

theorem orderedInsert_append {r : α → α → Prop} [DecidableRel r] {x : α} {l m : List α}
    (hl : ∀ b ∈ l, ¬ r x b) : (l ++ m).orderedInsert r x = l ++ m.orderedInsert r x := by
  induction l with
  | nil => rfl
  | cons b l ih =>
    rw [List.cons_append, List.orderedInsert_cons, if_neg (hl b (by simp)),
      ih fun c hc => hl c (List.mem_cons_of_mem _ hc), List.cons_append]

theorem orderedInsert_of_forall {r : α → α → Prop} [DecidableRel r] {x : α} {m : List α}
    (hm : ∀ b ∈ m, r x b) : m.orderedInsert r x = x :: m := by
  cases m with
  | nil => rfl
  | cons b m => rw [List.orderedInsert_cons, if_pos (hm b (by simp))]

section

variable {key : α → ℕ} {q : Fin n → List α}

/-- When the level is the key, the order of service is that of the keys. -/
theorem flat_sorted (hq : ∀ p, ∀ x ∈ q p, key x = p) :
    (flat q).Pairwise (fun a b => key a ≤ key b) := by
  unfold flat
  rw [List.pairwise_flatMap]
  refine ⟨fun p _ => List.pairwise_of_forall_mem_list fun a ha b hb => ?_, ?_⟩
  · rw [hq p a ha, hq p b hb]
  · refine (List.pairwise_lt_finRange n).imp ?_
    intro p r hpr a ha b hb
    rw [hq p a ha, hq r b hb]
    exact Nat.le_of_lt hpr

/-- Appending to the level of its key inserts behind all keys that are at most as
large. -/
theorem flat_push_eq (hq : ∀ p, ∀ x ∈ q p, key x = p) {p : Fin n} {x : α} (hx : key x = p) :
    flat (push q p x) = (flat q).orderedInsert (fun a b => key a < key b) x := by
  have hbefore : ((List.finRange n).take p).flatMap (push q p x) =
      ((List.finRange n).take p).flatMap q :=
    List.flatMap_congr fun r hr => push_of_ne q (lt_of_mem_take hr).ne x
  have hafter : ((List.finRange n).drop (p + 1)).flatMap (push q p x) =
      ((List.finRange n).drop (p + 1)).flatMap q :=
    List.flatMap_congr fun r hr => push_of_ne q (gt_of_mem_drop hr).ne' x
  have hlow : ∀ b ∈ ((List.finRange n).take p).flatMap q, ¬ key x < key b := by
    intro b hb
    obtain ⟨r, hr, hbr⟩ := List.mem_flatMap.mp hb
    rw [hq r b hbr, hx]
    exact not_lt.mpr (Fin.le_def.mp (lt_of_mem_take hr).le)
  have hhigh : ∀ b ∈ ((List.finRange n).drop (p + 1)).flatMap q, key x < key b := by
    intro b hb
    obtain ⟨r, hr, hbr⟩ := List.mem_flatMap.mp hb
    rw [hq r b hbr, hx]
    exact Fin.lt_def.mp (gt_of_mem_drop hr)
  have hsame : ∀ b ∈ q p, ¬ key x < key b := by
    intro b hb
    rw [hq p b hb, hx]
    exact lt_irrefl _
  rw [flat_split _ p, flat_split q p, hbefore, hafter, push_self, orderedInsert_append hlow,
    orderedInsert_append hsame, orderedInsert_of_forall hhigh]
  simp

end

/-! ## Removal -/

variable [DecidableEq α]

/-- Remove an element from the level it is in. -/
def remove (q : Fin n → List α) (x : α) : Fin n → List α := fun p => (q p).erase x

@[simp] theorem remove_apply (q : Fin n → List α) (x : α) (p : Fin n) :
    remove q x p = (q p).erase x := rfl

theorem flat_remove {q : Fin n → List α} (h : (flat q).Nodup) (x : α) :
    flat (remove q x) = (flat q).erase x := by
  rw [h.erase_eq_filter]
  unfold flat
  rw [List.filter_flatMap]
  exact List.flatMap_congr fun p _ => (nodup_level h p).erase_eq_filter x

end PikoRT.Lib.PrioQueue

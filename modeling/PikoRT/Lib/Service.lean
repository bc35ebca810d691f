import PikoRT.Lib.PrioQueue
import PikoRT.Lib.Run

/-! # Service by level

Elements come in at the end of their level, and a server takes the first element of the
least level that is not empty. The order of service is said step by step: what comes in
between two services may be served before what was there. -/
namespace PikoRT.Lib.Service
open PikoRT.Lib.Run PikoRT.Lib.PrioQueue

variable {n : ℕ} {α : Type*}

/-- The first element of a level is taken. -/
theorem flat_tail {q : Fin n → List α} {p : Fin n} {x : α} (hx : (q p).head? = some x) :
    (flat q).Perm (x :: flat (Function.update q p (q p).tail)) := by
  have hbefore : ((List.finRange n).take p).flatMap (Function.update q p (q p).tail) =
      ((List.finRange n).take p).flatMap q :=
    List.flatMap_congr fun r hr => Function.update_of_ne (lt_of_mem_take hr).ne _ _
  have hafter : ((List.finRange n).drop (p + 1)).flatMap (Function.update q p (q p).tail) =
      ((List.finRange n).drop (p + 1)).flatMap q :=
    List.flatMap_congr fun r hr => Function.update_of_ne (gt_of_mem_drop hr).ne' _ _
  have hcons : q p = x :: (q p).tail := (List.cons_head?_tail hx).symm
  rw [flat_split q p, flat_split _ p, hbefore, hafter, Function.update_self]
  conv_lhs => rw [hcons]
  exact List.perm_middle

variable [DecidableEq α]

inductive Event (n : ℕ) (α : Type*) where
  | arrive (p : Fin n) (x : α)
  | serve (p : Fin n) (x : α)
  deriving DecidableEq

/-- An element that waits does not come in again. -/
def step (q : Fin n → List α) : Event n α → Option (Fin n → List α)
  | .arrive p x => if x ∈ flat q then none else some (push q p x)
  | .serve p x =>
    if (q p).head? = some x ∧ ∀ r < p, q r = [] then some (Function.update q p (q p).tail) else none

def Event.arrives (x : α) : Event n α → Bool
  | .arrive _ y => decide (y = x)
  | .serve .. => false

def Event.serves (x : α) : Event n α → Bool
  | .arrive .. => false
  | .serve _ y => decide (y = x)

/-- **Accounting.** An element is served once for each time that it comes in, or was there
at the start, unless it still waits. -/
theorem count_serves (x : α) {es : List (Event n α)} {q q' : Fin n → List α} (h : run step q es = some q') :
    es.countP (Event.serves x) + (flat q').count x = es.countP (Event.arrives x) + (flat q).count x := by
  induction es generalizing q with
  | nil =>
    cases h
    rfl
  | cons e es ih =>
    obtain ⟨q₁, h₁, h⟩ := run_cons_some h
    have hrest := ih h
    rw [List.countP_cons, List.countP_cons]
    cases e with
    | arrive p y =>
      obtain ⟨-, rfl⟩ := Option.ite_none_left_eq_some.mp h₁ |>.imp_right Option.some.inj
      rw [(flat_push q p y).count_eq, List.count_cons] at hrest
      simp only [Event.serves, Event.arrives, decide_eq_true_eq, beq_iff_eq] at hrest ⊢
      simp only [Bool.false_eq_true, if_false]
      omega
    | serve p y =>
      obtain ⟨⟨hy, -⟩, rfl⟩ := Option.ite_none_right_eq_some.mp h₁ |>.imp_right Option.some.inj
      rw [(flat_tail hy).count_eq, List.count_cons]
      simp only [Event.serves, Event.arrives, decide_eq_true_eq, beq_iff_eq]
      simp only [Bool.false_eq_true, if_false]
      omega

end PikoRT.Lib.Service

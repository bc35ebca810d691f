import PikoRT.Lib.PrioQueue

/-! # Double-ended queues by level

A family of queues `q : Fin n → List α` as an abstract machine: calls, and what each of them
answers and leaves. -/
namespace PikoRT.Lib.Deques
open PikoRT.Lib.PrioQueue

variable {n : ℕ} {α : Type*}

inductive Call (n : ℕ) (α : Type*) where
  | init
  | enqueue (x : α) (p : Fin n)
  | enqueueFirst (x : α) (p : Fin n)
  | delete (x : α)
  | dequeue (p : Fin n)
  | dequeueTail (p : Fin n)
  | empty
  | queueEmpty (p : Fin n)
  | firstLevel

inductive Answer (α : Type*) where
  | done
  | element (o : Option α)
  | holds (b : Bool)
  | level (k : ℕ)

/-- Prepend to one level. -/
def pushFront (q : Fin n → List α) (p : Fin n) (x : α) : Fin n → List α := Function.update q p (x :: q p)

/-- The least level that is not empty, or the number of levels. -/
def firstLevel (q : Fin n → List α) : ℕ := ((List.finRange n).find? fun p => !(q p).isEmpty).elim n Fin.val

def exec [DecidableEq α] (q : Fin n → List α) : Call n α → Answer α × (Fin n → List α)
  | .init => (.done, fun _ => [])
  | .enqueue x p => (.done, push q p x)
  | .enqueueFirst x p => (.done, pushFront q p x)
  | .delete x => (.done, remove q x)
  | .dequeue p => (.element (q p).head?, Function.update q p (q p).tail)
  | .dequeueTail p => (.element (q p).getLast?, Function.update q p (q p).dropLast)
  | .empty => (.holds ((List.finRange n).all fun p => (q p).isEmpty), q)
  | .queueEmpty p => (.holds (q p).isEmpty, q)
  | .firstLevel => (.level (firstLevel q), q)

section

variable {q : Fin n → List α} {p : Fin n} {x : α}

/-- A level that is found is the least one. -/
theorem firstLevel_eq (hp : q p ≠ []) (hlow : ∀ r < p, q r = []) : firstLevel q = p := by
  have hfind : ((List.finRange n).find? fun p => !(q p).isEmpty) = some p := by
    rw [finRange_split p, List.find?_append, List.find?_eq_none.mpr fun r hr => ?_, Option.none_or,
      List.find?_cons_of_pos]
    · simpa using hp
    · rw [hlow r (lt_of_mem_take hr)]
      simp
  rw [firstLevel, hfind]
  rfl

theorem firstLevel_of_empty (h : ∀ p, q p = []) : firstLevel q = n := by
  have hfind : ((List.finRange n).find? fun p => !(q p).isEmpty) = none :=
    List.find?_eq_none.mpr fun p _ => by simp [h p]
  rw [firstLevel, hfind]
  rfl

/-- An element in one level only is removed from it. -/
theorem remove_eq_update [DecidableEq α] (h : ∀ r, x ∈ q r → r = p) :
    remove q x = Function.update q p ((q p).erase x) := by
  funext r
  rw [remove_apply]
  by_cases hr : r = p
  · rw [hr, Function.update_self]
  · rw [Function.update_of_ne hr, List.erase_of_not_mem fun hx => hr (h r hx)]

end

end PikoRT.Lib.Deques

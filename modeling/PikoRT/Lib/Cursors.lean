import PikoRT.Lib.Run

/-! # A table of cursors

A service hands out handles on sequences of items, and every read goes on where the last one
ended. What a client sees of it is a list of events; the service says which lists there can be. -/
namespace PikoRT.Lib.Cursors
open PikoRT.Lib.Run

/-- A sequence and how much of it has been read, or something of which nothing is said. -/
inductive Handle (α : Type*)
  | file (items : List α) (position : ℕ)
  | other

inductive Event (ν α : Type*)
  | opened (name : ν) (handle : ℕ)
  | refused (name : ν)
  | read (handle count value : ℕ) (items : List α)
  | closed (handle : ℕ)

abbrev Table (α : Type*) := ℕ → Option (Handle α)

variable {ν α : Type*} {grants : ℕ → ℕ → Bool} {files : ν → Option (List α)}

/-- What a read gives, if the service grants one of that count at that position. -/
def piece (grants : ℕ → ℕ → Bool) (items : List α) (position count : ℕ) : List α :=
  if grants position count then (items.drop position).take count else []

/-- The new handle for a name. -/
def handleOf (files : ν → Option (List α)) (name : ν) : Handle α :=
  match files name with
  | some items => .file items 0
  | none => .other

/-- The table after an event, if it can happen. A new handle is the least one that is free, and a read
returns how many items there were. -/
def serve [DecidableEq α] (grants : ℕ → ℕ → Bool) (files : ν → Option (List α)) (T : Table α) :
    Event ν α → Option (Table α)
  | .opened name handle =>
    if (T handle).isNone ∧ ∀ k < handle, (T k).isSome then
      some (Function.update T handle (some (handleOf files name)))
    else none
  | .refused _ => some T
  | .read handle count value items =>
    (T handle).bind fun h =>
      match h with
      | .file all position =>
        if items = piece grants all position count ∧ value = items.length then
          some (Function.update T handle (some (.file all (position + items.length))))
        else none
      | .other => some T
  | .closed handle => (T handle).map fun _ => Function.update T handle none

/-- The items that an event adds to what has been read from the handle since it was opened. -/
def gather (handle : ℕ) (xs : List α) : Event ν α → List α
  | .opened _ k => if k = handle then [] else xs
  | .read k _ _ items => if k = handle then xs ++ items else xs
  | .refused _ | .closed _ => xs

/-- What has been read from the handle since it was last opened. -/
def gathered (handle : ℕ) (es : List (Event ν α)) : List α := es.foldl (gather handle) []

/-- A piece begins where the items before it end. -/
theorem take_append_piece (items : List α) (position count : ℕ) :
    items.take position ++ piece grants items position count =
      items.take (position + (piece grants items position count).length) := by
  unfold piece
  split
  · rw [List.take_add, List.length_take]
    congr 1
    exact List.take_eq_take_min
  · simp

section

variable [DecidableEq α] {T U : Table α} {e : Event ν α} {es : List (Event ν α)} {k : ℕ}

/-- What has been read from every open sequence is its beginning. -/
def Gathers (T : Table α) (xs : ℕ → List α) : Prop :=
  ∀ k items position, T k = some (.file items position) → xs k = items.take position

theorem serve_gathers {xs : ℕ → List α} (hT : Gathers T xs) (h : serve grants files T e = some U) :
    Gathers U fun k => gather k (xs k) e := by
  intro k items position hk
  cases e with
  | opened name handle =>
    obtain ⟨-, rfl⟩ := Option.ite_none_right_eq_some.mp h |>.imp_right Option.some.inj
    by_cases hkh : handle = k
    · subst hkh
      rw [Function.update_self, handleOf] at hk
      split at hk
      · cases hk
        exact if_pos rfl
      · cases hk
    · rw [Function.update_of_ne (Ne.symm hkh)] at hk
      exact (if_neg hkh).trans (hT k items position hk)
  | refused name =>
    obtain rfl := Option.some.inj h
    exact hT k items position hk
  | read handle count value new =>
    obtain ⟨b, hb, h⟩ := Option.bind_eq_some_iff.mp h
    cases b with
    | file all p =>
      obtain ⟨⟨rfl, -⟩, h⟩ := Option.ite_none_right_eq_some.mp h
      obtain rfl := Option.some.inj h
      by_cases hkh : handle = k
      · subst hkh
        rw [Function.update_self] at hk
        cases hk
        refine (if_pos rfl).trans ?_
        rw [hT handle _ _ hb, take_append_piece]
      · rw [Function.update_of_ne (Ne.symm hkh)] at hk
        exact (if_neg hkh).trans (hT k items position hk)
    | other =>
      obtain rfl := Option.some.inj h
      have hkh : handle ≠ k := by
        rintro rfl
        rw [hb] at hk
        cases hk
      exact (if_neg hkh).trans (hT k items position hk)
  | closed handle =>
    obtain ⟨b, -, rfl⟩ := Option.map_eq_some_iff.mp h
    have hkh : k ≠ handle := by
      rintro rfl
      rw [Function.update_self] at hk
      cases hk
    rw [Function.update_of_ne hkh] at hk
    exact hT k items position hk

theorem run_gathers {xs : ℕ → List α} (hT : Gathers T xs) (h : run (serve grants files) T es = some U) :
    Gathers U fun k => es.foldl (gather k) (xs k) := by
  induction es generalizing T xs with
  | nil =>
    obtain rfl := Option.some.inj h
    exact hT
  | cons e es ih =>
    obtain ⟨V, hV, h⟩ := run_cons_some h
    exact ih (serve_gathers hT hV) h

/-- **What has been read from a handle is the beginning of its sequence**, up to the position. -/
theorem run_gathered {items : List α} {position : ℕ} (hT : ∀ k items position, T k ≠ some (.file items position))
    (h : run (serve grants files) T es = some U) (hk : U k = some (.file items position)) :
    gathered k es = items.take position :=
  @run_gathers _ _ _ _ _ _ _ _ (fun _ => []) (fun k items p hk => absurd hk (hT k items p)) h k items position hk

end

end PikoRT.Lib.Cursors

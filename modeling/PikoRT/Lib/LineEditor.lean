import Mathlib.Data.List.Basic

/-! # A text with a cursor

A line editor by what its keys do to the text: a character goes in at the cursor, the
one before the cursor is erased, and a line that is not empty can be submitted. -/
namespace PikoRT.Lib.LineEditor

variable {α : Type*}

structure Editor (α : Type*) where
  text : List α
  cursor : ℕ
  inside : cursor ≤ text.length

inductive Key (α : Type*) where
  | insert (c : α)
  | erase
  | right
  | left
  | submit

/-- The text that is edited and the lines that were submitted, the last one first. -/
structure Session (α : Type*) extends Editor α where
  lines : List (List α)

namespace Editor

def empty : Editor α := ⟨[], 0, Nat.le_refl 0⟩

theorem insert_inside (e : Editor α) (c : α) : e.cursor + 1 ≤ (e.text.insertIdx e.cursor c).length := by
  have h := e.inside
  rw [List.length_insertIdx_of_le_length h]
  omega

def insert (c : α) (e : Editor α) : Editor α :=
  ⟨e.text.insertIdx e.cursor c, e.cursor + 1, e.insert_inside c⟩

theorem erase_inside (e : Editor α) : e.cursor - 1 ≤ (e.text.eraseIdx (e.cursor - 1)).length := by
  have h := e.inside
  rw [List.length_eraseIdx]
  split <;> omega

def erase (e : Editor α) : Editor α :=
  if 0 < e.cursor then ⟨e.text.eraseIdx (e.cursor - 1), e.cursor - 1, e.erase_inside⟩ else e

def right (e : Editor α) : Editor α := ⟨e.text, min (e.cursor + 1) e.text.length, Nat.min_le_right _ _⟩

def left (e : Editor α) : Editor α := ⟨e.text, e.cursor - 1, Nat.le_trans (Nat.sub_le _ _) e.inside⟩

theorem length_insert (e : Editor α) (c : α) : (e.insert c).text.length = e.text.length + 1 :=
  List.length_insertIdx_of_le_length e.inside c

theorem getElem?_insert (e : Editor α) (c : α) (k : ℕ) :
    (e.insert c).text[k]? =
      if k < e.cursor then e.text[k]? else if k = e.cursor then some c else e.text[k - 1]? := by
  have h := e.inside
  simp only [insert, List.getElem?_insertIdx]
  split_ifs <;> first | rfl | omega

theorem length_erase (e : Editor α) (h : 0 < e.cursor) : e.erase.text.length + 1 = e.text.length := by
  have hi := e.inside
  rw [erase, if_pos h, List.length_eraseIdx_of_lt (by omega)]
  omega

theorem getElem?_erase (e : Editor α) (h : 0 < e.cursor) (k : ℕ) :
    e.erase.text[k]? = if k + 1 < e.cursor then e.text[k]? else e.text[k + 1]? := by
  rw [erase, if_pos h, List.getElem?_eraseIdx]
  split_ifs <;> first | rfl | omega

theorem mem_insert {e : Editor α} {c d : α} (h : d ∈ (e.insert c).text) : d = c ∨ d ∈ e.text :=
  (List.mem_insertIdx e.inside).mp h

theorem mem_erase {e : Editor α} {d : α} (h : d ∈ e.erase.text) : d ∈ e.text := by
  rw [erase] at h
  split at h
  · exact List.mem_of_mem_eraseIdx h
  · exact h

end Editor

namespace Session

def empty : Session α := ⟨Editor.empty, []⟩

def edit (f : Editor α → Editor α) (s : Session α) : Session α := ⟨f s.toEditor, s.lines⟩

def submit (s : Session α) : Session α := if s.text = [] then s else ⟨Editor.empty, s.text :: s.lines⟩

def press : Key α → Session α → Session α
  | .insert c => edit (Editor.insert c)
  | .erase => edit Editor.erase
  | .right => edit Editor.right
  | .left => edit Editor.left
  | .submit => submit

/-- No key makes the line longer by more than one character. -/
theorem length_press (key : Key α) (s : Session α) : (s.press key).text.length ≤ s.text.length + 1 := by
  cases key with
  | insert c => exact Nat.le_of_eq (s.toEditor.length_insert c)
  | erase =>
    simp only [press, edit, Editor.erase]
    split
    · exact Nat.le_succ_of_le (List.length_eraseIdx_le ..)
    · exact Nat.le_succ _
  | right => exact Nat.le_succ _
  | left => exact Nat.le_succ _
  | submit =>
    simp only [press, submit]
    split
    · exact Nat.le_succ _
    · exact Nat.zero_le _

end Session

end PikoRT.Lib.LineEditor

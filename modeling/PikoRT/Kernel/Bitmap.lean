import PikoRT.Kernel.Bitops
import PikoRT.Lib.PrioQueue

/-! # Priority queues with a bitmap (`include/kernel/bitmap.h`)

32 queues and a word with one bit for each. The list heads and the nodes linked
to them are lists of elements here. `list_del` takes a node out of the list it
is linked in, whichever that is; `unlink` is its effect on the queues of one
`bitmap_struct`. -/
namespace PikoRT.Kernel.Bitmap
open PikoRT.Kernel.Bitops PikoRT.Lib.PrioQueue

structure BitmapStruct (α : Type) where
  map : Word
  queue : Fin 32 → List α

variable {α : Type}

/-- `INIT_BITMAP`. -/
def initBitmap : BitmapStruct α := ⟨0, fun _ => []⟩

/-- `list_add_tail` of a node that is in no list, then `bitmap_set_bit`: the word has
32 bits, so bit `bit` is in the first word. -/
def bitmapQueueAdd (new : α) (bit : Fin 32) (bm : BitmapStruct α) : BitmapStruct α :=
  ⟨setBit bit bm.map, push bm.queue bit new⟩

def bitmapEnqueue (new : α) (bit : Fin 32) (bm : BitmapStruct α) : BitmapStruct α :=
  bitmapQueueAdd new bit bm

def bitmapFirstBit (bm : BitmapStruct α) : ℕ := findFirstBit [bm.map] 32

/-- `bitmap_first_entry`. For an empty queue the macro makes an element out of the
list head; here it is `none`. -/
def bitmapFirstEntry (bm : BitmapStruct α) (bit : Fin 32) : Option α := (bm.queue bit).head?

/-- `if (list_empty(&bm->queue[bit])) bitmap_clear_bit(&bm->map, bit)`. -/
def clearIfEmpty (bit : Fin 32) (bm : BitmapStruct α) : BitmapStruct α :=
  match bm.queue bit with
  | [] => ⟨clearBit bit bm.map, bm.queue⟩
  | _ :: _ => bm

/-- The elements in the order of election: by level, then first in first out. -/
def members (bm : BitmapStruct α) : List α := flat bm.queue

/-- Bit `p` of the word. -/
def marked (bm : BitmapStruct α) (p : Fin 32) : Bool := bm.map.getLsbD p

/-- Every queue that is not empty has its bit set. -/
def Marks (bm : BitmapStruct α) : Prop := ∀ p, bm.queue p ≠ [] → marked bm p = true

/-- A bit is set exactly when its queue is not empty. -/
def Consistent (bm : BitmapStruct α) : Prop := ∀ p, marked bm p = true ↔ bm.queue p ≠ []

theorem Consistent.marks {bm : BitmapStruct α} (h : Consistent bm) : Marks bm := fun p => (h p).mpr

theorem members_eq_nil {bm : BitmapStruct α} : members bm = [] ↔ ∀ p, bm.queue p = [] := flat_eq_nil

theorem mem_members {bm : BitmapStruct α} {x : α} : x ∈ members bm ↔ ∃ p, x ∈ bm.queue p := mem_flat

/-! ## Adding -/

@[simp] theorem queue_bitmapEnqueue (x : α) (p : Fin 32) (bm : BitmapStruct α) :
    (bitmapEnqueue x p bm).queue = push bm.queue p x := rfl

theorem marked_bitmapEnqueue (x : α) (p r : Fin 32) (bm : BitmapStruct α) :
    marked (bitmapEnqueue x p bm) r = (decide (r = p) || marked bm r) := by
  show (setBit p bm.map).getLsbD r = _
  rw [getLsbD_setBit _ p.isLt r.isLt]
  simp only [Fin.ext_iff]
  rfl

theorem members_bitmapEnqueue (x : α) (p : Fin 32) (bm : BitmapStruct α) :
    (members (bitmapEnqueue x p bm)).Perm (x :: members bm) := flat_push bm.queue p x

theorem Marks.enqueue {bm : BitmapStruct α} (h : Marks bm) (x : α) (p : Fin 32) :
    Marks (bitmapEnqueue x p bm) := by
  intro r hr
  rw [marked_bitmapEnqueue]
  by_cases he : r = p
  · simp [he]
  · rw [queue_bitmapEnqueue, push_of_ne _ he] at hr
    simp [h r hr]

theorem Consistent.enqueue {bm : BitmapStruct α} (h : Consistent bm) (x : α) (p : Fin 32) :
    Consistent (bitmapEnqueue x p bm) := by
  intro r
  rw [marked_bitmapEnqueue, queue_bitmapEnqueue]
  by_cases he : r = p
  · subst he; simp
  · rw [push_of_ne _ he]
    simp [he, h r]

theorem consistent_initBitmap : Consistent (initBitmap : BitmapStruct α) := by
  intro p
  simp [marked, initBitmap]

@[simp] theorem members_initBitmap : members (initBitmap : BitmapStruct α) = [] :=
  members_eq_nil.mpr fun _ => rfl

/-! ## The bit of an emptied queue -/

@[simp] theorem queue_clearIfEmpty (p : Fin 32) (bm : BitmapStruct α) :
    (clearIfEmpty p bm).queue = bm.queue := by
  unfold clearIfEmpty
  split <;> rfl

theorem marked_clearIfEmpty (p r : Fin 32) (bm : BitmapStruct α) :
    marked (clearIfEmpty p bm) r = (marked bm r && !(decide (r = p) && (bm.queue p).isEmpty)) := by
  unfold clearIfEmpty
  cases hq : bm.queue p with
  | nil =>
    show (clearBit p bm.map).getLsbD r = _
    rw [getLsbD_clearBit _ p.isLt r.isLt]
    simp only [Fin.ext_iff, List.isEmpty_nil, Bool.and_true]
    exact Bool.and_comm _ _
  | cons x xs => simp

/-- Clearing the bit of an empty queue loses no element. -/
theorem Marks.clearIfEmpty {bm : BitmapStruct α} (h : Marks bm) (p : Fin 32) :
    Marks (clearIfEmpty p bm) := by
  intro r hr
  rw [queue_clearIfEmpty] at hr
  rw [marked_clearIfEmpty, h r hr]
  by_cases he : r = p
  · subst he
    cases hq : bm.queue r with
    | nil => exact absurd hq hr
    | cons x xs => simp
  · simp [he]

/-! ## The first entry -/

theorem testBit_map (bm : BitmapStruct α) (p : Fin 32) : testBit [bm.map] p = marked bm p :=
  testBit_cons_lt _ _ p.isLt

theorem bitmapFirstBit_lt_iff {bm : BitmapStruct α} :
    bitmapFirstBit bm < 32 ↔ ∃ p, marked bm p = true := by
  unfold bitmapFirstBit
  rw [findFirstBit_lt_iff]
  constructor
  · rintro ⟨j, hj, hb⟩
    exact ⟨⟨j, hj⟩, (testBit_map bm ⟨j, hj⟩).symm.trans hb⟩
  · rintro ⟨p, hp⟩
    exact ⟨p, p.isLt, (testBit_map bm p).trans hp⟩

/-- The first bit is the least one set. -/
theorem bitmapFirstBit_spec {bm : BitmapStruct α} (h : bitmapFirstBit bm < 32) :
    marked bm ⟨bitmapFirstBit bm, h⟩ = true ∧
      ∀ p : Fin 32, (p : ℕ) < bitmapFirstBit bm → marked bm p = false := by
  obtain ⟨-, hset, hlow⟩ := findFirstBit_spec [bm.map] 32
  exact ⟨(testBit_map bm ⟨_, h⟩).symm.trans (hset h),
    fun p hp => (testBit_map bm p).symm.trans (hlow p hp)⟩

/-! ## Removing -/

variable [DecidableEq α]

/-- `list_del` of the node, as far as the queues of `bm` are concerned. -/
def unlink (node : α) (bm : BitmapStruct α) : BitmapStruct α := ⟨bm.map, remove bm.queue node⟩

def bitmapQueueDel (node : α) (bit : Fin 32) (bm : BitmapStruct α) : BitmapStruct α :=
  clearIfEmpty bit (unlink node bm)

@[simp] theorem queue_unlink (x : α) (bm : BitmapStruct α) (p : Fin 32) :
    (unlink x bm).queue p = (bm.queue p).erase x := rfl

@[simp] theorem marked_unlink (x : α) (bm : BitmapStruct α) (p : Fin 32) :
    marked (unlink x bm) p = marked bm p := rfl

theorem members_unlink {bm : BitmapStruct α} (h : (members bm).Nodup) (x : α) :
    members (unlink x bm) = (members bm).erase x := flat_remove h x

theorem unlink_of_not_mem {bm : BitmapStruct α} {x : α} (h : x ∉ members bm) : unlink x bm = bm := by
  unfold unlink
  congr
  funext p
  rw [remove_apply, List.erase_of_not_mem fun hx => h (mem_members.mpr ⟨p, hx⟩)]

theorem Marks.unlink {bm : BitmapStruct α} (h : Marks bm) (x : α) : Marks (unlink x bm) := by
  intro p hp
  rw [marked_unlink]
  refine h p fun hnil => hp ?_
  rw [queue_unlink, hnil, List.erase_nil]

/-- Without any clearing the bits still agree exactly when no queue ran empty. -/
theorem consistent_unlink_iff {bm : BitmapStruct α} (h : Consistent bm) (x : α) :
    Consistent (unlink x bm) ↔ ∀ p, bm.queue p ≠ [x] := by
  constructor
  · intro hc p hp
    have hm := (hc p).mp (by rw [marked_unlink, (h p).mpr (by rw [hp]; simp)])
    rw [queue_unlink, hp] at hm
    simp at hm
  · intro hne p
    rw [marked_unlink, h p, queue_unlink, ne_eq, ne_eq, List.erase_eq_nil_iff]
    simp [hne p]

/-- After a removal the bits agree with the queues again exactly when the bit
cleared for an emptied queue is the bit of that queue. -/
theorem consistent_bitmapQueueDel_iff {bm : BitmapStruct α} (h : Consistent bm) (x : α)
    (bit : Fin 32) :
    Consistent (bitmapQueueDel x bit bm) ↔ ∀ p, bm.queue p = [x] → p = bit := by
  constructor
  · intro hc p hp
    by_contra hne
    have hm := (hc p).mp ?_
    · rw [bitmapQueueDel, queue_clearIfEmpty, queue_unlink, hp] at hm
      simp at hm
    · rw [bitmapQueueDel, marked_clearIfEmpty, marked_unlink, (h p).mpr (by rw [hp]; simp)]
      simp [hne]
  · intro hone r
    rw [bitmapQueueDel, marked_clearIfEmpty, marked_unlink, queue_clearIfEmpty, queue_unlink]
    by_cases hr : bm.queue r = []
    · have hz : marked bm r = false := by
        cases hb : marked bm r with
        | false => rfl
        | true => exact absurd hr ((h r).mp hb)
      simp [hr, hz]
    · rw [(h r).mpr hr]
      by_cases he : (bm.queue r).erase x = []
      · obtain rfl := hone r ((List.erase_eq_nil_iff.mp he).resolve_left hr)
        simp [he]
      · by_cases hb : r = bit
        · subst hb; simp [he]
        · simp [hb, he]

end PikoRT.Kernel.Bitmap

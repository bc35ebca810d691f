import PikoRT.Kernel.Bitmap
import PikoRT.Kernel.ListFamily
import PikoRT.Lib.Deques
import PikoRT.Lib.Run

/-! # The lists of a bitmap (`include/kernel/bitmap.h`)

`Kernel.Bitmap` has the queues as lists of elements. Here they are the circular lists of
`linux/list.h`: 32 heads, and the nodes of the elements. -/
namespace PikoRT.Kernel.BitmapLists
open PikoRT.Kernel.Bitops PikoRT.Kernel.LinuxList PikoRT.Kernel.ListFamily PikoRT.Lib.Rings PikoRT.Lib.PrioQueue
open PikoRT.Lib.Run (trace Transition)
open PikoRT.Lib.Deques (Answer pushFront)

/-- `struct bitmap_struct`, in the memory of the nodes; `queue[i]` is the head `i`. -/
structure BitmapStruct (α : Type) where
  map : Word
  links : Memory (Fin 32) α

section

variable {α : Type} [DecidableEq α]

/-- `INIT_BITMAP`. -/
def initBitmap (bm : BitmapStruct α) : BitmapStruct α :=
  ⟨0, (List.finRange 32).foldl (fun links i => initListHead (.head i) links) bm.links⟩

def bitmapQueueAdd (new : Node (Fin 32) α) (bit : Fin 32) (bm : BitmapStruct α) : BitmapStruct α :=
  ⟨setBit bit bm.map, listAddTail new (.head bit) bm.links⟩

def bitmapQueueAddFirst (new : Node (Fin 32) α) (bit : Fin 32) (bm : BitmapStruct α) : BitmapStruct α :=
  ⟨setBit bit bm.map, listAdd new (.head bit) bm.links⟩

def bitmapEnqueue (new : Node (Fin 32) α) (bit : Fin 32) (bm : BitmapStruct α) : BitmapStruct α :=
  bitmapQueueAdd new bit bm

def bitmapEnqueueFirst (new : Node (Fin 32) α) (bit : Fin 32) (bm : BitmapStruct α) : BitmapStruct α :=
  bitmapQueueAddFirst new bit bm

/-- `!(!bm->map)`. -/
def bitmapEmpty (bm : BitmapStruct α) : ℤ := if bm.map = 0 then 0 else 1

def bitmapQueueEmpty (bm : BitmapStruct α) (bit : Fin 32) : ℤ := if bitmapGetBit [bm.map] bit = 0 then 1 else 0

def bitmapFirstBit (bm : BitmapStruct α) : ℕ := findFirstBit [bm.map] 32

def bitmapQueueDel (queue : Node (Fin 32) α) (bit : Fin 32) (bm : BitmapStruct α) : BitmapStruct α :=
  let links := listDel queue bm.links
  ⟨if listEmpty (.head bit) links then clearBit bit bm.map else bm.map, links⟩

def bitmapDequeue (bm : BitmapStruct α) (bit : Fin 32) : Node (Fin 32) α × BitmapStruct α :=
  let first := bm.links.next (.head bit)
  (first, bitmapQueueDel first bit bm)

def bitmapDequeueTail (bm : BitmapStruct α) (bit : Fin 32) : Node (Fin 32) α × BitmapStruct α :=
  let last := bm.links.prev (.head bit)
  (last, bitmapQueueDel last bit bm)

/-! ## Calls -/

inductive Call (α : Type) where
  | init
  | enqueue (new : α) (bit : Fin 32)
  | enqueueFirst (new : α) (bit : Fin 32)
  | queueDel (queue : α) (bit : Fin 32)
  | dequeue (bit : Fin 32)
  | dequeueTail (bit : Fin 32)
  | empty
  | queueEmpty (bit : Fin 32)
  | firstBit

/-- The element of a node. -/
def elementOf : Node (Fin 32) α → Option α
  | .item x => some x
  | _ => none

/-- A call, and what its result stands for. -/
def exec (bm : BitmapStruct α) : Call α → Answer α × BitmapStruct α
  | .init => (.done, initBitmap bm)
  | .enqueue new bit => (.done, bitmapEnqueue (.item new) bit bm)
  | .enqueueFirst new bit => (.done, bitmapEnqueueFirst (.item new) bit bm)
  | .queueDel queue bit => (.done, bitmapQueueDel (.item queue) bit bm)
  | .dequeue bit => ((.element (elementOf (bitmapDequeue bm bit).1)), (bitmapDequeue bm bit).2)
  | .dequeueTail bit => ((.element (elementOf (bitmapDequeueTail bm bit).1)), (bitmapDequeueTail bm bit).2)
  | .empty => (.holds (bitmapEmpty bm ≠ 0), bm)
  | .queueEmpty bit => (.holds (bitmapQueueEmpty bm bit ≠ 0), bm)
  | .firstBit => (.level (bitmapFirstBit bm), bm)

/-- The call of the queues that it stands for; what is deleted is deleted from the queue it is in. -/
def Call.abstract : Call α → Lib.Deques.Call 32 α
  | .init => .init
  | .enqueue new bit => .enqueue new bit
  | .enqueueFirst new bit => .enqueueFirst new bit
  | .queueDel queue _ => .delete queue
  | .dequeue bit => .dequeue bit
  | .dequeueTail bit => .dequeueTail bit
  | .empty => .empty
  | .queueEmpty bit => .queueEmpty bit
  | .firstBit => .firstLevel

/-- `bitmap_queue_del` gets a node that is linked. -/
def called (q : Fin 32 → List α) : Call α → Bool
  | .queueDel queue _ => decide (∃ p, queue ∈ q p)
  | _ => true

/-- The lists in memory, and the queues that they should be. -/
abbrev State (α : Type) := BitmapStruct α × (Fin 32 → List α)

def step (s : State α) (c : Call α) : Option (State α) :=
  if called s.2 c then some ((exec s.1 c).2, (Lib.Deques.exec s.2 c.abstract).2) else none

/-- After the first `INIT_BITMAP`; the memory holds anything before it. -/
def start (bm : BitmapStruct α) : State α := (initBitmap bm, fun _ => [])

/-- The lists are the queues, and a bit is set exactly when its queue is not empty. -/
structure Agrees (bm : BitmapStruct α) (q : Fin 32 → List α) : Prop where
  lists : Lists Set.univ bm.links q
  bits : Bitmap.Consistent (⟨bm.map, q⟩ : Bitmap.BitmapStruct α)

/-- The call answers and leaves what it should. -/
structure Right (x : Transition (State α) (Call α)) : Prop where
  answer : (exec x.pre.1 x.act).1 = (Lib.Deques.exec x.pre.2 x.act.abstract).1
  leaves : Agrees x.post.1 x.post.2

/-- What the calls rely on: that a node is in no queue when it is added; that a queue is not empty when it is dequeued;
that the last node of a queue is deleted under the level of the queue; and that nobody asks `bitmap_empty`. -/
def Careful (q : Fin 32 → List α) : Call α → Prop
  | .enqueue new _ | .enqueueFirst new _ => ∀ p, new ∉ q p
  | .queueDel queue bit => ∀ p, q p = [queue] → p = bit
  | .dequeue bit | .dequeueTail bit => q bit ≠ []
  | .empty => False
  | .init | .queueEmpty _ | .firstBit => True

end

section

variable {α : Type} {bm : BitmapStruct α} {q : Fin 32 → List α} {p bit : Fin 32} {x : α} {xs : List α}

/-! ## Asking -/

theorem Agrees.map_eq_zero_iff (h : Agrees bm q) : bm.map = 0 ↔ ∀ p, q p = [] := by
  constructor
  · intro hz p
    by_contra hne
    have hbit : bm.map.getLsbD p = true := (h.bits p).mpr hne
    rw [hz] at hbit
    exact absurd hbit (by simp)
  · intro hnil
    refine BitVec.eq_of_getLsbD_eq fun i hi => ?_
    have hbit : ¬ bm.map.getLsbD i = true := fun hb => (h.bits ⟨i, hi⟩).mp hb (hnil ⟨i, hi⟩)
    rw [Bool.eq_false_of_not_eq_true hbit]
    exact BitVec.getLsbD_zero.symm

/-- `bitmap_empty` says the opposite. -/
theorem bitmapEmpty_iff (h : Agrees bm q) : bitmapEmpty bm ≠ 0 ↔ ¬ ∀ p, q p = [] := by
  rw [← h.map_eq_zero_iff, bitmapEmpty]
  split <;> simp_all

theorem bitmapQueueEmpty_iff (h : Agrees bm q) : bitmapQueueEmpty bm bit ≠ 0 ↔ q bit = [] := by
  have hbit : testBit [bm.map] bit = true ↔ q bit ≠ [] := by
    rw [testBit_cons_lt _ _ bit.isLt]
    exact h.bits bit
  rw [bitmapQueueEmpty, bitmapGetBit_eq]
  by_cases hq : q bit = []
  · rw [if_neg fun ht => hbit.mp ht hq]
    simp [hq]
  · rw [if_pos (hbit.mpr hq)]
    simp [hq]

theorem bitmapFirstBit_eq (h : Agrees bm q) : bitmapFirstBit bm = Lib.Deques.firstLevel q := by
  have hfirst : bitmapFirstBit bm = Bitmap.bitmapFirstBit (⟨bm.map, q⟩ : Bitmap.BitmapStruct α) := rfl
  by_cases hlt : bitmapFirstBit bm < 32
  · obtain ⟨hset, hlow⟩ := Bitmap.bitmapFirstBit_spec (hfirst ▸ hlt)
    have hne : q ⟨bitmapFirstBit bm, hlt⟩ ≠ [] := (h.bits _).mp hset
    refine (Lib.Deques.firstLevel_eq hne fun r hr => ?_).symm
    by_contra hr'
    have hbit := (h.bits r).mpr hr'
    rw [hlow r hr] at hbit
    cases hbit
  · have hnil : ∀ p, q p = [] := fun p => by
      by_contra hne
      exact hlt (Bitmap.bitmapFirstBit_lt_iff.mpr ⟨p, (h.bits p).mpr hne⟩)
    rw [Lib.Deques.firstLevel_of_empty hnil]
    exact le_antisymm (findFirstBit_spec _ _).1 (Nat.le_of_not_lt hlt)

/-! ## Adding -/

theorem Agrees.only (h : Agrees bm q) (hx : x ∈ q p) : ∀ r, x ∈ q r → r = p := fun r hr => h.lists.apart r p x hr hx

theorem Agrees.nodup (h : Agrees bm q) (p : Fin 32) : (q p).Nodup := h.lists.nodup (Set.mem_univ p)

/-- A queue that gets an element gets its bit. -/
theorem Agrees.setBit (h : Agrees bm q) (hxs : xs ≠ []) {links : Memory (Fin 32) α}
    (hl : Lists Set.univ links (Function.update q bit xs)) :
    Agrees (⟨setBit bit bm.map, links⟩ : BitmapStruct α) (Function.update q bit xs) := by
  refine ⟨hl, fun r => ?_⟩
  show (Bitops.setBit bit bm.map).getLsbD r = true ↔ Function.update q bit xs r ≠ []
  rw [getLsbD_setBit _ bit.isLt r.isLt, Bool.or_eq_true, decide_eq_true_iff]
  by_cases hr : r = bit
  · rw [hr, Function.update_self]
    exact iff_of_true (.inl rfl) hxs
  · rw [Function.update_of_ne hr]
    have hne : ¬ (r : ℕ) = bit := fun he => hr (Fin.ext he)
    exact (or_iff_right hne).trans (h.bits r)

/-- A node is in one place of one queue only. -/
theorem Agrees.fresh {q' : Fin 32 → List α} (h : Agrees bm q') (hq : ∀ r, r ≠ bit → q' r = q r) (hx : x ∈ q p)
    (hbit : x ∈ q' bit)
    (hdup : p = bit → ¬ (q' bit).Nodup) : False := by
  by_cases hp : p = bit
  · exact hdup hp (h.nodup bit)
  · exact hp (h.only hbit p (hq p hp ▸ hx))

theorem not_agrees_push (hx : x ∈ q p) : ¬ Agrees bm (push q bit x) := fun h => by
  refine h.fresh (fun r hr => push_of_ne q hr x) hx (by simp) fun hp hnd => ?_
  rw [push_self, ← hp] at hnd
  exact (List.nodup_append.mp hnd).2.2 x hx x (List.mem_singleton_self x) rfl

theorem not_agrees_pushFront (hx : x ∈ q p) : ¬ Agrees bm (pushFront q bit x) := fun h => by
  refine h.fresh (fun r hr => Function.update_of_ne hr _ _) hx ?_ fun hp hnd => ?_
  · rw [pushFront, Function.update_self]
    exact List.mem_cons_self
  · rw [pushFront, Function.update_self, ← hp] at hnd
    exact (List.nodup_cons.mp hnd).1 hx

variable [DecidableEq α]

theorem lists_initListHeads (links : Memory (Fin 32) α) {is : List (Fin 32)} (hnd : is.Nodup) {D : Set (Fin 32)}
    (hD : ∀ i ∈ is, i ∉ D) (hl : Lists D links fun _ => []) :
    Lists (D ∪ {i | i ∈ is}) (is.foldl (fun links i => initListHead (.head i) links) links) fun _ => [] := by
  induction is generalizing links D with
  | nil => simpa using hl
  | cons i is ih =>
    obtain ⟨hi, hnd⟩ := List.nodup_cons.mp hnd
    have hD' : ∀ j ∈ is, j ∉ Insert.insert i D := fun j hj hm => by
      rcases hm with rfl | hm
      · exact hi hj
      · exact hD j (List.mem_cons_of_mem _ hj) hm
    have hnext := ih (initListHead (.head i) links) hnd hD' (hl.init (hD i List.mem_cons_self))
    have hset : D ∪ {j | j ∈ i :: is} = Insert.insert i D ∪ {j | j ∈ is} := by
      ext j
      simp only [Set.mem_union, Set.mem_insert_iff, Set.mem_ofPred_eq, List.mem_cons]
      tauto
    rw [hset]
    exact hnext

theorem agrees_initBitmap (bm : BitmapStruct α) : Agrees (initBitmap bm) fun _ => [] := by
  have hempty : Lists ∅ bm.links (fun _ => [] : Fin 32 → List α) :=
    ⟨fun h hh => absurd hh (Set.notMem_empty h), fun _ _ => rfl, fun _ _ _ hi => absurd hi List.not_mem_nil⟩
  have hall := lists_initListHeads bm.links (List.nodup_finRange 32) (fun i _ => Set.notMem_empty i) hempty
  have huniv : (∅ : Set (Fin 32)) ∪ {i | i ∈ List.finRange 32} = Set.univ :=
    Set.eq_univ_of_forall fun i => .inr (List.mem_finRange i)
  rw [huniv] at hall
  exact ⟨hall, Bitmap.consistent_initBitmap⟩

theorem bitmapEnqueue_agrees (h : Agrees bm q) (hx : ∀ p, x ∉ q p) :
    Agrees (bitmapEnqueue (.item x) bit bm) (push q bit x) :=
  h.setBit (List.append_ne_nil_of_right_ne_nil _ (List.cons_ne_nil x [])) (h.lists.addTail (Set.mem_univ bit) hx)

theorem bitmapEnqueueFirst_agrees (h : Agrees bm q) (hx : ∀ p, x ∉ q p) :
    Agrees (bitmapEnqueueFirst (.item x) bit bm) (pushFront q bit x) :=
  h.setBit (List.cons_ne_nil x _) (h.lists.add (Set.mem_univ bit) hx)

/-! ## Removing -/

/-- The map behind `bitmap_queue_del` is that of `Kernel.Bitmap`. -/
theorem bitmapQueueDel_map (hl : Lists Set.univ (listDel (.item x) bm.links) (remove q x)) :
    (bitmapQueueDel (.item x) bit bm).map = (Bitmap.bitmapQueueDel x bit ⟨bm.map, q⟩).map := by
  have hempty := hl.listEmpty (Set.mem_univ bit)
  rw [remove_apply] at hempty
  unfold bitmapQueueDel Bitmap.bitmapQueueDel Bitmap.clearIfEmpty
  rw [Bitmap.queue_unlink]
  cases hq : (q bit).erase x with
  | nil => exact if_pos (hempty.mpr hq)
  | cons y ys => exact if_neg fun he => absurd (hq.symm.trans (hempty.mp he)) (List.cons_ne_nil y ys)

/-- A node that is linked leaves its queue; the bits stay right when an emptied queue is the one that was named. -/
theorem bitmapQueueDel_agrees_iff (h : Agrees bm q) (hx : x ∈ q p) :
    Agrees (bitmapQueueDel (.item x) bit bm) (remove q x) ↔ ∀ r, q r = [x] → r = bit := by
  have hl : Lists Set.univ (listDel (.item x) bm.links) (remove q x) := by
    rw [Lib.Deques.remove_eq_update (h.only hx)]
    exact h.lists.del hx
  have hmap : (⟨(bitmapQueueDel (.item x) bit bm).map, remove q x⟩ : Bitmap.BitmapStruct α) =
      Bitmap.bitmapQueueDel x bit ⟨bm.map, q⟩ := by
    rw [bitmapQueueDel_map hl]
    unfold Bitmap.bitmapQueueDel Bitmap.clearIfEmpty
    split <;> rfl
  rw [← Bitmap.consistent_bitmapQueueDel_iff h.bits x bit, ← hmap]
  exact ⟨fun ha => ha.bits, fun hb => ⟨hl, hb⟩⟩

theorem bitmapQueueDel_agrees (h : Agrees bm q) (hx : x ∈ q p) : Agrees (bitmapQueueDel (.item x) p bm) (remove q x) :=
  (bitmapQueueDel_agrees_iff h hx).mpr fun r hr => h.only hx r (hr ▸ List.mem_singleton_self x)

theorem bitmapDequeue_spec (h : Agrees bm q) (hq : q p = x :: xs) :
    (bitmapDequeue bm p).1 = .item x ∧ Agrees (bitmapDequeue bm p).2 (Function.update q p (q p).tail) := by
  have hx : x ∈ q p := hq ▸ List.mem_cons_self
  have hfirst : bm.links.next (.head p) = .item x := by
    rw [h.lists.next_head (Set.mem_univ p), hq]
    rfl
  have htail : remove q x = Function.update q p (q p).tail := by
    rw [Lib.Deques.remove_eq_update (h.only hx), hq, List.erase_cons_head, List.tail_cons]
  rw [bitmapDequeue, hfirst, ← htail]
  exact ⟨rfl, bitmapQueueDel_agrees h hx⟩

theorem bitmapDequeueTail_spec (h : Agrees bm q) (hq : q p = xs ++ [x]) :
    (bitmapDequeueTail bm p).1 = .item x ∧ Agrees (bitmapDequeueTail bm p).2 (Function.update q p (q p).dropLast) := by
  have hx : x ∈ q p := by simp [hq]
  have hlast : bm.links.prev (.head p) = .item x := by
    rw [h.lists.prev_head (Set.mem_univ p), hq, List.reverse_append]
    rfl
  have hnot : x ∉ xs := by
    have hnd := h.nodup p
    rw [hq] at hnd
    exact fun hm => (List.nodup_append.mp hnd).2.2 x hm x (List.mem_singleton_self x) rfl
  have hinit : remove q x = Function.update q p (q p).dropLast := by
    rw [Lib.Deques.remove_eq_update (h.only hx), hq, List.erase_append_right _ hnot, List.erase_cons_head,
      List.append_nil,
      List.dropLast_concat]
  rw [bitmapDequeueTail, hlast, ← hinit]
  exact ⟨rfl, bitmapQueueDel_agrees h hx⟩

/-- `list_del` of a head leaves poison in it. -/
theorem not_agrees_head {q' : Fin 32 → List α} (hq : q' p = []) : ¬ Agrees (bitmapQueueDel (.head p) bit bm) q' :=
  fun h => by
  have hnext := h.lists.next_head (Set.mem_univ p)
  rw [hq] at hnext
  have hpoison : (bitmapQueueDel (.head p) bit bm).links.next (.head p) = .poison1 := Links.next_setNext_self ..
  rw [hpoison] at hnext
  cases hnext

theorem not_agrees_bitmapDequeue {q' : Fin 32 → List α} (h : Agrees bm q) (hq : q p = []) (hq' : q' p = []) :
    ¬ Agrees (bitmapDequeue bm p).2 q' := by
  have hhead : bm.links.next (.head p) = .head p := by
    rw [h.lists.next_head (Set.mem_univ p), hq]
    rfl
  rw [bitmapDequeue, hhead]
  exact not_agrees_head hq'

theorem not_agrees_bitmapDequeueTail {q' : Fin 32 → List α} (h : Agrees bm q) (hq : q p = []) (hq' : q' p = []) :
    ¬ Agrees (bitmapDequeueTail bm p).2 q' := by
  have hhead : bm.links.prev (.head p) = .head p := by
    rw [h.lists.prev_head (Set.mem_univ p), hq]
    rfl
  rw [bitmapDequeueTail, hhead]
  exact not_agrees_head hq'

/-! ## Every sequence of calls -/

variable {s t : State α} {c : Call α}

theorem step_eq (h : step s c = some t) : t = ((exec s.1 c).2, (Lib.Deques.exec s.2 c.abstract).2) := by
  unfold step at h
  split at h
  · exact (Option.some.inj h).symm
  · cases h

theorem exec_right_iff (h : Agrees bm q) (hc : called q c = true) :
    ((exec bm c).1 = (Lib.Deques.exec q c.abstract).1 ∧ Agrees (exec bm c).2 (Lib.Deques.exec q c.abstract).2) ↔
      Careful q c := by
  cases c with
  | init => exact iff_of_true ⟨rfl, agrees_initBitmap bm⟩ trivial
  | enqueue new bit =>
    constructor
    · intro hr p hp
      exact not_agrees_push hp hr.2
    · exact fun hx => ⟨rfl, bitmapEnqueue_agrees h hx⟩
  | enqueueFirst new bit =>
    constructor
    · intro hr p hp
      exact not_agrees_pushFront hp hr.2
    · exact fun hx => ⟨rfl, bitmapEnqueueFirst_agrees h hx⟩
  | queueDel queue bit =>
    obtain ⟨p, hp⟩ := of_decide_eq_true hc
    exact (and_iff_right rfl).trans (bitmapQueueDel_agrees_iff h hp)
  | dequeue bit =>
    cases hq : q bit with
    | nil =>
      refine iff_of_false (fun hr => ?_) fun hne => hne hq
      refine not_agrees_bitmapDequeue h hq ?_ hr.2
      simp [Call.abstract, Lib.Deques.exec, hq]
    | cons y ys =>
      have hne : q bit ≠ [] := by simp [hq]
      obtain ⟨hfirst, hleaves⟩ := bitmapDequeue_spec h hq
      refine iff_of_true ⟨?_, hleaves⟩ hne
      show Answer.element (elementOf (bitmapDequeue bm bit).1) = Answer.element (q bit).head?
      rw [hfirst, hq]
      rfl
  | dequeueTail bit =>
    rcases List.eq_nil_or_concat (q bit) with hq | ⟨ys, y, hq⟩
    · refine iff_of_false (fun hr => ?_) fun hne => hne hq
      refine not_agrees_bitmapDequeueTail h hq ?_ hr.2
      simp [Call.abstract, Lib.Deques.exec, hq]
    · rw [List.concat_eq_append] at hq
      have hne : q bit ≠ [] := by simp [hq]
      obtain ⟨hlast, hleaves⟩ := bitmapDequeueTail_spec h hq
      refine iff_of_true ⟨?_, hleaves⟩ hne
      show Answer.element (elementOf (bitmapDequeueTail bm bit).1) = Answer.element (q bit).getLast?
      rw [hlast, hq, List.getLast?_concat]
      rfl
  | empty =>
    refine iff_of_false (fun hr => ?_) id
    have hanswer := hr.1
    simp only [exec, Call.abstract, Lib.Deques.exec, Answer.holds.injEq] at hanswer
    have hflip := bitmapEmpty_iff h
    by_cases hnil : ∀ p, q p = []
    · simp_all
    · simp_all
  | queueEmpty bit =>
    refine iff_of_true ⟨?_, h⟩ trivial
    refine congrArg Answer.holds ?_
    rw [Bool.eq_iff_iff, decide_eq_true_iff, bitmapQueueEmpty_iff h, List.isEmpty_iff]
  | firstBit => exact iff_of_true ⟨congrArg Answer.level (bitmapFirstBit_eq h), h⟩ trivial

theorem step_right_iff (h : Agrees s.1 s.2) (hs : step s c = some t) : Right ⟨s, c, t⟩ ↔ Careful s.2 c := by
  have hc : called s.2 c = true := by
    by_contra hnot
    rw [step, if_neg hnot] at hs
    cases hs
  rw [← exec_right_iff h hc]
  obtain rfl := step_eq hs
  exact ⟨fun hr => ⟨hr.answer, hr.leaves⟩, fun hr => ⟨hr.1, hr.2⟩⟩

end

/-- **The lists are an array of 32 double-ended queues** along every sequence of calls, exactly when the calls are
careful. -/
theorem deques_right_iff {α : Type} [DecidableEq α] (bm : BitmapStruct α) (calls : List (Call α)) :
    (∀ x ∈ trace step (start bm) calls, Right x) ↔ ∀ x ∈ trace step (start bm) calls, Careful x.pre.2 x.act :=
  Lib.Run.trace_forall_iff (Q := fun s c t => Right ⟨s, c, t⟩) (C := fun s c => Careful s.2 c)
    (fun _ _ _ h hs => step_right_iff h hs) (fun _ _ _ h hc hs => ((step_right_iff h hs).mpr hc).leaves)
    (agrees_initBitmap bm)

/-- `bitmap_empty` of empty queues answers that they are not, and `bitmap_dequeue` of an empty queue breaks it. -/
theorem empty_queues_not_right :
    (¬ ∀ x ∈ trace step (start (⟨0, ⟨id, id⟩⟩ : BitmapStruct ℕ)) [.empty], Right x) ∧
      ¬ ∀ x ∈ trace step (start (⟨0, ⟨id, id⟩⟩ : BitmapStruct ℕ)) [.dequeue 0], Right x := by
  constructor
  · intro h
    exact (step_right_iff (agrees_initBitmap _) rfl).mp (h _ List.mem_cons_self)
  · intro h
    exact (step_right_iff (agrees_initBitmap _) rfl).mp (h _ List.mem_cons_self) rfl

end PikoRT.Kernel.BitmapLists

import PikoRT.Kernel.LinuxList
import PikoRT.Lib.RingFamily
import PikoRT.Lib.Run

/-! # The calls of `include/linux/list.h`

The functions that `LinuxList` does not have, and what all of them do to the lists. A call gets
pointers, and whether a pointer is that of a head or of an entry is known to the caller alone: the
header asks him for a node that is in no list, for an entry of a list, or for a head. -/
namespace PikoRT.Kernel.ListCalls
open PikoRT.Lib.Run PikoRT.Lib.Rings PikoRT.Kernel.LinuxList
open PikoRT.Lib.Rings.Sequences (On Member Loose forget setList)

section

variable {H I : Type} [DecidableEq H] [DecidableEq I]

/-- `__list_del_entry`. -/
def listDelEntry (entry : Node H I) (l : Memory H I) : Memory H I := listDelBetween (l.prev entry) (l.next entry) l

def listReplace (old new : Node H I) (l : Memory H I) : Memory H I :=
  let l := l.setNext new (l.next old)
  let l := l.setPrev (l.next new) new
  let l := l.setPrev new (l.prev old)
  l.setNext (l.prev new) new

def listReplaceInit (old new : Node H I) (l : Memory H I) : Memory H I := initListHead old (listReplace old new l)

def listDelInit (entry : Node H I) (l : Memory H I) : Memory H I := initListHead entry (listDelEntry entry l)

def listMoveTail (list head : Node H I) (l : Memory H I) : Memory H I := listAddTail list head (listDelEntry list l)

def listIsLast (list head : Node H I) (l : Memory H I) : Bool := decide (l.next list = head)

def listEmptyCareful (head : Node H I) (l : Memory H I) : Bool :=
  let next := l.next head
  decide (next = head) && decide (next = l.prev head)

def listRotateLeft (head : Node H I) (l : Memory H I) : Memory H I :=
  if listEmpty head l then l else listMoveTail (l.next head) head l

def listIsSingular (head : Node H I) (l : Memory H I) : Bool := !listEmpty head l && decide (l.next head = l.prev head)

/-- `__list_cut_position`. -/
def listCutBehind (list head entry : Node H I) (l : Memory H I) : Memory H I :=
  let newFirst := l.next entry
  let l := l.setNext list (l.next head)
  let l := l.setPrev (l.next list) list
  let l := l.setPrev list entry
  let l := l.setNext entry list
  let l := l.setNext head newFirst
  l.setPrev newFirst head

def listCutPosition (list head entry : Node H I) (l : Memory H I) : Memory H I :=
  if listEmpty head l then l
  else if listIsSingular head l = true ∧ l.next head ≠ entry ∧ head ≠ entry then l
  else if entry = head then initListHead list l
  else listCutBehind list head entry l

/-- `__list_splice`. -/
def listSpliceBetween (list prev next : Node H I) (l : Memory H I) : Memory H I :=
  let first := l.next list
  let last := l.prev list
  let l := l.setPrev first prev
  let l := l.setNext prev first
  let l := l.setNext last next
  l.setPrev next last

def listSplice (list head : Node H I) (l : Memory H I) : Memory H I :=
  if listEmpty list l then l else listSpliceBetween list head (l.next head) l

def listSpliceTail (list head : Node H I) (l : Memory H I) : Memory H I :=
  if listEmpty list l then l else listSpliceBetween list (l.prev head) head l

def listSpliceInit (list head : Node H I) (l : Memory H I) : Memory H I :=
  if listEmpty list l then l else initListHead list (listSpliceBetween list head (l.next head) l)

def listSpliceTailInit (list head : Node H I) (l : Memory H I) : Memory H I :=
  if listEmpty list l then l else initListHead list (listSpliceBetween list (l.prev head) head l)

/-- `list_first_entry_or_null`, with the node for the entry. -/
def listFirstEntryOrNull (head : Node H I) (l : Memory H I) : Option (Node H I) :=
  if listEmpty head l then none else some (l.next head)

/-! ## Calls -/

inductive Call (H I : Type) where
  | init (list : Node H I)
  | add (new head : Node H I)
  | addTail (new head : Node H I)
  | del (entry : Node H I)
  | delInit (entry : Node H I)
  | replace (old new : Node H I)
  | replaceInit (old new : Node H I)
  | move (list head : Node H I)
  | moveTail (list head : Node H I)
  | rotateLeft (head : Node H I)
  | cutPosition (list head entry : Node H I)
  | splice (list head : Node H I)
  | spliceTail (list head : Node H I)
  | spliceInit (list head : Node H I)
  | spliceTailInit (list head : Node H I)
  | isLast (list head : Node H I)
  | empty (head : Node H I)
  | emptyCareful (head : Node H I)
  | isSingular (head : Node H I)
  | firstEntryOrNull (head : Node H I)

inductive Answer (H I : Type) where
  | done
  | holds (b : Bool)
  | entry (n : Option (Node H I))
  deriving DecidableEq

def exec (l : Memory H I) : Call H I → Answer H I × Memory H I
  | .init list => (.done, initListHead list l)
  | .add new head => (.done, listAdd new head l)
  | .addTail new head => (.done, listAddTail new head l)
  | .del entry => (.done, listDel entry l)
  | .delInit entry => (.done, listDelInit entry l)
  | .replace old new => (.done, listReplace old new l)
  | .replaceInit old new => (.done, listReplaceInit old new l)
  | .move list head => (.done, listMove list head l)
  | .moveTail list head => (.done, listMoveTail list head l)
  | .rotateLeft head => (.done, listRotateLeft head l)
  | .cutPosition list head entry => (.done, listCutPosition list head entry l)
  | .splice list head => (.done, listSplice list head l)
  | .spliceTail list head => (.done, listSpliceTail list head l)
  | .spliceInit list head => (.done, listSpliceInit list head l)
  | .spliceTailInit list head => (.done, listSpliceTailInit list head l)
  | .isLast list head => (.holds (listIsLast list head l), l)
  | .empty head => (.holds (listEmpty head l), l)
  | .emptyCareful head => (.holds (listEmptyCareful head l), l)
  | .isSingular head => (.holds (listIsSingular head l), l)
  | .firstEntryOrNull head => (.entry (listFirstEntryOrNull head l), l)

end

/-! ## Sequences -/

section

variable {N : Type} [DecidableEq N]

/-- The list of a head that has one. -/
def listOf (a : Sequences N) (h : N) : List N := (a h).getD []

/-- The entries of `list` come behind `head` or in front of it, which may be the head of a list or one of its entries;
`list` has no list afterwards, unless it was empty. -/
def spliced (behind : Bool) (list head : N) (a : Sequences N) : Sequences N :=
  if listOf a list = [] then a
  else if behind then Sequences.spliceAfter (listOf a list) head (forget list a)
  else Sequences.spliceBefore (listOf a list) head (forget list a)

/-- The same, and `list` becomes empty. -/
def splicedInit (behind : Bool) (list head : N) (a : Sequences N) : Sequences N :=
  if listOf a list = [] then a else setList list [] (spliced behind list head a)

/-- The entries up to `entry` go from `head` to `list`; nothing is done for an empty list or an
entry that is not there. -/
def cutAt (list head entry : N) (a : Sequences N) : Sequences N :=
  let xs := listOf a head
  if xs = [] then a
  else if entry = head then setList list [] a
  else if entry ∈ xs then
    setList list (xs.take (xs.idxOf entry + 1)) (setList head (xs.drop (xs.idxOf entry + 1)) a)
  else a

end

section

variable {H I : Type} [DecidableEq H] [DecidableEq I]

/-- What a call answers and does to the lists. -/
def meaning (a : Sequences (Node H I)) : Call H I → Answer H I × Sequences (Node H I)
  | .init list => (.done, setList list [] a)
  | .add new head => (.done, Sequences.insertAfter new head (forget new a))
  | .addTail new head => (.done, Sequences.insertBefore new head (forget new a))
  | .del entry => (.done, Sequences.remove entry a)
  | .delInit entry => (.done, setList entry [] (Sequences.remove entry a))
  | .replace old new => (.done, Sequences.replace old new (forget new a))
  | .replaceInit old new => (.done, setList old [] (Sequences.replace old new (forget new a)))
  | .move list head => (.done, Sequences.insertAfter list head (Sequences.remove list a))
  | .moveTail list head => (.done, Sequences.insertBefore list head (Sequences.remove list a))
  | .rotateLeft head => (.done, setList head ((listOf a head).rotate 1) a)
  | .cutPosition list head entry => (.done, cutAt list head entry a)
  | .splice list head => (.done, spliced true list head a)
  | .spliceTail list head => (.done, spliced false list head a)
  | .spliceInit list head => (.done, splicedInit true list head a)
  | .spliceTailInit list head => (.done, splicedInit false list head a)
  | .isLast list head => (.holds (decide ((listOf a head).getLast? = some list)), a)
  | .empty head => (.holds (listOf a head).isEmpty, a)
  | .emptyCareful head => (.holds (listOf a head).isEmpty, a)
  | .isSingular head => (.holds (decide ((listOf a head).length = 1)), a)
  | .firstEntryOrNull head => (.entry (listOf a head).head?, a)

/-- What the header asks for: a node that is added is in no list; one that is taken out or moved is an entry or a head
without entries; what is spliced is a list, at a place of another one; and what is worked on is a head with a list, or
one of its entries. -/
def Asked (a : Sequences (Node H I)) : Call H I → Prop
  | .init list => ¬ Member a list
  | .add new head | .addTail new head => ¬ Member a new ∧ ¬ On a new head ∧ ∃ h, On a h head
  | .del entry | .delInit entry => Loose a entry
  | .replace old new | .replaceInit old new => ¬ Member a new ∧ ¬ On a new old ∧ ∃ h, On a h old
  | .move list head | .moveTail list head => Loose a list ∧ list ≠ head ∧ ∃ h, On a h head
  | .rotateLeft head | .empty head | .emptyCareful head | .isSingular head | .firstEntryOrNull head => ∃ xs,
    a head = some xs
  | .cutPosition list head entry => ¬ Member a list ∧ list ≠ head ∧ ∃ xs, a head = some xs ∧
      (entry = head ∨ entry ∈ xs ∨ xs.length ≤ 1)
  | .splice list head | .spliceTail list head | .spliceInit list head | .spliceTailInit list head =>
      (∃ ys, a list = some ys) ∧ ∃ h, list ≠ h ∧ On a h head
  | .isLast list head => ∃ xs, a head = some xs ∧ list ∈ xs

/-- The memory, and the lists in it. -/
abbrev State (H I : Type) := Memory H I × Sequences (Node H I)

def step (s : State H I) (c : Call H I) : Option (State H I) := some ((exec s.1 c).2, (meaning s.2 c).2)

/-- The call answers and leaves what it means. -/
structure Right (x : Transition (State H I) (Call H I)) : Prop where
  answer : (exec x.pre.1 x.act).1 = (meaning x.pre.2 x.act).1
  leaves : Family x.post.1 x.post.2

/-! ## Asking -/

variable {l : Memory H I} {a : Sequences (Node H I)} {h g n : Node H I} {xs ys : List (Node H I)}

omit [DecidableEq H] [DecidableEq I] in
theorem listOf_eq (hx : a h = some xs) : listOf a h = xs := by
  rw [listOf, hx, Option.getD_some]

theorem listEmpty_eq (ha : Family l a) (hx : a h = some xs) : listEmpty h l = xs.isEmpty := by
  rw [Bool.eq_iff_iff, listEmpty_iff (ha.ring h xs hx), List.isEmpty_iff]

theorem listEmptyCareful_eq (ha : Family l a) (hx : a h = some xs) : listEmptyCareful h l = xs.isEmpty := by
  have hr := ha.ring h xs hx
  cases xs with
  | nil =>
    obtain ⟨hn, hp⟩ := hr.path
    simp [listEmptyCareful, hn, hp]
  | cons x xs =>
    have hne : ¬ l.next h = h := fun he => List.cons_ne_nil x xs (hr.next_head_eq_iff.mp he)
    simp [listEmptyCareful, hne]

theorem listIsSingular_eq (ha : Family l a) (hx : a h = some xs) : listIsSingular h l = decide (xs.length = 1) := by
  have hr := ha.ring h xs hx
  rw [listIsSingular, listEmpty_eq ha hx]
  cases xs with
  | nil => rfl
  | cons x xs =>
    have hne := List.cons_ne_nil x xs
    have hnd := (List.nodup_cons.mp hr.nodup).2
    rw [hr.next_eq hne, hr.prev_eq hne, List.head_cons]
    cases xs with
    | nil => simp
    | cons y ys =>
      have hlast : x ≠ (y :: ys).getLast (List.cons_ne_nil y ys) := fun he =>
        (List.nodup_cons.mp hnd).1 (he ▸ List.getLast_mem (List.cons_ne_nil y ys))
      simp [hlast]

theorem listFirst_eq (ha : Family l a) (hx : a h = some xs) : listFirstEntryOrNull h l = xs.head? := by
  have hr := ha.ring h xs hx
  rw [listFirstEntryOrNull, listEmpty_eq ha hx]
  cases xs with
  | nil => rfl
  | cons x xs =>
    rw [hr.next_eq (List.cons_ne_nil x xs)]
    rfl

theorem listIsLast_eq (ha : Family l a) (hx : a h = some xs) (hn : n ∈ xs) :
    listIsLast n h l = decide (xs.getLast? = some n) := by
  have hr := ha.ring h xs hx
  obtain ⟨us, vs, rfl, -, hv⟩ := hr.split hn
  rw [listIsLast, hr.rotate.next_eq (by simp)]
  refine decide_eq_decide.mpr ?_
  rw [List.getLast?_append_of_ne_nil _ (List.cons_ne_nil n vs)]
  cases vs with
  | nil => simp
  | cons v vs =>
    have hvh : v ≠ h := by
      rintro rfl
      exact hr.head_notMem (by simp)
    refine iff_of_false hvh fun he => hv ?_
    rw [List.getLast?_cons_cons] at he
    exact List.mem_of_getLast? he

/-! ## Changing -/

theorem initListHead_family (ha : Family l a) (hn : ¬ Member a n) : Family (initListHead n l) (setList n [] a) :=
  ha.setNil hn

theorem listReplace_eq (old new : Node H I) (l : Memory H I) :
    listReplace old new l = Lib.Rings.replace old new l := by
  simp only [listReplace, Lib.Rings.replace, Links.next_setNext_self, Links.prev_setPrev_self]
  rfl

theorem listCutBehind_eq (list head entry : Node H I) (l : Memory H I) :
    listCutBehind list head entry l = Lib.Rings.cutFront list head entry l := by
  simp only [listCutBehind, Links.next_setNext_self]
  rfl

theorem listDelEntry_family (ha : Family l a) (hn : Loose a n) : Family (listDelEntry n l) (Sequences.remove n a) :=
  ha.remove hn

omit [DecidableEq H] [DecidableEq I] in
theorem notMember_of_notOn (hn : ∀ h, ¬ On a h n) : ¬ Member a n := by
  rintro ⟨h, xs, hx, hm⟩
  exact hn h ⟨xs, hx, List.mem_cons_of_mem _ hm⟩

/-- What is on a ring is still on one when another node has been taken out. -/
theorem on_remove (hh : On a g h) (hne : h ≠ n) (hn : Loose a n) (ha : Family l a) :
    On (Sequences.remove n a) g h := by
  obtain ⟨xs, hx, hm⟩ := hh
  have hgn : g ≠ n := by
    rintro rfl
    rcases hn with hn | hn
    · rw [ha.member_eq_none hn] at hx
      cases hx
    · obtain rfl := Option.some.inj (hn.symm.trans hx)
      exact hne (List.mem_singleton.mp hm)
  refine ⟨xs.erase n, remove_eq_some.mpr ⟨hgn, xs, hx, rfl⟩, ?_⟩
  rcases List.mem_cons.mp hm with rfl | hm
  · exact List.mem_cons_self
  · exact List.mem_cons_of_mem _ ((List.mem_erase_of_ne hne).mpr hm)

theorem listMoveTail_family (ha : Family l a) (hn : Loose a n) (hne : n ≠ h) (hh : On a g h) :
    Family (listMoveTail n h l) (Sequences.insertBefore n h (Sequences.remove n a)) :=
  (listDelEntry_family ha hn).insertBefore (ha.notOn_remove n) (on_remove hh (Ne.symm hne) hn ha)

/-- The first entry of a list goes to its end. -/
theorem rotate_eq {x : Node H I} (ha : Family l a) (hx : a h = some (x :: xs)) :
    Sequences.insertBefore x h (Sequences.remove x a) = setList h (xs ++ [x]) a := by
  have hon : On a h x := (on_iff hx).mpr (by simp)
  have hhead : On a h h := (on_iff hx).mpr List.mem_cons_self
  have hforget : forget x a = a :=
    Function.update_eq_self_iff.mpr (ha.member_eq_none ⟨h, _, hx, List.mem_cons_self⟩).symm
  have hremove : Sequences.remove x a = setList h xs a := by
    rw [Sequences.remove, hforget, mapLists_eq_setList hx fun k us hk hu =>
      List.erase_of_not_mem fun hm => ha.notMem hon hu hk (List.mem_cons_of_mem _ hm), List.erase_cons_head]
  have hset : setList h xs a h = some xs := Function.update_self ..
  rw [hremove, Sequences.insertBefore, mapLists_eq_setList hset fun k us hk hu => ?_, if_pos rfl]
  · exact Function.update_idem ..
  · have hold : a k = some us := (Function.update_of_ne hk ..).symm.trans hu
    rw [if_neg hk]
    exact flatMap_of_notMem (fun z hz => if_neg hz) fun hm => ha.notMem hhead hold hk (List.mem_cons_of_mem _ hm)

theorem listRotateLeft_family (ha : Family l a) (hx : a h = some xs) :
    Family (listRotateLeft h l) (setList h (xs.rotate 1) a) := by
  rw [listRotateLeft, listEmpty_eq ha hx]
  cases xs with
  | nil =>
    have hsame : setList h ([].rotate 1) a = a := (Function.update_eq_self_iff ..).mpr hx.symm
    rw [hsame]
    exact ha
  | cons x xs =>
    have hr := ha.ring h _ hx
    have hhx : x ≠ h := by
      rintro rfl
      exact hr.head_notMem List.mem_cons_self
    have hmoved :=
      listMoveTail_family ha (.inl ⟨h, _, hx, List.mem_cons_self⟩) hhx ((on_iff hx).mpr List.mem_cons_self)
    rw [rotate_eq ha hx] at hmoved
    rw [if_neg (by simp), hr.next_eq (List.cons_ne_nil x xs), List.rotate_cons_succ, List.rotate_zero]
    exact hmoved

theorem listCutPosition_family {e : Node H I} (ha : Family l a) (hx : a h = some xs) (hg : ¬ Member a g) (hgh : g ≠ h)
    (he : e = h ∨ e ∈ xs ∨ xs.length ≤ 1) : Family (listCutPosition g h e l) (cutAt g h e a) := by
  have hr := ha.ring h xs hx
  rw [listCutPosition, listEmpty_eq ha hx, listIsSingular_eq ha hx]
  simp only [cutAt, listOf_eq hx]
  by_cases hnil : xs = []
  · subst hnil
    exact ha
  · rw [if_neg (by simpa using hnil), if_neg hnil]
    by_cases heh : e = h
    · subst heh
      rw [if_neg (by simp), if_pos rfl, if_pos rfl]
      exact initListHead_family ha hg
    · by_cases hm : e ∈ xs
      · have hsingle : ¬ (decide (xs.length = 1) = true ∧ l.next h ≠ e ∧ h ≠ e) := by
          rintro ⟨hone, hne, -⟩
          obtain ⟨x, rfl⟩ := List.length_eq_one_iff.mp (of_decide_eq_true hone)
          exact hne ((hr.next_eq hnil).trans (List.mem_singleton.mp hm).symm)
        rw [if_neg hsingle, if_neg heh, if_neg heh, if_pos hm, listCutBehind_eq]
        obtain ⟨us, vs, rfl, hu, -⟩ := hr.split hm
        have hidx : (us ++ e :: vs).idxOf e = us.length := by
          rw [List.idxOf_append_of_notMem hu, List.idxOf_cons_self, Nat.add_zero]
        rw [hidx, show us ++ e :: vs = (us ++ [e]) ++ vs by simp, List.take_left' (by simp), List.drop_left' (by simp)]
        exact ha.cut hx hg hgh
      · have hone : xs.length = 1 := by
          have hle := he.resolve_left heh |>.resolve_left hm
          have hpos := List.length_pos_iff.mpr hnil
          omega
        have hnext : l.next h ≠ e := fun hn => hm (hn ▸ hr.next_mem_of_ne_nil hnil)
        rw [if_pos ⟨decide_eq_true hone, hnext, Ne.symm heh⟩, if_neg heh, if_neg hm]
        exact ha

/-- `list_splice` and `list_splice_tail`. -/
theorem listSplice_family (behind : Bool) (ha : Family l a) (hg : a g = some ys) (hn : On a h n) (hgh : g ≠ h) :
    Family (if behind then listSplice g n l else listSpliceTail g n l) (spliced behind g n a) := by
  simp only [listSplice, listSpliceTail, listEmpty_eq ha hg, spliced, listOf_eq hg, List.isEmpty_iff]
  by_cases hnil : ys = []
  · simp only [hnil, if_true, ite_self]
    exact ha
  · simp only [hnil, if_false]
    cases behind with
    | true => exact ha.splice_after hg hn hgh hnil
    | false => exact ha.splice_before hg hn hgh hnil

theorem member_of_spliced {behind : Bool} (hg : a g = some ys) (hm : Member (spliced behind g n a) h) :
    Member a h := by
  rw [spliced, listOf_eq hg] at hm
  by_cases hnil : ys = []
  · rwa [if_pos hnil] at hm
  · rw [if_neg hnil] at hm
    cases behind with
    | true => exact member_of_spliceAfter hg hm
    | false => exact member_of_spliceBefore hg hm

/-- `list_splice_init` and `list_splice_tail_init`. -/
theorem listSpliceInit_family (behind : Bool) (ha : Family l a) (hg : a g = some ys) (hn : On a h n) (hgh : g ≠ h) :
    Family (if behind then listSpliceInit g n l else listSpliceTailInit g n l) (splicedInit behind g n a) := by
  have hsplice := listSplice_family behind ha hg hn hgh
  simp only [listSplice, listSpliceTail, listSpliceInit, listSpliceTailInit, listEmpty_eq ha hg, splicedInit,
    listOf_eq hg,
    List.isEmpty_iff] at hsplice ⊢
  by_cases hnil : ys = []
  · simp only [hnil, if_true, ite_self]
    exact ha
  · simp only [hnil, if_false] at hsplice ⊢
    have hlast : ¬ Member (spliced behind g n a) g := fun hm => ha.head_notMember hg (member_of_spliced hg hm)
    cases behind with
    | true => exact initListHead_family hsplice hlast
    | false => exact initListHead_family hsplice hlast

/-! ## Every sequence of calls -/

theorem exec_right {c : Call H I} (ha : Family l a) (hc : Asked a c) :
    (exec l c).1 = (meaning a c).1 ∧ Family (exec l c).2 (meaning a c).2 := by
  cases c with
  | init list => exact ⟨rfl, initListHead_family ha hc⟩
  | add new head =>
    obtain ⟨hn, hself, h, hh⟩ := hc
    have hne : h ≠ new := by
      rintro rfl
      exact hself hh
    exact ⟨rfl, (ha.forget new).insertAfter (notOn_forget hn) (on_forget.mpr ⟨hne, hh⟩)⟩
  | addTail new head =>
    obtain ⟨hn, hself, h, hh⟩ := hc
    have hne : h ≠ new := by
      rintro rfl
      exact hself hh
    exact ⟨rfl, (ha.forget new).insertBefore (notOn_forget hn) (on_forget.mpr ⟨hne, hh⟩)⟩
  | del entry =>
    exact ⟨rfl, (listDelEntry_family ha hc).other (ha.notOn_remove entry) (fun z hz => Links.next_setNext_of_ne hz)
      fun z hz => Links.prev_setPrev_of_ne hz⟩
  | delInit entry =>
    exact ⟨rfl, initListHead_family (listDelEntry_family ha hc) (notMember_of_notOn (ha.notOn_remove entry))⟩
  | replace old new =>
    obtain ⟨hn, hself, h, hh⟩ := hc
    have hne : h ≠ new := by
      rintro rfl
      exact hself hh
    refine ⟨rfl, ?_⟩
    show Family (listReplace old new l) _
    rw [listReplace_eq]
    exact (ha.forget new).replace (on_forget.mpr ⟨hne, hh⟩) (notOn_forget hn)
  | replaceInit old new =>
    obtain ⟨hn, hself, h, hh⟩ := hc
    have hne : h ≠ new := by
      rintro rfl
      exact hself hh
    have hh' : On (forget new a) h old := on_forget.mpr ⟨hne, hh⟩
    refine ⟨rfl, ?_⟩
    show Family (initListHead old (listReplace old new l)) _
    rw [listReplace_eq]
    have hf := ha.forget new
    exact initListHead_family (hf.replace hh' (notOn_forget hn)) (hf.notMember_replace hh' (notOn_forget hn))
  | move list head =>
    obtain ⟨hn, hne, h, hh⟩ := hc
    exact ⟨rfl, (listDelEntry_family ha hn).insertAfter (ha.notOn_remove list) (on_remove hh (Ne.symm hne) hn ha)⟩
  | moveTail list head =>
    obtain ⟨hn, hne, h, hh⟩ := hc
    exact ⟨rfl, listMoveTail_family ha hn hne hh⟩
  | rotateLeft head =>
    obtain ⟨xs, hx⟩ := hc
    refine ⟨rfl, ?_⟩
    show Family _ (setList head ((listOf a head).rotate 1) a)
    rw [listOf_eq hx]
    exact listRotateLeft_family ha hx
  | cutPosition list head entry =>
    obtain ⟨hn, hne, xs, hx, he⟩ := hc
    exact ⟨rfl, listCutPosition_family ha hx hn hne he⟩
  | splice list head =>
    obtain ⟨⟨ys, hy⟩, h, hne, hh⟩ := hc
    exact ⟨rfl, listSplice_family true ha hy hh hne⟩
  | spliceTail list head =>
    obtain ⟨⟨ys, hy⟩, h, hne, hh⟩ := hc
    exact ⟨rfl, listSplice_family false ha hy hh hne⟩
  | spliceInit list head =>
    obtain ⟨⟨ys, hy⟩, h, hne, hh⟩ := hc
    exact ⟨rfl, listSpliceInit_family true ha hy hh hne⟩
  | spliceTailInit list head =>
    obtain ⟨⟨ys, hy⟩, h, hne, hh⟩ := hc
    exact ⟨rfl, listSpliceInit_family false ha hy hh hne⟩
  | isLast list head =>
    obtain ⟨xs, hx, hm⟩ := hc
    refine ⟨congrArg Answer.holds ?_, ha⟩
    rw [listIsLast_eq ha hx hm, listOf_eq hx]
  | empty head =>
    obtain ⟨xs, hx⟩ := hc
    refine ⟨congrArg Answer.holds ?_, ha⟩
    rw [listEmpty_eq ha hx, listOf_eq hx]
  | emptyCareful head =>
    obtain ⟨xs, hx⟩ := hc
    refine ⟨congrArg Answer.holds ?_, ha⟩
    rw [listEmptyCareful_eq ha hx, listOf_eq hx]
  | isSingular head =>
    obtain ⟨xs, hx⟩ := hc
    refine ⟨congrArg Answer.holds ?_, ha⟩
    rw [listIsSingular_eq ha hx, listOf_eq hx]
  | firstEntryOrNull head =>
    obtain ⟨xs, hx⟩ := hc
    refine ⟨congrArg Answer.entry ?_, ha⟩
    rw [listFirst_eq ha hx, listOf_eq hx]

end

/-- **The calls are operations on sequences**: along every sequence of calls that asks for what the
header allows, every call answers for the lists as they are, and leaves the rings of the lists it
should leave, whatever memory held before. -/
theorem listCalls_right {H I : Type} [DecidableEq H] [DecidableEq I] (l : Memory H I) (calls : List (Call H I))
    (hasked : ∀ x ∈ trace step (l, fun _ => none) calls, Asked x.pre.2 x.act) :
    ∀ x ∈ trace step (l, fun _ => none) calls, Right x := by
  have hstart : Family l fun _ => none := ⟨fun _ _ h => (nomatch h), fun _ _ _ h => (nomatch h)⟩
  have hall := trace_invariant (I := fun s : State H I => Family s.1 s.2) (C := fun s c => Asked s.2 c)
    (fun s c t hs hc ht => by
      obtain rfl := Option.some.inj ht
      exact (exec_right hs hc).2) (s := (l, fun _ => none)) hstart hasked
  exact fun x hx => ⟨(exec_right (hall x hx).1 (hasked x hx)).1, (hall x hx).2⟩

/-- Three entries, of which the first two are moved to a second list, and then back, in front of the third. -/
def cutAndSplice : List (Call Bool ℕ) :=
  [.init (.head true), .addTail (.item 1) (.head true), .addTail (.item 2) (.head true),
    .addTail (.item 3) (.head true),
    .cutPosition (.head false) (.head true) (.item 2), .spliceTailInit (.head false) (.item 3)]

theorem listCalls_right_cutAndSplice :
    (trace step ((⟨id, id⟩ : Memory Bool ℕ), fun _ => none) cutAndSplice).length = 6 ∧
    ∀ x ∈ trace step ((⟨id, id⟩ : Memory Bool ℕ), fun _ => none) cutAndSplice, Right x := by
  refine ⟨rfl, listCalls_right ⟨id, id⟩ cutAndSplice ?_⟩
  simp only [cutAndSplice, trace, step, List.forall_mem_cons]
  refine ⟨?_, ?_, ?_, ?_, ?_, ?_, List.forall_mem_nil _⟩
  · simp [Asked, Member]
  · simp [Asked, Member, On, meaning, setList, Function.update_apply]
  · simp [Asked, Member, On, meaning, setList, forget, Sequences.insertBefore, Sequences.mapLists,
      Function.update_apply]
  · simp [Asked, Member, On, meaning, setList, forget, Sequences.insertBefore, Sequences.mapLists,
      Function.update_apply]
  · simp [Asked, Member, meaning, setList, forget, Sequences.insertBefore, Sequences.mapLists, Function.update_apply]
  · refine ⟨?_, .head true, ?_, ?_⟩
    all_goals simp [On, meaning, setList, forget, Sequences.insertBefore, Sequences.mapLists, cutAt, listOf]

end PikoRT.Kernel.ListCalls

import PikoRT.Lib.Rings

/-! # Lists of the kernel

`include/linux/list.h`: circular lists of nodes embedded in the structures they
link. A function writes the fields of the nodes it is given, whether or not they are
in a list. -/
namespace PikoRT.Kernel.LinuxList
open PikoRT.Lib.Rings

/-- What a `struct list_head *` points to: the head of a list, the node of an item,
or one of the addresses of `linux/poison.h`. -/
inductive Node (H I : Type) where
  | head (h : H)
  | item (i : I)
  | poison1
  | poison2
  deriving DecidableEq, Repr

variable {H I : Type} [DecidableEq H] [DecidableEq I]

/-- The fields of every node. -/
abbrev Memory (H I : Type) := Links (Node H I)

def initListHead (list : Node H I) (l : Memory H I) : Memory H I := (l.setNext list list).setPrev list list

/-- `__list_add`. -/
def listAddBetween (new prev next : Node H I) (l : Memory H I) : Memory H I :=
  (((l.setPrev next new).setNext new next).setPrev new prev).setNext prev new

def listAdd (new head : Node H I) (l : Memory H I) : Memory H I := listAddBetween new head (l.next head) l

def listAddTail (new head : Node H I) (l : Memory H I) : Memory H I :=
  listAddBetween new (l.prev head) head l

/-- `__list_del`. -/
def listDelBetween (prev next : Node H I) (l : Memory H I) : Memory H I := (l.setPrev next prev).setNext prev next

def listDel (entry : Node H I) (l : Memory H I) : Memory H I :=
  ((listDelBetween (l.prev entry) (l.next entry) l).setNext entry .poison1).setPrev entry .poison2

def listMove (list head : Node H I) (l : Memory H I) : Memory H I :=
  listAdd list head (listDelBetween (l.prev list) (l.next list) l)

def listEmpty (head : Node H I) (l : Memory H I) : Bool := decide (l.next head = head)

/-! ## Rings -/

section

variable {l : Memory H I} {h g n : Node H I} {xs ys : List (Node H I)}

theorem ring_initListHead (h : Node H I) (l : Memory H I) : Ring (initListHead h l) h [] :=
  Ring.nil (Links.next_setNext_self ..) (Links.prev_setPrev_self ..)

theorem ring_listAdd (hr : Ring l h xs) (hn : n ∉ h :: xs) : Ring (listAdd n h l) h (n :: xs) :=
  hr.insert_head hn

theorem ring_listAddTail (hr : Ring l h xs) (hn : n ∉ h :: xs) : Ring (listAddTail n h l) h (xs ++ [n]) :=
  hr.insert_last hn

/-- `list_add` behind a node of the list. -/
theorem ring_listAdd_after {p : Node H I} (hr : Ring l h (xs ++ p :: ys)) (hn : n ∉ h :: (xs ++ p :: ys)) :
    Ring (listAdd n p l) h (xs ++ p :: n :: ys) :=
  hr.insert_after hn

/-- Poison in a node that is on no list. -/
theorem ring_poison {a b : Node H I} (hr : Ring l h xs) (hn : n ∉ h :: xs) :
    Ring ((l.setNext n a).setPrev n b) h xs := by
  have hne : ∀ z ∈ h :: xs, z ≠ n := by
    rintro z hz rfl
    exact hn hz
  refine hr.congr (fun z hz => ?_) fun z hz => ?_
  · rw [Links.next_setPrev, Links.next_setNext_of_ne (hne z hz)]
  · rw [Links.prev_setPrev_of_ne (hne z hz), Links.prev_setNext]

theorem ring_listDel (hr : Ring l h xs) (hn : n ∈ xs) : Ring (listDel n l) h (xs.erase n) := by
  obtain ⟨us, vs, hus, rfl, herase⟩ := List.exists_erase_eq hn
  rw [herase]
  refine ring_poison hr.remove ?_
  have hnd := hr.nodup
  rw [← List.cons_append, List.nodup_append] at hnd
  intro hmem
  rcases List.mem_append.mp (by simpa using hmem : n ∈ (h :: us) ++ vs) with hm | hm
  · exact hnd.2.2 n hm n List.mem_cons_self rfl
  · exact (List.nodup_cons.mp hnd.2.1).1 hm

theorem listEmpty_iff (hr : Ring l h xs) : listEmpty h l = true ↔ xs = [] := by
  unfold listEmpty
  rw [decide_eq_true_iff]
  exact hr.next_head_eq_iff

/-! ### Another list -/

theorem ring_listAdd_other (hr : Ring l h xs) (hg : Ring l g ys) (hn : n ∉ g :: ys)
    (hd : ∀ z ∈ h :: xs, z ∉ g :: ys) : Ring (listAdd n h l) g ys :=
  hg.insert_other hn (hd h List.mem_cons_self) (hd _ (hr.next_mem List.mem_cons_self))

theorem ring_listAddTail_other (hr : Ring l h xs) (hg : Ring l g ys) (hn : n ∉ g :: ys)
    (hd : ∀ z ∈ h :: xs, z ∉ g :: ys) : Ring (listAddTail n h l) g ys :=
  hg.insert_other hn (hd _ (hr.prev_mem List.mem_cons_self)) (hd h List.mem_cons_self)

end

end PikoRT.Kernel.LinuxList

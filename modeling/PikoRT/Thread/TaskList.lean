import PikoRT.Kernel.LinuxList
import PikoRT.Mm.PageUse
import PikoRT.Thread.Create

/-! # The threads of a task

`thread_create` links the new thread into `task->thread_head`, and
`find_thread_by_id` goes through that list. Nothing takes a thread off it: a thread
that was detached frees its page in `thread_exit` and stays linked. The model keeps
the fields of the list nodes in memory, so that a page that is handed out again is
linked a second time. -/
namespace PikoRT.Thread.TaskList
open PikoRT.Lib.Run PikoRT.Lib.Rings PikoRT.Kernel.Bitops PikoRT.Kernel.LinuxList PikoRT.Mm PikoRT.Mm.Page
open PikoRT.Mm.PageRun (PgMem Lease Call FreePage bytes boot pgMem64k)
open PikoRT.Mm.PageUse PikoRT.Libc PikoRT.Thread.Stack
open PikoRT.Libc.Malloc (Heap)

/-- A `ti_list`, or `thread_head`. A thread is the address of its page. -/
abbrev TiNode := Node Unit Addr

structure Task where
  pages : PageRun.State
  heap : Heap
  links : Memory Unit Addr
  tiId : Addr → BitVec 32
  tiDetached : Addr → Bool
  tiStacksize : Addr → Word
  /-- What `alloc_thread_stack` got from `alloc_pages`. -/
  stack : Addr → Addr
  threadCount : BitVec 32
  /-- The threads that were created and not destroyed, the last one first. -/
  threads : List Addr
  /-- Those of them that have not exited. -/
  running : List Addr

def threadHead : TiNode := .head ()

namespace Task

def fits (id : BitVec 32) (s : Task) : TiNode → Bool
  | .item t => decide (s.tiId t = id)
  | _ => false

/-- `list_entry`. -/
def entry : TiNode → Option Addr
  | .item t => some t
  | _ => none

/-- `find_thread_by_id`; nothing when the fuel does not last. -/
def findThreadById (fuel : ℕ) (id : BitVec 32) (s : Task) : Option (Option Addr) :=
  (search (s.fits id) threadHead s.links fuel (s.links.next threadHead)).map fun r => r.bind entry

/-- The fields of the new thread and `list_add`. -/
def link (thread memp : Addr) (stacksize : Word) (s : Task) : Task :=
  { s with
    tiStacksize := Function.update s.tiStacksize thread stacksize
    tiId := Function.update s.tiId thread s.threadCount
    threadCount := s.threadCount + 1
    tiDetached := Function.update s.tiDetached thread false
    stack := Function.update s.stack thread memp
    links := listAdd (.item thread) threadHead s.links
    threads := thread :: s.threads
    running := thread :: s.running }

end Task

/-- A page of a thread. -/
def infoLease (t : Addr) : Lease := ⟨t, ulongOrder intrStackSize⟩

def stackLease (s : Task) (t : Addr) : Lease := ⟨s.stack t, ulongOrder (s.tiStacksize t)⟩

/-- `thread_create`. Without memory for the stack it calls the `free` of the heap for the
page of the thread, which may not come back; nobody has the page any more then. -/
def threadCreate (mem : PgMem) (stacksize : Word) (s : Task) : Option Task :=
  let kcr := allocate mem (ulongOrder intrStackSize) s.pages
  match kcr.1 with
  | none => some { s with pages := kcr.2 }
  | some thread =>
    let tcr := allocate mem (ulongOrder stacksize) kcr.2
    match tcr.1 with
    | none => (Malloc.free thread.toNat s.heap).map fun h => { s with pages := tcr.2, heap := h }
    | some memp => some ({ s with pages := tcr.2 }.link thread memp stacksize)

/-- `thread_exit` with the stack pointer `psp`. -/
def threadExit (mem : PgMem) (t psp : Addr) (s : Task) : Task :=
  let pages := release mem (align psp (s.tiStacksize t).toNat) (stackLease s t) s.pages
  let s := { s with running := s.running.erase t }
  if s.tiDetached t = false then { s with pages := pages }
  else { s with pages := release mem t (infoLease t) pages, threads := s.threads.erase t }

/-- `thread_detach`; a thread that is not found is a null pointer. -/
def threadDetach (fuel : ℕ) (id : BitVec 32) (s : Task) : Option Task :=
  match s.findThreadById fuel id with
  | some (some t) => some { s with tiDetached := Function.update s.tiDetached t true }
  | _ => none

/-- What `thread_join` does to the list is to search it. -/
def threadJoin (fuel : ℕ) (id : BitVec 32) (s : Task) : Option Task :=
  (s.findThreadById fuel id).map fun _ => s

inductive Act where
  | create (stacksize : Word)
  | detach (fuel : ℕ) (id : BitVec 32)
  | join (fuel : ℕ) (id : BitVec 32)
  | exit (t psp : Addr)
  /-- Somebody else calls the page allocator. -/
  | page (c : Call)
  /-- Somebody else writes to a page that no thread has. -/
  | write (t : Addr) (next prev : TiNode) (id : BitVec 32)
  deriving DecidableEq

/-- The blocks of the threads. -/
def owned (s : Task) : List Lease := s.threads.map infoLease ++ s.running.map (stackLease s)

def pageCall (mem : PgMem) (s : Task) : Call → Option Task
  | .alloc order => some { s with pages := (allocate mem order s.pages).2 }
  | .free addr order =>
    if ⟨addr, order⟩ ∈ s.pages.live ∧ ⟨addr, order⟩ ∉ owned s then
      some { s with pages := release mem addr ⟨addr, order⟩ s.pages }
    else none

/-- Where the stack pointer of a thread can be: somewhere in its stack, or anywhere when the
stack has no room for the first context, which lies below it then. -/
def InStack (s : Task) (t psp : Addr) : Prop :=
  sizeofThreadContextRegs ≤ s.tiStacksize t → (psp - s.stack t).toNat < (s.tiStacksize t).toNat

instance (s : Task) (t psp : Addr) : Decidable (InStack s t psp) := inferInstanceAs (Decidable (_ → _))

def step (mem : PgMem) (s : Task) : Act → Option Task
  | .create stacksize => threadCreate mem stacksize s
  | .detach fuel id => threadDetach fuel id s
  | .join fuel id => threadJoin fuel id s
  | .exit t psp =>
    if t ∈ s.running ∧ InStack s t psp then some (threadExit mem t psp s)
    else none
  | .page c => pageCall mem s c
  | .write t next prev id =>
    if t ∈ s.threads then none
    else some { s with
      links := (s.links.setNext (.item t) next).setPrev (.item t) prev
      tiId := Function.update s.tiId t id }

/-- `task_init`, whatever memory holds. -/
def init (h : Heap) (l : Memory Unit Addr) (id : Addr → BitVec 32) : Task where
  pages := boot
  heap := h
  links := initListHead threadHead l
  tiId := id
  tiDetached := fun _ => false
  tiStacksize := fun _ => 0
  stack := fun _ => 0
  threadCount := 0
  threads := []
  running := []

/-- No page of the block is free. -/
def Allocated (mem : PgMem) (s : Task) (l : Lease) : Prop :=
  ∀ p ∈ (PageRun.blockOf mem l).pages, ¬ FreePage s.pages.pb p

/-- The list holds the threads that exist. -/
structure Exact (mem : PgMem) (s : Task) : Prop where
  ring : ∃ xs, Ring s.links threadHead xs ∧ xs.Perm (s.threads.map .item) ∧
    ∀ t, .item t ∈ xs → Allocated mem s (infoLease t)
  ends : ∀ id, ∃ fuel r, s.findThreadById fuel id = some r
  finds : ∀ t ∈ s.threads, ∃ fuel, s.findThreadById fuel (s.tiId t) = some (some t)

/-- The stack of a new thread has room for its first context. -/
def Roomy : Act → Prop
  | .create stacksize => sizeofThreadContextRegs ≤ stacksize
  | _ => True

/-- A page is found for a new thread only together with a stack. -/
def Provided (mem : PgMem) (s : Task) : Act → Prop
  | .create stacksize =>
    let kcr := allocate mem (ulongOrder intrStackSize) s.pages
    kcr.1.isSome → (allocate mem (ulongOrder stacksize) kcr.2).1.isSome
  | _ => True

/-- No detached thread exits. -/
def NotDetached (s : Task) : Act → Prop
  | .exit t _ => s.tiDetached t = false
  | _ => True

instance : DecidablePred Roomy
  | .create _ => inferInstanceAs (Decidable (_ ≤ _))
  | .detach .. | .join .. | .exit .. | .page _ | .write .. => isTrue trivial

instance (mem : PgMem) (s : Task) : DecidablePred (Provided mem s)
  | .create _ => inferInstanceAs (Decidable (_ → _))
  | .detach .. | .join .. | .exit .. | .page _ | .write .. => isTrue trivial

instance (s : Task) : DecidablePred (NotDetached s)
  | .exit .. => inferInstanceAs (Decidable (_ = _))
  | .create _ | .detach .. | .join .. | .page _ | .write .. => isTrue trivial

/-! ## The invariant -/

structure Inv (mem : PgMem) (s : Task) : Prop where
  pages : PageRun.Inv mem s.pages
  ring : Ring s.links threadHead (s.threads.map .item)
  owned : (owned s).Nodup
  held : ∀ l ∈ TaskList.owned s, l ∈ s.pages.live
  running : ∀ t ∈ s.running, t ∈ s.threads ∧ sizeofThreadContextRegs ≤ s.tiStacksize t ∧
    (s.tiStacksize t).toNat ≤ 2048
  count : s.threadCount = BitVec.ofNat 32 s.threads.length
  ids : ∀ t ∈ s.threads, (s.tiId t).toNat < s.threads.length
  distinct : (s.threads.map s.tiId).Nodup

section

variable {mem : PgMem} {s : Task}

theorem Inv.info_held (h : Inv mem s) {t : Addr} (ht : t ∈ s.threads) : infoLease t ∈ s.pages.live :=
  h.held _ (List.mem_append_left _ (List.mem_map_of_mem ht))

theorem Inv.stack_held (h : Inv mem s) {t : Addr} (ht : t ∈ s.running) : stackLease s t ∈ s.pages.live :=
  h.held _ (List.mem_append_right _ (List.mem_map_of_mem ht))

theorem Inv.nodup_threads (h : Inv mem s) : s.threads.Nodup :=
  ((List.nodup_append.mp h.owned).1).of_map _

theorem Inv.nodup_running (h : Inv mem s) : s.running.Nodup :=
  ((List.nodup_append.mp h.owned).2.1).of_map _

/-- There are not more threads than pages. -/
theorem Inv.length_le (h : Inv mem s) : s.threads.length ≤ 64 := by
  set f : Addr → ℕ := fun t => (PageRun.blockOf mem (infoLease t)).idx with hf
  have hinj : ∀ t ∈ s.threads, ∀ u ∈ s.threads, f t = f u → t = u := by
    intro t ht u hu he
    have hvt := (h.pages.valid _ (h.info_held ht)).addr_eq
    have hvu := (h.pages.valid _ (h.info_held hu)).addr_eq
    have heq : (infoLease t).addr = (infoLease u).addr := by
      rw [hvt, hvu]
      show pageIdxToAddr mem.start (f t) _ = pageIdxToAddr mem.start (f u) _
      rw [he]
      rfl
    exact heq
  have hnd : (s.threads.map f).Nodup := h.nodup_threads.map_on fun t ht u hu => hinj t ht u hu
  have hsub : (s.threads.map f).toFinset ⊆ Finset.range 64 := by
    intro i hi
    obtain ⟨t, ht, rfl⟩ := List.mem_map.mp (List.mem_toFinset.mp hi)
    exact Finset.mem_range.mpr (h.pages.valid _ (h.info_held ht)).idx_lt
  have hcard := Finset.card_le_card hsub
  rwa [List.toFinset_card_of_nodup hnd, List.length_map, Finset.card_range] at hcard

/-! ### The search -/

theorem Inv.findThreadById (h : Inv mem s) (id : BitVec 32) :
    s.findThreadById (s.threads.length + 1) id = some (s.threads.find? fun t => decide (s.tiId t = id)) := by
  have hs := h.ring.search (s.fits id)
  rw [List.length_map] at hs
  unfold Task.findThreadById
  rw [hs, List.find?_map, Option.map_some]
  have hcomp : s.fits id ∘ Node.item = fun t => decide (s.tiId t = id) := rfl
  rw [hcomp]
  cases s.threads.find? fun t => decide (s.tiId t = id) <;> rfl

/-- What is held is not free. -/
theorem Inv.allocated (h : Inv mem s) {l : Lease} (hl : l ∈ s.pages.live) : Allocated mem s l := by
  intro p hp hfree
  have hcover := (h.pages.ledger.cover p).mp (PageRun.mem_pagesOf_freeBlocks.mpr hfree)
  exact hcover.2 _ (List.mem_map_of_mem hl) hp

/-- A block that is given back is free. -/
theorem not_allocated_of_release {l : Lease} {p : PageRun.State} (h : PageRun.Inv mem p) (hl : l ∈ p.live)
    {q : Task} (hq : q.pages = release mem l.addr l p) : ¬ Allocated mem q l := by
  have hrel := inv_release h hl rfl
  have hpage : (PageRun.blockOf mem l).idx * 2 ^ l.order ∈ (PageRun.blockOf mem l).pages :=
    Nat.mul_div_cancel _ (by positivity)
  have hnot := (List.pairwise_cons.mp (h.ledger.perm ((List.perm_cons_erase hl).map _)).apart).1
  have hin := (h.ledger.inside _ (List.mem_map_of_mem hl)).2 hpage
  intro halloc
  refine halloc _ hpage ?_
  rw [hq]
  refine PageRun.mem_pagesOf_freeBlocks.mp ((hrel.ledger.cover _).mpr ⟨hin, fun b hb hmem => ?_⟩)
  exact Set.disjoint_left.mp (hnot b hb) hpage hmem

theorem Inv.exact (h : Inv mem s) : Exact mem s := by
  refine ⟨⟨_, h.ring, List.Perm.refl _, fun t ht => ?_⟩, fun id => ⟨_, _, h.findThreadById id⟩, fun t ht => ?_⟩
  · obtain ⟨u, hu, he⟩ := List.mem_map.mp ht
    cases he
    exact h.allocated (h.info_held hu)
  · refine ⟨_, (h.findThreadById (s.tiId t)).trans (congrArg some ?_)⟩
    cases hf : s.threads.find? fun u => decide (s.tiId u = s.tiId t) with
    | none =>
      have hnot := List.find?_eq_none.mp hf t ht
      simp at hnot
    | some u =>
      have hid : s.tiId u = s.tiId t := by simpa using List.find?_some hf
      rw [List.inj_on_of_nodup_map h.distinct (List.mem_of_find?_eq_some hf) ht hid]

/-! ### The calls -/

/-- The allocator changes and keeps what the threads have. -/
theorem Inv.pages_of_held {p : PageRun.State} (h : Inv mem s) (hp : PageRun.Inv mem p)
    (hheld : ∀ l ∈ TaskList.owned s, l ∈ p.live) : Inv mem { s with pages := p } :=
  ⟨hp, h.ring, h.owned, hheld, h.running, h.count, h.ids, h.distinct⟩

theorem toNat_length (h : Inv mem s) : (BitVec.ofNat 32 s.threads.length).toNat = s.threads.length := by
  have hle := h.length_le
  rw [BitVec.toNat_ofNat]
  exact Nat.mod_eq_of_lt (by omega)

theorem Inv.link {thread memp : Addr} {stacksize : Word} {p : PageRun.State} (h : Inv mem s)
    (hp : PageRun.Inv mem p) (hsz : sizeofThreadContextRegs ≤ stacksize ∧ stacksize.toNat ≤ 2048)
    (hlive : p.live = ⟨memp, ulongOrder stacksize⟩ :: infoLease thread :: s.pages.live) :
    Inv mem ({ s with pages := p }.link thread memp stacksize) := by
  have hnd := nodup_live hp
  rw [hlive] at hnd
  obtain ⟨hmemp, hnd⟩ := List.nodup_cons.mp hnd
  obtain ⟨hinfo, -⟩ := List.nodup_cons.mp hnd
  have hthread : thread ∉ s.threads := fun ht => hinfo (h.info_held ht)
  have hne : ∀ t ∈ s.threads, t ≠ thread := by
    rintro t ht rfl
    exact hthread ht
  set s' := { s with pages := p }.link thread memp stacksize with hs'
  have hself : stackLease s' thread = ⟨memp, ulongOrder stacksize⟩ := by
    simp [hs', stackLease, Task.link]
  have hother : ∀ t ∈ s.threads, stackLease s' t = stackLease s t := by
    intro t ht
    simp [hs', stackLease, Task.link, hne t ht]
  have hid : ∀ t ∈ s.threads, s'.tiId t = s.tiId t := fun t ht => Function.update_of_ne (hne t ht) _ _
  have hnew : s'.tiId thread = BitVec.ofNat 32 s.threads.length := (Function.update_self ..).trans h.count
  have howned : TaskList.owned s' = infoLease thread :: (s.threads.map infoLease ++
      ⟨memp, ulongOrder stacksize⟩ :: s.running.map (stackLease s)) := by
    show (thread :: s.threads).map infoLease ++ (thread :: s.running).map (stackLease s') = _
    rw [List.map_cons, List.map_cons, hself, List.cons_append]
    refine congrArg _ (congrArg _ (congrArg _ (List.map_congr_left fun t ht => ?_)))
    exact hother t (h.running t ht).1
  have hperm : (TaskList.owned s').Perm
      (⟨memp, ulongOrder stacksize⟩ :: infoLease thread :: TaskList.owned s) := by
    rw [howned]
    exact (List.perm_middle.cons _).trans (List.Perm.swap _ _ _)
  refine ⟨hp, ?_, ?_, fun l hl => ?_, fun t ht => ?_, ?_, fun t ht => ?_, ?_⟩
  · refine ring_listAdd h.ring ?_
    simp [threadHead, hthread]
  · rw [hperm.nodup_iff, List.nodup_cons, List.nodup_cons]
    refine ⟨fun hm => hmemp ?_, fun hm => hinfo (h.held _ hm), h.owned⟩
    exact (List.mem_cons.mp hm).elim (fun he => he ▸ List.mem_cons_self)
      fun hm => List.mem_cons_of_mem _ (h.held _ hm)
  · show l ∈ p.live
    rw [hlive]
    have hl' := hperm.mem_iff.mp hl
    simp only [List.mem_cons] at hl' ⊢
    exact hl'.imp_right fun hl => hl.imp_right (h.held l)
  · rcases List.mem_cons.mp ht with rfl | ht
    · refine ⟨List.mem_cons_self, ?_⟩
      simpa [hs', Task.link] using hsz
    · obtain ⟨hmem, hsize⟩ := h.running t ht
      refine ⟨List.mem_cons_of_mem _ hmem, ?_⟩
      simpa [hs', Task.link, hne t hmem] using hsize
  · show s.threadCount + 1 = BitVec.ofNat 32 (s.threads.length + 1)
    rw [h.count, BitVec.ofNat_add]
    rfl
  · rcases List.mem_cons.mp ht with rfl | ht
    · rw [hnew, toNat_length h]
      exact Nat.lt_succ_self _
    · rw [hid t ht]
      exact Nat.lt_succ_of_lt (h.ids t ht)
  · show ((thread :: s.threads).map s'.tiId).Nodup
    have hmap : s.threads.map s'.tiId = s.threads.map s.tiId := List.map_congr_left hid
    rw [List.map_cons, hmap, hnew, List.nodup_cons]
    refine ⟨fun hm => ?_, h.distinct⟩
    obtain ⟨t, ht, he⟩ := List.mem_map.mp hm
    have hlt := h.ids t ht
    rw [he, toNat_length h] at hlt
    exact lt_irrefl _ hlt

/-- A stack that is allocated is not larger than a block. -/
theorem size_le_of_allocate {p : PageRun.State} {stacksize : Word} {memp : Addr} (h : PageRun.Inv mem p)
    (ha : (allocate mem (ulongOrder stacksize) p).1 = some memp) : stacksize.toNat ≤ 2048 := by
  have hmem : ⟨memp, ulongOrder stacksize⟩ ∈ (allocate mem (ulongOrder stacksize) p).2.live := by
    rw [allocate_some ha]
    exact List.mem_cons_self
  have hle := ((inv_allocate h (ulongOrder stacksize)).valid _ hmem).order_le
  by_contra hlt
  rw [ulongOrder_of_lt (not_le.mp hlt)] at hle
  norm_num at hle

theorem Inv.create {stacksize : Word} {s' : Task} (h : Inv mem s) (hroom : sizeofThreadContextRegs ≤ stacksize)
    (hprov : Provided mem s (.create stacksize)) (he : threadCreate mem stacksize s = some s') : Inv mem s' := by
  unfold threadCreate at he
  have hinv := inv_allocate h.pages (ulongOrder intrStackSize)
  dsimp only [Provided] at he hprov
  cases hk : (allocate mem (ulongOrder intrStackSize) s.pages).1 with
  | none =>
    rw [hk] at he
    cases he
    exact h.pages_of_held hinv fun l hl => live_subset_allocate _ _ _ (h.held l hl)
  | some thread =>
    rw [hk] at he hprov
    obtain ⟨memp, ht⟩ := Option.isSome_iff_exists.mp (hprov rfl)
    dsimp only at he
    rw [ht] at he
    cases he
    refine h.link (inv_allocate hinv _) ⟨hroom, size_le_of_allocate hinv ht⟩ ?_
    rw [allocate_some ht, allocate_some hk]
    rfl

/-- The block of the stack is freed, wherever in the stack the pointer is. -/
theorem inv_release_stack {t psp : Addr} (hp : PageRun.Inv mem s.pages) (hheld : stackLease s t ∈ s.pages.live)
    (hroom : sizeofThreadContextRegs ≤ s.tiStacksize t) (hle : (s.tiStacksize t).toNat ≤ 2048)
    (hpsp : InStack s t psp) :
    PageRun.Inv mem (release mem (align psp (s.tiStacksize t).toNat) (stackLease s t) s.pages) := by
  obtain ⟨-, ho, hfits⟩ := ulongOrder_of_le hle
  have hpow : MIN_PAGE_SIZE * 2 ^ ulongOrder (s.tiStacksize t) =
      2 ^ (ulongOrder (s.tiStacksize t) + MIN_PAGE_SHIFT) := by
    rw [pow_add, mul_comm]
    rfl
  rw [hpow] at hfits
  have hpos : 0 < (s.tiStacksize t).toNat := lt_of_lt_of_le (by decide) (BitVec.le_def.mp hroom)
  refine inv_release hp hheld ?_
  rw [← div_of_mem_bytes (x := psp) hp hheld (lt_of_lt_of_le (hpsp hroom) hfits)]
  exact align_div psp hpos hfits (by simp only [stackLease, MIN_PAGE_SHIFT]; omega)

theorem Inv.release_stack {t psp : Addr} (h : Inv mem s) (ht : t ∈ s.running) (hpsp : InStack s t psp) :
    PageRun.Inv mem (release mem (align psp (s.tiStacksize t).toNat) (stackLease s t) s.pages) :=
  inv_release_stack h.pages (h.stack_held ht) (h.running t ht).2.1 (h.running t ht).2.2 hpsp

theorem Inv.exit {t psp : Addr} (h : Inv mem s) (ht : t ∈ s.running) (hpsp : InStack s t psp)
    (hd : s.tiDetached t = false) :
    Inv mem (threadExit mem t psp s) := by
  unfold threadExit
  dsimp only
  rw [if_pos hd]
  have hnd := h.nodup_running
  have hperm : (TaskList.owned s).Perm
      (stackLease s t :: (s.threads.map infoLease ++ (s.running.erase t).map (stackLease s))) := by
    refine List.Perm.trans ?_ List.perm_middle
    exact (((List.perm_cons_erase ht).map (stackLease s)).append_left _)
  have hrest := List.nodup_cons.mp (hperm.nodup_iff.mp h.owned)
  refine ⟨h.release_stack ht hpsp, h.ring, hrest.2, fun l hl => ?_,
    fun u hu => h.running u (List.mem_of_mem_erase hu), h.count, h.ids, h.distinct⟩
  have hne : l ≠ stackLease s t := by
    rintro rfl
    exact hrest.1 hl
  exact (List.mem_erase_of_ne hne).mpr (h.held l (hperm.mem_iff.mpr (List.mem_cons_of_mem _ hl)))

theorem Inv.page {c : Call} {s' : Task} (h : Inv mem s) (he : pageCall mem s c = some s') : Inv mem s' := by
  cases c with
  | alloc o =>
    cases he
    exact h.pages_of_held (inv_allocate h.pages o) fun l hl => live_subset_allocate _ _ _ (h.held l hl)
  | free addr o =>
    simp only [pageCall, Option.ite_none_right_eq_some, Option.some.injEq] at he
    obtain ⟨⟨hlive, hnot⟩, rfl⟩ := he
    refine h.pages_of_held (inv_release h.pages hlive rfl) fun l hl => ?_
    have hne : l ≠ ⟨addr, o⟩ := by
      rintro rfl
      exact hnot hl
    exact (List.mem_erase_of_ne hne).mpr (h.held l hl)

theorem Inv.write {t : Addr} {next prev : TiNode} {id : BitVec 32} (h : Inv mem s) (ht : t ∉ s.threads) :
    Inv mem { s with
      links := (s.links.setNext (.item t) next).setPrev (.item t) prev
      tiId := Function.update s.tiId t id } := by
  have hid : ∀ u ∈ s.threads, Function.update s.tiId t id u = s.tiId u := by
    intro u hu
    refine Function.update_of_ne ?_ _ _
    rintro rfl
    exact ht hu
  refine ⟨h.pages, ring_poison h.ring (by simp [threadHead, ht]), h.owned, h.held, h.running, h.count,
    fun u hu => ?_, ?_⟩
  · show (Function.update s.tiId t id u).toNat < _
    rw [hid u hu]
    exact h.ids u hu
  · show (s.threads.map (Function.update s.tiId t id)).Nodup
    rw [List.map_congr_left hid]
    exact h.distinct

theorem step_inv (mem : PgMem) (s : Task) (a : Act) (s' : Task) (h : Inv mem s)
    (hs : Roomy a ∧ Provided mem s a) (hc : NotDetached s a) (he : step mem s a = some s') : Inv mem s' := by
  cases a with
  | create stacksize => exact h.create hs.1 hs.2 he
  | detach fuel id =>
    simp only [step, threadDetach] at he
    split at he
    · cases he
      exact ⟨h.pages, h.ring, h.owned, h.held, h.running, h.count, h.ids, h.distinct⟩
    · cases he
  | join fuel id =>
    obtain ⟨r, -, rfl⟩ := Option.map_eq_some_iff.mp he
    exact h
  | exit t psp =>
    simp only [step, Option.ite_none_right_eq_some, Option.some.injEq] at he
    obtain ⟨⟨ht, hpsp⟩, rfl⟩ := he
    exact h.exit ht hpsp hc
  | page c => exact h.page he
  | write t next prev id =>
    simp only [step, Option.ite_none_left_eq_some, Option.some.injEq] at he
    obtain ⟨ht, rfl⟩ := he
    exact h.write ht

/-- A detached thread that exits stays on the list and does not exist. -/
theorem Inv.not_exact_exit {t psp : Addr} (h : Inv mem s) (ht : t ∈ s.running) (hpsp : InStack s t psp)
    (hd : s.tiDetached t = true) : ¬ Exact mem (threadExit mem t psp s) := by
  rintro ⟨⟨xs, hring, -, halloc⟩, -, -⟩
  have hmem := (h.running t ht).1
  have hne : infoLease t ≠ stackLease s t := by
    intro he
    have hinfo := List.mem_map_of_mem (f := infoLease) hmem
    rw [he] at hinfo
    exact (List.nodup_append.mp h.owned).2.2 _ hinfo _ (List.mem_map_of_mem ht) rfl
  have hrel := h.release_stack ht hpsp
  have hheld : infoLease t ∈ (release mem (align psp (s.tiStacksize t).toNat) (stackLease s t) s.pages).live :=
    (List.mem_erase_of_ne hne).mpr (h.info_held hmem)
  have hexit : threadExit mem t psp s = { s with
      running := s.running.erase t
      pages := release mem t (infoLease t) (release mem (align psp (s.tiStacksize t).toNat) (stackLease s t) s.pages)
      threads := s.threads.erase t } := by
    unfold threadExit
    dsimp only
    rw [if_neg (by rw [hd]; simp)]
  rw [hexit] at hring halloc
  have hxs := hring.unique h.ring
  have hpage := halloc t (by rw [hxs]; exact List.mem_map_of_mem hmem)
  exact not_allocated_of_release hrel hheld rfl hpage

theorem step_exact_iff {a : Act} {s' : Task} (h : Inv mem s) (hs : Roomy a ∧ Provided mem s a)
    (he : step mem s a = some s') : Exact mem s' ↔ NotDetached s a := by
  refine ⟨fun hex => ?_, fun hc => (step_inv mem s a s' h hs hc he).exact⟩
  cases a with
  | exit t psp =>
    simp only [step, Option.ite_none_right_eq_some, Option.some.injEq] at he
    obtain ⟨⟨ht, hpsp⟩, rfl⟩ := he
    by_contra hd
    exact h.not_exact_exit ht hpsp (Bool.eq_true_of_not_eq_false hd) hex
  | _ => trivial

/-! ### `Create.threadCreate` -/

/-- What `Create` has of the task: the pages, the heap, and the threads in one of the lists. -/
structure Shows (task : Word) (k : Create.Kernel) (s : Task) : Prop where
  pages : s.pages.pb = k.ram.pb
  heap : s.heap = k.heap
  count : s.threadCount = k.threadCount
  list : Ring k.lists (.head task) (s.threads.map .item)
  info : ∀ t ∈ s.threads, (k.info t).tiId = s.tiId t ∧ (k.info t).tiStacksize = s.tiStacksize t ∧
    (k.info t).tiDetached = s.tiDetached t

theorem allocate_pb (mem : PgMem) (o : ℕ) (p : PageRun.State) :
    (allocate mem o p).1 = (allocPages mem.start p.pb o).1 ∧
      (allocate mem o p).2.pb = (allocPages mem.start p.pb o).2 := by
  unfold allocate
  dsimp only
  cases (allocPages mem.start p.pb o).1 <;> exact ⟨rfl, rfl⟩

/-- The model of `thread_create` with the contexts in memory takes the same steps. -/
theorem threadCreate_shows {task pthreadExit startRoutine arg stacksize : Word} {priv : Create.ThreadPrivilege}
    {k k' : Create.Kernel} {r : Option Addr} (h : Inv mem s) (hk : Shows task k s)
    (he : Create.threadCreate mem pthreadExit startRoutine arg priv stacksize task k = some (r, k')) :
    ∃ s', threadCreate mem stacksize s = some s' ∧ s'.threads = r.toList ++ s.threads ∧ Shows task k' s' := by
  obtain ⟨hk1, hk2⟩ := allocate_pb mem (ulongOrder intrStackSize) s.pages
  rw [hk.pages] at hk1 hk2
  unfold Create.threadCreate allocInterruptStack at he
  unfold threadCreate
  dsimp only at he ⊢
  rw [hk1]
  cases hkcr : (allocPages mem.start k.ram.pb (ulongOrder intrStackSize)).1 with
  | none =>
    rw [hkcr] at he
    cases he
    exact ⟨_, rfl, rfl, hk2, hk.heap, hk.count, hk.list, hk.info⟩
  | some thread =>
    rw [hkcr] at he hk1
    have hinv := inv_allocate h.pages (ulongOrder intrStackSize)
    have hthread : Create.threadInfo (thread + intrStackSize - sizeofKernelContextRegs) = thread := by
      refine Create.threadInfo_eq (h.pages.alloc_aligned (k := 1) ?_)
      rw [hk.pages]
      exact hkcr
    obtain ⟨ht1, ht2⟩ := allocate_pb mem (ulongOrder stacksize) (allocate mem (ulongOrder intrStackSize) s.pages).2
    rw [hk2] at ht1 ht2
    unfold allocThreadStack at he
    dsimp only at he ⊢
    rw [hthread] at he
    rw [ht1]
    cases htcr : (allocPages mem.start (allocPages mem.start k.ram.pb (ulongOrder intrStackSize)).2
        (ulongOrder stacksize)).1 with
    | none =>
      rw [htcr] at he
      obtain ⟨heap, hfree, hpair⟩ := Option.map_eq_some_iff.mp he
      cases hpair
      dsimp only
      rw [hk.heap, hfree]
      exact ⟨_, rfl, rfl, ht2, rfl, hk.count, hk.list, hk.info⟩
    | some memp =>
      rw [htcr] at he
      cases he
      have hnew : thread ∉ s.threads := fun hmem => allocate_fresh h.pages hk1 (h.info_held hmem)
      refine ⟨_, rfl, rfl, ht2, hk.heap, congrArg (· + 1) hk.count, ring_listAdd hk.list ?_, fun t ht => ?_⟩
      · simp [hnew]
      · rcases List.mem_cons.mp ht with rfl | ht
        · simp [Task.link, Create.Kernel.prepare, hk.count]
        · have hne : t ≠ thread := fun hee => hnew (hee ▸ ht)
          simpa [Task.link, Create.Kernel.prepare, hne] using hk.info t ht

end

/-! ## Every run -/

theorem inv_init (mem : PgMem) (h : Heap) (l : Memory Unit Addr) (id : Addr → BitVec 32) :
    Inv mem (init h l id) where
  pages := PageRun.inv_boot mem
  ring := ring_initListHead threadHead l
  owned := List.nodup_nil
  held := fun l hl => by cases hl
  running := fun t ht => by cases ht
  count := rfl
  ids := fun t ht => by cases ht
  distinct := List.nodup_nil

/-- **The thread list.** In a run in which every stack has room for the first context and no
creation fails for want of a stack alone, the list is well formed in all states, holds the
threads that exist, each with its page, and is searched to the end, exactly when no detached
thread exits. -/
theorem runs_exact_iff (mem : PgMem) (h : Heap) (l : Memory Unit Addr) (id : Addr → BitVec 32) (as : List Act)
    (hs : ∀ x ∈ trace (step mem) (init h l id) as, Roomy x.act ∧ Provided mem x.pre x.act) :
    (∀ x ∈ trace (step mem) (init h l id) as, Exact mem x.post) ↔
      ∀ x ∈ trace (step mem) (init h l id) as, NotDetached x.pre x.act :=
  trace_forall_iff_of (I := Inv mem) (Q := fun _ _ s' => Exact mem s')
    (fun _ _ _ hI hS he => step_exact_iff hI hS he) (step_inv mem) (inv_init mem h l id) hs

/-- The main thread and one that exits and is looked for afterwards. -/
def joinedLate : List Act :=
  [.create 1024, .create 1024, .exit 0x20008200 0x20008be0, .join 3 1, .detach 3 1]

theorem runs_exact_iff_joinedLate :
    ∃ s, run (step pgMem64k) (init Create.bootHeap ⟨id, id⟩ fun _ => 0) joinedLate = some s ∧
      ∀ x ∈ trace (step pgMem64k) (init Create.bootHeap ⟨id, id⟩ fun _ => 0) joinedLate, Exact pgMem64k x.post :=
  ⟨_, rfl, (runs_exact_iff pgMem64k Create.bootHeap ⟨id, id⟩ (fun _ => 0) joinedLate (by decide +kernel)).mpr
    (by decide +kernel)⟩

/-- A thread is created, detached by the main thread and exits; the next thread gets
its page. The search for the main thread then does not end. And a thread with a stack of 16
bytes, its first context below the stack, frees half of its own page when it exits. -/
theorem page_linked_twice :
    (∃ s, run (step pgMem64k) (init Create.bootHeap ⟨id, id⟩ fun _ => 0)
        [.create 1024, .create 1024, .detach 3 1, .exit 0x20008200 0x20008be0, .create 1024] = some s ∧
      0x20008000 ∈ s.threads ∧ (∀ fuel, s.findThreadById fuel (s.tiId 0x20008000) = none) ∧ ¬ Exact pgMem64k s) ∧
    ∃ s, run (step pgMem64k) (init Create.bootHeap ⟨id, id⟩ fun _ => 0)
        [.create 16, .exit 0x20008000 0x200081f0] = some s ∧ 0x20008000 ∈ s.threads ∧ ¬ Exact pgMem64k s := by
  constructor
  · obtain ⟨s, hs, hmem, hfirst, hloop, hfits⟩ : ∃ s, run (step pgMem64k)
        (init Create.bootHeap ⟨id, id⟩ fun _ => 0)
        [.create 1024, .create 1024, .detach 3 1, .exit 0x20008200 0x20008be0, .create 1024] = some s ∧
        0x20008000 ∈ s.threads ∧ s.links.next threadHead = .item 0x20008200 ∧
        s.links.next (.item 0x20008200) = .item 0x20008200 ∧
        s.fits (s.tiId 0x20008000) (.item 0x20008200) = false :=
      ⟨_, rfl, by decide +kernel, by decide +kernel, by decide +kernel, by decide +kernel⟩
    have hnever : ∀ fuel, s.findThreadById fuel (s.tiId 0x20008000) = none := by
      intro fuel
      unfold Task.findThreadById
      rw [hfirst, search_loop (by simp [threadHead]) hfits hloop fuel]
      rfl
    refine ⟨s, hs, hmem, hnever, fun h => ?_⟩
    obtain ⟨fuel, hfuel⟩ := h.finds _ hmem
    rw [hnever fuel] at hfuel
    cases hfuel
  · obtain ⟨s, hs, hmem, hfree⟩ : ∃ s, run (step pgMem64k) (init Create.bootHeap ⟨id, id⟩ fun _ => 0)
        [.create 16, .exit 0x20008000 0x200081f0] = some s ∧ 0x20008000 ∈ s.threads ∧
        freeBit s.pages.pb 0 1 = true := ⟨_, rfl, by decide +kernel, by decide +kernel⟩
    refine ⟨s, hs, hmem, fun h => ?_⟩
    obtain ⟨xs, -, hperm, halloc⟩ := h.ring
    have hpage := halloc 0x20008000 (hperm.mem_iff.mpr (List.mem_map_of_mem hmem))
    exact hpage 1 rfl ⟨0, by norm_num, hfree⟩

end PikoRT.Thread.TaskList

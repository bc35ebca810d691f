import PikoRT.Thread.TaskList

/-! # The pages of the threads

Where the pages are at the end of a run, also of one in which detached threads exit and
the list of threads breaks. `thread_join` frees nothing: the page of a thread that is not
detached is never free again. Nor is the page that `thread_create` has found when it does
not find a stack. -/
namespace PikoRT.Thread.PageAccount
open PikoRT.Lib.Run PikoRT.Kernel.Bitops PikoRT.Kernel.LinuxList PikoRT.Mm PikoRT.Mm.Page
open PikoRT.Mm.PageRun (PgMem Lease Call FreePage pgMem64k)
open PikoRT.Mm.PageUse PikoRT.Thread.Stack PikoRT.Thread.TaskList
open PikoRT.Libc.Malloc (Heap)

/-- A step of a run of the threads of a task. -/
abbrev Taken := Transition Task Act

/-- The page that a `thread_create` found, and whether it found a stack, too. -/
def pageFound (mem : PgMem) (stacksize : Word) (s : Task) : Option (Addr × Bool) :=
  let kcr := allocate mem (ulongOrder intrStackSize) s.pages
  kcr.1.map fun thread => (thread, (allocate mem (ulongOrder stacksize) kcr.2).1.isSome)

/-- What no thread holds after a step: what the other users of the page allocator hold, and the
pages that were lost. -/
def elsewhere (mem : PgMem) (held : List Lease) (x : Taken) : List Lease :=
  match x.act with
  | .create stacksize =>
    match pageFound mem stacksize x.pre with
    | some (thread, false) => infoLease thread :: held
    | _ => held
  | .page (.alloc order) =>
    match (allocate mem order x.pre.pages).1 with
    | some addr => ⟨addr, order⟩ :: held
    | none => held
  | .page (.free addr order) => held.erase ⟨addr, order⟩
  | _ => held

/-- The same after all the steps of a run. -/
def otherBlocks (mem : PgMem) (steps : List Taken) : List Lease := steps.foldl (elsewhere mem) []

/-- The step is a `thread_create` that found a page for the thread and a stack. -/
def created (mem : PgMem) (x : Taken) : Bool :=
  match x.act with
  | .create stacksize => (pageFound mem stacksize x.pre).any Prod.snd
  | _ => false

/-- The step is the `thread_exit` of a detached thread. -/
def exitedDetached (x : Taken) : Bool :=
  match x.act with
  | .exit t _ => x.pre.tiDetached t
  | _ => false

def pagesOf (ls : List Lease) : ℕ := (ls.map fun l => 2 ^ l.order).sum

/-- The pages that the stacks of the running threads take. -/
def stackPages (s : Task) : ℕ := (s.running.map fun t => 2 ^ ulongOrder (s.tiStacksize t)).sum

/-! ## The invariant -/

/-- The blocks that are held are those of the threads and the others. -/
structure Accounts (mem : PgMem) (s : Task) (others : List Lease) : Prop where
  pages : PageRun.Inv mem s.pages
  held : s.pages.live.Perm (owned s ++ others)
  running : ∀ t ∈ s.running, t ∈ s.threads ∧ sizeofThreadContextRegs ≤ s.tiStacksize t ∧
    (s.tiStacksize t).toNat ≤ 2048

section

variable {mem : PgMem} {s s' : Task} {others : List Lease}

theorem Accounts.mem_live (h : Accounts mem s others) {l : Lease} (hl : l ∈ owned s) : l ∈ s.pages.live :=
  h.held.mem_iff.mpr (List.mem_append_left _ hl)

theorem Accounts.nodup (h : Accounts mem s others) : (owned s ++ others).Nodup :=
  h.held.nodup_iff.mp (nodup_live h.pages)

theorem Accounts.nodup_running (h : Accounts mem s others) : s.running.Nodup :=
  ((List.nodup_append.mp (List.nodup_append.mp h.nodup).1).2.1).of_map _

theorem Accounts.nodup_threads (h : Accounts mem s others) : s.threads.Nodup :=
  ((List.nodup_append.mp (List.nodup_append.mp h.nodup).1).1).of_map _

theorem Accounts.info_held (h : Accounts mem s others) {t : Addr} (ht : t ∈ s.threads) :
    infoLease t ∈ s.pages.live :=
  h.mem_live (List.mem_append_left _ (List.mem_map_of_mem ht))

theorem Accounts.stack_held (h : Accounts mem s others) {t : Addr} (ht : t ∈ s.running) :
    stackLease s t ∈ s.pages.live :=
  h.mem_live (List.mem_append_right _ (List.mem_map_of_mem ht))

/-- The blocks of the threads after `link`. -/
theorem owned_link {thread memp : Addr} {stacksize : Word} {p : PageRun.State}
    (hrun : ∀ t ∈ s.running, t ∈ s.threads) (hnew : thread ∉ s.threads) :
    (owned ({ s with pages := p }.link thread memp stacksize)).Perm
      (⟨memp, ulongOrder stacksize⟩ :: infoLease thread :: owned s) := by
  set s' := { s with pages := p }.link thread memp stacksize with hs'
  have hself : stackLease s' thread = ⟨memp, ulongOrder stacksize⟩ := by
    simp [hs', stackLease, Task.link]
  have hother : s.running.map (stackLease s') = s.running.map (stackLease s) := by
    refine List.map_congr_left fun t ht => ?_
    have hne : t ≠ thread := fun he => hnew (he ▸ hrun t ht)
    simp [hs', stackLease, Task.link, hne]
  have howned : owned s' = infoLease thread :: (s.threads.map infoLease ++
      ⟨memp, ulongOrder stacksize⟩ :: s.running.map (stackLease s)) := by
    show (thread :: s.threads).map infoLease ++ (thread :: s.running).map (stackLease s') = _
    rw [List.map_cons, List.map_cons, hself, hother, List.cons_append]
  rw [howned]
  exact (List.perm_middle.cons _).trans (List.Perm.swap _ _ _)

theorem Accounts.create {stacksize : Word} (h : Accounts mem s others) (hroom : sizeofThreadContextRegs ≤ stacksize)
    (he : threadCreate mem stacksize s = some s') :
    Accounts mem s' (elsewhere mem others ⟨s, .create stacksize, s'⟩) := by
  have hinv := inv_allocate h.pages (ulongOrder intrStackSize)
  unfold threadCreate at he
  dsimp only at he
  simp only [elsewhere, pageFound]
  cases hk : (allocate mem (ulongOrder intrStackSize) s.pages).1 with
  | none =>
    rw [hk] at he
    cases he
    refine ⟨hinv, ?_, h.running⟩
    show (allocate mem (ulongOrder intrStackSize) s.pages).2.live.Perm _
    rw [allocate_none hk]
    exact h.held
  | some thread =>
    rw [hk] at he
    dsimp only at he
    cases ht : (allocate mem (ulongOrder stacksize) (allocate mem (ulongOrder intrStackSize) s.pages).2).1 with
    | none =>
      -- the page is lost
      rw [ht] at he
      obtain ⟨heap, -, rfl⟩ := Option.map_eq_some_iff.mp he
      refine ⟨inv_allocate hinv _, ?_, h.running⟩
      show (allocate mem (ulongOrder stacksize) (allocate mem (ulongOrder intrStackSize) s.pages).2).2.live.Perm
        (owned s ++ infoLease thread :: others)
      rw [allocate_none ht, allocate_some hk]
      exact (h.held.cons _).trans List.perm_middle.symm
    | some memp =>
      rw [ht] at he
      cases he
      have hnew : thread ∉ s.threads := fun hmem => allocate_fresh h.pages hk (h.info_held hmem)
      have howned := @owned_link s thread memp stacksize
        (allocate mem (ulongOrder stacksize) (allocate mem (ulongOrder intrStackSize) s.pages).2).2
        (fun t ht => (h.running t ht).1) hnew
      refine ⟨inv_allocate hinv _, ?_, fun t hmem => ?_⟩
      · show (allocate mem (ulongOrder stacksize) (allocate mem (ulongOrder intrStackSize) s.pages).2).2.live.Perm
          (_ ++ others)
        rw [allocate_some ht, allocate_some hk]
        refine List.Perm.trans ?_ (howned.symm.append_right others)
        exact (h.held.cons _).cons _
      · rcases List.mem_cons.mp hmem with rfl | hmem
        · refine ⟨List.mem_cons_self, ?_⟩
          simp only [Task.link, Function.update_self]
          exact ⟨hroom, size_le_of_allocate hinv ht⟩
        · obtain ⟨hin, hsize⟩ := h.running t hmem
          have hne : t ≠ thread := fun heq => hnew (heq ▸ hin)
          refine ⟨List.mem_cons_of_mem _ hin, ?_⟩
          simpa [Task.link, hne] using hsize

/-- The blocks of a thread that exits come off the books: the stack, and when it was
detached the page. -/
theorem Accounts.exit {t psp : Addr} (h : Accounts mem s others) (ht : t ∈ s.running) (hpsp : InStack s t psp) :
    Accounts mem (threadExit mem t psp s) others := by
  obtain ⟨hmem, hroom, hle⟩ := h.running t ht
  have hrel := inv_release_stack h.pages (h.stack_held ht) hroom hle hpsp
  have hstacks : (owned s ++ others).Perm
      (stackLease s t :: (s.threads.map infoLease ++ (s.running.erase t).map (stackLease s) ++ others)) := by
    have hmiddle := ((List.perm_cons_erase ht).map (stackLease s)).append_left (s.threads.map infoLease)
    exact (hmiddle.trans List.perm_middle).append_right others
  have hlive : (s.pages.live.erase (stackLease s t)).Perm
      (s.threads.map infoLease ++ (s.running.erase t).map (stackLease s) ++ others) := by
    have herase := (h.held.trans hstacks).erase (stackLease s t)
    rwa [List.erase_cons_head] at herase
  unfold threadExit
  dsimp only
  cases hd : s.tiDetached t with
  | false =>
    rw [if_pos rfl]
    exact ⟨hrel, hlive, fun u hu => h.running u (List.mem_of_mem_erase hu)⟩
  | true =>
    rw [if_neg (by simp)]
    have hinfos : (s.threads.map infoLease ++ (s.running.erase t).map (stackLease s) ++ others).Perm
        (infoLease t :: ((s.threads.erase t).map infoLease ++ (s.running.erase t).map (stackLease s) ++ others)) :=
      (((List.perm_cons_erase hmem).map infoLease).append_right _).append_right _
    have hlive' := (hlive.trans hinfos).erase (infoLease t)
    rw [List.erase_cons_head] at hlive'
    refine ⟨inv_release hrel ((hlive.trans hinfos).mem_iff.mpr List.mem_cons_self) rfl, hlive', fun u hu => ?_⟩
    have hne : u ≠ t := (h.nodup_running.mem_erase_iff.mp hu).1
    obtain ⟨hin, hsz⟩ := h.running u (List.mem_of_mem_erase hu)
    exact ⟨(List.mem_erase_of_ne hne).mpr hin, hsz⟩

theorem Accounts.page {c : Call} (h : Accounts mem s others) (he : pageCall mem s c = some s') :
    Accounts mem s' (elsewhere mem others ⟨s, .page c, s'⟩) := by
  cases c with
  | alloc o =>
    cases he
    refine ⟨inv_allocate h.pages o, ?_, h.running⟩
    show (allocate mem o s.pages).2.live.Perm (owned s ++ elsewhere mem others _)
    cases ha : (allocate mem o s.pages).1 with
    | none =>
      simp only [elsewhere, ha, allocate_none ha]
      exact h.held
    | some addr =>
      simp only [elsewhere, ha, allocate_some ha]
      exact (h.held.cons _).trans List.perm_middle.symm
  | free addr o =>
    simp only [pageCall, Option.ite_none_right_eq_some, Option.some.injEq] at he
    obtain ⟨⟨hlive, hnot⟩, rfl⟩ := he
    refine ⟨inv_release h.pages hlive rfl, ?_, h.running⟩
    have herase := h.held.erase ⟨addr, o⟩
    rwa [List.erase_append_right _ hnot] at herase

theorem step_accounts (mem : PgMem) (s : Task) (others : List Lease) (a : Act) (s' : Task)
    (h : Accounts mem s others) (hroom : Roomy a) (he : step mem s a = some s') :
    Accounts mem s' (elsewhere mem others ⟨s, a, s'⟩) := by
  cases a with
  | create stacksize => exact h.create hroom he
  | detach fuel id =>
    simp only [step, threadDetach] at he
    split at he
    · cases he
      exact ⟨h.pages, h.held, h.running⟩
    · cases he
  | join fuel id =>
    obtain ⟨r, -, rfl⟩ := Option.map_eq_some_iff.mp he
    exact h
  | exit t psp =>
    simp only [step, Option.ite_none_right_eq_some, Option.some.injEq] at he
    obtain ⟨⟨ht, hpsp⟩, rfl⟩ := he
    exact h.exit ht hpsp
  | page c => exact h.page he
  | write t next prev id =>
    simp only [step, Option.ite_none_left_eq_some, Option.some.injEq] at he
    obtain ⟨-, rfl⟩ := he
    exact ⟨h.pages, h.held, h.running⟩

end

/-! ## Counting -/

section

variable {mem : PgMem} {s s' : Task} {others : List Lease}

/-- A step makes the threads more by one that is created, and fewer by a detached one that exits. -/
theorem step_threads (h : Accounts mem s others) {a : Act} (he : step mem s a = some s') :
    s.threads.length + (created mem ⟨s, a, s'⟩).toNat =
      (exitedDetached ⟨s, a, s'⟩).toNat + s'.threads.length := by
  cases a with
  | create stacksize =>
    simp only [step, threadCreate] at he
    simp only [created, exitedDetached, pageFound]
    cases hk : (allocate mem (ulongOrder intrStackSize) s.pages).1 with
    | none =>
      rw [hk] at he
      cases he
      simp
    | some thread =>
      rw [hk] at he
      dsimp only at he
      cases ht : (allocate mem (ulongOrder stacksize) (allocate mem (ulongOrder intrStackSize) s.pages).2).1 with
      | none =>
        rw [ht] at he
        obtain ⟨heap, -, rfl⟩ := Option.map_eq_some_iff.mp he
        simp
      | some memp =>
        rw [ht] at he
        cases he
        simp [Task.link]
  | detach fuel id =>
    simp only [step, threadDetach] at he
    split at he
    · cases he
      simp [created, exitedDetached]
    · cases he
  | join fuel id =>
    obtain ⟨r, -, rfl⟩ := Option.map_eq_some_iff.mp he
    simp [created, exitedDetached]
  | exit t psp =>
    simp only [step, Option.ite_none_right_eq_some, Option.some.injEq] at he
    obtain ⟨⟨ht, -⟩, rfl⟩ := he
    have hmem := (h.running t ht).1
    have hpos : 0 < s.threads.length := List.length_pos_of_mem hmem
    cases hd : s.tiDetached t with
    | false => simp [created, exitedDetached, threadExit, hd]
    | true =>
      simp only [created, exitedDetached, threadExit, hd, Bool.toNat_false, Bool.toNat_true, Bool.true_eq_false,
        if_false, List.length_erase_of_mem hmem]
      omega
  | page c =>
    cases c with
    | alloc o =>
      cases he
      simp [created, exitedDetached]
    | free addr o =>
      simp only [step, pageCall, Option.ite_none_right_eq_some, Option.some.injEq] at he
      obtain ⟨-, rfl⟩ := he
      simp [created, exitedDetached]
  | write t next prev id =>
    simp only [step, Option.ite_none_left_eq_some, Option.some.injEq] at he
    obtain ⟨-, rfl⟩ := he
    simp [created, exitedDetached]

theorem pagesOf_append (ls ms : List Lease) : pagesOf (ls ++ ms) = pagesOf ls + pagesOf ms := by
  simp [pagesOf]

/-- A thread has two pages, and its stack as many as its size needs. -/
theorem pagesOf_owned (s : Task) : pagesOf (owned s) = 2 * s.threads.length + stackPages s := by
  unfold owned
  rw [pagesOf_append]
  congr 1
  · unfold pagesOf
    rw [List.map_map]
    have hconst : ((fun l : Lease => 2 ^ l.order) ∘ infoLease) = Function.const Addr 2 := rfl
    rw [hconst, List.map_const, List.sum_replicate, smul_eq_mul, mul_comm]
  · unfold pagesOf stackPages
    rw [List.map_map]
    rfl

theorem Accounts.balance (h : Accounts mem s others) :
    {p | FreePage s.pages.pb p}.ncard + 2 * s.threads.length + stackPages s + pagesOf others = 120 := by
  have hcount := h.pages.ncard_freePage
  have hsum : (s.pages.live.map fun l => 2 ^ l.order).sum = pagesOf (owned s ++ others) :=
    (h.held.map fun l => 2 ^ l.order).sum_eq
  rw [hsum, pagesOf_append, pagesOf_owned] at hcount
  omega

end

theorem sum_toNat (p : Taken → Bool) (steps : List Taken) : (steps.map fun x => (p x).toNat).sum = steps.countP p := by
  induction steps with
  | nil => rfl
  | cons x steps ih =>
    rw [List.map_cons, List.sum_cons, ih, List.countP_cons, add_comm]
    cases p x <;> rfl

theorem accounts_init (mem : PgMem) (h : Heap) (l : Memory Unit Addr) (id : Addr → BitVec 32) :
    Accounts mem (init h l id) [] where
  pages := PageRun.inv_boot mem
  held := .refl _
  running := fun t ht => by cases ht

/-- **The pages are accounted for.** In every run in which the stacks have room for their first
contexts, whatever threads are created, detached, joined and exit in it, the blocks that are
held at the end are those of the threads, those that other users have got and not given back,
and those that were lost; all other pages are free; and a thread that was created keeps its
page unless it has exited detached, so that not more than 60 threads are created beyond those. -/
theorem runs_accounted (mem : PgMem) (h : Heap) (l : Memory Unit Addr) (id : Addr → BitVec 32) (as : List Act)
    (s : Task)
    (hroom : ∀ a ∈ as, Roomy a) (hr : run (step mem) (init h l id) as = some s) :
    s.pages.live.Perm (owned s ++ otherBlocks mem (trace (step mem) (init h l id) as)) ∧
    {p | FreePage s.pages.pb p}.ncard + 2 * s.threads.length + stackPages s +
      pagesOf (otherBlocks mem (trace (step mem) (init h l id) as)) = 120 ∧
    (trace (step mem) (init h l id) as).countP (created mem) =
      (trace (step mem) (init h l id) as).countP exitedDetached + s.threads.length ∧
    (trace (step mem) (init h l id) as).countP (created mem) ≤
      (trace (step mem) (init h l id) as).countP exitedDetached + 60 := by
  have hacc : Accounts mem s (otherBlocks mem (trace (step mem) (init h l id) as)) :=
    run_accumulates (step_accounts mem) (accounts_init mem h l id) hroom hr
  have hall : ∀ x ∈ trace (step mem) (init h l id) as,
      (∃ others, Accounts mem x.pre others) ∧ ∃ others, Accounts mem x.post others :=
    trace_invariant (I := fun s => ∃ others, Accounts mem s others) (C := fun _ a => Roomy a)
      (fun s a s' hI ha he => by
        obtain ⟨others, hI⟩ := hI
        exact ⟨_, step_accounts mem s others a s' hI ha he⟩)
      ⟨[], accounts_init mem h l id⟩ (fun x hx => hroom _ (act_mem_of_mem_trace hx))
  have hthreads : ∀ x ∈ trace (step mem) (init h l id) as,
      x.pre.threads.length + (created mem x).toNat = (exitedDetached x).toNat + x.post.threads.length := fun x hx => by
    obtain ⟨others, hI⟩ := (hall x hx).1
    exact step_threads hI (step_of_mem_trace hx)
  have hbal := run_balances (f := fun s => s.threads.length) hthreads hr
  have hzero : (init h l id).threads.length = 0 := rfl
  have hpages := hacc.balance
  simp only [sum_toNat, hzero] at hbal
  refine ⟨hacc.held, hpages, ?_, ?_⟩ <;> omega

/-- Two threads, of which one is detached and exits, a block for somebody else, and a thread
with a stack of 4096 bytes, which is not created. -/
def detachedExit : List Act :=
  [.create 1024, .create 1024, .detach 3 1, .page (.alloc 2), .exit 0x20008200 0x20008be0, .create 4096]

theorem runs_accounted_detachedExit : ∃ s,
    run (step pgMem64k) (init Create.bootHeap ⟨id, id⟩ fun _ => 0) detachedExit = some s ∧
    s.pages.live.Perm (owned s ++
      otherBlocks pgMem64k (trace (step pgMem64k) (init Create.bootHeap ⟨id, id⟩ fun _ => 0) detachedExit)) :=
  ⟨_, rfl, (runs_accounted pgMem64k Create.bootHeap ⟨id, id⟩ (fun _ => 0) detachedExit _ (by decide) rfl).1⟩

end PikoRT.Thread.PageAccount

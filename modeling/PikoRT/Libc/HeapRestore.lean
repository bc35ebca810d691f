import PikoRT.Libc.HeapRun

/-! # Giving back what was obtained

The blocks in use determine the block list, and `malloc` looks at nothing but the block
list. So pointers that are freed, in whatever order, leave the list as it was before
they were obtained, and the same requests are then given the same pointers. -/
namespace PikoRT.Libc.HeapRestore
open PikoRT.Lib.Run PikoRT.Lib.Tiling PikoRT.Kernel.Bitops PikoRT.Kernel.LinuxList
open PikoRT.Libc.Malloc PikoRT.Libc.Blocks PikoRT.Libc.HeapRun

variable {g : Region} {s t u : State} {xs ys zs : List Seg}

/-- The blocks in use but for those of the users of `ps`. -/
def Without (ps : List ℕ) (xs ys : List Seg) : Prop := ∀ z, z ∈ live ys ↔ z ∈ live xs ∧ payload z ∉ ps

theorem without_nil (xs : List Seg) : Without [] xs xs := fun z => by simp

theorem Without.trans {ps qs : List ℕ} (h : Without ps xs ys) (h' : Without qs ys zs) :
    Without (ps ++ qs) xs zs := by
  intro z
  rw [h' z, h z, List.mem_append]
  tauto

theorem Without.of_perm {ps qs : List ℕ} (h : Without ps xs ys) (hp : ps.Perm qs) : Without qs xs ys := by
  intro z
  rw [h z, hp.mem_iff]

/-- One block less. -/
theorem without_of_perm {w : Seg} (hnd : ((live xs).map payload).Nodup) (hp : (live xs).Perm (w :: live ys)) :
    Without [payload w] xs ys := by
  have hw : payload w ∉ (live ys).map payload := by
    rw [(hp.map payload).nodup_iff, List.map_cons] at hnd
    exact (List.nodup_cons.mp hnd).1
  intro z
  rw [hp.mem_iff, List.mem_cons, List.mem_singleton]
  constructor
  · intro hz
    refine ⟨.inr hz, fun he => hw ?_⟩
    rw [← he]
    exact List.mem_map_of_mem hz
  · rintro ⟨rfl | hz, hne⟩
    · exact absurd rfl hne
    · exact hz

/-- The first request is granted, and the others are granted after it. -/
theorem mallocs_cons_some {fuel : ℕ} {n : Word} {ns : List Word} {ptrs : List ℕ}
    (h : mallocs fuel (n :: ns) s = some (ptrs, t)) :
    ∃ ptr k qs, malloc fuel n s.heap = some (some ptr, k) ∧
      mallocs fuel ns ⟨k, ⟨ptr, n⟩ :: s.live⟩ = some (qs, t) ∧ ptrs = ptr :: qs := by
  obtain ⟨r, hr, h⟩ := Option.bind_eq_some_iff.mp h
  obtain ⟨ptr, hptr, h⟩ := Option.bind_eq_some_iff.mp h
  obtain ⟨q, hq, he⟩ := Option.map_eq_some_iff.mp h
  cases he
  exact ⟨ptr, r.2, q.1, hr.trans (congrArg some (Prod.ext hptr rfl)), hq, rfl⟩

/-- Requests that are granted add their blocks. -/
theorem inv_mallocs {fuel : ℕ} {sizes : List Word} {ptrs : List ℕ} (hi : Inv g s xs)
    (hm : ∀ n ∈ sizes, Modest n) (h : mallocs fuel sizes s = some (ptrs, t)) :
    ∃ ys, Inv g t ys ∧ Without ptrs ys xs ∧
      (t.live.map Allocation.ptr).Perm (ptrs ++ s.live.map Allocation.ptr) := by
  induction sizes generalizing s xs ptrs with
  | nil =>
    cases h
    exact ⟨xs, hi, without_nil xs, .refl _⟩
  | cons n ns ih =>
    obtain ⟨ptr, k, qs, hr, hq, rfl⟩ := mallocs_cons_some h
    rcases inv_malloc hi (hm n List.mem_cons_self) hr with ⟨w, ys, -, hw, hinv, hp⟩ | ⟨-, hnone⟩
    · obtain rfl : payload w = ptr := Option.some.inj hw.symm
      obtain ⟨zs, hz, hwz, hl⟩ := ih hinv (fun m hm' => hm m (List.mem_cons_of_mem _ hm')) hq
      refine ⟨zs, hz, ?_, hl.trans List.perm_middle⟩
      exact (hwz.trans (without_of_perm hinv.nodup_payload hp)).of_perm List.perm_append_comm
    · cases hnone

/-- Pointers that are freed take their blocks with them. -/
theorem inv_frees {ps qs : List ℕ} (hi : Inv g t ys) (hl : (t.live.map Allocation.ptr).Perm (ps ++ qs)) :
    ∃ u zs, run step t (ps.map .free) = some u ∧ Inv g u zs ∧ Without ps ys zs := by
  induction ps generalizing t ys with
  | nil => exact ⟨t, ys, rfl, hi, without_nil ys⟩
  | cons p ps ih =>
    obtain ⟨v, hv, rfl⟩ := List.mem_map.mp (hl.mem_iff.mpr List.mem_cons_self)
    obtain ⟨h', w, zs, he, hw, hinv, hp⟩ := inv_free hi hv
    have hrest : ((t.live.eraseP fun x => decide (x.ptr = v.ptr)).map Allocation.ptr).Perm (ps ++ qs) := by
      have hboth := (hl.symm.trans hi.users).trans (hp.map payload)
      rw [List.map_cons, ← hw] at hboth
      exact hinv.users.trans hboth.cons_inv.symm
    obtain ⟨u, us, hrun, hu, hwu⟩ := ih hinv hrest
    refine ⟨u, us, ?_, hu, ?_⟩
    · rw [List.map_cons, run_cons, step, if_pos ⟨v, hv, rfl⟩, he]
      exact hrun
    · have hone := without_of_perm hi.nodup_payload hp
      rw [← hw] at hone
      exact hone.trans hwu

/-! ## The same requests again -/

theorem malloc_mono {fuel fuel' : ℕ} {size : Word} {h : Heap} {r : Option ℕ × Heap} (hle : fuel ≤ fuel')
    (he : malloc fuel size h = some r) : malloc fuel' size h = some r := mallocFrom_mono hle he

theorem mallocs_mono {fuel fuel' : ℕ} {sizes : List Word} {q : List ℕ × State} (hle : fuel ≤ fuel')
    (h : mallocs fuel sizes s = some q) : mallocs fuel' sizes s = some q := by
  induction sizes generalizing s q with
  | nil => exact h
  | cons n ns ih =>
    obtain ⟨r, hr, h⟩ := Option.bind_eq_some_iff.mp h
    obtain ⟨ptr, hptr, h⟩ := Option.bind_eq_some_iff.mp h
    obtain ⟨p, hp, rfl⟩ := Option.map_eq_some_iff.mp h
    rw [mallocs, malloc_mono hle hr, Option.bind_some, hptr, Option.bind_some, ih hp]
    rfl

/-- Two heaps with the same blocks answer in the same way. -/
theorem malloc_again {fuel ptr : ℕ} {size : Word} {h : Heap} (hs : Inv g s xs) (hu : Inv g u xs)
    (hm : Modest size) (he : malloc fuel size s.heap = some (some ptr, h)) :
    ∃ n k ys, malloc n size u.heap = some (some ptr, k) ∧ Inv g ⟨h, ⟨ptr, size⟩ :: s.live⟩ ys ∧
      Inv g ⟨k, ⟨ptr, size⟩ :: u.live⟩ ys := by
  obtain ⟨r, hr⟩ := mallocFrom_some (blockSize size) hu.layout (Region.stop_lt g) hu.holds
  rcases inv_malloc hs hm he with ⟨w, ys, hc, hw, hinv, -⟩ | ⟨-, hnone⟩
  · obtain rfl : payload w = ptr := Option.some.inj hw.symm
    rcases inv_malloc hu hm hr with ⟨w', ys', hc', hw', hinv', -⟩ | ⟨hnone, -⟩
    · rw [hc] at hc'
      obtain ⟨haddr, rfl⟩ := Prod.mk.inj (Option.some.inj hc')
      have hpay : payload w' = payload w := congrArg (· + sizeofMallocTag) haddr.symm
      rw [hpay] at hw' hinv'
      exact ⟨_, r.2, ys, hr.trans (congrArg some (Prod.ext hw' rfl)), hinv, hinv'⟩
    · rw [hc] at hnone
      cases hnone
  · cases hnone

theorem mallocs_again {fuel : ℕ} {sizes : List Word} {ptrs : List ℕ} (hs : Inv g s xs) (hu : Inv g u xs)
    (hm : ∀ n ∈ sizes, Modest n) (h : mallocs fuel sizes s = some (ptrs, t)) :
    ∃ n v, mallocs n sizes u = some (ptrs, v) := by
  induction sizes generalizing s u xs ptrs with
  | nil =>
    cases h
    exact ⟨fuel, u, rfl⟩
  | cons n ns ih =>
    obtain ⟨ptr, k, qs, hr, hq, rfl⟩ := mallocs_cons_some h
    obtain ⟨i, l, ys, hk, hinv, hinv'⟩ := malloc_again hs hu (hm n List.mem_cons_self) hr
    obtain ⟨j, v, hv⟩ := ih hinv hinv' (fun m hm' => hm m (List.mem_cons_of_mem _ hm')) hq
    refine ⟨max i j, v, ?_⟩
    rw [mallocs, malloc_mono (le_max_left i j) hk]
    simp only [Option.bind_some]
    rw [mallocs_mono (le_max_right i j) hv]
    rfl

/-! ## The block list -/

/-- The block list of the state: addresses, lengths and flags. -/
def BlockList (s : State) (xs : List Seg) : Prop := Holds s.heap xs ∧ Short xs

theorem blockList_of_inv (hi : Inv g s xs) : BlockList s xs := ⟨hi.holds, hi.short⟩

theorem BlockList.unique (hx : BlockList s xs) (hy : BlockList s ys) : xs = ys := hx.1.unique hy.1 hx.2 hy.2

/-- When these requests are granted and what they were given is freed, in any order,
the block list is what it was, and the same requests get the same pointers again. -/
def Restores (s : State) (sizes : List Word) : Prop :=
  ∀ fuel ptrs t, mallocs fuel sizes s = some (ptrs, t) → ∀ ps : List ℕ, ps.Perm ptrs →
    ∃ u, run step t (ps.map .free) = some u ∧ (∀ xs, BlockList s xs ↔ BlockList u xs) ∧
      ∃ n v, mallocs n sizes u = some (ptrs, v)

theorem restores_of_inv {sizes : List Word} (hi : Inv g s xs) (hm : ∀ n ∈ sizes, Modest n) :
    Restores s sizes := by
  intro fuel ptrs t ht ps hps
  obtain ⟨ys, hj, hwy, hl⟩ := inv_mallocs hi hm ht
  obtain ⟨u, zs, hrun, hk, hwz⟩ := inv_frees hj (hl.trans (hps.symm.append_right _))
  -- both lists have the blocks that were in use before
  have hsame : xs = zs := by
    refine hi.layout.unique hk.layout fun z => ?_
    rw [hwy z, hwz z, hps.mem_iff]
  subst hsame
  refine ⟨u, hrun, fun xs' => ?_, mallocs_again hi hk hm ht⟩
  constructor
  · intro hx
    exact hx.unique (blockList_of_inv hi) ▸ blockList_of_inv hk
  · intro hx
    exact hx.unique (blockList_of_inv hk) ▸ blockList_of_inv hi

/-- **What is given back restores the heap.** In the states of the runs in which no
request with its tag overflows, there is a block list, the blocks in use determine it,
whatever run led to it, and requests that do not overflow can be undone. -/
theorem runs_restore (g : Region) (mem : Heap) (as : List Act) (has : ∀ a ∈ as, Act.Modest a) (s : State)
    (h : run step (init g mem) as = some s) :
    (∃ xs, BlockList s xs) ∧
    (∀ mem' bs t, (∀ b ∈ bs, Act.Modest b) → run step (init g mem') bs = some t →
      ∀ xs ys, BlockList s xs → BlockList t ys → (∀ z, z ∈ live xs ↔ z ∈ live ys) → xs = ys) ∧
    ∀ sizes, (∀ n ∈ sizes, Modest n) → Restores s sizes := by
  obtain ⟨xs, hi⟩ := run_inv h has
  refine ⟨⟨xs, blockList_of_inv hi⟩, ?_, fun sizes hm => restores_of_inv hi hm⟩
  intro mem' bs t hbs ht xs' ys' hx hy hl
  obtain ⟨ys, hj⟩ := run_inv ht hbs
  obtain rfl := hx.unique (blockList_of_inv hi)
  obtain rfl := hy.unique (blockList_of_inv hj)
  exact hi.layout.unique hj.layout hl

theorem runs_restore_small :
    ∃ s t, run step (init smallRegion zeroed) [.malloc 2 8#32] = some s ∧
      mallocs 2 [4#32, 8#32] s = some ([0x20000028, 0x2000000C], t) ∧ Restores s [4#32, 8#32] := by
  have hptrs : ((run step (init smallRegion zeroed) [.malloc 2 8#32]).bind fun s =>
      (mallocs 2 [4#32, 8#32] s).map Prod.fst) = some [0x20000028, 0x2000000C] := by decide +kernel
  obtain ⟨s, hs, hq⟩ := Option.bind_eq_some_iff.mp hptrs
  obtain ⟨⟨ptrs, t⟩, ht, rfl⟩ := Option.map_eq_some_iff.mp hq
  have hmodest : ∀ a ∈ [Act.malloc 2 8#32], Act.Modest a := by simp [Act.Modest, Modest]
  have hrestore := runs_restore smallRegion zeroed _ hmodest s hs
  exact ⟨s, t, hs, ht, hrestore.2.2 _ (by simp [Modest])⟩

/-- What the links of a heap say from the head on, for three steps. -/
def walk (h : Heap) : Node Unit ℕ × Node Unit ℕ × Node Unit ℕ :=
  let a := h.links.next blocks
  let b := h.links.next a
  (a, b, h.links.next b)

/-- A request that overflows is given the block of another user; when it is freed, the
list ends at a node that has been taken off it. -/
theorem wrapped_malloc_not_restored :
    ∃ s, run step (init smallRegion zeroed) [.malloc 2 8#32] = some s ∧ (∃ xs, BlockList s xs) ∧
      ¬ Restores s [0xFFFFFFF4#32] := by
  have heval : ((run step (init smallRegion zeroed) [.malloc 2 8#32]).bind fun s =>
      (mallocs 2 [0xFFFFFFF4#32] s).bind fun q => (run step q.2 [.free 0x20000038]).map fun u =>
        (q.1, walk u.heap)) =
      some ([0x20000038], .item 0x20000000, .item 0x2000002C, .poison1) := by decide +kernel
  obtain ⟨s, hs, h⟩ := Option.bind_eq_some_iff.mp heval
  obtain ⟨⟨ptrs, t⟩, ht, h⟩ := Option.bind_eq_some_iff.mp h
  obtain ⟨u, hu, hw⟩ := Option.map_eq_some_iff.mp h
  obtain ⟨rfl, hwalk⟩ := Prod.mk.inj hw
  have hmodest : ∀ a ∈ [Act.malloc 2 8#32], Act.Modest a := by simp [Act.Modest, Modest]
  obtain ⟨xs, hi⟩ := run_inv hs hmodest
  refine ⟨s, hs, ⟨xs, blockList_of_inv hi⟩, fun hrestores => ?_⟩
  obtain ⟨u', hu', hsame, -⟩ := hrestores 2 _ t ht [0x20000038] (.refl _)
  obtain rfl : u' = u := Option.some.inj (hu'.symm.trans hu)
  have hring := ((hsame xs).mp (blockList_of_inv hi)).1.ring
  have hmem := hring.next_mem (hring.next_mem (hring.next_mem List.mem_cons_self))
  have hend : u'.heap.links.next (u'.heap.links.next (u'.heap.links.next blocks)) = .poison1 :=
    congrArg (fun w => w.2.2) hwalk
  rw [hend] at hmem
  simp [blocks, nodes] at hmem

end PikoRT.Libc.HeapRestore

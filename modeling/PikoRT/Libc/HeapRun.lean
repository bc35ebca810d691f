import PikoRT.Libc.Blocks

/-! # Runs of the heap

The block list tiles the heap in every state that calls of `malloc` and `free` lead to,
with writes of the users to their own memory in between, as long as no request is so
large that adding the tag to it overflows. The blocks in use then determine the list,
so that giving back what was obtained restores it. -/
namespace PikoRT.Libc.HeapRun
open PikoRT.Lib.Rings PikoRT.Lib.Run PikoRT.Lib.Tiling PikoRT.Kernel.Bitops PikoRT.Kernel.LinuxList
open PikoRT.Libc.Malloc PikoRT.Libc.Blocks

/-! ## The size of a block -/

theorem toNat_and_not_three (w : Word) : (w &&& ~~~3#32).toNat = w.toNat / 4 * 4 := toNat_and_not_lowMask w 2

/-- The request with its tag does not overflow. -/
def Modest (size : Word) : Prop := size.toNat ≤ 2 ^ 32 - 16

theorem toNat_blockSize {size : Word} (hm : Modest size) :
    (blockSize size).toNat = (size.toNat + 3) / 4 * 4 + sizeofMallocTag := by
  unfold Modest at hm
  have hadd : (size + 3).toNat = size.toNat + 3 := by
    rw [BitVec.toNat_add]
    exact Nat.mod_eq_of_lt (by simp; omega)
  unfold blockSize alignNext
  rw [BitVec.toNat_add, toNat_and_not_three, hadd]
  unfold sizeofMallocTag
  exact Nat.mod_eq_of_lt (by simp; omega)

/-! ## The invariant -/

/-- The address that the user of a block has. -/
def payload (x : Seg) : ℕ := x.addr + sizeofMallocTag

def Region.stop (g : Region) : ℕ := g.start + g.size.toNat

theorem Region.stop_lt (g : Region) : Region.stop g < g.start + 2 ^ 30 := by
  have := g.atMost
  unfold Region.stop
  omega

/-- The state of the heap with the blocks `xs`. -/
structure Inv (g : Region) (s : State) (xs : List Seg) : Prop where
  holds : Holds s.heap xs
  layout : Layout g.start (Region.stop g) xs
  sizes : ∀ x ∈ xs, sizeofMallocTag ≤ x.len ∧ 4 ∣ x.len
  /-- The blocks in use are the allocations. -/
  users : (s.live.map Allocation.ptr).Perm ((live xs).map payload)
  room : ∀ u ∈ s.live, ∃ x ∈ live xs, u.ptr = payload x ∧ payload x + u.size.toNat ≤ x.addr + x.len

section

variable {g : Region} {s t : State} {xs ys us vs : List Seg} {x y : Seg}

theorem Inv.short (hi : Inv g s xs) : Short xs := short_of_tiles hi.layout.tiles (Region.stop_lt g)

theorem Inv.distinct (hi : Inv g s xs) : Distinct xs := distinct_of_tiles hi.layout.tiles hi.layout.pos

theorem Inv.nodup (hi : Inv g s xs) : xs.Nodup := hi.distinct.imp fun hne he => hne (congrArg Seg.addr he)

/-- Blocks in use have different payloads. -/
theorem Inv.nodup_payload (hi : Inv g s xs) : ((live xs).map payload).Nodup := by
  refine List.pairwise_map.mpr ((hi.distinct.sublist List.filter_sublist).imp ?_)
  intro x y hne he
  unfold payload at he
  omega

theorem Inv.nodup_ptr (hi : Inv g s xs) : (s.live.map Allocation.ptr).Nodup :=
  hi.users.nodup_iff.mpr hi.nodup_payload

theorem inv_init (g : Region) (mem : Heap) : Inv g (init g mem) [⟨g.start, g.size.toNat, true⟩] := by
  have hmost := g.atMost
  have hleast := g.atLeast
  refine ⟨⟨?_, ?_⟩, ⟨⟨rfl, rfl⟩, List.isChain_singleton _, ?_⟩, ?_, List.Perm.nil, fun u hu => (nomatch hu)⟩
  · exact ring_listAdd (ring_initListHead blocks mem.links) (by simp [blocks])
  · intro x hx
    cases List.mem_singleton.mp hx
    show (setFreeLength g.start _ _).freeLength g.start = _
    rw [setFreeLength_self]
    unfold encode
    rw [if_pos rfl, BitVec.ofNat_toNat, BitVec.setWidth_eq]
  · intro x hx
    cases List.mem_singleton.mp hx
    show 0 < g.size.toNat
    omega
  · intro x hx
    cases List.mem_singleton.mp hx
    exact ⟨show 12 ≤ g.size.toNat by omega, g.words⟩

/-! ## The steps -/

theorem cutSeg_addr (tag n : ℕ) (x : Seg) : (cutSeg tag n x).addr = cutAddr tag n x := by
  unfold cutSeg cutAddr
  split <;> rfl

theorem le_cutSeg_len {tag n : ℕ} (hx : fits n x = true) : n ≤ (cutSeg tag n x).len := by
  have hx' : x.free = true ∧ n ≤ x.len := by simpa [fits] using hx
  unfold cutSeg
  split
  · exact le_rfl
  · exact hx'.2

/-- Both parts of a block that is cut are blocks. -/
theorem sizes_cut {n : ℕ} (hx : fits n x = true) (hxs : sizeofMallocTag ≤ x.len ∧ 4 ∣ x.len)
    (hn : sizeofMallocTag ≤ n ∧ 4 ∣ n) : ∀ y ∈ cut sizeofMallocTag n x, sizeofMallocTag ≤ y.len ∧ 4 ∣ y.len := by
  have hx' : x.free = true ∧ n ≤ x.len := by simpa [fits] using hx
  unfold cut
  split
  · rename_i hlt
    intro y hy
    rcases List.mem_pair.mp hy with rfl | rfl
    · exact ⟨hlt.le, Nat.dvd_sub hxs.2 hn.2⟩
    · exact hn
  · intro y hy
    cases List.mem_singleton.mp hy
    exact hxs

/-- **`malloc` keeps the invariant**, and adds the block it returns. -/
theorem inv_malloc {size : Word} {fuel : ℕ} {r : Option ℕ × Heap} (hi : Inv g s xs) (hm : Modest size)
    (he : malloc fuel size s.heap = some r) :
    (∃ w ys, carve sizeofMallocTag (blockSize size).toNat xs = some (w.addr, ys) ∧ r.1 = some (payload w) ∧
      Inv g ⟨r.2, ⟨payload w, size⟩ :: s.live⟩ ys ∧ (live ys).Perm (w :: live xs)) ∨
    carve sizeofMallocTag (blockSize size).toNat xs = none ∧ r = (none, s.heap) := by
  have hsize := toNat_blockSize hm
  have htag : sizeofMallocTag = 12 := rfl
  rcases mallocFrom_carve hi.layout (Region.stop_lt g) hi.holds (by omega) he with
    ⟨us, x, vs, rfl, hx, hcarve, hptr, hholds⟩ | hnone
  · let w := cutSeg sizeofMallocTag (blockSize size).toNat x
    have hw : w.addr = cutAddr sizeofMallocTag (blockSize size).toNat x := cutSeg_addr ..
    have hperm : (live (us ++ (cut sizeofMallocTag (blockSize size).toNat x ++ vs))).Perm
        (w :: live (us ++ x :: vs)) := live_carve hx
    rw [← hw] at hcarve hptr
    refine .inl ⟨w, _, hcarve, hptr, ⟨hholds, hi.layout.carve hx (by omega), ?_, ?_, ?_⟩, hperm⟩
    · intro y hy
      rcases List.mem_append.mp hy with hy | hy
      · exact hi.sizes y (List.mem_append_left _ hy)
      · rcases List.mem_append.mp hy with hy | hy
        · exact sizes_cut hx (hi.sizes x (by simp)) ⟨by omega, by omega⟩ y hy
        · exact hi.sizes y (List.mem_append_right _ (List.mem_cons_of_mem _ hy))
    · exact (List.Perm.cons _ hi.users).trans (hperm.map payload).symm
    · intro u hu
      rcases List.mem_cons.mp hu with rfl | hu
      · refine ⟨w, hperm.mem_iff.mpr List.mem_cons_self, rfl, ?_⟩
        have hle : (blockSize size).toNat ≤ w.len := le_cutSeg_len hx
        show w.addr + sizeofMallocTag + size.toNat ≤ w.addr + w.len
        omega
      · obtain ⟨y, hy, hroom⟩ := hi.room u hu
        exact ⟨y, hperm.mem_iff.mpr (List.mem_cons_of_mem _ hy), hroom⟩
  · exact .inr hnone

/-- The joined block is a block. -/
theorem sizes_join {m : Seg} {ms : List Seg} (hi : Inv g s xs) (hj : Joins xs x us ms m vs) :
    sizeofMallocTag ≤ m.len ∧ 4 ∣ m.len := by
  have hmem : ∀ y, y ∈ us ∨ y ∈ ms → y ∈ xs := by
    intro y hy
    rw [hj.split, List.mem_append, List.mem_append]
    tauto
  constructor
  · have := hj.tiles.mem hj.mem
    have := (hi.sizes x (hmem x (.inr hj.mem))).1
    omega
  · have hstart : 4 ∣ m.addr :=
      (hj.ends hi.layout.tiles).1.dvd_end g.aligned fun y hy => (hi.sizes y (hmem y (.inl hy))).2
    have hstop := hj.tiles.dvd_end hstart fun y hy => (hi.sizes y (hmem y (.inr hy))).2
    exact (Nat.dvd_add_right hstart).mp hstop

/-- **`free` keeps the invariant**, and takes the block away. -/
theorem inv_free {u : Allocation} (hi : Inv g s xs) (hu : u ∈ s.live) :
    ∃ h' w ys, free u.ptr s.heap = some h' ∧ u.ptr = payload w ∧
      Inv g ⟨h', s.live.eraseP fun v => decide (v.ptr = u.ptr)⟩ ys ∧ (live xs).Perm (w :: live ys) := by
  obtain ⟨x, hx, hptr, -⟩ := hi.room u hu
  obtain ⟨hx, hxf⟩ := mem_live.mp hx
  obtain ⟨h', us, ms, m, vs, he, hholds, hj, hlay⟩ := free_spec hi.layout (Region.stop_lt g) hi.holds hx
  have hperm := hj.live_perm hxf hi.nodup
  obtain ⟨v, ls, rs, -, hv, hlive, herase⟩ :=
    List.exists_of_eraseP (p := fun v : Allocation => decide (v.ptr = u.ptr)) hu (by simp)
  have hvptr : v.ptr = u.ptr := of_decide_eq_true hv
  have hptrs : (s.live.map Allocation.ptr).Perm (u.ptr :: (ls ++ rs).map Allocation.ptr) := by
    rw [hlive, ← hvptr]
    exact List.perm_middle.map Allocation.ptr
  refine ⟨h', x, _, hptr ▸ he, hptr, ⟨hholds, hlay, ?_, ?_, ?_⟩, hperm⟩
  · intro y hy
    rcases List.mem_append.mp hy with hy | hy
    · exact hi.sizes y (hj.split ▸ List.mem_append_left _ hy)
    · rcases List.mem_cons.mp hy with rfl | hy
      · exact sizes_join hi hj
      · exact hi.sizes y (hj.split ▸ List.mem_append_right _ (List.mem_append_right _ hy))
  · rw [herase]
    have hboth := (hptrs.symm.trans hi.users).trans (hperm.map payload)
    rw [List.map_cons, ← hptr] at hboth
    exact hboth.cons_inv
  · -- the other allocations have other blocks
    intro z hz
    rw [herase] at hz
    obtain ⟨y, hy, hzy, hroom⟩ := hi.room z ((List.mem_append.mp hz).elim
      (fun hl => hlive ▸ List.mem_append_left _ hl)
      fun hr => hlive ▸ List.mem_append_right _ (List.mem_cons_of_mem _ hr))
    have hne : y ≠ x := by
      rintro rfl
      have hnd := (List.nodup_cons.mp (hptrs.nodup_iff.mp hi.nodup_ptr)).1
      refine hnd ?_
      rw [hptr, ← hzy]
      exact List.mem_map_of_mem hz
    exact ⟨y, (List.mem_cons.mp (hperm.mem_iff.mp hy)).resolve_left hne, hzy, hroom⟩

/-- A user's memory has no tag in it. -/
theorem not_addr_of_covers {u : Allocation} {addr : ℕ} (hi : Inv g s xs) (hu : u ∈ s.live)
    (hc : u.covers addr) : ∀ y ∈ xs, y.addr ≠ addr := by
  obtain ⟨x, hx, hptr, hroom⟩ := hi.room u hu
  obtain ⟨us, vs, rfl⟩ := List.append_of_mem (mem_live.mp hx).1
  obtain ⟨hlo, hhi⟩ := hc
  have htag : sizeofMallocTag = 12 := rfl
  intro y hy
  have := hi.layout.outside y hy
  unfold payload at hptr hroom
  omega

/-- **A write of a user** does not change the blocks. -/
theorem inv_store {u : Allocation} {addr : ℕ} (hi : Inv g s xs) (hu : u ∈ s.live) (hc : u.covers addr)
    (word : Word) (next prev : Node Unit ℕ) :
    Inv g { s with heap := ⟨Function.update s.heap.freeLength addr word,
      (s.heap.links.setNext (.item addr) next).setPrev (.item addr) prev⟩ } xs := by
  have hne := not_addr_of_covers hi hu hc
  have hnode : ∀ z ∈ blocks :: nodes xs, z ≠ .item addr := by
    rintro z hz rfl
    rcases List.mem_cons.mp hz with hz | hz
    · cases hz
    · obtain ⟨y, hy, he⟩ := mem_nodes.mp hz
      exact hne y hy he
  refine ⟨⟨?_, fun y hy => ?_⟩, hi.layout, hi.sizes, hi.users, hi.room⟩
  · refine hi.holds.ring.congr (fun z hz => ?_) fun z hz => ?_
    · exact Links.next_setNext_of_ne (hnode z hz)
    · exact Links.prev_setPrev_of_ne (hnode z hz)
  · exact (Function.update_of_ne (hne y hy) ..).trans (hi.holds.tag y hy)

end

/-! ## Every state of a run -/

/-- No request of the step overflows. -/
def Act.Modest : Act → Prop
  | .malloc _ size => HeapRun.Modest size
  | .free _ => True
  | .store .. => True

section

variable {g : Region} {s t : State} {xs : List Seg} {a : Act} {as : List Act}

theorem step_inv (hi : Inv g s xs) (ha : Act.Modest a) (h : step s a = some t) : ∃ ys, Inv g t ys := by
  cases a with
  | malloc fuel size =>
    obtain ⟨r, he, rfl⟩ := Option.map_eq_some_iff.mp h
    rcases inv_malloc hi ha he with ⟨w, ys, -, hptr, hinv, -⟩ | ⟨-, rfl⟩
    · rw [hptr]
      exact ⟨ys, hinv⟩
    · exact ⟨xs, hi⟩
  | free ptr =>
    rw [step] at h
    split at h
    · rename_i hu
      obtain ⟨u, hu, rfl⟩ := hu
      obtain ⟨h', w, ys, he, -, hinv, -⟩ := inv_free hi hu
      rw [he] at h
      cases h
      exact ⟨ys, hinv⟩
    · cases h
  | store addr word next prev =>
    rw [step] at h
    split at h
    · rename_i hu
      obtain ⟨u, hu, hc⟩ := hu
      cases h
      exact ⟨xs, inv_store hi hu hc word next prev⟩
    · cases h

theorem run_inv {mem : Heap} (h : run step (init g mem) as = some s) (has : ∀ a ∈ as, Act.Modest a) :
    ∃ xs, Inv g s xs := by
  have hstep : ∀ s a t, (∃ xs, Inv g s xs) → Act.Modest a → step s a = some t → ∃ ys, Inv g t ys := by
    rintro s a t ⟨xs, hi⟩ ha ht
    exact step_inv hi ha ht
  exact run_invariant_of_trace hstep h ⟨_, inv_init g mem⟩ fun x hx => has x.act (act_mem_of_mem_trace hx)

/-- The block list of the state is `xs`, and the heap is in order. -/
structure Sound (g : Region) (s : State) (xs : List Seg) : Prop where
  holds : Holds s.heap xs
  sorted : xs.Pairwise fun x y => x.addr < y.addr
  tiles : Tiles g.start xs (Region.stop g)
  noPair : NoPair xs
  /-- Every block has room for its tag, below the flag. -/
  tags : ∀ x ∈ xs, sizeofMallocTag ≤ x.len ∧ x.len < 2 ^ 30
  /-- The blocks in use are the live allocations. -/
  users : (s.live.map Allocation.ptr).Perm ((live xs).map payload)
  aligned : ∀ u ∈ s.live, 4 ∣ u.ptr
  inside : ∀ u ∈ s.live, g.start ≤ u.ptr ∧ u.ptr + u.size.toNat ≤ Region.stop g
  clear : ∀ u ∈ s.live, ∀ x ∈ xs, u.ptr + u.size.toNat ≤ x.addr ∨ x.addr + sizeofMallocTag ≤ u.ptr
  disjoint : s.live.Pairwise fun u v => u.ptr + u.size.toNat ≤ v.ptr ∨ v.ptr + v.size.toNat ≤ u.ptr

/-- `malloc` comes back from its loop, and `free` from every live pointer. -/
structure Returns (s : State) : Prop where
  malloc : ∀ size, ∃ n, ∀ fuel ≥ n, ∃ t, step s (.malloc fuel size) = some t
  free : ∀ u ∈ s.live, ∃ t, step s (.free u.ptr) = some t

theorem Inv.disjoint (hi : Inv g s xs) :
    s.live.Pairwise fun u v => u.ptr + u.size.toNat ≤ v.ptr ∨ v.ptr + v.size.toNat ≤ u.ptr := by
  refine (List.pairwise_map.mp hi.nodup_ptr).imp_of_mem fun {u v} hu hv hne => ?_
  obtain ⟨x, hx, hux, hxr⟩ := hi.room u hu
  obtain ⟨y, hy, hvy, hyr⟩ := hi.room v hv
  have hxy : x ≠ y := by
    rintro rfl
    exact hne (hux.trans hvy.symm)
  have := hi.layout.tiles.disjoint (mem_live.mp hx).1 (mem_live.mp hy).1 hxy
  unfold payload at *
  omega

theorem Inv.clear {u : Allocation} {y : Seg} (hi : Inv g s xs) (hu : u ∈ s.live) (hy : y ∈ xs) :
    u.ptr + u.size.toNat ≤ y.addr ∨ y.addr + sizeofMallocTag ≤ u.ptr := by
  obtain ⟨x, hx, hptr, hroom⟩ := hi.room u hu
  unfold payload at hptr hroom
  by_cases hxy : x = y
  · subst hxy
    omega
  · have := hi.layout.tiles.disjoint (mem_live.mp hx).1 hy hxy
    omega

theorem Inv.inside {u : Allocation} (hi : Inv g s xs) (hu : u ∈ s.live) :
    g.start ≤ u.ptr ∧ u.ptr + u.size.toNat ≤ Region.stop g := by
  obtain ⟨x, hx, hptr, hroom⟩ := hi.room u hu
  have := hi.layout.tiles.mem (mem_live.mp hx).1
  unfold payload at hptr hroom
  omega

theorem Inv.aligned {u : Allocation} (hi : Inv g s xs) (hu : u ∈ s.live) : 4 ∣ u.ptr := by
  obtain ⟨x, hx, hptr, -⟩ := hi.room u hu
  have haddr : 4 ∣ x.addr :=
    hi.layout.tiles.dvd_addr g.aligned (fun y hy => (hi.sizes y hy).2) (mem_live.mp hx).1
  have htag : 4 ∣ sizeofMallocTag := by decide
  exact hptr ▸ dvd_add haddr htag

theorem Inv.sound (hi : Inv g s xs) : Sound g s xs where
  holds := hi.holds
  sorted := by
    refine hi.layout.tiles.pairwise.imp_of_mem fun {x y} hx _ hle => ?_
    have := hi.layout.pos x hx
    omega
  tiles := hi.layout.tiles
  noPair := hi.layout.noPair
  tags := fun x hx => ⟨(hi.sizes x hx).1, hi.short x hx⟩
  users := hi.users
  aligned := fun _ hu => hi.aligned hu
  inside := fun _ hu => hi.inside hu
  clear := fun _ hu _ hy => hi.clear hu hy
  disjoint := hi.disjoint

theorem Inv.returns (hi : Inv g s xs) : Returns s := by
  constructor
  · intro size
    obtain ⟨r, hr⟩ := mallocFrom_some (blockSize size) hi.layout (Region.stop_lt g) hi.holds
    refine ⟨xs.length + 1, fun fuel hle => ?_⟩
    have he : malloc fuel size s.heap = some r := mallocFrom_mono hle hr
    rw [step, he]
    exact ⟨_, rfl⟩
  · intro u hu
    obtain ⟨h', w, ys, he, -⟩ := inv_free hi hu
    rw [step, if_pos ⟨u, hu, rfl⟩, he]
    exact ⟨_, rfl⟩

/-- **The heap is in order in every state of every run** in which no request with its
tag overflows: the block list is sorted and tiles the heap, no two neighbours are free,
and the memory of the users lies in the blocks in use, apart from every tag and from
the memory of the other users. -/
theorem runs_heapSound (g : Region) (mem : Heap) (as : List Act) (has : ∀ a ∈ as, Act.Modest a) (s : State)
    (h : run step (init g mem) as = some s) : (∃ xs, Sound g s xs) ∧ Returns s := by
  obtain ⟨xs, hi⟩ := run_inv h has
  exact ⟨⟨xs, hi.sound⟩, hi.returns⟩

/-- A heap of 64 bytes. -/
def smallRegion : Region where
  start := 0x20000000
  size := 64#32
  aligned := by decide
  words := by decide
  atLeast := by decide
  atMost := by decide

/-- Memory of zeros. -/
def zeroed : Heap := ⟨fun _ => 0, fun _ => blocks, fun _ => blocks⟩

theorem runs_heapSound_small :
    ∃ s, run step (init smallRegion zeroed) [.malloc 2 8#32, .malloc 2 4#32, .free 0x20000038] = some s ∧
      s.live = [⟨0x20000028, 4#32⟩] ∧ (∃ xs, Sound smallRegion s xs) ∧ Returns s := by
  have hlive : (run step (init smallRegion zeroed) [.malloc 2 8#32, .malloc 2 4#32, .free 0x20000038]).map
      State.live = some [⟨0x20000028, 4#32⟩] := by decide +kernel
  obtain ⟨s, hs, hl⟩ := Option.map_eq_some_iff.mp hlive
  have hmodest : ∀ a ∈ [Act.malloc 2 8#32, .malloc 2 4#32, .free 0x20000038], Act.Modest a := by
    simp [Act.Modest, Modest]
  exact ⟨s, hs, hl, runs_heapSound smallRegion zeroed _ hmodest s hs⟩

/-- A request that overflows is given memory that it does not fit in. -/
theorem malloc_wrap_not_sound {size : Word} {fuel ptr : ℕ} {h : Heap} (hsize : ¬ Modest size)
    (he : malloc fuel size s.heap = some (some ptr, h)) :
    ∃ t, step s (.malloc fuel size) = some t ∧ ¬ ∃ xs, Sound g t xs := by
  rw [step, he]
  refine ⟨_, rfl, ?_⟩
  rintro ⟨xs, hsound⟩
  have hinside : g.start ≤ ptr ∧ ptr + size.toNat ≤ Region.stop g :=
    hsound.inside ⟨ptr, size⟩ List.mem_cons_self
  have := Region.stop_lt g
  unfold Modest at hsize
  omega

/-- The second request overflows to a block of no bytes: it is put at the end of the
free block, where the first one is. -/
theorem wrapped_malloc_overlaps :
    ∃ s, run step (init smallRegion zeroed) [.malloc 2 8#32, .malloc 2 0xFFFFFFF4#32] = some s ∧
      s.live = [⟨0x20000038, 0xFFFFFFF4#32⟩, ⟨0x20000038, 8#32⟩] ∧ ¬ ∃ xs, Sound smallRegion s xs := by
  have hlive : (run step (init smallRegion zeroed) [.malloc 2 8#32, .malloc 2 0xFFFFFFF4#32]).map State.live =
      some [⟨0x20000038, 0xFFFFFFF4#32⟩, ⟨0x20000038, 8#32⟩] := by decide +kernel
  obtain ⟨s, hs, hl⟩ := Option.map_eq_some_iff.mp hlive
  refine ⟨s, hs, hl, ?_⟩
  rintro ⟨xs, hsound⟩
  have hpair := hsound.disjoint
  rw [hl] at hpair
  exact absurd hpair (by decide)

end

end PikoRT.Libc.HeapRun

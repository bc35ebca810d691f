import PikoRT.Libc.HeapRestore

/-! # Blocks that a client holds

A client of the heap that starts in the state `h₀` holds some blocks in addition to those
of `h₀`. Requests add to what it holds and `free` takes away from it; when it holds
nothing any more, the heap is what it was. -/
namespace PikoRT.Libc.HeapLedger
open PikoRT.Lib.Tiling PikoRT.Kernel.Bitops PikoRT.Libc.Malloc PikoRT.Libc.HeapRun PikoRT.Libc.HeapRestore

/-- `h` is the heap `h₀` with the allocations `us` in addition. -/
structure Holding (g : Region) (h₀ h : State) (us : List Allocation) : Prop where
  live : h.live.Perm (us ++ h₀.live)
  blocks : ∃ xs₀ xs, Inv g h₀ xs₀ ∧ Inv g h xs ∧ Without (us.map Allocation.ptr) xs xs₀

section

variable {g : Region} {h₀ h : State} {us vs : List Allocation} {u v : Allocation} {xs : List Seg}

theorem Holding.refl (hi : Inv g h xs) : Holding g h h [] := ⟨.refl _, xs, xs, hi, hi, without_nil xs⟩

theorem Holding.perm (hh : Holding g h₀ h us) (hp : us.Perm vs) : Holding g h₀ h vs := by
  obtain ⟨xs₀, xs, hi₀, hi, hw⟩ := hh.blocks
  exact ⟨hh.live.trans (hp.append_right _), xs₀, xs, hi₀, hi, hw.of_perm (hp.map _)⟩

theorem Holding.mem_live (hh : Holding g h₀ h us) (hv : v ∈ us ++ h₀.live) : v.ptr ∈ h.live.map Allocation.ptr :=
  List.mem_map_of_mem (hh.live.mem_iff.mpr hv)

theorem Holding.nodup (hh : Holding g h₀ h us) : ((us ++ h₀.live).map Allocation.ptr).Nodup := by
  obtain ⟨-, xs, -, hi, -⟩ := hh.blocks
  exact (hh.live.map Allocation.ptr).nodup_iff.mp hi.nodup_ptr

/-- A request that is granted gets a block that nobody has. -/
theorem Holding.malloc {fuel ptr : ℕ} {size : Word} {k : Heap} (hh : Holding g h₀ h us) (hm : Modest size)
    (he : malloc fuel size h.heap = some (some ptr, k)) :
    Holding g h₀ ⟨k, ⟨ptr, size⟩ :: h.live⟩ (⟨ptr, size⟩ :: us) ∧ ptr ∉ h.live.map Allocation.ptr := by
  obtain ⟨xs₀, xs, hi₀, hi, hw⟩ := hh.blocks
  rcases inv_malloc hi hm he with ⟨w, ys, -, hptr, hinv, hp⟩ | ⟨-, hnone⟩
  · obtain rfl : ptr = payload w := Option.some.inj hptr
    refine ⟨⟨hh.live.cons _, xs₀, ys, hi₀, hinv, ?_⟩, ?_⟩
    · exact (without_of_perm hinv.nodup_payload hp).trans hw
    · have hnd : ((payload w) :: h.live.map Allocation.ptr).Nodup := hinv.nodup_ptr
      exact (List.nodup_cons.mp hnd).1
  · cases hnone

/-- A request that is refused changes nothing. -/
theorem Holding.malloc_none {fuel : ℕ} {size : Word} {k : Heap} (hh : Holding g h₀ h us) (hm : Modest size)
    (he : Malloc.malloc fuel size h.heap = some (none, k)) : k = h.heap := by
  obtain ⟨xs₀, xs, -, hi, -⟩ := hh.blocks
  rcases inv_malloc hi hm he with ⟨w, ys, -, hptr, -⟩ | ⟨-, hnone⟩
  · cases hptr
  · exact congrArg Prod.snd hnone

theorem Holding.malloc_returns (hh : Holding g h₀ h us) (size : Word) :
    ∃ n r, ∀ fuel ≥ n, Malloc.malloc fuel size h.heap = some r := by
  obtain ⟨-, xs, -, hi, -⟩ := hh.blocks
  obtain ⟨r, hr⟩ := Blocks.mallocFrom_some (blockSize size) hi.layout (Region.stop_lt g) hi.holds
  exact ⟨xs.length + 1, r, fun fuel hle => Blocks.mallocFrom_mono hle hr⟩

/-- In a list with different pointers, the allocation that is taken out is the one that
is meant. -/
theorem eraseP_perm {ls : List Allocation} (hp : ls.Perm (u :: vs)) (hnd : (ls.map Allocation.ptr).Nodup) :
    (ls.eraseP fun v => decide (v.ptr = u.ptr)).Perm vs := by
  have hu : u ∈ ls := hp.mem_iff.mpr List.mem_cons_self
  obtain ⟨v, as, bs, -, hv, hls, herase⟩ :=
    List.exists_of_eraseP (p := fun v : Allocation => decide (v.ptr = u.ptr)) hu (by simp)
  have hvmem : v ∈ ls := by
    rw [hls]
    simp
  obtain rfl : v = u := List.inj_on_of_nodup_map hnd hvmem hu (of_decide_eq_true hv)
  rw [herase]
  rw [hls] at hp
  exact (List.perm_middle.symm.trans hp).cons_inv

/-- `free` of a block that the client holds. -/
theorem Holding.free (hh : Holding g h₀ h (u :: us)) :
    ∃ h', step h (.free u.ptr) = some h' ∧ Holding g h₀ h' us := by
  obtain ⟨xs₀, xs, hi₀, hi, hw⟩ := hh.blocks
  have hu : u ∈ h.live := hh.live.mem_iff.mpr List.mem_cons_self
  obtain ⟨k, w, ys, he, hptr, hinv, hp⟩ := inv_free hi hu
  have hperm := eraseP_perm hh.live hi.nodup_ptr
  refine ⟨_, ?_, hperm, xs₀, ys, hi₀, hinv, fun z => ?_⟩
  · rw [step, if_pos ⟨u, hu, rfl⟩, he]
    rfl
  · rw [hw z, without_of_perm hi.nodup_payload hp z, List.map_cons, List.mem_cons, List.mem_singleton, ← hptr]
    tauto

/-- What is held on top of what is held. -/
theorem Holding.trans {h' : State} (hh : Holding g h₀ h us) (hh' : Holding g h h' vs) :
    Holding g h₀ h' (vs ++ us) := by
  obtain ⟨xs₀, xs, hi₀, hi, hw⟩ := hh.blocks
  obtain ⟨xs', ys, hi', hj, hw'⟩ := hh'.blocks
  obtain rfl : xs = xs' := (blockList_of_inv hi).unique (blockList_of_inv hi')
  refine ⟨?_, xs₀, ys, hi₀, hj, List.map_append ▸ hw'.trans hw⟩
  rw [List.append_assoc]
  exact hh'.live.trans (hh.live.append_left vs)

/-- The heap without an allocated block, with that block in addition. -/
theorem holding_of_free (hi : Inv g h xs) (hu : u ∈ h.live) :
    ∃ h', step h (.free u.ptr) = some h' ∧ Holding g h' h [u] := by
  obtain ⟨k, w, ys, he, hptr, hinv, hp⟩ := inv_free hi hu
  refine ⟨_, ?_, ?_, ys, xs, hinv, hi, ?_⟩
  · rw [step, if_pos ⟨u, hu, rfl⟩, he]
    rfl
  · have hperm := List.perm_cons_erase hu
    exact hperm.trans ((eraseP_perm hperm hi.nodup_ptr).symm.cons u)
  · rw [List.map_singleton, hptr]
    exact without_of_perm hi.nodup_payload hp

/-- Some of what is held may as well have been there before the rest. -/
theorem Holding.rebase (hh : Holding g h₀ h (us ++ vs)) : ∃ h₁, Holding g h₁ h us ∧ Holding g h₀ h₁ vs := by
  induction us generalizing h with
  | nil =>
    obtain ⟨-, xs, -, hi, -⟩ := hh.blocks
    exact ⟨h, .refl hi, hh⟩
  | cons u us ih =>
    obtain ⟨-, xs, -, hi, -⟩ := hh.blocks
    obtain ⟨h', hfree, hrest⟩ := hh.free
    obtain ⟨k, hk, hu⟩ := holding_of_free hi (hh.live.mem_iff.mpr List.mem_cons_self)
    obtain rfl : k = h' := Option.some.inj (hk.symm.trans hfree)
    obtain ⟨h₁, hus, hvs⟩ := ih hrest
    exact ⟨h₁, hus.trans hu, hvs⟩

/-- A client that holds nothing leaves the heap as it was. -/
theorem Holding.restored (hh : Holding g h₀ h []) :
    h.live.Perm h₀.live ∧ ∀ xs, BlockList h₀ xs ↔ BlockList h xs := by
  obtain ⟨xs₀, xs, hi₀, hi, hw⟩ := hh.blocks
  have hsame : xs₀ = xs := by
    refine hi₀.layout.unique hi.layout fun z => ?_
    rw [hw z]
    simp
  subst hsame
  refine ⟨hh.live, fun ys => ⟨fun hy => ?_, fun hy => ?_⟩⟩
  · exact hy.unique (blockList_of_inv hi₀) ▸ blockList_of_inv hi
  · exact hy.unique (blockList_of_inv hi) ▸ blockList_of_inv hi₀

end

end PikoRT.Libc.HeapLedger

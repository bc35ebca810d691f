import PikoRT.Libc.HeapRun

/-! # What `malloc` gives

The size of the block is computed in 32 bits before the search. For the fifteen largest
sizes it overflows to at most twelve, which every free block has: `malloc` then returns a
block without room for the request. -/
namespace PikoRT.Libc.MallocExact
open PikoRT.Lib.Run PikoRT.Lib.Tiling PikoRT.Kernel.Bitops
open PikoRT.Libc.Malloc PikoRT.Libc.Blocks PikoRT.Libc.HeapRun

/-- The size rounded up to 4 plus the tag, without overflow. -/
def roundedUp (size : Word) : ℕ := (size.toNat + 3) / 4 * 4 + sizeofMallocTag

/-- `malloc` comes back; a pointer is that of one new block in use, with room for the
request, and `NULL` means that nothing has changed and that no free block is large enough. -/
def Gives (size : Word) (h : Heap) : Prop :=
  ∃ xs r, Holds h xs ∧ Short xs ∧ (∃ n, ∀ fuel ≥ n, malloc fuel size h = some r) ∧
    (∀ ptr, r.1 = some ptr → ∃ ys w, Holds r.2 ys ∧ Short ys ∧ (live ys).Perm (w :: live xs) ∧
      ptr = payload w ∧ payload w + size.toNat ≤ w.addr + w.len) ∧
    (r.1 = none → r.2 = h ∧ ∀ x ∈ xs, x.free = true → x.len < roundedUp size)

def NoFreeBlock (h : Heap) : Prop := ∃ xs, Holds h xs ∧ Short xs ∧ ∀ x ∈ xs, x.free = false

def ActGives (s : State) : Act → Prop
  | .malloc _ size => Gives size s.heap
  | .free _ => True
  | .store .. => True

/-- The request and its tag do not overflow, or there is no block that it could be given. -/
def Harmless (s : State) : Act → Prop
  | .malloc _ size => Modest size ∨ NoFreeBlock s.heap
  | .free _ => True
  | .store .. => True

section

variable {g : Region} {s t : State} {xs : List Seg} {size : Word}

theorem toNat_blockSize_wrapped (hm : ¬ Modest size) : (blockSize size).toNat ≤ sizeofMallocTag := by
  unfold Modest at hm
  have hlt := size.isLt
  have hthree : (3 : Word).toNat = 3 := rfl
  unfold blockSize alignNext
  rw [BitVec.toNat_add, toNat_and_not_three, BitVec.toNat_add, hthree, BitVec.toNat_ofNat]
  unfold sizeofMallocTag
  omega

/-- The search goes to the first free block of the size, or to the end of the list. -/
theorem malloc_cases (hi : Inv g s xs) (size : Word) :
    (∃ ptr h, (∃ n, ∀ fuel ≥ n, malloc fuel size s.heap = some (some ptr, h)) ∧
      ∃ x ∈ xs, fits (blockSize size).toNat x = true) ∨
    ((∃ n, ∀ fuel ≥ n, malloc fuel size s.heap = some (none, s.heap)) ∧
      ∀ x ∈ xs, fits (blockSize size).toNat x = false) := by
  have hcome : ∀ r, mallocFrom (blockSize size) (xs.length + 1) (first xs) s.heap = some r →
      ∃ n, ∀ fuel ≥ n, malloc fuel size s.heap = some r := by
    intro r hr
    rw [← hi.holds.next_head] at hr
    exact ⟨xs.length + 1, fun fuel hle => mallocFrom_mono hle hr⟩
  rcases mallocFrom_head (blockSize size) hi.short hi.holds with ⟨us, x, vs, hxs, -, hx, hr⟩ | ⟨hnone, hr⟩
  · exact .inl ⟨_, _, hcome _ hr, x, by simp [hxs], hx⟩
  · exact .inr ⟨hcome _ hr, hnone⟩

theorem gives_of_modest (hi : Inv g s xs) (hm : Modest size) : Gives size s.heap := by
  have hsize : (blockSize size).toNat = roundedUp size := toNat_blockSize hm
  rcases malloc_cases hi size with ⟨ptr, h, ⟨n, hn⟩, -⟩ | ⟨⟨n, hn⟩, hnone⟩
  · refine ⟨xs, _, hi.holds, hi.short, ⟨n, hn⟩, fun p hp => ?_, fun hr => absurd hr (Option.some_ne_none _)⟩
    cases hp
    rcases inv_malloc hi hm (hn n le_rfl) with ⟨w, ys, -, hptr, hinv, hperm⟩ | ⟨-, hr⟩
    · cases hptr
      obtain ⟨x, hx, hpx, hroom⟩ := hinv.room ⟨payload w, size⟩ List.mem_cons_self
      have haddr : w.addr = x.addr := by
        change payload w = payload x at hpx
        unfold payload at hpx
        omega
      have hw : w ∈ live ys := hperm.mem_iff.mpr List.mem_cons_self
      have hwx : w = x := by
        by_contra hne
        have hdis := hinv.layout.tiles.disjoint (mem_live.mp hw).1 (mem_live.mp hx).1 hne
        have := hinv.layout.pos w (mem_live.mp hw).1
        have := hinv.layout.pos x (mem_live.mp hx).1
        omega
      subst hwx
      exact ⟨ys, w, hinv.holds, hinv.short, hperm, rfl, hroom⟩
    · cases hr
  · refine ⟨xs, _, hi.holds, hi.short, ⟨n, hn⟩, fun p hp => absurd hp (Option.some_ne_none p).symm,
      fun _ => ⟨rfl, fun x hx hf => ?_⟩⟩
    have hfit := hnone x hx
    simp only [fits, hf, Bool.true_and, decide_eq_false_iff_not, not_le] at hfit
    omega

theorem gives_of_noFreeBlock (hi : Inv g s xs) (hn : NoFreeBlock s.heap) (size : Word) :
    Gives size s.heap ∧ ∃ n, ∀ fuel ≥ n, malloc fuel size s.heap = some (none, s.heap) := by
  obtain ⟨ys, hys, hshort, hused⟩ := hn
  obtain rfl := hi.holds.unique hys hi.short hshort
  rcases malloc_cases hi size with ⟨ptr, h, -, x, hx, hfit⟩ | ⟨hn, -⟩
  · simp [fits, hused x hx] at hfit
  · refine ⟨⟨xs, _, hi.holds, hi.short, hn, fun p hp => absurd hp (Option.some_ne_none p).symm,
      fun _ => ⟨rfl, fun x hx hf => ?_⟩⟩, hn⟩
    rw [hused x hx] at hf
    cases hf

/-- A size that overflows is given any free block. -/
theorem not_gives (hi : Inv g s xs) (hm : ¬ Modest size) (hn : ¬ NoFreeBlock s.heap) : ¬ Gives size s.heap := by
  rintro ⟨ys, r, -, -, ⟨n, hcome⟩, hsome, -⟩
  rcases malloc_cases hi size with ⟨ptr, h, ⟨m, hm'⟩, -⟩ | ⟨-, hnone⟩
  · have hr : r = (some ptr, h) :=
      Option.some.inj ((hcome (max n m) (le_max_left ..)).symm.trans (hm' (max n m) (le_max_right ..)))
    obtain ⟨zs, w, -, hshort, hperm, -, hroom⟩ := hsome ptr (by rw [hr])
    have hlen := hshort w (mem_live.mp (hperm.mem_iff.mpr List.mem_cons_self)).1
    unfold Modest at hm
    unfold payload at hroom
    omega
  · refine hn ⟨xs, hi.holds, hi.short, fun x hx => ?_⟩
    have hfit := hnone x hx
    have hlen := (hi.sizes x hx).1
    have hwrapped := toNat_blockSize_wrapped hm
    by_contra hfree
    simp only [fits, eq_true_of_ne_false hfree, Bool.true_and, decide_eq_false_iff_not, not_le] at hfit
    omega

theorem gives_iff (hi : Inv g s xs) (a : Act) : ActGives s a ↔ Harmless s a := by
  cases a with
  | malloc fuel size =>
    constructor
    · intro hg
      by_contra hbad
      obtain ⟨hm, hn⟩ := not_or.mp hbad
      exact not_gives hi hm hn hg
    · rintro (hm | hn)
      · exact gives_of_modest hi hm
      · exact (gives_of_noFreeBlock hi hn size).1
  | free ptr => exact Iff.rfl
  | store addr word next prev => exact Iff.rfl

theorem harmless_inv {a : Act} (hi : Inv g s xs) (ha : Harmless s a) (h : step s a = some t) : ∃ ys, Inv g t ys := by
  cases a with
  | malloc fuel size =>
    rcases ha with hm | hn
    · exact step_inv (a := .malloc fuel size) hi hm h
    · obtain ⟨-, n, hcome⟩ := gives_of_noFreeBlock hi hn size
      obtain ⟨r, hr, rfl⟩ := Option.map_eq_some_iff.mp h
      have hlong := mallocFrom_mono (le_max_left fuel n) hr
      rw [show mallocFrom _ (max fuel n) _ _ = _ from hcome _ (le_max_right ..)] at hlong
      cases hlong
      exact ⟨xs, hi⟩
  | free ptr => exact step_inv (a := .free ptr) hi trivial h
  | store addr word next prev => exact step_inv (a := .store addr word next prev) hi trivial h

end

/-- **What `malloc` gives, over every run.** All requests of a run are given what they asked
for exactly when every request that overflows comes while no block is free. -/
theorem mallocs_give_iff (g : Region) (mem : Heap) (as : List Act) :
    (∀ x ∈ trace step (init g mem) as, ActGives x.pre x.act) ↔
      ∀ x ∈ trace step (init g mem) as, Harmless x.pre x.act := by
  refine trace_forall_iff (I := fun s => ∃ xs, Inv g s xs) (Q := fun s a _ => ActGives s a) ?_ ?_ ⟨_, inv_init g mem⟩
  · rintro s a t ⟨xs, hi⟩ -
    exact gives_iff hi a
  · rintro s a t ⟨xs, hi⟩ ha h
    exact harmless_inv hi ha h

/-- The largest size overflows to a block with nothing but a tag, at the end of the heap. -/
theorem not_gives_largest :
    (∃ x ∈ trace step (init smallRegion zeroed) [.malloc 2 0xFFFFFFFF#32],
      x.post.live = [⟨0x20000040, 0xFFFFFFFF#32⟩]) ∧
    ¬ ∀ x ∈ trace step (init smallRegion zeroed) [.malloc 2 0xFFFFFFFF#32], ActGives x.pre x.act := by
  refine ⟨⟨_, List.mem_cons_self, rfl⟩, fun hall => ?_⟩
  have hgives : Gives 0xFFFFFFFF#32 (init smallRegion zeroed).heap := hall _ List.mem_cons_self
  refine not_gives (inv_init smallRegion zeroed) (by unfold Modest; decide) ?_ hgives
  rintro ⟨xs, hxs, hshort, hused⟩
  have hinit := inv_init smallRegion zeroed
  obtain rfl := hinit.holds.unique hxs hinit.short hshort
  exact absurd (hused _ List.mem_cons_self) (by decide)

end PikoRT.Libc.MallocExact

import PikoRT.Lib.Tiling
import PikoRT.Libc.Malloc

/-! # The block list in memory

The blocks of the heap are segments of a tiling, and memory holds their tags: the list
runs through the nodes of the blocks, in order, and the word of each block has its
length and its flag. `malloc` then carves a segment out of the tiling, and `free` joins
a segment with its free neighbours. -/
namespace PikoRT.Libc.Blocks
open PikoRT.Lib.Rings PikoRT.Lib.Tiling PikoRT.Kernel.Bitops PikoRT.Kernel.LinuxList
open PikoRT.Libc.Malloc

/-! ## The word of a tag -/

/-- The word of a block. -/
def encode (len : ℕ) (free : Bool) : Word := (if free then blockFreeMask else 0) ||| BitVec.ofNat 32 len

theorem getLsbD_blockFreeMask {i : ℕ} (hi : i < 32) : blockFreeMask.getLsbD i = decide (i = 30) := by
  interval_cases i <;> rfl

theorem getLsbD_blockLengthMask {i : ℕ} (hi : i < 32) : blockLengthMask.getLsbD i = !decide (i = 30) := by
  interval_cases i <;> rfl

theorem getLsbD_encode {len : ℕ} {f : Bool} {i : ℕ} (hi : i < 32) :
    (encode len f).getLsbD i = ((f && decide (i = 30)) || len.testBit i) := by
  unfold encode
  cases f with
  | false =>
    show (0#32 ||| BitVec.ofNat 32 len).getLsbD i = _
    rw [BitVec.zero_or, BitVec.getLsbD_ofNat]
    simp [hi]
  | true =>
    simp only [if_true, BitVec.getLsbD_or, getLsbD_blockFreeMask hi, BitVec.getLsbD_ofNat, hi,
      decide_true, Bool.true_and]

theorem testBit_length {len : ℕ} (h : len < 2 ^ 30) : len.testBit 30 = false :=
  Nat.testBit_eq_false_of_lt h

theorem encode_and_lengthMask {len : ℕ} (f : Bool) (h : len < 2 ^ 30) :
    encode len f &&& blockLengthMask = BitVec.ofNat 32 len := by
  refine BitVec.eq_of_getLsbD_eq fun i hi => ?_
  rw [BitVec.getLsbD_and, getLsbD_encode hi, getLsbD_blockLengthMask hi, BitVec.getLsbD_ofNat]
  by_cases h30 : i = 30
  · simp [h30, testBit_length h]
  · simp [h30, hi]

theorem encode_or_freeMask {len : ℕ} (f : Bool) : encode len f ||| blockFreeMask = encode len true := by
  refine BitVec.eq_of_getLsbD_eq fun i hi => ?_
  rw [BitVec.getLsbD_or, getLsbD_encode hi, getLsbD_encode hi, getLsbD_blockFreeMask hi]
  cases f <;> cases decide (i = 30) <;> simp

theorem encode_and_freeMask {len : ℕ} (f : Bool) (h : len < 2 ^ 30) :
    encode len f &&& blockFreeMask = if f then blockFreeMask else 0 := by
  refine BitVec.eq_of_getLsbD_eq fun i hi => ?_
  rw [BitVec.getLsbD_and, getLsbD_encode hi, getLsbD_blockFreeMask hi]
  by_cases h30 : i = 30
  · cases f with
    | false => simp [h30, testBit_length h]
    | true => simp [h30, blockFreeMask]
  · cases f with
    | false => simp [h30]
    | true => simp [h30, getLsbD_blockFreeMask hi]

theorem lengthMask_and_freeMask (w : Word) : w &&& blockLengthMask &&& blockFreeMask = 0 := by
  refine BitVec.eq_of_getLsbD_eq fun i hi => ?_
  rw [BitVec.getLsbD_and, BitVec.getLsbD_and, getLsbD_blockLengthMask hi, getLsbD_blockFreeMask hi]
  by_cases h30 : i = 30 <;> simp [h30]

/-! ## The fields of a block -/

section

variable {h : Heap} {a b : ℕ} {len : ℕ} {f : Bool}

theorem getBlockLength_of (ht : h.freeLength a = encode len f) (hl : len < 2 ^ 30) :
    getBlockLength a h = BitVec.ofNat 32 len := by
  unfold getBlockLength
  rw [ht, encode_and_lengthMask f hl]

theorem getBlockFree_of (ht : h.freeLength a = encode len f) (hl : len < 2 ^ 30) : getBlockFree a h = f := by
  unfold getBlockFree
  rw [ht, encode_and_freeMask f hl]
  cases f <;> rfl

theorem setBlockLength_of (ht : h.freeLength a = encode len f) (hl : len < 2 ^ 30) (m : ℕ) :
    setBlockLength a (BitVec.ofNat 32 m) h = setFreeLength a (encode m f) h := by
  unfold setBlockLength
  rw [ht, encode_and_freeMask f hl]
  rfl

theorem setBlockFree_true_of (ht : h.freeLength a = encode len f) :
    setBlockFree a true h = setFreeLength a (encode len true) h := by
  unfold setBlockFree
  rw [if_pos rfl, ht, encode_or_freeMask]

theorem setBlockFree_false_of (ht : h.freeLength a = encode len f) (hl : len < 2 ^ 30) :
    setBlockFree a false h = setFreeLength a (encode len false) h := by
  unfold setBlockFree
  rw [if_neg (by simp), ht, encode_and_lengthMask f hl]
  simp [encode]

@[simp] theorem setFreeLength_self (a : ℕ) (w : Word) (h : Heap) : (setFreeLength a w h).freeLength a = w :=
  Function.update_self ..

theorem setFreeLength_of_ne {w : Word} (hne : b ≠ a) : (setFreeLength a w h).freeLength b = h.freeLength b :=
  Function.update_of_ne hne _ _

@[simp] theorem setFreeLength_links (a : ℕ) (w : Word) (h : Heap) : (setFreeLength a w h).links = h.links := rfl

/-- A new block is made in memory that holds anything. -/
theorem newBlock_word (a : ℕ) (len : ℕ) (h : Heap) :
    setBlockLength a (BitVec.ofNat 32 len) (setBlockFree a false h) =
      setFreeLength a (encode len false) h := by
  unfold setBlockLength setBlockFree
  rw [if_neg (by simp), setFreeLength_self, lengthMask_and_freeMask]
  unfold setFreeLength encode
  simp

end

/-! ## The list of blocks -/

def nodes (xs : List Seg) : List (Node Unit ℕ) := xs.map fun x => .item x.addr

/-- Memory holds the tags of the blocks, and the list runs through them. -/
structure Holds (h : Heap) (xs : List Seg) : Prop where
  ring : Ring h.links blocks (nodes xs)
  tag : ∀ x ∈ xs, h.freeLength x.addr = encode x.len x.free

section

variable {h : Heap} {x : Seg} {xs us vs : List Seg}

theorem nodes_append : nodes (us ++ vs) = nodes us ++ nodes vs := List.map_append ..

theorem nodes_cons : nodes (x :: xs) = .item x.addr :: nodes xs := rfl

theorem mem_nodes {a : ℕ} : .item a ∈ nodes xs ↔ ∃ x ∈ xs, x.addr = a := by
  simp [nodes]

/-- The memory determines the blocks, as long as no length runs into the flag. -/
theorem Holds.unique {ys : List Seg} (hx : Holds h xs) (hy : Holds h ys) (hlx : ∀ x ∈ xs, x.len < 2 ^ 30)
    (hly : ∀ y ∈ ys, y.len < 2 ^ 30) : xs = ys := by
  have hn : xs.map Seg.addr = ys.map Seg.addr := by
    have hnodes : nodes xs = nodes ys := hx.ring.unique hy.ring
    have hinj : Function.Injective (Node.item : ℕ → Node Unit ℕ) := fun _ _ he => Node.item.inj he
    refine List.map_injective_iff.mpr hinj ?_
    rw [List.map_map, List.map_map]
    exact hnodes
  have hseg : ∀ zs : List Seg, Holds h zs → (∀ z ∈ zs, z.len < 2 ^ 30) →
      zs = (zs.map Seg.addr).map fun a => ⟨a, (getBlockLength a h).toNat, getBlockFree a h⟩ := by
    intro zs hz hl
    rw [List.map_map]
    refine (List.map_id zs).symm.trans (List.map_congr_left fun z hm => ?_)
    have hlt := hl z hm
    show z = ⟨z.addr, (getBlockLength z.addr h).toNat, getBlockFree z.addr h⟩
    rw [getBlockLength_of (hz.tag z hm) hlt, getBlockFree_of (hz.tag z hm) hlt, BitVec.toNat_ofNat,
      Nat.mod_eq_of_lt (by omega)]
  rw [hseg xs hx hlx, hseg ys hy hly, hn]

/-- The lengths are below the flag. -/
def Short (xs : List Seg) : Prop := ∀ x ∈ xs, x.len < 2 ^ 30

/-- No two blocks have one address. -/
def Distinct (xs : List Seg) : Prop := xs.Pairwise fun x y => x.addr ≠ y.addr

/-- The word of one block changes. -/
theorem Holds.setWord {y : Seg} (hh : Holds h (us ++ x :: vs)) (hd : Distinct (us ++ x :: vs))
    (hy : y.addr = x.addr) : Holds (setFreeLength x.addr (encode y.len y.free) h) (us ++ y :: vs) := by
  obtain ⟨-, hxv, hux⟩ := List.pairwise_append.mp hd
  refine ⟨?_, fun z hz => ?_⟩
  · have hring := hh.ring
    rw [nodes_append, nodes_cons] at hring ⊢
    rw [hy]
    exact hring
  · rcases List.mem_append.mp hz with hz | hz
    · rw [setFreeLength_of_ne (hux z hz x List.mem_cons_self)]
      exact hh.tag z (List.mem_append_left _ hz)
    · rcases List.mem_cons.mp hz with rfl | hz
      · rw [hy, setFreeLength_self]
      · rw [setFreeLength_of_ne ((List.pairwise_cons.mp hxv).1 z hz).symm]
        exact hh.tag z (List.mem_append_right _ (List.mem_cons_of_mem _ hz))

/-- A block is made behind another one. -/
theorem Holds.insert {y : Seg} (hh : Holds h (us ++ x :: vs)) (hy : ∀ z ∈ us ++ x :: vs, z.addr ≠ y.addr) :
    Holds { setFreeLength y.addr (encode y.len y.free) h with
        links := listAdd (.item y.addr) (.item x.addr) h.links } (us ++ x :: y :: vs) := by
  refine ⟨?_, fun z hz => ?_⟩
  · have hring := hh.ring
    rw [nodes_append, nodes_cons] at hring
    rw [nodes_append, nodes_cons, nodes_cons]
    refine ring_listAdd_after hring fun hm => ?_
    rw [← nodes_cons, ← nodes_append] at hm
    rcases List.mem_cons.mp hm with hm | hm
    · cases hm
    · obtain ⟨z, hz, he⟩ := mem_nodes.mp hm
      exact hy z hz he
  · show (setFreeLength y.addr _ h).freeLength z.addr = _
    have hcases : z = y ∨ z ∈ us ++ x :: vs := by
      simp only [List.mem_append, List.mem_cons] at hz ⊢
      tauto
    rcases hcases with rfl | hz
    · rw [setFreeLength_self]
    · rw [setFreeLength_of_ne (hy z hz)]
      exact hh.tag z hz

/-- A block is taken off the list. -/
theorem Holds.delete (hh : Holds h (us ++ x :: vs)) (hd : Distinct (us ++ x :: vs)) :
    Holds { h with links := listDel (.item x.addr) h.links } (us ++ vs) := by
  refine ⟨?_, fun z hz => hh.tag z ?_⟩
  · have hring := ring_listDel hh.ring (n := .item x.addr) (mem_nodes.mpr ⟨x, by simp, rfl⟩)
    rw [nodes_append, nodes_cons, List.erase_append_right, List.erase_cons_head, ← nodes_append] at hring
    · exact hring
    · intro hm
      obtain ⟨u, hu, he⟩ := mem_nodes.mp hm
      exact (List.pairwise_append.mp hd).2.2 u hu x List.mem_cons_self he
  · rcases List.mem_append.mp hz with hz | hz
    · exact List.mem_append_left _ hz
    · exact List.mem_append_right _ (List.mem_cons_of_mem _ hz)

/-- The node the loop is at when these blocks are left. -/
def first : List Seg → Node Unit ℕ
  | [] => blocks
  | x :: _ => .item x.addr

theorem Holds.next_head (hh : Holds h xs) : h.links.next blocks = first xs := by
  rw [hh.ring.next_head]
  cases xs <;> rfl

theorem Holds.next (hh : Holds h (us ++ x :: vs)) : h.links.next (.item x.addr) = first vs := by
  have hpath := hh.ring.path
  rw [nodes_append, nodes_cons, path_append] at hpath
  rw [hpath.2.next_eq]
  cases vs <;> rfl

theorem Holds.prev_nil (hh : Holds h (x :: vs)) : h.links.prev (.item x.addr) = blocks := hh.ring.path.1.2

theorem Holds.prev_concat {y : Seg} (hh : Holds h (us ++ [y] ++ x :: vs)) :
    h.links.prev (.item x.addr) = .item y.addr := by
  have hpath := hh.ring.path
  rw [nodes_append, nodes_cons, path_append, nodes_append, nodes_cons, path_append] at hpath
  exact hpath.1.2.2

end

/-! ## `malloc` -/

section

variable {h : Heap} {x : Seg} {xs us vs : List Seg} {size : Word}

theorem toNat_ofNat_short {n : ℕ} (hn : n < 2 ^ 30) : (BitVec.ofNat 32 n).toNat = n := by
  rw [BitVec.toNat_ofNat, Nat.mod_eq_of_lt (by omega)]

theorem sub_eq_ofNat {n : ℕ} (hn : n < 2 ^ 30) (hs : size.toNat ≤ n) :
    BitVec.ofNat 32 n - size = BitVec.ofNat 32 (n - size.toNat) := by
  have hlt := size.isLt
  refine BitVec.eq_of_toNat_eq ?_
  rw [BitVec.toNat_sub, toNat_ofNat_short hn, toNat_ofNat_short (by omega)]
  omega

theorem fits_iff (size : Word) (hh : Holds h (us ++ x :: vs)) (hs : Short (us ++ x :: vs)) :
    (getBlockFree x.addr h && decide (size ≤ getBlockLength x.addr h)) = fits size.toNat x := by
  have hx : x ∈ us ++ x :: vs := by simp
  rw [getBlockFree_of (hh.tag x hx) (hs x hx), getBlockLength_of (hh.tag x hx) (hs x hx)]
  simp only [BitVec.le_def, toNat_ofNat_short (hs x hx)]
  rfl

/-- The block that is split or taken whole. -/
theorem mallocAt_spec (hh : Holds h (us ++ x :: vs)) (hs : Short (us ++ x :: vs))
    (hd : Distinct (us ++ x :: vs)) (hf : fits size.toNat x = true)
    (hnew : ∀ z ∈ us ++ x :: vs, z.addr ≤ x.addr ∨ x.addr + x.len ≤ z.addr) (hpos : 0 < size.toNat) :
    (mallocAt x.addr size h).1 = cutAddr sizeofMallocTag size.toNat x + sizeofMallocTag ∧
      Holds (mallocAt x.addr size h).2 (us ++ (cut sizeofMallocTag size.toNat x ++ vs)) := by
  have hx : x ∈ us ++ x :: vs := by simp
  have hxs := hs x hx
  have htag := hh.tag x hx
  have hfit : x.free = true ∧ size.toNat ≤ x.len := by simpa [fits] using hf
  have hsub : getBlockLength x.addr h - size = BitVec.ofNat 32 (x.len - size.toNat) := by
    rw [getBlockLength_of htag hxs, sub_eq_ofNat hxs hfit.2]
  have hshort : x.len - size.toNat < 2 ^ 30 := by omega
  unfold mallocAt cutAddr cut
  rw [hsub, toNat_ofNat_short hshort]
  split
  · rename_i hlt
    let y : Seg := ⟨x.addr, x.len - size.toNat, true⟩
    let z : Seg := ⟨x.addr + (x.len - size.toNat), size.toNat, false⟩
    -- the free block keeps its front, and its tag says so
    have hword : setBlockLength x.addr (BitVec.ofNat 32 (x.len - size.toNat)) h =
        setFreeLength x.addr (encode y.len y.free) h := by
      rw [setBlockLength_of htag hxs, hfit.1]
    have hy := hh.setWord (y := y) hd rfl
    have hlen : (getBlockLength x.addr (setFreeLength x.addr (encode y.len y.free) h)).toNat =
        x.len - size.toNat := by
      have hself := setFreeLength_self x.addr (encode y.len y.free) h
      rw [getBlockLength_of hself hshort, toNat_ofNat_short hshort]
    have hnewWord : setBlockLength z.addr size
        (setBlockFree z.addr false (setFreeLength x.addr (encode y.len y.free) h)) =
        setFreeLength z.addr (encode z.len z.free) (setFreeLength x.addr (encode y.len y.free) h) := by
      have hself : BitVec.ofNat 32 size.toNat = size := BitVec.ofNat_toNat 32 size ▸ by simp
      have hnw := newBlock_word z.addr size.toNat (setFreeLength x.addr (encode y.len y.free) h)
      rw [hself] at hnw
      exact hnw
    have hins := hy.insert (y := z) fun w hw => by
      have hzaddr : z.addr = x.addr + (x.len - size.toNat) := rfl
      have hw' : w.addr ≤ x.addr ∨ x.addr + x.len ≤ w.addr := by
        rcases List.mem_append.mp hw with hm | hm
        · exact hnew w (List.mem_append_left _ hm)
        · rcases List.mem_cons.mp hm with rfl | hm
          · exact .inl le_rfl
          · exact hnew w (List.mem_append_right _ (List.mem_cons_of_mem _ hm))
      have htagpos : sizeofMallocTag = 12 := rfl
      omega
    refine ⟨?_, ?_⟩
    · dsimp only
      rw [hword, hlen]
    · dsimp only
      rw [hword, hlen]
      show Holds { setBlockLength z.addr size (setBlockFree z.addr false _) with links := _ } _
      rw [hnewWord]
      exact hins
  · refine ⟨rfl, ?_⟩
    dsimp only
    rw [setBlockFree_false_of htag hxs]
    exact hh.setWord (y := { x with free := false }) hd rfl

/-- **The loop of `malloc`** finds the first block that fits. -/
theorem mallocFrom_spec (hs : Short (us ++ vs)) (hh : Holds h (us ++ vs)) :
    (∃ ws x zs, vs = ws ++ x :: zs ∧ (∀ w ∈ ws, fits size.toNat w = false) ∧ fits size.toNat x = true ∧
      mallocFrom size (vs.length + 1) (first vs) h =
        some (some (mallocAt x.addr size h).1, (mallocAt x.addr size h).2)) ∨
    (∀ v ∈ vs, fits size.toNat v = false) ∧ mallocFrom size (vs.length + 1) (first vs) h = some (none, h) := by
  induction vs generalizing us with
  | nil => exact .inr ⟨fun v hv => (nomatch hv), rfl⟩
  | cons v vs ih =>
    have hfit := fits_iff size hh hs
    have hloop : mallocFrom size ((v :: vs).length + 1) (first (v :: vs)) h =
        if fits size.toNat v then some (some (mallocAt v.addr size h).1, (mallocAt v.addr size h).2)
        else mallocFrom size (vs.length + 1) (first vs) h := by
      rw [← hfit, ← hh.next]
      rfl
    rw [hloop]
    cases hv : fits size.toNat v with
    | true => exact .inl ⟨[], v, vs, rfl, fun w hw => (nomatch hw), hv, by simp⟩
    | false =>
      rw [if_neg (by simp)]
      have happ : us ++ v :: vs = (us ++ [v]) ++ vs := by simp
      rw [happ] at hs hh
      rcases ih hs hh with ⟨ws, x, zs, rfl, hws, hx, he⟩ | ⟨hvs, he⟩
      · exact .inl ⟨v :: ws, x, zs, rfl, List.forall_mem_cons.mpr ⟨hv, hws⟩, hx, he⟩
      · exact .inr ⟨List.forall_mem_cons.mpr ⟨hv, hvs⟩, he⟩

/-- The same from the head of the list. -/
theorem mallocFrom_head (size : Word) (hs : Short xs) (hh : Holds h xs) :
    (∃ ws x zs, xs = ws ++ x :: zs ∧ (∀ w ∈ ws, fits size.toNat w = false) ∧ fits size.toNat x = true ∧
      mallocFrom size (xs.length + 1) (first xs) h =
        some (some (mallocAt x.addr size h).1, (mallocAt x.addr size h).2)) ∨
    (∀ v ∈ xs, fits size.toNat v = false) ∧ mallocFrom size (xs.length + 1) (first xs) h = some (none, h) := by
  rw [← List.nil_append xs] at hs hh
  exact mallocFrom_spec hs hh

theorem mallocFrom_mono {fuel fuel' : ℕ} {pos : Node Unit ℕ} {r : Option ℕ × Heap} (hle : fuel ≤ fuel')
    (he : mallocFrom size fuel pos h = some r) : mallocFrom size fuel' pos h = some r := by
  induction fuel generalizing fuel' pos with
  | zero => cases he
  | succ fuel ih =>
    obtain ⟨k, rfl⟩ : ∃ k, fuel' = k + 1 := ⟨fuel' - 1, by omega⟩
    cases pos with
    | head => exact he
    | item a =>
      rw [mallocFrom] at he ⊢
      split
      · rename_i hf
        rw [if_pos hf] at he
        exact he
      · rename_i hf
        rw [if_neg hf] at he
        exact ih (by omega) he
    | poison1 => cases he
    | poison2 => cases he

end

/-! ## `free` -/

section

variable {h : Heap} {x y : Seg} {us vs : List Seg}

theorem setBlockLength_join (hx : h.freeLength x.addr = encode x.len x.free)
    (hy : h.freeLength y.addr = encode y.len y.free) (hxl : x.len < 2 ^ 30) (hyl : y.len < 2 ^ 30) :
    setBlockLength x.addr (getBlockLength x.addr h + getBlockLength y.addr h) h =
      setFreeLength x.addr (encode (joinSeg x y).len (joinSeg x y).free) h := by
  rw [getBlockLength_of hx hxl, getBlockLength_of hy hyl, ← BitVec.ofNat_add, setBlockLength_of hx hxl]
  rfl

/-- The second of two blocks is added to the first and taken off the list. -/
theorem Holds.join (hh : Holds h (us ++ x :: y :: vs)) (hs : Short (us ++ x :: y :: vs))
    (hd : Distinct (us ++ x :: y :: vs)) :
    Holds { setBlockLength x.addr (getBlockLength x.addr h + getBlockLength y.addr h) h with
        links := listDel (.item y.addr) h.links } (us ++ joinSeg x y :: vs) := by
  have hx : x ∈ us ++ x :: y :: vs := by simp
  have hy : y ∈ us ++ x :: y :: vs := by simp
  rw [setBlockLength_join (hh.tag x hx) (hh.tag y hy) (hs x hx) (hs y hy)]
  have hword := hh.setWord (y := joinSeg x y) hd rfl
  have happ : us ++ joinSeg x y :: y :: vs = (us ++ [joinSeg x y]) ++ y :: vs := by simp
  have hd' : Distinct ((us ++ [joinSeg x y]) ++ y :: vs) := by
    have haddr : (us ++ x :: y :: vs).map Seg.addr = ((us ++ [joinSeg x y]) ++ y :: vs).map Seg.addr := by
      simp [joinSeg]
    have hpair : ((us ++ x :: y :: vs).map Seg.addr).Pairwise (· ≠ ·) := List.pairwise_map.mpr hd
    rw [haddr] at hpair
    exact List.pairwise_map.mp hpair
  rw [happ] at hword
  have hdel := hword.delete hd'
  rw [List.append_assoc, List.singleton_append] at hdel
  exact hdel

/-- The previous block is free, or stays. -/
theorem mergePrev_spec (hh : Holds h (us ++ x :: vs)) (hs : Short (us ++ x :: vs))
    (hd : Distinct (us ++ x :: vs)) : ∃ h', (∃ ws p, us = ws ++ [p] ∧ p.free = true ∧
        mergePrev x.addr h = some (p.addr, h') ∧ Holds h' (ws ++ joinSeg p x :: vs)) ∨
      ((∀ p ∈ us.getLast?, p.free = false) ∧ mergePrev x.addr h = some (x.addr, h') ∧
        Holds h' (us ++ x :: vs)) := by
  rcases List.eq_nil_or_concat us with rfl | ⟨ws, p, rfl⟩
  · refine ⟨h, .inr ⟨fun p hp => (nomatch hp), ?_, hh⟩⟩
    unfold mergePrev
    rw [hh.prev_nil]
    rfl
  · rw [List.concat_eq_append] at hh hs hd ⊢
    have hp : p ∈ ws ++ [p] ++ x :: vs := by simp
    have hprev := hh.prev_concat
    have hfree := getBlockFree_of (hh.tag p hp) (hs p hp)
    cases hpf : p.free with
    | true =>
      rw [List.append_assoc, List.singleton_append] at hh hs hd
      refine ⟨_, .inl ⟨ws, p, rfl, hpf, ?_, hh.join hs hd⟩⟩
      unfold mergePrev
      rw [hprev]
      simp only [hfree, hpf, if_true]
      rfl
    | false =>
      refine ⟨h, .inr ⟨fun q hq => ?_, ?_, hh⟩⟩
      · rw [List.getLast?_concat] at hq
        cases hq
        exact hpf
      · unfold mergePrev
        rw [hprev]
        simp only [hfree, hpf]
        rfl

/-- The next block is free, or stays. -/
theorem mergeNext_spec (hh : Holds h (us ++ x :: vs)) (hs : Short (us ++ x :: vs))
    (hd : Distinct (us ++ x :: vs)) : ∃ h', (∃ n ws, vs = n :: ws ∧ n.free = true ∧
        mergeNext x.addr h = some h' ∧ Holds h' (us ++ joinSeg x n :: ws)) ∨
      ((∀ n ∈ vs.head?, n.free = false) ∧ mergeNext x.addr h = some h' ∧ Holds h' (us ++ x :: vs)) := by
  have hnext := hh.next
  cases vs with
  | nil =>
    refine ⟨h, .inr ⟨fun n hn => (nomatch hn), ?_, hh⟩⟩
    unfold mergeNext
    rw [hnext]
    rfl
  | cons n ws =>
    have hn : n ∈ us ++ x :: n :: ws := by simp
    have hfree := getBlockFree_of (hh.tag n hn) (hs n hn)
    cases hnf : n.free with
    | true =>
      refine ⟨_, .inl ⟨n, ws, rfl, hnf, ?_, hh.join hs hd⟩⟩
      unfold mergeNext
      rw [hnext]
      simp only [first, hfree, hnf, if_true]
      rfl
    | false =>
      refine ⟨h, .inr ⟨fun q hq => ?_, ?_, hh⟩⟩
      · cases hq
        exact hnf
      · unfold mergeNext
        rw [hnext]
        simp only [first, hfree, hnf]
        rfl

end

/-! ## The operations on a tiling -/

section

variable {h : Heap} {a b : ℕ} {x y : Seg} {xs us vs : List Seg}

theorem distinct_of_tiles (ht : Tiles a xs b) (hp : ∀ x ∈ xs, 0 < x.len) : Distinct xs := by
  refine ht.pairwise.imp_of_mem fun {x y} hx _ hxy => ?_
  have := hp x hx
  omega

theorem short_of_tiles (ht : Tiles a xs b) (hb : b < a + 2 ^ 30) : Short xs := by
  intro x hx
  have := ht.mem hx
  omega

/-- **`malloc` carves** the first block that fits. -/
theorem mallocFrom_carve {size : Word} {fuel : ℕ} {r : Option ℕ × Heap} (hl : Layout a b xs)
    (hb : b < a + 2 ^ 30) (hh : Holds h xs) (hpos : 0 < size.toNat)
    (he : mallocFrom size fuel (h.links.next blocks) h = some r) :
    (∃ us x vs, xs = us ++ x :: vs ∧ fits size.toNat x = true ∧
      carve sizeofMallocTag size.toNat xs =
        some (cutAddr sizeofMallocTag size.toNat x, us ++ (cut sizeofMallocTag size.toNat x ++ vs)) ∧
      r.1 = some (cutAddr sizeofMallocTag size.toNat x + sizeofMallocTag) ∧
      Holds r.2 (us ++ (cut sizeofMallocTag size.toNat x ++ vs))) ∨
    carve sizeofMallocTag size.toNat xs = none ∧ r = (none, h) := by
  have hs := short_of_tiles hl.tiles hb
  rw [hh.next_head] at he
  have hmax := mallocFrom_mono (le_max_left fuel (xs.length + 1)) he
  rcases mallocFrom_head size hs hh with ⟨us, x, vs, rfl, hus, hx, hm⟩ | ⟨hnone, hm⟩
  · rw [mallocFrom_mono (le_max_right fuel _) hm] at hmax
    cases hmax
    obtain ⟨haddr, hholds⟩ := mallocAt_spec hh hs (distinct_of_tiles hl.tiles hl.pos) hx hl.outside hpos
    exact .inl ⟨us, x, vs, rfl, hx, carve_of_fits hus hx, congrArg some haddr, hholds⟩
  · rw [mallocFrom_mono (le_max_right fuel _) hm] at hmax
    cases hmax
    exact .inr ⟨carve_none hnone, rfl⟩

/-- `malloc` comes to the end of the list. -/
theorem mallocFrom_some (size : Word) (hl : Layout a b xs) (hb : b < a + 2 ^ 30) (hh : Holds h xs) :
    ∃ r, mallocFrom size (xs.length + 1) (h.links.next blocks) h = some r := by
  rw [hh.next_head]
  rcases mallocFrom_head size (short_of_tiles hl.tiles hb) hh with
    ⟨us, x, vs, -, -, -, hm⟩ | ⟨-, hm⟩
  · exact ⟨_, hm⟩
  · exact ⟨_, hm⟩

/-- The block that is being joined takes in the previous one. -/
theorem joins_mergePrev {m : Seg} {ms : List Seg} (hl : Layout a b xs) (hb : b < a + 2 ^ 30)
    (hj : Joins xs x us ms m vs) (hh : Holds h (us ++ m :: vs)) :
    ∃ h' us' ms' m', mergePrev m.addr h = some (m'.addr, h') ∧ Holds h' (us' ++ m' :: vs) ∧
      Joins xs x us' ms' m' vs ∧ ∀ p ∈ us'.getLast?, p.free = false := by
  have ht := hj.tiles_all hl.tiles
  obtain ⟨h', ⟨ws, p, rfl, hp, he, hh'⟩ | ⟨hlast, he, hh'⟩⟩ :=
    mergePrev_spec hh (short_of_tiles ht hb) (distinct_of_tiles ht (hj.pos_all hl.pos))
  · refine ⟨h', ws, p :: ms, joinSeg p m, he, hh', hj.left hl.tiles hp, ?_⟩
    have hnoPair := hl.noPair
    rw [hj.split, List.append_assoc] at hnoPair
    exact (hnoPair.neighbours hp).1
  · exact ⟨h', us, ms, m, he, hh', hj, hlast⟩

/-- It takes in the next one. -/
theorem joins_mergeNext {m : Seg} {ms : List Seg} (hl : Layout a b xs) (hb : b < a + 2 ^ 30)
    (hj : Joins xs x us ms m vs) (hh : Holds h (us ++ m :: vs)) :
    ∃ h' ms' m' vs', mergeNext m.addr h = some h' ∧ Holds h' (us ++ m' :: vs') ∧
      Joins xs x us ms' m' vs' ∧ ∀ n ∈ vs'.head?, n.free = false := by
  have ht := hj.tiles_all hl.tiles
  obtain ⟨h', ⟨n, ws, rfl, hn, he, hh'⟩ | ⟨hhead, he, hh'⟩⟩ :=
    mergeNext_spec hh (short_of_tiles ht hb) (distinct_of_tiles ht (hj.pos_all hl.pos))
  · refine ⟨h', ms ++ [n], joinSeg m n, ws, he, hh', hj.right hl.tiles hn, ?_⟩
    have hnoPair := hl.noPair
    rw [hj.split, ← List.append_assoc] at hnoPair
    exact (hnoPair.neighbours hn).2
  · exact ⟨h', ms, m, vs, he, hh', hj, hhead⟩

/-- **`free` joins** the block with its free neighbours. -/
theorem free_spec (hl : Layout a b xs) (hb : b < a + 2 ^ 30) (hh : Holds h xs) (hx : x ∈ xs) :
    ∃ h' us ms m vs, free (x.addr + sizeofMallocTag) h = some h' ∧ Holds h' (us ++ m :: vs) ∧
      Joins xs x us ms m vs ∧ Layout a b (us ++ m :: vs) := by
  obtain ⟨us, vs, rfl⟩ := List.append_of_mem hx
  let x' : Seg := { x with free := true }
  have hj1 : Joins (us ++ x :: vs) x us [x] x' vs :=
    ⟨rfl, ⟨rfl, rfl⟩, rfl, List.mem_singleton_self x, fun w hw => .inr (List.mem_singleton.mp hw)⟩
  have hh1 : Holds (setBlockFree x.addr true h) (us ++ x' :: vs) := by
    rw [setBlockFree_true_of (hh.tag x hx)]
    exact hh.setWord (y := x') (distinct_of_tiles hl.tiles hl.pos) rfl
  obtain ⟨h2, us2, ms2, m2, he2, hh2, hj2, hlast⟩ := joins_mergePrev hl hb hj1 hh1
  obtain ⟨h3, ms3, m3, vs3, he3, hh3, hj3, hhead⟩ := joins_mergeNext hl hb hj2 hh2
  refine ⟨h3, us2, ms3, m3, vs3, ?_, hh3, hj3, hl.join hj3 hlast hhead⟩
  unfold Malloc.free
  rw [Nat.add_sub_cancel]
  exact Option.bind_eq_some_iff.mpr ⟨_, he2, he3⟩

end

end PikoRT.Libc.Blocks

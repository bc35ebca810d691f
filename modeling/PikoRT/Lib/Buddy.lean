import Mathlib

/-! # Binary buddies

A block of order `o` and index `i` is the `i`-th aligned run of `2 ^ o` pages.
A set of blocks is canonical up to order `M` when its blocks are disjoint and
no two buddies below `M` are both in it. A canonical set is determined by the
pages it covers (`Canonical.eq_of_pagesOf`), and the two operations of a buddy
allocator, carving a small block out of a large one and releasing a block with
coalescing, keep the set canonical and change the covered pages by exactly the
block (`carve_spec`, `release_spec`). -/
namespace PikoRT.Lib.Buddy

/-- The `idx`-th aligned run of `2 ^ order` pages. -/
@[ext] structure Block where
  order : ℕ
  idx : ℕ
  deriving DecidableEq, Repr

namespace Block

/-- The pages of a block. -/
def pages (b : Block) : Set ℕ := {p | p / 2 ^ b.order = b.idx}

/-- The other half of the block one order up. -/
def buddy (b : Block) : Block := ⟨b.order, if b.idx % 2 = 0 then b.idx + 1 else b.idx - 1⟩

def parent (b : Block) : Block := ⟨b.order + 1, b.idx / 2⟩

def left (b : Block) : Block := ⟨b.order - 1, b.idx * 2⟩

def right (b : Block) : Block := ⟨b.order - 1, b.idx * 2 + 1⟩

@[simp] theorem mem_pages {b : Block} {p : ℕ} : p ∈ b.pages ↔ p / 2 ^ b.order = b.idx := Iff.rfl

theorem pages_nonempty (b : Block) : b.pages.Nonempty :=
  ⟨b.idx * 2 ^ b.order, Nat.mul_div_cancel _ (by positivity)⟩

theorem ncard_pages (b : Block) : b.pages.ncard = 2 ^ b.order := by
  have hico : b.pages = ((Finset.Ico (b.idx * 2 ^ b.order) ((b.idx + 1) * 2 ^ b.order) : Finset ℕ) : Set ℕ) := by
    ext p
    rw [mem_pages, Finset.coe_Ico, Set.mem_Ico, Nat.div_eq_iff (by positivity), Nat.succ_mul]
    have hpos : 0 < 2 ^ b.order := by positivity
    omega
  rw [hico, Set.ncard_coe_finset, Nat.card_Ico, Nat.succ_mul, Nat.add_sub_cancel_left]

/-- Halving the page number of a block's page gives the parent's index. -/
theorem div_succ (p o : ℕ) : p / 2 ^ (o + 1) = p / 2 ^ o / 2 := by
  rw [pow_succ, Nat.div_div_eq_div_mul]

theorem pages_parent (b : Block) : b.parent.pages = b.pages ∪ b.buddy.pages := by
  ext p
  simp only [parent, buddy, mem_pages, Set.mem_union, div_succ]
  split <;> omega

theorem disjoint_buddy (b : Block) : Disjoint b.pages b.buddy.pages := by
  refine Set.disjoint_left.mpr fun p hb hc => ?_
  simp only [buddy, mem_pages] at hb hc
  split at hc <;> omega

theorem left_buddy (b : Block) : b.left.buddy = b.right := by
  simp [left, right, buddy]

theorem right_buddy (b : Block) : b.right.buddy = b.left := by
  simp [left, right, buddy]

theorem left_parent {b : Block} (h : 0 < b.order) : b.left.parent = b := by
  ext
  · simp only [left, parent]; omega
  · simp [left, parent]

theorem buddy_buddy (b : Block) : b.buddy.buddy = b := by
  ext
  · rfl
  · simp only [buddy]; split <;> split <;> omega

theorem pages_halves {b : Block} (h : 0 < b.order) : b.pages = b.left.pages ∪ b.right.pages := by
  rw [← left_buddy, ← pages_parent, left_parent h]

theorem eq_of_order_eq {b c : Block} {p : ℕ} (ho : b.order = c.order) (hb : p ∈ b.pages)
    (hc : p ∈ c.pages) : b = c := by
  rw [mem_pages] at hb hc
  ext
  · exact ho
  · rw [← hb, ← hc, ho]

theorem disjoint_of_order_eq {b c : Block} (ho : b.order = c.order) (hne : b ≠ c) :
    Disjoint b.pages c.pages :=
  Set.disjoint_left.mpr fun _ hb hc => hne (eq_of_order_eq ho hb hc)

/-- Blocks that share a page are nested. -/
theorem pages_subset {b c : Block} {p : ℕ} (ho : b.order ≤ c.order) (hb : p ∈ b.pages)
    (hc : p ∈ c.pages) : b.pages ⊆ c.pages := by
  obtain ⟨d, hd⟩ := Nat.exists_eq_add_of_le ho
  have key : ∀ q, q / 2 ^ c.order = q / 2 ^ b.order / 2 ^ d := fun q => by
    rw [hd, pow_add, Nat.div_div_eq_div_mul]
  intro q hq
  rw [mem_pages] at hb hc hq ⊢
  rw [key, hq, ← hb, ← key, hc]

end Block

open Block

/-- The pages covered by a set of blocks. -/
def pagesOf (F : Set Block) : Set ℕ := {p | ∃ b ∈ F, p ∈ b.pages}

theorem pages_subset_pagesOf {F : Set Block} {b : Block} (h : b ∈ F) : b.pages ⊆ pagesOf F :=
  fun _ hp => ⟨b, h, hp⟩

theorem pagesOf_insert (b : Block) (F : Set Block) :
    pagesOf (insert b F) = pagesOf F ∪ b.pages := by
  ext p
  simp only [pagesOf, Set.mem_insert_iff, Set.mem_ofPred_eq, Set.mem_union, exists_eq_or_imp]
  exact or_comm

/-- Disjoint blocks of orders up to `M`, no two buddies below `M` among them. -/
structure Canonical (M : ℕ) (F : Set Block) : Prop where
  orders : ∀ b ∈ F, b.order ≤ M
  tiles : F.PairwiseDisjoint Block.pages
  coalesced : ∀ b ∈ F, b.order < M → b.buddy ∉ F

section

variable {M : ℕ} {F G : Set Block}

theorem Canonical.eq_of_mem (h : Canonical M F) {b c : Block} {p : ℕ} (hb : b ∈ F) (hc : c ∈ F)
    (hpb : p ∈ b.pages) (hpc : p ∈ c.pages) : b = c :=
  h.tiles.elim_set hb hc p hpb hpc

/-- A block whose pages are all covered, and that overlaps no larger block, is
in the set: its halves would otherwise be in it together. -/
theorem Canonical.mem_of_pages_subset (h : Canonical M F) {b : Block} (ho : b.order ≤ M)
    (hsub : b.pages ⊆ pagesOf F)
    (hbig : ∀ c ∈ F, b.order < c.order → Disjoint b.pages c.pages) : b ∈ F := by
  obtain ⟨o, i⟩ := b
  induction o generalizing i with
  | zero =>
    obtain ⟨p, hp⟩ := pages_nonempty ⟨0, i⟩
    obtain ⟨c, hc, hpc⟩ := hsub hp
    rcases Nat.eq_zero_or_pos c.order with h0 | hpos
    · rwa [eq_of_order_eq (by simp [h0]) hp hpc]
    · exact absurd hpc (Set.disjoint_left.mp (hbig c hc hpos) hp)
  | succ o ih =>
    by_contra hb
    have hhalf : (⟨o + 1, i⟩ : Block).pages =
        (⟨o, i * 2⟩ : Block).pages ∪ (⟨o, i * 2 + 1⟩ : Block).pages := pages_halves (by simp)
    have hfree : ∀ c ∈ F, o < c.order → Disjoint (⟨o + 1, i⟩ : Block).pages c.pages := by
      intro c hc hlt
      rcases Nat.lt_or_ge (o + 1) c.order with hlt' | hge
      · exact hbig c hc hlt'
      · exact disjoint_of_order_eq (by simp; omega) (fun e => hb (e ▸ hc))
    have hl : (⟨o, i * 2⟩ : Block) ∈ F := by
      have hs : (⟨o, i * 2⟩ : Block).pages ⊆ (⟨o + 1, i⟩ : Block).pages := by
        rw [hhalf]; exact Set.subset_union_left
      exact ih _ (by simp at ho ⊢; omega) (hs.trans hsub) fun c hc hlt => (hfree c hc hlt).mono_left hs
    have hr : (⟨o, i * 2 + 1⟩ : Block) ∈ F := by
      have hs : (⟨o, i * 2 + 1⟩ : Block).pages ⊆ (⟨o + 1, i⟩ : Block).pages := by
        rw [hhalf]; exact Set.subset_union_right
      exact ih _ (by simp at ho ⊢; omega) (hs.trans hsub) fun c hc hlt => (hfree c hc hlt).mono_left hs
    exact h.coalesced _ hl (by simp at ho ⊢; omega) (by simpa [buddy] using hr)

/-- A block whose pages are all covered lies in one block of the set. -/
theorem Canonical.exists_cover (h : Canonical M F) {b : Block} (ho : b.order ≤ M)
    (hsub : b.pages ⊆ pagesOf F) : ∃ c ∈ F, b.order ≤ c.order ∧ b.pages ⊆ c.pages := by
  by_cases hbig : ∃ c ∈ F, b.order < c.order ∧ ¬ Disjoint b.pages c.pages
  · obtain ⟨c, hc, hlt, hmeet⟩ := hbig
    obtain ⟨p, hpb, hpc⟩ := Set.not_disjoint_iff.mp hmeet
    exact ⟨c, hc, hlt.le, pages_subset hlt.le hpb hpc⟩
  · refine ⟨b, h.mem_of_pages_subset ho hsub fun c hc hlt => ?_, le_rfl, subset_rfl⟩
    by_contra hmeet
    exact hbig ⟨c, hc, hlt, hmeet⟩

theorem Canonical.subset_of_pagesOf (hF : Canonical M F) (hG : Canonical M G)
    (h : pagesOf F = pagesOf G) : F ⊆ G := by
  intro b hb
  refine hG.mem_of_pages_subset (hF.orders b hb) (h ▸ pages_subset_pagesOf hb) ?_
  intro c hc hlt
  by_contra hov
  obtain ⟨p, hpb, hpc⟩ := Set.not_disjoint_iff.mp hov
  -- a larger block of `G` over `b` would be in `F` too, where it overlaps `b`
  have hcF : c ∈ F := by
    refine hF.mem_of_pages_subset (hG.orders c hc) (h ▸ pages_subset_pagesOf hc) ?_
    intro d hd hcd
    by_contra hov'
    obtain ⟨q, hqc, hqd⟩ := Set.not_disjoint_iff.mp hov'
    have hpd : p ∈ d.pages := pages_subset hcd.le hqc hqd hpc
    have := hF.eq_of_mem hb hd hpb hpd
    subst this
    omega
  have := hF.eq_of_mem hb hcF hpb hpc
  subst this
  omega

/-- **Canonical form.** A canonical set of blocks is determined by the pages it
covers. -/
theorem Canonical.eq_of_pagesOf (hF : Canonical M F) (hG : Canonical M G)
    (h : pagesOf F = pagesOf G) : F = G :=
  (hF.subset_of_pagesOf hG h).antisymm (hG.subset_of_pagesOf hF h.symm)

/-- Taking a block out uncovers exactly its pages. -/
theorem Canonical.diff (h : Canonical M F) {b : Block} (hb : b ∈ F) :
    Canonical M (F \ {b}) ∧ Disjoint b.pages (pagesOf (F \ {b})) ∧
      pagesOf (F \ {b}) ∪ b.pages = pagesOf F := by
  refine ⟨⟨fun c hc => h.orders c hc.1, h.tiles.subset Set.sdiff_subset,
    fun c hc hlt hbc => h.coalesced c hc.1 hlt hbc.1⟩, ?_, ?_⟩
  · refine Set.disjoint_left.mpr fun p hp ⟨c, hc, hpc⟩ => hc.2 ?_
    exact h.eq_of_mem hc.1 hb hpc hp
  · rw [← pagesOf_insert, Set.insert_sdiff_singleton, Set.insert_eq_of_mem hb]

/-- A block apart from the covered pages, whose buddy is not in the set, can be
put in. -/
theorem Canonical.insert (h : Canonical M F) {b : Block} (ho : b.order ≤ M)
    (hd : Disjoint b.pages (pagesOf F)) (hb : b.order < M → b.buddy ∉ F) :
    Canonical M (insert b F) := by
  refine ⟨?_, ?_, ?_⟩
  · rintro c (rfl | hc)
    · exact ho
    · exact h.orders c hc
  · refine h.tiles.insert fun c hc _ => ?_
    exact hd.mono_right (pages_subset_pagesOf hc)
  · rintro c (rfl | hc) hlt (hbc | hbc)
    · obtain ⟨p, hp⟩ := c.pages_nonempty
      exact Set.disjoint_left.mp c.disjoint_buddy hp (by rw [hbc]; exact hp)
    · exact hb hlt hbc
    · refine hb (hbc ▸ hlt) ?_
      rwa [← hbc, buddy_buddy]
    · exact h.coalesced c hc hlt hbc

end

/-- Split the block in hand, keep the left half and give the right half back,
until the block in hand has order `k`. -/
def carve (k : ℕ) (G : Set Block) (b : Block) : Set Block × Block :=
  if k < b.order then carve k (insert b.right G) b.left else (G, b)
termination_by b.order
decreasing_by simp only [left]; omega

theorem carve_order (k : ℕ) (G : Set Block) (b : Block) (hk : k ≤ b.order) :
    (carve k G b).2.order = k := by
  induction hn : b.order generalizing G b with
  | zero =>
    rw [carve, if_neg (by omega)]
    exact hn.trans (by omega)
  | succ n ih =>
    rw [carve]
    split
    · exact ih _ b.left (by simp only [left]; omega) (by simp [left, hn])
    · exact hn.trans (by omega)

/-- Carving takes nothing away from the set it adds to. -/
theorem subset_carve (k : ℕ) (G : Set Block) (b : Block) : G ⊆ (carve k G b).1 := by
  induction hn : b.order generalizing G b with
  | zero => rw [carve, if_neg (by omega)]
  | succ n ih =>
    rw [carve]
    split
    · exact (Set.subset_insert _ _).trans (ih _ b.left (by simp [left, hn]))
    · exact subset_rfl

/-- **Carving.** From a canonical set without blocks of orders `k` up to the
order of the block in hand, carving leaves a canonical set that covers what the
two covered, less the block of order `k` that is returned. -/
theorem carve_spec {M k : ℕ} {G : Set Block} {b : Block} (h : Canonical M G) (ho : b.order ≤ M)
    (hk : k ≤ b.order) (hd : Disjoint b.pages (pagesOf G))
    (hgap : ∀ c ∈ G, k ≤ c.order → b.order ≤ c.order) :
    Canonical M (carve k G b).1 ∧ (carve k G b).2 = ⟨k, b.idx * 2 ^ (b.order - k)⟩ ∧
      (carve k G b).2.pages ⊆ b.pages ∧
      Disjoint (carve k G b).2.pages (pagesOf (carve k G b).1) ∧
      pagesOf (carve k G b).1 ∪ (carve k G b).2.pages = pagesOf G ∪ b.pages := by
  induction hn : b.order generalizing G b with
  | zero =>
    have hk0 : k = 0 := by omega
    rw [carve, if_neg (by omega)]
    exact ⟨h, by ext <;> simp [hn, hk0], subset_rfl, hd, rfl⟩
  | succ n ih =>
    by_cases hlt : k < b.order
    · have hpos : 0 < b.order := by omega
      have hhalf := pages_halves hpos
      have hl : b.left.order = n := by simp [left, hn]
      have hr : b.right.order = n := by simp [right, hn]
      have hright : Canonical M (insert b.right G) := by
        refine h.insert (by omega) (hd.mono_left (by rw [hhalf]; exact Set.subset_union_right)) ?_
        intro _ hbud
        have := hgap _ hbud (by rw [right_buddy]; omega)
        rw [right_buddy] at this
        omega
      have hdl : Disjoint b.left.pages (pagesOf (insert b.right G)) := by
        rw [pagesOf_insert, Set.disjoint_union_right, ← left_buddy]
        exact ⟨hd.mono_left (by rw [hhalf]; exact Set.subset_union_left), b.left.disjoint_buddy⟩
      have hgap' : ∀ c ∈ insert b.right G, k ≤ c.order → b.left.order ≤ c.order := by
        rintro c (rfl | hc) hkc
        · omega
        · have := hgap c hc hkc; omega
      have hstep : carve k G b = carve k (insert b.right G) b.left := by
        rw [carve, if_pos hlt]
      obtain ⟨hc, hblk, hsub, hdis, hcov⟩ := ih hright (by omega) (by omega) hdl hgap' hl
      rw [hstep]
      refine ⟨hc, ?_, hsub.trans (by rw [hhalf]; exact Set.subset_union_left), hdis, ?_⟩
      · rw [hblk]
        have : n + 1 - k = (n - k) + 1 := by omega
        ext
        · rfl
        · simp only [left, this, pow_succ]; ring
      · rw [hcov, pagesOf_insert, hhalf, Set.union_assoc, Set.union_comm b.right.pages]
    · have hkb : k = b.order := by omega
      rw [carve, if_neg hlt]
      exact ⟨h, by ext <;> simp [hkb, hn], subset_rfl, hd, rfl⟩

open Classical in
/-- Put a block back: while its buddy is in the set, merge the two and go on
with their parent. -/
noncomputable def release (M : ℕ) (F : Set Block) (b : Block) : Set Block :=
  if b.order < M ∧ b.buddy ∈ F then release M (F \ {b.buddy}) b.parent else insert b F
termination_by M - b.order
decreasing_by simp only [parent]; omega

/-- **Releasing.** Coalescing keeps the set canonical and covers the pages of
the released block besides those covered before. -/
theorem release_spec {M : ℕ} {F : Set Block} {b : Block} (h : Canonical M F) (ho : b.order ≤ M)
    (hd : Disjoint b.pages (pagesOf F)) :
    Canonical M (release M F b) ∧ pagesOf (release M F b) = pagesOf F ∪ b.pages := by
  induction hn : M - b.order generalizing F b with
  | zero =>
    rw [release, if_neg (by omega)]
    exact ⟨h.insert ho hd (by omega), pagesOf_insert b F⟩
  | succ n ih =>
    by_cases hb : b.order < M ∧ b.buddy ∈ F
    · obtain ⟨hcan, hdis, hcov⟩ := h.diff hb.2
      have hpar : Disjoint b.parent.pages (pagesOf (F \ {b.buddy})) := by
        rw [pages_parent, Set.disjoint_union_left]
        refine ⟨hd.mono_right ?_, hdis⟩
        rw [← hcov]; exact Set.subset_union_left
      have hord : b.parent.order ≤ M := by simp only [parent]; omega
      obtain ⟨hc, hp⟩ := ih hcan hord hpar (by simp only [parent]; omega)
      rw [release, if_pos hb]
      refine ⟨hc, ?_⟩
      rw [hp, pages_parent, ← hcov, Set.union_comm b.pages, Set.union_assoc]
    · rw [release, if_neg hb]
      exact ⟨h.insert ho hd (fun hlt hbud => hb ⟨hlt, hbud⟩), pagesOf_insert b F⟩

/-- Blocks of the largest order are never merged away. -/
theorem mem_release {M : ℕ} {F : Set Block} {b c : Block} (hc : c ∈ F) (ho : c.order = M) :
    c ∈ release M F b := by
  induction hn : M - b.order generalizing F b with
  | zero =>
    rw [release, if_neg (by omega)]
    exact Set.mem_insert_of_mem _ hc
  | succ n ih =>
    rw [release]
    split
    · rename_i hb
      refine ih ⟨hc, ?_⟩ (by simp only [parent]; omega)
      rintro rfl
      simp only [buddy] at ho
      omega
    · exact Set.mem_insert_of_mem _ hc

/-! ## Free blocks and held blocks -/

/-- The blocks of `F` are free and those of `L` are held: together they tile the
pages of `U`, the free ones in canonical form. -/
structure Ledger (M : ℕ) (U : Set ℕ) (F : Set Block) (L : List Block) : Prop where
  canonical : Canonical M F
  apart : L.Pairwise fun b c => Disjoint b.pages c.pages
  inside : ∀ b ∈ L, b.order ≤ M ∧ b.pages ⊆ U
  cover : ∀ p, p ∈ pagesOf F ↔ p ∈ U ∧ ∀ b ∈ L, p ∉ b.pages

namespace Ledger

variable {M : ℕ} {U : Set ℕ} {F G : Set Block} {L L' : List Block}

theorem pages_subset_of_mem (h : Ledger M U F L) {b : Block} (hb : b ∈ F) : b.pages ⊆ U :=
  fun p hp => ((h.cover p).mp ⟨b, hb, hp⟩).1

theorem disjoint_of_mem (h : Ledger M U F L) {b c : Block} (hb : b ∈ F) (hc : c ∈ L) :
    Disjoint b.pages c.pages :=
  Set.disjoint_left.mpr fun p hp => ((h.cover p).mp ⟨b, hb, hp⟩).2 c hc

theorem perm (h : Ledger M U F L) (hp : L.Perm L') : Ledger M U F L' := by
  refine ⟨h.canonical, ?_, fun b hb => h.inside b (hp.mem_iff.mpr hb), fun p => ?_⟩
  · exact (hp.pairwise_iff fun h => h.symm).mp h.apart
  · rw [h.cover p]
    simp only [hp.mem_iff]

/-- The free blocks are determined by the held ones. -/
theorem free_eq (hF : Ledger M U F L) (hG : Ledger M U G L) : F = G := by
  refine hF.canonical.eq_of_pagesOf hG.canonical ?_
  ext p
  rw [hF.cover, hG.cover]

/-- Carving a block out of a free one takes it from the free to the held. -/
theorem take (h : Ledger M U F L) {b : Block} {k : ℕ} (hb : b ∈ F) (hk : k ≤ b.order)
    (hleast : ∀ c ∈ F, k ≤ c.order → b.order ≤ c.order) :
    Ledger M U (carve k (F \ {b}) b).1 ((carve k (F \ {b}) b).2 :: L) := by
  obtain ⟨hcan, hdis, hcov⟩ := h.canonical.diff hb
  obtain ⟨hc, hblk, hsub, hd, hpages⟩ := carve_spec hcan (h.canonical.orders b hb) hk hdis
    (fun c hc hkc => hleast c hc.1 hkc)
  rw [hcov] at hpages
  have hfree : ∀ p ∈ (carve k (F \ {b}) b).2.pages, p ∈ pagesOf F := fun p hp =>
    pages_subset_pagesOf hb (hsub hp)
  refine ⟨hc, List.pairwise_cons.mpr ⟨?_, h.apart⟩, ?_, fun p => ?_⟩
  · intro c hcL
    exact Set.disjoint_left.mpr fun p hp => ((h.cover p).mp (hfree p hp)).2 c hcL
  · intro c hcL
    rcases List.mem_cons.mp hcL with rfl | hcL
    · refine ⟨?_, hsub.trans (h.pages_subset_of_mem hb)⟩
      rw [carve_order k _ b hk]
      exact hk.trans (h.canonical.orders b hb)
    · exact h.inside c hcL
  · rw [List.forall_mem_cons, ← and_left_comm, ← h.cover p, ← hpages, Set.mem_union]
    constructor
    · intro hp
      exact ⟨fun hin => Set.disjoint_left.mp hd hin hp, Or.inl hp⟩
    · rintro ⟨hn, hp | hp⟩
      · exact hp
      · exact absurd hp hn

/-- Releasing a held block takes it back to the free. -/
theorem give {b : Block} (h : Ledger M U F (b :: L)) : Ledger M U (release M F b) L := by
  obtain ⟨ho, hU⟩ := h.inside b (by simp)
  have hd : Disjoint b.pages (pagesOf F) :=
    Set.disjoint_right.mpr fun p hp => ((h.cover p).mp hp).2 b (by simp)
  obtain ⟨hcan, hpages⟩ := release_spec h.canonical ho hd
  obtain ⟨hb, hrest⟩ := List.pairwise_cons.mp h.apart
  refine ⟨hcan, hrest, fun c hc => h.inside c (List.mem_cons_of_mem _ hc), fun p => ?_⟩
  rw [hpages, Set.mem_union, h.cover p, List.forall_mem_cons]
  constructor
  · rintro (⟨hpU, -, hp⟩ | hp)
    · exact ⟨hpU, hp⟩
    · exact ⟨hU hp, fun c hc => Set.disjoint_left.mp (hb c hc) hp⟩
  · rintro ⟨hpU, hp⟩
    by_cases hpb : p ∈ b.pages
    · exact Or.inr hpb
    · exact Or.inl ⟨hpU, hpb, hp⟩

/-- A block that is held, seen as pages that are not there. -/
theorem shut {b : Block} (h : Ledger M U F (b :: L)) : Ledger M (U \ b.pages) F L := by
  obtain ⟨hb, hrest⟩ := List.pairwise_cons.mp h.apart
  refine ⟨h.canonical, hrest, fun c hc => ?_, fun p => ?_⟩
  · obtain ⟨ho, hU⟩ := h.inside c (List.mem_cons_of_mem _ hc)
    exact ⟨ho, Set.subset_sdiff.mpr ⟨hU, (hb c hc).symm⟩⟩
  · rw [h.cover p, List.forall_mem_cons, Set.mem_sdiff, and_assoc]

/-- The free pages and the held ones are all the pages. -/
theorem ncard (h : Ledger M U F L) (hU : U.Finite) :
    (pagesOf F).ncard + (L.map fun b => 2 ^ b.order).sum = U.ncard := by
  induction L generalizing U with
  | nil =>
    have hF : pagesOf F = U := by
      ext p
      simp [h.cover p]
    rw [hF, List.map_nil, List.sum_nil, Nat.add_zero]
  | cons b L ih =>
    obtain ⟨-, hb⟩ := h.inside b List.mem_cons_self
    have hrest := ih h.shut (hU.subset Set.sdiff_subset)
    have hdiff := Set.ncard_sdiff_add_ncard_of_subset hb hU
    rw [b.ncard_pages] at hdiff
    rw [List.map_cons, List.sum_cons]
    omega

end Ledger

end PikoRT.Lib.Buddy

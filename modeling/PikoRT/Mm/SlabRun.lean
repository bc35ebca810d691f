import PikoRT.Kernel.ListFamily
import PikoRT.Lib.Run
import PikoRT.Mm.SlabPage

/-! # Runs of the caches

In every state that the calls lead to, each slab is on the list that its counter says,
the counter agrees with the bitmap, and the bits are the live objects. The slab and the
bit of an object are found again from its address, because pages are aligned and the
objects of a slab lie behind the header inside its page. -/
namespace PikoRT.Mm.SlabRun
open PikoRT.Lib.Run PikoRT.Kernel.Bitops PikoRT.Kernel.LinuxList PikoRT.Kernel.ListFamily
open PikoRT.Mm.Page PikoRT.Mm.PageUse PikoRT.Mm.Slab PikoRT.Mm.SlabPage
open PikoRT.Mm.PageRun (PgMem Lease Call boot pgMem64k)

/-! ## The invariant -/

/-- The list a slab belongs to, by its counter. -/
def Belongs (free num : ℤ) : SlabList → Prop
  | .slabsFree => free = num
  | .slabsPartial => 0 < free ∧ free < num
  | .slabsFull => free = 0

/-- What holds of a live object. -/
structure Placed (s : System) (o : Object) : Prop where
  slab : (o.cache, o.slab) ∈ s.slabs
  bit : o.bit < s.objnum o.cache
  addr : o.addr = objectAddr o.slab o.bit (s.objsize o.cache)
  set : testBit [s.freeBitmap o.slab] o.bit = true

theorem Placed.congr {s t : System} {o : Object} (hp : Placed s o) (hslab : (o.cache, o.slab) ∈ t.slabs)
    (hnum : t.objnum o.cache = s.objnum o.cache) (hsize : t.objsize o.cache = s.objsize o.cache)
    (hbits : t.freeBitmap o.slab = s.freeBitmap o.slab) : Placed t o :=
  ⟨hslab, hnum ▸ hp.bit, hsize ▸ hp.addr, hbits ▸ hp.set⟩

/-- The invariant but for the choice of the lists. -/
structure Base (mem : PgMem) (s : System) (q : Head → List Addr) : Prop where
  pages : PageRun.Inv mem s.pages
  lists : Lists {h | h.1 ∈ s.caches} s.links q
  static : .cacheCaches ∈ s.caches
  sizes : ∀ c ∈ s.caches, 8 ≤ s.objsize c ∧ s.objsize c ≤ 120 ∧ s.objnum c = objectsPerSlab (s.objsize c)
  slabs : ∀ c a, (c, a) ∈ s.slabs ↔ ∃ k, a ∈ q (c, k)
  held : ∀ x ∈ s.slabs, ⟨x.2, 0⟩ ∈ s.pages.live
  counts : ∀ x ∈ s.slabs, s.freeObjects x.2 = s.objnum x.1 - used (s.objnum x.1) (s.freeBitmap x.2)
  objects : ∀ o ∈ s.live, Placed s o
  keys : s.live.Pairwise fun o p => o.slab ≠ p.slab ∨ o.bit ≠ p.bit
  taken : ∀ x ∈ s.slabs, ∀ i < s.objnum x.1, testBit [s.freeBitmap x.2] i = true →
    ∃ o ∈ s.live, o.slab = x.2 ∧ o.bit = i
  made : ∀ a, .made a ∈ s.caches → ∃ o ∈ s.live, o.cache = .cacheCaches ∧ o.addr = a

structure Inv (mem : PgMem) (s : System) (q : Head → List Addr) : Prop extends Base mem s q where
  sorted : ∀ c k a, a ∈ q (c, k) → Belongs (s.freeObjects a) (s.objnum c) k

section

variable {mem : PgMem} {s : System} {q : Head → List Addr} {c : Cache} {k : SlabList} {a : Addr} {o p : Object}

theorem Base.cache_mem (h : Base mem s q) (hx : (c, a) ∈ s.slabs) : c ∈ s.caches := by
  obtain ⟨k, hk⟩ := (h.slabs c a).mp hx
  exact h.lists.mem hk

/-- A slab has one cache. -/
theorem Base.cache_unique (h : Base mem s q) {d : Cache} (hc : (c, a) ∈ s.slabs) (hd : (d, a) ∈ s.slabs) : c = d := by
  obtain ⟨k, hk⟩ := (h.slabs c a).mp hc
  obtain ⟨k', hk'⟩ := (h.slabs d a).mp hd
  exact congrArg Prod.fst (h.lists.apart _ _ a hk hk')

theorem Base.objnum_bounds (h : Base mem s q) (hc : c ∈ s.caches) : 2 ≤ s.objnum c ∧ s.objnum c ≤ 30 := by
  obtain ⟨hlo, hhi, hnum⟩ := h.sizes c hc
  rw [hnum]
  unfold objectsPerSlab cachePageSize sizeofSlab
  constructor
  · exact (Nat.le_div_iff_mul_le (by omega)).mpr (by omega)
  · exact Nat.div_le_of_le_mul (by omega)

theorem Base.aligned (h : Base mem s q) (hx : (c, a) ∈ s.slabs) : a.toNat % 256 = 0 :=
  aligned_of_live h.pages (h.held _ hx)

theorem Base.inPage (h : Base mem s q) (ho : o ∈ s.live) : InPage o.bit (s.objsize o.cache) := by
  have hp := h.objects o ho
  refine inPage_of_lt ?_
  rw [← (h.sizes _ (h.cache_mem hp.slab)).2.2]
  exact hp.bit

theorem Base.toNat_addr (h : Base mem s q) (ho : o ∈ s.live) :
    o.addr.toNat = o.slab.toNat + sizeofSlab + o.bit * s.objsize o.cache := by
  have hp := h.objects o ho
  have hsize := (h.sizes _ (h.cache_mem hp.slab)).1
  rw [hp.addr]
  exact toNat_objectAddr (h.aligned hp.slab) (h.inPage ho) (by omega)

/-- **The slab and the bit are found again.** -/
theorem Base.recompute (h : Base mem s q) (ho : o ∈ s.live) :
    getSlabFromObj o.addr 256 = o.slab ∧ objIndexInSlab o.addr (s.objsize o.cache) = o.bit := by
  have hp := h.objects o ho
  have hsize := (h.sizes _ (h.cache_mem hp.slab)).1
  rw [hp.addr]
  exact ⟨getSlabFromObj_objectAddr (h.aligned hp.slab) (h.inPage ho) (by omega),
    objIndexInSlab_objectAddr (h.aligned hp.slab) (h.inPage ho) (by omega)⟩

/-- Objects with another slab or another bit do not overlap. -/
theorem Base.disjoint (h : Base mem s q) (ho : o ∈ s.live) (hp : p ∈ s.live)
    (hne : o.slab ≠ p.slab ∨ o.bit ≠ p.bit) :
    o.addr.toNat + s.objsize o.cache ≤ p.addr.toNat ∨ p.addr.toNat + s.objsize p.cache ≤ o.addr.toNat := by
  have hpo := h.objects o ho
  have hpp := h.objects p hp
  rw [h.toNat_addr ho, h.toNat_addr hp]
  by_cases hslab : o.slab = p.slab
  · have hcache : o.cache = p.cache := by
      have hslabo := hpo.slab
      rw [hslab] at hslabo
      exact h.cache_unique hslabo hpp.slab
    rw [hslab, hcache]
    rcases Nat.lt_or_gt_of_ne (hne.resolve_left (not_not_intro hslab)) with hlt | hlt
    · have hmul : (o.bit + 1) * s.objsize p.cache ≤ p.bit * s.objsize p.cache := Nat.mul_le_mul_right _ hlt
      rw [Nat.add_mul, Nat.one_mul] at hmul
      omega
    · have hmul : (p.bit + 1) * s.objsize p.cache ≤ o.bit * s.objsize p.cache := Nat.mul_le_mul_right _ hlt
      rw [Nat.add_mul, Nat.one_mul] at hmul
      omega
  · have hao := h.aligned hpo.slab
    have hap := h.aligned hpp.slab
    have hino := h.inPage ho
    have hinp := h.inPage hp
    have hneNat : o.slab.toNat ≠ p.slab.toNat := fun he => hslab (BitVec.eq_of_toNat_eq he)
    unfold InPage cachePageSize at hino hinp
    omega

/-! ## One list or one header changes -/

/-- A slab goes to another list of its cache. -/
theorem Base.moveTo (h : Base mem s q) (ha : a ∈ q (c, k)) (k' : SlabList) :
    ∃ q', Base mem (Slab.moveTo (c, k') a s) q' ∧
      ∀ b x, b ∈ q' x ↔ (b = a ∧ x = (c, k')) ∨ (b ≠ a ∧ b ∈ q x) := by
  have hmem : c ∈ s.caches := h.lists.mem ha
  have hc : (c, k') ∈ {x : Head | x.1 ∈ s.caches} := hmem
  have hobj : ∀ o ∈ s.live, Placed (Slab.moveTo (c, k') a s) o := fun o ho =>
    (h.objects o ho).congr (h.objects o ho).slab rfl rfl rfl
  refine ⟨_, ⟨h.pages, h.lists.move ha hc, h.static, h.sizes, fun d b => ?_, h.held, h.counts, hobj,
    h.keys, h.taken, h.made⟩, fun b x => h.lists.mem_move ha⟩
  show (d, b) ∈ s.slabs ↔ _
  rw [h.slabs d b]
  constructor
  · rintro ⟨j, hj⟩
    by_cases hb : b = a
    · subst hb
      obtain rfl : d = c := congrArg Prod.fst (h.lists.apart _ _ b hj ha)
      exact ⟨k', (h.lists.mem_move ha).mpr (.inl ⟨rfl, rfl⟩)⟩
    · exact ⟨j, (h.lists.mem_move ha).mpr (.inr ⟨hb, hj⟩)⟩
  · rintro ⟨j, hj⟩
    rcases (h.lists.mem_move ha).mp hj with ⟨rfl, he⟩ | ⟨-, hj⟩
    · obtain rfl : d = c := congrArg Prod.fst he
      exact ⟨k, ha⟩
    · exact ⟨j, hj⟩

/-- The header of a slab changes, and the objects of that slab with it. -/
theorem Base.header {w : Word} {n : ℤ} {live : List Object} (h : Base mem s q) (hx : (c, a) ∈ s.slabs)
    (hcount : n = s.objnum c - used (s.objnum c) w)
    (hobj : ∀ o ∈ live, o.slab = a → o.cache = c ∧ o.bit < s.objnum c ∧
      o.addr = objectAddr a o.bit (s.objsize c) ∧ testBit [w] o.bit = true)
    (hother : ∀ o, o.slab ≠ a → (o ∈ live ↔ o ∈ s.live))
    (hkeys : live.Pairwise fun o p => o.slab ≠ p.slab ∨ o.bit ≠ p.bit)
    (htaken : ∀ i < s.objnum c, testBit [w] i = true → ∃ o ∈ live, o.slab = a ∧ o.bit = i)
    (hmade : ∀ o ∈ s.live, o.cache = .cacheCaches → o ∈ live) :
    Base mem { s with
      freeBitmap := Function.update s.freeBitmap a w
      freeObjects := Function.update s.freeObjects a n
      live := live } q := by
  refine ⟨h.pages, h.lists, h.static, h.sizes, h.slabs, h.held, fun x hm => ?_, fun o ho => ?_, hkeys,
    fun x hm i hi hb => ?_, fun b hb => ?_⟩
  · by_cases hxa : x.2 = a
    · obtain rfl : x = (c, a) := Prod.ext (h.cache_unique (hxa ▸ hm) hx) hxa
      simpa using hcount
    · show Function.update s.freeObjects a n x.2 = _ - used _ (Function.update s.freeBitmap a w x.2)
      rw [Function.update_of_ne hxa, Function.update_of_ne hxa]
      exact h.counts x hm
  · by_cases hoa : o.slab = a
    · obtain ⟨hcache, hbit, haddr, hset⟩ := hobj o ho hoa
      subst hcache hoa
      exact ⟨hx, hbit, haddr, by simpa using hset⟩
    · have hp := h.objects o ((hother o hoa).mp ho)
      refine ⟨hp.slab, hp.bit, hp.addr, ?_⟩
      show testBit [Function.update s.freeBitmap a w o.slab] o.bit = true
      rw [Function.update_of_ne hoa]
      exact hp.set
  · by_cases hxa : x.2 = a
    · obtain rfl : x = (c, a) := Prod.ext (h.cache_unique (hxa ▸ hm) hx) hxa
      exact htaken i hi (by simpa using hb)
    · have hb' : testBit [Function.update s.freeBitmap a w x.2] i = true := hb
      rw [Function.update_of_ne hxa] at hb'
      obtain ⟨o, ho, hslab, hbit⟩ := h.taken x hm i hi hb'
      exact ⟨o, (hother o (hslab ▸ hxa)).mpr ho, hslab, hbit⟩
  · obtain ⟨o, ho, hcache, haddr⟩ := h.made b hb
    exact ⟨o, hmade o ho hcache, hcache, haddr⟩

/-- The bit of no other object. -/
theorem Base.bit_ne (h : Base mem s q) {i : ℕ} (hb : testBit [s.freeBitmap a] i = false) (ho : o ∈ s.live) :
    a ≠ o.slab ∨ i ≠ o.bit := by
  by_contra hno
  obtain ⟨rfl, rfl⟩ : a = o.slab ∧ i = o.bit := by tauto
  rw [(h.objects o ho).set] at hb
  cases hb

/-! ## `kmem_cache_alloc` -/

/-- The slab `a` of the cache has been chosen; the other slabs are on their lists. -/
structure Ready (mem : PgMem) (s : System) (q : Head → List Addr) (c : Cache) (a : Addr) : Prop
    extends Base mem s q where
  chosen : a ∈ q (c, .slabsPartial)
  some : 0 < s.freeObjects a
  others : ∀ d k b, b ∈ q (d, k) → b ≠ a → Belongs (s.freeObjects b) (s.objnum d) k

theorem Base.freeObjects_le (h : Base mem s q) (hx : (c, a) ∈ s.slabs) : s.freeObjects a ≤ s.objnum c := by
  have := h.counts _ hx
  simp only at this
  omega

/-- The header and the object, before the slab may change its list. -/
def taken (c : Cache) (a : Addr) (s : System) : System :=
  let bit := findFirstZeroBit [s.freeBitmap a] (s.objnum c)
  { s with
    freeBitmap := Function.update s.freeBitmap a ((bitmapSetBit [s.freeBitmap a] bit).headD 0)
    freeObjects := Function.update s.freeObjects a (s.freeObjects a - 1)
    live := ⟨c, objectAddr a bit (s.objsize c), a, bit⟩ :: s.live }

theorem takeObject_snd (c : Cache) (a : Addr) (s : System) :
    (takeObject c a s).2 =
      if s.freeObjects a - 1 = 0 then Slab.moveTo (c, .slabsFull) a (taken c a s) else taken c a s := by
  unfold takeObject
  simp only [Function.update_self]
  rfl

theorem Ready.mem_slabs (h : Ready mem s q c a) : (c, a) ∈ s.slabs := (h.slabs c a).mpr ⟨_, h.chosen⟩

theorem base_taken (h : Ready mem s q c a) : Base mem (taken c a s) q := by
  have hx := h.mem_slabs
  have hnum := h.objnum_bounds (h.cache_mem hx)
  have hcount : s.freeObjects a = s.objnum c - used (s.objnum c) (s.freeBitmap a) := h.counts _ hx
  have hpos := h.some
  obtain ⟨hbit, hzero⟩ : findFirstZeroBit [s.freeBitmap a] (s.objnum c) < s.objnum c ∧
      testBit [s.freeBitmap a] (findFirstZeroBit [s.freeBitmap a] (s.objnum c)) = false :=
    findFirstZeroBit_lt (by omega) (by omega)
  refine h.header hx ?_ (fun o ho hoa => ?_) (fun o hoa => ?_) ?_ (fun i hi hb => ?_) fun o ho _ => ?_
  · rw [used_set hbit (by omega) hzero, hcount]
    omega
  · rcases List.mem_cons.mp ho with rfl | ho
    · exact ⟨rfl, hbit, rfl, by rw [testBit_set (by omega)]; simp⟩
    · have hp := h.objects o ho
      subst hoa
      obtain rfl := h.cache_unique hx hp.slab
      refine ⟨rfl, hp.bit, hp.addr, ?_⟩
      rw [testBit_set (by omega), hp.set, Bool.or_true]
  · refine ⟨fun ho => (List.mem_cons.mp ho).resolve_left ?_, List.mem_cons_of_mem _⟩
    rintro rfl
    exact hoa rfl
  · exact List.pairwise_cons.mpr ⟨fun p hp => h.bit_ne hzero hp, h.keys⟩
  · rw [testBit_set (by omega)] at hb
    rcases (Bool.or_eq_true _ _).mp hb with hb | hb
    · obtain rfl : i = _ := of_decide_eq_true hb
      exact ⟨_, List.mem_cons_self, rfl, rfl⟩
    · obtain ⟨o, ho, hslab, hobit⟩ := h.taken _ hx i hi hb
      exact ⟨o, List.mem_cons_of_mem _ ho, hslab, hobit⟩
  · exact List.mem_cons_of_mem _ ho

/-- An object is taken from the chosen slab, which is then on the list it belongs to. -/
theorem inv_takeObject (h : Ready mem s q c a) : ∃ q', Inv mem (takeObject c a s).2 q' := by
  have hx := h.mem_slabs
  have hbase := base_taken h
  have hle := h.freeObjects_le hx
  have hpos := h.some
  have hself : (taken c a s).freeObjects a = s.freeObjects a - 1 := Function.update_self ..
  have hothers : ∀ d k b, b ∈ q (d, k) → b ≠ a → Belongs ((taken c a s).freeObjects b) (s.objnum d) k := by
    intro d k b hb hne
    have heq : (taken c a s).freeObjects b = s.freeObjects b := Function.update_of_ne hne ..
    rw [heq]
    exact h.others d k b hb hne
  rw [takeObject_snd]
  split
  · rename_i hzero
    obtain ⟨q', hbase', hmem⟩ := hbase.moveTo h.chosen .slabsFull
    refine ⟨q', hbase', fun d k b hb => ?_⟩
    rcases (hmem b (d, k)).mp hb with ⟨rfl, he⟩ | ⟨hne, hb⟩
    · obtain ⟨rfl, rfl⟩ := Prod.mk.inj he
      exact hself.trans hzero
    · exact hothers d k b hb hne
  · rename_i hzero
    refine ⟨q, hbase, fun d k b hb => ?_⟩
    by_cases hba : b = a
    · subst hba
      obtain ⟨rfl, rfl⟩ := Prod.mk.inj (h.lists.apart _ _ b hb h.chosen)
      show 0 < (taken d b s).freeObjects b ∧ (taken d b s).freeObjects b < s.objnum d
      rw [hself]
      omega
    · exact hothers d k b hb hba

/-- The page allocator is called, and the slabs keep their pages. -/
theorem Inv.setPages {pages : PageRun.State} (h : Inv mem s q) (hp : PageRun.Inv mem pages)
    (hheld : ∀ x ∈ s.slabs, ⟨x.2, 0⟩ ∈ pages.live) : Inv mem { s with pages := pages } q :=
  ⟨⟨hp, h.lists, h.static, h.sizes, h.slabs, hheld, h.counts,
    fun o ho => (h.objects o ho).congr (h.objects o ho).slab rfl rfl rfl, h.keys, h.taken, h.made⟩, h.sorted⟩

/-- **A new slab** has no object and is on the list of the free ones. -/
theorem inv_grow (h : Inv mem s q) (hc : c ∈ s.caches) :
    ((kmemCacheGrow mem c s).1 = none ∧ Inv mem (kmemCacheGrow mem c s).2 q) ∨
    ∃ a q', (kmemCacheGrow mem c s).1 = some a ∧ Inv mem (kmemCacheGrow mem c s).2 q' ∧
      a ∈ q' (c, .slabsFree) := by
  have hpages := inv_allocate h.pages 0
  have hheld : ∀ x ∈ s.slabs, ⟨x.2, 0⟩ ∈ (allocate mem 0 s.pages).2.live := fun x hx =>
    live_subset_allocate mem 0 s.pages (h.held x hx)
  unfold kmemCacheGrow
  cases ha : (allocate mem 0 s.pages).1 with
  | none =>
    simp only [ha]
    exact .inl ⟨trivial, h.setPages hpages hheld⟩
  | some a =>
    simp only [ha]
    have hfresh : ∀ x ∈ s.slabs, x.2 ≠ a := by
      rintro x hx rfl
      exact allocate_fresh h.pages ha (h.held x hx)
    have hnone : ∀ x, a ∉ q x := by
      rintro ⟨d, k⟩ hm
      exact hfresh (d, a) ((h.slabs d a).mpr ⟨k, hm⟩) rfl
    have hhead : (c, SlabList.slabsFree) ∈ {x : Head | x.1 ∈ s.caches} := hc
    refine .inr ⟨a, _, rfl, ⟨⟨hpages, h.lists.add hhead hnone, h.static, h.sizes, fun d b => ?_, fun x hx => ?_,
      fun x hx => ?_, fun o ho => ?_, h.keys, fun x hx i hi hb => ?_, h.made⟩, fun d k b hb => ?_⟩,
      mem_update_cons.mpr (.inl ⟨rfl, rfl⟩)⟩
    · rw [List.mem_cons, h.slabs d b]
      constructor
      · rintro (he | ⟨k, hk⟩)
        · obtain ⟨rfl, rfl⟩ := Prod.mk.inj he
          exact ⟨.slabsFree, mem_update_cons.mpr (.inl ⟨rfl, rfl⟩)⟩
        · exact ⟨k, mem_update_cons.mpr (.inr hk)⟩
      · rintro ⟨k, hk⟩
        rcases mem_update_cons.mp hk with ⟨rfl, he⟩ | hk
        · obtain ⟨rfl, -⟩ := Prod.mk.inj he
          exact .inl rfl
        · exact .inr ⟨k, hk⟩
    · rcases List.mem_cons.mp hx with rfl | hx
      · rw [allocate_some ha]
        exact List.mem_cons_self
      · exact hheld x hx
    · show Function.update s.freeObjects a _ x.2 = _ - used _ (Function.update s.freeBitmap a 0 x.2)
      rcases List.mem_cons.mp hx with rfl | hx
      · rw [Function.update_self, Function.update_self, used_zero]
        simp
      · rw [Function.update_of_ne (hfresh x hx), Function.update_of_ne (hfresh x hx)]
        exact h.counts x hx
    · have hp := h.objects o ho
      exact hp.congr (List.mem_cons_of_mem _ hp.slab) rfl rfl (Function.update_of_ne (hfresh _ hp.slab) ..)
    · have hb' : testBit [Function.update s.freeBitmap a 0 x.2] i = true := hb
      rcases List.mem_cons.mp hx with rfl | hx
      · rw [Function.update_self, testBit_zero] at hb'
        cases hb'
      · rw [Function.update_of_ne (hfresh x hx)] at hb'
        exact h.taken x hx i hi hb'
    · show Belongs (Function.update s.freeObjects a _ b) _ k
      rcases mem_update_cons.mp hb with ⟨rfl, he⟩ | hold
      · obtain ⟨rfl, rfl⟩ := Prod.mk.inj he
        rw [Function.update_self]
        rfl
      · have hne : b ≠ a := by
          rintro rfl
          exact hnone (d, k) hold
        rw [Function.update_of_ne hne]
        exact h.sorted d k b hold

/-- A slab of a list that is not empty. -/
theorem firstEntry_some (h : Base mem s q) (hc : c ∈ s.caches) (hne : listEmpty (.head (c, k)) s.links = false) :
    ∃ a, firstEntry (c, k) s = some a ∧ a ∈ q (c, k) := by
  have hhead : (c, k) ∈ {x : Head | x.1 ∈ s.caches} := hc
  have hnext := h.lists.next_head hhead
  have hempty := h.lists.listEmpty hhead
  cases hq : q (c, k) with
  | nil =>
    rw [hempty.mpr hq] at hne
    cases hne
  | cons a rest =>
    refine ⟨a, ?_, List.mem_cons_self⟩
    unfold firstEntry
    rw [hnext, hq]
    rfl

theorem ready_of_partial (h : Inv mem s q) (ha : a ∈ q (c, .slabsPartial)) : Ready mem s q c a :=
  ⟨h.toBase, ha, (h.sorted c _ a ha).1, fun d k b hb _ => h.sorted d k b hb⟩

theorem ready_of_free (h : Inv mem s q) (ha : a ∈ q (c, .slabsFree)) :
    ∃ q', Ready mem (Slab.moveTo (c, .slabsPartial) a s) q' c a := by
  obtain ⟨q', hbase, hmem⟩ := h.moveTo ha .slabsPartial
  have hfree : s.freeObjects a = s.objnum c := h.sorted c _ a ha
  have hmem_c : c ∈ s.caches := h.lists.mem ha
  have hnum := h.objnum_bounds hmem_c
  refine ⟨q', hbase, (hmem a _).mpr (.inl ⟨rfl, rfl⟩), ?_, fun d k b hb hne => ?_⟩
  · show 0 < s.freeObjects a
    omega
  · exact h.sorted d k b (((hmem b _).mp hb).resolve_left fun hab => hne hab.1).2

/-- The calls change neither the caches nor, but for their own object, the live objects. -/
def SameUsers (s t : System) : Prop := t.caches = s.caches ∧ t.live = s.live

theorem sameUsers_grow (mem : PgMem) (c : Cache) (s : System) : SameUsers s (kmemCacheGrow mem c s).2 := by
  unfold kmemCacheGrow
  dsimp only
  cases (allocate mem 0 s.pages).1 <;> exact ⟨rfl, rfl⟩

/-- A slab is chosen, or there is no memory for a new one. -/
theorem chooseSlab_spec (h : Inv mem s q) (hc : c ∈ s.caches) :
    ∃ r t, chooseSlab mem c s = some (r, t) ∧ SameUsers s t ∧
      ((r = none ∧ ∃ q', Inv mem t q') ∨ ∃ a q', r = some a ∧ Ready mem t q' c a) := by
  unfold chooseSlab
  cases hpart : listEmpty (.head (c, .slabsPartial)) s.links with
  | false =>
    obtain ⟨a, hfirst, ha⟩ := firstEntry_some h.toBase hc hpart
    rw [if_neg (by simp), hfirst]
    exact ⟨_, _, rfl, ⟨rfl, rfl⟩, .inr ⟨a, q, rfl, ready_of_partial h ha⟩⟩
  | true =>
    rw [if_pos rfl]
    cases hfree : listEmpty (.head (c, .slabsFree)) s.links with
    | false =>
      obtain ⟨a, hfirst, ha⟩ := firstEntry_some h.toBase hc hfree
      obtain ⟨q', hready⟩ := ready_of_free h ha
      rw [if_neg (by simp), hfirst]
      exact ⟨_, _, rfl, ⟨rfl, rfl⟩, .inr ⟨a, q', rfl, hready⟩⟩
    | true =>
      rw [if_pos rfl]
      have husers := sameUsers_grow mem c s
      rcases inv_grow h hc with ⟨hnone, hinv⟩ | ⟨a, q', hsome, hinv, ha⟩
      · simp only [hnone]
        exact ⟨_, _, rfl, husers, .inl ⟨rfl, q, hinv⟩⟩
      · simp only [hsome]
        obtain ⟨q'', hready⟩ := ready_of_free hinv ha
        exact ⟨_, _, rfl, husers, .inr ⟨a, q'', rfl, hready⟩⟩

theorem takeObject_users (c : Cache) (a : Addr) (s : System) :
    (takeObject c a s).2.caches = s.caches ∧ (takeObject c a s).2.live = (takeObject c a s).1 :: s.live ∧
      (takeObject c a s).1.cache = c := by
  rw [takeObject_snd]
  split <;> exact ⟨rfl, rfl, rfl⟩

/-- **`kmem_cache_alloc`** returns an object, or nothing when there is no memory. -/
theorem inv_alloc (h : Inv mem s q) (hc : c ∈ s.caches) :
    ∃ r t q', kmemCacheAlloc mem c s = some (r, t) ∧ Inv mem t q' ∧ t.caches = s.caches ∧
      ((r = none ∧ t.live = s.live) ∨ ∃ o, r = some o ∧ t.live = o :: s.live ∧ o.cache = c) := by
  obtain ⟨r, t, he, ⟨hcaches, hlive⟩, ⟨rfl, q', hinv⟩ | ⟨a, q', rfl, hready⟩⟩ := chooseSlab_spec h hc
  · unfold kmemCacheAlloc
    rw [he]
    exact ⟨none, t, q', rfl, hinv, hcaches, .inl ⟨rfl, hlive⟩⟩
  · obtain ⟨q'', hinv⟩ := inv_takeObject hready
    obtain ⟨hc', hl', ho⟩ := takeObject_users c a t
    unfold kmemCacheAlloc
    rw [he]
    exact ⟨_, _, q'', rfl, hinv, hc'.trans hcaches, .inr ⟨_, rfl, hl'.trans (by rw [hlive]), ho⟩⟩

/-! ## `kmem_cache_free` -/

/-- The header after an object was given back, before the slab may change its list. -/
def given (o : Object) (s : System) : System :=
  { s with
    freeBitmap := Function.update s.freeBitmap o.slab ((bitmapClearBit [s.freeBitmap o.slab] o.bit).headD 0)
    freeObjects := Function.update s.freeObjects o.slab (s.freeObjects o.slab + 1)
    live := s.live.erase o }

theorem Base.nodup_live (h : Base mem s q) : s.live.Nodup := by
  refine h.keys.imp fun {o p} hne he => ?_
  subst he
  tauto

theorem Base.key_ne (h : Base mem s q) (ho : o ∈ s.live) (hp : p ∈ s.live) (hne : o ≠ p) :
    o.slab ≠ p.slab ∨ o.bit ≠ p.bit := by
  let R : Object → Object → Prop := fun o p => o.slab ≠ p.slab ∨ o.bit ≠ p.bit
  have : Std.Symm R := ⟨fun _ _ hr => hr.imp Ne.symm Ne.symm⟩
  have hpair : s.live.Pairwise R := h.keys
  exact hpair.forall ho hp hne

theorem base_given (h : Base mem s q) (ho : o ∈ s.live) (hstatic : o.cache ≠ .cacheCaches) :
    Base mem (given o s) q := by
  have hpo := h.objects o ho
  have hnum := h.objnum_bounds (h.cache_mem hpo.slab)
  have hcount : s.freeObjects o.slab = s.objnum o.cache - used (s.objnum o.cache) (s.freeBitmap o.slab) :=
    h.counts _ hpo.slab
  have hbit := hpo.bit
  have hmem : ∀ p, p ∈ s.live.erase o ↔ p ≠ o ∧ p ∈ s.live := fun p => h.nodup_live.mem_erase_iff
  refine h.header hpo.slab ?_ (fun p hp hpa => ?_) (fun p hpa => ?_) (h.keys.sublist (List.erase_sublist ..))
    (fun i hi hb => ?_) fun p hp hcache => ?_
  · have hclear := used_clear hbit (by omega) hpo.set
    rw [hcount]
    omega
  · obtain ⟨hne, hp⟩ := (hmem p).mp hp
    have hpp := h.objects p hp
    have hpslab := hpp.slab
    rw [hpa] at hpslab
    have hcache := h.cache_unique hpslab hpo.slab
    have hbne := (h.key_ne hp ho hne).resolve_left (not_not_intro hpa)
    refine ⟨hcache, hcache ▸ hpp.bit, ?_, ?_⟩
    · rw [← hcache, ← hpa]
      exact hpp.addr
    · rw [testBit_clear (by omega), ← hpa, hpp.set]
      simp [hbne]
  · rw [hmem p]
    refine ⟨fun hp => hp.2, fun hp => ⟨?_, hp⟩⟩
    rintro rfl
    exact hpa rfl
  · rw [testBit_clear (by omega)] at hb
    obtain ⟨hne, hb⟩ := (Bool.and_eq_true _ _).mp hb
    obtain ⟨p, hp, hslab, hpbit⟩ := h.taken _ hpo.slab i hi hb
    refine ⟨p, (hmem p).mpr ⟨?_, hp⟩, hslab, hpbit⟩
    rintro rfl
    simp [hpbit] at hne
  · refine (hmem p).mpr ⟨?_, hp⟩
    rintro rfl
    exact hstatic hcache

theorem mem_slabs_slabDestroy (mem : PgMem) (a : Addr) (s : System) (x : Cache × Addr) :
    x ∈ (slabDestroy mem a s).slabs ↔ x ∈ s.slabs ∧ x.2 ≠ a := by
  show x ∈ s.slabs.filter _ ↔ _
  rw [List.mem_filter, decide_eq_true_iff]

/-- A slab without objects is taken off its list and its page is freed. -/
theorem inv_slabDestroy (h : Base mem s q) (ha : a ∈ q (c, k)) (hempty : used (s.objnum c) (s.freeBitmap a) = 0)
    (hothers : ∀ d j b, b ∈ q (d, j) → b ≠ a → Belongs (s.freeObjects b) (s.objnum d) j) :
    ∃ q', Inv mem (slabDestroy mem a s) q' := by
  have hx : (c, a) ∈ s.slabs := (h.slabs c a).mpr ⟨k, ha⟩
  have hmem := mem_slabs_slabDestroy mem a s
  have hpages : PageRun.Inv mem (release mem a ⟨a, 0⟩ s.pages) := inv_release h.pages (h.held _ hx) rfl
  have hlive : ∀ o ∈ s.live, o.slab ≠ a := by
    rintro o ho rfl
    have hp := h.objects o ho
    obtain rfl := h.cache_unique hp.slab hx
    have := used_pos hp.bit hp.set
    omega
  refine ⟨_, ⟨hpages, h.lists.del ha, h.static, h.sizes, fun d b => ?_, fun x hm => ?_, fun x hm => ?_,
    fun o ho => ?_, h.keys, fun x hm => ?_, h.made⟩, fun d j b hb => ?_⟩
  · rw [hmem, h.slabs d b]
    constructor
    · rintro ⟨⟨j, hj⟩, hne⟩
      exact ⟨j, (h.lists.mem_erase ha).mpr ⟨hne, hj⟩⟩
    · rintro ⟨j, hj⟩
      obtain ⟨hne, hj⟩ := (h.lists.mem_erase ha).mp hj
      exact ⟨⟨j, hj⟩, hne⟩
  · obtain ⟨hm, hne⟩ := (hmem x).mp hm
    have hlease : (⟨x.2, 0⟩ : Lease) ≠ ⟨a, 0⟩ := fun he => hne (congrArg Lease.addr he)
    exact (List.mem_erase_of_ne hlease).mpr (h.held x hm)
  · exact h.counts x ((hmem x).mp hm).1
  · have hp := h.objects o ho
    exact hp.congr ((hmem _).mpr ⟨hp.slab, hlive o ho⟩) rfl rfl rfl
  · exact h.taken x ((hmem x).mp hm).1
  · obtain ⟨hne, hb⟩ := (h.lists.mem_erase ha).mp hb
    exact hothers d j b hb hne

/-- What `kmem_cache_free` does with the slab and the bit it has found. -/
theorem kmemCacheFree_eq (h : Base mem s q) (ho : o ∈ s.live) :
    { kmemCacheFree mem o.cache o.addr s with live := s.live.erase o } =
      if s.freeObjects o.slab + 1 = s.objnum o.cache then slabDestroy mem o.slab (given o s)
      else if s.freeObjects o.slab + 1 = 1 then Slab.moveTo (o.cache, .slabsPartial) o.slab (given o s)
      else given o s := by
  obtain ⟨hslab, hbit⟩ := h.recompute ho
  unfold kmemCacheFree
  simp only [hslab, hbit, Function.update_self]
  split
  · rfl
  · split <;> rfl

/-- **`kmem_cache_free`** leaves the slab on the list it belongs to, or destroys it. -/
theorem inv_free (h : Inv mem s q) (ho : o ∈ s.live) (hstatic : o.cache ≠ .cacheCaches) :
    ∃ q', Inv mem { kmemCacheFree mem o.cache o.addr s with live := s.live.erase o } q' := by
  rw [kmemCacheFree_eq h.toBase ho]
  have hbase := base_given h.toBase ho hstatic
  have hpo := h.objects o ho
  have hnum := h.objnum_bounds (h.cache_mem hpo.slab)
  obtain ⟨k, hk⟩ := (h.slabs _ _).mp hpo.slab
  have hself : (given o s).freeObjects o.slab = s.freeObjects o.slab + 1 := Function.update_self ..
  have hothers : ∀ d j b, b ∈ q (d, j) → b ≠ o.slab → Belongs ((given o s).freeObjects b) (s.objnum d) j := by
    intro d j b hb hne
    have heq : (given o s).freeObjects b = s.freeObjects b := Function.update_of_ne hne ..
    rw [heq]
    exact h.sorted d j b hb
  have hsorted := h.sorted _ k _ hk
  split
  · rename_i hfull
    have hcount : (given o s).freeObjects o.slab =
        s.objnum o.cache - used (s.objnum o.cache) ((given o s).freeBitmap o.slab) := hbase.counts _ hpo.slab
    refine inv_slabDestroy hbase hk ?_ hothers
    show used (s.objnum o.cache) ((given o s).freeBitmap o.slab) = 0
    omega
  · rename_i hnot
    split
    · rename_i hone
      obtain ⟨q', hbase', hmem⟩ := hbase.moveTo hk .slabsPartial
      refine ⟨q', hbase', fun d j b hb => ?_⟩
      rcases (hmem b (d, j)).mp hb with ⟨rfl, he⟩ | ⟨hne, hb⟩
      · obtain ⟨rfl, rfl⟩ := Prod.mk.inj he
        show 0 < (given o s).freeObjects o.slab ∧ (given o s).freeObjects o.slab < s.objnum o.cache
        rw [hself]
        omega
      · exact hothers d j b hb hne
    · rename_i hmany
      refine ⟨q, hbase, fun d j b hb => ?_⟩
      by_cases hba : b = o.slab
      · subst hba
        obtain ⟨rfl, rfl⟩ := Prod.mk.inj (h.lists.apart _ _ _ hb hk)
        show Belongs ((given o s).freeObjects o.slab) (s.objnum o.cache) j
        rw [hself]
        have hle := hbase.freeObjects_le hpo.slab
        -- a full slab would have one free object now
        cases j with
        | slabsFree =>
          have hfree : s.freeObjects o.slab = s.objnum o.cache := hsorted
          have hle : (given o s).freeObjects o.slab ≤ s.objnum o.cache := hle
          omega
        | slabsPartial =>
          have hpart : 0 < s.freeObjects o.slab ∧ s.freeObjects o.slab < s.objnum o.cache := hsorted
          show 0 < s.freeObjects o.slab + 1 ∧ s.freeObjects o.slab + 1 < s.objnum o.cache
          omega
        | slabsFull =>
          have hzero : s.freeObjects o.slab = 0 := hsorted
          omega
      · exact hothers d j b hb hba

/-! ## `kmem_cache_create` -/

theorem lists_initLists {cs : List Cache} {l : Memory Head Addr} (h : Lists {x | x.1 ∈ cs} l q) (hc : c ∉ cs) :
    Lists {x | x.1 ∈ c :: cs} (initLists c l) q := by
  have hfree := h.init (h := (c, SlabList.slabsFree)) hc
  have hpart := hfree.init (h := (c, SlabList.slabsPartial)) (by simp [hc])
  have hfull := hpart.init (h := (c, SlabList.slabsFull)) (by simp [hc])
  have hset : Insert.insert (c, SlabList.slabsFull) (Insert.insert (c, SlabList.slabsPartial)
      (Insert.insert (c, SlabList.slabsFree) {x : Head | x.1 ∈ cs})) = {x | x.1 ∈ c :: cs} := by
    ext ⟨d, k⟩
    cases k <;> simp
  rw [hset] at hfull
  exact hfull

/-- The object of `cache_caches` becomes a cache. -/
theorem inv_newCache {size : ℕ} (h : Inv mem s q) (ho : o ∈ s.live) (hcache : o.cache = .cacheCaches)
    (hnew : .made o.addr ∉ s.caches) (hlo : 8 ≤ size) (hhi : size ≤ 120) :
    Inv mem { s with
      objsize := Function.update s.objsize (.made o.addr) size
      objnum := Function.update s.objnum (.made o.addr) (objectsPerSlab size)
      links := initLists (.made o.addr) s.links
      caches := .made o.addr :: s.caches } q := by
  have hne : ∀ c ∈ s.caches, c ≠ .made o.addr := by
    rintro c hc rfl
    exact hnew hc
  have hnum : ∀ c ∈ s.caches, Function.update s.objnum (.made o.addr) (objectsPerSlab size) c = s.objnum c :=
    fun c hc => Function.update_of_ne (hne c hc) ..
  have hsize : ∀ c ∈ s.caches, Function.update s.objsize (.made o.addr) size c = s.objsize c :=
    fun c hc => Function.update_of_ne (hne c hc) ..
  refine ⟨⟨h.pages, lists_initLists h.lists hnew, List.mem_cons_of_mem _ h.static, fun c hc => ?_, h.slabs, h.held,
    fun x hx => ?_, fun p hp => ?_, h.keys, fun x hx i hi hb => ?_, fun a ha => ?_⟩, fun c k a ha => ?_⟩
  · show 8 ≤ Function.update s.objsize _ size c ∧ Function.update s.objsize _ size c ≤ 120 ∧
      Function.update s.objnum _ (objectsPerSlab size) c = objectsPerSlab (Function.update s.objsize _ size c)
    rcases List.mem_cons.mp hc with rfl | hc
    · rw [Function.update_self, Function.update_self]
      exact ⟨hlo, hhi, rfl⟩
    · rw [hsize c hc, hnum c hc]
      exact h.sizes c hc
  · show s.freeObjects x.2 = Function.update s.objnum _ _ x.1 - used (Function.update s.objnum _ _ x.1) _
    rw [hnum _ (h.cache_mem hx)]
    exact h.counts x hx
  · have hpp := h.objects p hp
    have hmem := h.cache_mem hpp.slab
    exact hpp.congr hpp.slab (hnum _ hmem) (hsize _ hmem) rfl
  · have hi' : i < Function.update s.objnum (.made o.addr) (objectsPerSlab size) x.1 := hi
    rw [hnum _ (h.cache_mem hx)] at hi'
    exact h.taken x hx i hi' hb
  · rcases List.mem_cons.mp ha with he | ha
    · exact ⟨o, ho, hcache, (Cache.made.inj he).symm⟩
    · exact h.made a ha
  · show Belongs _ (Function.update s.objnum _ _ c) k
    have hmem : c ∈ s.caches := h.lists.mem ha
    rw [hnum c hmem]
    exact h.sorted c k a ha

/-- A new object of `cache_caches` is no cache yet: a cache at this address would be an
object that overlaps this one. -/
theorem newCache_notMem {t : System} {q' : Head → List Addr} (h : Inv mem s q) (ht : Inv mem t q')
    (hcaches : t.caches = s.caches) (hlive : t.live = o :: s.live) (hcache : o.cache = .cacheCaches) :
    .made o.addr ∉ t.caches := by
  intro hm
  rw [hcaches] at hm
  obtain ⟨p, hp, hpc, hpa⟩ := h.made o.addr hm
  have ho : o ∈ t.live := hlive ▸ List.mem_cons_self
  have hpt : p ∈ t.live := hlive ▸ List.mem_cons_of_mem _ hp
  have hkeys := ht.keys
  rw [hlive] at hkeys
  have hdis := ht.disjoint ho hpt ((List.pairwise_cons.mp hkeys).1 p hp)
  have hsize := (ht.sizes _ (hcaches ▸ h.static)).1
  rw [hpa, hpc, hcache] at hdis
  omega

theorem inv_create (h : Inv mem s q) (size : ℕ) :
    ∃ r t q', kmemCacheCreate mem size s = some (r, t) ∧ Inv mem t q' := by
  unfold kmemCacheCreate
  split
  · exact ⟨_, _, q, rfl, h⟩
  · rename_i hlo
    split
    · exact ⟨_, _, q, rfl, h⟩
    · rename_i hhi
      obtain ⟨r, t, q', he, hinv, hcaches, ⟨rfl, -⟩ | ⟨o, rfl, hlive, hcache⟩⟩ := inv_alloc h h.static
      · rw [he]
        exact ⟨_, _, q', rfl, hinv⟩
      · rw [he]
        have ho : o ∈ t.live := hlive ▸ List.mem_cons_self
        have hnew := newCache_notMem h hinv hcaches hlive hcache
        exact ⟨_, _, q', rfl, inv_newCache hinv ho hcache hnew (by omega) (by simp [sizeofSlab] at hhi; omega)⟩

/-! ## Others -/

theorem inv_pageCall {call : Call} {t : System} (h : Inv mem s q) (he : pageCall mem s call = some t) :
    Inv mem t q := by
  cases call with
  | alloc order =>
    cases he
    exact h.setPages (inv_allocate h.pages order) fun x hx => live_subset_allocate mem order s.pages (h.held x hx)
  | free addr order =>
    rw [pageCall] at he
    split at he
    · rename_i hguard
      cases he
      refine h.setPages (inv_release h.pages hguard.1 rfl) fun x hx => ?_
      have hne : (⟨x.2, 0⟩ : Lease) ≠ ⟨addr, order⟩ := fun hl => hguard.2 x hx (congrArg Lease.addr hl)
      exact (List.mem_erase_of_ne hne).mpr (h.held x hx)
    · cases he

/-- A write to a page that is no slab. -/
theorem inv_write {page : Addr} (h : Inv mem s q) (hp : ∀ x ∈ s.slabs, x.2 ≠ page) (word : Word) (count : ℤ)
    (next prev : Node Head Addr) :
    Inv mem { s with
      freeBitmap := Function.update s.freeBitmap page word
      freeObjects := Function.update s.freeObjects page count
      links := (s.links.setNext (.item page) next).setPrev (.item page) prev } q := by
  have hnone : ∀ x, page ∉ q x := by
    rintro ⟨c, k⟩ hm
    exact hp (c, page) ((h.slabs c page).mpr ⟨k, hm⟩) rfl
  have hlists : Lists {x | x.1 ∈ s.caches} ((s.links.setNext (.item page) next).setPrev (.item page) prev) q :=
    h.lists.other (fun x _ => item_notMem (hnone x)) (fun z hz => Lib.Rings.Links.next_setNext_of_ne hz)
      fun z hz => Lib.Rings.Links.prev_setPrev_of_ne hz
  have hword : ∀ x ∈ s.slabs, Function.update s.freeBitmap page word x.2 = s.freeBitmap x.2 := fun x hx =>
    Function.update_of_ne (hp x hx) ..
  have hcount : ∀ x ∈ s.slabs, Function.update s.freeObjects page count x.2 = s.freeObjects x.2 := fun x hx =>
    Function.update_of_ne (hp x hx) ..
  refine ⟨⟨h.pages, hlists, h.static, h.sizes, h.slabs, h.held, fun x hx => ?_, fun o ho => ?_, h.keys,
    fun x hx i hi hb => ?_, h.made⟩, fun c k a ha => ?_⟩
  · show Function.update s.freeObjects page count x.2 = _ - used _ (Function.update s.freeBitmap page word x.2)
    rw [hword x hx, hcount x hx]
    exact h.counts x hx
  · have hpo := h.objects o ho
    exact hpo.congr hpo.slab rfl rfl (hword _ hpo.slab)
  · have hb' : testBit [Function.update s.freeBitmap page word x.2] i = true := hb
    rw [hword x hx] at hb'
    exact h.taken x hx i hi hb'
  · show Belongs (Function.update s.freeObjects page count a) _ k
    rw [hcount (c, a) ((h.slabs c a).mpr ⟨k, ha⟩)]
    exact h.sorted c k a ha

/-! ## Every state of a run -/

theorem inv_statics (mem : PgMem) (m : Garbage) : Inv mem (statics m) fun _ => [] := by
  have hnil : Lists {x : Head | x.1 ∈ ([] : List Cache)} m.links fun _ => [] :=
    ⟨fun x hx => (nomatch hx), fun _ _ => rfl, fun _ _ _ hi => (nomatch hi)⟩
  refine ⟨⟨PageRun.inv_boot mem, lists_initLists hnil (by simp), List.mem_singleton_self _, fun c hc => ?_,
    fun c a => ?_, fun x hx => (nomatch hx), fun x hx => (nomatch hx), fun o ho => (nomatch ho), List.Pairwise.nil,
    fun x hx => (nomatch hx), fun a ha => ?_⟩, fun c k a ha => (nomatch ha)⟩
  · obtain rfl := List.mem_singleton.mp hc
    have hsize : (statics m).objsize .cacheCaches = sizeofKmemCache := by simp [statics]
    have hnum : (statics m).objnum .cacheCaches = objectsPerSlab sizeofKmemCache := by simp [statics]
    rw [hsize, hnum]
    decide
  · exact ⟨fun hm => (nomatch hm), fun ⟨_, hk⟩ => (nomatch hk)⟩
  · have hne := List.mem_singleton.mp ha
    cases hne

theorem inv_init (mem : PgMem) (m : Garbage) : ∃ q, Inv mem (Slab.init mem m) q := by
  have hstatics := inv_statics mem m
  rcases inv_grow hstatics hstatics.static with ⟨-, hinv⟩ | ⟨a, q, -, hinv, -⟩
  · exact ⟨_, hinv⟩
  · exact ⟨q, hinv⟩

theorem step_inv {t : System} {act : Act} (h : Inv mem s q) (he : step mem s act = some t) :
    ∃ q', Inv mem t q' := by
  cases act with
  | create size =>
    obtain ⟨r, t', q', hc, hinv⟩ := inv_create h size
    rw [step, hc] at he
    cases he
    exact ⟨q', hinv⟩
  | alloc c =>
    simp only [step, Option.ite_none_right_eq_some] at he
    obtain ⟨⟨hc, -⟩, he⟩ := he
    obtain ⟨r, t', q', ha, hinv, -⟩ := inv_alloc h hc
    rw [ha] at he
    cases he
    exact ⟨q', hinv⟩
  | free o =>
    simp only [step, Option.ite_none_right_eq_some] at he
    obtain ⟨⟨ho, hstatic⟩, he⟩ := he
    cases he
    exact inv_free h ho hstatic
  | page call => exact ⟨q, inv_pageCall h he⟩
  | write page word count next prev =>
    simp only [step, Option.ite_none_right_eq_some] at he
    obtain ⟨hp, he⟩ := he
    cases he
    exact ⟨q, inv_write h hp word count next prev⟩

theorem run_inv {m : Garbage} {as : List Act} (h : run (step mem) (Slab.init mem m) as = some s) :
    ∃ q, Inv mem s q := by
  have hstep : ∀ s a t, (∃ q, Inv mem s q) → step mem s a = some t → ∃ q, Inv mem t q := by
    rintro s a t ⟨q, hi⟩ ht
    exact step_inv hi ht
  exact run_invariant hstep h (inv_init mem m)

theorem belongs_unique {free num : ℤ} {j : SlabList} (hk : Belongs free num k) (hj : Belongs free num j)
    (hnum : 0 < num) : k = j := by
  cases k <;> cases j <;> simp only [Belongs] at hk hj <;> first | rfl | omega

/-- The caches are in order, with the lists `q`. -/
structure WellKept (s : System) (q : Head → List Addr) : Prop where
  lists : ∀ c ∈ s.caches, ∀ k, Lib.Rings.Ring s.links (.head (c, k)) (nodes (q (c, k)))
  /-- What is on a list of a cache is a slab of it, and every slab is on one list. -/
  members : ∀ c k a, a ∈ q (c, k) → (c, a) ∈ s.slabs
  one : ∀ x ∈ s.slabs, ∃! k, x.2 ∈ q (x.1, k)
  counts : ∀ x ∈ s.slabs, s.freeObjects x.2 = s.objnum x.1 - used (s.objnum x.1) (s.freeBitmap x.2)
  full : ∀ x ∈ s.slabs, x.2 ∈ q (x.1, .slabsFull) ↔ s.freeObjects x.2 = 0
  partly : ∀ x ∈ s.slabs, x.2 ∈ q (x.1, .slabsPartial) ↔ 0 < s.freeObjects x.2 ∧ s.freeObjects x.2 < s.objnum x.1
  /-- The slab of an object is a page that its cache has, and the object lies behind
  the header. -/
  inside : ∀ o ∈ s.live, (o.cache, o.slab) ∈ s.slabs ∧ ⟨o.slab, 0⟩ ∈ s.pages.live ∧ o.slab.toNat % 256 = 0 ∧
    o.slab.toNat + sizeofSlab ≤ o.addr.toNat ∧ o.addr.toNat + s.objsize o.cache ≤ o.slab.toNat + 256
  disjoint : s.live.Pairwise fun o p =>
    o.addr.toNat + s.objsize o.cache ≤ p.addr.toNat ∨ p.addr.toNat + s.objsize p.cache ≤ o.addr.toNat
  found : ∀ o ∈ s.live, getSlabFromObj o.addr 256 = o.slab ∧ objIndexInSlab o.addr (s.objsize o.cache) = o.bit
  bits : ∀ x ∈ s.slabs, ∀ i < s.objnum x.1,
    testBit [s.freeBitmap x.2] i = true ↔ ∃ o ∈ s.live, o.slab = x.2 ∧ o.bit = i

/-- The calls come back: the lists they take a slab from are not empty. -/
structure Returns (mem : PgMem) (s : System) : Prop where
  create : ∀ size, ∃ t, step mem s (.create size) = some t
  alloc : ∀ c ∈ s.caches, c ≠ .cacheCaches → ∃ t, step mem s (.alloc c) = some t
  free : ∀ o ∈ s.live, o.cache ≠ .cacheCaches → ∃ t, step mem s (.free o) = some t

theorem Inv.mem_list_iff (h : Inv mem s q) (hx : (c, a) ∈ s.slabs) :
    a ∈ q (c, k) ↔ Belongs (s.freeObjects a) (s.objnum c) k := by
  obtain ⟨j, hj⟩ := (h.slabs c a).mp hx
  have hnum := h.objnum_bounds (h.cache_mem hx)
  refine ⟨h.sorted c k a, fun hb => ?_⟩
  obtain rfl := belongs_unique hb (h.sorted c j a hj) (by omega)
  exact hj

theorem Inv.wellKept (h : Inv mem s q) : WellKept s q where
  lists := fun c hc k => h.lists.ring (c, k) hc
  members := fun c k a ha => (h.slabs c a).mpr ⟨k, ha⟩
  one := by
    intro x hx
    obtain ⟨k, hk⟩ := (h.slabs x.1 x.2).mp hx
    exact ⟨k, hk, fun j hj => congrArg Prod.snd (h.lists.apart _ _ x.2 hj hk)⟩
  counts := h.counts
  full := fun _ hx => h.mem_list_iff hx
  partly := fun _ hx => h.mem_list_iff hx
  inside := by
    intro o ho
    have hp := h.objects o ho
    have haddr := h.toNat_addr ho
    have hpage := h.inPage ho
    unfold InPage cachePageSize at hpage
    exact ⟨hp.slab, h.held _ hp.slab, h.aligned hp.slab, by omega, by omega⟩
  disjoint := h.keys.imp_of_mem fun ho hp hne => h.toBase.disjoint ho hp hne
  found := fun _ ho => h.recompute ho
  bits := by
    intro x hx i hi
    refine ⟨h.taken x hx i hi, ?_⟩
    rintro ⟨o, ho, hslab, rfl⟩
    rw [← hslab]
    exact (h.objects o ho).set

theorem Inv.returns (h : Inv mem s q) : Returns mem s where
  create := by
    intro size
    obtain ⟨r, t, q', he, -⟩ := inv_create h size
    rw [step, he]
    exact ⟨t, rfl⟩
  alloc := by
    intro c hc hne
    obtain ⟨r, t, q', he, -⟩ := inv_alloc h hc
    rw [step, if_pos ⟨hc, hne⟩, he]
    exact ⟨t, rfl⟩
  free := by
    intro o ho hne
    rw [step, if_pos ⟨ho, hne⟩]
    exact ⟨_, rfl⟩

/-- **The caches are in order in every state of every run**: each slab is on one list of
its cache, the one its counter says, the counter agrees with the bitmap and the bitmap
with the live objects, these lie in the pages of their slabs and do not overlap, and
the slab and the bit of each are found again from its address. -/
theorem runs_wellKept (mem : PgMem) (m : Garbage) (as : List Act) (s : System)
    (h : run (step mem) (Slab.init mem m) as = some s) : (∃ q, WellKept s q) ∧ Returns mem s := by
  obtain ⟨q, hinv⟩ := run_inv h
  exact ⟨⟨q, hinv.wellKept⟩, hinv.returns⟩

/-- Memory of zeros. -/
def zeros : Garbage := ⟨⟨fun _ => .poison1, fun _ => .poison1⟩, fun _ => 0, fun _ => 0, fun _ => 0, fun _ => 0⟩

theorem runs_wellKept_two :
    ∃ s, run (step pgMem64k) (Slab.init pgMem64k zeros) [.create 8, .alloc (.made 0x20008010)] = some s ∧
      s.live = [⟨.made 0x20008010, 0x20008110, 0x20008100, 0⟩, ⟨.cacheCaches, 0x20008010, 0x20008000, 0⟩] ∧
      (∃ q, WellKept s q) ∧ Returns pgMem64k s := by
  have hlive : (run (step pgMem64k) (Slab.init pgMem64k zeros) [.create 8, .alloc (.made 0x20008010)]).map
      System.live = some [⟨.made 0x20008010, 0x20008110, 0x20008100, 0⟩,
        ⟨.cacheCaches, 0x20008010, 0x20008000, 0⟩] := by decide +kernel
  obtain ⟨s, hs, hl⟩ := Option.map_eq_some_iff.mp hlive
  exact ⟨s, hs, hl, runs_wellKept pgMem64k zeros _ s hs⟩

end

end PikoRT.Mm.SlabRun

import PikoRT.Mm.SlabRun

/-! # A cache gives its pages back

A cache that was made takes a page with the first object and frees it with the last one
of that slab: no slab without objects is ever kept. So the pages of the caches are a
function of the live objects, and what was allocated and freed again leaves the bitmaps
of the page allocator as they were. -/
namespace PikoRT.Mm.SlabRestore
open PikoRT.Lib.Run PikoRT.Kernel.LinuxList
open PikoRT.Mm.Page PikoRT.Mm.PageUse PikoRT.Mm.Slab PikoRT.Mm.SlabPage PikoRT.Mm.SlabRun
open PikoRT.Mm.PageRun (PgMem Lease Call pgMem64k)

section

variable {mem : PgMem} {s t : System} {q : Head → List Addr} {c : Cache} {a : Addr} {r : Option Addr} {o : Object}

/-! ## What the calls write -/

/-- The slab that `kmem_cache_alloc` takes is on a list, or it is new. -/
inductive Chooses (mem : PgMem) (c : Cache) (s : System) : Option Addr → System → Prop
  | finds (a : Addr) (l : Memory Head Addr) : Chooses mem c s (some a) { s with links := l }
  | fails (ha : (allocate mem 0 s.pages).1 = none) :
      Chooses mem c s none { s with pages := (allocate mem 0 s.pages).2 }
  | grows (a : Addr) (l : Memory Head Addr) (w : Addr → BitVec 32) (ha : (allocate mem 0 s.pages).1 = some a) :
      Chooses mem c s (some a) { s with
        pages := (allocate mem 0 s.pages).2
        links := l
        freeBitmap := w
        freeObjects := Function.update s.freeObjects a (s.objnum c)
        slabs := (c, a) :: s.slabs }

theorem chooseSlab_chooses (he : chooseSlab mem c s = some (r, t)) : Chooses mem c s r t := by
  unfold chooseSlab at he
  split at he
  · split at he
    · unfold kmemCacheGrow at he
      dsimp only at he
      cases ha : (allocate mem 0 s.pages).1 with
      | none =>
        rw [ha] at he
        cases he
        exact .fails ha
      | some a =>
        rw [ha] at he
        cases he
        exact .grows a _ _ ha
    · obtain ⟨a, -, heq⟩ := Option.map_eq_some_iff.mp he
      cases heq
      exact .finds a _
  · obtain ⟨a, -, heq⟩ := Option.map_eq_some_iff.mp he
    cases heq
    exact .finds a _

/-- What taking an object leaves alone. -/
theorem takeObject_fields (c : Cache) (a : Addr) (s : System) :
    (takeObject c a s).2.slabs = s.slabs ∧ (takeObject c a s).2.pages = s.pages ∧
      (takeObject c a s).2.objnum = s.objnum ∧
      (takeObject c a s).2.freeObjects = Function.update s.freeObjects a (s.freeObjects a - 1) := by
  rw [takeObject_snd]
  split <;> exact ⟨rfl, rfl, rfl, rfl⟩

/-! ## Every slab has an object -/

/-- Every slab has an object, but for those of `cache_caches`, which has a slab from
`kmem_cache_init` on. -/
def Occupied (s : System) : Prop := ∀ x ∈ s.slabs, x.1 ≠ .cacheCaches → s.freeObjects x.2 < s.objnum x.1

theorem Occupied.exists_live (ho : Occupied s) (h : Inv mem s q) (hx : (c, a) ∈ s.slabs) (hc : c ≠ .cacheCaches) :
    ∃ o ∈ s.live, o.cache = c ∧ o.slab = a := by
  have hlt : s.freeObjects a < s.objnum c := ho _ hx hc
  have hcount : s.freeObjects a = s.objnum c - used (s.objnum c) (s.freeBitmap a) := h.counts _ hx
  have hpos : 0 < used (s.objnum c) (s.freeBitmap a) := by omega
  obtain ⟨i, hi⟩ := Finset.card_pos.mp hpos
  obtain ⟨hi, hb⟩ := Finset.mem_filter.mp hi
  obtain ⟨o, hlive, hslab, -⟩ := h.taken _ hx i (Finset.mem_range.mp hi) hb
  have hp := (h.objects o hlive).slab
  rw [hslab] at hp
  exact ⟨o, hlive, h.cache_unique hp hx, hslab⟩

/-- The slab that an object is taken from has one. -/
theorem occupied_takeObject (h : Base mem s q)
    (hothers : ∀ x ∈ s.slabs, x.1 ≠ .cacheCaches → x.2 ≠ a → s.freeObjects x.2 < s.objnum x.1) :
    Occupied (takeObject c a s).2 := by
  obtain ⟨hslabs, -, hnum, hfree⟩ := takeObject_fields c a s
  intro x hx hne
  rw [hslabs] at hx
  rw [hnum, hfree]
  by_cases hxa : x.2 = a
  · have hle := h.freeObjects_le (c := x.1) (a := x.2) hx
    rw [hxa] at hle
    rw [hxa, Function.update_self]
    omega
  · rw [Function.update_of_ne hxa]
    exact hothers x hx hne hxa

theorem occupied_alloc {r : Option Object} (ho : Occupied s) (h : Inv mem s q) (hc : c ∈ s.caches)
    (he : kmemCacheAlloc mem c s = some (r, t)) : Occupied t := by
  obtain ⟨r', t', hchoose, -, hcases⟩ := chooseSlab_spec h hc
  unfold kmemCacheAlloc at he
  rw [hchoose] at he
  have hwrites := chooseSlab_chooses hchoose
  rcases hcases with ⟨rfl, -⟩ | ⟨a, q', rfl, hready⟩
  · cases he
    cases hwrites with
    | fails => exact ho
  · cases he
    refine occupied_takeObject hready.toBase fun x hx hne hxa => ?_
    cases hwrites with
    | finds => exact ho x hx hne
    | grows a l w ha =>
      have hx' := (List.mem_cons.mp hx).resolve_left fun heq => hxa (congrArg Prod.snd heq)
      show Function.update s.freeObjects a _ x.2 < _
      rw [Function.update_of_ne hxa]
      exact ho x hx' hne

theorem occupied_free (ho : Occupied s) (h : Inv mem s q) (hlive : o ∈ s.live) (hstatic : o.cache ≠ .cacheCaches) :
    Occupied { kmemCacheFree mem o.cache o.addr s with live := s.live.erase o } := by
  rw [kmemCacheFree_eq h.toBase hlive]
  have hbase := base_given h.toBase hlive hstatic
  have hpo := h.objects o hlive
  have hself : (given o s).freeObjects o.slab = s.freeObjects o.slab + 1 := Function.update_self ..
  have hothers : ∀ x ∈ s.slabs, x.1 ≠ .cacheCaches → x.2 ≠ o.slab → (given o s).freeObjects x.2 < s.objnum x.1 := by
    intro x hx hne hxa
    have heq : (given o s).freeObjects x.2 = s.freeObjects x.2 := Function.update_of_ne hxa ..
    rw [heq]
    exact ho x hx hne
  have hkeep : s.freeObjects o.slab + 1 ≠ s.objnum o.cache → Occupied (given o s) := by
    intro hnot x hx hne
    by_cases hxa : x.2 = o.slab
    · have hxs : (x.1, x.2) ∈ s.slabs := hx
      rw [hxa] at hxs
      obtain hcache := h.cache_unique hxs hpo.slab
      have hle : (given o s).freeObjects o.slab ≤ s.objnum o.cache := hbase.freeObjects_le hpo.slab
      show (given o s).freeObjects x.2 < s.objnum x.1
      rw [hxa, hcache]
      omega
    · exact hothers x hx hne hxa
  split
  · intro x hx hne
    obtain ⟨hx, hxa⟩ := List.mem_filter.mp hx
    exact hothers x hx hne (of_decide_eq_true hxa)
  · rename_i hnot
    split
    · exact hkeep hnot
    · exact hkeep hnot

theorem occupied_create {size : ℕ} {r : Option Cache} (ho : Occupied s) (h : Inv mem s q)
    (he : kmemCacheCreate mem size s = some (r, t)) : Occupied t := by
  unfold kmemCacheCreate at he
  split at he
  · cases he; exact ho
  split at he
  · cases he; exact ho
  obtain ⟨r', t', q', halloc, hinv, hcaches, hcases⟩ := inv_alloc h h.static
  have ho' := occupied_alloc ho h h.static halloc
  rw [halloc] at he
  rcases hcases with ⟨rfl, -⟩ | ⟨o, rfl, hlive, hcache⟩
  · cases he; exact ho'
  · cases he
    have hnew := newCache_notMem h hinv hcaches hlive hcache
    intro x hx hne
    have hxc : x.1 ≠ .made o.addr := by
      intro heq
      exact hnew (heq ▸ hinv.cache_mem (c := x.1) (a := x.2) hx)
    show t'.freeObjects x.2 < Function.update t'.objnum _ _ x.1
    rw [Function.update_of_ne hxc]
    exact ho' x hx hne

theorem step_occupied {act : Act} (ho : Occupied s) (h : Inv mem s q) (he : step mem s act = some t) :
    Occupied t := by
  cases act with
  | create size =>
    obtain ⟨x, hx, rfl⟩ := Option.map_eq_some_iff.mp he
    exact occupied_create ho h hx
  | alloc c =>
    simp only [step, Option.ite_none_right_eq_some] at he
    obtain ⟨⟨hc, -⟩, he⟩ := he
    obtain ⟨x, hx, rfl⟩ := Option.map_eq_some_iff.mp he
    exact occupied_alloc ho h hc hx
  | free o =>
    simp only [step, Option.ite_none_right_eq_some] at he
    obtain ⟨⟨hlive, hstatic⟩, he⟩ := he
    cases he
    exact occupied_free ho h hlive hstatic
  | page call =>
    cases call with
    | alloc order => cases he; exact ho
    | free addr order =>
      simp only [step, pageCall, Option.ite_none_right_eq_some] at he
      obtain ⟨-, he⟩ := he
      cases he
      exact ho
  | write page word count next prev =>
    simp only [step, Option.ite_none_right_eq_some] at he
    obtain ⟨hp, he⟩ := he
    cases he
    intro x hx hne
    show Function.update s.freeObjects page count x.2 < _
    rw [Function.update_of_ne (hp x hx)]
    exact ho x hx hne

theorem occupied_init (mem : PgMem) (m : Garbage) : Occupied (Slab.init mem m) := by
  unfold Slab.init kmemCacheInit kmemCacheGrow
  dsimp only
  cases (allocate mem 0 (statics m).pages).1 with
  | none => exact fun x hx => (nomatch hx)
  | some a =>
    intro x hx hne
    obtain rfl := List.mem_singleton.mp hx
    exact absurd rfl hne

theorem run_occupied {m : Garbage} {as : List Act} (h : run (step mem) (Slab.init mem m) as = some s) :
    Occupied s ∧ ∃ q, Inv mem s q := by
  have hstep : ∀ s a t, (Occupied s ∧ ∃ q, Inv mem s q) → step mem s a = some t → Occupied t ∧ ∃ q, Inv mem t q := by
    rintro s a t ⟨ho, q, hi⟩ ht
    exact ⟨step_occupied ho hi ht, step_inv hi ht⟩
  exact run_invariant hstep h ⟨occupied_init mem m, inv_init mem m⟩

/-! ## What the others hold -/

/-- A block of the page allocator that is no slab. -/
def Foreign (s : System) (l : Lease) : Prop := l ∈ s.pages.live ∧ ∀ x ∈ s.slabs, l ≠ ⟨x.2, 0⟩

/-- What the operations on the caches that were made leave alone. -/
structure Kept (s t : System) : Prop where
  foreign : ∀ l, Foreign t l ↔ Foreign s l
  static : ∀ a, (.cacheCaches, a) ∈ t.slabs ↔ (.cacheCaches, a) ∈ s.slabs
  caches : t.caches = s.caches

theorem Kept.of_eq (hp : t.pages.live = s.pages.live) (hs : t.slabs = s.slabs) (hc : t.caches = s.caches) :
    Kept s t :=
  ⟨fun l => by unfold Foreign; rw [hp, hs], fun a => by rw [hs], hc⟩

theorem Kept.trans {u : System} (h : Kept s t) (h' : Kept t u) : Kept s u :=
  ⟨fun l => (h'.foreign l).trans (h.foreign l), fun a => (h'.static a).trans (h.static a), h'.caches.trans h.caches⟩

theorem kept_chooses (h : Inv mem s q) (hc : c ≠ .cacheCaches) (hw : Chooses mem c s r t) : Kept s t := by
  cases hw with
  | finds a l => exact .of_eq rfl rfl rfl
  | fails ha => exact .of_eq (allocate_none ha) rfl rfl
  | grows a l w ha =>
    have hfresh := allocate_fresh h.pages ha
    refine ⟨fun l => ?_, fun b => ?_, rfl⟩
    · show l ∈ (allocate mem 0 s.pages).2.live ∧ (∀ x ∈ (c, a) :: s.slabs, l ≠ ⟨x.2, 0⟩) ↔ Foreign s l
      rw [allocate_some ha, List.mem_cons, List.forall_mem_cons]
      constructor
      · rintro ⟨hl, hne, hothers⟩
        exact ⟨hl.resolve_left hne, hothers⟩
      · rintro ⟨hl, hothers⟩
        refine ⟨.inr hl, ?_, hothers⟩
        rintro rfl
        exact hfresh hl
    · show (Cache.cacheCaches, b) ∈ (c, a) :: s.slabs ↔ _
      rw [List.mem_cons, or_iff_right]
      exact fun heq => hc (congrArg Prod.fst heq).symm

theorem kept_alloc {r : Option Object} (h : Inv mem s q) (hc : c ≠ .cacheCaches)
    (he : kmemCacheAlloc mem c s = some (r, t)) : Kept s t := by
  obtain ⟨⟨r', t'⟩, hchoose, heq⟩ := Option.map_eq_some_iff.mp he
  have hkept := kept_chooses h hc (chooseSlab_chooses hchoose)
  cases r' with
  | none => cases heq; exact hkept
  | some a =>
    cases heq
    obtain ⟨hslabs, hpages, -, -⟩ := takeObject_fields c a t'
    exact hkept.trans (.of_eq (by rw [hpages]) hslabs (takeObject_users c a t').1)

theorem kept_slabDestroy (h : Base mem s q) (hx : (c, a) ∈ s.slabs) (hc : c ≠ .cacheCaches) :
    Kept s (slabDestroy mem a s) := by
  have hmem := mem_slabs_slabDestroy mem a s
  have hlive : ∀ l, l ∈ (slabDestroy mem a s).pages.live ↔ l ≠ ⟨a, 0⟩ ∧ l ∈ s.pages.live := fun l =>
    (nodup_live h.pages).mem_erase_iff
  refine ⟨fun l => ?_, fun b => ?_, rfl⟩
  · unfold Foreign
    rw [hlive l]
    constructor
    · rintro ⟨⟨hne, hl⟩, hothers⟩
      refine ⟨hl, fun x hm => ?_⟩
      by_cases hxa : x.2 = a
      · rw [hxa]
        exact hne
      · exact hothers x ((hmem x).mpr ⟨hm, hxa⟩)
    · rintro ⟨hl, hothers⟩
      exact ⟨⟨hothers _ hx, hl⟩, fun x hm => hothers x ((hmem x).mp hm).1⟩
  · rw [hmem, and_iff_left_iff_imp]
    rintro hb rfl
    exact hc (h.cache_unique hx hb)

theorem kept_free (h : Inv mem s q) (ho : o ∈ s.live) (hstatic : o.cache ≠ .cacheCaches) :
    Kept s { kmemCacheFree mem o.cache o.addr s with live := s.live.erase o } := by
  rw [kmemCacheFree_eq h.toBase ho]
  have hgiven : Kept s (given o s) := .of_eq rfl rfl rfl
  split
  · exact hgiven.trans (kept_slabDestroy (base_given h.toBase ho hstatic) (h.objects o ho).slab hstatic)
  · split
    · exact hgiven.trans (.of_eq rfl rfl rfl)
    · exact hgiven

/-- An operation on a cache, or a write of somebody else. -/
def OnCache : Act → Prop
  | .alloc _ | .free _ | .write .. => True
  | .create _ | .page _ => False

theorem step_kept {act : Act} (h : Inv mem s q) (hact : OnCache act) (he : step mem s act = some t) : Kept s t := by
  cases act with
  | create size => exact hact.elim
  | alloc c =>
    simp only [step, Option.ite_none_right_eq_some] at he
    obtain ⟨⟨-, hc⟩, he⟩ := he
    obtain ⟨x, hx, rfl⟩ := Option.map_eq_some_iff.mp he
    exact kept_alloc h hc hx
  | free o =>
    simp only [step, Option.ite_none_right_eq_some] at he
    obtain ⟨⟨ho, hstatic⟩, he⟩ := he
    cases he
    exact kept_free h ho hstatic
  | page call => exact hact.elim
  | write page word count next prev =>
    simp only [step, Option.ite_none_right_eq_some] at he
    obtain ⟨-, he⟩ := he
    cases he
    exact .of_eq rfl rfl rfl

theorem run_kept {bs : List Act} (ho : Occupied s) (hi : ∃ q, Inv mem s q) (hbs : ∀ b ∈ bs, OnCache b)
    (h : run (step mem) s bs = some t) : Kept s t ∧ Occupied t ∧ ∃ q, Inv mem t q := by
  induction bs generalizing s with
  | nil =>
    cases h
    exact ⟨.of_eq rfl rfl rfl, ho, hi⟩
  | cons b bs ih =>
    obtain ⟨u, hu, hr⟩ := run_cons_some h
    obtain ⟨q, hq⟩ := hi
    obtain ⟨hb, hbs⟩ := List.forall_mem_cons.mp hbs
    obtain ⟨hkept, hrest⟩ := ih (step_occupied ho hq hu) (step_inv hq hu) hbs hr
    exact ⟨(step_kept hq hb hu).trans hkept, hrest⟩

/-! ## The pages come back -/

/-- The pages of the slabs are those of the live objects. -/
theorem mem_pages_of_live {q' : Head → List Addr} {l : Lease} (h : Inv mem s q) (h' : Inv mem t q') (ho : Occupied s)
    (hkept : Kept s t) (hlive : ∀ o, o ∈ s.live → o ∈ t.live) (hl : l ∈ s.pages.live) : l ∈ t.pages.live := by
  by_cases hforeign : Foreign s l
  · exact ((hkept.foreign l).mpr hforeign).1
  · obtain ⟨⟨c, a⟩, hx, rfl⟩ : ∃ x ∈ s.slabs, l = ⟨x.2, 0⟩ := by
      by_contra hno
      exact hforeign ⟨hl, fun x hx heq => hno ⟨x, hx, heq⟩⟩
    by_cases hc : c = .cacheCaches
    · subst hc
      exact h'.held _ ((hkept.static a).mpr hx)
    · obtain ⟨o, hmem, -, rfl⟩ := ho.exists_live h hx hc
      exact h'.held (o.cache, o.slab) (h'.objects o (hlive o hmem)).slab

/-- The cache has no slab, and the bitmaps of the page allocator are the same. -/
structure Restored (c : Cache) (s t : System) : Prop where
  noSlab : ∀ a, (c, a) ∉ t.slabs
  empty : ∀ k, listEmpty (.head (c, k)) t.links = true
  pages : t.pages.pb = s.pages.pb
  signature : pageAllocSignature t.pages.pb = pageAllocSignature s.pages.pb

theorem Kept.symm (h : Kept s t) : Kept t s :=
  ⟨fun l => (h.foreign l).symm, fun a => (h.static a).symm, h.caches.symm⟩

theorem restored_of_perm {q' : Head → List Addr} (h : Inv mem s q) (h' : Inv mem t q') (ho : Occupied s)
    (ho' : Occupied t) (hkept : Kept s t) (hperm : t.live.Perm s.live) (hc : c ∈ s.caches) (hne : c ≠ .cacheCaches)
    (hempty : ∀ o ∈ s.live, o.cache ≠ c) : Restored c s t := by
  have hslab : ∀ a, (c, a) ∉ t.slabs := by
    intro a hx
    obtain ⟨o, hmem, hcache, -⟩ := ho'.exists_live h' hx hne
    exact hempty o (hperm.mem_iff.mp hmem) hcache
  have hpages : t.pages.pb = s.pages.pb := by
    have hlease : t.pages.live.Perm s.pages.live :=
      (List.perm_ext_iff_of_nodup (nodup_live h'.pages) (nodup_live h.pages)).mpr fun l =>
        ⟨mem_pages_of_live h' h ho' hkept.symm fun o => hperm.mem_iff.mp,
          mem_pages_of_live h h' ho hkept fun o => hperm.mem_iff.mpr⟩
    have hledger := h'.pages.ledger.perm (hlease.map _)
    exact PageBuddy.ext_freeBlocks h'.pages.shape h.pages.shape (hledger.free_eq h.pages.ledger)
  refine ⟨hslab, fun k => ?_, hpages, congrArg pageAllocSignature hpages⟩
  have hhead : (c, k) ∈ {x : Head | x.1 ∈ t.caches} := by
    show c ∈ t.caches
    rw [hkept.caches]
    exact hc
  rw [h'.lists.listEmpty hhead, List.eq_nil_iff_forall_not_mem]
  exact fun a ha => hslab a ((h'.slabs c a).mpr ⟨k, ha⟩)

/-- Allocations of a cache come back, with objects of it or with nothing. -/
theorem run_allocs (hi : ∃ q, Inv mem s q) (hc : c ∈ s.caches) (hne : c ≠ .cacheCaches) (n : ℕ) :
    ∃ u os, run (step mem) s (List.replicate n (.alloc c)) = some u ∧ u.live = os ++ s.live ∧ ∀ o ∈ os,
    o.cache = c := by
  induction n generalizing s with
  | zero => exact ⟨s, [], rfl, rfl, fun o ho => (nomatch ho)⟩
  | succ n ih =>
    obtain ⟨q, hq⟩ := hi
    obtain ⟨r, t, q', he, hinv, hcaches, hlive⟩ := inv_alloc hq hc
    have hstep : step mem s (.alloc c) = some t := by
      rw [step, if_pos ⟨hc, hne⟩, he]
      rfl
    obtain ⟨u, os, hrun, hu, hos⟩ := ih ⟨q', hinv⟩ (hcaches ▸ hc)
    have hrun' : run (step mem) s (List.replicate (n + 1) (.alloc c)) = some u := by
      rw [List.replicate_succ, run_cons, hstep]
      exact hrun
    rcases hlive with ⟨-, hsame⟩ | ⟨o, -, hcons, ho⟩
    · exact ⟨u, os, hrun', by rw [hu, hsame], hos⟩
    · refine ⟨u, os ++ [o], hrun', by rw [hu, hcons, List.append_assoc, List.singleton_append], fun p hp => ?_⟩
      rcases List.mem_append.mp hp with hp | hp
      · exact hos p hp
      · exact List.mem_singleton.mp hp ▸ ho

/-- Live objects can be freed in any order. -/
theorem run_frees (mem : PgMem) {os rest : List Object} (hperm : s.live.Perm (os ++ rest))
    (hstatic : ∀ o ∈ os, o.cache ≠ .cacheCaches) :
    ∃ t, run (step mem) s (os.map .free) = some t ∧ t.live.Perm rest := by
  induction os generalizing s with
  | nil => exact ⟨s, rfl, hperm⟩
  | cons o os ih =>
    obtain ⟨ho, hos⟩ := List.forall_mem_cons.mp hstatic
    have hmem : o ∈ s.live := hperm.mem_iff.mpr List.mem_cons_self
    have hrest : (s.live.erase o).Perm (os ++ rest) := by
      have herase := hperm.erase o
      rwa [List.cons_append, List.erase_cons_head] at herase
    obtain ⟨t, hrun, hlive⟩ :=
      ih (s := { kmemCacheFree mem o.cache o.addr s with live := s.live.erase o }) hrest hos
    refine ⟨t, ?_, hlive⟩
    rw [List.map_cons, run_cons, step, if_pos ⟨hmem, ho⟩]
    exact hrun

theorem filter_cache_append {os rest : List Object} (hos : ∀ o ∈ os, o.cache = c) (hrest : ∀ o ∈ rest, o.cache ≠ c) :
    (os ++ rest).filter (fun o => o.cache = c) = os := by
  rw [List.filter_append, List.filter_eq_self.mpr fun o ho => decide_eq_true (hos o ho),
    List.filter_eq_nil_iff.mpr fun o ho => by simpa using hrest o ho, List.append_nil]

/-- **The caches restore memory.** From every state of every run, for a cache that was
made and has no live object: whatever the operations on this and the other caches are,
once the live objects are those of the start again the cache has no slab and the bitmaps
of the page allocator are those of the start. And any number of objects can be allocated
and then freed in any order, which leads there. -/
theorem runs_restored (mem : PgMem) (m : Garbage) (as : List Act) (s : System) (c : Cache)
    (h : run (step mem) (Slab.init mem m) as = some s) (hc : c ∈ s.caches) (hne : c ≠ .cacheCaches)
    (hempty : ∀ o ∈ s.live, o.cache ≠ c) :
    (∀ bs t, (∀ b ∈ bs, OnCache b) → run (step mem) s bs = some t → t.live.Perm s.live → Restored c s t) ∧
    ∀ n, ∃ u, run (step mem) s (List.replicate n (.alloc c)) = some u ∧
      ∀ os : List Object, os.Perm (u.live.filter fun o => o.cache = c) →
        ∃ t, run (step mem) u (os.map .free) = some t ∧ Restored c s t := by
  obtain ⟨ho, q, hq⟩ := run_occupied h
  have hrestored : ∀ bs t, (∀ b ∈ bs, OnCache b) → run (step mem) s bs = some t → t.live.Perm s.live →
      Restored c s t := by
    intro bs t hbs hr hperm
    obtain ⟨hkept, ho', q', hq'⟩ := run_kept ho ⟨q, hq⟩ hbs hr
    exact restored_of_perm hq hq' ho ho' hkept hperm hc hne hempty
  refine ⟨hrestored, fun n => ?_⟩
  obtain ⟨u, new, hu, hlive, hnew⟩ := run_allocs ⟨q, hq⟩ hc hne n
  refine ⟨u, hu, fun os hos => ?_⟩
  rw [hlive, filter_cache_append hnew hempty] at hos
  have hall : u.live.Perm (os ++ s.live) := by
    rw [hlive]
    exact hos.symm.append_right s.live
  have hstatic : ∀ o ∈ os, o.cache ≠ .cacheCaches := fun o hm => (hnew o (hos.mem_iff.mp hm)).symm ▸ hne
  obtain ⟨t, ht, hperm⟩ := run_frees mem hall hstatic
  refine ⟨t, ht, hrestored (List.replicate n (.alloc c) ++ os.map .free) t (fun b hb => ?_) ?_ hperm⟩
  · rcases List.mem_append.mp hb with hb | hb
    · rw [List.eq_of_mem_replicate hb]
      trivial
    · obtain ⟨o, -, rfl⟩ := List.mem_map.mp hb
      trivial
  · rw [run_append, hu]
    exact ht

theorem runs_restored_three :
    ∃ s u, run (step pgMem64k) (Slab.init pgMem64k zeros) [.create 120] = some s ∧
      run (step pgMem64k) s (List.replicate 3 (.alloc (.made 0x20008010))) = some u ∧
      u.slabs.length = 3 ∧ ∀ os : List Object, os.Perm (u.live.filter fun o => o.cache = .made 0x20008010) →
        ∃ t, run (step pgMem64k) u (os.map .free) = some t ∧ Restored (.made 0x20008010) s t := by
  have hstart : (run (step pgMem64k) (Slab.init pgMem64k zeros) [.create 120]).map
      (fun s => (s.caches, s.live.map Object.cache)) =
        some ([.made 0x20008010, .cacheCaches], [.cacheCaches]) := by decide +kernel
  have hend : (run (step pgMem64k) (Slab.init pgMem64k zeros)
      ([.create 120] ++ List.replicate 3 (.alloc (.made 0x20008010)))).map (fun u => u.slabs.length) = some 3 := by
    decide +kernel
  obtain ⟨s, hs, hfields⟩ := Option.map_eq_some_iff.mp hstart
  obtain ⟨hcaches, hcache⟩ := Prod.mk.inj hfields
  have hempty : ∀ o ∈ s.live, o.cache ≠ .made 0x20008010 := by
    intro o ho heq
    have hmem : o.cache ∈ s.live.map Object.cache := List.mem_map_of_mem ho
    rw [hcache, heq] at hmem
    cases List.mem_singleton.mp hmem
  obtain ⟨u, hu, hfree⟩ := (runs_restored pgMem64k zeros [.create 120] s (.made 0x20008010) hs
    (by rw [hcaches]; exact List.mem_cons_self) (by simp) hempty).2 3
  rw [run_append, hs] at hend
  obtain ⟨u', hu', hlen⟩ := Option.map_eq_some_iff.mp hend
  obtain rfl : u = u' := Option.some.inj (hu.symm.trans hu')
  exact ⟨s, u, hs, hu, hlen, hfree⟩

end

end PikoRT.Mm.SlabRestore

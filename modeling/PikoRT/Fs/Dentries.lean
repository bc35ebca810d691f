import PikoRT.Fs.Open
import PikoRT.Libc.HeapLedger

/-! # The dentries of an open file

An open file has a chain of dentries, from the one of its last name up to the root. Every
dentry of the chain is a block of the heap, and one that was found in an image has a block
for its inode as well. `sys_open` allocates these blocks and `release_dentries` frees
them. -/
namespace PikoRT.Fs.Dentries
open PikoRT.Kernel.Bitops PikoRT.Libc PikoRT.Libc.Printf PikoRT.Fs.Romfs PikoRT.Fs.Vfs PikoRT.Fs.Open
open PikoRT.Libc.Malloc (Region Allocation)
open PikoRT.Libc.HeapRun (Modest)
open PikoRT.Libc.HeapLedger (Holding)

/-- A dentry of a chain: where it is and what it holds. -/
structure Node where
  addr : ℕ
  dentry : Dentry
  deriving DecidableEq, Repr

/-- The inode that belongs to a dentry. -/
def inodeBlocks : DentryOperations → Ptr → List Allocation
  | .romfs, .heap a => [⟨a, sizeofInode⟩]
  | .romfs, .static _ => []
  | .tmpfs, _ => []

def Node.blocks (n : Node) : List Allocation :=
  ⟨n.addr, sizeofDentry⟩ :: inodeBlocks n.dentry.dOp n.dentry.dInode

def held (ns : List Node) : List Allocation := ns.flatMap Node.blocks

/-- `vfs_delete` frees the blocks of the dentry: what it takes for an inode of an image is
one, and not the root of the image. -/
def Deletable (s : System) (d : Dentry) : Prop :=
  d.dOp = .romfs → ∃ a, d.dInode = .heap a ∧ (s.superBlocks (s.inodes (.heap a)).iSb).sIroot ≠ .heap a

/-- The chain of dentries from `p` up to the root. -/
def Chained (s : System) : Ptr → List Node → Prop
  | p, [] => p = rootDentry
  | p, n :: ns => p = .heap n.addr ∧ s.dentries (.heap n.addr) = n.dentry ∧ n.dentry.dCount = 1 ∧
      Deletable s n.dentry ∧ Chained s n.dentry.dParent ns

section

variable {g : Region} {h₀ : Malloc.State} {s t u : System} {p : Ptr} {n : Node} {ns : List Node}
  {us : List Allocation}

theorem held_cons (n : Node) (ns : List Node) : held (n :: ns) = n.blocks ++ held ns := List.flatMap_cons

theorem mem_held_of_mem (hn : n ∈ ns) : ⟨n.addr, sizeofDentry⟩ ∈ held ns :=
  List.mem_flatMap.mpr ⟨n, hn, List.mem_cons_self⟩

theorem modest_sizeofDentry : Modest sizeofDentry := by
  unfold Modest sizeofDentry
  decide

theorem modest_sizeofInode : Modest sizeofInode := by
  unfold Modest sizeofInode
  decide

theorem Deletable.frame {d : Dentry} (hd : Deletable s d)
    (hi : ∀ v ∈ inodeBlocks d.dOp d.dInode, t.inodes (.heap v.ptr) = s.inodes (.heap v.ptr))
    (hsb : t.superBlocks = s.superBlocks) : Deletable t d := by
  intro hop
  obtain ⟨a, ha, hne⟩ := hd hop
  have hsame : t.inodes (.heap a) = s.inodes (.heap a) := hi ⟨a, sizeofInode⟩ (by simp [hop, ha, inodeBlocks])
  refine ⟨a, ha, ?_⟩
  rw [hsame, hsb]
  exact hne

/-- A chain depends only on its own blocks. -/
theorem Chained.frame (hc : Chained s p ns) (hd : ∀ v ∈ held ns, t.dentries (.heap v.ptr) = s.dentries (.heap v.ptr))
    (hi : ∀ v ∈ held ns, t.inodes (.heap v.ptr) = s.inodes (.heap v.ptr))
    (hsb : t.superBlocks = s.superBlocks) : Chained t p ns := by
  induction ns generalizing p with
  | nil => exact hc
  | cons n ns ih =>
    obtain ⟨hp, hn, hcount, hdel, hc⟩ := hc
    rw [held_cons] at hd hi
    refine ⟨hp, ?_, hcount, hdel.frame (fun v hv => ?_) hsb, ih hc ?_ ?_⟩
    · exact (hd ⟨n.addr, sizeofDentry⟩ (List.mem_append_left _ List.mem_cons_self)).trans hn
    · exact hi v (List.mem_append_left _ (List.mem_cons_of_mem _ hv))
    · exact fun v hv => hd v (List.mem_append_right _ hv)
    · exact fun v hv => hi v (List.mem_append_right _ hv)

/-! ## `release_dentries` -/

theorem free_spec {v : Allocation} (hh : Holding g h₀ s.heap (v :: us)) :
    ∃ h, s.free (.heap v.ptr) = some { s with heap := h } ∧ Holding g h₀ h us := by
  obtain ⟨h, he, hh⟩ := hh.free
  refine ⟨h, ?_, hh⟩
  rw [System.free, he]
  rfl

theorem vfsDelete_spec (hn : s.dentries (.heap n.addr) = n.dentry) (hdel : Deletable s n.dentry)
    (hh : Holding g h₀ s.heap (n.blocks ++ us)) :
    ∃ h, vfsDelete (.heap n.addr) s = some { s with heap := h } ∧ Holding g h₀ h us := by
  unfold vfsDelete
  rw [hn]
  unfold Node.blocks at hh
  cases hop : n.dentry.dOp with
  | tmpfs =>
    rw [hop] at hh
    exact free_spec hh
  | romfs =>
    obtain ⟨a, ha, hne⟩ := hdel hop
    rw [hop, ha] at hh
    -- the inode goes first
    obtain ⟨h, he, hh⟩ := free_spec (hh.perm (List.Perm.swap ..))
    obtain ⟨h', he', hh⟩ := free_spec (s := { s with heap := h }) hh
    refine ⟨h', ?_, hh⟩
    simp only [ha, if_pos hne.symm, he, Option.bind_some]
    exact he'

/-- **`release_dentries` frees a chain**, and nothing else changes. -/
theorem releaseDentries_spec {fuel : ℕ} (hc : Chained s p ns) (hh : Holding g h₀ s.heap (held ns ++ us))
    (hf : ns.length < fuel) :
    ∃ h ds, releaseDentries fuel p s = some (0, { s with heap := h, dentries := ds }) ∧ Holding g h₀ h us ∧
      ∀ q, (∀ n ∈ ns, q ≠ .heap n.addr) → ds q = s.dentries q := by
  induction ns generalizing s p fuel with
  | nil =>
    obtain ⟨fuel, rfl⟩ : ∃ k, fuel = k + 1 := ⟨fuel - 1, by omega⟩
    have hp : p = rootDentry := hc
    exact ⟨s.heap, s.dentries, by rw [releaseDentries, if_pos hp], hh, fun _ _ => rfl⟩
  | cons n ns ih =>
    obtain ⟨rfl, hn, hcount, hdel, hc⟩ := hc
    rw [List.length_cons] at hf
    obtain ⟨fuel, rfl⟩ : ∃ k, fuel = k + 1 := ⟨fuel - 1, by omega⟩
    rw [held_cons, List.append_assoc] at hh
    -- the dentry with its count at zero
    let m : Node := ⟨n.addr, { n.dentry with dCount := n.dentry.dCount - 1 }⟩
    let s' := s.setDentry (.heap n.addr) m.dentry
    have hm : s'.dentries (.heap n.addr) = m.dentry := Function.update_self ..
    obtain ⟨h, hdelete, hh'⟩ := vfsDelete_spec (s := s') (n := m) hm hdel hh
    -- the rest of the chain lies in other blocks
    have hother : ∀ v ∈ held ns, v.ptr ≠ n.addr := by
      intro v hv he
      have hnd := hh.nodup
      rw [List.append_assoc, Node.blocks, List.cons_append, List.map_cons, List.nodup_cons] at hnd
      refine hnd.1 (List.mem_map.mpr ⟨v, ?_, he⟩)
      exact List.mem_append_right _ (List.mem_append_left _ (List.mem_append_left _ hv))
    have hc' : Chained { s' with heap := h } n.dentry.dParent ns := by
      refine hc.frame (fun v hv => ?_) (fun _ _ => rfl) rfl
      exact Function.update_of_ne (fun he => hother v hv (Ptr.heap.inj he)) ..
    obtain ⟨h', ds, hrel, hh'', hds⟩ := ih hc' hh' (Nat.lt_of_succ_lt_succ hf)
    refine ⟨h', ds, ?_, hh'', fun q hq => ?_⟩
    · rw [releaseDentries, if_neg (fun he => (nomatch he))]
      simp only [hn, hcount]
      rw [if_neg (by decide), if_neg (by decide)]
      have hdelete' := hdelete
      simp only [s', m, hcount] at hdelete'
      rw [hdelete', Option.bind_some]
      have hrel' := hrel
      simp only [s', m, hcount] at hrel'
      exact hrel'
    · rw [hds q fun k hk => hq k (List.mem_cons_of_mem _ hk)]
      exact Function.update_of_ne (hq n List.mem_cons_self) ..

end

/-! ## What opening adds -/

/-- The object is static, or its block is allocated. -/
def Alive (h : Malloc.State) : Ptr → Prop
  | .static _ => True
  | .heap a => a ∈ h.live.map Allocation.ptr

/-- `t` has all the inodes and dentries that `s` has, unchanged. -/
structure Keeps (s t : System) : Prop where
  alive : ∀ p, Alive s.heap p → Alive t.heap p
  inodes : ∀ p, Alive s.heap p → t.inodes p = s.inodes p
  dentries : ∀ p, Alive s.heap p → t.dentries p = s.dentries p
  superBlocks : t.superBlocks = s.superBlocks
  dirlists : t.dirlists = s.dirlists

/-- And the same open files. -/
structure Grows (s t : System) : Prop extends Keeps s t where
  filemap : t.filemap = s.filemap
  filetable : t.filetable = s.filetable

/-- An inode of the tree is there, and so is the root of the image that it belongs to. -/
structure InTree (s : System) (p : Ptr) : Prop where
  alive : Alive s.heap p
  root : (s.inodes p).iOp = .romfs → Alive s.heap (s.superBlocks (s.inodes p).iSb).sIroot

/-- The root directory and the entries of the tmpfs directories. -/
structure Tree (s : System) : Prop where
  root : InTree s rootInode
  entries : ∀ k, ∀ e ∈ s.dirlists k, InTree s e.inode

section

variable {g : Region} {h₀ : Malloc.State} {s t u : System} {p dir parent : Ptr} {ns pre : List Node}
  {us : List Allocation} {fuel : ℕ} {name : List Byte} {found : Ptr × DentryOperations}

theorem Keeps.refl (s : System) : Keeps s s := ⟨fun _ h => h, fun _ _ => rfl, fun _ _ => rfl, rfl, rfl⟩

theorem Keeps.trans (h : Keeps s t) (h' : Keeps t u) : Keeps s u where
  alive p hp := h'.alive p (h.alive p hp)
  inodes p hp := (h'.inodes p (h.alive p hp)).trans (h.inodes p hp)
  dentries p hp := (h'.dentries p (h.alive p hp)).trans (h.dentries p hp)
  superBlocks := h'.superBlocks.trans h.superBlocks
  dirlists := h'.dirlists.trans h.dirlists

theorem Grows.refl (s : System) : Grows s s := ⟨.refl s, rfl, rfl⟩

theorem Grows.trans (h : Grows s t) (h' : Grows t u) : Grows s u where
  toKeeps := h.toKeeps.trans h'.toKeeps
  filemap := h'.filemap.trans h.filemap
  filetable := h'.filetable.trans h.filetable

theorem InTree.keeps (hp : InTree s p) (h : Keeps s t) : InTree t p := by
  refine ⟨h.alive p hp.alive, fun hop => ?_⟩
  rw [h.inodes p hp.alive] at hop ⊢
  rw [h.superBlocks]
  exact h.alive _ (hp.root hop)

theorem Tree.keeps (hs : Tree s) (h : Keeps s t) : Tree t := by
  refine ⟨hs.root.keeps h, fun k e he => ?_⟩
  rw [h.dirlists] at he
  exact (hs.entries k e he).keeps h

/-- A chain whose blocks are allocated stays. -/
theorem Chained.keeps (hc : Chained s p ns) (hl : ∀ v ∈ held ns, v.ptr ∈ s.heap.live.map Allocation.ptr)
    (h : Keeps s t) : Chained t p ns :=
  hc.frame (fun v hv => h.dentries (.heap v.ptr) (hl v hv)) (fun v hv => h.inodes (.heap v.ptr) (hl v hv))
    h.superBlocks

/-- Writing to blocks that were not allocated, after allocating. -/
theorem grows_malloc {a : ℕ} {size : Word} {k : Malloc.Heap} (hfresh : a ∉ s.heap.live.map Allocation.ptr)
    (hheap : t.heap = ⟨k, ⟨a, size⟩ :: s.heap.live⟩) (hi : ∀ p ≠ .heap a, t.inodes p = s.inodes p)
    (hd : ∀ p ≠ .heap a, t.dentries p = s.dentries p) (hsb : t.superBlocks = s.superBlocks)
    (hdir : t.dirlists = s.dirlists) (hmap : t.filemap = s.filemap) (htable : t.filetable = s.filetable) :
    Grows s t := by
  have hne : ∀ p, Alive s.heap p → p ≠ .heap a := by
    intro p hp he
    subst he
    exact hfresh hp
  refine ⟨⟨fun p hp => ?_, fun p hp => hi p (hne p hp), fun p hp => hd p (hne p hp), hsb, hdir⟩, hmap, htable⟩
  rw [hheap]
  cases p with
  | static n => trivial
  | heap b => exact List.mem_cons_of_mem _ hp

theorem malloc_cases {size : Word} {o : Option ℕ} (h : s.malloc fuel size = some (o, t)) :
    ∃ k, Malloc.malloc fuel size s.heap.heap = some (o, k) ∧ t = s.setHeap size (o, k) := by
  obtain ⟨q, hq, he⟩ := Option.map_eq_some_iff.mp h
  obtain ⟨rfl, rfl⟩ := Prod.mk.inj he
  exact ⟨q.2, hq, rfl⟩

/-- What a lookup does: it finds an entry of a directory in memory, or nothing, or it asks
for memory for an inode of an image. -/
theorem vfsLookup_cases {r : Option (Ptr × DentryOperations)} (h : vfsLookup fuel dir name s = some (r, t)) :
    (∃ e ∈ s.dirlists (s.inodes dir).iPrivate, r = some (e.inode, .tmpfs) ∧ t = s) ∨
    (r = none ∧ t = s) ∨
    (∃ k, Malloc.malloc fuel sizeofInode s.heap.heap = some (none, k) ∧ r = none ∧
      t = s.setHeap sizeofInode (none, k)) ∨
    ∃ a k ri, (s.inodes dir).iOp = .romfs ∧ Malloc.malloc fuel sizeofInode s.heap.heap = some (some a, k) ∧
      r = some (.heap a, .romfs) ∧ t = fillInode a ri (s.inodes dir).iSb (s.setHeap sizeofInode (some a, k)) := by
  unfold vfsLookup at h
  split at h
  · cases hop : (s.inodes dir).iOp with
    | tmpfs =>
      rw [hop] at h
      obtain ⟨hf, rfl⟩ := Prod.mk.inj (Option.some.inj h)
      cases r with
      | none => exact .inr (.inl ⟨rfl, rfl⟩)
      | some found =>
        obtain ⟨e, he, rfl⟩ := Option.map_eq_some_iff.mp hf
        exact .inl ⟨e, List.mem_of_find?_eq_some he, rfl, rfl⟩
    | romfs =>
      rw [hop] at h
      obtain ⟨ri, -, h⟩ := Option.bind_eq_some_iff.mp h
      cases ri with
      | none =>
        cases h
        exact .inr (.inl ⟨rfl, rfl⟩)
      | some ri =>
        obtain ⟨q, hq, h⟩ := Option.map_eq_some_iff.mp h
        obtain ⟨⟨o, v⟩, hv, rfl⟩ := Option.map_eq_some_iff.mp hq
        obtain ⟨k, hk, rfl⟩ := malloc_cases hv
        cases o with
        | none =>
          cases h
          exact .inr (.inr (.inl ⟨k, hk, rfl, rfl⟩))
        | some a =>
          cases h
          exact .inr (.inr (.inr ⟨a, k, ri, rfl, hk, rfl, rfl⟩))
  · cases h
    exact .inr (.inl ⟨rfl, rfl⟩)

/-- What a lookup that finds something does. -/
theorem vfsLookup_some (h : vfsLookup fuel dir name s = some (some found, t)) :
    (∃ e ∈ s.dirlists (s.inodes dir).iPrivate, found = (e.inode, .tmpfs) ∧ t = s) ∨
    ∃ a k ri, (s.inodes dir).iOp = .romfs ∧ Malloc.malloc fuel sizeofInode s.heap.heap = some (some a, k) ∧
      found = (.heap a, .romfs) ∧
      t = fillInode a ri (s.inodes dir).iSb (s.setHeap sizeofInode (some a, k)) := by
  rcases vfsLookup_cases h with ⟨e, he, hr, ht⟩ | ⟨hr, -⟩ | ⟨k, -, hr, -⟩ | ⟨a, k, ri, hop, hk, hr, ht⟩
  · exact .inl ⟨e, he, Option.some.inj hr, ht⟩
  · cases hr
  · cases hr
  · exact .inr ⟨a, k, ri, hop, hk, Option.some.inj hr, ht⟩

/-- What a lookup that finds nothing does. -/
theorem vfsLookup_none (h : vfsLookup fuel dir name s = some (none, t)) :
    t = s ∨ ∃ k, Malloc.malloc fuel sizeofInode s.heap.heap = some (none, k) ∧
    t = s.setHeap sizeofInode (none, k) := by
  rcases vfsLookup_cases h with ⟨e, -, hr, -⟩ | ⟨-, ht⟩ | ⟨k, hk, -, ht⟩ | ⟨a, k, ri, -, -, hr, -⟩
  · cases hr
  · exact .inl ht
  · exact .inr ⟨k, hk, ht⟩
  · cases hr

/-- A dentry is made and looked up. -/
structure Opens (g : Region) (h₀ : Malloc.State) (s t : System) (us : List Allocation) (parent : Ptr) (n : Node) :
    Prop where
  holding : Holding g h₀ t.heap (n.blocks ++ us)
  grows : Grows s t
  dentry : t.dentries (.heap n.addr) = n.dentry
  count : n.dentry.dCount = 1
  parent : n.dentry.dParent = parent
  deletable : Deletable t n.dentry
  inTree : InTree t n.dentry.dInode

theorem Grows.fillDentry {addr : ℕ} (h : Grows s t) (hfresh : addr ∉ s.heap.live.map Allocation.ptr)
    (found : Ptr × DentryOperations) : Grows s (fillDentry addr found t) := by
  refine ⟨⟨h.alive, h.inodes, fun p hp => ?_, h.superBlocks, h.dirlists⟩, h.filemap, h.filetable⟩
  refine (Function.update_of_ne ?_ ..).trans (h.dentries p hp)
  intro he
  subst he
  exact hfresh hp

/-- The dentry of a name that was found. -/
def newDentry (parent : Ptr) (name : List Byte) (found : Ptr × DentryOperations) : Dentry where
  dCount := 1
  dInode := found.1
  dOp := found.2
  dParent := parent
  dName := name

/-- `s` with a block for a dentry that is filled up to the lookup. -/
def withDentry (addr : ℕ) (k : Malloc.Heap) (parent : Ptr) (name : List Byte) (s : System) : System :=
  (s.setHeap sizeofDentry (some addr, k)).setDentry (.heap addr)
    { s.dentries (.heap addr) with dCount := 1, dParent := parent, dName := name }

theorem initDentry_short {addr : ℕ} {k : Malloc.Heap} (hname : name.length < NAME_MAX) :
    initDentry addr parent name (s.setHeap sizeofDentry (some addr, k)) = withDentry addr k parent name s :=
  if_pos hname

theorem grows_withDentry {addr : ℕ} {k : Malloc.Heap} (hfresh : addr ∉ s.heap.live.map Allocation.ptr) :
    Grows s (withDentry addr k parent name s) :=
  grows_malloc hfresh rfl (fun _ _ => rfl) (fun _ hp => Function.update_of_ne hp ..) rfl rfl rfl rfl

theorem grows_fillInode {a : ℕ} (hfresh : a ∉ s.heap.live.map Allocation.ptr) (sb : ℕ) (k : Malloc.Heap) (ri : Word) :
    Grows s (fillInode a ri sb (s.setHeap sizeofInode (some a, k))) :=
  grows_malloc hfresh rfl (fun _ hp => Function.update_of_ne hp ..) (fun _ _ => rfl) rfl rfl rfl rfl

theorem fillDentry_dentry {addr : ℕ} {k : Malloc.Heap}
    (hu : u.dentries = (withDentry addr k parent name s).dentries) :
    (fillDentry addr found u).dentries (.heap addr) = newDentry parent name found := by
  have hd : (withDentry addr k parent name s).dentries (.heap addr) = _ := Function.update_self ..
  refine (Function.update_self ..).trans ?_
  rw [hu, hd]
  rfl

/-- The step of the loop of `sys_open`, when the name is found. -/
theorem openName_spec {addr : ℕ} (hh : Holding g h₀ s.heap us) (htree : Tree s) (hdir : InTree s dir)
    (hname : name.length < NAME_MAX) (hm : s.malloc fuel sizeofDentry = some (some addr, t))
    (hl : vfsLookup fuel dir name (initDentry addr parent name t) = some (some found, u)) :
    Opens g h₀ s (fillDentry addr found u) us parent ⟨addr, newDentry parent name found⟩ := by
  obtain ⟨k, hk, rfl⟩ := malloc_cases hm
  obtain ⟨hh, hfresh⟩ := hh.malloc modest_sizeofDentry hk
  rw [initDentry_short hname] at hl
  have hgrows : Grows s (withDentry addr k parent name s) := grows_withDentry hfresh
  rcases vfsLookup_some hl with ⟨e, he, rfl, rfl⟩ | ⟨a, j, ri, hop, hj, rfl, rfl⟩
  · have hg := hgrows.fillDentry hfresh (e.inode, .tmpfs)
    exact ⟨hh, hg, fillDentry_dentry rfl, rfl, rfl, fun hop => (nomatch hop), (htree.entries _ e he).keeps hg.toKeeps⟩
  · obtain ⟨hh, hfresh'⟩ := hh.malloc modest_sizeofInode hj
    have hgrows' := grows_fillInode (s := withDentry addr k parent name s) hfresh'
      ((withDentry addr k parent name s).inodes dir).iSb j ri
    have hg := (hgrows.trans hgrows').fillDentry hfresh (.heap a, .romfs)
    -- the root of the image was there before the inode was
    have hroot := (hdir.keeps hgrows.toKeeps).root hop
    have hne : ((withDentry addr k parent name s).superBlocks
        ((withDentry addr k parent name s).inodes dir).iSb).sIroot ≠ .heap a := by
      intro he
      rw [he] at hroot
      exact hfresh' hroot
    have hinode : (fillInode a ri ((withDentry addr k parent name s).inodes dir).iSb
        ((withDentry addr k parent name s).setHeap sizeofInode (some a, j))).inodes (.heap a) = _ :=
      Function.update_self ..
    refine ⟨hh.perm (List.Perm.swap ..), hg, fillDentry_dentry rfl, rfl, rfl, fun _ => ⟨a, rfl, ?_⟩, ?_, fun _ => ?_⟩
    · unfold fillDentry System.setDentry
      rw [hinode]
      exact hne
    · exact List.mem_cons_self
    · unfold fillDentry System.setDentry newDentry
      rw [hinode]
      exact hgrows'.alive _ hroot

/-- **The loop of `sys_open`**, when every name is found: a chain of new dentries. -/
theorem openNames_spec {names : List (List Byte)} {inode dentry : Ptr}
    (hnames : ∀ name ∈ names, name.length < NAME_MAX)
    (hh : Holding g h₀ s.heap us) (htree : Tree s) (hdir : InTree s dir) (hc : Chained s parent pre)
    (hpre : ∀ v ∈ held pre, v.ptr ∈ s.heap.live.map Allocation.ptr)
    (he : openNames fuel names dir parent s = some (.ok (inode, dentry), t)) :
    ∃ ns, Holding g h₀ t.heap (held ns ++ us) ∧ Grows s t ∧ Chained t dentry (ns ++ pre) ∧
      ns.length = names.length := by
  induction names generalizing s dir parent pre us with
  | nil =>
    obtain ⟨hok, rfl⟩ := Prod.mk.inj (Option.some.inj he)
    obtain ⟨rfl, rfl⟩ := Prod.mk.inj (Except.ok.inj hok)
    exact ⟨[], hh, .refl s, hc, rfl⟩
  | cons name names ih =>
    obtain ⟨⟨o, v⟩, hm, he⟩ := Option.bind_eq_some_iff.mp he
    cases o with
    | none => cases he
    | some addr =>
      obtain ⟨⟨o, w⟩, hl, he⟩ := Option.bind_eq_some_iff.mp he
      cases o with
      | none =>
        obtain ⟨r, -, he⟩ := Option.map_eq_some_iff.mp he
        cases he
      | some found =>
        have hop := openName_spec hh htree hdir (hnames name List.mem_cons_self) hm hl
        let n : Node := ⟨addr, newDentry parent name found⟩
        have hcn : Chained (fillDentry addr found w) (.heap addr) (n :: pre) :=
          ⟨rfl, hop.dentry, hop.count, hop.deletable, hc.keeps hpre hop.grows.toKeeps⟩
        have halive : ∀ v ∈ held (n :: pre), v.ptr ∈ (fillDentry addr found w).heap.live.map Allocation.ptr := by
          intro v hv
          rw [held_cons] at hv
          rcases List.mem_append.mp hv with hv | hv
          · exact hop.holding.mem_live (List.mem_append_left _ (List.mem_append_left _ hv))
          · exact hop.grows.alive (.heap v.ptr) (hpre v hv)
        obtain ⟨ns, hh', hg, hc', hlen⟩ := ih (fun m hm => hnames m (List.mem_cons_of_mem _ hm)) hop.holding
          (htree.keeps hop.grows.toKeeps) hop.inTree hcn halive he
        refine ⟨ns ++ [n], ?_, hop.grows.trans hg, ?_, ?_⟩
        · have hheld : held (ns ++ [n]) ++ us = held ns ++ (n.blocks ++ us) := by simp [held]
          rw [hheld]
          exact hh'
        · rw [List.append_assoc]
          exact hc'
        · rw [List.length_append, hlen]
          rfl

end

end PikoRT.Fs.Dentries

import PikoRT.Fs.Dentries
import PikoRT.Fs.RomfsWalk

/-! # Walks that allocate nothing

A lookup in a directory of tmpfs leaves everything as it was. One in an image allocates an inode for
what it finds, and only a dentry knows how to give it back. -/
namespace PikoRT.Fs.SilentWalk
open PikoRT.Kernel.Bitops PikoRT.Libc PikoRT.Libc.Printf PikoRT.Fs.Romfs PikoRT.Fs.Vfs PikoRT.Fs.Dentries
open PikoRT.Fs.RomfsWalk (lookupFrom_mono)

/-- There is no memory for an inode. -/
def Refused (s : System) : Prop := ∃ fuel h, Malloc.malloc fuel sizeofInode s.heap.heap = some (none, h)

/-- The header that the loop of `romfs_lookup` finds. -/
def Finds (dir : Ptr) (name : List Byte) (s : System) (ri : Option Word) : Prop :=
  ∃ fuel, lookup s.rom fuel (s.superBlocks (s.inodes dir).iSb).rs (s.inodes dir).iPrivate name = some ri

/-- A lookup in an image comes back and finds nothing, or has no memory for what it finds. -/
def Quiet (dir : Ptr) (name : List Byte) (s : System) : Prop :=
  sIsdir (s.inodes dir).iMode = true → (s.inodes dir).iOp = .romfs → ∃ ri, Finds dir name s ri ∧
    (ri = none ∨ Refused s)

/-- What a directory of tmpfs has under the name; other inodes have nothing. -/
def found (dir : Ptr) (name : List Byte) (s : System) : Option (Ptr × DentryOperations) :=
  if sIsdir (s.inodes dir).iMode = true ∧ (s.inodes dir).iOp = .tmpfs then tmpfsLookup dir name s else none

/-- All lookups along the names are quiet. -/
def Silent : List (List Byte) → Ptr → System → Prop
  | [], _, _ => True
  | name :: names, inode, s => Quiet inode name s ∧ ∀ f ∈ found inode name s, Silent names f.1 s

/-- Where the names lead through directories of tmpfs. -/
def target : List (List Byte) → Ptr → System → Option Ptr
  | [], inode, _ => some inode
  | name :: names, inode, s => (found inode name s).bind fun f => target names f.1 s

section

variable {dir inode : Ptr} {name : List Byte} {names : List (List Byte)} {s t : System} {fuel : ℕ}
  {o : Option (Ptr × DentryOperations)}

/-- A request that is not granted changes nothing. -/
theorem mallocFrom_none {size : Word} {pos : PikoRT.Kernel.LinuxList.Node Unit ℕ} {h k : Malloc.Heap}
    (hr : Malloc.mallocFrom size fuel pos h = some (none, k)) : k = h := by
  induction fuel generalizing pos with
  | zero => cases hr
  | succ fuel ih =>
    cases pos with
    | head => exact (Prod.mk.inj (Option.some.inj hr)).2.symm
    | item freeBlock =>
      rw [Malloc.mallocFrom] at hr
      split at hr
      · cases hr
      · exact ih hr
    | poison1 => cases hr
    | poison2 => cases hr

theorem setHeap_none {size : Word} {h : Malloc.Heap} (hr : Malloc.malloc fuel size s.heap.heap = some (none, h)) :
    s.setHeap size (none, h) = s := by
  rw [mallocFrom_none hr]
  rfl

theorem not_refused (h : RomfsLookup.Grants s.heap [sizeofInode]) : ¬ Refused s := by
  intro hr
  obtain ⟨m, k, hk⟩ := hr
  obtain ⟨ptr, hptr, -⟩ := (RomfsLookup.grants_cons fun fuel hle => HeapRestore.malloc_mono hle hk).mp h
  cases hptr

/-! ## One lookup -/

theorem found_romfs (h : (s.inodes dir).iOp = .romfs) : found dir name s = none :=
  if_neg fun hd => by
    rw [h] at hd
    cases hd.2

theorem quiet_vfsLookup (h : Quiet dir name s) :
    ∃ n, ∀ fuel ≥ n, vfsLookup fuel dir name s = some (found dir name s, s) := by
  by_cases hdir : sIsdir (s.inodes dir).iMode = true
  · cases hop : (s.inodes dir).iOp with
    | tmpfs =>
      refine ⟨0, fun fuel _ => ?_⟩
      rw [vfsLookup, if_pos hdir, hop, found, if_pos ⟨hdir, hop⟩]
    | romfs =>
      obtain ⟨ri, ⟨n, hn⟩, hri⟩ := h hdir hop
      have hlookup :
        ∀ fuel ≥ n, lookup s.rom fuel (s.superBlocks (s.inodes dir).iSb).rs (s.inodes dir).iPrivate name = some ri :=
        fun fuel hle => lookupFrom_mono hn hle
      rw [found_romfs hop]
      cases ri with
      | none =>
        refine ⟨n, fun fuel hle => ?_⟩
        rw [vfsLookup, if_pos hdir, hop]
        exact Option.bind_eq_some_iff.mpr ⟨none, hlookup fuel hle, rfl⟩
      | some ri =>
        obtain ⟨m, k, hk⟩ := hri.resolve_left (Option.some_ne_none ri)
        refine ⟨max n m, fun fuel hle => ?_⟩
        rw [vfsLookup, if_pos hdir, hop]
        refine Option.bind_eq_some_iff.mpr ⟨some ri, hlookup fuel (le_of_max_le_left hle), ?_⟩
        have halloc : allocInode fuel ri (s.inodes dir).iSb s = some (none, s) := by
          rw [allocInode, System.malloc, HeapRestore.malloc_mono (le_of_max_le_right hle) hk, Option.map_some,
            Option.map_some,
            setHeap_none hk]
        dsimp only
        rw [halloc]
        rfl
  · refine ⟨0, fun fuel _ => ?_⟩
    rw [vfsLookup, if_neg hdir, found, if_neg fun hd => hdir hd.1]

theorem vfsLookup_live (h : vfsLookup fuel dir name s = some (o, t)) : s.heap.live.length ≤ t.heap.live.length := by
  rcases vfsLookup_cases h with ⟨e, -, -, rfl⟩ | ⟨-, rfl⟩ | ⟨k, -, -, rfl⟩ | ⟨a, k, ri, -, -, -, rfl⟩
  · exact le_rfl
  · exact le_rfl
  · exact le_rfl
  · exact Nat.le_succ _

/-- A lookup that is not quiet takes a block. -/
theorem quiet_of_live (h : vfsLookup fuel dir name s = some (o, t)) (hlive : t.heap.live.length ≤ s.heap.live.length) :
    Quiet dir name s := by
  intro hdir hop
  rw [vfsLookup, if_pos hdir, hop] at h
  obtain ⟨ri, hri, h⟩ := Option.bind_eq_some_iff.mp h
  refine ⟨ri, ⟨fuel, hri⟩, ?_⟩
  cases ri with
  | none => exact .inl rfl
  | some ri =>
    obtain ⟨q, hq, h⟩ := Option.map_eq_some_iff.mp h
    obtain ⟨⟨p, v⟩, hv, rfl⟩ := Option.map_eq_some_iff.mp hq
    obtain ⟨k, hk, rfl⟩ := malloc_cases hv
    cases p with
    | none => exact .inr ⟨fuel, k, hk⟩
    | some addr =>
      obtain rfl := (Prod.mk.inj h).2
      exact absurd hlive (Nat.not_succ_le_self _)

theorem vfsLookup_mono {fuel' : ℕ} {r : Option (Ptr × DentryOperations) × System} (hle : fuel ≤ fuel')
    (h : vfsLookup fuel dir name s = some r) : vfsLookup fuel' dir name s = some r := by
  unfold vfsLookup at h ⊢
  split at h
  · rename_i hdir
    rw [if_pos hdir]
    cases hop : (s.inodes dir).iOp with
    | tmpfs =>
      rw [hop] at h
      exact h
    | romfs =>
      rw [hop] at h
      obtain ⟨ri, hri, h⟩ := Option.bind_eq_some_iff.mp h
      refine Option.bind_eq_some_iff.mpr ⟨ri, lookupFrom_mono hri hle, ?_⟩
      cases ri with
      | none => exact h
      | some ri =>
        obtain ⟨q, hq, rfl⟩ := Option.map_eq_some_iff.mp h
        obtain ⟨⟨p, v⟩, hv, rfl⟩ := Option.map_eq_some_iff.mp hq
        obtain ⟨k, hk, rfl⟩ := malloc_cases hv
        dsimp only
        rw [allocInode, System.malloc, HeapRestore.malloc_mono hle hk]
        rfl
  · rename_i hdir
    rw [if_neg hdir]
    exact h

/-- A quiet lookup that comes back has found what is in tmpfs. -/
theorem quiet_vfsLookup_eq (h : Quiet dir name s) (hr : vfsLookup fuel dir name s = some (o, t)) :
    o = found dir name s ∧ t = s := by
  obtain ⟨n, hn⟩ := quiet_vfsLookup h
  have hr' := vfsLookup_mono (Nat.le_max_left fuel n) hr
  rw [hn _ (Nat.le_max_right fuel n)] at hr'
  exact (Prod.mk.inj (Option.some.inj hr')).imp Eq.symm Eq.symm

/-! ## A walk -/

theorem lookupPath_mono {fuel' : ℕ} {r : Option Ptr × System} (hle : fuel ≤ fuel')
    (h : lookupPath fuel names inode s = some r) :
    lookupPath fuel' names inode s = some r := by
  induction names generalizing inode s with
  | nil => exact h
  | cons name names ih =>
    obtain ⟨⟨o, t⟩, ht, h⟩ := Option.bind_eq_some_iff.mp h
    rw [lookupPath, vfsLookup_mono hle ht, Option.bind_some]
    cases o with
    | none => exact h
    | some f => exact ih h

theorem silent_lookupPath (h : Silent names inode s) :
    ∃ n, ∀ fuel ≥ n, lookupPath fuel names inode s = some (target names inode s, s) := by
  induction names generalizing inode with
  | nil => exact ⟨0, fun _ _ => rfl⟩
  | cons name names ih =>
    obtain ⟨n, hn⟩ := quiet_vfsLookup h.1
    cases hf : found inode name s with
    | none =>
      refine ⟨n, fun fuel hle => ?_⟩
      rw [lookupPath, hn fuel hle, target, hf]
      rfl
    | some f =>
      obtain ⟨m, hm⟩ := ih (h.2 f hf)
      refine ⟨max n m, fun fuel hle => ?_⟩
      rw [lookupPath, hn fuel (le_of_max_le_left hle), target, hf]
      exact hm fuel (le_of_max_le_right hle)

theorem lookupPath_live {r : Option Ptr × System} (h : lookupPath fuel names inode s = some r) :
    s.heap.live.length ≤ r.2.heap.live.length := by
  induction names generalizing inode s with
  | nil =>
    obtain rfl := Option.some.inj h
    exact le_rfl
  | cons name names ih =>
    obtain ⟨⟨o, t⟩, ht, h⟩ := Option.bind_eq_some_iff.mp h
    refine (vfsLookup_live ht).trans ?_
    cases o with
    | none =>
      obtain rfl := Option.some.inj h
      exact le_rfl
    | some f => exact ih h

theorem silent_of_live {n : ℕ} {r : Option Ptr × System} (h : ∀ fuel ≥ n, lookupPath fuel names inode s = some r)
    (hlive : r.2.heap.live.length ≤ s.heap.live.length) : Silent names inode s := by
  induction names generalizing inode n with
  | nil => trivial
  | cons name names ih =>
    obtain ⟨⟨o, t⟩, ht, hrest⟩ := Option.bind_eq_some_iff.mp (h n le_rfl)
    have hle : t.heap.live.length ≤ r.2.heap.live.length := by
      cases o with
      | none =>
        obtain rfl := Option.some.inj hrest
        exact le_rfl
      | some f => exact lookupPath_live hrest
    have hquiet := quiet_of_live ht (hle.trans hlive)
    obtain ⟨m, hm⟩ := quiet_vfsLookup hquiet
    refine ⟨hquiet, fun f hf => ?_⟩
    have hpath : ∀ fuel ≥ max n m, lookupPath fuel names f.1 s = some r := fun fuel hfuel => by
      have hcons := h fuel (le_of_max_le_left hfuel)
      rw [lookupPath, hm fuel (le_of_max_le_right hfuel), hf] at hcons
      exact hcons
    exact ih hpath

/-- **A walk allocates nothing** exactly when all its lookups are quiet. -/
theorem silent_iff :
    (∃ n r, (∀ fuel ≥ n, lookupPath fuel names inode s = some r) ∧ r.2.heap.live = s.heap.live) ↔
      Silent names inode s := by
  constructor
  · intro h
    obtain ⟨n, r, hr, hlive⟩ := h
    exact silent_of_live hr (congrArg List.length hlive).le
  · intro h
    obtain ⟨n, hn⟩ := silent_lookupPath h
    exact ⟨n, _, hn, rfl⟩

end

end PikoRT.Fs.SilentWalk

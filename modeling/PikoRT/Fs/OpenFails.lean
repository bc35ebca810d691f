import PikoRT.Fs.OpenClose

/-! # What a failing open leaves behind

`sys_open` returns 0 when it fails, and 0 is a descriptor. What it has allocated before the
failure it gives back only in part: a name that is not found costs its own dentry, and the
other failures cost all the dentries and inodes of the path so far. -/
namespace PikoRT.Fs.OpenFails
open PikoRT.Kernel.Bitops PikoRT.Libc PikoRT.Libc.Printf
open PikoRT.Fs.Romfs PikoRT.Fs.Vfs PikoRT.Fs.Open PikoRT.Fs.Dentries PikoRT.Fs.OpenClose
open PikoRT.Libc.Malloc (Region Allocation)
open PikoRT.Libc.HeapLedger (Holding)

/-- The live blocks, the counts of the dentries and the open files are the same. -/
structure Unchanged (s t : System) : Prop where
  live : t.heap.live.Perm s.heap.live
  counts : ∀ p, (t.dentries p).dCount = (s.dentries p).dCount
  filemap : t.filemap = s.filemap
  filetable : t.filetable = s.filetable

/-- No successful `sys_open` returns the value. -/
def Recognisable (v : ℤ) : Prop :=
  ∀ fuel pathname flags s fd t, openPath fuel pathname flags s = some (.ok fd, t) → v ≠ fd

/-- What a failing `sys_open` has to be like. -/
def Clean (s : System) (r : ℤ × System) : Prop := Unchanged s r.2 ∧ Recognisable r.1

section

variable {g : Region} {h₀ : Malloc.State} {s t : System} {dir parent : Ptr} {pre : List Node} {fuel : ℕ}
  {names : List (List Byte)} {e : Errno}

/-- The failures of the loop of `sys_open`: no memory for a dentry, after the nodes `ns`, or a
name that is not found, whose dentry stays allocated. -/
theorem openNames_error (hnames : ∀ name ∈ names, name.length < NAME_MAX) (hh : Holding g h₀ s.heap (held pre))
    (htree : Tree s) (hdir : InTree s dir) (hc : Chained s parent pre)
    (he : openNames fuel names dir parent s = some (.error e, t)) :
    (∃ ns, Holding g h₀ t.heap (held (ns ++ pre)) ∧
      (ns = [] → t = s ∧ ∃ k, Malloc.malloc fuel sizeofDentry s.heap.heap = some (none, k))) ∨
    ∃ addr, Holding g h₀ t.heap [⟨addr, sizeofDentry⟩] := by
  induction names generalizing s dir parent pre with
  | nil => cases he
  | cons name names ih =>
    obtain ⟨⟨o, v⟩, hm, he⟩ := Option.bind_eq_some_iff.mp he
    have hname := hnames name List.mem_cons_self
    cases o with
    | none =>
      obtain ⟨-, rfl⟩ := Prod.mk.inj (Option.some.inj he)
      obtain ⟨k, hk, rfl⟩ := malloc_cases hm
      obtain rfl := hh.malloc_none modest_sizeofDentry hk
      exact .inl ⟨[], hh, fun _ => ⟨rfl, _, hk⟩⟩
    | some addr =>
      obtain ⟨⟨o, w⟩, hl, he⟩ := Option.bind_eq_some_iff.mp he
      have hpre : ∀ v ∈ held pre, v.ptr ∈ s.heap.live.map Allocation.ptr :=
        fun v hv => hh.mem_live (List.mem_append_left _ hv)
      cases o with
      | none =>
        obtain ⟨r, hr, he⟩ := Option.map_eq_some_iff.mp he
        obtain ⟨-, rfl⟩ := Prod.mk.inj he
        obtain ⟨k, hk, rfl⟩ := malloc_cases hm
        obtain ⟨hh', hfresh⟩ := hh.malloc modest_sizeofDentry hk
        rw [initDentry_short hname] at hl
        -- nothing has changed since the dentry was made
        obtain rfl : w = withDentry addr k parent name s := by
          rcases vfsLookup_none hl with rfl | ⟨j, hj, rfl⟩
          · rfl
          · obtain rfl : j = k := hh'.malloc_none modest_sizeofInode hj
            rfl
        have hc' : Chained (withDentry addr k parent name s) parent pre :=
          hc.keeps hpre (grows_withDentry hfresh).toKeeps
        have hperm : (⟨addr, sizeofDentry⟩ :: held pre).Perm (held pre ++ [⟨addr, sizeofDentry⟩]) :=
          (List.perm_append_singleton ..).symm
        obtain ⟨h, ds, hrel, hh'', -⟩ := releaseDentries_spec hc' (hh'.perm hperm)
          (lt_max_of_lt_right (b := fuel) (Nat.lt_succ_self _))
        obtain rfl : r = _ := Option.some.inj ((releaseDentries_mono (Nat.le_max_left ..) hr).symm.trans hrel)
        exact .inr ⟨addr, hh''⟩
      | some found =>
        have hop := openName_spec hh htree hdir hname hm hl
        let n : Node := ⟨addr, newDentry parent name found⟩
        have hcn : Chained (fillDentry addr found w) (.heap addr) (n :: pre) :=
          ⟨rfl, hop.dentry, hop.count, hop.deletable, hc.keeps hpre hop.grows.toKeeps⟩
        rcases ih (fun m hm => hnames m (List.mem_cons_of_mem _ hm)) hop.holding (htree.keeps hop.grows.toKeeps)
          hop.inTree hcn he with ⟨ns, hns, -⟩ | hone
        · refine .inl ⟨ns ++ [n], ?_, fun hnil => absurd hnil (by simp)⟩
          rw [List.append_assoc]
          exact hns
        · exact .inr hone

/-- What is held beyond the start shows. -/
theorem held_of_unchanged {us : List Allocation} (hh : Holding g s.heap t.heap us) (hu : Unchanged s t) : us = [] := by
  have hlen := (hh.live.symm.trans hu.live).length_eq
  rw [List.length_append] at hlen
  exact List.length_eq_zero_iff.mp (by omega)

theorem held_eq_nil {ns : List Node} (h : held ns = []) : ns = [] := by
  cases ns with
  | nil => rfl
  | cons n ns =>
    rw [held_cons] at h
    cases h

/-- The path is `/`, or there is no memory for its first dentry. -/
def AtOnce (fuel : ℕ) (names : List (List Byte)) (s : System) : Prop :=
  names = [] ∨ ∃ k, Malloc.malloc fuel sizeofDentry s.heap.heap = some (none, k)

theorem openFile_error {flags : Word} {inode dentry : Ptr} (h : openFile flags inode dentry s = some (.error e, t)) :
    t = s := by
  unfold openFile at h
  split at h
  · exact (Prod.mk.inj (Option.some.inj h)).2.symm
  · cases hg : getfd s with
    | mk o u =>
      rw [hg] at h
      cases o with
      | none =>
        obtain ⟨-, rfl⟩ := Prod.mk.inj (Option.some.inj h)
        simp only [getfd] at hg
        split at hg
        · exact (Prod.mk.inj hg).2.symm
        · cases hg
      | some fd =>
        obtain ⟨op, -, h⟩ := Option.map_eq_some_iff.mp h
        cases h

theorem openNames_refused {k : Malloc.Heap} {r : Except Errno (Ptr × Ptr) × System}
    (hh : Holding g h₀ s.heap (held pre)) (hk : Malloc.malloc fuel sizeofDentry s.heap.heap = some (none, k))
    (hne : names ≠ []) (he : openNames fuel names dir parent s = some r) : r = (.error .ENOMEM, s) := by
  cases names with
  | nil => exact absurd rfl hne
  | cons name names =>
    obtain rfl := hh.malloc_none modest_sizeofDentry hk
    rw [openNames, System.malloc, hk] at he
    exact (Option.some.inj he).symm

/-- When a failing open leaves everything as it was. -/
theorem unchanged_iff {xs : List Lib.Tiling.Seg} {pathname : Pathname} {flags : Word} (hi : HeapRun.Inv g s.heap xs)
    (htree : Tree s) (hfits : Fits pathname) (h : openPath fuel pathname flags s = some (.error e, t)) :
    Unchanged s t ↔ AtOnce fuel (pathNames pathname.next) s := by
  have hh : Holding g s.heap s.heap (held []) := .refl hi
  have hroot : Chained s rootDentry [] := rfl
  obtain ⟨⟨o, u⟩, hn, hlast⟩ := Option.bind_eq_some_iff.mp h
  constructor
  · intro hu
    cases o with
    | error e' =>
      obtain ⟨-, rfl⟩ := Prod.mk.inj (Option.some.inj hlast)
      rcases openNames_error hfits hh htree htree.root hroot hn with ⟨ns, hns, hnil⟩ | ⟨addr, hone⟩
      · rw [List.append_nil] at hns
        exact .inr (hnil (held_eq_nil (held_of_unchanged hns hu))).2
      · cases held_of_unchanged hone hu
    | ok found =>
      obtain rfl := openFile_error hlast
      obtain ⟨ns, hns, -, -, hlen⟩ := openNames_spec hfits hh htree htree.root hroot (fun _ hv => (nomatch hv)) hn
      rw [show held ns ++ held [] = held ns from List.append_nil _] at hns
      rw [held_eq_nil (held_of_unchanged hns hu)] at hlen
      exact .inl (List.length_eq_zero_iff.mp hlen.symm)
  · intro hat
    obtain rfl : t = s := by
      by_cases hnil : pathNames pathname.next = []
      · rw [hnil, openNames] at hn
        obtain ⟨rfl, rfl⟩ := Prod.mk.inj (Option.some.inj hn)
        exact openFile_error hlast
      · obtain ⟨k, hk⟩ := hat.resolve_left hnil
        obtain ⟨rfl, rfl⟩ := Prod.mk.inj (openNames_refused hh hk hnil hn)
        exact (Prod.mk.inj (Option.some.inj hlast)).2.symm
    exact ⟨.refl _, fun _ => rfl, rfl, rfl⟩

end

/-! ## The value -/

/-- Opening `/` in a task that has no open files returns 0. -/
theorem open_root_zero : ∃ t, openPath 0 (path "/") 0 longSystem = some (.ok 0, t) := ⟨_, rfl⟩

theorem not_recognisable_zero : ¬ Recognisable 0 := by
  intro h
  obtain ⟨t, ht⟩ := open_root_zero
  exact h _ _ _ _ 0 t ht rfl

/-- **A failing open is never clean**: it returns 0, which a successful one can return too.
In a sound heap, and when no name fills `d_name`, it leaves the resources as they were
exactly if it fails before it has allocated anything. -/
theorem failed_open_not_clean (fuel : ℕ) (pathname : Pathname) (flags : Word) (s : System) (e : Errno) (t : System)
    (h : openPath fuel pathname flags s = some (.error e, t)) :
    ∃ r, sysOpen fuel pathname flags s = some r ∧ r.1 = 0 ∧ r.2.errno = some e ∧ ¬ Clean s r ∧
      ∀ g xs, HeapRun.Inv g s.heap xs → Tree s → Fits pathname →
        (Unchanged s r.2 ↔ AtOnce fuel (pathNames pathname.next) s) := by
  refine ⟨(0, t.fail e), ?_, rfl, rfl, fun hc => not_recognisable_zero hc.2, fun g xs hi htree hfits => ?_⟩
  · rw [sysOpen, h]
    rfl
  · rw [← unchanged_iff hi htree hfits h]
    exact ⟨fun hu => ⟨hu.live, hu.counts, hu.filemap, hu.filetable⟩,
      fun hu => ⟨hu.live, hu.counts, hu.filemap, hu.filetable⟩⟩

/-- The result of an open, without the state. -/
def outcome (o : Option (Except Errno ℕ × System)) : Option (Option Errno × List Allocation) :=
  o.map fun r => (match r.1 with
    | .error e => some e
    | .ok _ => none, r.2.heap.live)

theorem failed_open_etc :
    ∃ t r, openPath 20 (path "/etc") 0 longSystem = some (.error .ENOENT, t) ∧
      sysOpen 20 (path "/etc") 0 longSystem = some r ∧ ¬ Clean longSystem r ∧ ¬ Unchanged longSystem r.2 := by
  have hrun : (openPath 20 (path "/etc") 0 longSystem).isSome = true := by decide +kernel
  have hout : outcome (openPath 20 (path "/etc") 0 longSystem) =
      some (some .ENOENT, ⟨0x20000150, sizeofDentry⟩ :: longHeap.live) := by decide +kernel
  obtain ⟨⟨o, t⟩, ho⟩ := Option.isSome_iff_exists.mp hrun
  rw [ho] at hout
  cases o with
  | ok fd => cases hout
  | error e =>
    obtain ⟨he, hlive⟩ := Prod.mk.inj (Option.some.inj hout)
    obtain rfl := Option.some.inj he
    obtain ⟨r, hr, -, -, hc, -⟩ := failed_open_not_clean _ _ _ _ _ _ ho
    refine ⟨t, r, ho, hr, hc, fun hu => ?_⟩
    rw [sysOpen, ho] at hr
    obtain rfl := Option.some.inj hr
    have hlen := hu.live.length_eq
    change t.heap.live.length = longHeap.live.length at hlen
    rw [show t.heap.live = _ from hlive, List.length_cons] at hlen
    omega

/-- A name that is not found: the dentry for it stays allocated, and the value is that of the
first descriptor. -/
theorem etc_leaks_dentry :
    ∃ r t, sysOpen 20 (path "/etc") 0 longSystem = some r ∧ r.2.errno = some .ENOENT ∧
      r.2.heap.live = ⟨0x20000150, sizeofDentry⟩ :: longSystem.heap.live ∧
      openPath 0 (path "/") 0 longSystem = some (.ok 0, t) ∧ r.1 = (0 : ℕ) ∧ ¬ Clean longSystem r := by
  have hrun : (sysOpen 20 (path "/etc") 0 longSystem).map (fun r => (r.1, r.2.errno, r.2.heap.live)) =
      some (0, some .ENOENT, ⟨0x20000150, sizeofDentry⟩ :: longSystem.heap.live) := by decide +kernel
  obtain ⟨r, hr, he⟩ := Option.map_eq_some_iff.mp hrun
  obtain ⟨hzero, he⟩ := Prod.mk.inj he
  obtain ⟨herrno, hlive⟩ := Prod.mk.inj he
  obtain ⟨t, ht⟩ := open_root_zero
  exact ⟨r, t, hr, herrno, hlive, ht, hzero, fun hc => not_recognisable_zero (hzero ▸ hc.2)⟩

end PikoRT.Fs.OpenFails

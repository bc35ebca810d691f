import PikoRT.Fs.OpenFails
import PikoRT.Fs.PathWalk
import PikoRT.Fs.RomfsRead
import PikoRT.Fs.SilentWalk

/-! # Where the loop of `sys_open` leads

Through the directories of tmpfs it leads to the inode that is linked there, and below the root
of an image to a new inode for the file that the image has at the path. When it fails, what was
there before is there still, but some of what it has allocated may be lost. -/
namespace PikoRT.Fs.OpenWalk
open PikoRT.Kernel.Bitops PikoRT.Libc PikoRT.Libc.Printf
open PikoRT.Fs.Romfs PikoRT.Fs.RomfsLookup PikoRT.Fs.Vfs PikoRT.Fs.Open PikoRT.Fs.Dentries
open PikoRT.Fs.SilentWalk PikoRT.Fs.OpenClose PikoRT.Fs.OpenFails
open PikoRT.Libc.Malloc (Region Allocation)
open PikoRT.Libc.HeapLedger (Holding)

section

variable {g : Region} {h₀ : Malloc.State} {s t u : System} {dir parent inode dentry : Ptr} {fuel : ℕ}
  {name : List Byte} {names : List (List Byte)} {us : List Allocation}

/-- At the root no dentry has been made. -/
theorem chained_root : Chained s rootDentry [] := rfl

/-! ## The image does not change -/

theorem vfsLookup_rom {o : Option (Ptr × DentryOperations)} (h : vfsLookup fuel dir name s = some (o, t)) :
    t.rom = s.rom := by
  rcases vfsLookup_cases h with ⟨e, -, -, rfl⟩ | ⟨-, rfl⟩ | ⟨k, -, -, rfl⟩ | ⟨a, k, ri, -, -, -, rfl⟩ <;> rfl

theorem malloc_rom {size : Word} {o : Option ℕ} (h : s.malloc fuel size = some (o, t)) : t.rom = s.rom := by
  obtain ⟨k, -, rfl⟩ := malloc_cases h
  rfl

theorem initDentry_rom (addr : ℕ) : (initDentry addr parent name s).rom = s.rom := by
  unfold initDentry endName
  split <;> rfl

theorem free_rom {p : Ptr} (h : s.free p = some t) : t.rom = s.rom := by
  cases p with
  | static n => cases h
  | heap a =>
    obtain ⟨k, -, rfl⟩ := Option.map_eq_some_iff.mp h
    rfl

theorem vfsDelete_rom (h : vfsDelete dentry s = some t) : t.rom = s.rom := by
  unfold vfsDelete at h
  split at h
  · exact free_rom h
  · dsimp only at h
    split at h
    · obtain ⟨u, hu, h⟩ := Option.bind_eq_some_iff.mp h
      exact (free_rom h).trans (free_rom hu)
    · exact free_rom h

theorem releaseDentries_rom {r : ℤ × System} (h : releaseDentries fuel dentry s = some r) : r.2.rom = s.rom := by
  induction fuel generalizing dentry s with
  | zero => cases h
  | succ fuel ih =>
    simp only [releaseDentries] at h
    split at h
    · obtain rfl := Option.some.inj h
      rfl
    · split at h
      · obtain rfl := Option.some.inj h
        rfl
      · split at h
        · obtain rfl := Option.some.inj h
          rfl
        · obtain ⟨u, hu, h⟩ := Option.bind_eq_some_iff.mp h
          have hrom : u.rom = (s.setDentry dentry _).rom := vfsDelete_rom hu
          exact (ih h).trans hrom

theorem openNames_rom {r : Except Errno (Ptr × Ptr) × System} (h : openNames fuel names dir parent s = some r) :
    r.2.rom = s.rom := by
  induction names generalizing s dir parent with
  | nil =>
    obtain rfl := Option.some.inj h
    rfl
  | cons name names ih =>
    obtain ⟨⟨o, v⟩, hm, h⟩ := Option.bind_eq_some_iff.mp h
    cases o with
    | none =>
      obtain rfl := Option.some.inj h
      exact malloc_rom hm
    | some addr =>
      obtain ⟨⟨o, w⟩, hl, h⟩ := Option.bind_eq_some_iff.mp h
      have hw : w.rom = s.rom := (vfsLookup_rom hl).trans ((initDentry_rom addr).trans (malloc_rom hm))
      cases o with
      | none =>
        obtain ⟨q, hq, rfl⟩ := Option.map_eq_some_iff.mp h
        exact (releaseDentries_rom hq).trans hw
      | some found => exact (ih h).trans hw

/-! ## In steps -/

theorem openNames_append {ms : List (List Byte)} : openNames fuel (names ++ ms) dir parent s =
    (openNames fuel names dir parent s).bind fun r =>
      match r.1 with
      | .error e => some (.error e, r.2)
      | .ok found => openNames fuel ms found.1 found.2 r.2 := by
  induction names generalizing s dir parent with
  | nil => rfl
  | cons name names ih =>
    rw [List.cons_append, openNames, openNames]
    cases hm : s.malloc fuel sizeofDentry with
    | none => rfl
    | some r =>
      obtain ⟨o, v⟩ := r
      cases o with
      | none => rfl
      | some addr =>
        simp only [Option.bind_some]
        cases hl : vfsLookup fuel dir name (initDentry addr parent name v) with
        | none => rfl
        | some q =>
          obtain ⟨o, w⟩ := q
          cases o with
          | none =>
            simp only [Option.bind_some]
            cases releaseDentries fuel parent w <;> rfl
          | some found =>
            simp only [Option.bind_some]
            exact ih

/-- A step of the loop that goes on. -/
theorem openNames_cons_ok {found : Ptr × Ptr} (h : openNames fuel (name :: names) dir parent s = some (.ok found, t)) :
    ∃ addr k f w, Malloc.malloc fuel sizeofDentry s.heap.heap = some (some addr, k) ∧
      vfsLookup fuel dir name (initDentry addr parent name (s.setHeap sizeofDentry (some addr, k))) =
      some (some f, w) ∧
      openNames fuel names f.1 (.heap addr) (fillDentry addr f w) = some (.ok found, t) := by
  obtain ⟨⟨o, v⟩, hm, h⟩ := Option.bind_eq_some_iff.mp h
  obtain ⟨k, hk, rfl⟩ := malloc_cases hm
  cases o with
  | none => cases h
  | some addr =>
    obtain ⟨⟨o, w⟩, hl, h⟩ := Option.bind_eq_some_iff.mp h
    cases o with
    | none =>
      obtain ⟨q, -, h⟩ := Option.map_eq_some_iff.mp h
      cases h
    | some f => exact ⟨addr, k, f, w, hk, hl, h⟩

/-! ## Through the directories of tmpfs -/

theorem found_congr (hi : t.inodes = s.inodes) (hd : t.dirlists = s.dirlists) :
    found dir name t = found dir name s := by
  unfold found tmpfsLookup
  rw [hi, hd]

theorem target_congr (hi : t.inodes = s.inodes) (hd : t.dirlists = s.dirlists) :
    target names dir t = target names dir s := by
  induction names generalizing dir with
  | nil => rfl
  | cons name names ih =>
    rw [target, target, found_congr hi hd]
    exact Option.bind_congr fun f _ => ih

theorem vfsLookup_found {f : Ptr × DentryOperations} (h : found dir name s = some f) :
    vfsLookup fuel dir name s = some (some f, s) := by
  obtain ⟨⟨hdir, hop⟩, hf⟩ := Option.ite_none_right_eq_some.mp h
  rw [vfsLookup, if_pos hdir, hop]
  exact congrArg (fun o => some (o, s)) hf

theorem initDentry_inodes (addr : ℕ) : (initDentry addr parent name s).inodes = s.inodes := by
  unfold initDentry endName
  split <;> rfl

theorem initDentry_dirlists (addr : ℕ) : (initDentry addr parent name s).dirlists = s.dirlists := by
  unfold initDentry endName
  split <;> rfl

/-- Names that lead through tmpfs are followed. -/
theorem openNames_target {p : Ptr} (hp : target names dir s = some p)
    (h : openNames fuel names dir parent s = some (.ok (inode, dentry), t)) : inode = p := by
  induction names generalizing s dir parent with
  | nil =>
    obtain ⟨hok, -⟩ := Prod.mk.inj (Option.some.inj h)
    exact (Prod.mk.inj (Except.ok.inj hok)).1.symm.trans (Option.some.inj hp)
  | cons name names ih =>
    obtain ⟨f, hf, hp⟩ := Option.bind_eq_some_iff.mp hp
    obtain ⟨addr, k, f', w, -, hl, h⟩ := openNames_cons_ok h
    rw [vfsLookup_found (f := f)] at hl
    · obtain ⟨hff, rfl⟩ := Prod.mk.inj (Option.some.inj hl)
      obtain rfl := Option.some.inj hff
      refine ih ?_ h
      rw [← hp]
      exact target_congr (initDentry_inodes addr) (initDentry_dirlists addr)
    · rw [← hf]
      exact found_congr (initDentry_inodes addr) (initDentry_dirlists addr)

theorem InTree.found {f : Ptr × DentryOperations} (htree : Tree s) (h : found dir name s = some f) : InTree s f.1 := by
  obtain ⟨-, hf⟩ := Option.ite_none_right_eq_some.mp h
  obtain ⟨e, he, rfl⟩ := Option.map_eq_some_iff.mp hf
  exact htree.entries _ e (List.mem_of_find?_eq_some he)

theorem InTree.target {p : Ptr} (htree : Tree s) (hdir : InTree s dir) (h : target names dir s = some p) :
    InTree s p := by
  induction names generalizing dir with
  | nil => exact Option.some.inj h ▸ hdir
  | cons name names ih =>
    obtain ⟨f, hf, h⟩ := Option.bind_eq_some_iff.mp h
    exact ih (InTree.found htree hf) h

/-- What is linked stays where it is. -/
theorem target_keeps (htree : Tree s) (hdir : InTree s dir) (hk : Keeps s t) :
    target names dir t = target names dir s := by
  induction names generalizing dir with
  | nil => rfl
  | cons name names ih =>
    have hfound : SilentWalk.found dir name t = SilentWalk.found dir name s := by
      unfold SilentWalk.found tmpfsLookup
      rw [hk.inodes dir hdir.alive, hk.dirlists]
    rw [SilentWalk.target, SilentWalk.target, hfound]
    exact Option.bind_congr fun f hf => ih (InTree.found htree hf)

/-! ## Below the root of an image -/

variable {rs d : Word} {l : Layout}

/-- The inode and the dentry are those of the file at the offset `h`. -/
structure LeadsTo (s : System) (rs : Word) (sb : ℕ) (h : Word) (inode dentry : Ptr) : Prop where
  inodeAt : ∃ a, inode = .heap a ∧ (s.inodes inode).iFop = some .romfs ∧ (s.inodes inode).iSb = sb ∧
    (s.inodes inode).iMode = allocMode (fileType s.rom (romfsInode rs h)) ∧ (s.inodes inode).iPrivate = h ∧
    (s.inodes inode).iSize = ntohl (size s.rom (romfsInode rs h))
  dentryAt : ∃ n, dentry = .heap n ∧ (s.dentries dentry).dInode = inode ∧ (s.dentries dentry).dOp = .romfs

theorem DirectoryAt.congr (h : DirectoryAt s rs d dir) (hi : t.inodes = s.inodes)
    (hsb : t.superBlocks = s.superBlocks) :
    DirectoryAt t rs d dir := by
  constructor
  · rw [hi]
    exact h.mode
  · rw [hi]
    exact h.op
  · rw [hi, hsb]
    exact h.image
  · rw [hi]
    exact h.offset

/-- A lookup in an image that finds something. -/
theorem vfsLookup_image {xs : List Lib.Tiling.Seg} {f : Ptr × DentryOperations} (hi : HeapRun.Inv g s.heap xs)
    (hw : WellFormed s.rom rs l) (hd : IsDir s.rom rs l d) (hdir : DirectoryAt s rs d dir) (hn : 0 ∉ name)
    (h : vfsLookup fuel dir name s = some (some f, t)) :
    ∃ e a k, l.find d name = some e ∧ Malloc.malloc fuel sizeofInode s.heap.heap = some (some a, k) ∧
      f = (.heap a, .romfs) ∧ t = withInode s dir rs e a k := by
  obtain ⟨n, r, q, hr, hq, hcase⟩ := vfsLookup_spec hi hw hd hdir hn
  obtain rfl :=
    Option.some.inj ((vfsLookup_mono (Nat.le_max_left fuel n) h).symm.trans (hq _ (Nat.le_max_right fuel n)))
  rcases hcase with ⟨e, a, hf, -, hptr, hfound⟩ | ⟨hnone, -⟩
  · obtain ⟨hff, rfl⟩ := Prod.mk.inj hfound
    refine ⟨e, a, r.2, hf, ?_, Option.some.inj hff, rfl⟩
    rcases vfsLookup_some h with ⟨b, -, hb, -⟩ | ⟨b, k, ri, -, hk, -, -⟩
    · have hop := congrArg Prod.snd ((Option.some.inj hff).symm.trans hb)
      cases hop
    · have hmono := (HeapRestore.malloc_mono (Nat.le_max_left fuel n) hk).symm.trans (hr _ (Nat.le_max_right fuel n))
      rw [hk, Option.some.inj hmono, ← hptr]
  · cases hnone

/-- A lookup in what is no directory finds nothing. -/
theorem vfsLookup_noDir (h : sIsdir (s.inodes dir).iMode = false) : vfsLookup fuel dir name s = some (none, s) := by
  rw [vfsLookup, if_neg (by rw [h]; exact Bool.false_ne_true)]

theorem resolve_cons {rom : Rom} {e : Word} {n m : CString} {ns : List CString} (hf : l.find d n.text = some e)
    (ht : fileType rom (romfsInode rs e) = .dir) :
      resolve rom rs l d (n :: m :: ns) = resolve rom rs l e (m :: ns) := by
  rw [resolve, hf, Option.bind_some, if_pos ht]
  exact List.cons_ne_nil m ns

/-- **The names below a directory of an image are resolved in the image.** -/
theorem openNames_image (hh : Holding g h₀ s.heap us) (hw : WellFormed s.rom rs l) (hd : IsDir s.rom rs l d)
    (hdir : DirectoryAt s rs d dir) (hnames : ∀ n ∈ names, 0 ∉ n ∧ n.length < NAME_MAX) (hne : names ≠ [])
    (h : openNames fuel names dir parent s = some (.ok (inode, dentry), t)) :
    ∃ e, resolve s.rom rs l d (names.map ofBytes) = some e ∧ LeadsTo t rs (s.inodes dir).iSb e inode dentry := by
  induction names generalizing s dir parent us d with
  | nil => exact absurd rfl hne
  | cons name names ih =>
    obtain ⟨hnul, hshort⟩ := hnames name List.mem_cons_self
    obtain ⟨addr, k, f, w, hk, hl, h⟩ := openNames_cons_ok h
    obtain ⟨hh', -⟩ := hh.malloc modest_sizeofDentry hk
    rw [initDentry_short hshort] at hl
    obtain ⟨-, xs, -, hi, -⟩ := hh'.blocks
    have hdir' : DirectoryAt (withDentry addr k parent name s) rs d dir := DirectoryAt.congr hdir rfl rfl
    obtain ⟨e, a, j, hf, hj, rfl, rfl⟩ := vfsLookup_image (s := withDentry addr k parent name s) hi hw hd hdir' hnul hl
    have htext := ofBytes_text hnul
    have hinode :
      (fillDentry addr (.heap a, .romfs) (withInode (withDentry addr k parent name s) dir rs e a j)).inodes (.heap a) =
        deviceInode (romfsInode rs e) (s.inodes dir).iSb (withDentry addr k parent name s) := withInode_inode ..
    cases names with
    | nil =>
      obtain ⟨hok, rfl⟩ := Prod.mk.inj (Option.some.inj h)
      obtain ⟨rfl, rfl⟩ := Prod.mk.inj (Except.ok.inj hok)
      refine ⟨e, ?_, ⟨a, rfl, ?_⟩, addr, rfl, ?_, ?_⟩
      · show l.find d (ofBytes name).text = some e
        rw [htext]
        exact hf
      · rw [hinode]
        refine ⟨rfl, rfl, rfl, ?_, rfl⟩
        show romfsInode rs e - (s.superBlocks (s.inodes dir).iSb).rs = e
        rw [hdir.image, romfsInode, add_sub_cancel_left]
      · exact congrArg Dentry.dInode (fillDentry_dentry rfl)
      · exact congrArg Dentry.dOp (fillDentry_dentry rfl)
    | cons m ms =>
      by_cases ht : fileType s.rom (romfsInode rs e) = .dir
      · obtain ⟨hh'', -⟩ := hh'.malloc Dentries.modest_sizeofInode hj
        have hentry : IsDir s.rom rs l e := .entry hd (List.mem_of_find?_eq_some hf) ht
        have hnext := directoryAt_withInode (s := withDentry addr k parent name s) hdir' ht a j
        obtain ⟨x, hx, hleads⟩ :=
          ih (s := fillDentry addr (.heap a, .romfs) (withInode (withDentry addr k parent name s) dir rs e a j))
          hh'' hw hentry
          (DirectoryAt.congr hnext rfl rfl) (fun n hn => hnames n (List.mem_cons_of_mem _ hn)) (List.cons_ne_nil _ _) h
        rw [hinode] at hleads
        refine ⟨x, ?_, hleads⟩
        rw [List.map_cons, List.map_cons, resolve_cons (by rw [htext]; exact hf) ht]
        exact hx
      · -- the next lookup would be in something that is no directory
        obtain ⟨addr', k', f, v, -, hl, -⟩ := openNames_cons_ok h
        rw [vfsLookup_noDir] at hl
        · cases hl
        · rw [initDentry_inodes]
          show sIsdir ((fillDentry addr (.heap a, .romfs) (withInode _ dir rs e a j)).inodes (.heap a)).iMode = false
          rw [hinode]
          exact (sIsdir_allocMode _).trans (decide_eq_false ht)

/-! ## When the loop fails -/

/-- A chain with blocks that are not in `s` is released. -/
theorem releaseDentries_grows {pre : List Node} {s₀ : System} {r : ℤ × System} (hc : Chained s dentry pre)
    (hh : Holding g s₀.heap s.heap (held pre ++ us)) (hgrows : Grows s₀ s)
    (h : releaseDentries fuel dentry s = some r) :
    Holding g s₀.heap r.2.heap us ∧ Grows s₀ r.2 := by
  obtain ⟨k, ds, hrel, hh', hds⟩ := releaseDentries_spec hc hh (lt_max_of_lt_right (b := fuel) (Nat.lt_succ_self _))
  obtain rfl := Option.some.inj ((releaseDentries_mono (Nat.le_max_left ..) h).symm.trans hrel)
  -- the dentries of the chain were not there before
  have hfresh : ∀ p, Alive s₀.heap p → ∀ n ∈ pre, p ≠ .heap n.addr := by
    rintro p hp n hn rfl
    have hnd := hh.nodup
    rw [List.append_assoc, List.map_append] at hnd
    refine List.disjoint_of_nodup_append hnd (List.mem_map_of_mem (mem_held_of_mem hn)) ?_
    rw [List.map_append]
    exact List.mem_append_right _ hp
  refine ⟨hh', ⟨fun p hp => ?_, hgrows.inodes, fun p hp => ?_, hgrows.superBlocks, hgrows.dirlists⟩, hgrows.filemap,
    hgrows.filetable⟩
  · cases p with
    | static n => trivial
    | heap a =>
      obtain ⟨v, hv, rfl⟩ := List.mem_map.mp hp
      exact hh'.mem_live (List.mem_append_right _ hv)
  · exact (hds p (hfresh p hp)).trans (hgrows.dentries p hp)

/-- **What a failing open loses** are blocks of its own. -/
theorem openNames_refuses {s₀ : System} {pre : List Node} {e : Errno} (hnames : ∀ n ∈ names, n.length < NAME_MAX)
    (hh : Holding g s₀.heap s.heap (held pre)) (hgrows : Grows s₀ s) (htree : Tree s) (hdir : InTree s dir)
    (hc : Chained s parent pre) (h : openNames fuel names dir parent s = some (.error e, t)) :
    ∃ us, Holding g s₀.heap t.heap us ∧ Grows s₀ t := by
  induction names generalizing s dir parent pre with
  | nil => cases h
  | cons name names ih =>
    obtain ⟨⟨o, v⟩, hm, h⟩ := Option.bind_eq_some_iff.mp h
    obtain ⟨k, hk, rfl⟩ := malloc_cases hm
    have hname := hnames name List.mem_cons_self
    cases o with
    | none =>
      obtain ⟨-, rfl⟩ := Prod.mk.inj (Option.some.inj h)
      exact ⟨held pre, setHeap_none hk ▸ hh, setHeap_none hk ▸ hgrows⟩
    | some addr =>
      obtain ⟨⟨o, w⟩, hl, h⟩ := Option.bind_eq_some_iff.mp h
      have hpre : ∀ v ∈ held pre, v.ptr ∈ s.heap.live.map Allocation.ptr :=
        fun v hv => hh.mem_live (List.mem_append_left _ hv)
      cases o with
      | none =>
        obtain ⟨r, hr, h⟩ := Option.map_eq_some_iff.mp h
        obtain ⟨-, rfl⟩ := Prod.mk.inj h
        obtain ⟨hh', hfresh⟩ := hh.malloc modest_sizeofDentry hk
        rw [initDentry_short hname] at hl
        -- nothing has changed since the dentry was made
        obtain rfl : w = withDentry addr k parent name s := by
          rcases vfsLookup_none hl with rfl | ⟨j, hj, rfl⟩
          · rfl
          · exact setHeap_none hj
        have hnew : Grows s (withDentry addr k parent name s) := grows_withDentry hfresh
        exact ⟨_, releaseDentries_grows (hc.keeps hpre hnew.toKeeps) (hh'.perm (List.perm_append_singleton ..).symm)
          (hgrows.trans hnew) hr⟩
      | some f =>
        have hop := openName_spec hh htree hdir hname hm hl
        let n : Node := ⟨addr, newDentry parent name f⟩
        have hcn : Chained (fillDentry addr f w) (.heap addr) (n :: pre) :=
          ⟨rfl, hop.dentry, hop.count, hop.deletable, hc.keeps hpre hop.grows.toKeeps⟩
        exact ih (fun m hm => hnames m (List.mem_cons_of_mem _ hm)) hop.holding (hgrows.trans hop.grows)
          (htree.keeps hop.grows.toKeeps) hop.inTree hcn h

end

end PikoRT.Fs.OpenWalk

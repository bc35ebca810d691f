import PikoRT.Fs.Dentries
import PikoRT.Fs.RomfsLookup
import PikoRT.Lib.Run

/-! # Sequences of opens and closes

Files are opened and closed again, in any order. A session notes for every file that it
has opened the descriptor, the entry of the file table and the chain of dentries, as they
were when `sys_open` returned. -/
namespace PikoRT.Fs.OpenClose
open PikoRT.Lib.Run PikoRT.Kernel.Bitops PikoRT.Libc PikoRT.Libc.Printf
open PikoRT.Fs.Romfs PikoRT.Fs.Vfs PikoRT.Fs.Open PikoRT.Fs.Dentries
open PikoRT.Libc.Malloc (Region Allocation)
open PikoRT.Libc.HeapRestore (BlockList)
open PikoRT.Libc.HeapLedger (Holding)
open PikoRT.Fs.RomfsLookup (text be32 flash)

/-- A file that is open. -/
structure Held where
  fd : ℕ
  file : File
  nodes : List Node
  deriving DecidableEq, Repr

structure Session where
  sys : System
  opened : List Held

inductive Act where
  | open (fuel : ℕ) (pathname : Pathname) (flags : Word)
  | close (fuel : ℕ) (fd : ℕ)

/-- The dentries from `p` upwards. -/
def dentriesFrom (s : System) : ℕ → Ptr → List Node
  | 0, _ => []
  | _ + 1, .static _ => []
  | k + 1, .heap a => ⟨a, s.dentries (.heap a)⟩ :: dentriesFrom s k (s.dentries (.heap a)).dParent

/-- What is noted of a file that `sys_open` has just opened. -/
def note (pathname : Pathname) (fd : ℕ) (s : System) : Held where
  fd := fd
  file := s.filetable fd
  nodes := dentriesFrom s (pathNames pathname.next).length ((s.filetable fd).fDentry.getD rootDentry)

/-- A `sys_open` that succeeds, or the `sys_close` of a file that the session has open. -/
def step (x : Session) : Act → Option Session
  | .open fuel pathname flags =>
    (openPath fuel pathname flags x.sys).bind fun r =>
      match r.1 with
      | .ok fd => some ⟨r.2, note pathname fd r.2 :: x.opened⟩
      | .error _ => none
  | .close fuel fd =>
    (x.opened.find? fun f => decide (f.fd = fd)).bind fun f =>
      (sysClose fuel fd x.sys).map fun r => ⟨r.2, x.opened.erase f⟩

/-- No name that `path_head` takes off the path fills `d_name`. -/
def Fits (pathname : Pathname) : Prop := ∀ name ∈ pathNames pathname.next, name.length < NAME_MAX

instance (pathname : Pathname) : Decidable (Fits pathname) :=
  inferInstanceAs (Decidable (∀ name ∈ pathNames pathname.next, name.length < NAME_MAX))

def Act.Fits : Act → Prop
  | .open _ pathname _ => OpenClose.Fits pathname
  | .close _ _ => True

/-- The blocks of the open files. -/
def heldBy (fs : List Held) : List Allocation := fs.flatMap fun f => held f.nodes

/-- The file still has its entry in the file table and its dentries. -/
structure Held.Kept (f : Held) (s : System) : Prop where
  fd : f.fd < FILE_MAX
  file : s.filetable f.fd = f.file
  chain : ∃ p, f.file.fDentry = some p ∧ Chained s p f.nodes

/-- The session accounts for all that is there beyond `s₀`. -/
structure Account (g : Region) (s₀ : System) (x : Session) : Prop where
  holding : Holding g s₀.heap x.sys.heap (heldBy x.opened)
  keeps : Keeps s₀ x.sys
  files : ∀ f ∈ x.opened, f.Kept x.sys
  fds : (x.opened.map Held.fd).Nodup
  apart : ∀ f ∈ x.opened, s₀.filemap.getLsbD f.fd = false
  filemap : ∀ j < 32, x.sys.filemap.getLsbD j = (s₀.filemap.getLsbD j || decide (j ∈ x.opened.map Held.fd))
  filetable : ∀ j, s₀.filemap.getLsbD j = true → x.sys.filetable j = s₀.filetable j

section

variable {g : Region} {s₀ s t : System} {x y : Session} {p : Ptr} {ns : List Node} {f : Held} {fuel fd : ℕ}
  {pathname : Pathname} {flags : Word}

theorem dentriesFrom_eq {k : ℕ} (hc : Chained s p ns) (hk : ns.length ≤ k) : dentriesFrom s k p = ns := by
  induction ns generalizing p k with
  | nil =>
    obtain rfl : p = rootDentry := hc
    cases k with
    | zero => rfl
    | succ k => rfl
  | cons n ns ih =>
    obtain ⟨rfl, hn, -, -, hc⟩ := hc
    rw [List.length_cons] at hk
    obtain ⟨k, rfl⟩ : ∃ j, k = j + 1 := ⟨k - 1, by omega⟩
    rw [dentriesFrom, hn, ih hc (by omega)]

theorem testBit_singleton (w : Word) {j : ℕ} (hj : j < 32) : testBit [w] j = w.getLsbD j := by
  unfold testBit
  rw [Nat.div_eq_of_lt hj, Nat.mod_eq_of_lt hj]
  rfl

/-- `getfd` takes the least descriptor that is free. -/
theorem getfd_some (h : getfd s = (some fd, t)) :
    fd < FILE_MAX ∧ s.filemap.getLsbD fd = false ∧ (∀ j < fd, s.filemap.getLsbD j = true) ∧
      t = { s with filemap := setBit fd s.filemap } := by
  have hfits : FILE_MAX ≤ 32 * [s.filemap].length := show 8 ≤ 32 * 1 by omega
  obtain ⟨hle, hzero, hlow⟩ := findFirstZeroBit_spec hfits
  simp only [getfd] at h
  split at h
  · cases h
  · rename_i hne
    obtain ⟨hfd, rfl⟩ := Prod.mk.inj h
    obtain rfl := Option.some.inj hfd
    have hmax : FILE_MAX = 8 := rfl
    have hlt : findFirstZeroBit [s.filemap] FILE_MAX < FILE_MAX := lt_of_le_of_ne hle hne
    refine ⟨hlt, ?_, fun j hj => ?_, rfl⟩
    · rw [← testBit_singleton s.filemap (by omega)]
      exact hzero hlt
    · rw [← testBit_singleton s.filemap (by omega)]
      exact hlow j hj

theorem openFile_ok {inode dentry : Ptr} (h : openFile flags inode dentry s = some (.ok fd, t)) :
    ∃ file, file.fDentry = some dentry ∧ fd < FILE_MAX ∧ s.filemap.getLsbD fd = false ∧
      (∀ j < fd, s.filemap.getLsbD j = true) ∧
      t = { s with filemap := setBit fd s.filemap, filetable := Function.update s.filetable fd file } := by
  unfold openFile at h
  split at h
  · cases h
  · cases hg : getfd s with
    | mk o u =>
      rw [hg] at h
      cases o with
      | none => cases h
      | some fd' =>
        obtain ⟨op, -, h⟩ := Option.map_eq_some_iff.mp h
        obtain ⟨hok, rfl⟩ := Prod.mk.inj h
        obtain rfl := Except.ok.inj hok
        obtain ⟨hlt, hfree, hlow, rfl⟩ := getfd_some hg
        refine ⟨_, ?_, hlt, hfree, hlow, rfl⟩
        unfold initFile openHook
        split <;> rfl

theorem heldBy_cons (f : Held) (fs : List Held) : heldBy (f :: fs) = held f.nodes ++ heldBy fs := List.flatMap_cons

theorem heldBy_perm_erase {f : Held} {fs : List Held} (hf : f ∈ fs) :
    (heldBy fs).Perm (held f.nodes ++ heldBy (fs.erase f)) := by
  rw [← heldBy_cons]
  exact (List.perm_cons_erase hf).flatMap_right _

theorem mem_heldBy {fs : List Held} {v : Allocation} (hf : f ∈ fs) (hv : v ∈ held f.nodes) : v ∈ heldBy fs :=
  List.mem_flatMap.mpr ⟨f, hf, hv⟩

/-- The blocks of the open files are allocated. -/
theorem Account.alive (ha : Account g s₀ x) {v : Allocation} (hv : v ∈ heldBy x.opened) :
    v.ptr ∈ x.sys.heap.live.map Allocation.ptr :=
  ha.holding.mem_live (List.mem_append_left _ hv)

theorem account_init {xs : List Lib.Tiling.Seg} (hi : HeapRun.Inv g s₀.heap xs) : Account g s₀ ⟨s₀, []⟩ where
  holding := .refl hi
  keeps := .refl s₀
  files := fun _ h => (nomatch h)
  fds := List.nodup_nil
  apart := fun _ h => (nomatch h)
  filemap := fun j _ => by simp
  filetable := fun _ _ => rfl

/-- A successful open, in steps. -/
theorem openPath_ok (h : openPath fuel pathname flags s = some (.ok fd, t)) :
    ∃ inode dentry u, openNames fuel (pathNames pathname.next) rootInode rootDentry s = some (.ok (inode, dentry), u) ∧
      openFile flags inode dentry u = some (.ok fd, t) := by
  obtain ⟨⟨o, u⟩, hn, h⟩ := Option.bind_eq_some_iff.mp h
  cases o with
  | error e => cases h
  | ok found => exact ⟨found.1, found.2, u, hn, h⟩

/-- The session after an open. -/
theorem Account.open (ha : Account g s₀ x) (htree : Tree s₀) (hfits : Fits pathname)
    (h : openPath fuel pathname flags x.sys = some (.ok fd, t)) :
      Account g s₀ ⟨t, note pathname fd t :: x.opened⟩ := by
  obtain ⟨inode, dentry, u, hn, hf⟩ := openPath_ok h
  have htree' := htree.keeps ha.keeps
  have hroot : Chained x.sys rootDentry [] := rfl
  obtain ⟨ns, hh, hgrows, hc, hlen⟩ := openNames_spec hfits ha.holding htree' htree'.root hroot
    (fun _ hv => (nomatch hv)) hn
  rw [List.append_nil] at hc
  obtain ⟨file, hdentry, hlt, hfree, -, rfl⟩ := openFile_ok hf
  have hmax : FILE_MAX = 8 := rfl
  rw [hgrows.filemap] at hfree
  -- the descriptor was not in use
  have hbit := ha.filemap fd (by omega)
  rw [hfree] at hbit
  obtain ⟨hbit₀, hnew⟩ := Bool.or_eq_false_iff.mp hbit.symm
  have hnew : fd ∉ x.opened.map Held.fd := of_decide_eq_false hnew
  have hc' : Chained { u with
      filemap := setBit fd u.filemap, filetable := Function.update u.filetable fd file } dentry ns :=
    hc.frame (fun _ _ => rfl) (fun _ _ => rfl) rfl
  have hnote : note pathname fd { u with
      filemap := setBit fd u.filemap, filetable := Function.update u.filetable fd file } = ⟨fd, file, ns⟩ := by
    have hfile : Function.update u.filetable fd file fd = file := Function.update_self ..
    simp only [note, hfile, hdentry, Option.getD_some]
    rw [dentriesFrom_eq hc' hlen.le]
  rw [hnote]
  have hkeeps : Keeps x.sys { u with
      filemap := setBit fd u.filemap, filetable := Function.update u.filetable fd file } :=
    ⟨hgrows.alive, hgrows.inodes, hgrows.dentries, hgrows.superBlocks, hgrows.dirlists⟩
  constructor
  · rw [heldBy_cons]
    exact hh
  · exact ha.keeps.trans hkeeps
  · intro f hf
    rcases List.mem_cons.mp hf with rfl | hf
    · exact ⟨hlt, Function.update_self .., dentry, hdentry, hc'⟩
    · obtain ⟨hfd, hfile, p, hp, hcf⟩ := ha.files f hf
      have hne : f.fd ≠ fd := fun he => hnew (he ▸ List.mem_map_of_mem hf)
      refine ⟨hfd, ?_, p, hp, hcf.keeps (fun v hv => ha.alive (mem_heldBy hf hv)) hkeeps⟩
      show Function.update u.filetable fd file f.fd = f.file
      rw [Function.update_of_ne hne, hgrows.filetable, hfile]
  · exact List.nodup_cons.mpr ⟨hnew, ha.fds⟩
  · intro f hf
    rcases List.mem_cons.mp hf with rfl | hf
    · exact hbit₀
    · exact ha.apart f hf
  · intro j hj
    show (setBit fd u.filemap).getLsbD j = _
    rw [getLsbD_setBit _ (by omega) hj, hgrows.filemap, ha.filemap j hj, List.map_cons]
    by_cases hjf : j = fd
    · simp [hjf]
    · simp [hjf]
  · intro j hj
    have hne : j ≠ fd := by
      intro he
      rw [he, hbit₀] at hj
      cases hj
    show Function.update u.filetable fd file j = _
    rw [Function.update_of_ne hne, hgrows.filetable, ha.filetable j hj]

theorem releaseDentries_mono {fuel' : ℕ} {r : ℤ × System} (hle : fuel ≤ fuel')
    (h : releaseDentries fuel p s = some r) :
    releaseDentries fuel' p s = some r := by
  induction fuel generalizing fuel' p s with
  | zero => cases h
  | succ fuel ih =>
    obtain ⟨fuel', rfl⟩ : ∃ k, fuel' = k + 1 := ⟨fuel' - 1, by omega⟩
    simp only [releaseDentries] at h ⊢
    split
    · rw [if_pos ‹_›] at h
      exact h
    · rw [if_neg ‹_›] at h
      split
      · rw [if_pos ‹_›] at h
        exact h
      · rw [if_neg ‹_›] at h
        split
        · rw [if_pos ‹_›] at h
          exact h
        · rw [if_neg ‹_›] at h
          obtain ⟨u, hu, h⟩ := Option.bind_eq_some_iff.mp h
          rw [hu, Option.bind_some]
          exact ih (by omega) h

/-- `sys_close` of a file of the session. -/
theorem sysClose_spec (ha : Account g s₀ x) (hf : f ∈ x.opened) (hfuel : f.nodes.length < fuel) :
    ∃ h ds, sysClose fuel f.fd x.sys =
        some (0, releasefd f.fd { x.sys with heap := h, dentries := ds }) ∧
      Holding g s₀.heap h (heldBy (x.opened.erase f)) ∧
      ∀ q, (∀ n ∈ f.nodes, q ≠ .heap n.addr) → ds q = x.sys.dentries q := by
  obtain ⟨hfd, hfile, p, hp, hc⟩ := ha.files f hf
  obtain ⟨h, ds, hrel, hh, hds⟩ := releaseDentries_spec hc (ha.holding.perm (heldBy_perm_erase hf)) hfuel
  refine ⟨h, ds, ?_, hh, hds⟩
  have hrange : 0 ≤ (f.fd : ℤ) ∧ (f.fd : ℤ) < FILE_MAX := ⟨Int.natCast_nonneg _, Int.ofNat_lt.mpr hfd⟩
  rw [sysClose, fdToFile, if_pos hrange, Option.bind_some, Int.toNat_natCast, hfile, hp, Option.bind_some, hrel]
  rfl

theorem sysClose_mono {fuel' : ℕ} {fd : ℤ} {r : ℤ × System} (hle : fuel ≤ fuel') (h : sysClose fuel fd s = some r) :
    sysClose fuel' fd s = some r := by
  obtain ⟨file, hfile, h⟩ := Option.bind_eq_some_iff.mp h
  obtain ⟨dentry, hdentry, h⟩ := Option.bind_eq_some_iff.mp h
  obtain ⟨q, hq, rfl⟩ := Option.map_eq_some_iff.mp h
  rw [sysClose, hfile, Option.bind_some, hdentry, Option.bind_some, releaseDentries_mono hle hq]
  rfl

/-- The dentries of a file are apart from the blocks of the other files and of the start. -/
theorem Account.disjoint (ha : Account g s₀ x) (hf : f ∈ x.opened) {n : Node} (hn : n ∈ f.nodes) {v : Allocation}
    (hv : v ∈ heldBy (x.opened.erase f) ++ s₀.heap.live) : v.ptr ≠ n.addr := by
  have hnd := (ha.holding.perm (heldBy_perm_erase hf)).nodup
  rw [List.append_assoc, List.map_append] at hnd
  intro he
  refine List.disjoint_of_nodup_append hnd (List.mem_map_of_mem (mem_held_of_mem hn)) ?_
  exact List.mem_map.mpr ⟨v, hv, he⟩

/-- The session after a close. -/
theorem Account.close {r : ℤ × System} (ha : Account g s₀ x) (hf : f ∈ x.opened)
    (h : sysClose fuel f.fd x.sys = some r) : Account g s₀ ⟨r.2, x.opened.erase f⟩ := by
  obtain ⟨k, ds, hclose, hh, hds⟩ := sysClose_spec ha hf (lt_max_of_lt_right (b := fuel) (Nat.lt_succ_self _))
  obtain rfl : r = _ := Option.some.inj ((sysClose_mono (Nat.le_max_left ..) h).symm.trans hclose)
  have hmax : FILE_MAX = 8 := rfl
  have hfd := (ha.files f hf).fd
  -- the descriptors that are left
  have hperm : (x.opened.map Held.fd).Perm (f.fd :: (x.opened.erase f).map Held.fd) :=
    (List.perm_cons_erase hf).map Held.fd
  have hnd := hperm.nodup_iff.mp ha.fds
  have hother : ∀ {v : Allocation}, v ∈ heldBy (x.opened.erase f) ++ s₀.heap.live →
      ds (.heap v.ptr) = x.sys.dentries (.heap v.ptr) :=
    fun hv => hds _ fun n hn he => ha.disjoint hf hn hv (Ptr.heap.inj he)
  constructor
  · exact hh
  · refine ⟨fun q hq => ?_, ha.keeps.inodes, fun q hq => ?_, ha.keeps.superBlocks, ha.keeps.dirlists⟩
    · cases q with
      | static n => trivial
      | heap a =>
        obtain ⟨v, hv, rfl⟩ := List.mem_map.mp hq
        exact hh.mem_live (List.mem_append_right _ hv)
    · refine Eq.trans ?_ (ha.keeps.dentries q hq)
      cases q with
      | static n => exact hds _ fun n _ he => (nomatch he)
      | heap a =>
        obtain ⟨v, hv, rfl⟩ := List.mem_map.mp hq
        exact hother (List.mem_append_right _ hv)
  · intro f' hf'
    obtain ⟨hfd', hfile, p, hp, hc⟩ := ha.files f' (List.mem_of_mem_erase hf')
    refine ⟨hfd', hfile, p, hp, hc.frame (fun v hv => ?_) (fun _ _ => rfl) rfl⟩
    exact hother (List.mem_append_left _ (mem_heldBy hf' hv))
  · exact (List.nodup_cons.mp hnd).2
  · exact fun f' hf' => ha.apart f' (List.mem_of_mem_erase hf')
  · intro j hj
    show (clearBit f.fd x.sys.filemap).getLsbD j = _
    rw [getLsbD_clearBit _ (by omega) hj, ha.filemap j hj]
    by_cases hjf : j = f.fd
    · subst hjf
      simp only [decide_true, Bool.not_true, Bool.false_and, ha.apart f hf, Bool.false_or]
      exact (decide_eq_false (List.nodup_cons.mp hnd).1).symm
    · have hiff : j ∈ x.opened.map Held.fd ↔ j ∈ (x.opened.erase f).map Held.fd := by
        rw [hperm.mem_iff, List.mem_cons]
        exact ⟨fun h => h.resolve_left hjf, .inr⟩
      simp only [hjf, hiff, decide_false, Bool.not_false, Bool.true_and]
  · exact ha.filetable

theorem step_account {a : Act} (ha : Account g s₀ x) (htree : Tree s₀) (hfits : a.Fits) (h : step x a = some y) :
    Account g s₀ y := by
  cases a with
  | «open» fuel pathname flags =>
    obtain ⟨⟨o, t⟩, ho, h⟩ := Option.bind_eq_some_iff.mp h
    cases o with
    | error e => cases h
    | ok fd =>
      obtain rfl := Option.some.inj h
      exact ha.open htree hfits ho
  | close fuel fd =>
    obtain ⟨f, hf, h⟩ := Option.bind_eq_some_iff.mp h
    obtain ⟨r, hr, rfl⟩ := Option.map_eq_some_iff.mp h
    have hfd : decide (f.fd = fd) = true := List.find?_some (p := fun f : Held => decide (f.fd = fd)) hf
    obtain rfl : f.fd = fd := of_decide_eq_true hfd
    exact ha.close (List.mem_of_find?_eq_some hf) hr

theorem run_account {as : List Act} {xs : List Lib.Tiling.Seg} (hi : HeapRun.Inv g s₀.heap xs) (htree : Tree s₀)
    (hfits : ∀ a ∈ as, a.Fits) (h : run step ⟨s₀, []⟩ as = some x) : Account g s₀ x := by
  have hstep : ∀ x a y, Account g s₀ x → a.Fits → step x a = some y → Account g s₀ y :=
    fun x a y ha hf h => step_account ha htree hf h
  exact run_invariant_of_trace hstep h (account_init hi) fun e he => hfits e.act (act_mem_of_mem_trace he)

end

/-! ## What a session guarantees -/

/-- The resources of a session that started in `s₀`. -/
structure Conserves (s₀ : System) (x : Session) : Prop where
  /-- The descriptors that are taken are those of the start and those of the open files. -/
  filemap : ∀ j < 32, x.sys.filemap.getLsbD j = (s₀.filemap.getLsbD j || decide (j ∈ x.opened.map Held.fd))
  /-- `sys_open` returns the least descriptor that is not taken. -/
  least : ∀ fuel pathname flags fd t, Fits pathname → openPath fuel pathname flags x.sys = some (.ok fd, t) →
    x.sys.filemap.getLsbD fd = false ∧ ∀ j < fd, x.sys.filemap.getLsbD j = true
  fds : (x.opened.map Held.fd).Nodup
  atMost : x.opened.length ≤ FILE_MAX
  kept : ∀ f ∈ x.opened, f.Kept x.sys
  /-- No two dentries or inodes of the open files share a block, nor with what was there. -/
  own : ((heldBy x.opened ++ s₀.heap.live).map Allocation.ptr).Nodup
  /-- What was there is there, and the files that were open keep their entries. -/
  others : Keeps s₀ x.sys ∧ ∀ j, s₀.filemap.getLsbD j = true → x.sys.filetable j = s₀.filetable j
  /-- The live blocks are those of the start and of the open files. -/
  live : x.sys.heap.live.Perm (heldBy x.opened ++ s₀.heap.live)
  closes : ∀ f ∈ x.opened, ∃ n, ∀ fuel ≥ n, ∃ t, sysClose fuel f.fd x.sys = some (0, t)
  restored : x.opened = [] → x.sys.heap.live.Perm s₀.heap.live ∧
    (∀ xs, BlockList s₀.heap xs ↔ BlockList x.sys.heap xs) ∧ x.sys.filemap = s₀.filemap

theorem Account.length_le {g : Region} {s₀ : System} {x : Session} (ha : Account g s₀ x) :
    x.opened.length ≤ FILE_MAX := by
  have hsub : x.opened.map Held.fd ⊆ List.range FILE_MAX := by
    intro fd hfd
    obtain ⟨f, hf, rfl⟩ := List.mem_map.mp hfd
    exact List.mem_range.mpr (ha.files f hf).fd
  have hle := (List.subperm_of_subset ha.fds hsub).length_le
  rwa [List.length_map, List.length_range] at hle

/-- **Opens and closes conserve resources** in every run in which no name fills `d_name`. -/
theorem runs_conserve (g : Region) (s₀ : System) (xs : List Lib.Tiling.Seg) (hi : HeapRun.Inv g s₀.heap xs)
    (htree : Tree s₀) (as : List Act) (hfits : ∀ a ∈ as, a.Fits) (x : Session)
    (h : run step ⟨s₀, []⟩ as = some x) : Conserves s₀ x := by
  have ha := run_account hi htree hfits h
  refine ⟨ha.filemap, ?_, ha.fds, ha.length_le, ha.files, ha.holding.nodup, ⟨ha.keeps, ha.filetable⟩, ha.holding.live,
    ?_, ?_⟩
  · intro fuel pathname flags fd t hf ho
    obtain ⟨inode, dentry, u, hn, hfile⟩ := openPath_ok ho
    have htree' := htree.keeps ha.keeps
    have hroot : Chained x.sys rootDentry [] := rfl
    obtain ⟨ns, -, hgrows, -, -⟩ := openNames_spec hf ha.holding htree' htree'.root hroot (fun _ hv => (nomatch hv)) hn
    obtain ⟨-, -, -, hfree, hlow, -⟩ := openFile_ok hfile
    rw [hgrows.filemap] at hfree hlow
    exact ⟨hfree, hlow⟩
  · intro f hf
    refine ⟨f.nodes.length + 1, fun fuel hle => ?_⟩
    obtain ⟨k, ds, hclose, -⟩ := sysClose_spec ha hf (show f.nodes.length < fuel by omega)
    exact ⟨_, hclose⟩
  · intro hnil
    have hh := ha.holding
    rw [hnil] at hh
    obtain ⟨hlive, hblocks⟩ := hh.restored
    refine ⟨hlive, hblocks, BitVec.eq_of_getLsbD_eq fun j hj => ?_⟩
    rw [ha.filemap j hj, hnil]
    simp

/-! ## A name that fills `d_name` -/

/-- 31 characters. -/
def dirName : CString := text "aaaaaaaaaaaaaaaaaaaaaaaaaaaaaaa"

/-- 32 characters. -/
def fileName : CString := text "bbbbbbbbbbbbbbbbbbbbbbbbbbbbbbbb"

/-- An image with a directory and a file in it: the root at the offset `0x20`, the directory
at `0x40` and the file at `0x70`. -/
def longBytes : List Byte :=
  (text "-rom1fs-").text ++ be32 0x400 ++ be32 0 ++ (text "rom").text ++ List.replicate 13 0 ++
    (be32 1 ++ be32 0x40 ++ be32 0 ++ be32 0 ++ (text ".").text ++ List.replicate 15 0) ++
    (be32 1 ++ be32 0x70 ++ be32 0 ++ be32 0 ++ dirName.text ++ List.replicate 1 0) ++
    (be32 2 ++ be32 0 ++ be32 5 ++ be32 0 ++ fileName.text ++ List.replicate 16 0)

/-- A heap of 512 bytes. -/
def longRegion : Region where
  start := 0x20000000
  size := 512#32
  aligned := HeapRun.smallRegion.aligned
  words := by decide
  atLeast := by decide
  atMost := by decide

/-- What `romfs_mount` allocates: the root inode, the entry of `/dev` and the super block. -/
def mounts : List Malloc.Act := [.malloc 2 sizeofInode, .malloc 3 44, .malloc 4 8]

/-- The heap after the mount. -/
def longHeap : Malloc.State :=
  (run Malloc.step (Malloc.init longRegion HeapRun.zeroed) mounts).getD (Malloc.init longRegion HeapRun.zeroed)

/-- The root of the image. -/
def longRoot : Ptr := .heap 0x200001D8

/-- The directories `/` and `/dev`, and the image mounted on `/dev/flash`. -/
def longSystem : System where
  heap := longHeap
  inodes p := if p = longRoot then ⟨sIfdir, 9000, 0, .romfs, none, 0, 0x20⟩
    else if p = rootInode then ⟨sIfdir, 1, 2, .tmpfs, some .tmpfs, 0, 0⟩
    else ⟨sIfdir, 2, 1, .tmpfs, some .tmpfs, 0, 1⟩
  dentries _ := ⟨0, rootInode, .tmpfs, rootDentry, []⟩
  superBlocks _ := ⟨flash, 0x400, longRoot⟩
  dirlists k := if k = 0 then [⟨.static 1, text "dev", by decide⟩]
    else if k = 1 then [⟨longRoot, text "flash", by decide⟩] else []
  rom addr := longBytes.getD (addr - flash).toNat 0
  ino := 0xbeef
  errno := none
  filemap := 0
  filetable _ := ⟨none, none, 0, 0⟩

/-- A path, with nothing behind its NUL. -/
def path (s : String) : Pathname := ⟨text s, text ""⟩

theorem alive_longRoot : Alive longHeap longRoot := by
  show 0x200001D8 ∈ longHeap.live.map Allocation.ptr
  decide +kernel

theorem tree_longSystem : Tree longSystem := by
  refine ⟨⟨trivial, fun _ => alive_longRoot⟩, fun k e he => ?_⟩
  have hcase : e.inode = .static 1 ∨ e.inode = longRoot := by
    change e ∈ (if k = 0 then _ else if k = 1 then _ else []) at he
    split at he
    · obtain rfl := List.mem_singleton.mp he
      exact .inl rfl
    · split at he
      · obtain rfl := List.mem_singleton.mp he
        exact .inr rfl
      · cases he
  refine ⟨?_, fun _ => alive_longRoot⟩
  rcases hcase with h | h <;> rw [h]
  · trivial
  · exact alive_longRoot

theorem inv_longHeap : ∃ xs, HeapRun.Inv longRegion longHeap xs := by
  have hsome : (run Malloc.step (Malloc.init longRegion HeapRun.zeroed) mounts).isSome = true := by decide +kernel
  obtain ⟨h, hrun⟩ := Option.isSome_iff_exists.mp hsome
  have hheap : longHeap = h := by rw [longHeap, hrun, Option.getD_some]
  rw [hheap]
  refine HeapRun.run_inv hrun ?_
  simp [mounts, HeapRun.Act.Modest, HeapRun.Modest, sizeofInode]

/-- A directory of the image and `/dev` are opened and closed. -/
def shortRun : List Act :=
  [.open 20 (path "/dev/flash/aaaaaaaaaaaaaaaaaaaaaaaaaaaaaaa") 0, .open 20 (path "/dev") O_DIRECTORY,
    .close 20 0, .close 20 1]

theorem shortRun_conserves :
    ∃ x, run step ⟨longSystem, []⟩ shortRun = some x ∧ x.opened = [] ∧ Conserves longSystem x := by
  have hrun : (run step ⟨longSystem, []⟩ shortRun).map Session.opened = some [] := by decide +kernel
  obtain ⟨x, hx, hopened⟩ := Option.map_eq_some_iff.mp hrun
  obtain ⟨xs, hi⟩ := inv_longHeap
  have hfits : ∀ a ∈ shortRun, a.Fits := by
    unfold shortRun
    simp only [List.forall_mem_cons]
    refine ⟨?_, ?_, trivial, trivial, fun _ h => (nomatch h)⟩
    · show Fits _
      decide +kernel
    · show Fits _
      decide +kernel
  exact ⟨x, hx, hopened, runs_conserve longRegion longSystem xs hi tree_longSystem shortRun hfits x hx⟩

/-- The path goes on behind the name of the directory without a slash, so that `path_head`
has room for 32 characters. -/
def longRun : List Act :=
  [.open 20 (path "/dev/flash/aaaaaaaaaaaaaaaaaaaaaaaaaaaaaaabbbbbbbbbbbbbbbbbbbbbbbbbbbbbbbb") 0, .close 20 0]

/-- The NUL behind the name of the file goes into the tag of the inode of the directory. When the
file is closed, the 52 bytes of that block are lost. -/
theorem long_name_loses_block :
    Tree longSystem ∧ (∃ xs, HeapRun.Inv longRegion longSystem.heap xs) ∧
      ∃ x, run step ⟨longSystem, []⟩ longRun = some x ∧ x.opened = [] ∧
        longSystem.heap.heap.freeLength 0x20000000 = 0x40000180 ∧
        x.sys.heap.heap.freeLength 0x20000000 = 0x4000014C ∧ ¬ Conserves longSystem x := by
  have hrun : (run step ⟨longSystem, []⟩ longRun).map (fun x =>
      (x.opened, x.sys.heap.heap.freeLength 0x20000000)) = some ([], 0x4000014C) := by decide +kernel
  obtain ⟨x, hx, he⟩ := Option.map_eq_some_iff.mp hrun
  obtain ⟨hopened, hlen⟩ := Prod.mk.inj he
  have hlen₀ : longSystem.heap.heap.freeLength 0x20000000 = 0x40000180 := by decide +kernel
  refine ⟨tree_longSystem, inv_longHeap, x, hx, hopened, hlen₀, hlen, fun hc => ?_⟩
  obtain ⟨xs, hi⟩ := inv_longHeap
  have hb₀ : BlockList longSystem.heap xs := HeapRestore.blockList_of_inv hi
  have hb := ((hc.restored hopened).2.1 xs).mp hb₀
  -- the free block is the first one of the list
  have hfirst : longSystem.heap.heap.links.next Malloc.blocks = .item 0x20000000 := by decide +kernel
  have hmem : .item 0x20000000 ∈ Blocks.nodes xs := by
    rw [hb₀.1.next_head] at hfirst
    cases xs with
    | nil => cases hfirst
    | cons y ys => exact hfirst ▸ List.mem_cons_self
  obtain ⟨y, hy, hyaddr⟩ := Blocks.mem_nodes.mp hmem
  have htag := (hb₀.1.tag y hy).trans (hb.1.tag y hy).symm
  rw [hyaddr, hlen₀, hlen] at htag
  exact absurd htag (by decide)

end PikoRT.Fs.OpenClose

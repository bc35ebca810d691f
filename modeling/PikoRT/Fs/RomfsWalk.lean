import PikoRT.Fs.RomfsLookup
import PikoRT.Lib.Chain

/-! # Lookups in any image

What is on the device need not be an image: the loop of `romfs_lookup` follows the links that it
finds there, below the size that it finds there, and does not count its steps. -/
namespace PikoRT.Fs.RomfsWalk
open PikoRT.Kernel.Bitops PikoRT.Libc PikoRT.Libc.Printf PikoRT.Fs.Romfs PikoRT.Fs.Vfs
open PikoRT.Libc.Malloc (Region)
open PikoRT.Libc.HeapRun (Inv)
open PikoRT.Fs.RomfsLookup (text be32 padded header flash farSystem malloc_returns)
open PikoRT.Lib.Chain (Reaches walk)

/-- The loop of `romfs_lookup`, with the offsets of the headers that it looks at. -/
def lookupSteps (rom : Rom) (rs : Word) (name : List Byte) : ℕ → Word → Option (List Word × Option Word)
  | 0, _ => none
  | fuel + 1, next =>
    if next < fullSize rom rs then
      let ri := romfsInode rs next
      if strEq rom (fileName ri) name then some ([next], some ri)
      else
        let next' := align (ntohl (nextFilehdr rom ri))
        if next' = 0 then some ([next], none)
        else (lookupSteps rom rs name fuel next').map fun r => (next :: r.1, r.2)
    else some ([], none)

/-- How many characters of the string `strcmp` reads. -/
def compared (rom : Rom) (str : Word) : List Byte → ℕ
  | [] => 1
  | c :: s => if rom str = c then compared rom (str + 1) s + 1 else 1

/-! ## What a lookup should find -/

/-- `n` bytes from the offset `h` on are on the device. -/
def Inside (sb : SuperBlock) (h : Word) (n : ℕ) : Prop := h.toNat + n ≤ sb.mtdSize.toNat

/-- The header at `h`, with as much of its name as is compared. -/
def HeaderInside (rom : Rom) (sb : SuperBlock) (name : List Byte) (h : Word) : Prop :=
  Inside sb h (16 + compared rom (fileName (romfsInode sb.rs h)) name)

def superBlock (dir : Ptr) (s : System) : SuperBlock := s.superBlocks (s.inodes dir).iSb

/-- The offset of the first header of a directory. -/
def first (dir : Ptr) (s : System) : Word :=
  align (ntohl (specInfo s.rom (romfsInode (superBlock dir s).rs (s.inodes dir).iPrivate)))

/-- The lookup comes back, and looks at headers on the device only. -/
def Right (dir : Ptr) (name : CString) (s : System) : Prop :=
  (∃ n r, ∀ fuel ≥ n, romfsLookup fuel dir name.text s = some r) ∧
    Inside (superBlock dir s) (s.inodes dir).iPrivate 16 ∧
    ∃ fuel hs r, lookupSteps s.rom (superBlock dir s).rs name.text fuel (first dir s) = some (hs, r) ∧
      ∀ h ∈ hs, HeaderInside s.rom (superBlock dir s) name.text h

/-! ## The condition -/

/-- The offset that the header at `h` links to. -/
def link (rom : Rom) (rs h : Word) : Word := align (ntohl (nextFilehdr rom (romfsInode rs h)))

/-- The size as it is stored is not above `h`, or the name is there, or no link. -/
def Stops (rom : Rom) (rs : Word) (name : List Byte) (h : Word) : Prop :=
  ¬ h < fullSize rom rs ∨ strEq rom (fileName (romfsInode rs h)) name = true ∨ link rom rs h = 0

instance (rom : Rom) (rs : Word) (name : List Byte) : DecidablePred (Stops rom rs name) :=
  fun _ => inferInstanceAs (Decidable (_ ∨ _ ∨ _))

/-- The `k`-th header of a directory. -/
def nth (dir : Ptr) (s : System) (k : ℕ) : Word := (link s.rom (superBlock dir s).rs)^[k] (first dir s)

/-- The headers before the `k`-th one have neither the name nor the end. -/
def Leads (dir : Ptr) (name : CString) (s : System) (k : ℕ) : Prop :=
  Reaches (link s.rom (superBlock dir s).rs) (Stops s.rom (superBlock dir s).rs name.text) (first dir s) k

structure Walkable (dir : Ptr) (name : CString) (s : System) : Prop where
  directory : (s.inodes dir).iPrivate.toNat + 16 ≤ (superBlock dir s).mtdSize.toNat
  acyclic : ∀ i j, i < j → Leads dir name s j → nth dir s i ≠ nth dir s j
  inside : ∀ k, Leads dir name s k → nth dir s k < fullSize s.rom (superBlock dir s).rs →
    HeaderInside s.rom (superBlock dir s) name.text (nth dir s k)

section

variable {rom : Rom} {rs next : Word} {name : List Byte} {fuel : ℕ}

theorem snd_lookupSteps (fuel : ℕ) (next : Word) :
    (lookupSteps rom rs name fuel next).map Prod.snd = lookupFrom rom rs name fuel next := by
  induction fuel generalizing next with
  | zero => rfl
  | succ fuel ih =>
    rw [lookupSteps, lookupFrom]
    dsimp only
    split
    · split
      · rfl
      · split
        · rfl
        · rw [← ih, Option.map_map]
          rfl
    · rfl

/-- The loop looks at the headers of the chain that are below the size. -/
theorem fst_lookupSteps (fuel : ℕ) (next : Word) :
    (lookupSteps rom rs name fuel next).map Prod.fst =
      (walk (link rom rs) (Stops rom rs name) fuel next).map (List.filter fun h => decide (h < fullSize rom rs)) := by
  induction fuel generalizing next with
  | zero => rfl
  | succ fuel ih =>
    rw [lookupSteps, walk]
    dsimp only
    by_cases hlt : next < fullSize rom rs
    · have hkeep : ∀ l, List.filter (fun h => decide (h < fullSize rom rs)) (next :: l) =
          next :: l.filter fun h => decide (h < fullSize rom rs) :=
          fun l => List.filter_cons_of_pos (by simpa using hlt)
      rw [if_pos hlt]
      by_cases heq : strEq rom (fileName (romfsInode rs next)) name = true
      · rw [if_pos heq, if_pos (.inr (.inl heq)), Option.map_some, Option.map_some, hkeep]
        rfl
      · rw [if_neg heq]
        by_cases hz : link rom rs next = 0
        · rw [if_pos (show Stops rom rs name next from .inr (.inr hz))]
          refine (congrArg _ (if_pos hz)).trans ?_
          rw [Option.map_some, Option.map_some, hkeep]
          rfl
        · have hgo : ¬ Stops rom rs name next := fun h => h.elim (fun h => h hlt) fun h => h.elim heq hz
          rw [if_neg hgo]
          refine (congrArg _ (if_neg hz)).trans ?_
          have hrest := ih (link rom rs next)
          rw [Option.map_map, Option.map_map]
          have hcons : (Prod.fst ∘ fun r : List Word × Option Word => (next :: r.1, r.2)) =
            (next :: ·) ∘ Prod.fst := rfl
          have hfilter : (List.filter (fun h => decide (h < fullSize rom rs)) ∘ (next :: ·)) =
              (next :: ·) ∘ List.filter fun h => decide (h < fullSize rom rs) := funext hkeep
          rw [hcons, hfilter, ← Option.map_map, ← Option.map_map]
          exact congrArg _ hrest
    · rw [if_neg hlt, if_pos (.inl hlt), Option.map_some, Option.map_some,
        List.filter_cons_of_neg (by simpa using hlt)]
      rfl

theorem lookupFrom_mono {r : Option Word} {n m : ℕ} (h : lookupFrom rom rs name n next = some r) (hle : n ≤ m) :
    lookupFrom rom rs name m next = some r := by
  induction n generalizing m next with
  | zero => cases h
  | succ n ih =>
    obtain ⟨m, rfl⟩ : ∃ k, m = k + 1 := ⟨m - 1, by omega⟩
    rw [lookupFrom] at h ⊢
    by_cases hlt : next < fullSize rom rs
    · rw [if_pos hlt] at h ⊢
      by_cases heq : strEq rom (fileName (romfsInode rs next)) name = true
      · rw [if_pos heq] at h ⊢
        exact h
      · rw [if_neg heq] at h ⊢
        by_cases hz : link rom rs next = 0
        · exact (if_pos hz).trans ((if_pos hz).symm.trans h)
        · exact (if_neg hz).trans (ih ((if_neg hz).symm.trans h) (Nat.le_of_succ_le_succ hle))
    · rw [if_neg hlt] at h ⊢
      exact h

theorem steps_return_iff :
    (∃ fuel r, lookupSteps rom rs name fuel next = some r) ↔ ∃ k, Stops rom rs name ((link rom rs)^[k] next) := by
  rw [← Lib.Chain.walk_returns_iff]
  have hiff : ∀ fuel, (∃ r, lookupSteps rom rs name fuel next = some r) ↔
      ∃ l, walk (link rom rs) (Stops rom rs name) fuel next = some l := fun fuel => by
    have hfst := congrArg Option.isSome (@fst_lookupSteps rom rs name fuel next)
    rw [Option.isSome_map, Option.isSome_map] at hfst
    rw [← Option.isSome_iff_exists, ← Option.isSome_iff_exists, hfst]
  exact exists_congr hiff

theorem mem_steps_iff {hs : List Word} {r : Option Word} {h : Word}
    (hr : lookupSteps rom rs name fuel next = some (hs, r)) :
    h ∈ hs ↔ h < fullSize rom rs ∧ ∃ k, Reaches (link rom rs) (Stops rom rs name) next k ∧
    h = (link rom rs)^[k] next := by
  have hfst := @fst_lookupSteps rom rs name fuel next
  rw [hr, Option.map_some] at hfst
  obtain ⟨l, hl, hfilter⟩ := Option.map_eq_some_iff.mp hfst.symm
  obtain rfl : l.filter (fun h => decide (h < fullSize rom rs)) = hs := hfilter
  rw [List.mem_filter, Lib.Chain.mem_walk_iff hl, and_comm, decide_eq_true_eq]

end

section

variable {g : Region} {s : System} {xs : List Lib.Tiling.Seg} {dir : Ptr} {name : CString}

/-- `alloc_inode` comes back. -/
theorem allocInode_returns (hi : Inv g s.heap xs) (ri : Word) (sb : ℕ) :
    ∃ q, ∀ fuel ≥ xs.length + 1, allocInode fuel ri sb s = some q := by
  obtain ⟨⟨p, heap⟩, hr⟩ := malloc_returns hi sizeofInode
  cases p with
  | none =>
    refine ⟨(none, s.setHeap sizeofInode (none, heap)), fun fuel hle => ?_⟩
    rw [allocInode, System.malloc, hr fuel hle]
    rfl
  | some addr =>
    refine ⟨(some (.heap addr), fillInode addr ri sb (s.setHeap sizeofInode (some addr, heap))), fun fuel hle => ?_⟩
    rw [allocInode, System.malloc, hr fuel hle]
    rfl

theorem romfsLookup_returns_iff (hi : Inv g s.heap xs) :
    (∃ n r, ∀ fuel ≥ n, romfsLookup fuel dir name.text s = some r) ↔
      ∃ fuel r, lookupFrom s.rom (superBlock dir s).rs name.text fuel (first dir s) = some r := by
  constructor
  · intro h
    obtain ⟨n, r, hr⟩ := h
    obtain ⟨q, hq, -⟩ := Option.bind_eq_some_iff.mp (hr n le_rfl)
    exact ⟨n, q, hq⟩
  · intro h
    obtain ⟨n, r, hr⟩ := h
    have hlookup : ∀ fuel ≥ n, lookup s.rom fuel (superBlock dir s).rs (s.inodes dir).iPrivate name.text = some r :=
      fun fuel hle => lookupFrom_mono hr hle
    cases r with
    | none =>
      refine ⟨n, (none, s), fun fuel hle => ?_⟩
      unfold romfsLookup
      exact Option.bind_eq_some_iff.mpr ⟨none, hlookup fuel hle, rfl⟩
    | some ri =>
      obtain ⟨q, hq⟩ := allocInode_returns hi ri (s.inodes dir).iSb
      refine ⟨max n (xs.length + 1), (q.1.map fun inode => (inode, .romfs), q.2), fun fuel hle => ?_⟩
      unfold romfsLookup
      refine Option.bind_eq_some_iff.mpr ⟨some ri, hlookup fuel (le_of_max_le_left hle), ?_⟩
      dsimp only
      rw [hq fuel (le_of_max_le_right hle), Option.map_some]

/-- The loop ends exactly when no header is linked to twice. -/
theorem steps_return_iff_acyclic :
    (∃ fuel r, lookupSteps s.rom (superBlock dir s).rs name.text fuel (first dir s) = some r) ↔
      ∀ i j, i < j → Leads dir name s j → nth dir s i ≠ nth dir s j :=
  steps_return_iff.trans Lib.Chain.ends_iff

theorem returns_iff_acyclic (hi : Inv g s.heap xs) :
    (∃ n r, ∀ fuel ≥ n, romfsLookup fuel dir name.text s = some r) ↔
      ∀ i j, i < j → Leads dir name s j → nth dir s i ≠ nth dir s j := by
  rw [romfsLookup_returns_iff hi, ← steps_return_iff_acyclic]
  refine exists_congr fun fuel => ?_
  rw [← Option.isSome_iff_exists, ← Option.isSome_iff_exists, ← snd_lookupSteps, Option.isSome_map]

/-- All headers that are looked at are on the device, if they are on the chain. -/
theorem inside_iff {fuel : ℕ} {hs : List Word} {r : Option Word}
    (hr : lookupSteps s.rom (superBlock dir s).rs name.text fuel (first dir s) = some (hs, r)) :
    (∀ h ∈ hs, HeaderInside s.rom (superBlock dir s) name.text h) ↔
      ∀ k, Leads dir name s k → nth dir s k < fullSize s.rom (superBlock dir s).rs →
        HeaderInside s.rom (superBlock dir s) name.text (nth dir s k) := by
  constructor
  · intro hall k hk hlt
    exact hall _ ((mem_steps_iff hr).mpr ⟨hlt, k, hk, rfl⟩)
  · intro hall h hh
    obtain ⟨hlt, k, hk, rfl⟩ := (mem_steps_iff hr).mp hh
    exact hall k hk hlt

end

/-- **A lookup in whatever is on the device** ends on headers of the device exactly when the links
from the directory do not come back to a header before the name or the end, and each header on
the way is on the device. -/
theorem lookup_right_iff {g : Region} {s : System} {xs : List Lib.Tiling.Seg} (hi : Inv g s.heap xs) (dir : Ptr)
    (name : CString) : Right dir name s ↔ Walkable dir name s := by
  constructor
  · intro h
    obtain ⟨hret, hdir, fuel, hs, r, hr, hall⟩ := h
    exact ⟨hdir, (returns_iff_acyclic hi).mp hret, (inside_iff hr).mp hall⟩
  · intro h
    obtain ⟨hdir, hacyclic, hinside⟩ := h
    obtain ⟨fuel, r, hr⟩ := steps_return_iff_acyclic.mpr hacyclic
    exact ⟨(returns_iff_acyclic hi).mpr hacyclic, hdir, fuel, r.1, r.2, hr, (inside_iff hr).mpr hinside⟩

/-! ## A header that links to itself -/

/-- The directory `.` at the offset `0x20`, whose next header is at `0x20`. -/
def cycleBytes : List Byte :=
  (text "-rom1fs-").text ++ be32 0x10000 ++ be32 0 ++ padded (text "rom") ++
    header 0x21 0x20 0 (text ".")

def cycleSystem : System :=
  { farSystem with rom := fun addr => cycleBytes.getD (addr - flash).toNat 0 }

/-- The directory itself is found. -/
theorem lookup_right_iff_cycle : Right (.static 3) (text ".") cycleSystem := by
  have hstops :
      Stops cycleSystem.rom (superBlock (.static 3) cycleSystem).rs (text ".").text
      (first (.static 3) cycleSystem) := by
    decide +kernel
  have hfirst : ∀ k, Leads (.static 3) (text ".") cycleSystem k → k = 0 := by
    intro k hk
    by_contra hne
    exact hk 0 (Nat.pos_of_ne_zero hne) hstops
  refine (lookup_right_iff (HeapRun.inv_init HeapRun.smallRegion HeapRun.zeroed) (.static 3) (text ".")).mpr
    ⟨?_, ?_, ?_⟩
  · decide +kernel
  · intro i j hij hj
    rw [hfirst j hj] at hij
    cases hij
  · intro k hk _
    rw [hfirst k hk]
    show _ ≤ _
    decide +kernel

/-- Another name is looked for without an end. -/
theorem cyclic_lookup_spins : ¬ Right (.static 3) (text "far") cycleSystem := by
  intro h
  have hi : Inv HeapRun.smallRegion cycleSystem.heap _ := HeapRun.inv_init HeapRun.smallRegion HeapRun.zeroed
  have hgo : ¬ Stops cycleSystem.rom flash (text "far").text 0x20 := by decide +kernel
  have hfirst : first (.static 3) cycleSystem = 0x20 := by decide +kernel
  have hlink : link cycleSystem.rom flash 0x20 = 0x20 := by decide +kernel
  have hleads : Leads (.static 3) (text "far") cycleSystem 1 := by
    intro i hi
    obtain rfl := Nat.lt_one_iff.mp hi
    rw [hfirst]
    exact hgo
  refine (returns_iff_acyclic hi).mp h.1 0 1 (by decide) hleads ?_
  show first _ _ = link _ _ (first _ _)
  rw [hfirst]
  exact hlink.symm

end PikoRT.Fs.RomfsWalk

import PikoRT.Fs.OpenReturns
import PikoRT.Kernel.Printk

/-! # `cat` (`user/cat.c`)

The command opens one file after the other, reads it byte by byte and prints every byte with `printk`, as
a string of its own: a NUL prints nothing. -/
namespace PikoRT.User.Cat
open PikoRT.Lib.Run PikoRT.Lib.Cursors PikoRT.Kernel.Bitops PikoRT.Libc PikoRT.Libc.Printf
open PikoRT.Kernel.Printk (Console Linked crlf crlf_append literal print_pieces)
open PikoRT.Libc.PrintfPieces (Piece rendered)
open PikoRT.Fs PikoRT.Fs.Romfs PikoRT.Fs.Vfs PikoRT.Fs.Open PikoRT.Fs.Files PikoRT.Fs.Drivers PikoRT.Fs.Dentries
open PikoRT.Fs.OpenClose (Held Account account_init sysClose_spec sysClose_mono note path)
open PikoRT.Fs.OpenWalk (openNames_rom)
open PikoRT.Fs.RomfsLookup (flash text)
open PikoRT.Fs.RomfsRead (chain_mem romfsRead_spec)
open PikoRT.Fs.Serving PikoRT.Fs.MountedImage PikoRT.Fs.OpenReturns
open PikoRT.Fs.Transfers (transfer sysCall sysCall_eq)
open PikoRT.Libc.Malloc (Region)
open PikoRT.Libc.HeapLedger (Holding)

/-- An element of `argv`. -/
structure Argument where
  addr : Word
  path : Pathname

structure Machine where
  sys : System
  console : Console

/-- What the command is linked with, and where its buffer is. -/
structure Setting where
  dev : Devices
  linked : Linked
  buf : Word

/-- The inner loop; `last` is in the buffer. -/
def readLoop (e : Setting) (fuel : ℕ) (fd : ℤ) : ℕ → Byte → Machine → Option (Byte × Machine)
  | 0, _, _ => none
  | n + 1, last, m =>
    (fdToFile fd m.sys).bind fun file => file.fOp.bind fun op =>
      (transfer e.dev fuel e.buf op file 1 m.sys .read).bind fun v =>
        (sysCall e.dev fuel e.buf fd 1 m.sys .read).bind fun r =>
          if r.1 = 0 then some (last, ⟨r.2, m.console⟩)
          else
            let c := v.2.headD last
            (e.linked.print fuel "%s" [⟨e.buf, ofBytes [c]⟩] m.console).bind fun k =>
              readLoop e fuel fd n c ⟨r.2, k⟩

/-- One round of the outer loop, with `retval` and the byte in the buffer. -/
def catFile (e : Setting) (fuel : ℕ) (first a : Argument) (y : ℤ × Byte × Machine) : Option (ℤ × Byte × Machine) :=
  (sysOpen fuel a.path 0 y.2.2.sys).bind fun r =>
    (if r.1 < 0 then
      (e.linked.print fuel "cat: %s: No such file or directory\n" [⟨first.addr, first.path.toCString⟩]
        y.2.2.console).map
        fun k => (1, k)
    else some (y.1, y.2.2.console)).bind fun q =>
      (readLoop e fuel r.1 fuel y.2.1 ⟨r.2, q.2⟩).bind fun p =>
        (sysClose fuel r.1 p.2.sys).map fun t => (q.1, p.1, ⟨t.2, p.2.console⟩)

def catLoop (e : Setting) (fuel : ℕ) (first : Argument) : List Argument → ℤ × Byte × Machine →
    Option (ℤ × Byte × Machine)
  | [], y => some y
  | a :: as, y => (catFile e fuel first a y).bind (catLoop e fuel first as)

/-- `cat`, with `argv[0]` and the arguments behind it. -/
def cat (e : Setting) (fuel : ℕ) (name : Argument) (args : List Argument) (m : Machine) : Option (ℤ × Machine) :=
  (catLoop e fuel (args.headD name) args (0, 0, m)).map fun y => (y.1, y.2.2)

/-! ## What is as before -/

/-- The two states have the same blocks on the heap, descriptors, and inodes and dentries in use. -/
structure Restored (g : Region) (s t : System) : Prop where
  holding : Holding g s.heap t.heap []
  keeps : Keeps s t
  filemap : t.filemap = s.filemap
  filetable : ∀ j, s.filemap.getLsbD j = true → t.filetable j = s.filetable j
  rom : t.rom = s.rom

section

variable {g : Region} {s t u : System} {xs : List Lib.Tiling.Seg} {mount : List (List Byte)} {rs : Word} {l : Layout}
  {e : Setting} {fuel n p : ℕ} {f : Held} {bs : List Byte}

theorem Restored.refl (hi : HeapRun.Inv g s.heap xs) : Restored g s s :=
  ⟨.refl hi, .refl s, rfl, fun _ _ => rfl, rfl⟩

theorem Restored.trans (h : Restored g s t) (h' : Restored g t u) : Restored g s u where
  holding := h.holding.trans h'.holding
  keeps := h.keeps.trans h'.keeps
  filemap := h'.filemap.trans h.filemap
  filetable j hj := (h'.filetable j (h.filemap ▸ hj)).trans (h.filetable j hj)
  rom := h'.rom.trans h.rom

/-- When everything is closed. -/
theorem restored_of_account (ha : Account g s ⟨t, []⟩) (hrom : t.rom = s.rom) : Restored g s t where
  holding := ha.holding
  keeps := ha.keeps
  filemap := BitVec.eq_of_getLsbD_eq fun j hj => by simpa using ha.filemap j hj
  filetable := ha.filetable
  rom := hrom

/-- What could be opened before can be opened again. -/
theorem Restored.ready {rom : Rom} {pathname : Pathname} (h : Restored g s t)
    (hr : Ready rom mount rs l s.heap pathname bs) :
    Ready rom mount rs l t.heap pathname bs := by
  obtain ⟨rest, x, hnames, hne, hfile, hbs, hseen, fuel, q, hq⟩ := hr.file
  obtain ⟨xs₀, xs, hi₀, hi, hw⟩ := h.holding.blocks
  have hsame : xs₀ = xs := by
    refine hi₀.layout.unique hi.layout fun z => ?_
    rw [hw z]
    simp
  subst hsame
  obtain ⟨n, v, hv⟩ := HeapRestore.mallocs_again hi₀ hi (fun _ hsize => modest_requests hsize) hq
  exact ⟨hr.fits, rest, x, hnames, hne, hfile, hbs, hseen, n, _, hv⟩

/-! ## One file -/

theorem print_byte (x : Linked) (buf : Word) (c : Byte) (hf : 256 ≤ fuel) (k : Console) :
    ∃ k', x.print fuel "%s" [⟨buf, ofBytes [c]⟩] k = some k' ∧
    k'.sent = k.sent ++ crlf ([c].filter fun c => decide (c ≠ 0)) := by
  have hr : rendered [.str ⟨buf, ofBytes [c]⟩] = [c].filter fun c => decide (c ≠ 0) := by
    by_cases hc : c = 0
    · subst hc
      rfl
    · have hc : ¬ c = 0#8 := hc
      simp [rendered, Piece.render, ofBytes, hc]
  obtain ⟨k', hk, hsent⟩ := @print_pieces [.str ⟨buf, ofBytes [c]⟩] fuel "%s" _ x rfl rfl ⟨trivial, trivial⟩
    (by rw [hr]; exact Nat.lt_of_le_of_lt (List.length_filter_le _ _) (by norm_num)) hf k
  exact ⟨k', hk, by rw [hsent, hr]⟩

/-- A read of a byte through a descriptor that shows a file. -/
theorem reads_byte (hs : Shows rs l s f bs p) (hp : p ≤ bs.length) (hfuel : l.size.toNat ≤ fuel) :
    ∃ op v, f.file.fOp = some op ∧ transfer e.dev fuel e.buf op f.file 1 s .read = some v ∧ v.2 = (bs.drop p).take 1 ∧
      v.1 = BitVec.ofNat 32 v.2.length ∧
      Shows rs l (setFile f.fd { f.file with fPos := f.file.fPos + v.1 } s)
      { f with file := { f.file with fPos := f.file.fPos + v.1 } }
        bs (p + v.2.length) := by
  obtain ⟨h, inode, ho, hfile, hbs⟩ := hs.opened
  obtain ⟨d, hd, hmem⟩ := hfile.entry
  have hname := (chain_mem (hfile.wellFormed.chain hd) hmem).1
  obtain ⟨v, hv, -⟩ := romfsRead_spec ho hfile (show (l.name h).length < fuel by omega) 1
  have hread : transfer e.dev fuel 0 .romfs f.file 1 s .read = some v := by
    rw [transfer, if_neg (by decide)]
    exact hv
  obtain ⟨hbytes, hlen, hshows⟩ := hs.transfer ho.op hread
  have hlt := hfile.length_contents_lt
  rw [hbs] at hlt
  have hreach : inReach p (1 : Word).toNat = true := decide_eq_true (by
    have hone : (1 : Word).toNat = 1 := rfl
    omega)
  rw [piece, if_pos hreach] at hbytes
  exact ⟨.romfs, v, ho.op, hread, hbytes, by rw [← hlen, BitVec.ofNat_toNat, BitVec.setWidth_eq], hshows⟩

theorem readLoop_spec (hs : Shows rs l s f bs p) (hp : p ≤ bs.length) (hsize : l.size.toNat ≤ fuel) (hf : 256 ≤ fuel)
    (hn : bs.length - p < n) (last : Byte) (k : Console) :
    ∃ last' k', readLoop e fuel f.fd n last ⟨s, k⟩ =
        some (last', ⟨setFile f.fd { f.file with fPos := BitVec.ofNat 32 bs.length } s, k'⟩) ∧
      k'.sent = k.sent ++ crlf ((bs.drop p).filter fun c => decide (c ≠ 0)) := by
  induction n generalizing s f p last k with
  | zero => omega
  | succ n ih =>
    obtain ⟨op, v, hop, hv, hbytes, hcount, hshows⟩ := reads_byte (e := e) hs hp hsize
    obtain ⟨h, inode, ho, -, -⟩ := hs.opened
    have hcall : sysCall e.dev fuel e.buf f.fd 1 s .read = _ := sysCall_eq ho.toFile hop .read
    rw [hv, Option.map_some] at hcall
    simp only [readLoop, ho.toFile, Option.bind_some, hop, hv, hcall]
    rcases Nat.eq_or_lt_of_le hp with rfl | hlt
    · -- the end of the file
      rw [List.drop_length, List.take_nil] at hbytes
      rw [hbytes] at hcount
      rw [hcount, if_pos (show BitVec.ofNat 32 ([] : List Byte).length = 0 from rfl), List.drop_length]
      refine ⟨last, k, ?_, (List.append_nil _).symm⟩
      have hpos : f.file.fPos + BitVec.ofNat 32 ([] : List Byte).length = BitVec.ofNat 32 bs.length := by
        rw [← hs.position, BitVec.ofNat_toNat, BitVec.setWidth_eq]
        exact BitVec.add_zero _
      rw [hpos]
    · rw [List.drop_eq_getElem_cons hlt] at hbytes ⊢
      rw [List.take_succ_cons, List.take_zero] at hbytes
      rw [hbytes, List.length_singleton] at hcount hshows
      rw [hcount] at hshows ⊢
      rw [if_neg (by decide), hbytes, List.headD_cons]
      obtain ⟨k₁, hk₁, hsent₁⟩ := print_byte e.linked e.buf bs[p] hf k
      obtain ⟨last', k', hloop, hsent⟩ := ih hshows hlt (by omega) bs[p] k₁
      refine ⟨last', k', ?_, ?_⟩
      · rw [hk₁, Option.bind_some]
        -- the second store to the descriptor is the one that stays
        rw [← hop]
        refine hloop.trans ?_
        rw [setFile, setFile, Function.update_idem]
        rfl
      · rw [hsent, hsent₁, List.append_assoc, ← crlf_append, ← List.filter_append]
        rfl

/-- **A file that is there is printed**, and closed again. -/
theorem catFile_spec (e : Setting) (a : Argument) (hi : HeapRun.Inv g s.heap xs) (hm : MountedAt mount rs l s)
    (hready : Ready s.rom mount rs l s.heap a.path bs) (hfree : ∃ fd < FILE_MAX, s.filemap.getLsbD fd = false) :
    ∃ n t, Restored g s t ∧ ∀ fuel ≥ n, ∀ first v last k, ∃ last' k',
      catFile e fuel first a (v, last, ⟨s, k⟩) = some (v, last', ⟨t, k'⟩) ∧
      k'.sent = k.sent ++ crlf (bs.filter fun c => decide (c ≠ 0)) := by
  obtain ⟨n, fd, t, hopen, hshows⟩ := openPath_returns hi hm hready hfree
  have ha₀ := account_init hi
  obtain ⟨inode, dentry, u, -, -, hnames, -, -, -, -, hrom, -⟩ :=
    openPath_opened ha₀ hm.tree hready.fits (hopen n le_rfl)
  have ha := ha₀.open hm.tree hready.fits (hopen n le_rfl)
  set f := note a.path fd t
  let file : File := { f.file with fPos := BitVec.ofNat 32 bs.length }
  have ha' : Account g s ⟨setFile f.fd file t, [{ f with file := file }]⟩ := by
    have hmoved : Account g s ⟨setFile f.fd file t, [f].map (moved f.fd file)⟩ :=
      account_moved ha List.mem_cons_self rfl
    rw [List.map_singleton, moved, if_pos rfl] at hmoved
    exact hmoved
  obtain ⟨h, ds, hclose, -⟩ := sysClose_spec ha' List.mem_cons_self (Nat.lt_succ_self f.nodes.length)
  have ha'' := ha'.close List.mem_cons_self hclose
  rw [List.erase_cons_head] at ha''
  refine ⟨max (max n 256) (max (max l.size.toNat (bs.length + 1)) (f.nodes.length + 1)), _,
    restored_of_account ha'' (hrom.trans (openNames_rom hnames)), fun fuel hle first v last k => ?_⟩
  obtain ⟨last', k', hloop, hsent⟩ := readLoop_spec (e := e) (n := fuel) hshows (Nat.zero_le _)
    (show l.size.toNat ≤ fuel by omega) (by omega) (by omega) last k
  refine ⟨last', k', ?_, hsent⟩
  rw [catFile, sysOpen, hopen fuel (by omega), Option.map_some, Option.bind_some]
  dsimp only
  rw [if_neg (not_lt.mpr (Int.natCast_nonneg fd)), Option.bind_some]
  dsimp only
  rw [show readLoop e fuel fd fuel last ⟨t, k⟩ = _ from hloop, Option.bind_some]
  dsimp only
  have hclose' := sysClose_mono (show f.nodes.length + 1 ≤ fuel by omega) hclose
  exact Option.map_eq_some_iff.mpr ⟨_, hclose', rfl⟩

/-! ## All of them -/

theorem catLoop_spec (e : Setting) {argv : List Argument} {contents : List (List Byte)} (hi : HeapRun.Inv g s.heap xs)
    (hm : MountedAt mount rs l s)
    (hready : List.Forall₂ (fun a bs => Ready s.rom mount rs l s.heap a.path bs) argv contents)
    (hfree : ∃ fd < FILE_MAX, s.filemap.getLsbD fd = false) :
    ∃ n t, Restored g s t ∧ ∀ fuel ≥ n, ∀ first v last k, ∃ last' k',
      catLoop e fuel first argv (v, last, ⟨s, k⟩) = some (v, last', ⟨t, k'⟩) ∧
      k'.sent = k.sent ++ crlf (contents.flatten.filter fun c => decide (c ≠ 0)) := by
  induction argv generalizing contents s xs with
  | nil =>
    obtain rfl := List.forall₂_nil_left_iff.mp hready
    exact ⟨0, s, .refl hi, fun fuel _ first v last k => ⟨last, k, rfl, (List.append_nil _).symm⟩⟩
  | cons a argv ih =>
    obtain ⟨bs, contents, ha, hrest, rfl⟩ := List.forall₂_cons_left_iff.mp hready
    obtain ⟨n, t, ht, hfile⟩ := catFile_spec e a hi hm ha hfree
    obtain ⟨-, ys, -, hi', -⟩ := ht.holding.blocks
    have hrest' : List.Forall₂ (fun a bs => Ready t.rom mount rs l t.heap a.path bs) argv contents :=
      hrest.imp fun a bs hr => ht.rom ▸ ht.ready hr
    obtain ⟨m, u, hu, hloop⟩ := ih hi' (hm.keeps ht.keeps ht.rom) hrest' (ht.filemap ▸ hfree)
    refine ⟨max n m, u, ht.trans hu, fun fuel hle first v last k => ?_⟩
    obtain ⟨last₁, k₁, hk₁, hsent₁⟩ := hfile fuel (le_of_max_le_left hle) first v last k
    obtain ⟨last', k', hk', hsent'⟩ := hloop fuel (le_of_max_le_right hle) first v last₁ k₁
    refine ⟨last', k', ?_, ?_⟩
    · rw [catLoop, hk₁, Option.bind_some, hk']
    · rw [hsent', hsent₁, List.append_assoc, ← crlf_append, ← List.filter_append, List.flatten_cons]

end

/-- **`cat` prints the files of a mounted image**, in the order of its arguments and without the NULs in them,
whatever has been opened, read and closed since the mount. It leaves the heap, the descriptors and the files in use
as they were. -/
theorem cat_prints_files (e : Setting) {g : Region} {xs : List Lib.Tiling.Seg} {s : System} {mtd : Word → MtdInfo}
    {source dest : Pathname} {devPath : List (List Byte)} {rs : Word} {l : Layout} (hi : HeapRun.Inv g s.heap xs)
    (hm : Mountable mtd source dest devPath rs l s) (ino : Word) :
    ∃ n root t, (∀ fuel ≥ n, Mount.romfsMount mtd ino fuel source dest s = some (0, some root, t)) ∧
      ∀ (as : List Serving.Act) (x : Serving.Session), (∀ a ∈ as, a.Fits) →
      run (step e.dev) ⟨⟨t, []⟩, []⟩ as = some x →
        ∀ (args : List Argument) (contents : List (List Byte)),
          List.Forall₂
          (fun a bs => Ready s.rom (devPath ++ [(Mount.basename dest.toCString).text]) rs l x.sys.heap a.path bs)
            args contents →
          (∃ fd < FILE_MAX, x.sys.filemap.getLsbD fd = false) →
          ∃ n u, Restored g x.sys u ∧ ∀ fuel ≥ n, ∀ name k, ∃ k',
            cat e fuel name args ⟨x.sys, k⟩ = some (0, ⟨u, k'⟩) ∧
            k'.sent = k.sent ++ crlf (contents.flatten.filter fun c => decide (c ≠ 0)) := by
  obtain ⟨n, root, t, hmount, hat, ⟨ys, hinv⟩, -, hrom⟩ := mountedAt_of_mount hm hi ino
  refine ⟨n, root, t, hmount, fun as x hfits hr args contents hready hfree => ?_⟩
  have hx := run_serves (serves_init hinv hat) hfits hr
  obtain ⟨s₀, ha, hmounted, hrom₀⟩ := hx.account
  obtain ⟨-, zs, -, hinv', -⟩ := ha.holding.blocks
  have hmounted' := hmounted.keeps ha.keeps (hx.rom.trans hrom₀.symm)
  rw [← hrom, ← hx.rom] at hready
  obtain ⟨m, u, hu, hloop⟩ := catLoop_spec e hinv' hmounted' hready hfree
  refine ⟨m, u, hu, fun fuel hle name k => ?_⟩
  obtain ⟨last, k', hk, hsent⟩ := hloop fuel hle (args.headD name) 0 0 k
  refine ⟨k', ?_, hsent⟩
  rw [cat, hk]
  rfl

/-- The file of the image, in memory behind another string. -/
def helloArgument : Argument := ⟨0x20003000, path "/dev/flash/a"⟩

def setting : Setting := ⟨Transfers.smallDevices, ⟨fun _ _ => 0, fun _ => 0, fun _ _ => ⟨0, ofBytes []⟩⟩, 0x20003f00⟩

/-- Where the image is mounted. -/
def flashMount : List (List Byte) := [(text "dev").text] ++ [(Mount.basename (path "/dev/flash").toCString).text]

theorem seen_hello : AllSeen helloLayout helloLayout.root ([(literal "a").text].map ofBytes) := by
  have hfind : helloLayout.find helloLayout.root (ofBytes (literal "a").text).text = some 0x40 := by decide +kernel
  have hbefore : ((helloLayout.entries helloLayout.root).takeWhile fun h =>
      decide (helloLayout.name h ≠ (ofBytes (literal "a").text).text)) = [0x20] := by decide +kernel
  rw [List.map_cons, List.map_nil, AllSeen, Romfs.Seen, hfind, hbefore]
  refine ⟨⟨fun h hh => ?_, fun h hh => ?_⟩, fun _ _ => trivial⟩
  · obtain rfl := List.mem_singleton.mp hh
    decide
  · obtain rfl := Option.some.inj hh
    decide

theorem cat_prints_files_twice : ∃ x u n k', helloSession = some x ∧
    cat setting n helloArgument [helloArgument, helloArgument] ⟨x.sys, ⟨fun _ => 0, 0, []⟩⟩ = some (0, ⟨u, k'⟩) ∧
    k'.sent = (literal "hellohello").text ∧ u.filemap = x.sys.filemap := by
  obtain ⟨n, root, t, hmount, hcat⟩ :=
    cat_prints_files setting (HeapRun.inv_init helloRegion HeapRun.zeroed) mountable_hello 9000
  obtain ⟨x, hx⟩ := Option.isSome_iff_exists.mp (by decide +kernel : helloSession.isSome = true)
  obtain ⟨r, hr, hrun⟩ := Option.bind_eq_some_iff.mp hx
  obtain rfl :=
    Option.some.inj ((romfsMount_mono (Nat.le_max_left 12 n) hr).symm.trans (hmount _ (Nat.le_max_right 12 n)))
  have hgrants : ∃ q, Malloc.mallocs 12 (requests flashMount [(literal "a").text]) x.sys.heap = some q := by
    have h : (helloSession.bind fun x =>
        Malloc.mallocs 12 (requests flashMount [(literal "a").text]) x.sys.heap).isSome = true := by decide +kernel
    rw [hx, Option.bind_some] at h
    exact Option.isSome_iff_exists.mp h
  have hready :
    Ready helloSystem.rom flashMount flash helloLayout x.sys.heap helloArgument.path (literal "hello").text :=
    ⟨by unfold OpenClose.Fits; decide +kernel, [(literal "a").text], 0x40, by decide +kernel,
      List.cons_ne_nil _ _, by decide +kernel,
      by decide +kernel, seen_hello, 12, hgrants⟩
  have hfree : ∃ fd < FILE_MAX, x.sys.filemap.getLsbD fd = false := by
    have h : helloSession.map (fun x => x.sys.filemap.getLsbD 0) = some false := by decide +kernel
    rw [hx] at h
    exact ⟨0, by decide, Option.some.inj h⟩
  obtain ⟨m, u, hu, hprints⟩ := hcat helloRun x fits_helloRun hrun [helloArgument, helloArgument]
    [(literal "hello").text, (literal "hello").text] (.cons hready (.cons hready .nil)) hfree
  obtain ⟨k', hk, hsent⟩ := hprints m le_rfl helloArgument ⟨fun _ => 0, 0, []⟩
  exact ⟨x, u, m, k', hx, hk, hsent.trans (by decide +kernel), hu.filemap⟩

end PikoRT.User.Cat

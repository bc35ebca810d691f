import PikoRT.Arch.V7m
import PikoRT.Kernel.Printk
import PikoRT.Lib.Fields

/-! # Fault reports (`arch/v7m-faults.c`, `kernel/faults.c`)

A fault in a thread comes to `fault_handler` of `arch/v7m-entry.S`, which saves the registers
that the hardware has not stacked and goes to the handler in C. That prints what it finds in
the two frames, as labels with words in hexadecimal, and halts. -/
namespace PikoRT.Arch.Faults
open PikoRT.Kernel.Bitops PikoRT.Lib.Fields PikoRT.Lib.Numerals PikoRT.Lib.Words PikoRT.Arch.V7m
open PikoRT.Kernel.Printk PikoRT.Libc.PrintfPieces
open PikoRT.Libc.Printf (Byte ch CString Arg VaList)
open PikoRT.Libc.Itoa (charOf digitOf mapM_digitOf)

/-! ## The handlers -/

def faultEnter (x : Linked) (fuel : ℕ) (s : String) (k : Console) : Option Console :=
  (x.print fuel "\n-------------------------------------------------------------\n" [] k).bind fun k =>
    x.print fuel " #%s\n\n" [x.pointer s] k

/-- `__platform_halt` does not come back. -/
def faultExit (x : Linked) (fuel : ℕ) (k : Console) : Option Console :=
  x.print fuel "-------------------------------------------------------------\n" [] k

def dumpFrame (x : Linked) (fuel : ℕ) (m : Mem) (noscratch scratch excReturn : Word) (k : Console) : Option Console :=
  let regs := ThreadContextRegs.load m scratch
  let r4R12 (i : ℕ) : Arg := arg (m (noscratch + BitVec.ofNat 32 (4 * i)))
  (x.print fuel " r0: %08x    r1: %08x    r2: %08x    r3: %08x\n"
    [arg regs.r0, arg regs.r1, arg regs.r2, arg regs.r3] k).bind
    fun k =>
  (x.print fuel " r4: %08x    r5: %08x    r6: %08x    r7: %08x\n" [r4R12 0, r4R12 1, r4R12 2, r4R12 3] k).bind fun k =>
  (x.print fuel " r8: %08x    r9: %08x   r10: %08x   r11: %08x\n" [r4R12 4, r4R12 5, r4R12 6, r4R12 7] k).bind fun k =>
  (x.print fuel "r12: %08x    sp: %08x    lr: %08x    pc: %08x\n"
    [arg regs.r12, arg scratch, arg regs.lr, arg regs.retAddr] k).bind
    fun k =>
  x.print fuel "\nEXC_RETURN: %08x\n" [arg excReturn] k

inductive Fault where
  | hardfault
  | memmanage
  | busfault
  | usagefault
  deriving DecidableEq

def Fault.name : Fault → String
  | .hardfault => "HardFault"
  | .memmanage => "MemManage"
  | .busfault => "BusFault"
  | .usagefault => "UsageFault"

def UFSR_DIVBYZERO : Word := 1 <<< 9
def UFSR_UNALIGNED : Word := 1 <<< 8
def UFSR_NOCP : Word := 1 <<< 3
def UFSR_INVPC : Word := 1 <<< 2
def UFSR_INVSTATE : Word := 1 <<< 1
def UFSR_UNDEFINSTR : Word := 1

def causeOf (ufsr : Word) : Option String :=
  if ufsr &&& UFSR_DIVBYZERO ≠ 0 then some "DIVBYZERO"
  else if ufsr &&& UFSR_UNALIGNED ≠ 0 then some "UNALIGNED"
  else if ufsr &&& UFSR_NOCP ≠ 0 then some "NOCP"
  else if ufsr &&& UFSR_INVPC ≠ 0 then some "INVPC"
  else if ufsr &&& UFSR_INVSTATE ≠ 0 then some "INVSTATE"
  else if ufsr &&& UFSR_UNDEFINSTR ≠ 0 then some "UNDEFINSTR"
  else none

/-- What `usagefault` prints behind the frame. -/
def printUfsr (x : Linked) (fuel : ℕ) (ufsr : Word) (k : Console) : Option Console :=
  match causeOf ufsr with
  | some cause => x.print fuel "      ufsr: %08x  <%s>\n" [arg ufsr, x.pointer cause] k
  | none => x.print fuel "      ufsr: %08x\n" [arg ufsr] k

/-- The handlers, with the word at `0xe000ed28`. -/
def handler (x : Linked) (fuel : ℕ) (cfsr : Word) (f : Fault) (m : Mem) (noscratch scratch excReturn : Word)
    (k : Console) :
    Option Console :=
  (faultEnter x fuel f.name k).bind fun k =>
  (dumpFrame x fuel m noscratch scratch excReturn k).bind fun k =>
  (if f = .usagefault then printUfsr x fuel (cfsr >>> 16) k else some k).bind fun k =>
  faultExit x fuel k

/-- The macro `fault_handler`, up to its branch. -/
def faultHandler (s : Cpu) : Cpu :=
  let s := s.push [.r4, .r5, .r6, .r7, .r8, .r9, .r10, .r11]
  let s := s.set .r0 s.sp
  let s := s.set .r2 (s.r .lr)
  s.set .r1 s.psp

/-- A fault that a thread takes. -/
def fault (x : Linked) (fuel : ℕ) (cfsr : Word) (f : Fault) (s : Cpu) (k : Console) : Option Console :=
  let t := faultHandler (exceptionEntry s)
  handler x fuel cfsr f t.mem (t.r .r0) (t.r .r1) (t.r .r2) k

/-! ## Reading a report -/

def readHex (ds : List Byte) : Option Word := (ds.mapM (digitOf 16)).map fun ns => BitVec.ofNat 32 (readFrom 16 0 ns)

def isBlank (c : Byte) : Bool := c = ch ' ' ∨ c = ch '\r' ∨ c = ch '\n'

/-- The words with their labels: a label ends with a colon. -/
def readFields : List (List Byte) → List (List Byte × Word)
  | label :: value :: ts =>
    match if label.getLast? = some (ch ':') then readHex value else none with
    | some w => (label.dropLast, w) :: readFields ts
    | none => readFields (value :: ts)
  | _ => []

structure Report where
  name : Option (List Byte)
  fields : List (List Byte × Word)
  cause : Option (List Byte)
  deriving DecidableEq

def readReport (text : List Byte) : Report :=
  let ts := words isBlank text
  ⟨(ts.find? fun t => t.head? = some (ch '#')).map List.tail, readFields ts,
    (ts.find? fun t => t.head? = some (ch '<')).map fun t => t.tail.dropLast⟩

/-- What a report should say about the thread. -/
def reportOf (f : Fault) (cfsr : Word) (s : Cpu) : Report where
  name := some (literal f.name).text
  fields := [("r0", s.r .r0), ("r1", s.r .r1), ("r2", s.r .r2), ("r3", s.r .r3), ("r4", s.r .r4), ("r5", s.r .r5),
    ("r6", s.r .r6), ("r7", s.r .r7), ("r8", s.r .r8), ("r9", s.r .r9), ("r10", s.r .r10), ("r11", s.r .r11),
    ("r12", s.r .r12), ("sp", (exceptionEntry s).psp), ("lr", s.r .lr), ("pc", s.pc), ("EXC_RETURN", 0xFFFFFFFD)].map
      (fun p => ((literal p.1).text, p.2)) ++ if f = .usagefault then [((literal "ufsr").text, cfsr >>> 16)] else []
  cause := if f = .usagefault then (causeOf (cfsr >>> 16)).map fun c => (literal c).text else none

/-! ## Words in hexadecimal -/

/-- A word with its eight digits. -/
def hex8 (w : Word) : List Byte := (hexadecimal w).leftpad 8 (ch '0')

theorem hex8_eq (w : Word) : ∃ k, hex8 w = (List.replicate k 0 ++ numeral 16 w.toNat).map charOf := by
  refine ⟨8 - (hexadecimal w).length, ?_⟩
  rw [hex8, List.leftpad, List.map_append, List.map_replicate, ← hexadecimal_eq]
  rfl

theorem length_hex8 (w : Word) : (hex8 w).length = 8 := by
  rw [hex8, List.length_leftpad]
  exact max_eq_left (length_hexadecimal_le w)

theorem mem_hex8 {w : Word} {c : Byte} (h : c ∈ hex8 w) : ∃ d < 16, c = charOf d := by
  obtain ⟨k, hk⟩ := hex8_eq w
  rw [hk] at h
  obtain ⟨d, hd, rfl⟩ := List.mem_map.mp h
  refine ⟨d, ?_, rfl⟩
  rcases List.mem_append.mp hd with hd | hd
  · rw [List.eq_of_mem_replicate hd]
    norm_num
  · exact lt_of_mem_numeral (by norm_num) hd

theorem readFrom_zeros (k : ℕ) (ds : List ℕ) : readFrom 16 0 (List.replicate k 0 ++ ds) = readFrom 16 0 ds := by
  induction k with
  | zero => rfl
  | succ k ih => exact ih

theorem readHex_hex8 (w : Word) : readHex (hex8 w) = some w := by
  obtain ⟨k, hk⟩ := hex8_eq w
  have hlt : ∀ d ∈ List.replicate k 0 ++ numeral 16 w.toNat, d < 16 := by
    intro d hd
    rcases List.mem_append.mp hd with hd | hd
    · rw [List.eq_of_mem_replicate hd]
      norm_num
    · exact lt_of_mem_numeral (by norm_num) hd
  rw [readHex, hk, mapM_digitOf (by norm_num) hlt, Option.map_some, readFrom_zeros, read_numeral, BitVec.ofNat_toNat,
    BitVec.setWidth_eq]

/-- A digit is part of a word of the text. -/
theorem isBlank_charOf : ∀ d < 16, isBlank (charOf d) = false := by decide

theorem words_hex8 (w : Word) : words isBlank (hex8 w) = [hex8 w] := by
  refine words_of_forall isBlank (fun h => ?_) fun c hc => ?_
  · have hlen := length_hex8 w
    rw [h] at hlen
    cases hlen
  · obtain ⟨d, hd, rfl⟩ := mem_hex8 hc
    exact isBlank_charOf d hd

theorem crlf_hex8 (w : Word) : crlf (hex8 w) = hex8 w := by
  refine crlf_of_notMem fun h => ?_
  obtain ⟨d, hd, hc⟩ := mem_hex8 h
  exact (charOf_spec d hd).2.2.1 hc.symm

/-! ## Lines -/

/-- Ordinary characters, as pieces of a format. -/
def plain (l : List Byte) : List Piece :=
  l.filterMap fun c => if h : c ≠ 0 ∧ c ≠ ch '%' then some (.ordinary c h) else none

def Ordinary (l : List Byte) : Prop := ∀ c ∈ l, c ≠ 0 ∧ c ≠ ch '%'

instance (l : List Byte) : Decidable (Ordinary l) := inferInstanceAs (Decidable (∀ c ∈ l, _))

theorem eight_lt_ten : 8 < 10 := by decide

/-- Labels, each with a word behind it. -/
def cells (labels : List (List Byte)) (ws : List Word) : List Piece :=
  (labels.zip ws).flatMap fun c => plain c.1 ++ [.hexFlag true ⟨8, eight_lt_ten⟩ (arg c.2)]

/-- What a line shows: the labels with their words, and the rest. -/
def shown (labels : List (List Byte)) (ws : List Word) (tail : List Byte) : List Byte :=
  (labels.zip ws).flatMap (fun c => c.1 ++ hex8 c.2) ++ tail

section

variable {l tail : List Byte} {labels : List (List Byte)} {ws : List Word} {ps qs : List Piece} {p : Piece}

theorem plain_cons {c : Byte} (hc : c ≠ 0 ∧ c ≠ ch '%') (l : List Byte) :
    plain (c :: l) = .ordinary c hc :: plain l := by
  rw [plain, List.filterMap_cons_some (dif_pos hc)]
  rfl

theorem text_plain (h : Ordinary l) : (plain l).flatMap Piece.text = l := by
  induction l with
  | nil => rfl
  | cons c l ih =>
    obtain ⟨hc, hl⟩ := List.forall_mem_cons.mp h
    rw [plain_cons hc, List.flatMap_cons, ih hl]
    rfl

theorem rendered_plain (h : Ordinary l) : rendered (plain l) = l := by
  induction l with
  | nil => rfl
  | cons c l ih =>
    obtain ⟨hc, hl⟩ := List.forall_mem_cons.mp h
    rw [plain_cons hc, rendered, List.flatMap_cons]
    exact congrArg (c :: ·) (ih hl)

theorem args_plain (h : Ordinary l) : (plain l).flatMap Piece.args = [] := by
  induction l with
  | nil => rfl
  | cons c l ih =>
    obtain ⟨hc, hl⟩ := List.forall_mem_cons.mp h
    rw [plain_cons hc, List.flatMap_cons, ih hl]
    rfl

theorem fitting_plain (hp : p ∈ plain l) (r : ℕ) : Fitting r p := by
  obtain ⟨c, -, hc⟩ := List.mem_filterMap.mp hp
  split at hc
  · obtain rfl := Option.some.inj hc
    trivial
  · cases hc

theorem clean_of_fitting (h : ∀ p ∈ ps, ∀ r, Fitting r p) (r : ℕ) : Clean r ps := by
  induction ps generalizing r with
  | nil => trivial
  | cons p ps ih =>
    obtain ⟨hp, hps⟩ := List.forall_mem_cons.mp h
    exact ⟨hp r, ih hps _⟩

/-- Eight digits are enough for a word, whatever padding is left. -/
theorem fitting_cells (hp : p ∈ cells labels ws) (r : ℕ) : Fitting r p := by
  obtain ⟨c, -, hp⟩ := List.mem_flatMap.mp hp
  rcases List.mem_append.mp hp with hp | hp
  · exact fitting_plain hp r
  · obtain rfl := List.mem_singleton.mp hp
    exact .inr (length_hexadecimal_le c.2)

theorem cells_cons (w : Word) :
    cells (l :: labels) (w :: ws) = plain l ++ .hexFlag true 8 (arg w) :: cells labels ws := by
  simp [cells]

theorem shown_cons (w : Word) : shown (l :: labels) (w :: ws) tail = l ++ (hex8 w ++ shown labels ws tail) := by
  simp [shown]

theorem text_cells (hlen : labels.length = ws.length) (h : ∀ l ∈ labels, Ordinary l) :
    (cells labels ws).flatMap Piece.text = labels.flatMap fun l => l ++ (literal "%08x").text := by
  induction labels generalizing ws with
  | nil => rfl
  | cons l labels ih =>
    obtain ⟨w, ws, rfl⟩ := List.exists_cons_of_length_eq_add_one hlen.symm
    obtain ⟨hl, hrest⟩ := List.forall_mem_cons.mp h
    rw [cells_cons, List.flatMap_append, text_plain hl, List.flatMap_cons, ih (Nat.succ.inj hlen) hrest,
      List.flatMap_cons,
      List.append_assoc]
    rfl

theorem rendered_cells (h : ∀ l ∈ labels, Ordinary l) :
    rendered (cells labels ws ++ ps) = shown labels ws (rendered ps) := by
  induction labels generalizing ws with
  | nil => rfl
  | cons l labels ih =>
    cases ws with
    | nil => rfl
    | cons w ws =>
      obtain ⟨hl, hrest⟩ := List.forall_mem_cons.mp h
      rw [cells_cons, shown_cons, ← ih hrest, List.append_assoc, rendered, List.flatMap_append, ← rendered,
        rendered_plain hl]
      rfl

theorem args_cells (hlen : labels.length = ws.length) (h : ∀ l ∈ labels, Ordinary l) :
    (cells labels ws).flatMap Piece.args = ws.map arg := by
  induction labels generalizing ws with
  | nil =>
    obtain rfl := List.eq_nil_of_length_eq_zero hlen.symm
    rfl
  | cons l labels ih =>
    obtain ⟨w, ws, rfl⟩ := List.exists_cons_of_length_eq_add_one hlen.symm
    obtain ⟨hl, hrest⟩ := List.forall_mem_cons.mp h
    rw [cells_cons, List.flatMap_append, args_plain hl, List.flatMap_cons, ih (Nat.succ.inj hlen) hrest]
    rfl

theorem length_shown (hlen : labels.length = ws.length) :
    (shown labels ws tail).length = labels.flatten.length + 8 * labels.length + tail.length := by
  induction labels generalizing ws with
  | nil => simp [shown]
  | cons l labels ih =>
    obtain ⟨w, ws, rfl⟩ := List.exists_cons_of_length_eq_add_one hlen.symm
    rw [shown_cons, List.length_append, List.length_append, length_hex8, ih (Nat.succ.inj hlen), List.flatten_cons,
      List.length_append, List.length_cons]
    omega

/-! ## What is printed -/

variable {x : Linked} {format : String} {args : List Arg} {fuel : ℕ}

/-- A line of labels and words. -/
theorem print_line (x : Linked) (hlen : labels.length = ws.length) (hl : ∀ l ∈ labels, Ordinary l)
    (hqs : ∀ q ∈ qs, ∀ r, Fitting r q)
    (htext : (literal format).text = labels.flatMap (fun l => l ++ (literal "%08x").text) ++ qs.flatMap Piece.text)
    (hargs : args = ws.map arg ++ qs.flatMap Piece.args) (hfits : (shown labels ws (rendered qs)).length < 256)
    (hf : 256 ≤ fuel) (k : Console) :
    ∃ k', x.print fuel format args k = some k' ∧ k'.sent = k.sent ++ crlf (shown labels ws (rendered qs)) := by
  have hrendered : rendered (cells labels ws ++ qs) = shown labels ws (rendered qs) := rendered_cells hl
  rw [← hrendered] at hfits ⊢
  refine print_pieces x ?_ ?_ (clean_of_fitting (fun p hp r => ?_) 0) hfits hf k
  · rw [htext, List.flatMap_append, text_cells hlen hl]
  · rw [hargs, List.flatMap_append, args_cells hlen hl]
  · rcases List.mem_append.mp hp with hp | hp
    · exact fitting_cells hp r
    · exact hqs p hp r

/-! ## The words of what is printed -/

/-- A label ends with a blank, and there is a blank behind every word. -/
def Spaced (labels : List (List Byte)) (tail : List Byte) : Prop :=
  (∀ l ∈ labels, (crlf l).getLast?.any isBlank) ∧ (∀ l ∈ labels.tail, (crlf l).head?.any isBlank) ∧
    (crlf tail).head?.any isBlank

instance (labels : List (List Byte)) (tail : List Byte) : Decidable (Spaced labels tail) :=
  inferInstanceAs (Decidable (_ ∧ _))

/-- Fields as the words of a text. -/
def tokens (fields : List (List Byte × Word)) : List (List Byte) := fields.flatMap fun f => [f.1 ++ [ch ':'], hex8 f.2]

theorem head_crlf_shown (hlen : labels.length = ws.length) (hl : ∀ l ∈ labels, (crlf l).head?.any isBlank)
    (ht : (crlf tail).head?.any isBlank) : (crlf (shown labels ws tail)).head?.any isBlank := by
  cases labels with
  | nil => exact ht
  | cons l labels =>
    obtain ⟨w, ws, rfl⟩ := List.exists_cons_of_length_eq_add_one hlen.symm
    obtain ⟨c, hc, hblank⟩ := (Option.any_eq_true _ _).mp (hl l List.mem_cons_self)
    rw [shown_cons, crlf_append, List.head?_append, hc]
    exact hblank

theorem words_shown {names : List (List Byte)} (hlen : labels.length = ws.length) (hs : Spaced labels tail)
    (hnames : labels.map (fun l => words isBlank (crlf l)) = names.map fun n => [n ++ [ch ':']]) :
    words isBlank (crlf (shown labels ws tail)) = tokens (names.zip ws) ++ words isBlank (crlf tail) := by
  induction labels generalizing names ws with
  | nil =>
    obtain rfl := List.map_eq_nil_iff.mp hnames.symm
    rfl
  | cons l labels ih =>
    obtain ⟨w, ws, rfl⟩ := List.exists_cons_of_length_eq_add_one hlen.symm
    obtain ⟨n, names, rfl⟩ := List.exists_cons_of_ne_nil (l := names) (by
      rintro rfl
      cases hnames)
    rw [List.map_cons, List.map_cons, List.cons.injEq] at hnames
    obtain ⟨hlast, hhead, htail⟩ := hs
    obtain ⟨hl, hlast⟩ := List.forall_mem_cons.mp hlast
    obtain ⟨c, hc, hblank⟩ := (Option.any_eq_true _ _).mp hl
    obtain ⟨d, hd, hblank'⟩ := (Option.any_eq_true _ _).mp (head_crlf_shown (Nat.succ.inj hlen) hhead htail)
    have hrest := ih (Nat.succ.inj hlen) ⟨hlast, fun l hl => hhead l (List.mem_of_mem_tail hl), htail⟩ hnames.2
    rw [shown_cons, crlf_append, crlf_append, crlf_hex8, words_append_of_getLast isBlank _ hc hblank,
      words_append_of_head isBlank _ hd hblank', words_hex8, hrest, hnames.1]
    rfl

/-- What is printed are these words, and blanks behind the last one. -/
def Tells (run : Option Console) (k : Console) (ts : List (List Byte)) : Prop :=
  ∃ k' text, run = some k' ∧ k'.sent = k.sent ++ text ∧ text.getLast?.any isBlank ∧ words isBlank text = ts

theorem Tells.bind {run : Option Console} {next : Console → Option Console} {k : Console} {ts us : List (List Byte)}
    (h : Tells run k ts) (h' : ∀ k, Tells (next k) k us) : Tells (run.bind next) k (ts ++ us) := by
  obtain ⟨k₁, text, rfl, hsent, hlast, hts⟩ := h
  obtain ⟨k₂, text', hrun, hsent', hlast', hus⟩ := h' k₁
  obtain ⟨c, hc, hblank⟩ := (Option.any_eq_true _ _).mp hlast
  obtain ⟨d, hd, hblank'⟩ := (Option.any_eq_true _ _).mp hlast'
  refine ⟨k₂, text ++ text', hrun, by rw [hsent', hsent, List.append_assoc], ?_, ?_⟩
  · rw [List.getLast?_append, hd]
    exact hblank'
  · rw [words_append_of_getLast isBlank _ hc hblank, hts, hus]

theorem tells_pieces (x : Linked) {ts : List (List Byte)} (htext : (literal format).text = ps.flatMap Piece.text)
    (hargs : args = ps.flatMap Piece.args) (hclean : Clean 0 ps) (hfits : (rendered ps).length < 256) (hf : 256 ≤ fuel)
    (hlast : (crlf (rendered ps)).getLast?.any isBlank) (hts : words isBlank (crlf (rendered ps)) = ts) (k : Console) :
    Tells (x.print fuel format args k) k ts := by
  obtain ⟨k', hk, hsent⟩ := print_pieces x htext hargs hclean hfits hf k
  exact ⟨k', _, hk, hsent, hlast, hts⟩

/-- What a line has to be like, apart from its words. Behind the labels stands `text` in the format,
printed as `tail`. -/
structure Fits (format : String) (labels names : List (List Byte)) (text tail : List Byte) : Prop where
  ordinary : ∀ l ∈ labels, Ordinary l
  spaced : Spaced labels tail
  names : labels.map (fun l => words isBlank (crlf l)) = names.map fun n => [n ++ [ch ':']]
  text : (literal format).text = labels.flatMap (fun l => l ++ (literal "%08x").text) ++ text
  length : labels.flatten.length + 8 * labels.length + tail.length < 256
  last : (crlf tail).getLast?.any isBlank

instance (format : String) (labels names : List (List Byte)) (text tail : List Byte) :
    Decidable (Fits format labels names text tail) :=
  decidable_of_iff (_ ∧ _ ∧ _ ∧ _ ∧ _ ∧ _)
    ⟨fun ⟨a, b, c, d, e, f⟩ => ⟨a, b, c, d, e, f⟩, fun ⟨a, b, c, d, e, f⟩ => ⟨a, b, c, d, e, f⟩⟩

theorem tells_line (x : Linked) {names : List (List Byte)} {text : List Byte} (h : Fits format labels names text tail)
    (hlen : labels.length = ws.length) (hqs : ∀ q ∈ qs, ∀ r, Fitting r q) (htext : qs.flatMap Piece.text = text)
    (htail : rendered qs = tail) (hargs : args = ws.map arg ++ qs.flatMap Piece.args) (hf : 256 ≤ fuel) (k : Console) :
    Tells (x.print fuel format args k) k (tokens (names.zip ws) ++ words isBlank (crlf tail)) := by
  subst htext htail
  obtain ⟨k', hk, hsent⟩ := print_line x hlen h.ordinary hqs h.text hargs ((length_shown hlen).trans_lt h.length) hf k
  refine ⟨k', _, hk, hsent, ?_, words_shown hlen h.spaced h.names⟩
  obtain ⟨c, hc, hblank⟩ := (Option.any_eq_true _ _).mp h.last
  rw [shown, crlf_append, List.getLast?_append, hc]
  exact hblank

/-- A line with nothing behind its words. -/
theorem tells_words (x : Linked) {names : List (List Byte)} (h : Fits format labels names [ch '\n'] [ch '\n'])
    (ws : List Word)
    (hlen : labels.length = ws.length) (hargs : args = ws.map arg) (hf : 256 ≤ fuel) (k : Console) :
    Tells (x.print fuel format args k) k (tokens (names.zip ws)) := by
  have hend : Ordinary [ch '\n'] := by decide
  have hargs' : args = ws.map arg ++ (plain [ch '\n']).flatMap Piece.args := by
    rw [args_plain hend, List.append_nil, hargs]
  have hline :=
    tells_line x h hlen (fun q hq r => fitting_plain hq r) (text_plain hend) (rendered_plain hend) hargs' hf k
  rwa [show words isBlank (crlf [ch '\n']) = [] from by decide, List.append_nil] at hline

end

/-! ## The report -/

def rule : List Byte := (literal "-------------------------------------------------------------").text

/-- The texts of a list of strings. -/
def texts (ss : List String) : List (List Byte) := ss.map fun s => (literal s).text

/-- The fields of a frame. -/
def frameFields (noscratch : ℕ → Word) (regs : ThreadContextRegs) (scratch excReturn : Word) :
    List (List Byte × Word) :=
  (texts ["r0", "r1", "r2", "r3"]).zip [regs.r0, regs.r1, regs.r2, regs.r3] ++
    ((texts ["r4", "r5", "r6", "r7"]).zip [noscratch 0, noscratch 1, noscratch 2, noscratch 3] ++
      ((texts ["r8", "r9", "r10", "r11"]).zip [noscratch 4, noscratch 5, noscratch 6, noscratch 7] ++
        ((texts ["r12", "sp", "lr", "pc"]).zip [regs.r12, scratch, regs.lr, regs.retAddr] ++
          (texts ["EXC_RETURN"]).zip [excReturn])))

section

variable {fuel : ℕ}

/-- A line without a directive. -/
theorem tells_plain (x : Linked) {format : String} {ts : List (List Byte)} (hl : Ordinary (literal format).text)
    (hfits : (literal format).text.length < 256) (hlast : (crlf (literal format).text).getLast?.any isBlank)
    (hts : words isBlank (crlf (literal format).text) = ts) (hf : 256 ≤ fuel) (k : Console) :
    Tells (x.print fuel format [] k) k ts := by
  refine tells_pieces x (text_plain hl).symm (args_plain hl).symm
    (clean_of_fitting (fun p hp r => fitting_plain hp r) 0) ?_ hf
    ?_ ?_ k
  · rwa [rendered_plain hl]
  · rwa [rendered_plain hl]
  · rwa [rendered_plain hl]

/-- A string with something before and behind it. -/
theorem tells_string (x : Linked) {format s : String} {labels names : List (List Byte)} (ws : List Word)
    {l tail : List Byte}
    (h : Fits format labels names (l ++ (literal "%s").text ++ tail) (l ++ (literal s).text ++ tail))
    (hlen : labels.length = ws.length) (hl : Ordinary l) (htail : Ordinary tail) (hf : 256 ≤ fuel) (k : Console) :
    Tells (x.print fuel format (ws.map arg ++ [x.pointer s]) k) k
      (tokens (names.zip ws) ++ words isBlank (crlf (l ++ (literal s).text ++ tail))) := by
  have hqs : ∀ q ∈ plain l ++ .str (x.pointer s) :: plain tail, ∀ r, Fitting r q := by
    intro q hq r
    rcases List.mem_append.mp hq with hq | hq
    · exact fitting_plain hq r
    · rcases List.mem_cons.mp hq with rfl | hq
      · trivial
      · exact fitting_plain hq r
  refine tells_line x h hlen hqs ?_ ?_ ?_ hf k
  · rw [List.flatMap_append, text_plain hl, List.flatMap_cons, text_plain htail, List.append_assoc]
    rfl
  · rw [rendered, List.flatMap_append, ← rendered, rendered_plain hl, List.flatMap_cons, ← rendered,
      rendered_plain htail,
      List.append_assoc]
    rfl
  · rw [List.flatMap_append, args_plain hl, List.flatMap_cons, args_plain htail]
    rfl

theorem faultEnter_tells (x : Linked) (hf : 256 ≤ fuel) (f : Fault) (k : Console) :
    Tells (faultEnter x fuel f.name k) k [rule, ch '#' :: (literal f.name).text] := by
  have hrule (k : Console) :
      Tells (x.print fuel "\n-------------------------------------------------------------\n" [] k) k [rule] :=
    tells_plain x (by decide +kernel) (by decide +kernel) (by decide +kernel) (by decide +kernel) hf k
  have hfits : Fits " #%s\n\n" [] [] ((literal " #").text ++ (literal "%s").text ++ [ch '\n', ch '\n'])
      ((literal " #").text ++ (literal f.name).text ++ [ch '\n', ch '\n']) := by
    cases f <;> decide +kernel
  have hwords : words isBlank (crlf ((literal " #").text ++ (literal f.name).text ++ [ch '\n', ch '\n'])) =
      [ch '#' :: (literal f.name).text] := by
    cases f <;> decide +kernel
  have hname (k : Console) := tells_string x [] hfits rfl (by decide) (by decide) hf k
  rw [hwords] at hname
  exact (hrule k).bind hname

theorem dumpFrame_tells (x : Linked) (hf : 256 ≤ fuel) (m : Mem) (noscratch scratch excReturn : Word) (k : Console) :
    Tells (dumpFrame x fuel m noscratch scratch excReturn k) k
      (tokens (frameFields (fun i => m (noscratch + BitVec.ofNat 32 (4 * i))) (ThreadContextRegs.load m scratch)
        scratch
        excReturn)) := by
  have hr0 :
    Fits " r0: %08x    r1: %08x    r2: %08x    r3: %08x\n" (texts [" r0: ", "    r1: ", "    r2: ", "    r3: "])
      (texts ["r0", "r1", "r2", "r3"]) [ch '\n'] [ch '\n'] := by decide +kernel
  have hr4 :
    Fits " r4: %08x    r5: %08x    r6: %08x    r7: %08x\n" (texts [" r4: ", "    r5: ", "    r6: ", "    r7: "])
      (texts ["r4", "r5", "r6", "r7"]) [ch '\n'] [ch '\n'] := by decide +kernel
  have hr8 :
    Fits " r8: %08x    r9: %08x   r10: %08x   r11: %08x\n" (texts [" r8: ", "    r9: ", "   r10: ", "   r11: "])
      (texts ["r8", "r9", "r10", "r11"]) [ch '\n'] [ch '\n'] := by decide +kernel
  have hr12 :
    Fits "r12: %08x    sp: %08x    lr: %08x    pc: %08x\n" (texts ["r12: ", "    sp: ", "    lr: ", "    pc: "])
      (texts ["r12", "sp", "lr", "pc"]) [ch '\n'] [ch '\n'] := by decide +kernel
  have hexc :
    Fits "\nEXC_RETURN: %08x\n" (texts ["\nEXC_RETURN: "]) (texts ["EXC_RETURN"]) [ch '\n'] [ch '\n'] := by
    decide +kernel
  simp only [frameFields, tokens, List.flatMap_append]
  unfold dumpFrame
  refine (tells_words x hr0 [_, _, _, _] rfl rfl hf k).bind fun k => ?_
  refine (tells_words x hr4 [_, _, _, _] rfl rfl hf k).bind fun k => ?_
  refine (tells_words x hr8 [_, _, _, _] rfl rfl hf k).bind fun k => ?_
  refine (tells_words x hr12 [_, _, _, _] rfl rfl hf k).bind fun k => ?_
  exact tells_words x hexc [_] rfl rfl hf k

/-- The cause, as a word of the text. -/
def causeToken (c : String) : List Byte := ch '<' :: (literal c).text ++ [ch '>']

theorem causeOf_mem {ufsr : Word} {c : String} (h : causeOf ufsr = some c) :
    c ∈ ["DIVBYZERO", "UNALIGNED", "NOCP", "INVPC", "INVSTATE", "UNDEFINSTR"] := by
  unfold causeOf at h
  split_ifs at h <;>
  · obtain rfl := Option.some.inj h
    simp

theorem printUfsr_tells (x : Linked) (hf : 256 ≤ fuel) (ufsr : Word) (k : Console) :
    Tells (printUfsr x fuel ufsr k) k
      (tokens ((texts ["ufsr"]).zip [ufsr]) ++ ((causeOf ufsr).map causeToken).toList) := by
  unfold printUfsr
  cases hc : causeOf ufsr with
  | none =>
    have hfits : Fits "      ufsr: %08x\n" (texts ["      ufsr: "]) (texts ["ufsr"]) [ch '\n'] [ch '\n'] := by
      decide +kernel
    simp only [Option.map_none, Option.toList_none, List.append_nil]
    exact tells_words x hfits [ufsr] rfl rfl hf k
  | some c =>
    have hall : ∀ c ∈ ["DIVBYZERO", "UNALIGNED", "NOCP", "INVPC", "INVSTATE", "UNDEFINSTR"],
        Fits "      ufsr: %08x  <%s>\n" (texts ["      ufsr: "]) (texts ["ufsr"])
          ((literal "  <").text ++ (literal "%s").text ++ [ch '>', ch '\n'])
          ((literal "  <").text ++ (literal c).text ++ [ch '>', ch '\n']) ∧
        words isBlank (crlf ((literal "  <").text ++ (literal c).text ++ [ch '>', ch '\n'])) = [causeToken c] := by
          decide +kernel
    obtain ⟨hfits, hwords⟩ := hall c (causeOf_mem hc)
    have hline := tells_string x [ufsr] hfits rfl (by decide) (by decide) hf k
    rw [hwords] at hline
    exact hline

/-- What a handler prints, word by word. -/
theorem handler_tells (x : Linked) (hf : 256 ≤ fuel) (cfsr : Word) (f : Fault) (m : Mem)
    (noscratch scratch excReturn : Word)
    (k : Console) :
    Tells (handler x fuel cfsr f m noscratch scratch excReturn k) k
      ([rule, ch '#' :: (literal f.name).text] ++
        (tokens (frameFields (fun i => m (noscratch + BitVec.ofNat 32 (4 * i))) (ThreadContextRegs.load m scratch)
          scratch
          excReturn) ++
          ((if f = .usagefault then
              tokens ((texts ["ufsr"]).zip [cfsr >>> 16]) ++ ((causeOf (cfsr >>> 16)).map causeToken).toList
            else []) ++ [rule]))) := by
  refine (faultEnter_tells x hf f k).bind fun k => (dumpFrame_tells x hf m noscratch scratch excReturn k).bind
    fun k => ?_
  have hexit (k : Console) : Tells (faultExit x fuel k) k [rule] :=
    tells_plain x (by decide +kernel) (by decide +kernel) (by decide +kernel) (by decide +kernel) hf k
  by_cases hu : f = .usagefault
  · rw [if_pos hu, if_pos hu]
    exact (printUfsr_tells x hf (cfsr >>> 16) k).bind hexit
  · rw [if_neg hu, if_neg hu]
    exact hexit k

end

/-! ## Reading it back -/

section

variable {ts us : List (List Byte)} {fields : List (List Byte × Word)}

theorem readFields_skip {t : List Byte} (h : t.getLast? ≠ some (ch ':')) (ts : List (List Byte)) :
    readFields (t :: ts) = readFields ts := by
  cases ts with
  | nil => rfl
  | cons u ts => rw [readFields, if_neg h]

theorem readFields_tokens (fields : List (List Byte × Word)) (ts : List (List Byte)) :
    readFields (tokens fields ++ ts) = fields ++ readFields ts := by
  induction fields with
  | nil => rfl
  | cons f fields ih =>
    have hlast : (f.1 ++ [ch ':']).getLast? = some (ch ':') := List.getLast?_concat
    have hcons : tokens (f :: fields) ++ ts = (f.1 ++ [ch ':']) :: hex8 f.2 :: (tokens fields ++ ts) := rfl
    rw [hcons, readFields, if_pos hlast, readHex_hex8]
    simp only [List.dropLast_concat, ih, List.cons_append]

/-- No digit and no label begins as a cause does. -/
theorem find_tokens (h : ∀ f ∈ fields, (f.1 ++ [ch ':']).head? ≠ some (ch '<')) :
    (tokens fields).find? (fun t => t.head? = some (ch '<')) = none := by
  refine List.find?_eq_none.mpr fun t ht hhead => ?_
  obtain ⟨f, hf, ht⟩ := List.mem_flatMap.mp ht
  rcases List.mem_cons.mp ht with rfl | ht
  · exact h f hf (of_decide_eq_true hhead)
  · obtain rfl := List.mem_singleton.mp ht
    obtain ⟨d, hd, hc⟩ := mem_hex8 (List.mem_of_mem_head? (of_decide_eq_true hhead))
    have hne : ∀ d < 16, ch '<' ≠ charOf d := by decide
    exact hne d hd hc

theorem getLast_rule : rule.getLast? ≠ some (ch ':') := by decide

/-- The report of a text that has these words. -/
theorem readReport_of_words {text name : List Byte} {cause : Option String}
    (hn : (ch '#' :: name).getLast? ≠ some (ch ':'))
    (hfields : ∀ f ∈ fields, (f.1 ++ [ch ':']).head? ≠ some (ch '<'))
    (hw : words isBlank text = [rule, ch '#' :: name] ++
      (tokens fields ++ ((cause.map causeToken).toList ++ [rule]))) :
    readReport text = ⟨some name, fields, cause.map fun c => (literal c).text⟩ := by
  have hrule : rule.head? ≠ some (ch '#') ∧ rule.head? ≠ some (ch '<') := by decide
  have hhash : (some (ch '#') : Option Byte) ≠ some (ch '<') := by decide
  unfold readReport
  simp only [hw, Report.mk.injEq]
  refine ⟨?_, ?_, ?_⟩
  · rw [List.cons_append, List.find?_cons_of_neg (by simpa using hrule.1), List.cons_append,
      List.find?_cons_of_pos (by simp)]
    rfl
  · rw [List.cons_append, readFields_skip getLast_rule, List.cons_append, readFields_skip hn, List.nil_append,
      readFields_tokens]
    have hrest : readFields ((cause.map causeToken).toList ++ [rule]) = [] := by
      cases cause with
      | none => rfl
      | some c =>
        have hc : (causeToken c).getLast? ≠ some (ch ':') := by
          rw [causeToken, List.getLast?_concat]
          decide +kernel
        exact (readFields_skip hc [rule]).trans rfl
    rw [hrest, List.append_nil]
  · rw [List.cons_append, List.find?_cons_of_neg (by simpa using hrule.2), List.cons_append,
      List.find?_cons_of_neg (by simpa using hhash), List.nil_append, List.find?_append, find_tokens hfields,
      Option.none_or]
    cases cause with
    | none =>
      rw [Option.map_none, Option.toList_none, List.nil_append, List.find?_cons_of_neg (by simpa using hrule.2)]
      rfl
    | some c =>
      rw [Option.map_some, Option.toList_some, List.singleton_append, List.find?_cons_of_pos (by simp [causeToken])]
      simp [causeToken]

end

/-! ## The registers of the thread -/

/-- The stack of the kernel, where the registers are saved, is apart from the frame. -/
def StacksApart (s : Cpu) : Prop :=
  ∀ x, (x - (exceptionEntry s).psp).toNat < 32 → 32 ≤ (x - (s.msp - 32)).toNat

theorem faultHandler_regs (s : Cpu) :
    (faultHandler (exceptionEntry s)).r .r0 = s.msp - 32 ∧ (faultHandler (exceptionEntry s)).r .r1 =
      (exceptionEntry s).psp ∧
      (faultHandler (exceptionEntry s)).r .r2 = 0xFFFFFFFD := by
  refine ⟨?_, ?_, ?_⟩ <;> simp [faultHandler, Cpu.push_handler, exceptionEntry, Cpu.set, Cpu.sp]

theorem faultHandler_mem (s : Cpu) : (faultHandler (exceptionEntry s)).mem =
    storeWords (exceptionEntry s).mem (s.msp - 32) (calleeSaved.map s.r) := by
  simp [faultHandler, Cpu.push_handler, exceptionEntry, Cpu.set, calleeSaved]

theorem load_faultHandler {s : Cpu} (h : StacksApart s) :
    ThreadContextRegs.load (faultHandler (exceptionEntry s)).mem (exceptionEntry s).psp = stackedContext s := by
  rw [← load_exceptionEntry s]
  refine ThreadContextRegs.load_congr fun x hx => ?_
  rw [faultHandler_mem]
  exact storeWords_of_le _ _ (h x hx)

/-- The registers that the handler has saved. -/
theorem saved_faultHandler (s : Cpu) {i : ℕ} {rd : Reg} (h : calleeSaved[i]? = some rd) :
    (faultHandler (exceptionEntry s)).mem (s.msp - 32 + BitVec.ofNat 32 (4 * i)) = s.r rd := by
  rw [faultHandler_mem]
  exact storeWords_apply _ (by rw [List.length_map]; decide) (by rw [List.getElem?_map, h]; rfl)

/-- The frame, as the report should have it. -/
theorem frameFields_fault {s : Cpu} (h : StacksApart s) :
    frameFields (fun i => (faultHandler (exceptionEntry s)).mem (s.msp - 32 + BitVec.ofNat 32 (4 * i)))
      (ThreadContextRegs.load (faultHandler (exceptionEntry s)).mem (exceptionEntry s).psp) (exceptionEntry s).psp
        0xFFFFFFFD =
    [("r0", s.r .r0), ("r1", s.r .r1), ("r2", s.r .r2), ("r3", s.r .r3), ("r4", s.r .r4), ("r5", s.r .r5),
      ("r6", s.r .r6), ("r7", s.r .r7), ("r8", s.r .r8), ("r9", s.r .r9), ("r10", s.r .r10), ("r11", s.r .r11),
      ("r12", s.r .r12), ("sp", (exceptionEntry s).psp), ("lr", s.r .lr), ("pc", s.pc), ("EXC_RETURN", 0xFFFFFFFD)].map
        (fun p => ((literal p.1).text, p.2)) := by
  rw [load_faultHandler h]
  simp only [frameFields, saved_faultHandler s (i := 0) rfl, saved_faultHandler s (i := 1) rfl,
    saved_faultHandler s (i := 2) rfl,
    saved_faultHandler s (i := 3) rfl, saved_faultHandler s (i := 4) rfl, saved_faultHandler s (i := 5) rfl,
    saved_faultHandler s (i := 6) rfl, saved_faultHandler s (i := 7) rfl]
  rfl

/-- No label begins as a cause does. -/
theorem head_label (f : Fault) (cfsr : Word) (s : Cpu) :
    ∀ p ∈ (reportOf f cfsr s).fields, (p.1 ++ [ch ':']).head? ≠ some (ch '<') := by
  have hnames :
    ∀ n ∈ texts ["r0", "r1", "r2", "r3", "r4", "r5", "r6", "r7", "r8", "r9", "r10", "r11", "r12", "sp", "lr", "pc",
      "EXC_RETURN", "ufsr"], (n ++ [ch ':']).head? ≠ some (ch '<') := by decide +kernel
  intro p hp
  refine hnames p.1 ?_
  rcases List.mem_append.mp hp with hp | hp
  · have hmem := List.mem_map_of_mem (f := Prod.fst) hp
    simp only [List.map_cons, List.map_nil] at hmem
    exact (List.prefix_append _ (texts ["ufsr"])).subset hmem
  · split at hp
    · obtain rfl := List.mem_singleton.mp hp
      exact List.getLast_mem (List.cons_ne_nil _ _)
    · cases hp

/-- **A fault report can be read back.** Whatever the registers of a thread hold when it faults, the
report that comes out on the console says it: the fault, the registers, the value for the return
from the exception, and for a usage fault the status with its cause. -/
theorem report_read_back (x : Linked) (fuel : ℕ) (hf : 256 ≤ fuel) (cfsr : Word) (f : Fault) (s : Cpu)
    (h : StacksApart s)
    (k : Console) : ∃ k' text, fault x fuel cfsr f s k = some k' ∧ k'.sent = k.sent ++ text ∧
      readReport text = reportOf f cfsr s := by
  obtain ⟨hr0, hr1, hr2⟩ := faultHandler_regs s
  obtain ⟨k', text, hrun, hsent, -, hwords⟩ :=
    handler_tells x hf cfsr f (faultHandler (exceptionEntry s)).mem (s.msp - 32)
    (exceptionEntry s).psp 0xFFFFFFFD k
  refine ⟨k', text, ?_, hsent, ?_⟩
  · simp only [fault, hr0, hr1, hr2]
    exact hrun
  · rw [frameFields_fault h] at hwords
    have hname : ∀ f : Fault, (ch '#' :: (literal f.name).text).getLast? ≠ some (ch ':') := by
      intro f
      cases f <;> decide
    have hcause : (reportOf f cfsr s).cause =
        (if f = .usagefault then causeOf (cfsr >>> 16) else none).map fun c => (literal c).text := by
      unfold reportOf
      split <;> rfl
    have hall : words isBlank text = [rule, ch '#' :: (literal f.name).text] ++ (tokens (reportOf f cfsr s).fields ++
        (((if f = .usagefault then causeOf (cfsr >>> 16) else none).map causeToken).toList ++ [rule])) := by
      rw [hwords]
      by_cases hu : f = .usagefault
      · simp only [reportOf, if_pos hu, tokens, List.flatMap_append, List.append_assoc]
        rfl
      · simp only [reportOf, if_neg hu, List.append_nil]
        rfl
    rw [readReport_of_words (hname f) (head_label f cfsr s) hall, ← hcause]
    rfl

/-- A thread that divides by zero, with its stack at `0x20001000` and that of the kernel at `0x20000800`. -/
def divides : Cpu where
  r rd := if rd = .r0 then 0xDEADBEEF else if rd = .r7 then 42 else 0
  msp := 0x20000800
  psp := 0x20001000
  pc := 0x08000124
  xpsr := 0x01000000
  mode := .thread
  mem _ := 0

def someLinked : Linked := ⟨fun _ _ => 0, fun _ => 0, fun _ _ => arg 0⟩

theorem report_read_back_divides : ∃ k' text,
    fault someLinked 256 0x02000000 .usagefault divides ⟨fun _ => 0, 0, []⟩ = some k' ∧ k'.sent = [] ++ text ∧
    (readReport text).cause = some (literal "DIVBYZERO").text ∧
    ((literal "r0").text, (0xDEADBEEF : Word)) ∈ (readReport text).fields := by
  have hapart : StacksApart divides := by
    intro x hx
    have hpsp : (exceptionEntry divides).psp = 0x20000FE0 := by decide
    have hmsp : divides.msp - 32 = 0x200007E0 := by decide
    rw [hpsp] at hx
    rw [hmsp]
    bv_omega
  obtain ⟨k', text, hrun, hsent, hread⟩ :=
    report_read_back someLinked 256 le_rfl 0x02000000 .usagefault divides hapart ⟨fun _ => 0, 0, []⟩
  refine ⟨k', text, hrun, hsent, ?_, ?_⟩
  · rw [hread]
    decide
  · rw [hread]
    decide

end PikoRT.Arch.Faults

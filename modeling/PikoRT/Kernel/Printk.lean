import PikoRT.Libc.Itoa
import PikoRT.Libc.PrintfPieces

/-! # The console of the kernel (`kernel/printk.c`)

`printk` formats into a buffer of its own and sends the text up to the NUL, with a carriage
return in front of every newline. The buffer keeps what an earlier call has left in it. -/
namespace PikoRT.Kernel.Printk
open PikoRT.Kernel.Bitops PikoRT.Lib.Numerals PikoRT.Libc.Printf PikoRT.Libc.PrintfPieces
open PikoRT.Libc.Itoa (charOf charOf_mem)

def VSNPRINTF_BUF_SIZE : Word := 256

structure Console where
  vsnprintfBuf : Word → Byte
  retval : Word
  /-- What was written to the data register of the UART. -/
  sent : List Byte

def Console.dr (c : Byte) (k : Console) : Console := { k with sent := k.sent ++ [c] }

def printkPutchar (c : Byte) (k : Console) : Console :=
  let k := if c = ch '\n' then k.dr (ch '\r') else k
  k.dr c

/-- The `for` loop of `printk` from the offset on. The fuel bounds its iterations. -/
def sendLoop : ℕ → Word → Console → Option Console
  | 0, _, _ => none
  | n + 1, i, k =>
    if k.vsnprintfBuf i = 0 then some k else sendLoop n (i + 1) (printkPutchar (k.vsnprintfBuf i) k)

def coVsnprintf (format : Format) (ap : VaList) (k : Console) : Console :=
  let s := vsnprintf k.vsnprintfBuf VSNPRINTF_BUF_SIZE format ap
  { k with vsnprintfBuf := s.out.mem, retval := s.strPos }

/-- With the value that is returned. `co_vsnprintf` is called through a context of its own; `PrintkContext` follows
control there and back. -/
def printk (fuel : ℕ) (format : Format) (ap : VaList) (k : Console) : Option (Word × Console) :=
  (sendLoop fuel 0 (coVsnprintf format ap k)).map fun k => (k.retval, k)

/-- A string of the source text. -/
def literal (s : String) : CString := ofBytes (s.toList.map ch)

/-- What the literals are surrounded by, and the calls that print them. -/
structure Linked where
  after : String → ℕ → Byte
  address : String → Word
  rest : String → VaList

def Linked.print (x : Linked) (fuel : ℕ) (format : String) (args : List Arg) (k : Console) : Option Console :=
  (printk fuel ⟨literal format, x.after format⟩ (fun n => args.getD n (x.rest format n)) k).map Prod.snd

def Linked.pointer (x : Linked) (s : String) : Arg := ⟨x.address s, literal s⟩

/-- What is sent for a text. -/
def crlf (text : List Byte) : List Byte := text.flatMap fun c => if c = ch '\n' then [ch '\r', ch '\n'] else [c]

variable {k : Console} {text : List Byte} {ps : List Piece} {fuel : ℕ}

theorem crlf_append (text text' : List Byte) : crlf (text ++ text') = crlf text ++ crlf text' := List.flatMap_append

theorem crlf_of_notMem (h : ch '\n' ∉ text) : crlf text = text := by
  induction text with
  | nil => rfl
  | cons c text ih =>
    obtain ⟨hc, ht⟩ := not_or.mp (mt List.mem_cons.mpr h)
    rw [crlf, List.flatMap_cons, if_neg (Ne.symm hc)]
    exact congrArg (c :: ·) (ih ht)

theorem sent_printkPutchar (c : Byte) (k : Console) : (printkPutchar c k).sent = k.sent ++ crlf [c] := by
  unfold printkPutchar crlf
  split
  · rename_i h
    simp [Console.dr, h]
  · rename_i h
    simp [Console.dr, h]

theorem vsnprintfBuf_printkPutchar (c : Byte) (k : Console) : (printkPutchar c k).vsnprintfBuf = k.vsnprintfBuf := by
  unfold printkPutchar
  split <;> rfl

theorem retval_printkPutchar (c : Byte) (k : Console) : (printkPutchar c k).retval = k.retval := by
  unfold printkPutchar
  split <;> rfl

/-- The loop comes to the NUL, and has sent what stands before it. -/
theorem sendLoop_eq {i : ℕ} (htext : ∀ j < text.length, k.vsnprintfBuf (BitVec.ofNat 32 (i + j)) = text.getD j 0)
    (hnul : k.vsnprintfBuf (BitVec.ofNat 32 (i + text.length)) = 0) (hno : 0 ∉ text) (hf : text.length < fuel) :
    sendLoop fuel (BitVec.ofNat 32 i) k = some { k with sent := k.sent ++ crlf text } := by
  induction text generalizing i k fuel with
  | nil =>
    obtain ⟨n, rfl⟩ := Nat.exists_eq_succ_of_ne_zero (Nat.ne_zero_of_lt hf)
    rw [sendLoop, if_pos (by simpa using hnul)]
    simp [crlf]
  | cons c text ih =>
    obtain ⟨n, rfl⟩ := Nat.exists_eq_succ_of_ne_zero (Nat.ne_zero_of_lt hf)
    obtain ⟨hc, hno⟩ := not_or.mp (mt List.mem_cons.mpr hno)
    have hfirst : k.vsnprintfBuf (BitVec.ofNat 32 i) = c := htext 0 (Nat.succ_pos _)
    have hnext (j : ℕ) : i + 1 + j = i + (j + 1) := by omega
    have hstep : sendLoop n (BitVec.ofNat 32 (i + 1)) (printkPutchar c k) =
        some { printkPutchar c k with sent := (printkPutchar c k).sent ++ crlf text } := by
      refine ih (fun j hj => ?_) ?_ hno (Nat.lt_of_succ_lt_succ hf)
      · rw [vsnprintfBuf_printkPutchar, hnext]
        exact htext (j + 1) (Nat.succ_lt_succ hj)
      · rw [vsnprintfBuf_printkPutchar, hnext]
        exact hnul
    rw [sendLoop, hfirst, if_neg (Ne.symm hc)]
    refine Eq.trans ?_ (hstep.trans ?_)
    · rw [BitVec.ofNat_add]
      rfl
    · rw [sent_printkPutchar, List.append_assoc, ← crlf_append, Option.some.injEq]
      simp only [Console.mk.injEq, vsnprintfBuf_printkPutchar, retval_printkPutchar, true_and]
      rfl

/-! ## What is printed has no NUL -/

theorem hexadecimal_eq (w : Word) : hexadecimal w = (numeral 16 w.toNat).map charOf := by
  have hlt : w.toNat < 16 ^ (31 + 1) := w.isLt.trans (by norm_num)
  rw [← itoaBase_sixteen, Libc.Printf.itoaBase, if_neg (by simp), strrev_eq,
    Libc.Itoa.itoaLoop_eq (by norm_num) 31 _ hlt, List.reverse_reverse]

theorem charOf_of_mem_hexadecimal {w : Word} {c : Byte} (h : c ∈ hexadecimal w) : ∃ d < 16, c = charOf d := by
  rw [hexadecimal_eq] at h
  obtain ⟨d, hd, rfl⟩ := List.mem_map.mp h
  exact ⟨d, lt_of_mem_numeral (by norm_num) hd, rfl⟩

/-- A digit is no NUL, no blank and no newline. -/
theorem charOf_spec : ∀ d < 16, charOf d ≠ 0 ∧ charOf d ≠ ch ' ' ∧ charOf d ≠ ch '\n' ∧ charOf d ≠ ch '\r' := by decide

theorem nul_notMem_hexadecimal (w : Word) : 0 ∉ hexadecimal w := by
  intro h
  obtain ⟨d, hd, hc⟩ := charOf_of_mem_hexadecimal h
  exact (charOf_spec d hd).1 hc.symm

theorem nul_notMem_decimal (w : Word) : 0 ∉ decimal w := by
  have hdigits : ∀ c ∈ (Nat.toDigits 10 w.toInt.natAbs).map ch, c ≠ 0 := by
    intro c hc h0
    obtain ⟨d, hd, rfl⟩ := List.mem_map.mp hc
    have hdigit := Nat.isDigit_of_mem_toDigits (by omega) (by omega) hd
    simp only [Char.isDigit, Bool.and_eq_true, decide_eq_true_eq] at hdigit
    have hval : d.toNat % 2 ^ 8 = 0 := by
      have := congrArg BitVec.toNat h0
      rwa [ch, BitVec.toNat_ofNat] at this
    have hlow : 48 ≤ d.toNat := hdigit.1
    have hhigh : d.toNat ≤ 57 := hdigit.2
    omega
  unfold decimal
  rw [List.mem_append, not_or]
  refine ⟨?_, fun h => hdigits 0 h rfl⟩
  split
  · decide
  · exact List.not_mem_nil

theorem nul_notMem_leftpad {n : ℕ} {c : Byte} (hc : c ≠ 0) (h : 0 ∉ text) : 0 ∉ text.leftpad n c := by
  rw [List.leftpad, List.mem_append, not_or]
  exact ⟨fun hm => hc (List.eq_of_mem_replicate hm).symm, h⟩

theorem nul_notMem_render (p : Piece) : 0 ∉ p.render := by
  have hflag : ∀ z, flag z ≠ 0 := by decide
  cases p with
  | ordinary c h => simpa [Piece.render] using h.1.symm
  | percent => decide
  | dec a => exact nul_notMem_decimal a.word
  | hex a => exact nul_notMem_hexadecimal a.word
  | ptr a =>
    rw [Piece.render, List.mem_append, not_or]
    exact ⟨by decide, nul_notMem_leftpad (by decide) (nul_notMem_hexadecimal a.word)⟩
  | str a => exact a.pointee.noNul
  | decN n a => exact nul_notMem_leftpad (by decide) (nul_notMem_decimal a.word)
  | decFlag z n a => exact nul_notMem_leftpad (hflag z) (nul_notMem_decimal a.word)
  | hexFlag z n a => exact nul_notMem_leftpad (hflag z) (nul_notMem_hexadecimal a.word)

theorem nul_notMem_rendered (ps : List Piece) : 0 ∉ rendered ps := by
  intro h
  obtain ⟨p, -, hp⟩ := List.mem_flatMap.mp h
  exact nul_notMem_render p hp

/-- A clean format whose text fits in the buffer is sent as it should be printed, whatever was in the buffer. -/
theorem printk_clean (after : ℕ → Byte) (rest : VaList) (hclean : Clean 0 ps) (hfits : (rendered ps).length < 256)
    (hf : 256 ≤ fuel) (k : Console) : ∃ k', printk fuel (formatOf ps after) (argsOf ps rest) k =
      some (BitVec.ofNat 32 (rendered ps).length, k') ∧ k'.sent = k.sent ++ crlf (rendered ps) := by
  have hsize : (rendered ps).length < VSNPRINTF_BUF_SIZE.toNat := hfits
  obtain ⟨htext, hnul, hlen⟩ := correct_of_clean k.vsnprintfBuf after rest hsize hclean
  let s := vsnprintf k.vsnprintfBuf VSNPRINTF_BUF_SIZE (formatOf ps after) (argsOf ps rest)
  have hloop : sendLoop fuel (BitVec.ofNat 32 0) (coVsnprintf (formatOf ps after) (argsOf ps rest) k) =
      some ⟨s.out.mem, s.strPos, k.sent ++ crlf (rendered ps)⟩ := by
    refine sendLoop_eq (fun j hj => ?_) ?_ (nul_notMem_rendered ps) (Nat.lt_of_lt_of_le hfits hf)
    · rw [Nat.zero_add]
      exact htext j hj
    · rw [Nat.zero_add]
      exact hnul
  have hret : s.strPos = BitVec.ofNat 32 (rendered ps).length :=
    BitVec.eq_of_toNat_eq (hlen.trans (by rw [BitVec.toNat_ofNat, Nat.mod_eq_of_lt (by omega)]))
  refine ⟨⟨s.out.mem, s.strPos, k.sent ++ crlf (rendered ps)⟩, ?_, rfl⟩
  rw [← hret]
  exact congrArg (Option.map fun k : Console => (k.retval, k)) hloop

/-- A format of clean pieces. -/
theorem print_pieces {format : String} {args : List Arg} (x : Linked)
    (htext : (literal format).text = ps.flatMap Piece.text) (hargs : args = ps.flatMap Piece.args)
    (hclean : Clean 0 ps)
    (hfits : (rendered ps).length < 256) (hf : 256 ≤ fuel) (k : Console) :
    ∃ k', x.print fuel format args k = some k' ∧ k'.sent = k.sent ++ crlf (rendered ps) := by
  obtain ⟨k', hk, hsent⟩ := printk_clean (x.after format) (x.rest format) hclean hfits hf k
  have hformat : (⟨literal format, x.after format⟩ : Libc.Printf.Format) = formatOf ps (x.after format) := by
    have hcs : literal format = (formatOf ps (x.after format)).toCString := by
      cases hl : literal format
      rw [hl] at htext
      subst htext
      rfl
    rw [hcs]
    rfl
  subst hargs
  refine ⟨k', ?_, hsent⟩
  rw [Linked.print, hformat]
  exact congrArg (Option.map Prod.snd) hk

end PikoRT.Kernel.Printk

import PikoRT.Libc.Printf

/-! # The shell (`user/sh.c`)

`readline` edits the line in place, one byte of input at a time, and `exec_command` cuts
a submitted line into arguments. Addresses are offsets from `buf_line`; what lies around
the buffer can be anything. -/
namespace PikoRT.User.Shell
open PikoRT.Libc.Printf (Byte ch itoaBase)

def ARG_COUNT_MAX : ℕ := 8
def BUF_LINE_LEN : ℕ := 128

def ASCII_BACKSPACE : Byte := 8
def ASCII_CARRIAGE_RETURN : Byte := 13
def ASCII_ESCAPE : Byte := 27
def ASCII_DELETE : Byte := 127

abbrev Buf := ℤ → Byte

def literal (s : String) : List Byte := s.toList.map ch

def ESC_SEQ_ERASE_LINE : List Byte := ASCII_ESCAPE :: literal "[K"
def TERM_PROMPT : List Byte := literal "$ "
def TERM_CMD_NOT_FOUND : List Byte := literal "command not found: "
def TERM_CRLF : List Byte := [13, 10]

/-- The characters from `p` up to a NUL. The first argument bounds their number. -/
def cstring : ℕ → Buf → ℤ → Option (List Byte)
  | 0, _, _ => none
  | n + 1, buf, p => if buf p = 0 then some [] else (cstring n buf (p + 1)).map (buf p :: ·)

def strlen (fuel : ℕ) (buf : Buf) (p : ℤ) : Option ℕ := (cstring fuel buf p).map List.length

/-- The text stands at `p`, with a NUL behind it. -/
def TextAt (buf : Buf) (p : ℤ) : List Byte → Prop
  | [] => buf p = 0
  | c :: text => c ≠ 0 ∧ buf p = c ∧ TextAt buf (p + 1) text

/-! ## Commands -/

structure Args where
  buf : Buf
  argc : ℕ
  argv : ℕ → ℤ
  /-- The indices of `argv` that were written, the last one first. -/
  written : List ℕ

/-- `argv[argc++] = p`. -/
def Args.push (p : ℤ) (a : Args) : Args :=
  { a with argc := a.argc + 1, argv := Function.update a.argv a.argc p, written := a.argc :: a.written }

def skipSpaces : ℕ → Buf → ℤ → Option ℤ
  | 0, _, _ => none
  | n + 1, buf, i => if buf i = ch ' ' then skipSpaces n buf (i + 1) else some i

/-- The `for` loop from `i` on. The fuel bounds its iterations and those of the `while`. -/
def parseLoop (buflen : ℕ) : ℕ → ℤ → Args → Option Args
  | 0, _, _ => none
  | n + 1, i, a =>
    if i < buflen then
      if a.buf i = ch ' ' then
        let buf := Function.update a.buf i 0
        (skipSpaces n buf (i + 1)).bind fun i => parseLoop buflen n (i + 1) ({ a with buf := buf }.push i)
      else parseLoop buflen n (i + 1) a
    else some a

def parseCommandLine (fuel : ℕ) (buf : Buf) (argv : ℕ → ℤ) : Option Args :=
  (strlen fuel buf 0).bind fun buflen =>
    parseLoop buflen fuel 0 ⟨buf, 1, Function.update argv 0 0, [0]⟩

/-- A command by its name and by what it leaves in memory and writes. -/
structure ShellCmd where
  name : Libc.Printf.CString
  func : Args → Buf × List Byte

/-- The commands are those of the section; `argv` is what is on the stack. -/
def execCommand (fuel : ℕ) (commands : List ShellCmd) (argv : ℕ → ℤ) (buf : Buf) : Option (Buf × List Byte) :=
  (parseCommandLine fuel buf argv).bind fun a =>
    (cstring fuel a.buf (a.argv 0)).bind fun argv0 =>
      match commands.find? fun cmd => cmd.name.text = argv0 with
      | some cmd => some (cmd.func a)
      | none => (cstring fuel a.buf 0).map fun text => (a.buf, TERM_CMD_NOT_FOUND ++ text ++ TERM_CRLF)

/-! ## The line -/

/-- Which `read` of `readline` takes the next byte. -/
inductive Place where
  | first
  | escape
  | bracket
  deriving DecidableEq

structure State where
  place : Place
  cur : ℤ
  curEol : ℤ
  bufLine : Buf
  /-- The indices of `buf_line` that were written, the last one first. -/
  written : List ℤ
  /-- The buffer as each call of `exec_command` got it, the last one first. -/
  executed : List Buf
  output : List Byte

/-- `exec_command` by what it leaves in memory and writes, given the buffers of this call
and of those before. Where it does not come back no byte is read any more. -/
abbrev Exec := List Buf → Buf × List Byte

def State.write (text : List Byte) (s : State) : State := { s with output := s.output ++ text }

/-- `buf_line[i] = c`. -/
def State.store (i : ℤ) (c : Byte) (s : State) : State :=
  { s with bufLine := Function.update s.bufLine i c, written := i :: s.written }

/-- `write(fd, &buf_line[p], strlen(&buf_line[p]))`. -/
def State.echo (fuel : ℕ) (p : ℤ) (s : State) : Option State :=
  (cstring fuel s.bufLine p).map fun text => s.write text

def cursorBackward (n : ℤ) (s : State) : State :=
  if 0 < n then s.write (ASCII_ESCAPE :: ch '[' :: itoaBase (BitVec.ofInt 32 n) 10 ++ [ch 'D']) else s

def submit (exec : Exec) (s : State) : State :=
  let s := s.write TERM_CRLF
  let s :=
    if s.curEol > 0 then
      let r := exec (s.bufLine :: s.executed)
      { s.write r.2 with bufLine := r.1, executed := s.bufLine :: s.executed, cur := 0, curEol := 0 }
    else s
  s.write TERM_PROMPT

/-- `buf_line[i - 1] = buf_line[i]`, upwards from `i`. -/
def shiftLeft : ℕ → ℤ → State → State
  | 0, _, s => s
  | n + 1, i, s => shiftLeft n (i + 1) (s.store (i - 1) (s.bufLine i))

def delete (fuel : ℕ) (s : State) : Option State :=
  if s.cur > 0 then
    let s := if s.cur < s.curEol then shiftLeft (s.curEol - s.cur + 1).toNat s.cur s else s
    let s := { s with curEol := s.curEol - 1 }
    let s := s.store s.curEol 0
    let s := { s with cur := s.cur - 1 }
    let s := (cursorBackward 1 s).write ESC_SEQ_ERASE_LINE
    (s.echo fuel s.cur).map fun s => cursorBackward (s.curEol - s.cur) s
  else some s

/-- `buf_line[i + 1] = buf_line[i]`, downwards from `i`. -/
def shiftRight : ℕ → ℤ → State → State
  | 0, _, s => s
  | n + 1, i, s => shiftRight n (i - 1) (s.store (i + 1) (s.bufLine i))

def insert (fuel : ℕ) (c : Byte) (s : State) : Option State :=
  let s := if s.cur < s.curEol then shiftRight (s.curEol - s.cur + 1).toNat s.curEol s else s
  let s := { s.store s.cur c with cur := s.cur + 1 }
  let s := { s with curEol := s.curEol + 1 }
  let s := s.store s.curEol 0
  (s.echo fuel (s.cur - 1)).map fun s => cursorBackward (s.curEol - s.cur) s

/-- The letter of an escape sequence; the others are reported to the kernel's console. -/
def arrow (c : Byte) (s : State) : State :=
  if c = ch 'C' then
    if s.cur < s.curEol then { s with cur := s.cur + 1 }.write (ASCII_ESCAPE :: literal "[C") else s
  else if c = ch 'D' then
    if s.cur > 0 then { s with cur := s.cur - 1 }.write (ASCII_ESCAPE :: literal "[D") else s
  else s

/-- `readline`, from one `read` to the next. -/
def readline (fuel : ℕ) (exec : Exec) (s : State) (c : Byte) : Option State :=
  match s.place with
  | .first =>
    if c = ASCII_CARRIAGE_RETURN then some (submit exec s)
    else if c = ASCII_BACKSPACE ∨ c = ASCII_DELETE then delete fuel s
    else if ch ' ' ≤ c ∧ c ≤ ch '~' then insert fuel c s
    else if c = ASCII_ESCAPE then some { s with place := .escape }
    else some s
  | .escape => some { s with place := if c = ch '[' then .bracket else .first }
  | .bracket => some (arrow c { s with place := .first })

/-- `minishell` before its loop. The static variables are zero. -/
def minishell (mem : Buf) : State :=
  ⟨.first, 0, 0, fun i => if 0 ≤ i ∧ i < BUF_LINE_LEN then 0 else mem i, [], [], TERM_PROMPT⟩

/-! ## Strings in memory -/

section

variable {buf buf' : Buf} {p : ℤ} {text : List Byte}

theorem cstring_eq {fuel : ℕ} (h : TextAt buf p text) (hf : text.length < fuel) : cstring fuel buf p = some text := by
  induction text generalizing p fuel with
  | nil =>
    obtain ⟨n, rfl⟩ := Nat.exists_eq_succ_of_ne_zero (Nat.ne_zero_of_lt hf)
    exact if_pos h
  | cons c text ih =>
    obtain ⟨n, rfl⟩ := Nat.exists_eq_succ_of_ne_zero (Nat.ne_zero_of_lt hf)
    obtain ⟨hc, hp, ht⟩ := h
    rw [cstring, if_neg (by rwa [hp]), ih ht (Nat.lt_of_succ_lt_succ hf), hp]
    rfl

theorem TextAt.unique {text' : List Byte} (h : TextAt buf p text) (h' : TextAt buf p text') : text = text' := by
  have hs := cstring_eq h (Nat.lt_add_right text'.length (Nat.lt_succ_self _))
  have hs' : cstring (text.length + 1 + text'.length) buf p = some text' := cstring_eq h' (by omega)
  rw [hs] at hs'
  exact Option.some.inj hs'

theorem TextAt.congr (h : TextAt buf p text) (hb : ∀ q, p ≤ q → buf' q = buf q) : TextAt buf' p text := by
  induction text generalizing p with
  | nil => exact (hb p le_rfl).trans h
  | cons c text ih => exact ⟨h.1, (hb p le_rfl).trans h.2.1, ih h.2.2 fun q hq => hb q (by omega)⟩

theorem TextAt.drop (h : TextAt buf p text) {k : ℕ} (hk : k ≤ text.length) : TextAt buf (p + k) (text.drop k) := by
  induction k generalizing p text with
  | zero => simpa using h
  | succ k ih =>
    cases text with
    | nil => simp at hk
    | cons c text =>
      have := ih h.2.2 (Nat.le_of_succ_le_succ hk)
      rwa [add_assoc, add_comm 1 (k : ℤ)] at this

theorem textAt_iff : TextAt buf p text ↔
    (∀ (k : ℕ) c, text[k]? = some c → buf (p + k) = c) ∧ buf (p + text.length) = 0 ∧ 0 ∉ text := by
  induction text generalizing p with
  | nil => simp [TextAt]
  | cons c text ih =>
    have hshift (k : ℕ) : p + 1 + (k : ℤ) = p + (k + 1 : ℕ) := by omega
    simp only [TextAt, ih, hshift, List.length_cons, List.mem_cons, not_or]
    constructor
    · intro ⟨hc, hp, hs, hn, h0⟩
      refine ⟨?_, hn, Ne.symm hc, h0⟩
      intro k d hk
      cases k with
      | zero => simpa [hp] using hk
      | succ k => exact hs k d hk
    · intro ⟨hs, hn, hc, h0⟩
      exact ⟨Ne.symm hc, by simpa using hs 0 c rfl, fun k d hk => hs (k + 1) d hk, hn, h0⟩

/-- Memory in which the text stands at 0. -/
def memoryOf (text : List Byte) : Buf := fun i => text.getD i.toNat 0

theorem textAt_memoryOf (h : 0 ∉ text) : TextAt (memoryOf text) 0 text := by
  refine textAt_iff.mpr ⟨?_, ?_, h⟩
  · intro k c hk
    simp [memoryOf, hk]
  · simp [memoryOf]

end

end PikoRT.User.Shell

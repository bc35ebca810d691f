import PikoRT.Kernel.Bitops

/-! # Formatted output (`libc/stdio.c`, `libc/utils.c`)

`vsnprintf` as the source has it: one position in the destination, a padding character
and a padding count that live across directives, and a look-ahead of up to three
characters. The destination is the memory from `str` on, addressed by offsets that wrap
around as `size_t` does; the model notes which offsets are written and which indices of
the format are read. A `char` is unsigned. -/
namespace PikoRT.Libc.Printf
open PikoRT.Kernel.Bitops

abbrev Byte := BitVec 8

/-- A character of the source text. -/
def ch (c : Char) : Byte := BitVec.ofNat 8 c.toNat

/-- A string in memory, without its terminating NUL. -/
structure CString where
  text : List Byte
  noNul : 0 ∉ text

/-- A string up to the first NUL. -/
def ofBytes (bs : List Byte) : CString where
  text := bs.takeWhile fun c => decide (c ≠ 0)
  noNul h := by simpa using List.mem_takeWhile_imp h

theorem ofBytes_text {bs : List Byte} (h : 0 ∉ bs) : (ofBytes bs).text = bs := by
  refine List.takeWhile_eq_self_iff.mpr fun c hc => decide_eq_true ?_
  rintro rfl
  exact h hc

def CString.strlen (s : CString) : ℕ := s.text.length

/-- A format and the memory behind its NUL. -/
structure Format extends CString where
  after : ℕ → Byte

/-- `format[i]`. -/
def Format.get (format : Format) (i : ℕ) : Byte :=
  if i < format.strlen then format.text.getD i 0
  else if i = format.strlen then 0
  else format.after (i - format.strlen - 1)

/-- A word that `va_arg` returns, and the string at that address if it is a pointer to
one. -/
structure Arg where
  word : Word
  pointee : CString

/-- The words that `va_arg` walks over. -/
abbrev VaList := ℕ → Arg

/-! ## The destination -/

structure Out where
  mem : Word → Byte
  /-- The offsets that were written, the last one first. -/
  writes : List Word

def Out.put (i : Word) (c : Byte) (o : Out) : Out := ⟨Function.update o.mem i c, i :: o.writes⟩

def strcpy (i : Word) : List Byte → Out → Out
  | [], o => o.put i 0
  | c :: s, o => strcpy (i + 1) s (o.put i c)

/-- The loop of `strpad`, from `count - 1` down to 0. -/
def padLoop (i : Word) (padVal : Byte) : ℕ → Out → Out
  | 0, o => o
  | count + 1, o => padLoop i padVal count (o.put (i + BitVec.ofNat 32 count) padVal)

def strpad (i : Word) (padVal : Byte) (count : ℤ) (o : Out) : Out :=
  padLoop i padVal count.toNat (o.put (i + BitVec.ofInt 32 count) 0)

/-! ## Numbers -/

/-- `t` moves forward, `u` moves backward. The first argument bounds the iterations. -/
def strrevLoop : ℕ → ℕ → ℕ → List Byte → List Byte
  | 0, _, _, s => s
  | n + 1, t, u, s =>
    if t < u then strrevLoop n (t + 1) (u - 1) ((s.set t (s.getD u 0)).set u (s.getD t 0)) else s

def strrev (s : List Byte) : List Byte :=
  if s = [] then s else strrevLoop s.length 0 (s.length - 1) s

def base36 : List Byte := "0123456789abcdefghijklmnopqrstuvwxyz".toList.map ch

/-- The `do ... while` loop of `itoa_base`; a word has at most 32 digits. -/
def itoaLoop (base : ℕ) : ℕ → ℕ → List Byte
  | 0, _ => []
  | n + 1, val => base36.getD (val % base) 0 :: if val / base = 0 then [] else itoaLoop base n (val / base)

/-- The contents of `buf`. `abs(INT_MIN)` is the same word. -/
def itoaBase (value : Word) (base : ℕ) : List Byte :=
  if value.toInt < 0 ∧ base = 10 then strrev (itoaLoop base 32 value.toInt.natAbs ++ [ch '-'])
  else strrev (itoaLoop base 32 value.toNat)

/-! ## The loop -/

structure State where
  i : ℕ
  strPos : Word
  padChar : Byte
  padCount : ℤ
  /-- How many arguments were taken. -/
  ap : ℕ
  out : Out
  /-- The indices of the format that were read, the last one first. -/
  reads : List ℕ

def State.read (i : ℕ) (s : State) : State := { s with reads := i :: s.reads }

/-- `str[str_pos++] = c`. -/
def putChar (c : Byte) (s : State) : State :=
  { s with out := s.out.put s.strPos c, strPos := s.strPos + 1 }

/-- `strcpy` to the position, which moves behind the text. -/
def putText (text : List Byte) (s : State) : State :=
  { s with out := strcpy s.strPos text s.out, strPos := s.strPos + BitVec.ofNat 32 text.length }

/-- From `print_num` on. -/
def printNum (itoaBuf : List Byte) (s : State) : State :=
  let s :=
    if s.padCount ≠ 0 then
      let padCount := s.padCount - itoaBuf.length
      { s with
        padCount := padCount
        out := strpad s.strPos s.padChar padCount s.out
        strPos := s.strPos + BitVec.ofInt 32 padCount }
    else s
  putText itoaBuf s

/-- `print_dec` and `print_hex`. -/
def printBase (base : ℕ) (ap : VaList) (s : State) : State :=
  printNum (itoaBase (ap s.ap).word base) { s with ap := s.ap + 1 }

def ordinaryChar (format : Format) (s : State) : State := putChar (format.get s.i) (s.read s.i)

/-- The `switch`, and the `i++` behind it. -/
def conversion (format : Format) (ap : VaList) (s : State) : State :=
  let c := format.get (s.i + 1)
  let s := s.read (s.i + 1)
  if c = ch 'p' then
    let s := putText [ch '0', ch 'x'] s
    let s := printBase 16 ap { s with padChar := ch '0', padCount := 8 }
    { s with i := s.i + 1 }
  else if c = ch 'd' then
    let s := printBase 10 ap s
    { s with i := s.i + 1 }
  else if c = ch 'x' then
    let s := printBase 16 ap s
    { s with i := s.i + 1 }
  else if c = ch 's' then
    let s := putText (ap s.ap).pointee.text { s with ap := s.ap + 1 }
    { s with i := s.i + 1 }
  else ordinaryChar format s

/-- `c - '0'`. -/
def digitVal (c : Byte) : ℤ := (c.toNat : ℤ) - (ch '0').toNat

/-- `format[i]` is a per cent sign. -/
def directive (format : Format) (ap : VaList) (s : State) : State :=
  let s := s.read (s.i + 1)
  let c := format.get (s.i + 1)
  if c = ch '%' then
    let s := putChar (ch '%') s
    { s with i := s.i + 1 }
  else if ch '0' ≤ c ∧ c ≤ ch '9' ∧ format.get (s.i + 2) = ch 'd' then
    let s := s.read (s.i + 2)
    let s := printBase 10 ap { s with padChar := ch ' ', padCount := digitVal c, i := s.i + 1 }
    { s with i := s.i + 1 }
  else
    -- the digit makes the code look for the `d`
    let s := if ch '0' ≤ c ∧ c ≤ ch '9' then s.read (s.i + 2) else s
    if c = ch ' ' ∨ c = ch '0' then
      let s := s.read (s.i + 2)
      conversion format ap { s with padChar := c, padCount := digitVal (format.get (s.i + 2)), i := s.i + 2 }
    else conversion format ap s

def iteration (format : Format) (ap : VaList) (s : State) : State :=
  let s := s.read s.i
  if format.get s.i = ch '%' then directive format ap s else ordinaryChar format s

/-- The loop, with a bound on the iterations: each of them moves forward in the format. -/
def loop (size : Word) (format : Format) (ap : VaList) : ℕ → State → State
  | 0, s => s
  | n + 1, s =>
    if s.i < format.strlen ∧ s.strPos < size then
      let s := iteration format ap s
      loop size format ap n { s with i := s.i + 1 }
    else s

/-- The call of `strlen(format)` reads up to the NUL. -/
def start (mem : Word → Byte) (format : Format) : State :=
  ⟨0, 0, 0, 0, 0, ⟨mem, []⟩, List.range (format.strlen + 1)⟩

/-- The state at the end; `strPos` is what is returned. -/
def vsnprintf (mem : Word → Byte) (size : Word) (format : Format) (ap : VaList) : State :=
  let s := loop size format ap format.strlen (start mem format)
  { s with out := s.out.put s.strPos 0 }

end PikoRT.Libc.Printf

import PikoRT.Libc.Printf

/-! # The bound of `vsnprintf`

The loop compares the position with `size` once for each directive, and the terminating
NUL is written wherever the loop ends. So the bound is kept exactly when every piece of
text, with the NUL behind it, fits into what is left: nothing is truncated. A number that
is longer than the padding count in force is written further back, and a format that ends
in `%0` or in a per cent sign and a blank is read behind its NUL.

A format is cut into tokens, one for each iteration, without looking at the destination;
`Fits` says what has to have room, token by token. -/
namespace PikoRT.Libc.PrintfBound
open PikoRT.Kernel.Bitops PikoRT.Libc.Printf

/-! ## Tokens -/

/-- What one iteration prints. -/
inductive Kind where
  | char (c : Byte)
  | num (base : ℕ)
  | ptr
  | str
  deriving DecidableEq

/-- One iteration: the padding that it sets, what it prints, where the next one starts
and the indices it reads. -/
structure Token where
  pad : Option (Byte × ℤ)
  kind : Kind
  next : ℕ
  reads : List ℕ

def scanConversion (format : Format) (i : ℕ) (pad : Option (Byte × ℤ)) (reads : List ℕ) : Token :=
  let c := format.get (i + 1)
  let reads := (i + 1) :: reads
  if c = ch 'p' then ⟨pad, .ptr, i + 2, reads⟩
  else if c = ch 'd' then ⟨pad, .num 10, i + 2, reads⟩
  else if c = ch 'x' then ⟨pad, .num 16, i + 2, reads⟩
  else if c = ch 's' then ⟨pad, .str, i + 2, reads⟩
  else ⟨pad, .char (format.get i), i + 1, i :: reads⟩

/-- The token at index `i`. -/
def scan (format : Format) (i : ℕ) : Token :=
  if format.get i = ch '%' then
    let c := format.get (i + 1)
    if c = ch '%' then ⟨none, .char (ch '%'), i + 2, [i + 1, i]⟩
    else if ch '0' ≤ c ∧ c ≤ ch '9' ∧ format.get (i + 2) = ch 'd' then
      ⟨some (ch ' ', digitVal c), .num 10, i + 3, [i + 2, i + 1, i]⟩
    else
      let reads := if ch '0' ≤ c ∧ c ≤ ch '9' then [i + 2, i + 1, i] else [i + 1, i]
      if c = ch ' ' ∨ c = ch '0' then
        scanConversion format (i + 2) (some (c, digitVal (format.get (i + 2)))) ((i + 2) :: reads)
      else scanConversion format i none reads
  else ⟨none, .char (format.get i), i + 1, [i, i]⟩

/-- The tokens from index `i` on, at most `n` of them. -/
def tokens (format : Format) : ℕ → ℕ → List Token
  | 0, _ => []
  | n + 1, i => if i < format.strlen then scan format i :: tokens format n (scan format i).next else []

def setPad (pad : Option (Byte × ℤ)) (s : State) : State :=
  match pad with
  | some (c, n) => { s with padChar := c, padCount := n }
  | none => s

/-- An iteration, for the token it meets. -/
def exec (ap : VaList) (t : Token) (s : State) : State :=
  let s := setPad t.pad s
  match t.kind with
  | .char c => putChar c s
  | .num base => printBase base ap s
  | .ptr => printBase 16 ap { putText [ch '0', ch 'x'] s with padChar := ch '0', padCount := 8 }
  | .str => putText (ap s.ap).pointee.text { s with ap := s.ap + 1 }

section

variable {format : Format} {ap : VaList} {size : Word} {s : State} {o : Out}

/-- The padding count behind a number. -/
def padBehind (len : ℕ) (padCount : ℤ) : ℤ := if padCount ≠ 0 then padCount - len else 0

/-- The padding of a number, if any. -/
def padOut (len : ℕ) (p : Word) (padChar : Byte) (padCount : ℤ) (o : Out) : Out :=
  if padCount ≠ 0 then strpad p padChar (padCount - len) o else o

/-- Where the digits of a number begin. -/
def digitsAt (len : ℕ) (p : Word) (padCount : ℤ) : Word := p + BitVec.ofInt 32 (padBehind len padCount)

theorem printNum_eq (buf : List Byte) (s : State) :
    printNum buf s = { s with
      padCount := padBehind buf.length s.padCount
      strPos := digitsAt buf.length s.strPos s.padCount + BitVec.ofNat 32 buf.length
      out := strcpy (digitsAt buf.length s.strPos s.padCount) buf
        (padOut buf.length s.strPos s.padChar s.padCount s.out) } := by
  unfold printNum digitsAt padOut padBehind
  by_cases h : s.padCount ≠ 0
  · simp only [if_pos h]
    rfl
  · have hzero : s.padCount = 0 := not_not.mp h
    simp only [hzero]
    simp [putText, hzero]

/-- The same state at another index. -/
def moved (i : ℕ) (reads : List ℕ) (s : State) : State := { s with i := i, reads := reads }

theorem conversion_eq (format : Format) (ap : VaList) (pad : Option (Byte × ℤ)) (i : ℕ) (reads : List ℕ) (s : State) :
    let r := conversion format ap (moved i reads (setPad pad s))
    let t := scanConversion format i pad reads
    { r with i := r.i + 1 } = moved t.next t.reads (exec ap t s) := by
  unfold conversion scanConversion exec printBase
  simp only [printNum_eq]
  by_cases hp : format.get (i + 1) = ch 'p'
  · simp only [moved, hp, ↓reduceIte]
    rfl
  by_cases hd : format.get (i + 1) = ch 'd'
  · simp only [moved, hd, ↓reduceIte]
    rfl
  by_cases hx : format.get (i + 1) = ch 'x'
  · simp only [moved, hx, ↓reduceIte]
    rfl
  by_cases hs : format.get (i + 1) = ch 's'
  · simp only [moved, hs, ↓reduceIte]
    rfl
  · simp only [moved, hp, hd, hx, hs, ↓reduceIte]
    rfl

theorem scanConversion_append (i : ℕ) (pad : Option (Byte × ℤ)) (r r' : List ℕ) :
    scanConversion format i pad (r ++ r') =
      { scanConversion format i pad r with reads := (scanConversion format i pad r).reads ++ r' } := by
  unfold scanConversion
  dsimp only
  split
  · rfl
  split
  · rfl
  split
  · rfl
  split
  · rfl
  · rfl

/-- The indices that were read before do not matter. -/
theorem conversion_append (format : Format) (ap : VaList) (pad : Option (Byte × ℤ)) (i : ℕ) (reads : List ℕ)
    (s : State) :
    let r := conversion format ap (moved i (reads ++ s.reads) (setPad pad s))
    let t := scanConversion format i pad reads
    { r with i := r.i + 1 } = moved t.next (t.reads ++ s.reads) (exec ap t s) := by
  have h := conversion_eq format ap pad i (reads ++ s.reads) s
  simp only [scanConversion_append i pad reads s.reads] at h
  exact h

/-- **An iteration** does what its token says. -/
theorem iteration_eq (format : Format) (ap : VaList) (s : State) :
    let r := iteration format ap s
    let t := scan format s.i
    { r with i := r.i + 1 } = moved t.next (t.reads ++ s.reads) (exec ap t s) := by
  unfold iteration scan
  by_cases hpercent : format.get s.i = ch '%'
  · simp only [State.read, hpercent, ↓reduceIte]
    unfold directive
    generalize hc : format.get (s.i + 1) = c
    by_cases htwo : c = ch '%'
    · simp only [State.read, hc, htwo, ↓reduceIte]
      rfl
    by_cases hdec : ch '0' ≤ c ∧ c ≤ ch '9' ∧ format.get (s.i + 2) = ch 'd'
    · simp only [State.read, hc, htwo, hdec, ↓reduceIte, and_self, printBase, exec, printNum_eq]
      rfl
    by_cases hdigit : ch '0' ≤ c ∧ c ≤ ch '9'
    · have hd : format.get (s.i + 2) ≠ ch 'd' := fun h => hdec ⟨hdigit.1, hdigit.2, h⟩
      by_cases hpad : c = ch ' ' ∨ c = ch '0'
      · simp only [State.read, hc, htwo, hd, hdigit, hpad, ↓reduceIte, and_self, and_false]
        exact conversion_append format ap (some (c, digitVal (format.get (s.i + 2)))) (s.i + 2)
          [s.i + 2, s.i + 2, s.i + 1, s.i] s
      · simp only [State.read, hc, htwo, hd, hdigit, hpad, ↓reduceIte, and_self, and_false]
        exact conversion_append format ap none s.i [s.i + 2, s.i + 1, s.i] s
    · by_cases hpad : c = ch ' ' ∨ c = ch '0'
      · simp only [State.read, hc, htwo, hdec, hdigit, hpad, ↓reduceIte]
        exact conversion_append format ap (some (c, digitVal (format.get (s.i + 2)))) (s.i + 2)
          [s.i + 2, s.i + 1, s.i] s
      · simp only [State.read, hc, htwo, hdec, hdigit, hpad, ↓reduceIte]
        exact conversion_append format ap none s.i [s.i + 1, s.i] s
  · simp only [State.read, hpercent, ↓reduceIte]
    rfl

/-! ## What fits -/

def Within (size : Word) (o : Out) : Prop := ∀ w ∈ o.writes, w < size

theorem within_put {i : Word} {c : Byte} : Within size (o.put i c) ↔ i < size ∧ Within size o :=
  List.forall_mem_cons

/-- A text is inside if its NUL is. -/
theorem within_strcpy (i : Word) (text : List Byte) (o : Out) :
    Within size (strcpy i text o) ↔ i.toNat + text.length < size.toNat ∧ Within size o := by
  have hsize := size.isLt
  induction text generalizing i o with
  | nil => exact within_put
  | cons c text ih =>
    refine (ih (i + 1) (o.put i c)).trans ?_
    rw [within_put, List.length_cons, ← and_assoc]
    refine and_congr_left fun _ => ?_
    rw [BitVec.lt_def, BitVec.toNat_add]
    have hi := i.isLt
    have hone : (1 : Word).toNat = 1 := rfl
    omega

theorem within_padLoop {i : Word} (hi : i < size) (c : Byte) (n : ℕ) (o : Out) :
    Within size (padLoop i c n o) ↔ i.toNat + n ≤ size.toNat ∧ Within size o := by
  have hsize := size.isLt
  have hlt : i.toNat < size.toNat := hi
  induction n generalizing o with
  | zero => exact (and_iff_right (by omega)).symm
  | succ n ih =>
    refine (ih (o.put _ c)).trans ?_
    rw [within_put, ← and_assoc]
    refine and_congr_left fun _ => ?_
    rw [BitVec.lt_def, BitVec.toNat_add, BitVec.toNat_ofNat]
    constructor
    · rintro ⟨hn, hput⟩
      omega
    · intro hn
      omega

theorem within_strpad {i : Word} (hi : i < size) (c : Byte) (count : ℤ) (o : Out) :
    Within size (strpad i c count o) ↔
      i.toNat + count.toNat ≤ size.toNat ∧ i + BitVec.ofInt 32 count < size ∧ Within size o := by
  rw [strpad, within_padLoop hi, within_put]

theorem within_of_padLoop {i : Word} {c : Byte} {n : ℕ} (h : Within size (padLoop i c n o)) : Within size o := by
  induction n generalizing o with
  | zero => exact h
  | succ n ih => exact (within_put.mp (ih h)).2

/-- A position in the destination, the padding count in force and the next argument. -/
structure Cursor where
  pos : Word
  pad : ℤ
  taken : ℕ

def cursor (s : State) : Cursor := ⟨s.strPos, s.padCount, s.ap⟩

/-- The padding count in force. -/
def padOf (pad : Option (Byte × ℤ)) (padCount : ℤ) : ℤ := (pad.map Prod.snd).getD padCount

/-- The padding of a number fits, and its digits with the NUL behind them do. -/
def NumFits (size : Word) (len : ℕ) (p : Word) (pad : ℤ) : Prop :=
  p.toNat + (padBehind len pad).toNat ≤ size.toNat ∧ (digitsAt len p pad).toNat + len < size.toNat

/-- What one token writes fits. -/
def TokenFits (size : Word) (ap : VaList) (t : Token) (c : Cursor) : Prop :=
  match t.kind with
  | .char _ => True
  | .num base => NumFits size (itoaBase (ap c.taken).word base).length c.pos (padOf t.pad c.pad)
  | .ptr => c.pos.toNat + 2 < size.toNat ∧ NumFits size (itoaBase (ap c.taken).word 16).length (c.pos + 2) 8
  | .str => c.pos.toNat + (ap c.taken).pointee.strlen < size.toNat

/-- Behind a number. -/
def behind (len : ℕ) (c : Cursor) : Cursor :=
  ⟨digitsAt len c.pos c.pad + BitVec.ofNat 32 len, padBehind len c.pad, c.taken + 1⟩

def advance (ap : VaList) (t : Token) (c : Cursor) : Cursor :=
  match t.kind with
  | .char _ => ⟨c.pos + 1, padOf t.pad c.pad, c.taken⟩
  | .num base => behind (itoaBase (ap c.taken).word base).length ⟨c.pos, padOf t.pad c.pad, c.taken⟩
  | .ptr => behind (itoaBase (ap c.taken).word 16).length ⟨c.pos + 2, 8, c.taken⟩
  | .str => ⟨c.pos + BitVec.ofNat 32 (ap c.taken).pointee.strlen, padOf t.pad c.pad, c.taken + 1⟩

/-- Every token finds its room, the NUL at the end does, and no token is read across the
NUL of the format. -/
def Fits (size : Word) (format : Format) (ap : VaList) : List Token → Cursor → Prop
  | [], c => c.pos < size
  | t :: ts, c => c.pos < size ∧ (∀ r ∈ t.reads, r ≤ format.strlen) ∧ TokenFits size ap t c ∧
      Fits size format ap ts (advance ap t c)

theorem setPad_fields (pad : Option (Byte × ℤ)) (s : State) :
    (setPad pad s).strPos = s.strPos ∧ (setPad pad s).padCount = padOf pad s.padCount ∧ (setPad pad s).ap = s.ap ∧
      (setPad pad s).out = s.out := by
  unfold setPad padOf
  cases pad with
  | none => exact ⟨rfl, rfl, rfl, rfl⟩
  | some p => exact ⟨rfl, rfl, rfl, rfl⟩

theorem cursor_exec (t : Token) (s : State) : cursor (exec ap t s) = advance ap t (cursor s) := by
  obtain ⟨hpos, hpad, hap, -⟩ := setPad_fields t.pad s
  unfold exec advance
  cases t.kind with
  | char c => simp only [cursor, putChar, hpos, hpad, hap]
  | num base => simp only [cursor, printBase, printNum_eq, behind, hpos, hpad, hap]
  | ptr => simp only [cursor, printBase, printNum_eq, behind, putText, hpos, hap]; rfl
  | str => simp only [cursor, putText, hpos, hpad, hap]; rfl

theorem within_printBase (ap : VaList) (base : ℕ) (s : State) (hp : s.strPos < size) :
    Within size (printBase base ap s).out ↔
      NumFits size (itoaBase (ap s.ap).word base).length s.strPos s.padCount ∧ Within size s.out := by
  simp only [printBase, printNum_eq, within_strcpy]
  generalize (itoaBase (ap s.ap).word base).length = len
  have hpos : s.strPos.toNat < size.toNat := hp
  unfold padOut NumFits
  by_cases hzero : s.padCount ≠ 0
  · rw [if_pos hzero, within_strpad hp]
    have hpad : padBehind len s.padCount = s.padCount - len := if_pos hzero
    have hat : digitsAt len s.strPos s.padCount = s.strPos + BitVec.ofInt 32 (s.padCount - len) := by
      rw [digitsAt, hpad]
    rw [hpad, hat, BitVec.lt_def]
    constructor
    · rintro ⟨hdigits, hroom, -, hout⟩
      exact ⟨⟨hroom, hdigits⟩, hout⟩
    · rintro ⟨⟨hroom, hdigits⟩, hout⟩
      exact ⟨hdigits, hroom, by omega, hout⟩
  · rw [if_neg hzero]
    have hpad : padBehind len s.padCount = 0 := if_neg hzero
    rw [hpad]
    refine and_congr_left fun _ => (and_iff_right ?_).symm
    simp
    omega

theorem within_of_printBase {base : ℕ} (h : Within size (printBase base ap s).out) : Within size s.out := by
  simp only [printBase, printNum_eq, within_strcpy, padOut] at h
  obtain ⟨-, h⟩ := h
  split at h
  · exact (within_put.mp (within_of_padLoop h)).2
  · exact h

/-- **One iteration** stays inside exactly when its token fits. -/
theorem within_exec (t : Token) (s : State) (hp : s.strPos < size) :
    Within size (exec ap t s).out ↔ TokenFits size ap t (cursor s) ∧ Within size s.out := by
  obtain ⟨hpos, hpad, hap, hout⟩ := setPad_fields t.pad s
  unfold exec TokenFits
  cases t.kind with
  | char c =>
    simp only [putChar, within_put, hpos, hout, true_and, and_iff_right_iff_imp]
    exact fun _ => hp
  | num base =>
    have h := within_printBase ap base (setPad t.pad s) (hpos ▸ hp)
    rw [hpos, hpad, hap, hout] at h
    exact h
  | ptr =>
    have hsize := size.isLt
    have hlt : s.strPos.toNat < size.toNat := hp
    have htext : Within size (putText [ch '0', ch 'x'] (setPad t.pad s)).out ↔
        s.strPos.toNat + 2 < size.toNat ∧ Within size s.out := by
      simp only [putText, within_strcpy, hpos, hout, List.length_cons, List.length_nil]
    have hnext : (putText [ch '0', ch 'x'] (setPad t.pad s)).strPos = s.strPos + 2 := by
      simp only [putText, hpos]
      rfl
    have hap' : (putText [ch '0', ch 'x'] (setPad t.pad s)).ap = s.ap := hap
    by_cases htwo : s.strPos.toNat + 2 < size.toNat
    · have hpos2 : s.strPos + 2 < size := by
        have htwo' : (2 : Word).toNat = 2 := rfl
        rw [BitVec.lt_def, BitVec.toNat_add]
        omega
      have h := within_printBase ap 16
        { putText [ch '0', ch 'x'] (setPad t.pad s) with padChar := ch '0', padCount := 8 } (hnext ▸ hpos2)
      rw [hnext, hap', htext] at h
      rw [h]
      constructor
      · rintro ⟨hnum, -, hin⟩
        exact ⟨⟨htwo, hnum⟩, hin⟩
      · rintro ⟨⟨-, hnum⟩, hin⟩
        exact ⟨hnum, htwo, hin⟩
    · refine iff_of_false (fun h => ?_) fun h => htwo h.1.1
      have hin := within_of_printBase (s := { putText [ch '0', ch 'x'] (setPad t.pad s) with
        padChar := ch '0', padCount := 8 }) h
      exact htwo (htext.mp hin).1
  | str =>
    simp only [putText, within_strcpy, hpos, hap, hout]
    rfl

/-! ## The whole format -/

/-- The NUL behind the loop. -/
def finish (s : State) : State := { s with out := s.out.put s.strPos 0 }

/-- The destination is written at offsets below `size` only and holds a string, and the
format is read up to its NUL. -/
structure Bounded (size : Word) (format : Format) (s : State) : Prop where
  writes : Within size s.out
  terminated : ∃ j, j < size ∧ s.out.mem j = 0
  reads : ∀ r ∈ s.reads, r ≤ format.strlen

theorem bounded_finish_iff (s : State) :
    Bounded size format (finish s) ↔
      (Within size s.out ∧ ∀ r ∈ s.reads, r ≤ format.strlen) ∧ s.strPos < size := by
  constructor
  · rintro ⟨hw, -, hr⟩
    obtain ⟨hpos, hw⟩ := within_put.mp hw
    exact ⟨⟨hw, hr⟩, hpos⟩
  · rintro ⟨⟨hw, hr⟩, hpos⟩
    exact ⟨within_put.mpr ⟨hpos, hw⟩, ⟨s.strPos, hpos, Function.update_self ..⟩, hr⟩

theorem lt_next_scanConversion (i : ℕ) (pad : Option (Byte × ℤ)) (reads : List ℕ) :
    i < (scanConversion format i pad reads).next := by
  unfold scanConversion
  dsimp only
  split
  · simp
  split
  · simp
  split
  · simp
  split
  · simp
  · simp

/-- Every iteration moves forward in the format. -/
theorem lt_next_scan (format : Format) (i : ℕ) : i < (scan format i).next := by
  unfold scan
  dsimp only
  split
  · split
    · simp
    split
    · simp
    split
    · exact Nat.lt_of_le_of_lt (by omega) (lt_next_scanConversion (i + 2) _ _)
    · exact lt_next_scanConversion i _ _
  · simp

/-- The iterations from a state on keep the bound exactly when their tokens fit. -/
theorem loop_bounded_iff (n : ℕ) (s : State) (hn : format.strlen ≤ s.i + n) :
    Bounded size format (finish (loop size format ap n s)) ↔
      (Within size s.out ∧ ∀ r ∈ s.reads, r ≤ format.strlen) ∧
        Fits size format ap (tokens format n s.i) (cursor s) := by
  induction n generalizing s with
  | zero => exact bounded_finish_iff s
  | succ n ih =>
    unfold loop tokens
    by_cases hi : s.i < format.strlen
    · rw [if_pos hi]
      by_cases hp : s.strPos < size
      · have hiter := iteration_eq format ap s
        rw [if_pos ⟨hi, hp⟩]
        dsimp only at hiter ⊢
        rw [hiter]
        have hnext : format.strlen ≤ (scan format s.i).next + n := by
          have := lt_next_scan format s.i
          omega
        refine (ih _ hnext).trans ?_
        have hcursor : cursor (moved (scan format s.i).next ((scan format s.i).reads ++ s.reads)
            (exec ap (scan format s.i) s)) = advance ap (scan format s.i) (cursor s) := cursor_exec _ s
        rw [hcursor]
        show ((Within size (exec ap (scan format s.i) s).out ∧ ∀ r ∈ (scan format s.i).reads ++ s.reads,
          r ≤ format.strlen) ∧ Fits _ _ _ (tokens format n (scan format s.i).next) _) ↔ _
        rw [within_exec _ s hp, List.forall_mem_append]
        simp only [Fits]
        have hpos : (cursor s).pos < size := hp
        tauto
      · rw [if_neg fun h => hp h.2, bounded_finish_iff]
        exact iff_of_false (fun h => hp h.2) fun h => hp h.2.1
    · rw [if_neg hi, if_neg fun h => hi h.1]
      exact bounded_finish_iff s

/-- **The bound of `vsnprintf`** is kept exactly when each token of the format finds room
for its text and a NUL behind it. -/
theorem vsnprintf_bounded_iff (mem : Word → Byte) (size : Word) (format : Format) (ap : VaList) :
    Bounded size format (vsnprintf mem size format ap) ↔
      Fits size format ap (tokens format format.strlen 0) ⟨0, 0, 0⟩ := by
  refine (loop_bounded_iff format.strlen (start mem format) (by simp [start])).trans ?_
  refine and_iff_right ⟨fun w hw => (nomatch hw), fun r hr => ?_⟩
  exact Nat.le_of_lt_succ (List.mem_range.mp hr)

/-- Four characters for four bytes. -/
def abcd : Format := ⟨⟨[ch 'a', ch 'b', ch 'c', ch 'd'], by decide⟩, fun _ => 0⟩

theorem nul_behind_buffer :
    ¬ Bounded 4 abcd (vsnprintf (fun _ => 0) 4 abcd fun _ => ⟨0, ⟨[], by decide⟩⟩) := by
  intro h
  have hput : (4 : Word) ∈ (vsnprintf (fun _ => 0) 4 abcd fun _ => ⟨0, ⟨[], by decide⟩⟩).out.writes := by decide
  exact absurd (h.writes 4 hput) (by decide)

end

end PikoRT.Libc.PrintfBound

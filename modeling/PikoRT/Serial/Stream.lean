import PikoRT.Kernel.Cbuf
import PikoRT.Lib.Run

/-! # Reads of the serial device (`drivers/serial/serialchar.c`, `drivers/serial/stm32-uart.c`)

`stm32_uartx_isr` puts a character into a circular buffer and counts it in `rx_count`.
`serialchar_read` waits until there are as many as it wants, and takes one with
`stm32_getc` or more with the `serial_gets` of the device, which the driver does not
have. The interrupt may come between any two accesses of `stm32_getc`, `rx_count--`
included. Other threads run only while a read waits: the call is not left elsewhere.

When a read that waits is woken is the business of the scheduler; here it looks at
`rx_count` again at any time. -/
namespace PikoRT.Serial.Stream
open PikoRT.Lib.Run PikoRT.Kernel.Cbuf

abbrev Word := BitVec 32

/-- Where a read is behind its loop: in `rx_count--`, before the load and before the store;
in `cbuf_getc`, at the test, before the load, before the store of the position; at the
return of `stm32_getc`; or at the call of `serial_gets`. -/
inductive Phase where
  | loadCount
  | storeCount (rxCount : Word)
  | test
  | loadChar
  | storePos (c : Byte)
  | ret (buf : List Byte)
  | gets
  deriving DecidableEq, Repr

/-- A `sys_read` that has come back: what it stored and what it returned. -/
structure Returned where
  count : Word
  buf : List Byte
  value : Word
  deriving DecidableEq, Repr

/-- `ι` are the threads that read. -/
structure State (ι : Type*) where
  rxCount : Word
  cbuf : CbufInfo
  fPos : Word
  /-- The sizes of the reads under way. -/
  reads : ι → Option Word
  /-- The one behind its loop. -/
  reading : Option (ι × Phase)
  returned : List Returned
  /-- What the device has received. -/
  received : List Byte

section

variable {ι : Type*} [DecidableEq ι]

/-- `stm32_uartx_isr`, with the data register when `USART_SR_RXNE` is set. -/
def stm32UartxIsr (dr : Option Byte) (s : State ι) : State ι :=
  match dr with
  | some c =>
    { s with
      cbuf := cbufPutc c s.cbuf
      rxCount := s.rxCount + 1
      received := s.received ++ [c] }
  | none => s

/-- `sys_read` up to the loop of `serialchar_read`; a count of 0 comes back at once. -/
def sysRead (i : ι) (count : Word) (s : State ι) : Option (State ι) :=
  if s.reads i = none then
    some (if count = 0 then s else { s with reads := Function.update s.reads i (some count) })
  else none

/-- One test of the loop, and what follows it. -/
def serialcharRead (i : ι) (s : State ι) : Option (State ι) :=
  match s.reads i, s.reading with
  | some count, none =>
    some (if s.rxCount < count then s
      else { s with reading := some (i, if count = 1 then .loadCount else .gets) })
  | _, _ => none

/-- What `stm32_getc` returns. -/
def getcValue : Word := 0

/-- The next access of `stm32_getc`; with its return `sys_read` ends. -/
def stm32Getc (s : State ι) : Option (State ι) :=
  match s.reading with
  | some (i, .loadCount) => some { s with reading := some (i, .storeCount s.rxCount) }
  | some (i, .storeCount rxCount) => some { s with rxCount := rxCount - 1, reading := some (i, .test) }
  | some (i, .test) => some { s with reading := some (i, if isEmpty s.cbuf then .ret [] else .loadChar) }
  | some (i, .loadChar) => some { s with reading := some (i, .storePos (first s.cbuf)) }
  | some (i, .storePos c) => some { s with cbuf := advance s.cbuf, reading := some (i, .ret [c]) }
  | some (i, .ret buf) =>
    some { s with
      fPos := s.fPos + getcValue
      reads := Function.update s.reads i none
      reading := none
      returned := s.returned ++ [⟨1, buf, getcValue⟩] }
  | some (_, .gets) => none
  | none => none

inductive Act (ι : Type*) where
  | uart (dr : Option Byte)
  | sysRead (i : ι) (count : Word)
  | serialcharRead (i : ι)
  | stm32Getc

def step (s : State ι) : Act ι → Option (State ι)
  | .uart dr => some (stm32UartxIsr dr s)
  | .sysRead i count => sysRead i count s
  | .serialcharRead i => serialcharRead i s
  | .stm32Getc => stm32Getc s

/-- After `stm32_serial_init` and an `open`; the memory of `buf` holds anything. -/
def init (buf : ℕ → Byte) : State ι where
  rxCount := 0
  cbuf := cbufInit buf 16
  fPos := 0
  reads := fun _ => none
  reading := none
  returned := []
  received := []

end

/-! ## What the reads owe -/

section

variable {ι : Type*}

/-- What the read has stored in its buffer so far. -/
def Phase.stored : Phase → List Byte
  | .storePos c => [c]
  | .ret buf => buf
  | _ => []

def stored (s : State ι) : List Byte := ((s.reading.map fun r => r.2.stored).getD [])

/-- What the reads have stored, in order. -/
def delivered (s : State ι) : List Byte := s.returned.flatMap Returned.buf ++ stored s

def unread (s : State ι) : ℕ := s.received.length - (delivered s).length

/-- The read got as many characters as it wanted, the oldest that no read before it got, and
said so. -/
def Served (received : List Byte) (before : List Returned) (r : Returned) : Prop :=
  r.buf.length = r.count.toNat ∧
    r.buf = (received.drop (before.flatMap Returned.buf).length).take r.count.toNat ∧ r.value = r.count

/-- All reads that have come back were served, none is lost in a call of nothing, and what the
reads deliver is what has come first. -/
structure Right (s : State ι) : Prop where
  served : ∀ before r rest, s.returned = before ++ r :: rest → Served s.received before r
  comesBack : ∀ i, s.reading ≠ some (i, .gets)
  inOrder : delivered s <+: s.received

/-- A read comes to its end: `stm32_getc` returns, or `serial_gets` is called. -/
def Ends (s : State ι) : Act ι → Prop
  | .serialcharRead i => ∃ count, s.reads i = some count ∧ ¬ s.rxCount < count ∧ count ≠ 1
  | .stm32Getc => ∃ i buf, s.reading = some (i, .ret buf)
  | _ => False

/-- The device has no more than 15 characters unread, the new one included. -/
def Room (s : State ι) : Act ι → Prop
  | .uart (some _) => unread s < 15
  | _ => True

/-! ## The invariant -/

/-- The character that has been stored and is still between the positions of the buffer. -/
def Phase.held : Phase → ℕ
  | .storePos _ => 1
  | _ => 0

def held (s : State ι) : ℕ := (s.reading.map fun r => r.2.held).getD 0

/-- What the reads have taken out of the buffer. -/
def Phase.taken : Phase → List Byte
  | .ret buf => buf
  | _ => []

def taken (s : State ι) : List Byte :=
  s.returned.flatMap Returned.buf ++ (s.reading.map fun r => r.2.taken).getD []

/-- What the read knows where it is. An interrupt between the load and the store of
`rx_count--` is not counted, so there may be more characters than `rx_count` says. -/
def Knows (rxCount : Word) (xs : List Byte) : Option Phase → Prop
  | none => rxCount.toNat ≤ xs.length
  | some .loadCount => 0 < rxCount.toNat ∧ rxCount.toNat ≤ xs.length
  | some (.storeCount r) => 0 < r.toNat ∧ r.toNat ≤ xs.length
  | some .test => rxCount.toNat < xs.length
  | some .loadChar => rxCount.toNat < xs.length
  | some (.storePos c) => rxCount.toNat < xs.length ∧ ∃ rest, xs = c :: rest
  | some (.ret buf) => rxCount.toNat ≤ xs.length ∧ buf.length = 1
  | some .gets => True

/-- The buffer holds `xs`. -/
structure Inv (s : State ι) (xs : List Byte) : Prop where
  holds : Holds s.cbuf xs
  len : s.cbuf.len = 16
  received : s.received = taken s ++ xs
  room : xs.length ≤ 15 + held s
  knows : Knows s.rxCount xs (s.reading.map Prod.snd)
  single : ∀ r ∈ s.returned, r.buf.length = 1

variable {s s' : State ι} {xs : List Byte} {i : ι} {ph : Phase}

theorem Inv.split (h : Inv s xs) : ∃ rest, s.received = delivered s ++ rest ∧ rest.length + held s = xs.length := by
  have hr := h.received
  have hk := h.knows
  unfold delivered stored held
  unfold taken at hr
  cases hrd : s.reading with
  | none =>
    rw [hrd] at hr
    exact ⟨xs, hr, rfl⟩
  | some r =>
    obtain ⟨i, ph⟩ := r
    rw [hrd] at hr hk
    cases ph with
    | storePos c =>
      obtain ⟨-, rest, rfl⟩ := hk
      refine ⟨rest, ?_, rfl⟩
      rw [hr]
      simp [Phase.taken, Phase.stored]
    | _ => exact ⟨xs, hr, rfl⟩

theorem Inv.inOrder (h : Inv s xs) : delivered s <+: s.received := by
  obtain ⟨rest, hr, -⟩ := h.split
  exact ⟨rest, hr.symm⟩

theorem Inv.unread (h : Inv s xs) : unread s + held s = xs.length := by
  obtain ⟨rest, hr, hl⟩ := h.split
  unfold Stream.unread
  rw [hr, List.length_append, Nat.add_sub_cancel_left]
  exact hl

/-- A character more. -/
theorem Knows.append {rxCount : Word} {o : Option Phase} (h : Knows rxCount xs o) (hl : xs.length ≤ 16) (c : Byte) :
    Knows (rxCount + 1) (xs ++ [c]) o := by
  have hlen : (xs ++ [c]).length = xs.length + 1 := by simp
  have hadd : (rxCount + 1).toNat = (rxCount.toNat + 1) % 2 ^ 32 := BitVec.toNat_add rxCount 1
  cases o with
  | none =>
    simp only [Knows] at h ⊢
    omega
  | some ph =>
    cases ph with
    | storePos d =>
      obtain ⟨hlt, rest, rfl⟩ := h
      refine ⟨?_, rest ++ [c], rfl⟩
      omega
    | ret buf =>
      obtain ⟨hle, hb⟩ := h
      refine ⟨?_, hb⟩
      omega
    | gets => trivial
    | loadCount =>
      obtain ⟨hpos, hle⟩ := h
      refine ⟨?_, ?_⟩ <;> omega
    | storeCount r =>
      obtain ⟨hpos, hle⟩ := h
      exact ⟨hpos, by omega⟩
    | test =>
      simp only [Knows] at h ⊢
      omega
    | loadChar =>
      simp only [Knows] at h ⊢
      omega

theorem held_le (s : State ι) : held s ≤ 1 := by
  unfold held
  cases s.reading with
  | none => exact Nat.zero_le 1
  | some r =>
    obtain ⟨i, ph⟩ := r
    cases ph <;> simp [Phase.held]

theorem uart_inv {dr : Option Byte} (h : Inv s xs) (hroom : Room s (.uart dr)) :
    ∃ ys, Inv (stm32UartxIsr dr s) ys := by
  cases dr with
  | none => exact ⟨xs, h⟩
  | some c =>
    have hlt : unread s < 15 := hroom
    have hu := h.unread
    have hheld := held_le s
    have hlen : (xs ++ [c]).length = xs.length + 1 := by simp
    refine ⟨xs ++ [c], h.holds.cbufPutc ?_ c, h.len, ?_, ?_, h.knows.append (by omega) c, h.single⟩
    · rw [h.len]
      omega
    · show s.received ++ [c] = taken s ++ (xs ++ [c])
      rw [h.received, List.append_assoc]
    · show (xs ++ [c]).length ≤ 15 + held s
      omega

/-- An access that writes nothing but `rx_count` and where the read is. -/
theorem Inv.goto {ph' : Phase} {rxCount : Word} (h : Inv s xs) (hr : s.reading = some (i, ph))
    (hheld : ph.held ≤ ph'.held) (ht : ph.taken = ph'.taken) (hk : Knows rxCount xs (some ph')) :
    Inv { s with rxCount := rxCount, reading := some (i, ph') } xs := by
  refine ⟨h.holds, h.len, ?_, ?_, hk, h.single⟩
  · have hrec := h.received
    unfold taken at hrec ⊢
    rw [hr] at hrec
    simpa [ht] using hrec
  · have hroom := h.room
    unfold held at hroom ⊢
    rw [hr] at hroom
    exact hroom.trans (Nat.add_le_add_left hheld 15)

theorem inv_init (buf : ℕ → Byte) : Inv (init buf : State ι) [] :=
  ⟨holds_cbufInit buf (by norm_num), rfl, rfl, Nat.zero_le _, le_rfl, fun _ hm => (nomatch hm)⟩

theorem serialcharRead_inv (h : Inv s xs) (he : serialcharRead i s = some s') : Inv s' xs := by
  unfold serialcharRead at he
  cases hc : s.reads i with
  | none =>
    rw [hc] at he
    cases he
  | some count =>
    cases hr : s.reading with
    | some r =>
      rw [hc, hr] at he
      cases he
    | none =>
      rw [hc, hr] at he
      obtain rfl := Option.some.inj he
      have hrec := h.received
      have hroom := h.room
      have hk := h.knows
      unfold taken at hrec
      unfold held at hroom
      rw [hr] at hrec hroom hk
      split
      · exact h
      · rename_i hlt
        split
        · rename_i hone
          rw [hone] at hlt
          refine ⟨h.holds, h.len, hrec, hroom, ⟨?_, hk⟩, h.single⟩
          exact Nat.lt_of_lt_of_le Nat.zero_lt_one (BitVec.le_def.mp (BitVec.not_lt.mp hlt))
        · exact ⟨h.holds, h.len, hrec, hroom, trivial, h.single⟩

/-- No read has come to its end. -/
structure Quiet (s : State ι) : Prop where
  inv : ∃ xs, Inv s xs
  returned : s.returned = []
  waits : ∀ i, s.reading ≠ some (i, .gets)

theorem Quiet.right (h : Quiet s) : Right s := by
  obtain ⟨xs, hi⟩ := h.inv
  refine ⟨fun before r rest hr => ?_, h.waits, hi.inOrder⟩
  rw [h.returned] at hr
  exact absurd hr.symm (by simp)

variable [DecidableEq ι]

theorem stm32Getc_inv (h : Inv s xs) (he : stm32Getc s = some s') : ∃ ys, Inv s' ys := by
  have hk := h.knows
  unfold stm32Getc at he
  cases hr : s.reading with
  | none =>
    rw [hr] at he
    cases he
  | some r =>
    obtain ⟨i, ph⟩ := r
    rw [hr] at he hk
    cases ph with
    | loadCount =>
      obtain rfl := Option.some.inj he
      exact ⟨xs, h.goto hr le_rfl rfl hk⟩
    | storeCount r =>
      obtain rfl := Option.some.inj he
      refine ⟨xs, h.goto hr le_rfl rfl ?_⟩
      obtain ⟨hpos, hle⟩ := hk
      have hsub : (r - 1).toNat = r.toNat - 1 := BitVec.toNat_sub_of_le (BitVec.le_def.mpr hpos)
      show (r - 1).toNat < xs.length
      omega
    | test =>
      obtain rfl := Option.some.inj he
      have hlt : s.rxCount.toNat < xs.length := hk
      have hne : isEmpty s.cbuf = false := by
        rw [Bool.eq_false_iff, ne_eq, h.holds.isEmpty_iff ?_]
        · exact List.ne_nil_of_length_pos (by omega)
        · have hroom := h.room
          unfold held at hroom
          rw [hr] at hroom
          rw [h.len]
          exact Nat.lt_succ_of_le hroom
      rw [hne]
      exact ⟨xs, h.goto hr le_rfl rfl hk⟩
    | loadChar =>
      obtain rfl := Option.some.inj he
      have hlt : s.rxCount.toNat < xs.length := hk
      obtain ⟨c, rest, rfl⟩ := List.exists_cons_of_ne_nil (List.ne_nil_of_length_pos (Nat.zero_lt_of_lt hlt))
      rw [h.holds.first]
      exact ⟨_, h.goto hr (Nat.zero_le 1) rfl ⟨hlt, rest, rfl⟩⟩
    | storePos c =>
      obtain rfl := Option.some.inj he
      obtain ⟨hlt, rest, rfl⟩ := hk
      have hrec := h.received
      have hroom := h.room
      unfold taken at hrec
      unfold held at hroom
      rw [hr] at hrec hroom
      refine ⟨rest, h.holds.advance, h.len, ?_, Nat.le_of_succ_le_succ hroom, ⟨Nat.le_of_lt_succ hlt, rfl⟩, h.single⟩
      rw [hrec]
      simp [taken, Phase.taken]
    | ret buf =>
      obtain rfl := Option.some.inj he
      obtain ⟨hle, hb⟩ := hk
      have hrec := h.received
      have hroom := h.room
      unfold taken at hrec
      unfold held at hroom
      rw [hr] at hrec hroom
      refine ⟨xs, h.holds, h.len, ?_, hroom, hle, fun r hm => ?_⟩
      · rw [hrec]
        simp [taken, Phase.taken]
      · rcases List.mem_append.mp hm with hm | hm
        · exact h.single r hm
        · rw [List.mem_singleton.mp hm]
          exact hb
    | gets => cases he

theorem sysRead_inv {count : Word} (h : Inv s xs) (he : sysRead i count s = some s') : Inv s' xs := by
  obtain ⟨-, he⟩ := Option.ite_none_right_eq_some.mp he
  obtain rfl := Option.some.inj he
  split
  · exact h
  · exact ⟨h.holds, h.len, h.received, h.room, h.knows, h.single⟩

theorem step_inv {a : Act ι} (h : ∃ xs, Inv s xs) (hroom : Room s a) (he : step s a = some s') : ∃ xs, Inv s' xs := by
  obtain ⟨xs, h⟩ := h
  cases a with
  | uart dr =>
    obtain rfl := Option.some.inj he
    exact uart_inv h hroom
  | sysRead i count => exact ⟨xs, sysRead_inv h he⟩
  | serialcharRead i => exact ⟨xs, serialcharRead_inv h he⟩
  | stm32Getc => exact stm32Getc_inv h he

/-! ## Runs -/

/-- **The data is right.** In every run with never more than 15 characters unread the reads
deliver what has come first, in order, and a read that comes back has got one character. -/
theorem runs_inOrder (buf : ℕ → Byte) (as : List (Act ι))
    (hroom : ∀ x ∈ trace step (init buf) as, Room x.pre x.act) :
    ∀ x ∈ trace step (init buf) as,
      delivered x.post <+: x.post.received ∧ ∀ r ∈ x.post.returned, r.buf.length = 1 := by
  intro x hx
  obtain ⟨-, xs, h⟩ := trace_invariant (I := fun s => ∃ xs, Inv s xs) (fun _ _ _ hi hc he => step_inv hi hc he)
    ⟨[], inv_init buf⟩ hroom x hx
  exact ⟨h.inOrder, h.single⟩

/-- A step with which no read comes to its end. -/
theorem frame_of_not_ends {a : Act ι} (hends : ¬ Ends s a) (he : step s a = some s') :
    s'.returned = s.returned ∧ ∀ j, s'.reading = some (j, .gets) → s.reading = some (j, .gets) := by
  cases a with
  | uart dr =>
    obtain rfl := Option.some.inj he
    cases dr with
    | none => exact ⟨rfl, fun _ hj => hj⟩
    | some c => exact ⟨rfl, fun _ hj => hj⟩
  | sysRead i count =>
    obtain ⟨-, he⟩ := Option.ite_none_right_eq_some.mp he
    obtain rfl := Option.some.inj he
    split
    · exact ⟨rfl, fun _ hj => hj⟩
    · exact ⟨rfl, fun _ hj => hj⟩
  | serialcharRead i =>
    simp only [step, serialcharRead] at he
    split at he
    · rename_i count hc hr
      obtain rfl := Option.some.inj he
      split
      · exact ⟨rfl, fun _ hj => hj⟩
      · rename_i hlt
        have hone : count = 1 := by
          by_contra hne
          exact hends ⟨count, hc, hlt, hne⟩
        rw [if_pos hone]
        exact ⟨rfl, fun _ hj => by cases hj⟩
    · cases he
  | stm32Getc =>
    simp only [step, stm32Getc] at he
    cases hr : s.reading with
    | none =>
      rw [hr] at he
      cases he
    | some r =>
      obtain ⟨i, ph⟩ := r
      rw [hr] at he
      cases ph with
      | ret buf => exact absurd ⟨i, buf, hr⟩ hends
      | gets => cases he
      | test =>
        obtain rfl := Option.some.inj he
        refine ⟨rfl, fun j hj => ?_⟩
        cases hb : isEmpty s.cbuf with
        | true =>
          rw [hb] at hj
          cases hj
        | false =>
          rw [hb] at hj
          cases hj
      | _ =>
        obtain rfl := Option.some.inj he
        exact ⟨rfl, fun _ hj => by cases hj⟩

theorem quiet_step {a : Act ι} (h : Quiet s) (hroom : Room s a) (hends : ¬ Ends s a) (he : step s a = some s') :
    Quiet s' := by
  obtain ⟨hret, hgets⟩ := frame_of_not_ends hends he
  exact ⟨step_inv h.inv hroom he, hret.trans h.returned, fun j hj => h.waits j (hgets j hj)⟩

theorem not_right_of_ends {a : Act ι} (hends : Ends s a) (he : step s a = some s') : ¬ Right s' := by
  intro hright
  cases a with
  | uart dr => exact hends
  | sysRead i count => exact hends
  | serialcharRead i =>
    obtain ⟨count, hc, hlt, hne⟩ := hends
    cases hr : s.reading with
    | some r =>
      simp only [step, serialcharRead, hc, hr] at he
      cases he
    | none =>
      simp only [step, serialcharRead, hc, hr, if_neg hlt, if_neg hne] at he
      obtain rfl := Option.some.inj he
      exact hright.comesBack i rfl
  | stm32Getc =>
    obtain ⟨i, buf, hr⟩ := hends
    simp only [step, stm32Getc, hr] at he
    obtain rfl := Option.some.inj he
    obtain ⟨-, -, hvalue⟩ := hright.served s.returned _ [] rfl
    exact absurd hvalue (by simp [getcValue])

/-- **Reads of the serial device.** In every run with never more than 15 characters unread,
all is right exactly as long as no read comes to its end. -/
theorem reads_right_iff (buf : ℕ → Byte) (as : List (Act ι))
    (hroom : ∀ x ∈ trace step (init buf) as, Room x.pre x.act) :
    (∀ x ∈ trace step (init buf) as, Right x.post) ↔ ∀ x ∈ trace step (init buf) as, ¬ Ends x.pre x.act := by
  refine trace_forall_iff_of (I := Quiet) (Q := fun _ _ s => Right s) (S := Room) (C := fun s a => ¬ Ends s a)
    ?_ ?_ ⟨⟨[], inv_init buf⟩, rfl, fun i hi => (nomatch hi)⟩ hroom
  · intro s a s' hs hr he
    refine ⟨fun hright hends => not_right_of_ends hends he hright, fun hends => ?_⟩
    exact (quiet_step hs hr hends he).right
  · intro s a s' hs hr hends he
    exact quiet_step hs hr hends he

end

/-! ## Concrete runs -/

/-- A read of one character that has arrived. -/
def oneChar : List (Act Unit) :=
  [.uart (some 65), .sysRead () 1, .serialcharRead ()] ++ List.replicate 6 .stm32Getc

/-- The read stores the character and returns 0. -/
theorem oneChar_returns_zero : ∃ s, run step (init fun _ => 0) oneChar = some s ∧
    s.returned = [⟨1, [65], 0⟩] ∧ ¬ Right s := by
  refine ⟨_, rfl, rfl, fun h => ?_⟩
  obtain ⟨-, -, hvalue⟩ := h.served [] _ [] rfl
  exact absurd hvalue (by simp [getcValue])

/-- Two characters, of which one has been received. -/
def twoChars : List (Act Unit) := [.uart (some 65), .sysRead () 2, .serialcharRead ()]

theorem reads_right_twoChars : (trace step (init fun _ => 0) twoChars).length = 3 ∧
    ∀ x ∈ trace step (init fun _ => 0) twoChars, Right x.post := by
  refine ⟨rfl, (reads_right_iff _ _ ?_).mpr ?_⟩
  · refine forall_trace_cons rfl ?_
      (forall_trace_cons rfl trivial (forall_trace_cons rfl trivial fun _ hx => (nomatch hx)))
    exact Nat.zero_lt_succ 14
  · refine forall_trace_cons rfl (fun he => he)
      (forall_trace_cons rfl (fun he => he) (forall_trace_cons rfl ?_ fun _ hx => (nomatch hx)))
    rintro ⟨count, hc, hlt, -⟩
    obtain rfl := Option.some.inj hc
    exact hlt (by decide)

end PikoRT.Serial.Stream

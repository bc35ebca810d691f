import PikoRT.Serial.Stream

/-! # The counter and the ring (`drivers/serial/stm32-uart.c`)

`rx_count` and the positions of the circular buffer both say how much has been received and not read.
`stm32_getc` counts its character first and takes it then, and `cbuf_putc` does not look for room. -/
namespace PikoRT.Serial.RxCount
open PikoRT.Lib.Run PikoRT.Kernel.Cbuf PikoRT.Serial.Stream

section

variable {ι : Type*}

/-- The call has counted its character, which is still in the buffer. -/
def counted (s : State ι) : ℕ :=
  match s.reading.map Prod.snd with
  | some .test | some .loadChar | some (.storePos _) => 1
  | _ => 0

/-- What has been received and not been taken out. -/
def untaken (s : State ι) : List Byte := s.received.drop (taken s).length

/-- Of this, what has not been written over: no more than the buffer has room for. -/
def unreadHeld (s : State ι) : List Byte := (untaken s).drop ((untaken s).length - s.cbuf.len)

structure Agree (s : State ι) : Prop where
  count : s.rxCount.toNat + counted s = (unreadHeld s).length
  notEmpty : 0 < s.rxCount → isEmpty s.cbuf = false

/-- The counter agrees with the buffer, and a `stm32_getc` that is done has stored the oldest character. -/
structure Right (x : Transition (State ι) (Act ι)) : Prop where
  agree : Agree x.post
  oldest : x.act = .stm32Getc → ∀ i buf, x.post.reading = some (i, .ret buf) → ∃ c rest,
    unreadHeld x.pre = c :: rest ∧ buf = [c]

/-- There is room for the character that comes and one more, and none has come between the load and the store of
`rx_count--`. -/
def Calm (s : State ι) : Act ι → Prop
  | .uart (some _) => (unreadHeld s).length < 15
  | .stm32Getc => ∀ i rxCount, s.reading = some (i, .storeCount rxCount) → s.rxCount = rxCount
  | _ => True

/-- The buffer is not full, and the counter is right. -/
structure Exact (s : State ι) : Prop where
  inv : ∃ xs, Inv s xs
  room : (untaken s).length ≤ 15
  count : s.rxCount.toNat + counted s = (untaken s).length

variable {s s' : State ι} {xs : List Byte} {i : ι} {ph : Phase} {c : Byte}

theorem untaken_eq (h : Inv s xs) : untaken s = xs := by
  rw [untaken, h.received, List.drop_left]

theorem Exact.holds (h : Exact s) : Inv s (untaken s) := by
  obtain ⟨xs, hi⟩ := h.inv
  rw [untaken_eq hi]
  exact hi

theorem Exact.unreadHeld_eq (h : Exact s) : unreadHeld s = untaken s := by
  have hroom := h.room
  have hlen := h.holds.len
  rw [unreadHeld, hlen, Nat.sub_eq_zero_of_le (hroom.trans (Nat.le_succ 15)), List.drop_zero]

theorem Exact.isEmpty_iff (h : Exact s) : isEmpty s.cbuf = true ↔ untaken s = [] := by
  refine h.holds.holds.isEmpty_iff ?_
  rw [h.holds.len]
  exact Nat.lt_succ_of_le h.room

theorem Exact.agree (h : Exact s) : Agree s := by
  refine ⟨h.unreadHeld_eq ▸ h.count, fun hpos => ?_⟩
  rw [Bool.eq_false_iff, ne_eq, h.isEmpty_iff]
  intro hnil
  have hcount := h.count
  rw [hnil, List.length_nil] at hcount
  have hpos' : 0 < s.rxCount.toNat := hpos
  omega

theorem exact_init (buf : ℕ → Byte) : Exact (init buf : State ι) :=
  ⟨⟨[], inv_init buf⟩, Nat.zero_le _, rfl⟩

/-! ## A character comes -/

theorem untaken_uart (h : Inv s xs) : untaken (stm32UartxIsr (some c) s) = untaken s ++ [c] := by
  have hle : (taken s).length ≤ s.received.length := by
    rw [h.received, List.length_append]
    exact Nat.le_add_right _ _
  exact List.drop_append_of_le_length hle

/-- `rx_count++`. -/
theorem toNat_succ {w : Word} (h : w.toNat ≤ 15) : (w + 1).toNat = w.toNat + 1 := by
  have h1 : (1 : Word).toNat = 1 := rfl
  rw [BitVec.toNat_add, h1]
  omega

theorem Exact.uart (h : Exact s) (hcalm : (untaken s).length < 15) : Exact (stm32UartxIsr (some c) s) := by
  have hu := untaken_uart (c := c) h.holds
  have hlen : (untaken s ++ [c]).length = (untaken s).length + 1 := by rw [List.length_append, List.length_singleton]
  have hunread := h.holds.unread
  have hcount := h.count
  refine ⟨uart_inv h.holds (by show unread s < 15; omega), ?_, ?_⟩
  · rw [hu, hlen]
    omega
  · rw [hu, hlen]
    show (s.rxCount + 1).toNat + counted s = _
    rw [toNat_succ (by omega)]
    omega

/-- The sixteenth character makes the buffer look empty. -/
theorem not_agree_uart (h : Exact s) (hfull : (untaken s).length = 15) : ¬ Agree (stm32UartxIsr (some c) s) := by
  intro ha
  have hcount := h.count
  have hle : counted s ≤ 1 := by
    unfold counted
    split <;> omega
  have hpos : 0 < (stm32UartxIsr (some c) s).rxCount := by
    show (0 : Word).toNat < (s.rxCount + 1).toNat
    rw [toNat_succ (by omega)]
    exact Nat.succ_pos _
  have hempty : isEmpty (stm32UartxIsr (some c) s).cbuf = true := by
    have hend := h.holds.holds.end_eq
    have hbegin := h.holds.holds.begin_lt
    show decide (s.cbuf.posBegin = (s.cbuf.posEnd + 1) % s.cbuf.len) = true
    rw [hend, hfull, h.holds.len, decide_eq_true_iff]
    rw [h.holds.len] at hbegin
    omega
  rw [ha.notEmpty hpos] at hempty
  cases hempty

/-! ## The calls -/

/-- The same characters in the buffer, the same counter. -/
theorem Exact.congr (h : Exact s) (hi : ∃ xs, Inv s' xs) (hu : untaken s' = untaken s)
    (hc : s'.rxCount.toNat + counted s' = s.rxCount.toNat + counted s) : Exact s' :=
  ⟨hi, hu ▸ h.room, by rw [hc, hu, h.count]⟩

theorem Exact.serialcharRead (h : Exact s) (he : serialcharRead i s = some s') : Exact s' := by
  have hi := serialcharRead_inv h.holds he
  unfold Stream.serialcharRead at he
  cases hc : s.reads i with
  | none =>
    rw [hc] at he
    cases he
  | some count =>
    cases hr : s.reading with
    | some r =>
      rw [hc, hr] at he
      cases he
    | none =>
      rw [hc, hr] at he
      obtain rfl := Option.some.inj he
      refine h.congr ⟨_, hi⟩ ?_ ?_
      · unfold untaken taken
        rw [hr]
        split
        · rw [hr]
        · split <;> rfl
      · unfold counted
        rw [hr]
        split
        · rw [hr]
        · split <;> rfl

theorem taken_of_reading (hr : s.reading = some (i, ph)) : taken s = s.returned.flatMap Returned.buf ++ ph.taken := by
  rw [taken, hr]
  rfl

/-- The last access takes the oldest character. -/
theorem untaken_storePos {rest : List Byte} (hr : s.reading = some (i, .storePos c))
    (hrec : s.received = taken s ++ c :: rest) :
    untaken { s with cbuf := advance s.cbuf, reading := some (i, .ret [c]) } = rest := by
  have htaken : taken { s with cbuf := advance s.cbuf, reading := some (i, .ret [c]) } = taken s ++ [c] := by
    rw [taken_of_reading hr]
    simp [taken, Phase.taken]
  have hsplit : s.received = (taken s ++ [c]) ++ rest := by rw [hrec, List.append_cons (taken s) c rest]
  rw [untaken, htaken]
  show s.received.drop _ = rest
  rw [hsplit, List.drop_left]

variable [DecidableEq ι]

theorem Exact.sysRead {count : Word} (h : Exact s) (he : sysRead i count s = some s') : Exact s' := by
  have hi := sysRead_inv h.holds he
  obtain ⟨-, he⟩ := Option.ite_none_right_eq_some.mp he
  obtain rfl := Option.some.inj he
  refine h.congr ⟨_, hi⟩ ?_ ?_
  · split <;> rfl
  · split <;> rfl

/-- `rx_count--`, when nothing came in between. -/
theorem toNat_pred {w : Word} (h : 0 < w.toNat) : (w - 1).toNat + 1 = w.toNat := by
  have hsub : (w - 1).toNat = w.toNat - 1 := BitVec.toNat_sub_of_le (BitVec.le_def.mpr h)
  omega

/-- An access of `stm32_getc`. -/
theorem Exact.getc (h : Exact s) (hcalm : Calm s .stm32Getc) (he : stm32Getc s = some s') :
    Exact s' ∧ ∀ i buf, s'.reading = some (i, .ret buf) → ∃ c rest, untaken s = c :: rest ∧ buf = [c] := by
  have hi := stm32Getc_inv h.holds he
  have hk := h.holds.knows
  have hcount := h.count
  unfold stm32Getc at he
  cases hr : s.reading with
  | none =>
    rw [hr] at he
    cases he
  | some r =>
    obtain ⟨i, ph⟩ := r
    rw [hr] at he hk
    unfold counted at hcount
    rw [hr] at hcount
    have htaken := taken_of_reading hr
    cases ph with
    | loadCount =>
      obtain rfl := Option.some.inj he
      refine ⟨h.congr hi ?_ ?_, fun j buf hj => by cases hj⟩
      · rw [untaken, untaken, htaken]
        rfl
      · exact hcount.trans h.count.symm
    | storeCount rxCount =>
      obtain rfl := Option.some.inj he
      refine ⟨h.congr hi ?_ ?_, fun j buf hj => by cases hj⟩
      · rw [untaken, untaken, htaken]
        rfl
      · rw [h.count, ← hcount, hcalm i rxCount hr]
        exact toNat_pred hk.1
    | test =>
      have hne : isEmpty s.cbuf = false := by
        rw [Bool.eq_false_iff, ne_eq, h.isEmpty_iff]
        exact List.ne_nil_of_length_pos (hcount ▸ Nat.succ_pos _)
      rw [hne] at he
      obtain rfl := Option.some.inj he
      refine ⟨h.congr hi ?_ ?_, fun j buf hj => by cases hj⟩
      · rw [untaken, untaken, htaken]
        rfl
      · exact hcount.trans h.count.symm
    | loadChar =>
      obtain rfl := Option.some.inj he
      refine ⟨h.congr hi ?_ ?_, fun j buf hj => by cases hj⟩
      · rw [untaken, untaken, htaken]
        rfl
      · exact hcount.trans h.count.symm
    | storePos c =>
      obtain rfl := Option.some.inj he
      obtain ⟨-, rest, hrest⟩ := hk
      have hrec := h.holds.received
      rw [hrest] at hrec hcount
      have hu := untaken_storePos hr hrec
      refine ⟨⟨hi, ?_, ?_⟩, fun j buf hj => ?_⟩
      · rw [hu]
        have hroom := h.room
        rw [hrest, List.length_cons] at hroom
        omega
      · rw [hu]
        exact Nat.succ.inj hcount
      · cases hj
        exact ⟨c, rest, hrest, rfl⟩
    | ret buf =>
      obtain rfl := Option.some.inj he
      refine ⟨h.congr hi ?_ ?_, fun j buf hj => by cases hj⟩
      · rw [untaken, untaken, htaken]
        simp [taken, Phase.taken]
      · exact hcount.trans h.count.symm
    | gets => cases he

/-- An interrupt between the load and the store is lost. -/
theorem not_agree_getc (h : Exact s) (hcalm : ¬ Calm s .stm32Getc) (he : stm32Getc s = some s') : ¬ Agree s' := by
  intro ha
  obtain ⟨i, hi⟩ := not_forall.mp hcalm
  obtain ⟨rxCount, hi⟩ := not_forall.mp hi
  obtain ⟨hr, hne⟩ := Classical.not_imp.mp hi
  have hk := h.holds.knows
  have hcount := h.count
  unfold counted at hcount
  rw [hr] at hk hcount
  simp only [stm32Getc, hr] at he
  obtain rfl := Option.some.inj he
  have hagree := ha.count
  have hu : unreadHeld { s with rxCount := rxCount - 1, reading := some (i, .test) } = unreadHeld s := by
    unfold unreadHeld untaken taken
    rw [hr]
    rfl
  rw [hu, h.unreadHeld_eq, ← hcount] at hagree
  exact hne (BitVec.eq_of_toNat_eq (hagree.symm.trans (toNat_pred hk.1)))

/-! ## Runs -/

theorem exact_step {a : Act ι} (h : Exact s) (hcalm : Calm s a) (he : step s a = some s') :
    Exact s' ∧
    (a = .stm32Getc → ∀ i buf, s'.reading = some (i, .ret buf) → ∃ c rest, untaken s = c :: rest ∧ buf = [c]) := by
  cases a with
  | uart dr =>
    obtain rfl := Option.some.inj he
    cases dr with
    | none => exact ⟨h, fun ha => by cases ha⟩
    | some c =>
      have hlt : (unreadHeld s).length < 15 := hcalm
      rw [h.unreadHeld_eq] at hlt
      exact ⟨h.uart hlt, fun ha => by cases ha⟩
  | sysRead i count => exact ⟨h.sysRead he, fun ha => by cases ha⟩
  | serialcharRead i => exact ⟨h.serialcharRead he, fun ha => by cases ha⟩
  | stm32Getc =>
    obtain ⟨hs', hold⟩ := h.getc hcalm he
    exact ⟨hs', fun _ => hold⟩

theorem not_agree_step {a : Act ι} (h : Exact s) (hcalm : ¬ Calm s a) (he : step s a = some s') : ¬ Agree s' := by
  cases a with
  | uart dr =>
    obtain rfl := Option.some.inj he
    cases dr with
    | none => exact absurd trivial hcalm
    | some c =>
      have hge : ¬ (unreadHeld s).length < 15 := hcalm
      have hroom := h.room
      rw [h.unreadHeld_eq] at hge
      exact not_agree_uart h (by omega)
  | sysRead i count => exact absurd trivial hcalm
  | serialcharRead i => exact absurd trivial hcalm
  | stm32Getc => exact not_agree_getc h hcalm he

theorem step_right_iff {a : Act ι} (h : Exact s) (he : step s a = some s') : Right ⟨s, a, s'⟩ ↔ Calm s a := by
  constructor
  · intro hright
    by_contra hcalm
    exact not_agree_step h hcalm he hright.agree
  · intro hcalm
    obtain ⟨hs', hold⟩ := exact_step h hcalm he
    refine ⟨hs'.agree, fun ha i buf hi => ?_⟩
    rw [h.unreadHeld_eq]
    exact hold ha i buf hi

end

/-- **The counter and the ring agree** in every run exactly as long as the ring is not filled and no character comes
between the load and the store of `rx_count--`. -/
theorem counter_agrees_iff {ι : Type*} [DecidableEq ι] (buf : ℕ → Byte) (as : List (Act ι)) :
    (∀ x ∈ trace step (init buf) as, Right x) ↔ ∀ x ∈ trace step (init buf) as, Calm x.pre x.act :=
  trace_forall_iff (Q := fun s a s' => Right ⟨s, a, s'⟩) (fun _ _ _ h he => step_right_iff h he)
    (fun _ _ _ h hcalm he => (exact_step h hcalm he).1) (exact_init buf)

/-- Sixteen characters in a row. -/
def burst : List (Act Unit) := List.replicate 15 (.uart (some 65)) ++ [.uart (some 65)]

/-- The counter is 16, and the buffer looks empty. -/
theorem burst_looks_empty : ¬ ∀ x ∈ trace step (init fun _ => 0) burst, Right x := by
  intro h
  have hright := h _ (mem_trace_of_run rfl rfl)
  have hempty := hright.agree.notEmpty (by decide)
  exact absurd hempty (by decide)

end PikoRT.Serial.RxCount

import PikoRT.Fs.RomfsRead
import PikoRT.Lib.Run

/-! # MTD devices in RAM (`drivers/mtd/mtdcore.c`, `drivers/mtd/mtdram.c`)

The memory is flat, and the accesses of an operation to it are logged. The buffers of the
callers are not part of it: a write comes with the bytes of its buffer, and a read gives
those that it has stored there. -/
namespace PikoRT.Fs.Mtdram
open PikoRT.Kernel.Bitops PikoRT.Libc.Printf PikoRT.Lib.Bytes PikoRT.Lib.Run
open PikoRT.Fs.Drivers (MtdInfo MtdRefuses MtdResult)

def MTD_WRITEABLE : Word := 0x400
def MTD_ERASE_DONE : Byte := 8
def MTD_FAIL_ADDR_UNKNOWN : Word := -1

/-- `struct mtd_info`, with the flags. -/
structure Mtd extends MtdInfo where
  flags : Word
  deriving DecidableEq, Repr

/-- `struct erase_info`; `called` counts the calls of its callback, if it has one. -/
structure EraseInfo where
  addr : Word
  len : Word
  failAddr : Word
  callback : Bool
  state : Byte
  called : ℕ
  deriving DecidableEq, Repr

structure Ram where
  byte : Word → Byte
  touched : List Word

def load (a : Word) (m : Ram) : Byte × Ram := (m.byte a, { m with touched := m.touched ++ [a] })

def store (a : Word) (c : Byte) (m : Ram) : Ram := ⟨Function.update m.byte a c, m.touched ++ [a]⟩

/-- `memcpy` out of the device. -/
def copyOut : ℕ → Word → Ram → List Byte × Ram
  | 0, _, m => ([], m)
  | n + 1, a, m =>
    let r := load a m
    let rest := copyOut n (a + 1) r.2
    (r.1 :: rest.1, rest.2)

/-- `memcpy` into the device. -/
def copyIn : List Byte → Word → Ram → Ram
  | [], _, m => m
  | c :: cs, a, m => copyIn cs (a + 1) (store a c m)

def memset (a : Word) (c : Byte) (n : ℕ) (m : Ram) : Ram := copyIn (List.replicate n c) a m

/-! ## The operations -/

def mtdEraseCallback (instr : EraseInfo) : EraseInfo :=
  if instr.callback then { instr with called := instr.called + 1 } else instr

def mtdramErase (mtd : Mtd) (instr : EraseInfo) (m : Ram) : ℤ × EraseInfo × Ram :=
  (0, mtdEraseCallback { instr with state := MTD_ERASE_DONE }, memset (mtd.priv + instr.addr) 0xff instr.len.toNat m)

/-- `mtd_erase`, where the address is not signed. -/
def mtdErase (mtd : Mtd) (instr : EraseInfo) (m : Ram) : ℤ × EraseInfo × Ram :=
  if mtd.size ≤ instr.addr ∨ mtd.size - instr.addr < instr.len then (-22, instr, m)
  else if mtd.flags &&& MTD_WRITEABLE = 0 then (-30, instr, m)
  else
    let instr := { instr with failAddr := MTD_FAIL_ADDR_UNKNOWN }
    if instr.len = 0 then (0, mtdEraseCallback { instr with state := MTD_ERASE_DONE }, m)
    else mtdramErase mtd instr m

/-- `mtd_point`, with `mtdram_point`: the value, `*retlen` and `*virt`. -/
def mtdPoint (mtd : Mtd) («from» len : Word) : ℤ × Word × Word :=
  if MtdRefuses mtd.size «from» len then (-22, 0, 0)
  else if len = 0 then (0, 0, 0)
  else (0, len, mtd.priv + «from»)

/-- `mtd_read`, with `mtdram_read`. -/
def mtdRead (mtd : Mtd) («from» len : Word) (m : Ram) : MtdResult × Ram :=
  if MtdRefuses mtd.size «from» len then (⟨-22, 0, []⟩, m)
  else if len = 0 then (⟨0, 0, []⟩, m)
  else
    let r := copyOut len.toNat (mtd.priv + «from») m
    (⟨0, len, r.1⟩, r.2)

/-- The first `len` bytes of a buffer. -/
def bufBytes (buf : ℕ → Byte) (len : Word) : List Byte := (List.range len.toNat).map buf

/-- `mtd_write`, with `mtdram_write`: the value, `*retlen` and the memory. -/
def mtdWrite (mtd : Mtd) («to» len : Word) (buf : ℕ → Byte) (m : Ram) : ℤ × Word × Ram :=
  if MtdRefuses mtd.size «to» len then (-22, 0, m)
  else if len = 0 then (0, 0, m)
  else (0, len, copyIn (bufBytes buf len) (mtd.priv + «to») m)

/-! ## Sequences of operations -/

inductive Op where
  | erase (instr : EraseInfo)
  | point («from» len : Word)
  | read («from» len : Word)
  | write («to» len : Word) (buf : ℕ → Byte)

/-- What an operation returns; `mtd_erase` has no `retlen`. -/
structure Outcome where
  value : ℤ
  retlen : Option Word
  bytes : List Byte

def perform (mtd : Mtd) (op : Op) (m : Ram) : Outcome × Ram :=
  match op with
  | .erase instr =>
    let r := mtdErase mtd instr m
    (⟨r.1, none, []⟩, r.2.2)
  | .point «from» len =>
    let r := mtdPoint mtd «from» len
    (⟨r.1, some r.2.1, []⟩, m)
  | .read «from» len =>
    let r := mtdRead mtd «from» len m
    (⟨r.1.value, some r.1.retlen, r.1.bytes⟩, r.2)
  | .write «to» len buf =>
    let r := mtdWrite mtd «to» len buf m
    (⟨r.1, some r.2.1, []⟩, r.2.2)

structure Session where
  ram : Ram
  events : List (Op × Outcome)

def step (mtd : Mtd) (s : Session) (op : Op) : Option Session :=
  let r := perform mtd op s.ram
  some ⟨r.2, s.events ++ [(op, r.1)]⟩

/-! ## What they should do -/

/-- The start as the code's type has it: an `off_t`, or a `u32` for `mtd_erase`. -/
def Op.start : Op → ℤ
  | .erase instr => instr.addr.toNat
  | .point «from» _ => «from».toInt
  | .read «from» _ => «from».toInt
  | .write «to» _ _ => «to».toInt

def Op.len : Op → Word
  | .erase instr => instr.len
  | .point _ len => len
  | .read _ len => len
  | .write _ len _ => len

/-- The byte that an operation puts at an offset, if it does. -/
def Op.puts (k : ℕ) : Op → Option Byte
  | .erase instr => if instr.addr.toNat ≤ k ∧ k < instr.addr.toNat + instr.len.toNat then some 0xff else none
  | .point _ _ => none
  | .read _ _ => none
  | .write «to» len buf => if «to».toNat ≤ k ∧ k < «to».toNat + len.toNat then some (buf (k - «to».toNat)) else none

/-- A start in the device, with as many bytes behind it. -/
def Fits (mtd : Mtd) (op : Op) : Prop :=
  0 ≤ op.start ∧ op.start < mtd.size.toNat ∧ op.len.toNat ≤ mtd.size.toNat - op.start

def Inside (mtd : Mtd) (a : Word) : Prop := ∃ k < mtd.size.toNat, a = mtd.priv + BitVec.ofNat 32 k

/-- The byte that the last successful write or erase has left at an offset. -/
def lastPut (k : ℕ) (events : List (Op × Outcome)) : Option Byte :=
  latest (fun e => if e.2.value = 0 then e.1.puts k else none) events

/-- An operation on a device that had `byte` before all of them. -/
structure Right (mtd : Mtd) (byte : Word → Byte) (s : Session) (op : Op) (t : Session) (o : Outcome) : Prop where
  inside : ∃ as, t.ram.touched = s.ram.touched ++ as ∧ ∀ a ∈ as, Inside mtd a
  outside : ∀ a, ¬ Inside mtd a → t.ram.byte a = s.ram.byte a
  einval : o.value = -22 ↔ ¬ Fits mtd op
  erofs : o.value = -30 ↔ Fits mtd op ∧ (∃ instr, op = .erase instr) ∧ mtd.flags &&& MTD_WRITEABLE = 0
  values : o.value = 0 ∨ o.value = -22 ∨ o.value = -30
  fails : o.value ≠ 0 → t.ram.byte = s.ram.byte ∧ ∀ r, o.retlen = some r → r = 0
  done : o.value = 0 → ∀ r, o.retlen = some r → r = op.len
  reads : ∀ «from» len, op = .read «from» len → o.value = 0 →
    o.bytes = (List.range len.toNat).map fun i =>
      (lastPut («from».toNat + i) s.events).getD (byte (mtd.priv + BitVec.ofNat 32 («from».toNat + i)))

/-! ## The accesses -/

section

variable {mtd : Mtd} {m : Ram} {s t : Session} {op : Op} {byte : Word → Byte}

theorem copyOut_eq (n : ℕ) (a : Word) (m : Ram) :
    copyOut n a m = (bytesAt m.byte a n, ⟨m.byte, m.touched ++ bytesAt id a n⟩) := by
  induction n generalizing a m with
  | zero => rw [copyOut, bytesAt_zero, bytesAt_zero, List.append_nil]
  | succ n ih =>
    rw [copyOut, ih]
    simp only [load, bytesAt, List.append_assoc, List.singleton_append, id]

theorem copyIn_eq (cs : List Byte) (a : Word) (m : Ram) :
    copyIn cs a m = ⟨storeBytes m.byte a cs, m.touched ++ bytesAt id a cs.length⟩ := by
  induction cs generalizing a m with
  | nil => rw [copyIn, storeBytes_nil, List.length_nil, bytesAt_zero, List.append_nil]
  | cons c cs ih =>
    rw [copyIn, ih]
    simp only [store, storeBytes_cons, List.length_cons, bytesAt, List.append_assoc, List.singleton_append, id]

/-- The drivers of romfs and `/dev/mtd0` see the same `mtd_read`. -/
theorem fst_mtdRead (mtd : Mtd) («from» len : Word) (m : Ram) :
    (mtdRead mtd «from» len m).1 = Drivers.mtdRead m.byte mtd.toMtdInfo «from» len := by
  unfold mtdRead Drivers.mtdRead
  rw [copyOut_eq]
  split
  · rfl
  · split <;> rfl

/-- The same for the `mtd_point` of a mapping. -/
theorem mtdPoint_eq (mtd : Mtd) («from» len : Word) :
    Files.mtdPoint mtd.priv mtd.size «from» len = ((mtdPoint mtd «from» len).1, (mtdPoint mtd «from» len).2.2) := by
  unfold mtdPoint
  by_cases h : MtdRefuses mtd.size «from» len
  · rw [if_pos h]
    exact if_pos h
  · rw [if_neg h]
    refine (if_neg h).trans ?_
    split <;> rfl

theorem length_bufBytes (buf : ℕ → Byte) (len : Word) : (bufBytes buf len).length = len.toNat := by
  rw [bufBytes, List.length_map, List.length_range]

theorem getElem?_bufBytes (buf : ℕ → Byte) {len : Word} {i : ℕ} (h : i < len.toNat) :
    (bufBytes buf len)[i]? = some (buf i) := by
  rw [bufBytes, List.getElem?_map, List.getElem?_range h, Option.map_some]

/-- The addresses of a range of the device. -/
theorem inside_of_mem {k n : ℕ} (h : k + n ≤ mtd.size.toNat) {a : Word}
    (ha : a ∈ bytesAt id (mtd.priv + BitVec.ofNat 32 k) n) : Inside mtd a := by
  obtain ⟨i, hi⟩ := List.mem_iff_getElem?.mp ha
  have hlt : i < n := by
    obtain ⟨hlt, -⟩ := List.getElem?_eq_some_iff.mp hi
    rwa [length_bytesAt] at hlt
  rw [getElem?_bytesAt _ _ hlt, Option.some.injEq] at hi
  refine ⟨k + i, by omega, ?_⟩
  rw [← hi, id, add_assoc, ← BitVec.ofNat_add]

/-- How far an offset is behind the start of a range. -/
theorem toNat_offset_sub (mtd : Mtd) {j k : ℕ} (hj : j < 2 ^ 32) (hk : k < 2 ^ 32) :
    (mtd.priv + BitVec.ofNat 32 j - (mtd.priv + BitVec.ofNat 32 k)).toNat = if k ≤ j then j - k else 2 ^ 32 +
      j - k := by
  rw [add_sub_add_left_eq_sub, BitVec.toNat_sub, BitVec.toNat_ofNat, BitVec.toNat_ofNat, Nat.mod_eq_of_lt hj,
    Nat.mod_eq_of_lt hk]
  split <;> omega

/-- What a range of stores leaves at an offset of the device. -/
theorem copyIn_offset {cs : List Byte} {j k : ℕ} (h : k + cs.length ≤ mtd.size.toNat) (hj : j < mtd.size.toNat) :
    (copyIn cs (mtd.priv + BitVec.ofNat 32 k) m).byte (mtd.priv + BitVec.ofNat 32 j) =
      if k ≤ j ∧ j < k + cs.length then cs.getD (j - k) 0 else m.byte (mtd.priv + BitVec.ofNat 32 j) := by
  have hsize := mtd.size.isLt
  rw [copyIn_eq]
  dsimp only
  rw [storeBytes_apply _ _ (by omega)]
  rcases Nat.eq_zero_or_pos cs.length with hz | hpos
  · rw [if_neg (by omega), List.getElem?_eq_none (by omega), Option.getD_none]
  · rw [toNat_offset_sub mtd (by omega) (by omega)]
    by_cases hin : k ≤ j ∧ j < k + cs.length
    · rw [if_pos hin.1, if_pos hin, List.getD_eq_getElem?_getD, List.getElem?_eq_getElem (by omega)]
      rfl
    · rw [if_neg hin, List.getElem?_eq_none, Option.getD_none]
      split <;> omega

theorem copyIn_outside {cs : List Byte} {k : ℕ} (h : k + cs.length ≤ mtd.size.toNat) {a : Word} (ha : ¬ Inside mtd a) :
    (copyIn cs (mtd.priv + BitVec.ofNat 32 k) m).byte a = m.byte a := by
  have hsize := mtd.size.isLt
  rw [copyIn_eq]
  refine storeBytes_of_le _ _ (by omega)
    (Nat.le_of_not_lt fun hlt => ha ⟨k + (a - (mtd.priv + BitVec.ofNat 32 k)).toNat, by omega, ?_⟩)
  rw [BitVec.ofNat_add, BitVec.ofNat_toNat, BitVec.setWidth_eq, ← add_assoc, add_sub_cancel]

theorem copyIn_inside {cs : List Byte} {k : ℕ} (h : k + cs.length ≤ mtd.size.toNat) :
    ∃ as, (copyIn cs (mtd.priv + BitVec.ofNat 32 k) m).touched = m.touched ++ as ∧ ∀ a ∈ as, Inside mtd a :=
  ⟨_, by rw [copyIn_eq], fun _ ha => inside_of_mem h ha⟩

/-! ## The checks -/

theorem mtdRefuses_iff_not_fits {size «from» len : Word} :
    MtdRefuses size «from» len ↔
      ¬ (0 ≤ «from».toInt ∧ «from».toInt < size.toNat ∧ (len.toNat : ℤ) ≤ size.toNat - «from».toInt) := by
  have hint := BitVec.toInt_eq_toNat_cond «from»
  have hfrom := «from».isLt
  rw [RomfsRead.mtdRefuses_iff]
  split at hint <;> omega

theorem eraseRefuses_iff {size addr len : Word} :
    (size ≤ addr ∨ size - addr < len) ↔
      ¬ (0 ≤ (addr.toNat : ℤ) ∧ (addr.toNat : ℤ) < size.toNat ∧ (len.toNat : ℤ) ≤ size.toNat - addr.toNat) := by
  rw [BitVec.le_def, BitVec.lt_def]
  by_cases hle : size.toNat ≤ addr.toNat
  · simp [hle]
  · rw [BitVec.toNat_sub_of_le (BitVec.le_def.mpr (by omega))]
    omega

/-- An operation with a start that is not a negative number. -/
theorem Fits.start_eq (h : Fits mtd op) : ∃ k : ℕ, op.start = k ∧ k + op.len.toNat ≤ mtd.size.toNat ∧
    k < mtd.size.toNat := by
  obtain ⟨hnonneg, hlt, hlen⟩ := h
  refine ⟨op.start.toNat, by omega, by omega, by omega⟩

theorem ofNat_of_toInt_eq {w : Word} {k : ℕ} (h : w.toInt = k) : w = BitVec.ofNat 32 k := by
  have hint := BitVec.toInt_eq_toNat_cond w
  have hlt := w.isLt
  refine BitVec.eq_of_toNat_eq ?_
  rw [BitVec.toNat_ofNat]
  split at hint <;> omega

/-- `*retlen` at a failure. -/
def Op.zeroRetlen : Op → Option Word
  | .erase _ => none
  | _ => some 0

theorem perform_of_not_fits (m : Ram) (h : ¬ Fits mtd op) : perform mtd op m = (⟨-22, op.zeroRetlen, []⟩, m) := by
  cases op with
  | erase instr =>
    have heq : mtdErase mtd instr m = (-22, instr, m) := if_pos (eraseRefuses_iff.mpr h)
    rw [perform, heq]
    rfl
  | point «from» len =>
    have heq : mtdPoint mtd «from» len = (-22, 0, 0) := if_pos (mtdRefuses_iff_not_fits.mpr h)
    rw [perform, heq]
    rfl
  | read «from» len =>
    have heq : mtdRead mtd «from» len m = (⟨-22, 0, []⟩, m) := if_pos (mtdRefuses_iff_not_fits.mpr h)
    rw [perform, heq]
    rfl
  | write «to» len buf =>
    have heq : mtdWrite mtd «to» len buf m = (-22, 0, m) := if_pos (mtdRefuses_iff_not_fits.mpr h)
    rw [perform, heq]
    rfl

/-- What an operation does to the device. -/
structure Effect (mtd : Mtd) (op : Op) (m m' : Ram) : Prop where
  inside : ∃ as, m'.touched = m.touched ++ as ∧ ∀ a ∈ as, Inside mtd a
  outside : ∀ a, ¬ Inside mtd a → m'.byte a = m.byte a
  put : ∀ j < mtd.size.toNat,
    m'.byte (mtd.priv + BitVec.ofNat 32 j) = (op.puts j).getD (m.byte (mtd.priv + BitVec.ofNat 32 j))

theorem Effect.nothing (h : ∀ j, op.puts j = none) : Effect mtd op m m :=
  ⟨⟨[], (List.append_nil _).symm, fun _ ha => absurd ha List.not_mem_nil⟩, fun _ _ => rfl, fun j _ => by rw [h j]; rfl⟩

/-- An operation that stores `cs` at the offset `k`. -/
theorem Effect.stores {cs : List Byte} {k : ℕ} (h : k + cs.length ≤ mtd.size.toNat)
    (hputs : ∀ j, op.puts j = if k ≤ j ∧ j < k + cs.length then some (cs.getD (j - k) 0) else none) :
    Effect mtd op m (copyIn cs (mtd.priv + BitVec.ofNat 32 k) m) := by
  refine ⟨copyIn_inside h, fun a ha => copyIn_outside h ha, fun j hj => ?_⟩
  rw [copyIn_offset h hj, hputs]
  split <;> rfl

/-- A device without `MTD_WRITEABLE` is not erased. -/
def Readonly (mtd : Mtd) (op : Op) : Prop := (∃ instr, op = .erase instr) ∧ mtd.flags &&& MTD_WRITEABLE = 0

theorem perform_of_readonly (m : Ram) (h : Fits mtd op) (hro : Readonly mtd op) :
    perform mtd op m = (⟨-30, none, []⟩, m) := by
  obtain ⟨⟨instr, rfl⟩, hflags⟩ := hro
  have heq : mtdErase mtd instr m = (-30, instr, m) :=
    (if_neg fun hr => eraseRefuses_iff.mp hr h).trans (if_pos hflags)
  rw [perform, heq]

/-- An operation that succeeds. -/
structure Succeeds (mtd : Mtd) (op : Op) (m : Ram) : Prop where
  value : (perform mtd op m).1.value = 0
  retlen : ∀ r, (perform mtd op m).1.retlen = some r → r = op.len
  effect : Effect mtd op m (perform mtd op m).2
  reads : ∀ «from» len, op = .read «from» len →
    (perform mtd op m).1.bytes = bytesAt m.byte (mtd.priv + «from») len.toNat

theorem erase_succeeds (instr : EraseInfo) (m : Ram) (h : Fits mtd (.erase instr))
    (hflags : mtd.flags &&& MTD_WRITEABLE ≠ 0) :
    Succeeds mtd (.erase instr) m := by
  have hnone : ∀ r, (perform mtd (.erase instr) m).1.retlen = some r → r = instr.len := fun r hr => by cases hr
  have hbytes : ∀ «from» len, Op.erase instr = .read «from» len →
    (perform mtd (.erase instr) m).1.bytes = bytesAt m.byte (mtd.priv + «from») len.toNat := fun f l he => by cases he
  obtain ⟨k, hk, hend, -⟩ := h.start_eq
  obtain rfl : instr.addr.toNat = k := Int.ofNat_inj.mp hk
  have heq : mtdErase mtd instr m = _ := (if_neg fun hr => eraseRefuses_iff.mp hr h).trans (if_neg hflags)
  by_cases hz : instr.len = 0
  · rw [if_pos hz] at heq
    refine ⟨by rw [perform, heq], hnone, ?_, hbytes⟩
    rw [perform, heq]
    refine Effect.nothing fun j => if_neg ?_
    rw [hz]
    show ¬ (_ ∧ j < instr.addr.toNat + 0)
    omega
  · rw [if_neg hz] at heq
    refine ⟨by rw [perform, heq]; rfl, hnone, ?_, hbytes⟩
    have hlen : (List.replicate instr.len.toNat (0xff : Byte)).length = instr.len.toNat := List.length_replicate
    have hputs : ∀ j, (Op.erase instr).puts j =
        if instr.addr.toNat ≤ j ∧ j < instr.addr.toNat + (List.replicate instr.len.toNat (0xff : Byte)).length then
          some ((List.replicate instr.len.toNat (0xff : Byte)).getD (j - instr.addr.toNat) 0)
        else none := fun j => by
      rw [hlen, Op.puts]
      refine ite_congr rfl (fun hj => ?_) fun _ => rfl
      rw [List.getD_eq_getElem?_getD, List.getElem?_replicate_of_lt (by omega)]
      rfl
    have heff : Effect mtd (.erase instr) m _ := Effect.stores (hlen.symm ▸ hend) hputs
    rw [BitVec.ofNat_toNat, BitVec.setWidth_eq] at heff
    rw [perform, heq]
    exact heff

theorem point_succeeds («from» len : Word) (m : Ram) (h : Fits mtd (.point «from» len)) :
    Succeeds mtd (.point «from» len) m := by
  have heq : mtdPoint mtd «from» len = _ := if_neg fun hr => mtdRefuses_iff_not_fits.mp hr h
  refine ⟨?_, fun r hr => ?_, Effect.nothing fun j => rfl, fun f l he => by cases he⟩
  · rw [perform, heq]
    split <;> rfl
  · rw [perform, heq, Option.some.injEq] at hr
    subst hr
    split
    · rename_i hz
      exact hz.symm
    · rfl

theorem read_succeeds («from» len : Word) (m : Ram) (h : Fits mtd (.read «from» len)) :
    Succeeds mtd (.read «from» len) m := by
  have heq : mtdRead mtd «from» len m = _ := if_neg fun hr => mtdRefuses_iff_not_fits.mp hr h
  obtain ⟨k, hk, hend, -⟩ := h.start_eq
  have hfrom := ofNat_of_toInt_eq hk
  by_cases hz : len = 0
  · rw [if_pos hz] at heq
    refine ⟨by rw [perform, heq], fun r hr => ?_, by rw [perform, heq]; exact Effect.nothing fun j => rfl,
      fun f l he => ?_⟩
    · rw [perform, heq, Option.some.injEq] at hr
      exact hr.symm.trans hz.symm
    · cases he
      rw [perform, heq, hz]
      rfl
  · rw [if_neg hz, copyOut_eq] at heq
    refine ⟨by rw [perform, heq], fun r hr => ?_, ?_, fun f l he => ?_⟩
    · rw [perform, heq, Option.some.injEq] at hr
      exact hr.symm
    · rw [perform, heq, hfrom]
      exact ⟨⟨_, rfl, fun a ha => inside_of_mem hend ha⟩, fun _ _ => rfl, fun j _ => rfl⟩
    · cases he
      rw [perform, heq]

theorem write_succeeds («to» len : Word) (buf : ℕ → Byte) (m : Ram) (h : Fits mtd (.write «to» len buf)) :
    Succeeds mtd (.write «to» len buf) m := by
  have heq : mtdWrite mtd «to» len buf m = _ := if_neg fun hr => mtdRefuses_iff_not_fits.mp hr h
  obtain ⟨k, hk, hend, hlt⟩ := h.start_eq
  have hto := ofNat_of_toInt_eq hk
  have htoNat : «to».toNat = k := by
    have hsize := mtd.size.isLt
    rw [hto, BitVec.toNat_ofNat, Nat.mod_eq_of_lt (by omega)]
  have hlen := length_bufBytes buf len
  by_cases hz : len = 0
  · rw [if_pos hz] at heq
    refine ⟨by rw [perform, heq], fun r hr => ?_, ?_, fun f l he => by cases he⟩
    · rw [perform, heq, Option.some.injEq] at hr
      exact hr.symm.trans hz.symm
    · rw [perform, heq]
      refine Effect.nothing fun j => if_neg ?_
      rw [hz]
      show ¬ (_ ∧ j < «to».toNat + 0)
      omega
  · rw [if_neg hz] at heq
    refine ⟨by rw [perform, heq], fun r hr => ?_, ?_, fun f l he => by cases he⟩
    · rw [perform, heq, Option.some.injEq] at hr
      exact hr.symm
    · rw [perform, heq, hto]
      refine Effect.stores (hlen.symm ▸ hend) fun j => ?_
      rw [hlen, Op.puts, BitVec.toNat_ofNat, Nat.mod_eq_of_lt (htoNat ▸ «to».isLt)]
      refine ite_congr rfl (fun hj => ?_) fun _ => rfl
      rw [List.getD_eq_getElem?_getD, getElem?_bufBytes _ (by omega), Option.getD_some]

theorem perform_of_fits (m : Ram) (h : Fits mtd op) (hro : ¬ Readonly mtd op) : Succeeds mtd op m := by
  cases op with
  | erase instr => exact erase_succeeds instr m h fun hf => hro ⟨⟨instr, rfl⟩, hf⟩
  | point «from» len => exact point_succeeds «from» len m h
  | read «from» len => exact read_succeeds «from» len m h
  | write «to» len buf => exact write_succeeds «to» len buf m h

/-! ## Runs -/

/-- The device holds at each offset what was put there last. -/
def Kept (mtd : Mtd) (byte : Word → Byte) (s : Session) : Prop :=
  ∀ j < mtd.size.toNat,
    s.ram.byte (mtd.priv + BitVec.ofNat 32 j) = (lastPut j s.events).getD (byte (mtd.priv + BitVec.ofNat 32 j))

theorem lastPut_append (k : ℕ) (events : List (Op × Outcome)) (op : Op) (o : Outcome) :
    lastPut k (events ++ [(op, o)]) = (if o.value = 0 then op.puts k else none).or (lastPut k events) :=
  latest_append ..

theorem bytesAt_of_kept (hk : Kept mtd byte s) {k n : ℕ} (h : k + n ≤ mtd.size.toNat) :
    bytesAt s.ram.byte (mtd.priv + BitVec.ofNat 32 k) n = (List.range n).map fun i =>
      (lastPut (k + i) s.events).getD (byte (mtd.priv + BitVec.ofNat 32 (k + i))) := by
  refine List.ext_getElem? fun i => ?_
  by_cases hi : i < n
  · rw [getElem?_bytesAt _ _ hi, List.getElem?_map, List.getElem?_range hi, Option.map_some, add_assoc,
      ← BitVec.ofNat_add,
      hk _ (by omega)]
  · rw [List.getElem?_eq_none (by rw [length_bytesAt]; omega), List.getElem?_eq_none (by simpa using hi)]

/-- A failure leaves the device as it was. -/
theorem Kept.failed {o : Outcome} (hk : Kept mtd byte s) (hv : o.value ≠ 0) :
    Kept mtd byte ⟨s.ram, s.events ++ [(op, o)]⟩ := by
  intro j hj
  show s.ram.byte _ = (lastPut j (s.events ++ [(op, o)])).getD _
  rw [lastPut_append, if_neg hv, Option.none_or]
  exact hk j hj

theorem Kept.succeeded (hk : Kept mtd byte s) (hs : Succeeds mtd op s.ram) :
    Kept mtd byte ⟨(perform mtd op s.ram).2, s.events ++ [(op, (perform mtd op s.ram).1)]⟩ := by
  intro j hj
  show (perform mtd op s.ram).2.byte _ = (lastPut j (s.events ++ [(op, (perform mtd op s.ram).1)])).getD _
  rw [lastPut_append, if_pos hs.value, hs.effect.put j hj, hk j hj]
  cases op.puts j with
  | none => rfl
  | some c => rfl

/-- **One operation.** -/
theorem step_right (op : Op) (hk : Kept mtd byte s) :
    ∃ o t, step mtd s op = some t ∧ t.events = s.events ++ [(op, o)] ∧ Right mtd byte s op t o ∧ Kept mtd byte t := by
  refine ⟨(perform mtd op s.ram).1, _, rfl, rfl, ?_⟩
  have hnothing : ∃ as, s.ram.touched = s.ram.touched ++ as ∧ ∀ a ∈ as, Inside mtd a :=
    ⟨[], (List.append_nil _).symm, fun _ ha => absurd ha List.not_mem_nil⟩
  by_cases hf : Fits mtd op
  · by_cases hro : Readonly mtd op
    · rw [perform_of_readonly s.ram hf hro]
      refine ⟨?_, hk.failed (by simp)⟩
      exact {
        inside := hnothing
        outside := fun _ _ => rfl
        einval := ⟨fun hv => absurd hv (by simp), fun hn => absurd hf hn⟩
        erofs := ⟨fun _ => ⟨hf, hro⟩, fun _ => rfl⟩
        values := .inr (.inr rfl)
        fails := fun _ => ⟨rfl, fun r hr => by cases hr⟩
        done := fun hv => absurd hv (by simp)
        reads := fun _ _ _ hv => absurd hv (by simp) }
    · have hs := perform_of_fits s.ram hf hro
      refine ⟨?_, hk.succeeded hs⟩
      exact {
        inside := hs.effect.inside
        outside := hs.effect.outside
        einval := ⟨fun hv => absurd (hs.value.symm.trans hv) (by decide), fun hn => absurd hf hn⟩
        erofs := ⟨fun hv => absurd (hs.value.symm.trans hv) (by decide), fun h => absurd h.2 hro⟩
        values := .inl hs.value
        fails := fun hv => absurd hs.value hv
        done := fun _ => hs.retlen
        reads := fun f l he _ => by
          subst he
          obtain ⟨k, hfrom, hend, -⟩ := hf.start_eq
          have hword := ofNat_of_toInt_eq hfrom
          have hsize := mtd.size.isLt
          have htoNat : f.toNat = k := by rw [hword, BitVec.toNat_ofNat, Nat.mod_eq_of_lt (by omega)]
          rw [hs.reads f l rfl, htoNat, hword]
          exact bytesAt_of_kept hk hend }
  · rw [perform_of_not_fits s.ram hf]
    refine ⟨?_, hk.failed (by simp)⟩
    exact {
      inside := hnothing
      outside := fun _ _ => rfl
      einval := ⟨fun _ => hf, fun _ => rfl⟩
      erofs := ⟨fun hv => absurd hv (by simp), fun h => absurd h.1 hf⟩
      values := .inr (.inl rfl)
      fails := fun _ => ⟨rfl, fun r hr => by cases op <;> cases hr <;> rfl⟩
      done := fun hv => absurd hv (by simp)
      reads := fun _ _ _ hv => absurd hv (by simp) }

theorem run_right (ops : List Op) (hk : Kept mtd byte s) :
    ∃ t, run (step mtd) s ops = some t ∧ ∀ x ∈ trace (step mtd) s ops,
      ∃ o, x.post.events = x.pre.events ++ [(x.act, o)] ∧ Right mtd byte x.pre x.act x.post o := by
  induction ops generalizing s with
  | nil => exact ⟨s, rfl, fun x hx => absurd hx List.not_mem_nil⟩
  | cons op ops ih =>
    obtain ⟨o, t, ht, hev, hright, hkept⟩ := step_right op hk
    obtain ⟨u, hu, hall⟩ := ih hkept
    refine ⟨u, ?_, forall_trace_cons ht ⟨o, hev, hright⟩ hall⟩
    rw [run_cons, ht]
    exact hu

end

/-- **Every access of a device in RAM** stays in the device, is refused exactly where it should
be, and reads back what was put there last. -/
theorem runs_right (mtd : Mtd) (byte : Word → Byte) (ops : List Op) :
    ∃ t, run (step mtd) ⟨⟨byte, []⟩, []⟩ ops = some t ∧ ∀ x ∈ trace (step mtd) ⟨⟨byte, []⟩, []⟩ ops,
      ∃ o, x.post.events = x.pre.events ++ [(x.act, o)] ∧ Right mtd byte x.pre x.act x.post o :=
  run_right ops fun _ _ => rfl

end PikoRT.Fs.Mtdram

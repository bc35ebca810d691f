import PikoRT.Arch.Signal
import PikoRT.Lib.Run

/-! # The table of signal handlers (`kernel/signal.c`)

`sys_sigaction` puts a new record in front of the list of its task, and `sys_kill` takes the
first record of its signal. Nothing takes a record out again. -/
namespace PikoRT.Arch.SignalTable
open PikoRT.Lib.Run PikoRT.Kernel.Bitops PikoRT.Arch.V7m PikoRT.Arch.Entry PikoRT.Arch.Signal

def SIGKILL : Word := 9
def SIGUSR1 : Word := 10
def SIGUSR2 : Word := 12
def SIGSTOP : Word := 19
def SIGMAX : ℤ := 31

/-- `struct sigaction`, all of it. -/
structure Storage extends Sigaction where
  saMask : Word
  saList : Word × Word
  saSigno : Word

structure SignalInfo where
  signo : Word
  actStorage : Storage

inductive Errno
  | EINVAL | EFAULT | ENOMEM
  deriving DecidableEq, Repr

/-- Of the `signal_head` of the current task; what is found is copied or read at once. -/
def findSigactionBySig (sig : Word) (signals : List SignalInfo) : Option Storage :=
  (signals.find? fun signal => decide (signal.signo = sig)).map SignalInfo.actStorage

/-- What `sys_sigaction` returns, the error, and what it has stored at `oldact`. -/
structure Installed where
  value : ℤ
  errno : Option Errno
  stored : Option Storage

/-- `sys_sigaction`; `oldact` says whether the pointer is not null, and `granted` whether `malloc` has
a block for the record. -/
def sysSigaction (signo : Word) (act : Option Storage) (oldact granted : Bool) (signals : List SignalInfo) :
    Installed × List SignalInfo :=
  if signo = SIGKILL ∨ signo = SIGSTOP then (⟨-1, some .EINVAL, none⟩, signals)
  else
    match act with
    | none => (⟨-1, some .EFAULT, none⟩, signals)
    | some act =>
      let stored := if oldact then findSigactionBySig signo signals else none
      if granted then (⟨0, none, stored⟩, ⟨signo, act⟩ :: signals) else (⟨-1, some .ENOMEM, stored⟩, signals)

def supportedSignalMask : Word := 1 <<< 9 ||| 1 <<< 10 ||| 1 <<< 12 ||| 1 <<< 19

/-- The words from `&supported_signal_mask` on. -/
def maskWord (behind : ℕ → Word) (i : ℕ) : Word := if i = 0 then supportedSignalMask else behind i

/-- `is_signal_supported`, with the indices at which `bitmap_get_bit` has read the mask. The `int`
becomes an `unsigned long` there. -/
def isSignalSupported (behind : ℕ → Word) (sig : Word) : Bool × List ℕ :=
  if SIGMAX < sig.toInt then (false, [])
  else
    let i := sig.toNat / BITS_PER_LONG
    (decide ((maskWord behind i >>> (sig.toNat % BITS_PER_LONG)) &&& 1 ≠ 0), [i])

/-- `return -EINVAL`. -/
def refuse (s : Cpu) : Cpu := { s with r := Function.update s.r .r0 (-22), pc := s.r .lr }

variable (L : Labels)

/-- `sys_kill`, with the indices of the mask. -/
def sysKill (behind : ℕ → Word) (signals : List SignalInfo) (s : Cpu) : Cpu × List ℕ :=
  let sig := s.r .r1
  let supported := isSignalSupported behind sig
  if supported.1 = false then (refuse s, supported.2)
  else
    match findSigactionBySig sig signals with
    | none => (refuse s, supported.2)
    | some act => (Signal.sysKill L act.toSigaction s, supported.2)

/-! ## Histories -/

inductive Op where
  | sigaction (signo : Word) (act : Option Storage) (oldact granted : Bool)
  | kill (behind : ℕ → Word) (s : Cpu)

inductive Result where
  | sigaction (r : Installed)
  | kill (t : Cpu) (reads : List ℕ)

structure Session where
  signals : List SignalInfo
  events : List (Op × Result)

def perform (op : Op) (signals : List SignalInfo) : Result × List SignalInfo :=
  match op with
  | .sigaction signo act oldact granted =>
    let r := sysSigaction signo act oldact granted signals
    (.sigaction r.1, r.2)
  | .kill behind s =>
    let r := sysKill L behind signals s
    (.kill r.1 r.2, signals)

def step (s : Session) (op : Op) : Option Session :=
  let r := perform L op s.signals
  some ⟨r.2, s.events ++ [(op, r.1)]⟩

/-! ## What they should do -/

def Supported (sig : Word) : Prop := sig = SIGKILL ∨ sig = SIGUSR1 ∨ sig = SIGUSR2 ∨ sig = SIGSTOP

instance (sig : Word) : Decidable (Supported sig) := inferInstanceAs (Decidable (_ ∨ _ ∨ _ ∨ _))

/-- The action that an event has installed for `sig`, if it has. -/
def installs (sig : Word) : Op × Result → Option Storage
  | (.sigaction signo act _ _, .sigaction r) => if signo = sig ∧ r.value = 0 then act else none
  | _ => none

def lastInstalled (sig : Word) (events : List (Op × Result)) : Option Storage := latest (installs sig) events

/-- The frame of the action is under that of the thread, if the kernel's words are apart from them. -/
def Stages (act : Storage) (s t : Cpu) : Prop :=
  t = Signal.sysKill L act.toSigaction s ∧ (MachApart s → ∃ u,
    Staged (ownBytes act.toSigaction) (trampoline L act.toSigaction ||| 1) (act.handler &&& ~~~1) s u ∧
      t = { u with r := Function.update s.r .r0 (s.r .r1), pc := s.r .lr })

/-- What `sys_kill` has to do. -/
def KillRight (events : List (Op × Result)) (s t : Cpu) (reads : List ℕ) : Prop :=
  (∀ i ∈ reads, i = 0) ∧
    match (if Supported (s.r .r1) then lastInstalled (s.r .r1) events else none) with
    | some act => t.r .r0 = s.r .r1 ∧ Stages L act s t
    | none => t.r .r0 = -22 ∧ t.mem = s.mem ∧ t.psp = s.psp

/-- How many records a signal has. -/
def records (sig : Word) (signals : List SignalInfo) : ℕ := signals.countP fun signal => decide (signal.signo = sig)

def Right (s : Session) (op : Op) (t : Session) : Prop :=
  (∀ sig, records sig t.signals ≤ 1) ∧ ∃ r, t.events = s.events ++ [(op, r)] ∧
    match op, r with
    | .sigaction signo _ oldact _, .sigaction r => oldact = true → r.stored = lastInstalled signo s.events
    | .kill _ c, .kill t reads => KillRight L s.events c t reads
    | _, _ => False

/-- A `kill` with a number that is not negative; a `sigaction` for a signal that has no action yet, or
one that is refused and has nothing to store. -/
def Meets (s : Session) : Op → Prop
  | .kill _ c => 0 ≤ (c.r .r1).toInt
  | .sigaction signo act oldact granted => lastInstalled signo s.events = none ∨
      match act with
      | none => oldact = false
      | some _ => granted = false

section

variable {L : Labels} {s t : Session} {op : Op} {sig signo : Word} {signals : List SignalInfo} {behind : ℕ → Word}

/-! ## The support test -/

theorem supported_bit (n : Fin 32) :
    (supportedSignalMask >>> n.val) &&& 1 ≠ 0 ↔ n.val = 9 ∨ n.val = 10 ∨ n.val = 12 ∨ n.val = 19 := by
  revert n
  decide

theorem supported_iff_toNat : Supported sig ↔ sig.toNat = 9 ∨ sig.toNat = 10 ∨ sig.toNat = 12 ∨ sig.toNat = 19 := by
  have hword : ∀ n : ℕ, n < 2 ^ 32 → (sig = BitVec.ofNat 32 n ↔ sig.toNat = n) := fun n hn => by
    rw [← BitVec.toNat_inj, BitVec.toNat_ofNat, Nat.mod_eq_of_lt hn]
  exact or_congr (hword 9 (by decide))
    (or_congr (hword 10 (by decide)) (or_congr (hword 12 (by decide)) (hword 19 (by decide))))

/-- A number that is not negative does not lead behind the mask. -/
theorem isSignalSupported_spec (behind : ℕ → Word) (h : 0 ≤ sig.toInt) :
    (isSignalSupported behind sig).1 = decide (Supported sig) ∧ ∀ i ∈ (isSignalSupported behind sig).2, i = 0 := by
  have hint := BitVec.toInt_eq_toNat_cond sig
  have hlt := sig.isLt
  have hnat : sig.toInt = sig.toNat := by split at hint <;> omega
  unfold isSignalSupported
  by_cases hmax : SIGMAX < sig.toInt
  · rw [if_pos hmax]
    have hnot : ¬ Supported sig := by
      rw [supported_iff_toNat]
      unfold SIGMAX at hmax
      omega
    exact ⟨(decide_eq_false hnot).symm, fun i hi => absurd hi List.not_mem_nil⟩
  · rw [if_neg hmax]
    unfold SIGMAX at hmax
    have hsmall : sig.toNat < 32 := by omega
    have hzero : sig.toNat / BITS_PER_LONG = 0 := Nat.div_eq_of_lt hsmall
    dsimp only
    rw [hzero, Nat.mod_eq_of_lt hsmall]
    refine ⟨?_, fun i hi => List.mem_singleton.mp hi⟩
    rw [decide_eq_decide, supported_iff_toNat]
    exact supported_bit ⟨sig.toNat, hsmall⟩

/-- A negative one does. -/
theorem isSignalSupported_negative (behind : ℕ → Word) (h : sig.toInt < 0) :
    ∃ i ∈ (isSignalSupported behind sig).2, i ≠ 0 := by
  have hint := BitVec.toInt_eq_toNat_cond sig
  have hlt := sig.isLt
  unfold isSignalSupported
  rw [if_neg (by unfold SIGMAX; omega)]
  refine ⟨_, List.mem_singleton_self _, ?_⟩
  unfold BITS_PER_LONG
  split at hint <;> omega

theorem snd_sysKill (signals : List SignalInfo) (c : Cpu) :
    (sysKill L behind signals c).2 = (isSignalSupported behind (c.r .r1)).2 := by
  unfold sysKill
  dsimp only
  split
  · rfl
  · split <;> rfl

/-! ## The list -/

theorem find_cons (signal : SignalInfo) (signals : List SignalInfo) :
    findSigactionBySig sig (signal :: signals) =
      if signal.signo = sig then some signal.actStorage else findSigactionBySig sig signals := by
  unfold findSigactionBySig
  by_cases h : signal.signo = sig
  · rw [List.find?_cons_of_pos (by simpa using h), if_pos h]
    rfl
  · rw [List.find?_cons_of_neg (by simpa using h), if_neg h]

theorem records_cons (signal : SignalInfo) (signals : List SignalInfo) :
    records sig (signal :: signals) = records sig signals + if signal.signo = sig then 1 else 0 := by
  unfold records
  rw [List.countP_cons]
  congr 1
  simp

theorem records_eq_zero_iff : records sig signals = 0 ↔ findSigactionBySig sig signals = none := by
  unfold records findSigactionBySig
  rw [List.countP_eq_zero, Option.map_eq_none_iff, List.find?_eq_none]

/-- The list and the history agree. -/
structure Kept (s : Session) : Prop where
  found : ∀ sig, findSigactionBySig sig s.signals = lastInstalled sig s.events
  single : ∀ sig, records sig s.signals ≤ 1
  reserved : ∀ sig, sig = SIGKILL ∨ sig = SIGSTOP → lastInstalled sig s.events = none

theorem lastInstalled_append (sig : Word) (events : List (Op × Result)) (op : Op) (r : Result) :
    lastInstalled sig (events ++ [(op, r)]) = (installs sig (op, r)).or (lastInstalled sig events) := latest_append ..

/-- An event that installs nothing. -/
theorem Kept.append {r : Result} (hk : Kept s) (h : ∀ sig, installs sig (op, r) = none) :
    Kept ⟨s.signals, s.events ++ [(op, r)]⟩ := by
  have hlast : ∀ sig, lastInstalled sig (s.events ++ [(op, r)]) = lastInstalled sig s.events := fun sig => by
    rw [lastInstalled_append, h sig, Option.none_or]
  exact ⟨fun sig => (hk.found sig).trans (hlast sig).symm, hk.single,
    fun sig hr => (hlast sig).trans (hk.reserved sig hr)⟩

/-! ## `sys_kill` -/

theorem killRight_iff (hk : Kept s) (c : Cpu) :
    KillRight L s.events c (sysKill L behind s.signals c).1 (sysKill L behind s.signals c).2 ↔
    0 ≤ (c.r .r1).toInt := by
  constructor
  · intro h
    by_contra hneg
    obtain ⟨i, hi, hne⟩ := isSignalSupported_negative behind (not_le.mp hneg)
    rw [← snd_sysKill (L := L) s.signals c] at hi
    exact hne (h.1 i hi)
  · intro hpos
    obtain ⟨hsup, hreads⟩ := isSignalSupported_spec behind hpos
    refine ⟨by rw [snd_sysKill]; exact hreads, ?_⟩
    unfold sysKill
    dsimp only
    rw [hsup, hk.found]
    by_cases h : Supported (c.r .r1)
    · rw [if_pos h, decide_eq_true h, if_neg (by simp)]
      cases lastInstalled (c.r .r1) s.events with
      | none => exact ⟨rfl, rfl, rfl⟩
      | some act => exact ⟨rfl, rfl, fun hapart => sysKill_staged L act.toSigaction hapart⟩
    · rw [if_neg h, decide_eq_false h, if_pos rfl]
      exact ⟨rfl, rfl, rfl⟩

/-! ## `sys_sigaction` -/

theorem sysSigaction_reserved (h : signo = SIGKILL ∨ signo = SIGSTOP) (act : Option Storage) (oldact granted : Bool)
    (signals : List SignalInfo) :
    sysSigaction signo act oldact granted signals = (⟨-1, some .EINVAL, none⟩, signals) := if_pos h

theorem sysSigaction_null (h : ¬ (signo = SIGKILL ∨ signo = SIGSTOP)) (oldact granted : Bool)
    (signals : List SignalInfo) :
    sysSigaction signo none oldact granted signals = (⟨-1, some .EFAULT, none⟩, signals) := if_neg h

theorem sysSigaction_denied (h : ¬ (signo = SIGKILL ∨ signo = SIGSTOP)) (act : Storage) (oldact : Bool)
    (signals : List SignalInfo) :
    sysSigaction signo (some act) oldact false signals =
      (⟨-1, some .ENOMEM, if oldact then findSigactionBySig signo signals else none⟩, signals) := if_neg h

theorem sysSigaction_granted (h : ¬ (signo = SIGKILL ∨ signo = SIGSTOP)) (act : Storage) (oldact : Bool)
    (signals : List SignalInfo) :
    sysSigaction signo (some act) oldact true signals =
      (⟨0, none, if oldact then findSigactionBySig signo signals else none⟩, ⟨signo, act⟩ :: signals) := if_neg h

/-- What is said of a call of `sys_sigaction`. -/
theorem right_sigaction_iff {act : Option Storage} {oldact granted : Bool} {r : Installed} :
    Right L s (.sigaction signo act oldact granted)
    ⟨signals, s.events ++ [(.sigaction signo act oldact granted, .sigaction r)]⟩ ↔
      (∀ sig, records sig signals ≤ 1) ∧ (oldact = true → r.stored = lastInstalled signo s.events) := by
  constructor
  · intro h
    obtain ⟨hsingle, r', hev, hstored⟩ := h
    obtain rfl : Result.sigaction r = r' := (Prod.mk.inj (List.singleton_inj.mp (List.append_cancel_left hev))).2
    exact ⟨hsingle, hstored⟩
  · intro h
    exact ⟨h.1, .sigaction r, rfl, h.2⟩

/-- A new record in front. -/
theorem single_cons_iff (hk : Kept s) (act : Storage) :
    (∀ sig, records sig (⟨signo, act⟩ :: s.signals) ≤ 1) ↔ lastInstalled signo s.events = none := by
  rw [← hk.found, ← records_eq_zero_iff]
  constructor
  · intro h
    have hone := h signo
    rw [records_cons, if_pos rfl] at hone
    omega
  · intro h sig
    have hle := hk.single sig
    rw [records_cons]
    by_cases hs : signo = sig
    · rw [if_pos hs, ← hs, h]
    · rw [if_neg hs]
      exact hle

theorem sigaction_right_iff (hk : Kept s) (act : Option Storage) (oldact granted : Bool)
    (ht : step L s (.sigaction signo act oldact granted) = some t) :
    Right L s (.sigaction signo act oldact granted) t ↔ Meets s (.sigaction signo act oldact granted) := by
  obtain rfl := Option.some.inj ht
  by_cases hres : signo = SIGKILL ∨ signo = SIGSTOP
  · have hnone := hk.reserved signo hres
    simp only [perform, sysSigaction_reserved hres]
    rw [right_sigaction_iff]
    exact iff_of_true ⟨hk.single, fun _ => hnone.symm⟩ (.inl hnone)
  · cases act with
    | none =>
      simp only [perform, sysSigaction_null hres]
      rw [right_sigaction_iff, and_iff_right hk.single]
      cases oldact with
      | false => exact iff_of_true (fun h => by cases h) (.inr rfl)
      | true => exact ⟨fun h => .inl (h rfl).symm, fun h _ => (h.resolve_right (by simp)).symm⟩
    | some act =>
      have hstored : oldact = true → (if oldact then findSigactionBySig signo s.signals else none) =
          lastInstalled signo s.events := fun h => by rw [if_pos h, hk.found]
      cases granted with
      | false =>
        simp only [perform, sysSigaction_denied hres]
        rw [right_sigaction_iff]
        exact iff_of_true ⟨hk.single, hstored⟩ (.inr rfl)
      | true =>
        simp only [perform, sysSigaction_granted hres]
        rw [right_sigaction_iff, and_iff_left hstored, single_cons_iff hk]
        exact ⟨.inl, fun h => h.resolve_right (by simp)⟩

/-! ## Both -/

theorem step_right_iff (hk : Kept s) (ht : step L s op = some t) : Right L s op t ↔ Meets s op := by
  cases op with
  | sigaction signo act oldact granted => exact sigaction_right_iff hk act oldact granted ht
  | kill behind c =>
    obtain rfl := Option.some.inj ht
    have hright : KillRight L s.events c (sysKill L behind s.signals c).1 (sysKill L behind s.signals c).2 ↔
      0 ≤ (c.r .r1).toInt :=
      killRight_iff hk c
    refine Iff.trans ?_ hright
    constructor
    · intro h
      obtain ⟨-, r, hev, hkill⟩ := h
      obtain rfl := (Prod.mk.inj (List.singleton_inj.mp (List.append_cancel_left hev))).2
      exact hkill
    · exact fun h => ⟨hk.single, _, rfl, h⟩

theorem Kept.installed (hk : Kept s) (hres : ¬ (signo = SIGKILL ∨ signo = SIGSTOP)) {act : Storage} {oldact : Bool}
    {r : Installed} (hv : r.value = 0) (hsingle : ∀ sig, records sig (⟨signo, act⟩ :: s.signals) ≤ 1) :
    Kept ⟨⟨signo, act⟩ :: s.signals, s.events ++ [(.sigaction signo (some act) oldact true, .sigaction r)]⟩ := by
  have hlast : ∀ sig, lastInstalled sig (s.events ++ [(.sigaction signo (some act) oldact true, .sigaction r)]) =
      if signo = sig then some act else lastInstalled sig s.events := fun sig => by
    rw [lastInstalled_append, installs]
    by_cases hs : signo = sig
    · rw [if_pos ⟨hs, hv⟩, if_pos hs]
      rfl
    · rw [if_neg fun h => hs h.1, if_neg hs, Option.none_or]
  refine ⟨fun sig => ?_, hsingle, fun sig hr => ?_⟩
  · rw [find_cons, hlast, hk.found]
  · rw [hlast, if_neg (by rintro rfl; exact hres hr)]
    exact hk.reserved sig hr

theorem step_kept (hk : Kept s) (hm : Meets s op) (ht : step L s op = some t) : Kept t := by
  have hright := (step_right_iff hk ht).mpr hm
  obtain rfl := Option.some.inj ht
  cases op with
  | kill behind c => exact hk.append fun sig => rfl
  | sigaction signo act oldact granted =>
    have hfails : ∀ r : Installed, r.value ≠ 0 → ∀ sig,
      installs sig (.sigaction signo act oldact granted, .sigaction r) = none :=
      fun r hr sig => if_neg fun h => hr h.2
    by_cases hres : signo = SIGKILL ∨ signo = SIGSTOP
    · simp only [perform, sysSigaction_reserved hres]
      exact hk.append (hfails _ (by simp))
    · cases act with
      | none =>
        simp only [perform, sysSigaction_null hres]
        exact hk.append (hfails _ (by simp))
      | some act =>
        cases granted with
        | false =>
          simp only [perform, sysSigaction_denied hres]
          exact hk.append (hfails _ (by simp))
        | true =>
          simp only [perform, sysSigaction_granted hres] at hright ⊢
          exact hk.installed hres rfl hright.1

theorem kept_nil : Kept ⟨[], []⟩ := ⟨fun _ => rfl, fun _ => Nat.zero_le _, fun _ _ => rfl⟩

end

/-- **All calls of a history are right** exactly when none of them installs a second action for a
signal, passes over an installed one, or sends a negative number. -/
theorem history_right_iff (L : Labels) (ops : List Op) :
    (∀ x ∈ trace (step L) ⟨[], []⟩ ops, Right L x.pre x.act x.post) ↔
      ∀ x ∈ trace (step L) ⟨[], []⟩ ops, Meets x.pre x.act :=
  trace_forall_iff (I := Kept) (Q := Right L) (C := Meets) (fun _ _ _ hk ht => step_right_iff hk ht)
    (fun _ _ _ hk hm ht => step_kept hk hm ht) kept_nil

def firstAction : Storage := ⟨⟨0x8000, 0⟩, 0, (0, 0), 0⟩

def secondAction : Storage := ⟨⟨0x9000, 0⟩, 0, (0, 0), 0⟩

/-- Two actions for SIGUSR1 are two records. -/
theorem second_action_kept :
    ∃ L, ∃ x ∈ trace (step L) ⟨[], []⟩
        [.sigaction SIGUSR1 (some firstAction) false true, .sigaction SIGUSR1 (some secondAction) false true],
      ¬ Right L x.pre x.act x.post := by
  refine ⟨⟨0x100, 0x200, by decide, by decide, by decide⟩, _, List.mem_cons_of_mem _ (List.mem_singleton_self _),
    fun h => ?_⟩
  have hone : records SIGUSR1 [⟨SIGUSR1, secondAction⟩, ⟨SIGUSR1, firstAction⟩] ≤ 1 := h.1 SIGUSR1
  exact absurd hone (by decide)

end PikoRT.Arch.SignalTable

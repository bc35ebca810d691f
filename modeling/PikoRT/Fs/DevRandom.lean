import Mathlib

/-! # The random device (`drivers/char/random.c`)

`read_random` hands out the bytes of the numbers of a generator and keeps what is left of the last one.
With each byte that is handed out the model notes where it was loaded from. -/
namespace PikoRT.Fs.DevRandom

abbrev Byte := BitVec 8

abbrev Word := BitVec 32

/-- The statics of `next`. -/
structure Generator where
  s : ℕ → BitVec 64
  p : ℕ

def seed : Generator where
  s := fun i => [
    0x84242f96eca9c41d#64, 0xa3c65b8776f96855#64, 0x5b34a39f070b5837#64, 0x4489affce4f31a1e#64,
    0x2ffeeb0a48316f40#64, 0xdc2d9891fe68c022#64, 0x3659132bb12fea70#64, 0xaac17d8efa43cab8#64,
    0xc4cb815590989b13#64, 0x5ee975283d71c93b#64, 0x691548c86c1bd540#64, 0x7910c41d10a1e6a5#64,
    0x0b5fc64563b3e2a8#64, 0x047f7684e9fc949d#64, 0xb99181f2d8f685ca#64, 0x284600e3f30e38c3#64].getD i 0
  p := 0

def next (g : Generator) : BitVec 64 × Generator :=
  let s0 := g.s g.p
  let p := (g.p + 1) &&& 15
  let s1 := g.s p
  let s1 := s1 ^^^ (s1 <<< 31)
  let sp := s1 ^^^ s0 ^^^ (s1 >>> 11) ^^^ (s0 >>> 30)
  (sp * 1181783497276652981#64, ⟨Function.update g.s p sp, p⟩)

/-- The number that the call of `next` after `k` others returns. -/
def output (k : ℕ) : BitVec 64 := (next ((fun g => (next g).2)^[k] seed)).1

/-- The byte at an offset in the memory of a number. -/
def byteOf (m : BitVec 64) (offset : ℕ) : Byte := (m >>> (8 * offset)).setWidth 8

/-- The bytes of the generator: eight for each call of `next`. -/
def stream (i : ℕ) : Byte := byteOf (output (i / 8)) (i % 8)

/-! ## Reading -/

/-- A byte that was handed out, with the place it was loaded from: the offset from `&m`, and how often `next` had been
called. -/
structure Delivered where
  byte : Byte
  calls : ℕ
  offset : ℤ

structure State where
  generator : Generator
  calls : ℕ
  m : BitVec 64
  remainingBytes : Word

def start : State := ⟨seed, 0, 0, 0⟩

/-- `memcpy(buf, (char *) &m + offset, count)`; around `m` there is other memory. -/
def memcpy (around : ℤ → Byte) (s : State) (offset : ℤ) (count : ℕ) : List Delivered :=
  (List.range count).map fun j : ℕ =>
    let o := offset + j
    ⟨if 0 ≤ o ∧ o < 8 then byteOf s.m o.toNat else around o, s.calls, o⟩

/-- `m = next()`. -/
def draw (s : State) : State :=
  let r := next s.generator
  { s with generator := r.2, calls := s.calls + 1, m := r.1 }

/-- `remaining_bytes = left`. -/
def State.keep (left : Word) (s : State) : State := { s with remainingBytes := left }

/-- The loop of `read_random`, for an `i` that is not negative. -/
def fill (around : ℤ → Byte) (i : ℕ) (s : State) : List Delivered × State :=
  if 0 < i then
    let out := memcpy around (draw s) 0 (min i 8)
    let r := fill around (i - 8) ((draw s).keep (8 - BitVec.ofNat 32 (min i 8)))
    (out ++ r.1, r.2)
  else ([], s)
termination_by i

/-- A call that has come back. -/
structure Call where
  count : Word
  out : List Delivered
  value : Word

def readRandom (around : ℤ → Byte) (count : Word) (s : State) : Call × State :=
  if count.toInt ≤ s.remainingBytes.toInt then
    (⟨count, memcpy around s (8 - s.remainingBytes.toInt) count.toNat, count⟩, s.keep (s.remainingBytes - count))
  else
    let r := fill around count.toInt.toNat s
    (⟨count, r.1, count⟩, r.2)

/-- The calls with these counts, one after the other. -/
def calls (around : ℤ → Byte) : List Word → State → List Call
  | [], _ => []
  | count :: counts, s => (readRandom around count s).1 :: calls around counts (readRandom around count s).2

/-! ## What it owes -/

/-- The position in the stream that a byte of `m` has. -/
def Delivered.position (d : Delivered) : ℕ := 8 * (d.calls - 1) + d.offset.toNat

/-- The byte was loaded from `m`, and is the one of the stream. -/
structure Delivered.Streamed (d : Delivered) : Prop where
  drawn : 0 < d.calls
  inside : 0 ≤ d.offset ∧ d.offset < 8
  byte : d.byte = stream d.position

/-- Every call hands out as many bytes as it should and says so; all of them are of the stream, in
order and none twice. -/
structure Right (cs : List Call) : Prop where
  full : ∀ c ∈ cs, c.out.length = c.count.toNat ∧ c.value = c.count
  streamed : ∀ d ∈ cs.flatMap Call.out, d.Streamed
  once : ((cs.flatMap Call.out).map Delivered.position).Pairwise (· < ·)

/-! ## One call -/

/-- `m` is the number that was drawn last, and its last `remaining_bytes` bytes are left. -/
structure Inv (s : State) : Prop where
  left : s.remainingBytes.toNat ≤ 8
  generator : s.generator = (fun g => (next g).2)^[s.calls] seed
  m : 0 < s.calls → s.m = output (s.calls - 1)
  drawn : 0 < s.remainingBytes.toNat → 0 < s.calls

/-- All positions from here on are still to come. -/
def front (s : State) : ℕ := 8 * s.calls - s.remainingBytes.toNat

section

variable (around : ℤ → Byte) {s : State} {count : Word} {i n o : ℕ}

theorem inv_start : Inv start := ⟨by decide, rfl, fun h => absurd h (lt_irrefl 0), fun h => absurd h (lt_irrefl 0)⟩

theorem length_memcpy (o : ℤ) : (memcpy around s o n).length = n := by rw [memcpy, List.length_map, List.length_range]

/-- Bytes of `m` are those of the stream. -/
theorem memcpy_spec (h : Inv s) (hcalls : 0 < s.calls) (hn : o + n ≤ 8) :
    (∀ d ∈ memcpy around s o n, d.Streamed) ∧
      (memcpy around s o n).map Delivered.position = List.range' (8 * (s.calls - 1) + o) n := by
  constructor
  · intro d hd
    obtain ⟨j, hj, rfl⟩ := List.mem_map.mp hd
    have hlt := List.mem_range.mp hj
    have hin : (0 : ℤ) ≤ o + j ∧ (o : ℤ) + j < 8 := by omega
    have hnat : ((o : ℤ) + j).toNat = o + j := by omega
    have hdiv : (8 * (s.calls - 1) + (o + j)) / 8 = s.calls - 1 := by omega
    have hmod : (8 * (s.calls - 1) + (o + j)) % 8 = o + j := by omega
    refine ⟨hcalls, hin, ?_⟩
    simp only [Delivered.position]
    rw [if_pos hin, hnat, stream, hdiv, hmod, h.m hcalls]
  · rw [memcpy, List.map_map, List.range'_eq_map_range]
    refine List.map_congr_left fun j hj => ?_
    show 8 * (s.calls - 1) + ((o : ℤ) + j).toNat = 8 * (s.calls - 1) + o + j
    omega

theorem draw_generator (h : Inv s) : (draw s).generator = (fun g => (next g).2)^[(draw s).calls] seed := by
  show (next s.generator).2 = (fun g => (next g).2)^[s.calls + 1] seed
  rw [h.generator, Function.iterate_succ_apply']

theorem inv_draw (h : Inv s) (hi : i ≤ 8) : Inv ((draw s).keep (8 - BitVec.ofNat 32 i)) ∧
    (8 - BitVec.ofNat 32 i : Word).toNat = 8 - i := by
  have hleft : (8 - BitVec.ofNat 32 i : Word).toNat = 8 - i := by
    have h8 : (8 : Word).toNat = 8 := rfl
    have hofNat : (BitVec.ofNat 32 i).toNat = i := by
      rw [BitVec.toNat_ofNat]
      omega
    rw [BitVec.toNat_sub, hofNat, h8]
    omega
  refine ⟨⟨?_, draw_generator h, fun _ => ?_, fun _ => Nat.succ_pos _⟩, hleft⟩
  · show (8 - BitVec.ofNat 32 i : Word).toNat ≤ 8
    omega
  · show (next s.generator).1 = output s.calls
    rw [h.generator]
    rfl

theorem fill_zero : fill around 0 s = ([], s) := by
  rw [fill]
  exact if_neg (lt_irrefl 0)

theorem fill_pos (hi : 0 < i) : fill around i s =
    (memcpy around (draw s) 0 (min i 8) ++ (fill around (i - 8) ((draw s).keep (8 - BitVec.ofNat 32 (min i 8)))).1,
      (fill around (i - 8) ((draw s).keep (8 - BitVec.ofNat 32 (min i 8)))).2) := by
  rw [fill]
  exact if_pos hi

/-- The loop hands out the next `i` positions, from a new number on. -/
theorem fill_spec (h : Inv s) :
    (∀ d ∈ (fill around i s).1, d.Streamed) ∧ (fill around i s).1.map Delivered.position =
      List.range' (8 * s.calls) i ∧
      Inv (fill around i s).2 ∧ (0 < i → front (fill around i s).2 = 8 * s.calls + i) := by
  induction i using Nat.strong_induction_on generalizing s with
  | _ i ih =>
    by_cases hpos : 0 < i
    · obtain ⟨hinv, hleft⟩ := inv_draw h (Nat.min_le_right i 8)
      obtain ⟨hcopy, hcopyPos⟩ := memcpy_spec around (n := min i 8) (o := 0) hinv (Nat.succ_pos _) (by omega)
      obtain ⟨hrest, hrestPos, hrestInv, hrestFront⟩ := ih (i - 8) (by omega) hinv
      rw [fill_pos around hpos]
      refine ⟨fun d hd => ?_, ?_, hrestInv, fun _ => ?_⟩
      · rcases List.mem_append.mp hd with hd | hd
        · exact hcopy d hd
        · exact hrest d hd
      · have hcopied : (memcpy around (draw s) 0 (min i 8)).map Delivered.position =
          List.range' (8 * s.calls) (min i 8) := hcopyPos
        rw [List.map_append, hcopied, hrestPos]
        show _ ++ List.range' (8 * (s.calls + 1)) (i - 8) = _
        rcases Nat.le_total i 8 with hle | hle
        · rw [Nat.min_eq_left hle, Nat.sub_eq_zero_of_le hle, List.range'_zero, List.append_nil]
        · rw [Nat.min_eq_right hle, Nat.mul_succ, List.range'_append_1, Nat.add_sub_cancel' hle]
      · by_cases hnext : 0 < i - 8
        · rw [hrestFront hnext]
          show 8 * (s.calls + 1) + (i - 8) = 8 * s.calls + i
          omega
        · have hzero : i - 8 = 0 := Nat.eq_zero_of_not_pos hnext
          rw [hzero, fill_zero]
          show 8 * (s.calls + 1) - (8 - BitVec.ofNat 32 (min i 8) : Word).toNat = 8 * s.calls + i
          omega
    · obtain rfl : i = 0 := Nat.eq_zero_of_not_pos hpos
      rw [fill_zero]
      exact ⟨fun d hd => absurd hd List.not_mem_nil, rfl, h, fun h0 => absurd h0 hpos⟩

theorem toInt_of_le {w : Word} (h : w.toNat < 2 ^ 31) : w.toInt = w.toNat := by
  rw [BitVec.toInt_eq_toNat_cond, if_pos (by omega)]

/-- A call for less than 2 ^ 31 bytes hands out a piece of the stream that is still to come. -/
theorem readRandom_spec (h : Inv s) (hcount : count.toNat < 2 ^ 31) :
    (∀ d ∈ (readRandom around count s).1.out, d.Streamed) ∧ Inv (readRandom around count s).2 ∧
      ∃ a ≥ front s, (readRandom around count s).1.out.map Delivered.position = List.range' a count.toNat ∧
        front (readRandom around count s).2 = a + count.toNat := by
  have hleft := h.left
  have hrem := toInt_of_le (w := s.remainingBytes) (by omega)
  have hint := toInt_of_le hcount
  unfold readRandom
  by_cases hle : count.toInt ≤ s.remainingBytes.toInt
  · rw [if_pos hle]
    have hle' : count.toNat ≤ s.remainingBytes.toNat := by omega
    have hsub : (s.remainingBytes - count).toNat = s.remainingBytes.toNat - count.toNat :=
      BitVec.toNat_sub_of_le (BitVec.le_def.mpr hle')
    have hoff : (8 : ℤ) - s.remainingBytes.toInt = (8 - s.remainingBytes.toNat : ℕ) := by omega
    have hinv : Inv (s.keep (s.remainingBytes - count)) := by
      refine ⟨?_, h.generator, h.m, fun hpos => h.drawn ?_⟩
      · show (s.remainingBytes - count).toNat ≤ 8
        omega
      · have hpos' : 0 < (s.remainingBytes - count).toNat := hpos
        omega
    by_cases hcalls : 0 < s.calls
    · obtain ⟨hcopy, hcopyPos⟩ :=
        memcpy_spec around (n := count.toNat) (o := 8 - s.remainingBytes.toNat) h hcalls (by omega)
      rw [hoff]
      refine ⟨hcopy, hinv, _, ?_, hcopyPos, ?_⟩
      · unfold front
        omega
      · show 8 * s.calls - (s.remainingBytes - count).toNat = _
        omega
    · -- nothing has been drawn, and nothing is asked for
      have hnone : s.remainingBytes.toNat = 0 := Nat.eq_zero_of_not_pos fun hpos => hcalls (h.drawn hpos)
      have hzero : count.toNat = 0 := by omega
      rw [hzero]
      refine ⟨fun d hd => absurd hd List.not_mem_nil, hinv, front s, le_rfl, rfl, ?_⟩
      show 8 * s.calls - (s.remainingBytes - count).toNat = 8 * s.calls - s.remainingBytes.toNat + 0
      omega
  · rw [if_neg hle]
    have hnat : count.toInt.toNat = count.toNat := by omega
    obtain ⟨hout, hpos, hinv, hfront⟩ := fill_spec around (i := count.toInt.toNat) h
    refine ⟨hout, hinv, 8 * s.calls, Nat.sub_le _ _, ?_, ?_⟩
    · rw [← hnat]
      exact hpos
    · rw [← hnat]
      exact hfront (by omega)

/-- A larger count is negative as an `int`, and bytes behind `m` are handed out. -/
theorem readRandom_large (h : Inv s) (hcount : ¬ count.toNat < 2 ^ 31) : ∃ d ∈ (readRandom around count s).1.out,
    ¬ d.Streamed := by
  have hleft := h.left
  have hrem := toInt_of_le (w := s.remainingBytes) (by omega)
  have hint := BitVec.toInt_eq_toNat_cond count
  have hlt := count.isLt
  rw [if_neg (by omega)] at hint
  have hle : count.toInt ≤ s.remainingBytes.toInt := by omega
  unfold readRandom
  rw [if_pos hle]
  refine ⟨_, List.mem_map_of_mem (List.mem_range.mpr (by omega : 8 < count.toNat)), fun hd => ?_⟩
  have hin : (8 : ℤ) - s.remainingBytes.toInt + (8 : ℕ) < 8 := hd.inside.2
  omega

theorem length_fill : (fill around i s).1.length = i := by
  induction i using Nat.strong_induction_on generalizing s with
  | _ i ih =>
    rw [fill]
    split
    · rw [List.length_append, ih (i - 8) (by omega), length_memcpy]
      omega
    · rw [List.length_nil]
      omega

theorem readRandom_full (h : Inv s) (count : Word) :
    (readRandom around count s).1.out.length = (readRandom around count s).1.count.toNat ∧
      (readRandom around count s).1.value = (readRandom around count s).1.count := by
  have hleft := h.left
  have hrem := toInt_of_le (w := s.remainingBytes) (by omega)
  unfold readRandom
  split
  · exact ⟨length_memcpy around _, rfl⟩
  · refine ⟨?_, rfl⟩
    have hint := BitVec.toInt_eq_toNat_cond count
    show (fill around count.toInt.toNat s).1.length = count.toNat
    rw [length_fill]
    split at hint <;> omega

/-! ## Every sequence of calls -/

/-- What remains to be said of a run: its positions are in order and still to come. -/
theorem calls_right (h : Inv s) {counts : List Word} (hcounts : ∀ c ∈ counts, c.toNat < 2 ^ 31) :
    (∀ d ∈ (calls around counts s).flatMap Call.out, d.Streamed) ∧
      (((calls around counts s).flatMap Call.out).map Delivered.position).Pairwise (· < ·) ∧
      ∀ a ∈ ((calls around counts s).flatMap Call.out).map Delivered.position, front s ≤ a := by
  induction counts generalizing s with
  | nil => exact ⟨fun d hd => absurd hd List.not_mem_nil, List.Pairwise.nil, fun a ha => absurd ha List.not_mem_nil⟩
  | cons count counts ih =>
    obtain ⟨hout, hinv, a, ha, hpos, hfront⟩ := readRandom_spec around h (hcounts count List.mem_cons_self)
    obtain ⟨hrest, hsorted, hle⟩ := ih hinv fun c hc => hcounts c (List.mem_cons_of_mem _ hc)
    rw [hfront] at hle
    rw [calls, List.flatMap_cons, List.map_append, hpos]
    refine ⟨fun d hd => ?_, List.pairwise_append.mpr ⟨List.pairwise_lt_range', hsorted, fun b hb c hc => ?_⟩,
      fun b hb => ?_⟩
    · rcases List.mem_append.mp hd with hd | hd
      · exact hout d hd
      · exact hrest d hd
    · exact (List.mem_range'_1.mp hb).2.trans_le (hle c hc)
    · rcases List.mem_append.mp hb with hb | hb
      · exact ha.trans (List.mem_range'_1.mp hb).1
      · exact ha.trans ((Nat.le_add_right a _).trans (hle b hb))

/-- The first call with a large count ends it. -/
theorem calls_large (h : Inv s) {counts : List Word} (hcounts : ∃ c ∈ counts, ¬ c.toNat < 2 ^ 31) :
    ∃ d ∈ (calls around counts s).flatMap Call.out, ¬ d.Streamed := by
  induction counts generalizing s with
  | nil =>
    obtain ⟨c, hc, -⟩ := hcounts
    exact absurd hc List.not_mem_nil
  | cons count counts ih =>
    rw [calls, List.flatMap_cons]
    by_cases hcount : count.toNat < 2 ^ 31
    · obtain ⟨-, hinv, -⟩ := readRandom_spec around h hcount
      obtain ⟨d, hd, hbad⟩ := ih hinv (by
        obtain ⟨c, hc, hlarge⟩ := hcounts
        rcases List.mem_cons.mp hc with rfl | hc
        · exact absurd hcount hlarge
        · exact ⟨c, hc, hlarge⟩)
      exact ⟨d, List.mem_append_right _ hd, hbad⟩
    · obtain ⟨d, hd, hbad⟩ := readRandom_large around h hcount
      exact ⟨d, List.mem_append_left _ hd, hbad⟩

theorem calls_full (h : Inv s) {counts : List Word} (hcounts : ∀ c ∈ counts, c.toNat < 2 ^ 31) :
    ∀ c ∈ calls around counts s, c.out.length = c.count.toNat ∧ c.value = c.count := by
  induction counts generalizing s with
  | nil => exact fun c hc => absurd hc List.not_mem_nil
  | cons count counts ih =>
    obtain ⟨-, hinv, -⟩ := readRandom_spec around h (hcounts count List.mem_cons_self)
    intro c hc
    rcases List.mem_cons.mp hc with rfl | hc
    · exact readRandom_full around h count
    · exact ih hinv (fun c hc => hcounts c (List.mem_cons_of_mem _ hc)) c hc

end

/-- **Random bytes are handed out once**, in order and in the right number, by every sequence of calls with counts that
are not negative as an `int`, and by no other one. -/
theorem handed_out_once_iff (around : ℤ → Byte) (counts : List Word) :
    Right (calls around counts start) ↔ ∀ c ∈ counts, c.toNat < 2 ^ 31 := by
  constructor
  · intro h
    by_contra hlarge
    obtain ⟨d, hd, hbad⟩ := calls_large _ inv_start (by simpa using hlarge)
    exact hbad (h.streamed d hd)
  · intro hcounts
    obtain ⟨hstreamed, hsorted, -⟩ := calls_right around inv_start hcounts
    exact ⟨calls_full around inv_start hcounts, hstreamed, hsorted⟩

/-- The first call asks for 2 ^ 31 bytes. -/
theorem large_count_outside : ¬ Right (calls (fun _ => 0) [0x80000000] start) := by
  intro h
  obtain ⟨d, hd, hbad⟩ := calls_large _ inv_start ⟨0x80000000, List.mem_singleton_self _, by decide⟩
  exact hbad (h.streamed d hd)

end PikoRT.Fs.DevRandom

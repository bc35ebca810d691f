import Mathlib

/-! # Tilings of an interval

Segments of memory, free or in use, one after the other from one address to another.
When no two neighbours are free, a tiling is determined by the segments in use. An
allocator takes a segment from the end of the first free one that is large enough, or
all of it when too little would be left; a segment that is given back is joined with
its free neighbours. -/
namespace PikoRT.Lib.Tiling

structure Seg where
  addr : ℕ
  len : ℕ
  free : Bool
  deriving DecidableEq, Repr

/-- The segments follow each other from `a` to `b`. -/
def Tiles : ℕ → List Seg → ℕ → Prop
  | a, [], b => a = b
  | a, x :: xs, b => x.addr = a ∧ Tiles (a + x.len) xs b

/-- No two neighbours are free. -/
def NoPair (xs : List Seg) : Prop := xs.IsChain fun x y => ¬ (x.free = true ∧ y.free = true)

/-- The segments in use. -/
def live (xs : List Seg) : List Seg := xs.filter fun x => !x.free

structure Layout (a b : ℕ) (xs : List Seg) : Prop where
  tiles : Tiles a xs b
  noPair : NoPair xs
  pos : ∀ x ∈ xs, 0 < x.len

variable {a b c : ℕ} {x y z : Seg} {xs ys us vs : List Seg}

theorem tiles_append : Tiles a (xs ++ ys) b ↔ ∃ c, Tiles a xs c ∧ Tiles c ys b := by
  induction xs generalizing a with
  | nil =>
    constructor
    · exact fun h => ⟨a, rfl, h⟩
    · rintro ⟨c, rfl, h⟩
      exact h
  | cons x xs ih =>
    simp only [List.cons_append, Tiles, ih]
    constructor
    · rintro ⟨hx, c, hc, hy⟩
      exact ⟨c, ⟨hx, hc⟩, hy⟩
    · rintro ⟨c, ⟨hx, hc⟩, hy⟩
      exact ⟨hx, c, hc, hy⟩

theorem Tiles.le (h : Tiles a xs b) : a ≤ b := by
  induction xs generalizing a with
  | nil => exact le_of_eq h
  | cons x xs ih =>
    have := ih h.2
    omega

/-- There are not more pieces than units. -/
theorem Tiles.length_le (h : Tiles a xs b) (hpos : ∀ x ∈ xs, 0 < x.len) : a + xs.length ≤ b := by
  induction xs generalizing a with
  | nil => exact h.le
  | cons x xs ih =>
    have hrest := ih h.2 fun y hy => hpos y (List.mem_cons_of_mem _ hy)
    have hx := hpos x List.mem_cons_self
    rw [List.length_cons]
    omega

theorem Tiles.end_unique (h : Tiles a xs b) (h' : Tiles a xs c) : b = c := by
  induction xs generalizing a with
  | nil => exact h.symm.trans h'
  | cons x xs ih => exact ih h.2 h'.2

/-- A segment lies between the ends. -/
theorem Tiles.mem (h : Tiles a xs b) (hx : x ∈ xs) : a ≤ x.addr ∧ x.addr + x.len ≤ b := by
  induction xs generalizing a with
  | nil => cases hx
  | cons y ys ih =>
    obtain ⟨hy, hys⟩ := h
    rcases List.mem_cons.mp hx with rfl | hx
    · have := hys.le
      omega
    · have := ih hys hx
      omega

/-- The segments are sorted, and do not overlap. -/
theorem Tiles.pairwise (h : Tiles a xs b) : xs.Pairwise fun x y => x.addr + x.len ≤ y.addr := by
  induction xs generalizing a with
  | nil => exact List.Pairwise.nil
  | cons x xs ih =>
    obtain ⟨hx, hxs⟩ := h
    refine List.pairwise_cons.mpr ⟨fun y hy => ?_, ih hxs⟩
    have := (hxs.mem hy).1
    omega

/-- Two segments do not overlap. -/
theorem Tiles.disjoint (h : Tiles a xs b) (hx : x ∈ xs) (hy : y ∈ xs) (hne : x ≠ y) :
    x.addr + x.len ≤ y.addr ∨ y.addr + y.len ≤ x.addr := by
  let R : Seg → Seg → Prop := fun x y => x.addr + x.len ≤ y.addr ∨ y.addr + y.len ≤ x.addr
  have : Std.Symm R := ⟨fun _ _ => Or.symm⟩
  have hpair : xs.Pairwise R := h.pairwise.imp .inl
  exact hpair.forall hx hy hne

/-- Segments whose lengths are multiples of `d` end at a multiple of `d`. -/
theorem Tiles.dvd_end {d : ℕ} (h : Tiles a xs b) (ha : d ∣ a) (hd : ∀ x ∈ xs, d ∣ x.len) : d ∣ b := by
  induction xs generalizing a with
  | nil => exact h ▸ ha
  | cons x xs ih =>
    exact ih h.2 (dvd_add ha (hd x List.mem_cons_self)) fun y hy => hd y (List.mem_cons_of_mem _ hy)

/-- And begin at one. -/
theorem Tiles.dvd_addr {d : ℕ} (h : Tiles a xs b) (ha : d ∣ a) (hd : ∀ x ∈ xs, d ∣ x.len) (hx : x ∈ xs) :
    d ∣ x.addr := by
  obtain ⟨us, vs, rfl⟩ := List.append_of_mem hx
  obtain ⟨c, hus, hxc, -⟩ := tiles_append.mp h
  exact hxc ▸ hus.dvd_end ha fun y hy => hd y (List.mem_append_left _ hy)

theorem mem_live : x ∈ live xs ↔ x ∈ xs ∧ x.free = false := by
  simp [live, List.mem_filter]

theorem live_append : live (xs ++ ys) = live xs ++ live ys := List.filter_append ..

theorem live_cons_free (hx : x.free = true) : live (x :: xs) = live xs :=
  List.filter_cons_of_neg (by simp [hx])

theorem live_cons_used (hx : x.free = false) : live (x :: xs) = x :: live xs :=
  List.filter_cons_of_pos (by simp [hx])

theorem Layout.tail (h : Layout a b (x :: xs)) : Layout (a + x.len) b xs :=
  ⟨h.tiles.2, h.noPair.tail, fun y hy => h.pos y (List.mem_cons_of_mem _ hy)⟩

/-- A segment that begins before the end of the first one is the first one. -/
theorem Layout.eq_head (h : Layout a b (x :: xs)) (hy : y ∈ x :: xs) (hlt : y.addr < a + x.len) : y = x := by
  rcases List.mem_cons.mp hy with he | hy
  · exact he
  · have := (h.tiles.2.mem hy).1
    omega

/-- The first of two free segments at one address is not the shorter one. -/
theorem Layout.free_len_le (hx : Layout a b (x :: xs)) (hy : Layout a b (y :: ys)) (hxf : x.free = true)
    (hyf : y.free = true) (hl : ∀ z ∈ live (x :: xs), z ∈ live (y :: ys)) : y.len ≤ x.len := by
  by_contra hlt
  have hyb := (hy.tiles.mem List.mem_cons_self).2
  have hya : y.addr = a := hy.tiles.1
  cases xs with
  | nil =>
    have hend : a + x.len = b := hx.tiles.2
    omega
  | cons z zs =>
    -- the segment behind `x` is in use, and begins inside `y`
    have hzf : z.free = false := by
      have hpair := (List.isChain_cons_cons.mp hx.noPair).1
      simpa [hxf] using hpair
    have hza : z.addr = a + x.len := hx.tiles.2.1
    have hmem : z ∈ y :: ys := (mem_live.mp (hl z (mem_live.mpr ⟨by simp, hzf⟩))).1
    have hzy := hy.eq_head hmem (by omega)
    rw [hzy, hyf] at hzf
    cases hzf

/-- The heads of two tilings with the same segments in use. -/
theorem Layout.head_eq (hx : Layout a b (x :: xs)) (hy : Layout a b (y :: ys))
    (hl : ∀ z, z ∈ live (x :: xs) ↔ z ∈ live (y :: ys)) : x = y := by
  have hxa : x.addr = a := hx.tiles.1
  have hya : y.addr = a := hy.tiles.1
  cases hxf : x.free with
  | false =>
    have hmem := (mem_live.mp ((hl x).mp (mem_live.mpr ⟨List.mem_cons_self, hxf⟩))).1
    have := hy.pos y List.mem_cons_self
    exact hy.eq_head hmem (by omega)
  | true =>
    cases hyf : y.free with
    | false =>
      have hmem := (mem_live.mp ((hl y).mpr (mem_live.mpr ⟨List.mem_cons_self, hyf⟩))).1
      have := hx.pos x List.mem_cons_self
      exact (hx.eq_head hmem (by omega)).symm
    | true =>
      have hle := hx.free_len_le hy hxf hyf fun z => (hl z).mp
      have hge := hy.free_len_le hx hyf hxf fun z => (hl z).mpr
      cases x
      cases y
      simp only at hxa hya hxf hyf hle hge
      simp only [Seg.mk.injEq]
      exact ⟨hxa.trans hya.symm, by omega, hxf.trans hyf.symm⟩

/-- **The segments in use determine the tiling.** -/
theorem Layout.unique (hx : Layout a b xs) (hy : Layout a b ys) (hl : ∀ z, z ∈ live xs ↔ z ∈ live ys) :
    xs = ys := by
  induction xs generalizing a ys with
  | nil =>
    cases ys with
    | nil => rfl
    | cons y ys =>
      have hab : a = b := hx.tiles
      have := hy.pos y List.mem_cons_self
      have := hy.tiles.2.le
      omega
  | cons x xs ih =>
    cases ys with
    | nil =>
      have hab : a = b := hy.tiles
      have := hx.pos x List.mem_cons_self
      have := hx.tiles.2.le
      omega
    | cons y ys =>
      obtain rfl := hx.head_eq hy hl
      refine congrArg _ (ih hx.tail hy.tail fun z => ?_)
      -- the common head is in neither tail
      have hnot : ∀ ws, Layout a b (x :: ws) → z ∈ live ws → z ≠ x := by
        rintro ws hw hz rfl
        have := (hw.tiles.2.mem (mem_live.mp hz).1).1
        have := hw.pos z List.mem_cons_self
        have : z.addr = a := hw.tiles.1
        omega
      have hz := hl z
      rw [mem_live, mem_live, List.mem_cons, List.mem_cons] at hz
      constructor
      · intro hm
        have hne := hnot xs hx hm
        obtain ⟨hm, hf⟩ := mem_live.mp hm
        exact mem_live.mpr ⟨(hz.mp ⟨.inr hm, hf⟩).1.resolve_left hne, hf⟩
      · intro hm
        have hne := hnot ys hy hm
        obtain ⟨hm, hf⟩ := mem_live.mp hm
        exact mem_live.mpr ⟨(hz.mpr ⟨.inr hm, hf⟩).1.resolve_left hne, hf⟩

/-! ## Taking a segment -/

/-- Other segments in the place of one. -/
theorem Layout.replace {rs : List Seg} (h : Layout a b (us ++ x :: vs)) (ht : Tiles x.addr rs (x.addr + x.len))
    (hp : ∀ r ∈ rs, 0 < r.len) (hc : NoPair rs) (hne : rs ≠ [])
    (hf : x.free = true ∨ ∀ r, r ∈ rs.head? ∨ r ∈ rs.getLast? → r.free = false) :
    Layout a b (us ++ (rs ++ vs)) := by
  obtain ⟨c, hus, hx, hvs⟩ := tiles_append.mp h.tiles
  obtain ⟨hcus, hcx, hux⟩ := List.isChain_append.mp h.noPair
  obtain ⟨hxv, hcvs⟩ := List.isChain_cons.mp hcx
  obtain ⟨r, rs', rfl⟩ := List.exists_cons_of_ne_nil hne
  refine ⟨?_, ?_, fun y hy => ?_⟩
  · exact tiles_append.mpr ⟨c, hus, tiles_append.mpr ⟨c + x.len, hx ▸ ht, hvs⟩⟩
  · refine List.isChain_append.mpr ⟨hcus, List.isChain_append.mpr ⟨hc, hcvs, ?_⟩, ?_⟩
    · rintro y hy z hz ⟨hyf, hzf⟩
      rcases hf with hf | hf
      · exact hxv z hz ⟨hf, hzf⟩
      · rw [hf y (.inr hy)] at hyf
        cases hyf
    · rintro y hy z hz ⟨hyf, hzf⟩
      rcases hf with hf | hf
      · exact hux y hy x rfl ⟨hyf, hf⟩
      · rw [hf z (.inl hz)] at hzf
        cases hzf
  · rcases List.mem_append.mp hy with hy | hy
    · exact h.pos y (List.mem_append_left _ hy)
    · rcases List.mem_append.mp hy with hy | hy
      · exact hp y hy
      · exact h.pos y (List.mem_append_right _ (List.mem_cons_of_mem _ hy))

/-- The segment is free and large enough. -/
def fits (n : ℕ) (x : Seg) : Bool := x.free && decide (n ≤ x.len)

/-- What becomes of a free segment when `n` of it are taken. -/
def cut (tag n : ℕ) (x : Seg) : List Seg :=
  if tag < x.len - n then [⟨x.addr, x.len - n, true⟩, ⟨x.addr + (x.len - n), n, false⟩]
  else [{ x with free := false }]

/-- The address of what is taken. -/
def cutAddr (tag n : ℕ) (x : Seg) : ℕ := if tag < x.len - n then x.addr + (x.len - n) else x.addr

/-- Taking from the first segment that fits. -/
def carve (tag n : ℕ) : List Seg → Option (ℕ × List Seg)
  | [] => none
  | x :: xs =>
    if fits n x then some (cutAddr tag n x, cut tag n x ++ xs)
    else (carve tag n xs).map fun r => (r.1, x :: r.2)

theorem carve_append {tag n : ℕ} (hu : ∀ u ∈ us, fits n u = false) :
    carve tag n (us ++ xs) = (carve tag n xs).map fun r => (r.1, us ++ r.2) := by
  induction us with
  | nil => simp
  | cons u us ih =>
    have hrest := ih fun w hw => hu w (List.mem_cons_of_mem _ hw)
    rw [List.cons_append, carve, hu u List.mem_cons_self, hrest, Option.map_map]
    rfl

theorem carve_of_fits {tag n : ℕ} (hu : ∀ u ∈ us, fits n u = false) (hx : fits n x = true) :
    carve tag n (us ++ x :: vs) = some (cutAddr tag n x, us ++ (cut tag n x ++ vs)) := by
  rw [carve_append hu, carve, if_pos hx]
  rfl

theorem carve_none {tag n : ℕ} (hx : ∀ x ∈ xs, fits n x = false) : carve tag n xs = none := by
  rw [← List.append_nil xs, carve_append hx]
  rfl

/-- What is taken, as a segment. -/
def cutSeg (tag n : ℕ) (x : Seg) : Seg :=
  if tag < x.len - n then ⟨x.addr + (x.len - n), n, false⟩ else { x with free := false }

theorem live_cut {tag n : ℕ} : live (cut tag n x) = [cutSeg tag n x] := by
  unfold cut cutSeg
  split <;> rfl

/-- The segments in use are those from before and the new one. -/
theorem live_carve {tag n : ℕ} (hx : fits n x = true) :
    (live (us ++ (cut tag n x ++ vs))).Perm (cutSeg tag n x :: live (us ++ x :: vs)) := by
  have hfree : x.free = true := by
    unfold fits at hx
    simp at hx
    exact hx.1
  rw [live_append, live_append, live_append, live_cut, live_cons_free hfree]
  exact List.perm_middle

theorem Layout.carve {tag n : ℕ} (h : Layout a b (us ++ x :: vs)) (hx : fits n x = true) (hn : 0 < n) :
    Layout a b (us ++ (cut tag n x ++ vs)) := by
  have hx' : x.free = true ∧ n ≤ x.len := by simpa [fits] using hx
  have hpos := h.pos x (by simp)
  unfold cut
  split
  · rename_i hlt
    refine h.replace ⟨rfl, rfl, ?_⟩ ?_ ?_ (by simp) (.inl hx'.1)
    · show x.addr + (x.len - n) + n = x.addr + x.len
      omega
    · intro r hr
      rcases List.mem_pair.mp hr with rfl | rfl
      · show 0 < x.len - n
        omega
      · exact hn
    · exact List.isChain_pair.mpr (by simp)
  · exact h.replace ⟨rfl, rfl⟩ (by simpa using hpos) (List.isChain_singleton _) (by simp) (.inl hx'.1)

/-! ## Giving a segment back -/

/-- The segments `ms` of the tiling `xs` are joined to the free segment `m`: the segment
`x`, and free ones. -/
structure Joins (xs : List Seg) (x : Seg) (us ms : List Seg) (m : Seg) (vs : List Seg) : Prop where
  split : xs = us ++ (ms ++ vs)
  tiles : Tiles m.addr ms (m.addr + m.len)
  free : m.free = true
  mem : x ∈ ms
  others : ∀ w ∈ ms, w.free = true ∨ w = x

/-- Two segments as one, at the address of the first. -/
def joinSeg (x y : Seg) : Seg := ⟨x.addr, x.len + y.len, x.free⟩

variable {m n p : Seg} {ms : List Seg}

theorem Joins.ends (h : Joins xs x us ms m vs) (ht : Tiles a xs b) :
    Tiles a us m.addr ∧ Tiles (m.addr + m.len) vs b := by
  rw [h.split] at ht
  obtain ⟨e, hus, hrest⟩ := tiles_append.mp ht
  obtain ⟨f, hms, hvs⟩ := tiles_append.mp hrest
  obtain ⟨r, rs, rfl⟩ := List.exists_cons_of_ne_nil (List.ne_nil_of_mem h.mem)
  obtain rfl : m.addr = e := h.tiles.1.symm.trans hms.1
  obtain rfl := h.tiles.end_unique hms
  exact ⟨hus, hvs⟩

theorem Joins.tiles_all (h : Joins xs x us ms m vs) (ht : Tiles a xs b) : Tiles a (us ++ m :: vs) b := by
  obtain ⟨hus, hvs⟩ := h.ends ht
  exact tiles_append.mpr ⟨m.addr, hus, rfl, hvs⟩

theorem Joins.pos_all (h : Joins xs x us ms m vs) (hp : ∀ x ∈ xs, 0 < x.len) : ∀ y ∈ us ++ m :: vs, 0 < y.len := by
  have hx := h.tiles.mem h.mem
  intro y hy
  rcases List.mem_append.mp hy with hy | hy
  · exact hp y (h.split ▸ List.mem_append_left _ hy)
  · rcases List.mem_cons.mp hy with rfl | hy
    · have := hp x (h.split ▸ List.mem_append_right _ (List.mem_append_left _ h.mem))
      omega
    · exact hp y (h.split ▸ List.mem_append_right _ (List.mem_append_right _ hy))

/-- One more segment on the left. -/
theorem Joins.left (h : Joins xs x (us ++ [p]) ms m vs) (ht : Tiles a xs b) (hp : p.free = true) :
    Joins xs x us (p :: ms) (joinSeg p m) vs := by
  obtain ⟨c, -, hpc, hend⟩ := tiles_append.mp (h.ends ht).1
  have hpm : p.addr + p.len = m.addr := by
    have hend : c + p.len = m.addr := hend
    omega
  refine ⟨by rw [h.split]; simp, ⟨rfl, ?_⟩, hp, List.mem_cons_of_mem _ h.mem, fun w hw => ?_⟩
  · show Tiles (p.addr + p.len) ms (p.addr + (p.len + m.len))
    rw [← Nat.add_assoc, hpm]
    exact h.tiles
  · rcases List.mem_cons.mp hw with rfl | hw
    · exact .inl hp
    · exact h.others w hw

/-- One more segment on the right. -/
theorem Joins.right (h : Joins xs x us ms m (n :: vs)) (ht : Tiles a xs b) (hn : n.free = true) :
    Joins xs x us (ms ++ [n]) (joinSeg m n) vs := by
  have hna : n.addr = m.addr + m.len := (h.ends ht).2.1
  refine ⟨by rw [h.split]; simp, ?_, h.free, List.mem_append_left _ h.mem, fun w hw => ?_⟩
  · exact tiles_append.mpr ⟨_, h.tiles, hna, Nat.add_assoc ..⟩
  · rcases List.mem_append.mp hw with hw | hw
    · exact h.others w hw
    · exact .inl (List.mem_singleton.mp hw ▸ hn)

/-- What is joined, between neighbours that are in use. -/
theorem Layout.join (h : Layout a b xs) (hj : Joins xs x us ms m vs) (hu : ∀ p ∈ us.getLast?, p.free = false)
    (hv : ∀ n ∈ vs.head?, n.free = false) : Layout a b (us ++ m :: vs) := by
  have hc := h.noPair
  rw [hj.split] at hc
  obtain ⟨hcus, hcrest, -⟩ := List.isChain_append.mp hc
  obtain ⟨-, hcvs, -⟩ := List.isChain_append.mp hcrest
  refine ⟨hj.tiles_all h.tiles, ?_, hj.pos_all h.pos⟩
  refine List.isChain_append.mpr ⟨hcus, List.isChain_cons.mpr ⟨?_, hcvs⟩, ?_⟩
  · rintro n hn ⟨-, hnf⟩
    rw [hv n hn] at hnf
    cases hnf
  · rintro p hp n hn ⟨hpf, -⟩
    rw [hu p hp] at hpf
    cases hpf

/-- The segments in use are those from before but `x`. -/
theorem Joins.live_perm (h : Joins xs x us ms m vs) (hx : x.free = false) (hnd : xs.Nodup) :
    (live xs).Perm (x :: live (us ++ m :: vs)) := by
  have hms : live ms = [x] := by
    obtain ⟨ps, qs, rfl⟩ := List.append_of_mem h.mem
    rw [h.split] at hnd
    have hnd := (List.nodup_append.mp (List.nodup_append.mp hnd).2.1).1
    have hnone : ∀ w ∈ ps ++ qs, w.free = true := by
      intro w hw
      refine (h.others w ?_).resolve_right ?_
      · rcases List.mem_append.mp hw with hw | hw
        · exact List.mem_append_left _ hw
        · exact List.mem_append_right _ (List.mem_cons_of_mem _ hw)
      · rintro rfl
        exact (List.nodup_cons.mp (List.nodup_middle.mp hnd)).1 hw
    have hnil : ∀ ws, (∀ w ∈ ws, w ∈ ps ++ qs) → live ws = [] := by
      intro ws hws
      refine List.filter_eq_nil_iff.mpr fun w hw => ?_
      simp [hnone w (hws w hw)]
    rw [live_append, live_cons_used hx, hnil ps (fun w hw => List.mem_append_left _ hw),
      hnil qs (fun w hw => List.mem_append_right _ hw)]
    rfl
  rw [h.split, live_append, live_append, hms, live_append, live_cons_free h.free]
  exact List.perm_middle

/-- The neighbours of a free segment are in use. -/
theorem NoPair.neighbours (h : NoPair (us ++ x :: vs)) (hx : x.free = true) :
    (∀ p ∈ us.getLast?, p.free = false) ∧ ∀ n ∈ vs.head?, n.free = false := by
  obtain ⟨-, hxv, hux⟩ := List.isChain_append.mp h
  constructor
  · intro p hp
    simpa [hx] using hux p hp x rfl
  · intro n hn
    simpa [hx] using (List.isChain_cons.mp hxv).1 n hn

/-- Every other segment begins outside the segment. -/
theorem Layout.outside (h : Layout a b (us ++ x :: vs)) :
    ∀ z ∈ us ++ x :: vs, z.addr ≤ x.addr ∨ x.addr + x.len ≤ z.addr := by
  obtain ⟨-, hxv, hux⟩ := List.pairwise_append.mp h.tiles.pairwise
  intro z hz
  rcases List.mem_append.mp hz with hz | hz
  · have := hux z hz x List.mem_cons_self
    omega
  · rcases List.mem_cons.mp hz with rfl | hz
    · exact .inl le_rfl
    · exact .inr ((List.pairwise_cons.mp hxv).1 z hz)

end PikoRT.Lib.Tiling

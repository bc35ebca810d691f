import Mathlib

/-! # Two lists that trade places

Threads wait in two lists, in the order of a key. A tick runs the first of
`active` and puts the one that ran into `expire`; when `active` is empty the two
trade places first. The one that ran just before the trade goes into the list
that begins anew, so it sits out the coming epoch. The schedule is fair, in the
sense that no thread runs twice before every other ran once, exactly when there
are at most two threads or all keys are the same (`fair_iff_level`). -/
namespace PikoRT.Lib.Epochs

/-! ## Insertion -/

section

variable {α : Type*} {key : α → ℕ}

/-- Insert behind every element whose key is at most as large. -/
def insertBy (key : α → ℕ) (x : α) (l : List α) : List α :=
  l.orderedInsert (fun a b => key a < key b) x

theorem insertBy_perm (x : α) (l : List α) : (insertBy key x l).Perm (x :: l) :=
  List.perm_orderedInsert _ x l

theorem insertBy_append_of_le {x : α} {l : List α} (h : ∀ b ∈ l, key b ≤ key x) :
    insertBy key x l = l ++ [x] := by
  induction l with
  | nil => rfl
  | cons b l ih =>
    have hb : ¬ key x < key b := not_lt.mpr (h b (by simp))
    show (b :: l).orderedInsert _ x = _
    rw [List.orderedInsert_cons, if_neg hb, List.cons_append]
    exact congrArg _ (ih fun c hc => h c (List.mem_cons_of_mem _ hc))

/-- An element stays in front of what does not have a smaller key. -/
theorem insertBy_cons_of_le {x z : α} (l : List α) (h : key x ≤ key z) :
    insertBy key z (x :: l) = x :: insertBy key z l := by
  show (x :: l).orderedInsert _ z = _
  rw [List.orderedInsert_cons, if_neg (not_lt.mpr h)]
  rfl

theorem insertBy_sorted (x : α) {l : List α} (h : l.Pairwise (fun a b => key a ≤ key b)) :
    (insertBy key x l).Pairwise (fun a b => key a ≤ key b) := by
  induction l with
  | nil => exact List.pairwise_singleton _ _
  | cons b l ih =>
    obtain ⟨hb, hl⟩ := List.pairwise_cons.mp h
    by_cases hx : key x < key b
    · show ((b :: l).orderedInsert _ x).Pairwise _
      rw [List.orderedInsert_cons, if_pos hx]
      refine List.pairwise_cons.mpr ⟨fun c hc => ?_, h⟩
      rcases List.mem_cons.mp hc with rfl | hc
      · exact hx.le
      · exact hx.le.trans (hb c hc)
    · rw [insertBy_cons_of_le l (not_lt.mp hx)]
      refine List.pairwise_cons.mpr ⟨fun c hc => ?_, ih hl⟩
      rcases List.mem_cons.mp ((insertBy_perm x l).mem_iff.mp hc) with rfl | hc
      · exact not_lt.mp hx
      · exact hb c hc

theorem foldl_insertBy_append {base l : List α}
    (h : (base ++ l).Pairwise (fun a b => key a ≤ key b)) :
    l.foldl (fun e y => insertBy key y e) base = base ++ l := by
  induction l generalizing base with
  | nil => simp
  | cons y l ih =>
    have hy : insertBy key y base = base ++ [y] :=
      insertBy_append_of_le fun b hb => (List.pairwise_append.mp h).2.2 b hb y (by simp)
    rw [List.foldl_cons, hy, ih (by simpa using h)]
    simp

theorem foldl_insertBy_head {x : α} {base l : List α} (h : ∀ z ∈ l, key x ≤ key z) :
    ∃ m, l.foldl (fun e y => insertBy key y e) (x :: base) = x :: m := by
  induction l generalizing base with
  | nil => exact ⟨base, rfl⟩
  | cons y l ih =>
    rw [List.foldl_cons, insertBy_cons_of_le base (h y (by simp))]
    exact ih fun z hz => h z (List.mem_cons_of_mem _ hz)

end

/-! ## Ticks -/

structure Config (α : Type*) where
  run : α
  active : List α
  expire : List α

/-- Who runs and who waits, in one list. -/
def line {α : Type*} (c : Config α) : List α := c.run :: (c.active ++ c.expire)

variable {α : Type*} [DecidableEq α] (key : α → ℕ) (idle : α)

/-- The thread that ran is put back, unless it is `idle`. -/
def back (r : α) (l : List α) : List α := if r = idle then l else insertBy key r l

def tick : Config α → Config α
  | ⟨r, x :: a, e⟩ => ⟨x, a, back key idle r e⟩
  | ⟨r, [], x :: e⟩ => ⟨x, e, back key idle r []⟩
  | ⟨r, [], []⟩ => ⟨idle, [], back key idle r []⟩

/-- The threads that can run, the one that does included. -/
def ready (c : Config α) : List α := (if c.run = idle then [] else [c.run]) ++ (c.active ++ c.expire)

structure Wf (c : Config α) : Prop where
  nodup : (ready idle c).Nodup
  idle : idle ∉ c.active ++ c.expire
  sorted : c.expire.Pairwise (fun a b => key a ≤ key b)

/-- Between two successive turns of a thread every other thread has one. -/
def Fair (c : Config α) : Prop :=
  ∀ i j x, 0 < i → i < j → ((tick key idle)^[i] c).run = x → ((tick key idle)^[j] c).run = x →
    x ≠ idle → (∀ k, i < k → k < j → ((tick key idle)^[k] c).run ≠ x) →
    ∀ y ∈ ready idle c, y ≠ x → ∃ k, i < k ∧ k < j ∧ ((tick key idle)^[k] c).run = y

/-- At most two threads, or one key for all. -/
def Level (c : Config α) : Prop :=
  (ready idle c).length ≤ 2 ∨ ∀ x ∈ ready idle c, ∀ y ∈ ready idle c, key x = key y

variable {key} {idle} {c : Config α}

theorem back_perm (r : α) (l : List α) :
    (back key idle r l).Perm ((if r = idle then [] else [r]) ++ l) := by
  unfold back
  split
  · exact List.Perm.refl _
  · exact insertBy_perm r l

theorem Wf.ne_idle (h : Wf key idle c) {x : α} (hx : x ∈ c.active ++ c.expire) : x ≠ idle := by
  intro he
  exact h.idle (he ▸ hx)

/-- A tick changes who runs and who waits, not who is ready. -/
theorem ready_tick (h : Wf key idle c) : (ready idle (tick key idle c)).Perm (ready idle c) := by
  obtain ⟨r, a, e⟩ := c
  cases a with
  | cons x a =>
    have hx : x ≠ idle := h.ne_idle (by simp)
    show ((if x = idle then [] else [x]) ++ (a ++ back key idle r e)).Perm _
    rw [if_neg hx]
    refine (((back_perm r e).append_left a).append_left [x]).trans ?_
    show (x :: (a ++ (_ ++ e))).Perm (_ ++ (x :: (a ++ e)))
    refine List.Perm.trans (List.Perm.cons x ?_) List.perm_middle.symm
    rw [← List.append_assoc, ← List.append_assoc]
    exact List.perm_append_comm.append_right e
  | nil =>
    cases e with
    | cons x e =>
      have hx : x ≠ idle := h.ne_idle (by simp)
      show ((if x = idle then [] else [x]) ++ (e ++ back key idle r [])).Perm _
      rw [if_neg hx]
      refine (((back_perm r []).append_left e).append_left [x]).trans ?_
      rw [List.append_nil]
      show (x :: (e ++ _)).Perm (_ ++ (x :: e))
      exact List.Perm.trans (List.Perm.cons x List.perm_append_comm) List.perm_middle.symm
    | nil =>
      show ((if idle = idle then [] else [idle]) ++ ([] ++ back key idle r [])).Perm _
      rw [if_pos rfl]
      exact (back_perm r []).trans (by simp [ready])

theorem line_perm_ready (hr : c.run ≠ idle) : (line c).Perm (ready idle c) := by
  unfold ready line
  rw [if_neg hr]
  rfl

theorem Wf.ready_ne_idle (h : Wf key idle c) {x : α} (hx : x ∈ ready idle c) : x ≠ idle := by
  rcases List.mem_append.mp hx with hx | hx
  · split at hx
    · cases hx
    · rename_i hr
      rw [List.mem_singleton.mp hx]
      exact hr
  · exact h.ne_idle hx

theorem Wf.tick (h : Wf key idle c) : Wf key idle (tick key idle c) where
  nodup := (ready_tick h).nodup_iff.mpr h.nodup
  idle := fun hi =>
    h.ready_ne_idle ((ready_tick h).mem_iff.mp (List.mem_append_right _ hi)) rfl
  sorted := by
    have hback : ∀ r l, l.Pairwise (fun a b => key a ≤ key b) →
        (back key idle r l).Pairwise (fun a b => key a ≤ key b) := by
      intro r l hl
      unfold back
      split
      · exact hl
      · exact insertBy_sorted r hl
    obtain ⟨r, a, e⟩ := c
    cases a with
    | cons x a => exact hback r e h.sorted
    | nil =>
      cases e with
      | cons x e => exact hback r [] List.Pairwise.nil
      | nil => exact hback r [] List.Pairwise.nil

theorem Wf.iterate (h : Wf key idle c) (n : ℕ) :
    Wf key idle ((Epochs.tick key idle)^[n] c) ∧
      (ready idle ((Epochs.tick key idle)^[n] c)).Perm (ready idle c) := by
  induction n with
  | zero => exact ⟨h, List.Perm.refl _⟩
  | succ n ih =>
    rw [Function.iterate_succ_apply']
    exact ⟨ih.1.tick, (ready_tick ih.1).trans ih.2⟩

theorem Level.perm {d : Config α} (h : Level key idle c)
    (hp : (ready idle d).Perm (ready idle c)) : Level key idle d := by
  rcases h with h | h
  · exact .inl (hp.length_eq ▸ h)
  · exact .inr fun x hx y hy => h x (hp.mem_iff.mp hx) y (hp.mem_iff.mp hy)

/-! ## Rotation -/

/-- Under `Level` the thread that ran goes to the very end. -/
theorem Level.insertBy (h : Level key idle c) (hr : c.run ≠ idle) (ha : c.active ≠ []) :
    insertBy key c.run c.expire = c.expire ++ [c.run] := by
  rcases h with h | h
  · have hlen := (line_perm_ready hr).length_eq
    have hpos := List.length_pos_iff.mpr ha
    simp only [line, List.length_cons, List.length_append] at hlen
    have he : c.expire = [] := List.length_eq_zero_iff.mp (by omega)
    rw [he]
    rfl
  · refine insertBy_append_of_le fun b hb => ?_
    have hmem : ∀ z ∈ line c, z ∈ ready idle c := fun z hz => (line_perm_ready hr).mem_iff.mp hz
    exact (h b (hmem b (by simp [line, hb])) c.run (hmem _ (by simp [line]))).le

theorem line_tick (h : Level key idle c) (hr : c.run ≠ idle) (hw : c.active ++ c.expire ≠ []) :
    line (tick key idle c) = (line c).rotate 1 := by
  have hins := h.insertBy hr
  obtain ⟨r, a, e⟩ := c
  have hback : ∀ l, back key idle r l = Epochs.insertBy key r l := fun l => if_neg hr
  cases a with
  | cons x a =>
    show x :: (a ++ back key idle r e) = _
    rw [hback, hins (by simp)]
    simp [line]
  | nil =>
    cases e with
    | cons x e =>
      show x :: (e ++ back key idle r []) = _
      rw [hback]
      simp [line, Epochs.insertBy]
    | nil => exact absurd rfl hw

theorem line_iterate (hw : Wf key idle c) (h : Level key idle c) (hr : c.run ≠ idle)
    (hne : c.active ++ c.expire ≠ []) (n : ℕ) :
    line ((tick key idle)^[n] c) = (line c).rotate n := by
  induction n with
  | zero => simp
  | succ n ih =>
    rw [Function.iterate_succ_apply']
    have hmem : ((tick key idle)^[n] c).run ∈ line c := by
      rw [← List.mem_rotate (n := n), ← ih]
      simp [line]
    have hrun : ((tick key idle)^[n] c).run ≠ idle :=
      hw.ready_ne_idle ((line_perm_ready hr).mem_iff.mp hmem)
    have hlen := congrArg List.length ih
    have hpos := List.length_pos_iff.mpr hne
    simp only [line, List.length_cons, List.length_rotate] at hlen
    have hwait : ((tick key idle)^[n] c).active ++ ((tick key idle)^[n] c).expire ≠ [] :=
      List.length_pos_iff.mp (by omega)
    rw [line_tick (h.perm (hw.iterate n).2) hrun hwait, ih, List.rotate_rotate]

/-- Who runs after `n` ticks of a rotation. -/
theorem run_iterate (hw : Wf key idle c) (h : Level key idle c) (hr : c.run ≠ idle)
    (hne : c.active ++ c.expire ≠ []) {n : ℕ} (hn : n < (line c).length) :
    some ((tick key idle)^[n] c).run = (line c)[n]? := by
  rw [← List.head?_rotate hn, ← line_iterate hw h hr hne n]
  rfl

theorem fair_of_level (hw : Wf key idle c) (h : Level key idle c) : Fair key idle c := by
  intro i j x _ hij hi hj hx _ y hy hyx
  obtain ⟨hwi, hpi⟩ := hw.iterate i
  have hli := h.perm hpi
  generalize hd : (tick key idle)^[i] c = d at hi hwi hpi hli
  have hrun : d.run ≠ idle := hi ▸ hx
  have hshift : ∀ k, (tick key idle)^[i + k] c = (tick key idle)^[k] d := by
    intro k
    rw [Nat.add_comm, Function.iterate_add_apply, hd]
  have hyd : y ∈ line d := (line_perm_ready hrun).mem_iff.mpr (hpi.mem_iff.mpr hy)
  have hnd : (line d).Nodup := (line_perm_ready hrun).nodup_iff.mpr hwi.nodup
  have hne : d.active ++ d.expire ≠ [] := by
    intro hnil
    rcases List.mem_cons.mp hyd with hyr | hyw
    · exact hyx (hyr.trans hi)
    · rw [hnil] at hyw; cases hyw
  obtain ⟨m, hm, hmy⟩ := List.mem_iff_getElem.mp hyd
  have hat : ∀ k (hk : k < (line d).length), ((tick key idle)^[i + k] c).run = (line d)[k] := by
    intro k hk
    rw [hshift]
    exact Option.some.inj ((run_iterate hwi hli hrun hne hk).trans (List.getElem?_eq_getElem hk))
  have hm0 : m ≠ 0 := by
    rintro rfl
    exact hyx (hmy.symm.trans hi)
  refine ⟨i + m, by omega, ?_, (hat m hm).trans hmy⟩
  by_contra hjm
  -- the thread would run again before its turn in the rotation
  have hk : j - i < (line d).length := by omega
  have hjk := hat (j - i) hk
  rw [Nat.add_sub_cancel' hij.le, hj] at hjk
  have hpos : 0 < (line d).length := by omega
  have hsame : (line d)[0] = (line d)[j - i] := hi.trans hjk
  have := hnd.getElem_inj_iff.mp hsame
  omega

/-! ## Epochs -/

theorem Fair.iterate (h : Fair key idle c) (hw : Wf key idle c) (n : ℕ) :
    Fair key idle ((tick key idle)^[n] c) := by
  have hshift : ∀ k, (tick key idle)^[k] ((tick key idle)^[n] c) = (tick key idle)^[k + n] c :=
    fun k => (Function.iterate_add_apply _ k n c).symm
  intro i j x hi hij hxi hxj hx hbetween y hy hyx
  rw [hshift] at hxi hxj
  obtain ⟨k, hik, hkj, hk⟩ := h (i + n) (j + n) x (by omega) (by omega) hxi hxj hx (fun k h1 h2 => by
    have := hbetween (k - n) (by omega) (by omega)
    rwa [hshift, Nat.sub_add_cancel (by omega)] at this)
    y ((hw.iterate n).2.mem_iff.mp hy) hyx
  refine ⟨k - n, by omega, by omega, ?_⟩
  rw [hshift, Nat.sub_add_cancel (by omega)]
  exact hk

/-- The rest of an epoch: `active` runs in order, and all but its last element end
up in `expire`. -/
theorem iterate_epoch {r : α} {a e : List α} (hr : r ≠ idle) (ha : idle ∉ a) :
    (tick key idle)^[a.length] ⟨r, a, e⟩ =
      ⟨(r :: a).getLast (by simp), [], (r :: a).dropLast.foldl (fun e y => insertBy key y e) e⟩ := by
  induction a generalizing r e with
  | nil => rfl
  | cons x a ih =>
    have hx : x ≠ idle := by rintro rfl; exact ha (by simp)
    have htick : tick key idle ⟨r, x :: a, e⟩ = ⟨x, a, insertBy key r e⟩ := by
      show (⟨x, a, back key idle r e⟩ : Config α) = _
      rw [back, if_neg hr]
    rw [List.length_cons, Function.iterate_succ_apply, htick,
      ih hx fun hm => ha (List.mem_cons_of_mem _ hm)]
    simp

theorem run_epoch {r : α} {a e : List α} {k : ℕ} (hk : k ≤ a.length) :
    some ((tick key idle)^[k] ⟨r, a, e⟩).run = (r :: a)[k]? := by
  induction k generalizing r a e with
  | zero => rfl
  | succ k ih =>
    cases a with
    | nil => simp at hk
    | cons x a =>
      rw [Function.iterate_succ_apply, List.getElem?_cons_succ]
      exact ih (by simpa using hk)

/-- One whole epoch from a trade of places: `l` sits it out. -/
theorem iterate_trade {l x : α} {e : List α} (hl : l ≠ idle) (hx : idle ∉ x :: e) :
    (tick key idle)^[e.length + 1] ⟨l, [], x :: e⟩ =
      ⟨(x :: e).getLast (by simp), [], (x :: e).dropLast.foldl (fun e y => insertBy key y e) [l]⟩ := by
  have htick : tick key idle ⟨l, [], x :: e⟩ = ⟨x, e, [l]⟩ := by
    show (⟨x, e, back key idle l []⟩ : Config α) = _
    rw [back, if_neg hl]
    rfl
  rw [Function.iterate_succ_apply, htick]
  exact iterate_epoch (fun h => hx (by simp [h])) fun h => hx (List.mem_cons_of_mem _ h)

theorem run_trade {l x : α} {e : List α} {k : ℕ} (hk : k ≤ e.length) :
    some ((tick key idle)^[k + 1] ⟨l, [], x :: e⟩).run = (x :: e)[k]? := by
  rw [Function.iterate_succ_apply]
  exact run_epoch hk

/-- **The one who sits out.** In a fair schedule the thread that ran last before
a trade of places has the least key: otherwise the first of the coming epoch
would be first again in the one after, and run twice before it. -/
theorem Fair.key_le {l x : α} {e : List α} (h : Fair key idle ⟨l, [], x :: e⟩)
    (hw : Wf key idle ⟨l, [], x :: e⟩) (hl : l ≠ idle) (he : e ≠ []) : key l ≤ key x := by
  by_contra hlt
  have hx : x ≠ idle := hw.ne_idle (by simp)
  have hnd : (l :: x :: e).Nodup := by
    simpa [ready, hl] using hw.nodup
  obtain ⟨hlx, hxe⟩ := List.nodup_cons.mp hnd
  have hle : ∀ z ∈ e, key x ≤ key z := (List.pairwise_cons.mp hw.sorted).1
  -- the next epoch starts with `x` again
  obtain ⟨m, hm⟩ : ∃ m, (x :: e).dropLast.foldl (fun e y => insertBy key y e) [l] = x :: m := by
    have hins : insertBy key x [l] = [x, l] := by
      show [l].orderedInsert _ x = _
      rw [List.orderedInsert_cons, if_pos (not_le.mp hlt)]
    rw [List.dropLast_cons_of_ne_nil he, List.foldl_cons, hins]
    exact foldl_insertBy_head fun z hz => hle z (List.mem_of_mem_dropLast hz)
  have hagain : ((tick key idle)^[e.length + 2] ⟨l, [], x :: e⟩).run = x := by
    rw [Function.iterate_succ_apply', iterate_trade hl hw.idle, hm]
    rfl
  have hepoch : ∀ k, 1 ≤ k → k < e.length + 2 →
      some ((tick key idle)^[k] ⟨l, [], x :: e⟩).run = (x :: e)[k - 1]? := by
    intro k h1 h2
    obtain ⟨k, rfl⟩ : ∃ n, k = n + 1 := ⟨k - 1, by omega⟩
    exact run_trade (by omega)
  obtain ⟨k, h1, h2, hk⟩ := h 1 (e.length + 2) x (by omega) (by omega)
    (Option.some.inj (hepoch 1 (by omega) (by omega))) hagain hx
    (fun k h1 h2 hk => by
      have hrun := hepoch k (by omega) h2
      rw [hk] at hrun
      obtain ⟨k, rfl⟩ : ∃ n, k = n + 2 := ⟨k - 2, by omega⟩
      exact (List.nodup_cons.mp hxe).1 (List.mem_of_getElem? hrun.symm))
    l (by simp [ready, hl]) (fun h => hlx (by simp [h]))
  have hrun := hepoch k (by omega) h2
  rw [hk] at hrun
  exact hlx (List.mem_of_getElem? hrun.symm)

/-- From a trade of places on, two fair epochs are enough to make all keys equal. -/
theorem Fair.key_eq {l x : α} {e : List α} (h : Fair key idle ⟨l, [], x :: e⟩)
    (hw : Wf key idle ⟨l, [], x :: e⟩) (hl : l ≠ idle) (he : e ≠ []) :
    ∀ z ∈ l :: x :: e, key z = key x := by
  have hlx := h.key_le hw hl he
  obtain ⟨hxe, hse⟩ := List.pairwise_cons.mp hw.sorted
  have hsorted : (l :: x :: e).Pairwise (fun a b => key a ≤ key b) := by
    refine List.pairwise_cons.mpr ⟨fun z hz => ?_, hw.sorted⟩
    rcases List.mem_cons.mp hz with rfl | hz
    · exact hlx
    · exact hlx.trans (hxe z hz)
  -- the second epoch: `l` first, and the last of the first epoch sits out
  have hfold : (x :: e).dropLast.foldl (fun e y => insertBy key y e) [l] = l :: (x :: e).dropLast := by
    refine foldl_insertBy_append (hsorted.sublist ?_)
    exact List.Sublist.cons_cons l (List.dropLast_sublist _)
  have hnext := @iterate_trade α _ key idle l x e hl hw.idle
  rw [hfold] at hnext
  have hlast : (x :: e).getLast (by simp) ∈ x :: e := List.getLast_mem _
  have hlastl : key ((x :: e).getLast (by simp)) ≤ key l := by
    refine Fair.key_le (hnext ▸ h.iterate hw _) (hnext ▸ (hw.iterate _).1) (hw.ne_idle hlast) ?_
    rw [List.dropLast_cons_of_ne_nil he]
    simp
  have htop : ∀ z ∈ x :: e, key z ≤ key ((x :: e).getLast (by simp)) := by
    intro z hz
    exact hw.sorted.rel_getLast hz
  intro z hz
  rcases List.mem_cons.mp hz with rfl | hz
  · exact le_antisymm hlx ((htop x (by simp)).trans hlastl)
  · refine le_antisymm (((htop z hz).trans hlastl).trans hlx) ?_
    rcases List.mem_cons.mp hz with rfl | hz
    · exact le_refl _
    · exact hxe z hz

/-- Some ticks later the places are about to be traded. -/
theorem exists_trade (hw : Wf key idle c) (hlen : 2 < (ready idle c).length) :
    ∃ n l x e, (tick key idle)^[n] c = ⟨l, [], x :: e⟩ ∧ l ≠ idle ∧ e ≠ [] := by
  have hw1 := hw.tick
  have hlen1 := (ready_tick hw).length_eq
  have hrun : (tick key idle c).run ≠ idle := by
    obtain ⟨r, a, e⟩ := c
    cases a with
    | cons x a => exact hw.ne_idle (x := x) (by simp)
    | nil =>
      cases e with
      | cons x e => exact hw.ne_idle (x := x) (by simp)
      | nil =>
        have hle : (ready idle ⟨r, [], []⟩).length ≤ 1 := by
          unfold ready
          split <;> simp
        omega
  generalize hd : tick key idle c = d at hw1 hlen1 hrun
  have hend := @iterate_epoch α _ key idle d.run d.active d.expire hrun
    fun hi => hw1.idle (List.mem_append_left _ hi)
  have hready := (hw1.iterate d.active.length).2.length_eq
  have hwend := (hw1.iterate d.active.length).1
  have hlast : (d.run :: d.active).getLast (by simp) ≠ idle := by
    rcases List.mem_cons.mp (List.getLast_mem (l := d.run :: d.active) (by simp)) with hr | ha
    · rw [hr]; exact hrun
    · exact hw1.ne_idle (List.mem_append_left _ ha)
  generalize (d.run :: d.active).dropLast.foldl (fun e y => insertBy key y e) d.expire = w at hend
  rw [hend] at hready
  have hw2 : 2 ≤ w.length := by
    have hsum : (ready idle ⟨(d.run :: d.active).getLast (by simp), [], w⟩).length = w.length + 1 := by
      simp [ready, if_neg hlast]
    omega
  obtain ⟨x, e, rfl⟩ := List.exists_cons_of_ne_nil (List.length_pos_iff.mp (by omega : 0 < w.length))
  refine ⟨d.active.length + 1, _, x, e, ?_, hlast, ?_⟩
  · rw [Function.iterate_succ_apply, hd]
    exact hend
  · rintro rfl
    simp at hw2

theorem level_of_fair (hw : Wf key idle c) (h : Fair key idle c) : Level key idle c := by
  by_cases hlen : (ready idle c).length ≤ 2
  · exact .inl hlen
  · right
    obtain ⟨n, l, x, e, hn, hl, he⟩ := exists_trade hw (by omega)
    obtain ⟨hwn, hpn⟩ := hw.iterate n
    have hfn := h.iterate hw n
    rw [hn] at hwn hpn hfn
    have hkey := hfn.key_eq hwn hl he
    have hall : ∀ z ∈ ready idle c, key z = key x := by
      intro z hz
      refine hkey z ?_
      have hzn := hpn.mem_iff.mpr hz
      simpa [ready, hl] using hzn
    intro y hy z hz
    rw [hall y hy, hall z hz]

/-- **Fairness.** The schedule is fair exactly when at most two threads are ready
or all of them have the same key. -/
theorem fair_iff_level (hw : Wf key idle c) : Fair key idle c ↔ Level key idle c :=
  ⟨level_of_fair hw, fair_of_level hw⟩

end PikoRT.Lib.Epochs

import Mathlib

/-! # Circular doubly linked lists

A memory of nodes with two fields, and the predicate that says that the fields of
some nodes form a ring through a head. A store changes one field of one node; the
lemmas say which rings a store leaves alone, and what inserting a node behind the
head, before the head and taking a node out do to the ring. The two directions of a
ring are the same, so what is proved for one is used for the other. -/
namespace PikoRT.Lib.Rings

variable {α : Type*} [DecidableEq α]

structure Links (α : Type*) where
  next : α → α
  prev : α → α

namespace Links

def setNext (a b : α) (l : Links α) : Links α := { l with next := Function.update l.next a b }

def setPrev (a b : α) (l : Links α) : Links α := { l with prev := Function.update l.prev a b }

variable (a b : α) (l : Links α)

@[simp] theorem next_setNext_self : (l.setNext a b).next a = b := Function.update_self ..

@[simp] theorem prev_setPrev_self : (l.setPrev a b).prev a = b := Function.update_self ..

@[simp] theorem prev_setNext : (l.setNext a b).prev = l.prev := rfl

@[simp] theorem next_setPrev : (l.setPrev a b).next = l.next := rfl

variable {a b l} {c : α}

theorem next_setNext_of_ne (h : c ≠ a) : (l.setNext a b).next c = l.next c :=
  Function.update_of_ne h _ _

theorem prev_setPrev_of_ne (h : c ≠ a) : (l.setPrev a b).prev c = l.prev c :=
  Function.update_of_ne h _ _

omit [DecidableEq α] in
@[ext] theorem ext {l m : Links α} (hn : l.next = m.next) (hp : l.prev = m.prev) : l = m := by
  cases l
  cases m
  subst hn hp
  rfl

/-- The same nodes, in the other direction. -/
def flip (l : Links α) : Links α := ⟨l.prev, l.next⟩

end Links

open Links

/-- `b` follows `a`, both ways. -/
def Joined (l : Links α) (a b : α) : Prop := l.next a = b ∧ l.prev b = a

/-- From `a` over the nodes of the list to `b`. -/
def Path (l : Links α) : α → List α → α → Prop
  | a, [], b => Joined l a b
  | a, x :: xs, b => Joined l a x ∧ Path l x xs b

section

variable {l l' : Links α} {a b c h n : α} {xs ys : List α}

omit [DecidableEq α]

theorem path_append : Path l a (xs ++ c :: ys) b ↔ Path l a xs c ∧ Path l c ys b := by
  induction xs generalizing a with
  | nil => exact Iff.rfl
  | cons x xs ih =>
    simp only [List.cons_append, Path, ih, and_assoc]

theorem Path.next_eq (hp : Path l a xs b) : l.next a = (xs ++ [b]).head (by simp) := by
  cases xs with
  | nil => exact hp.1
  | cons x xs => exact hp.1.1

theorem Path.prev_mem (hp : Path l a xs b) : l.prev b ∈ a :: xs := by
  induction xs generalizing a with
  | nil =>
    rw [hp.2]
    exact List.mem_cons_self
  | cons x xs ih => exact List.mem_cons_of_mem _ (ih hp.2)

/-- A path depends on the fields along it. -/
theorem Path.congr (hp : Path l a xs b) (hn : ∀ z ∈ a :: xs, l'.next z = l.next z)
    (hv : ∀ z ∈ xs ++ [b], l'.prev z = l.prev z) : Path l' a xs b := by
  induction xs generalizing a with
  | nil => exact ⟨(hn a (by simp)).trans hp.1, (hv b (by simp)).trans hp.2⟩
  | cons x xs ih =>
    refine ⟨⟨(hn a (by simp)).trans hp.1.1, (hv x (by simp)).trans hp.1.2⟩, ih hp.2 ?_ ?_⟩
    · exact fun z hz => hn z (List.mem_cons_of_mem _ hz)
    · exact fun z hz => hv z (List.mem_cons_of_mem _ hz)

theorem path_flip : Path l.flip b xs.reverse a ↔ Path l a xs b := by
  induction xs generalizing a with
  | nil => exact and_comm
  | cons x xs ih =>
    rw [List.reverse_cons, path_append, ih]
    show _ ∧ (l.prev x = a ∧ l.next a = x) ↔ (l.next a = x ∧ l.prev x = a) ∧ _
    tauto

/-- The last node of the path leads somewhere else. -/
theorem Path.redirect [DecidableEq α] (hp : Path l a xs b) (hnd : (a :: xs).Nodup) (hc : c ∉ xs) :
    Path ((l.setPrev c (l.prev b)).setNext (l.prev b) c) a xs c := by
  induction xs generalizing a with
  | nil =>
    have hb : l.prev b = a := hp.2
    exact ⟨by rw [hb, next_setNext_self], by rw [prev_setNext, prev_setPrev_self, hb]⟩
  | cons x xs ih =>
    obtain ⟨ha, hnd⟩ := List.nodup_cons.mp hnd
    obtain ⟨hcx, hc⟩ := not_or.mp (fun h => hc (List.mem_cons.mpr h))
    refine ⟨⟨?_, ?_⟩, ih hp.2 hnd hc⟩
    · have hne : a ≠ l.prev b := fun he => ha (he ▸ Path.prev_mem hp.2)
      rw [next_setNext_of_ne hne, next_setPrev]
      exact hp.1.1
    · rw [prev_setNext, prev_setPrev_of_ne (Ne.symm hcx)]
      exact hp.1.2

/-- The nodes of the list, in order, form a ring with the head. -/
structure Ring (l : Links α) (h : α) (xs : List α) : Prop where
  path : Path l h xs h
  nodup : (h :: xs).Nodup

theorem Ring.head_notMem (hr : Ring l h xs) : h ∉ xs := (List.nodup_cons.mp hr.nodup).1

theorem Ring.flip (hr : Ring l h xs) : Ring l.flip h xs.reverse :=
  ⟨path_flip.mpr hr.path, by
    rw [List.nodup_cons, List.mem_reverse, List.nodup_reverse]
    exact List.nodup_cons.mp hr.nodup⟩

theorem Ring.congr (hr : Ring l h xs) (hn : ∀ z ∈ h :: xs, l'.next z = l.next z)
    (hv : ∀ z ∈ h :: xs, l'.prev z = l.prev z) : Ring l' h xs := by
  refine ⟨hr.path.congr hn fun z hz => hv z ?_, hr.nodup⟩
  simpa [or_comm] using hz

/-- The nodes of a ring are determined by the memory. -/
theorem Path.unique (hx : Path l a xs h) (hy : Path l a ys h) (hhx : h ∉ xs) (hhy : h ∉ ys) :
    xs = ys := by
  induction xs generalizing a ys with
  | nil =>
    cases ys with
    | nil => rfl
    | cons y ys => exact absurd (List.mem_cons.mpr (.inl (hx.1.symm.trans hy.1.1))) hhy
  | cons x xs ih =>
    cases ys with
    | nil => exact absurd (List.mem_cons.mpr (.inl (hy.1.symm.trans hx.1.1))) hhx
    | cons y ys =>
      obtain rfl : x = y := hx.1.1.symm.trans hy.1.1
      exact congrArg _ (ih hx.2 hy.2 (fun h => hhx (List.mem_cons_of_mem _ h))
        fun h => hhy (List.mem_cons_of_mem _ h))

theorem Ring.unique (hx : Ring l h xs) (hy : Ring l h ys) : xs = ys :=
  hx.path.unique hy.path hx.head_notMem hy.head_notMem

theorem Ring.next_head (hr : Ring l h xs) : l.next h = (xs ++ [h]).head (by simp) := hr.path.next_eq

theorem Ring.next_head_eq_iff (hr : Ring l h xs) : l.next h = h ↔ xs = [] := by
  rw [hr.next_head]
  cases xs with
  | nil => simp
  | cons x xs =>
    have hne : x ≠ h := by
      rintro rfl
      exact hr.head_notMem List.mem_cons_self
    simp [hne]

/-- A head that points to itself both ways is a ring of nothing. -/
theorem Ring.nil (hn : l.next h = h) (hp : l.prev h = h) : Ring l h [] := ⟨⟨hn, hp⟩, by simp⟩

end

/-! ## Inserting a node and taking one out -/

/-- The node `n` comes between `p` and `q`. -/
def insert (n p q : α) (l : Links α) : Links α :=
  (((l.setPrev q n).setNext n q).setPrev n p).setNext p n

/-- `q` comes after `p`. -/
def join (p q : α) (l : Links α) : Links α := (l.setPrev q p).setNext p q

section

variable {l : Links α} {g h n p q z : α} {xs ys us vs : List α}

theorem next_insert_of_ne (hn : z ≠ n) (hp : z ≠ p) : (insert n p q l).next z = l.next z := by
  unfold insert
  rw [next_setNext_of_ne hp, next_setPrev, next_setNext_of_ne hn, next_setPrev]

theorem prev_insert_of_ne (hn : z ≠ n) (hq : z ≠ q) : (insert n p q l).prev z = l.prev z := by
  unfold insert
  rw [prev_setNext, prev_setPrev_of_ne hn, prev_setNext, prev_setPrev_of_ne hq]

theorem next_join_of_ne (hp : z ≠ p) : (join p q l).next z = l.next z := by
  unfold join
  rw [next_setNext_of_ne hp, next_setPrev]

theorem prev_join_of_ne (hq : z ≠ q) : (join p q l).prev z = l.prev z := by
  unfold join
  rw [prev_setNext, prev_setPrev_of_ne hq]

theorem joined_insert_left : Joined (insert n p q l) p n := by
  refine ⟨next_setNext_self .., ?_⟩
  unfold insert
  rw [prev_setNext, prev_setPrev_self]

theorem joined_insert_right (hp : n ≠ p) (hq : n ≠ q) : Joined (insert n p q l) n q := by
  unfold insert
  refine ⟨?_, ?_⟩
  · rw [next_setNext_of_ne hp, next_setPrev, next_setNext_self]
  · rw [prev_setNext, prev_setPrev_of_ne hq.symm, prev_setNext, prev_setPrev_self]

/-- The two directions of an insertion. -/
theorem flip_insert (hp : n ≠ p) (hq : n ≠ q) : (insert n p q l).flip = insert n q p l.flip := by
  refine Links.ext ?_ ?_
  · exact Function.update_comm hq.symm _ _ _
  · exact Function.update_comm hp _ _ _

theorem Ring.insert_head (hr : Ring l h xs) (hn : n ∉ h :: xs) :
    Ring (insert n h (l.next h) l) h (n :: xs) := by
  have hnh : n ≠ h := fun he => hn (he ▸ List.mem_cons_self)
  have hnd : (h :: n :: xs).Nodup := (List.Perm.swap h n xs).nodup_iff.mp (List.nodup_cons.mpr ⟨hn, hr.nodup⟩)
  refine ⟨⟨joined_insert_left, ?_⟩, hnd⟩
  cases xs with
  | nil =>
    have hh : l.next h = h := hr.path.1
    rw [hh]
    exact joined_insert_right hnh hnh
  | cons x xs =>
    have hx : l.next h = x := hr.path.1.1
    rw [hx]
    have hnx : n ≠ x := by
      rintro rfl
      exact hn (by simp)
    obtain ⟨hhx, hxs⟩ := List.nodup_cons.mp hr.nodup
    obtain ⟨hx', -⟩ := List.nodup_cons.mp hxs
    refine ⟨joined_insert_right hnh hnx, hr.path.2.congr (fun z hz => ?_) fun z hz => ?_⟩
    · refine next_insert_of_ne ?_ ?_
      · rintro rfl; exact hn (List.mem_cons_of_mem _ hz)
      · rintro rfl; exact hhx hz
    · refine prev_insert_of_ne ?_ ?_
      · rintro rfl
        rcases List.mem_append.mp hz with hz | hz
        · exact hn (by simp [hz])
        · exact hnh (List.mem_singleton.mp hz)
      · rintro rfl
        rcases List.mem_append.mp hz with hz | hz
        · exact hx' hz
        · exact hhx (List.mem_singleton.mp hz ▸ List.mem_cons_self)

theorem Ring.insert_last (hr : Ring l h xs) (hn : n ∉ h :: xs) :
    Ring (insert n (l.prev h) h l) h (xs ++ [n]) := by
  have hnh : n ≠ h := fun he => hn (he ▸ List.mem_cons_self)
  have hnp : n ≠ l.prev h := fun he => hn (he ▸ hr.path.prev_mem)
  have hflip := (hr.flip.insert_head (n := n) (by simpa using hn)).flip
  have hback : (insert n h (l.flip.next h) l.flip).flip = insert n (l.prev h) h l :=
    flip_insert (l := l.flip) hnh hnp
  rw [hback] at hflip
  simpa using hflip

omit [DecidableEq α] in
/-- A ring begins anywhere. -/
theorem Ring.rotate (hr : Ring l h (us ++ n :: vs)) : Ring l n (vs ++ h :: us) := by
  obtain ⟨hu, hv⟩ := path_append.mp hr.path
  refine ⟨path_append.mpr ⟨hv, hu⟩, ?_⟩
  have hperm : ((h :: us) ++ n :: vs).Perm ((n :: vs) ++ h :: us) := List.perm_append_comm
  exact hperm.nodup_iff.mp hr.nodup

theorem Ring.insert_after (hr : Ring l h (us ++ p :: vs)) (hn : n ∉ h :: (us ++ p :: vs)) :
    Ring (insert n p (l.next p) l) h (us ++ p :: n :: vs) := by
  have hn' : n ∉ p :: (vs ++ h :: us) := by
    intro hm
    refine hn ?_
    simp only [List.mem_cons, List.mem_append] at hm ⊢
    tauto
  have hins := hr.rotate.insert_head hn'
  rw [← List.cons_append] at hins
  exact hins.rotate

/-- Taking a node out. -/
theorem Ring.remove (hr : Ring l h (us ++ n :: vs)) :
    Ring (join (l.prev n) (l.next n) l) h (us ++ vs) := by
  obtain ⟨hu, hv⟩ := path_append.mp hr.path
  have hnd := hr.nodup
  rw [← List.cons_append] at hnd
  have hrest : ((h :: us) ++ vs).Nodup := by
    rw [List.nodup_append] at hnd ⊢
    refine ⟨hnd.1, (List.nodup_cons.mp hnd.2.1).2, fun a ha b hb => ?_⟩
    exact hnd.2.2 a ha b (List.mem_cons_of_mem _ hb)
  obtain ⟨hndu, hndv, hdis⟩ := List.nodup_append.mp hrest
  refine ⟨?_, by simpa using hrest⟩
  cases vs with
  | nil =>
    have hnext : l.next n = h := hv.1
    rw [hnext, List.append_nil]
    exact hu.redirect hndu (List.nodup_cons.mp hndu).1
  | cons b vs =>
    have hnext : l.next n = b := hv.1.1
    have hbu : b ∉ h :: us := fun hb => hdis b hb b List.mem_cons_self rfl
    rw [hnext, path_append]
    refine ⟨hu.redirect hndu fun hb => hbu (List.mem_cons_of_mem _ hb), hv.2.congr (fun z hz => ?_) fun z hz => ?_⟩
    · refine next_join_of_ne ?_
      rintro rfl
      exact hdis _ hu.prev_mem _ hz rfl
    · refine prev_join_of_ne ?_
      rintro rfl
      rcases List.mem_append.mp hz with hz | hz
      · exact (List.nodup_cons.mp hndv).1 hz
      · exact hbu (List.mem_singleton.mp hz ▸ List.mem_cons_self)

omit [DecidableEq α] in
theorem Path.next_mem {a : α} (hp : Path l a xs h) (hz : z ∈ a :: xs) : l.next z ∈ xs ++ [h] := by
  induction xs generalizing a with
  | nil =>
    obtain rfl := List.mem_singleton.mp hz
    rw [hp.1]
    simp
  | cons x xs ih =>
    rcases List.mem_cons.mp hz with rfl | hz
    · rw [hp.1.1]
      simp
    · exact List.mem_cons_of_mem _ (ih hp.2 hz)

omit [DecidableEq α] in
/-- Who points to a node of a ring is on it. -/
theorem Ring.next_mem (hr : Ring l h xs) (hz : z ∈ h :: xs) : l.next z ∈ h :: xs := by
  simpa [or_comm] using hr.path.next_mem hz

omit [DecidableEq α] in
theorem Path.reached {a : α} (hp : Path l a xs h) (hz : z ∈ xs) : ∃ n, l.next^[n] a = z := by
  induction xs generalizing a with
  | nil => cases hz
  | cons x xs ih =>
    rcases List.mem_cons.mp hz with rfl | hz
    · exact ⟨1, hp.1.1⟩
    · obtain ⟨n, hn⟩ := ih hp.2 hz
      refine ⟨n + 1, ?_⟩
      rw [Function.iterate_succ_apply, hp.1.1, hn]

omit [DecidableEq α] in
/-- A ring is what is reached from its head. -/
theorem Ring.mem_iff_reached (hr : Ring l h xs) : z ∈ h :: xs ↔ ∃ n, l.next^[n] h = z := by
  constructor
  · intro hz
    rcases List.mem_cons.mp hz with rfl | hz
    · exact ⟨0, rfl⟩
    · exact hr.path.reached hz
  · rintro ⟨n, rfl⟩
    induction n with
    | zero => exact List.mem_cons_self
    | succ n ih =>
      rw [Function.iterate_succ_apply']
      exact hr.next_mem ih

omit [DecidableEq α] in
theorem Ring.prev_mem (hr : Ring l h xs) (hz : z ∈ h :: xs) : l.prev z ∈ h :: xs := by
  have hmem : l.prev z ∈ h :: xs.reverse := hr.flip.next_mem (by simpa using hz)
  simpa using hmem

omit [DecidableEq α] in
theorem Path.prev_next {a : α} (hp : Path l a xs h) (hz : z ∈ a :: xs) : l.prev (l.next z) = z := by
  induction xs generalizing a with
  | nil =>
    obtain rfl := List.mem_singleton.mp hz
    rw [hp.1, hp.2]
  | cons x xs ih =>
    rcases List.mem_cons.mp hz with rfl | hz
    · rw [hp.1.1, hp.1.2]
    · exact ih hp.2 hz

omit [DecidableEq α] in
/-- No two nodes of a ring point to the same one. -/
theorem Ring.prev_next (hr : Ring l h xs) (hz : z ∈ h :: xs) : l.prev (l.next z) = z := hr.path.prev_next hz

omit [DecidableEq α] in
theorem Ring.next_prev (hr : Ring l h xs) (hz : z ∈ h :: xs) : l.next (l.prev z) = z :=
  hr.flip.prev_next (by simpa using hz)

omit [DecidableEq α] in
theorem Ring.prev_ne (hr : Ring l h xs) (hz : z ∈ xs) : l.prev z ≠ z := by
  obtain ⟨us, vs, rfl⟩ := List.append_of_mem hz
  have hmem : l.prev z ∈ h :: us := (path_append.mp hr.path).1.prev_mem
  have hnd : ((h :: us) ++ z :: vs).Nodup := hr.nodup
  intro he
  rw [he] at hmem
  exact (List.nodup_append.mp hnd).2.2 z hmem z List.mem_cons_self rfl

/-- A node of a ring that is inserted again has two predecessors. -/
theorem Ring.not_insert_head (hr : Ring l h xs) (hn : n ∈ xs) (hsub : ∀ z ∈ xs, z ∈ ys) :
    ¬ Ring (insert n h (l.next h) l) h ys := by
  intro hy
  have hnh : n ≠ h := fun he => hr.head_notMem (he ▸ hn)
  have hmem : n ∈ h :: xs := List.mem_cons_of_mem _ hn
  have hhead : (insert n h (l.next h) l).prev n = h := joined_insert_left.2
  -- the node before `n` still is, unless `n` was first and now comes before itself
  obtain ⟨z, hz, hzn⟩ : ∃ z ∈ xs, (insert n h (l.next h) l).next z = n := by
    by_cases hp : l.prev n = h
    · have hfirst : l.next h = n := by
        rw [← hp]
        exact hr.next_prev hmem
      refine ⟨n, hn, ?_⟩
      unfold insert
      rw [next_setNext_of_ne hnh, next_setPrev, next_setNext_self, hfirst]
    · refine ⟨l.prev n, (List.mem_cons.mp (hr.prev_mem hmem)).resolve_left hp, ?_⟩
      rw [next_insert_of_ne (hr.prev_ne hn) hp]
      exact hr.next_prev hmem
  have hback := hy.prev_next (List.mem_cons_of_mem _ (hsub z hz))
  rw [hzn, hhead] at hback
  exact hr.head_notMem (hback ▸ hz)

/-- A ring apart from the place of an insertion. -/
theorem Ring.insert_other (hr : Ring l h xs) (hn : n ∉ h :: xs) (hp : p ∉ h :: xs) (hq : q ∉ h :: xs) :
    Ring (insert n p q l) h xs :=
  hr.congr
    (fun _ hz => next_insert_of_ne (fun he => hn (he ▸ hz)) fun he => hp (he ▸ hz))
    fun _ hz => prev_insert_of_ne (fun he => hn (he ▸ hz)) fun he => hq (he ▸ hz)

theorem Ring.join_other (hr : Ring l h xs) (hp : p ∉ h :: xs) (hq : q ∉ h :: xs) :
    Ring (join p q l) h xs :=
  hr.congr (fun _ hz => next_join_of_ne fun he => hp (he ▸ hz))
    fun _ hz => prev_join_of_ne fun he => hq (he ▸ hz)

/-! ## Going round -/

/-- Goes from a node on to the first that fits, or to the head; nothing when the fuel
does not last. -/
def search (fits : α → Bool) (h : α) (l : Links α) : ℕ → α → Option (Option α)
  | 0, _ => none
  | fuel + 1, z =>
    if z = h then some none
    else if fits z then some (some z)
    else search fits h l fuel (l.next z)

theorem search_path {fits : α → Bool} {a : α} (hp : Path l a xs h) (hh : h ∉ xs) :
    search fits h l (xs.length + 1) (l.next a) = some (xs.find? fits) := by
  induction xs generalizing a with
  | nil =>
    rw [hp.1]
    simp [search]
  | cons x xs ih =>
    have hxh : x ≠ h := fun he => hh (he ▸ List.mem_cons_self)
    rw [hp.1.1, List.length_cons, search, if_neg hxh, List.find?_cons]
    cases fits x with
    | true => rfl
    | false => exact ih hp.2 fun hm => hh (List.mem_cons_of_mem _ hm)

/-- On a ring the search ends, and finds the first node that fits. -/
theorem Ring.search (hr : Ring l h xs) (fits : α → Bool) :
    Rings.search fits h l (xs.length + 1) (l.next h) = some (xs.find? fits) :=
  search_path hr.path hr.head_notMem

/-- A node that points to itself is never left. -/
theorem search_loop {fits : α → Bool} (hz : z ≠ h) (hf : fits z = false) (hl : l.next z = z)
    (fuel : ℕ) : search fits h l fuel z = none := by
  induction fuel with
  | zero => rfl
  | succ fuel ih =>
    rw [search, if_neg hz, hf]
    simpa [hl] using ih

end

end PikoRT.Lib.Rings

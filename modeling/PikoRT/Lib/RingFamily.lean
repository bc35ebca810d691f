import PikoRT.Lib.RingCuts

/-! # Several rings in one memory

Every node may be the head of a ring, and no node is on two rings. A node that is on no ring has
fields that mean nothing. The rules say what a store does to all the lists at once: inserting a
node, taking one out, putting one in the place of another, and moving the nodes of whole rings. -/
namespace PikoRT.Lib.Rings

variable {α : Type*}

/-- The list behind every head. -/
abbrev Sequences (α : Type*) := α → Option (List α)

namespace Sequences

/-- The node is the head `h` or in its list. -/
def On (a : Sequences α) (h z : α) : Prop := ∃ xs, a h = some xs ∧ z ∈ h :: xs

def Member (a : Sequences α) (z : α) : Prop := ∃ h xs, a h = some xs ∧ z ∈ xs

/-- Every list becomes another list. -/
def mapLists (f : α → List α → List α) (a : Sequences α) : Sequences α := fun h => (a h).map (f h)

variable [DecidableEq α]

/-- A node loses its list. -/
def forget (n : α) (a : Sequences α) : Sequences α := Function.update a n none

def setList (h : α) (xs : List α) (a : Sequences α) : Sequences α := Function.update a h (some xs)

def insertAfter (new pos : α) : Sequences α → Sequences α :=
  mapLists fun h xs => if h = pos then new :: xs else xs.flatMap fun z => if z = pos then [z, new] else [z]

def insertBefore (new pos : α) : Sequences α → Sequences α :=
  mapLists fun h xs => if h = pos then xs ++ [new] else xs.flatMap fun z => if z = pos then [new, z] else [z]

/-- Nodes come behind `pos`, at the front when it is a head. -/
def spliceAfter (ys : List α) (pos : α) : Sequences α → Sequences α :=
  mapLists fun h xs => if h = pos then ys ++ xs else xs.flatMap fun z => if z = pos then z :: ys else [z]

/-- Nodes come in front of `pos`, at the end when it is a head. -/
def spliceBefore (ys : List α) (pos : α) : Sequences α → Sequences α :=
  mapLists fun h xs => if h = pos then xs ++ ys else xs.flatMap fun z => if z = pos then ys ++ [z] else [z]

def remove (e : α) (a : Sequences α) : Sequences α := mapLists (fun _ xs => xs.erase e) (forget e a)

/-- `new` takes the place of `old`, in a list or as a head. -/
def replace (old new : α) (a : Sequences α) : Sequences α :=
  match a old with
  | some xs => setList new xs (forget old a)
  | none => mapLists (fun _ xs => xs.map fun z => if z = old then new else z) a

end Sequences

open Sequences

/-- The heads have these lists, and the rings are apart. -/
structure Family (l : Links α) (a : Sequences α) : Prop where
  ring : ∀ h xs, a h = some xs → Ring l h xs
  apart : ∀ h g z, On a h z → On a g z → h = g

section

variable {l l' : Links α} {a b : Sequences α} {e g h n p q z pos new : α} {xs ys us vs : List α}

theorem on_iff (hh : a h = some xs) : On a h z ↔ z ∈ h :: xs :=
  ⟨fun ⟨_, hy, hz⟩ => Option.some.inj (hh.symm.trans hy) ▸ hz, fun hz => ⟨xs, hh, hz⟩⟩

theorem on_mapLists {f : α → List α → List α} : On (mapLists f a) h z ↔ ∃ xs, a h = some xs ∧ z ∈ h :: f h xs := by
  unfold On mapLists
  constructor
  · rintro ⟨ys, hy, hz⟩
    obtain ⟨xs, hx, rfl⟩ := Option.map_eq_some_iff.mp hy
    exact ⟨xs, hx, hz⟩
  · rintro ⟨xs, hx, hz⟩
    exact ⟨f h xs, by rw [hx, Option.map_some], hz⟩

/-- The rings that are there afterwards are rings, and what is on them was on them or is new. -/
theorem Family.mono (ha : Family l a) (hr : ∀ h xs, b h = some xs → Ring l' h xs)
    (ho : ∀ h z, On b h z → On a h z) : Family l' b :=
  ⟨hr, fun h g z hh hg => ha.apart h g z (ho h z hh) (ho g z hg)⟩

/-- A new node comes onto the ring of `g`. -/
theorem Family.mono_new (ha : Family l a) (hn : ∀ h, ¬ On a h n) (hr : ∀ h xs, b h = some xs → Ring l' h xs)
    (ho : ∀ h z, On b h z → On a h z ∨ (h = g ∧ z = n)) : Family l' b := by
  refine ⟨hr, fun h k z hh hk => ?_⟩
  rcases ho h z hh with hh | ⟨rfl, rfl⟩
  · rcases ho k z hk with hk | ⟨rfl, rfl⟩
    · exact ha.apart h k z hh hk
    · exact absurd hh (hn h)
  · rcases ho k z hk with hk | ⟨rfl, -⟩
    · exact absurd hk (hn k)
    · rfl

theorem Family.notMem (ha : Family l a) (hz : On a h z) (hg : a g = some xs) (hne : g ≠ h) : z ∉ g :: xs :=
  fun hm => hne (ha.apart g h z ((on_iff hg).mpr hm) hz)

theorem Family.next_on (ha : Family l a) (hz : On a h z) : On a h (l.next z) := by
  obtain ⟨xs, hx, hm⟩ := hz
  exact ⟨xs, hx, (ha.ring h xs hx).next_mem hm⟩

theorem Family.prev_on (ha : Family l a) (hz : On a h z) : On a h (l.prev z) := by
  obtain ⟨xs, hx, hm⟩ := hz
  exact ⟨xs, hx, (ha.ring h xs hx).prev_mem hm⟩

/-- What is written to a node that is on no ring does not matter. -/
theorem Family.other (ha : Family l a) (hn : ∀ h, ¬ On a h n) (hnext : ∀ z, z ≠ n → l'.next z = l.next z)
    (hprev : ∀ z, z ≠ n → l'.prev z = l.prev z) : Family l' a := by
  refine ha.mono (fun h xs hx => ?_) fun _ _ => id
  have hne : ∀ z ∈ h :: xs, z ≠ n := by
    rintro z hz rfl
    exact hn h ((on_iff hx).mpr hz)
  exact (ha.ring h xs hx).congr (fun z hz => hnext z (hne z hz)) fun z hz => hprev z (hne z hz)

variable [DecidableEq α]

theorem on_forget : On (forget n a) h z ↔ h ≠ n ∧ On a h z := by
  unfold On forget
  by_cases hh : h = n
  · subst hh
    simp
  · simp [hh]

theorem on_setList : On (setList g ys a) h z ↔ (h = g ∧ z ∈ g :: ys) ∨ (h ≠ g ∧ On a h z) := by
  unfold On setList
  by_cases hh : h = g
  · subst hh
    simp
  · simp [hh]

theorem notOn_forget (hn : ¬ Member a n) (h : α) : ¬ On (forget n a) h n := by
  rw [on_forget]
  rintro ⟨hne, xs, hx, hm⟩
  rcases List.mem_cons.mp hm with rfl | hm
  · exact hne rfl
  · exact hn ⟨h, xs, hx, hm⟩

theorem Family.forget (ha : Family l a) (n : α) : Family l (forget n a) := by
  refine ha.mono (fun h xs hx => ?_) fun h z hz => (on_forget.mp hz).2
  refine ha.ring h xs ?_
  by_cases hh : h = n
  · subst hh
    simp [Sequences.forget] at hx
  · simpa [Sequences.forget, hh] using hx

/-- The rings that a store between two nodes of one ring leaves alone. -/
theorem Family.join_other (ha : Family l a) (hp : On a h p) (hq : On a h q) (hg : a g = some xs) (hne : g ≠ h) :
    Ring (join p q l) g xs :=
  (ha.ring g xs hg).join_other (ha.notMem hp hg hne) (ha.notMem hq hg hne)

theorem Family.insert_other (ha : Family l a) (hn : ∀ h, ¬ On a h n) (hp : On a h p) (hq : On a h q)
    (hg : a g = some xs) (hne : g ≠ h) : Ring (insert n p q l) g xs :=
  (ha.ring g xs hg).insert_other (fun hm => hn g ((on_iff hg).mpr hm)) (ha.notMem hp hg hne) (ha.notMem hq hg hne)

/-! ## One node -/

omit [DecidableEq α] in
theorem flatMap_of_notMem {f : α → List α} (hf : ∀ z, z ≠ pos → f z = [z]) (hp : pos ∉ xs) : xs.flatMap f = xs := by
  induction xs with
  | nil => rfl
  | cons x xs ih =>
    obtain ⟨hx, hxs⟩ := not_or.mp (fun hm => hp (List.mem_cons.mpr hm))
    rw [List.flatMap_cons, hf x (Ne.symm hx), ih hxs, List.singleton_append]

omit [DecidableEq α] in
theorem flatMap_split {f : α → List α} (hf : ∀ z, z ≠ pos → f z = [z]) (hu : pos ∉ us) (hv : pos ∉ vs) :
    (us ++ pos :: vs).flatMap f = us ++ f pos ++ vs := by
  rw [List.flatMap_append, List.flatMap_cons, flatMap_of_notMem hf hu, flatMap_of_notMem hf hv, List.append_assoc]

omit [DecidableEq α] in
theorem Ring.split (hr : Ring l h xs) (hp : p ∈ xs) : ∃ us vs, xs = us ++ p :: vs ∧ p ∉ us ∧ p ∉ vs := by
  obtain ⟨us, vs, rfl⟩ := List.append_of_mem hp
  have hnd := (List.nodup_cons.mp hr.nodup).2
  obtain ⟨-, hv, hdis⟩ := List.nodup_append.mp hnd
  exact ⟨us, vs, rfl, fun hu => hdis p hu p List.mem_cons_self rfl, (List.nodup_cons.mp hv).1⟩

omit [DecidableEq α] in
/-- The list of one head gets a new node. -/
theorem Family.place {f : α → List α → List α} (ha : Family l a) (hn : ∀ h, ¬ On a h n) (hp : On a h p)
    (hsame : ∀ g xs, p ∉ g :: xs → f g xs = xs) (hother : ∀ g xs, a g = some xs → g ≠ h → Ring l' g xs)
    (hring : ∀ xs, a h = some xs → Ring l' h (f h xs) ∧ ∀ z ∈ f h xs, z = n ∨ z ∈ xs) :
    Family l' (mapLists f a) := by
  refine ha.mono_new (g := h) hn (fun g ys hy => ?_) fun g z hz => ?_
  · obtain ⟨xs, hx, rfl⟩ := Option.map_eq_some_iff.mp hy
    by_cases hg : g = h
    · subst hg
      exact (hring xs hx).1
    · rw [hsame g xs (ha.notMem hp hx hg)]
      exact hother g xs hx hg
  · obtain ⟨xs, hx, hz⟩ := on_mapLists.mp hz
    rw [on_iff hx]
    by_cases hg : g = h
    · subst hg
      rcases List.mem_cons.mp hz with rfl | hz
      · exact .inl List.mem_cons_self
      · exact ((hring xs hx).2 z hz).elim (fun h => .inr ⟨rfl, h⟩) fun h => .inl (List.mem_cons_of_mem _ h)
    · rw [hsame g xs (ha.notMem hp hx hg)] at hz
      exact .inl hz

theorem Family.insertAfter (ha : Family l a) (hn : ∀ h, ¬ On a h n) (hp : On a h p) :
    Family (insert n p (l.next p) l) (insertAfter n p a) := by
  have hne : ∀ z, z ≠ p → (if z = p then [z, n] else [z]) = [z] := fun z hz => if_neg hz
  refine ha.place hn hp (fun g xs hm => ?_) (fun g xs hx hg => ha.insert_other hn hp (ha.next_on hp) hx hg) fun xs
    hx => ?_
  · obtain ⟨hg, hm⟩ := not_or.mp (fun h => hm (List.mem_cons.mpr h))
    rw [if_neg (Ne.symm hg), flatMap_of_notMem hne hm]
  · have hr := ha.ring h xs hx
    have hnew : n ∉ h :: xs := fun hm => hn h ((on_iff hx).mpr hm)
    rcases List.mem_cons.mp ((on_iff hx).mp hp) with rfl | hm
    · rw [if_pos rfl]
      exact ⟨hr.insert_head hnew, fun z hz => List.mem_cons.mp hz⟩
    · have hh : h ≠ p := by
        rintro rfl
        exact hr.head_notMem hm
      obtain ⟨us, vs, rfl, hu, hv⟩ := hr.split hm
      rw [if_neg hh, flatMap_split hne hu hv, if_pos rfl, List.append_assoc]
      refine ⟨hr.insert_after hnew, fun z hz => ?_⟩
      simp only [List.mem_append, List.mem_cons] at hz ⊢
      tauto

/-- A node comes before another one. -/
theorem Ring.insert_before (hr : Ring l h (us ++ p :: vs)) (hn : n ∉ h :: (us ++ p :: vs)) :
    Ring (insert n (l.prev p) p l) h (us ++ n :: p :: vs) := by
  have hn' : n ∉ p :: (vs ++ h :: us) := by
    intro hm
    refine hn ?_
    simp only [List.mem_cons, List.mem_append] at hm ⊢
    tauto
  have hins := hr.rotate.insert_last hn'
  rw [List.append_assoc, List.cons_append] at hins
  simpa using hins.rotate

theorem Family.insertBefore (ha : Family l a) (hn : ∀ h, ¬ On a h n) (hp : On a h p) :
    Family (insert n (l.prev p) p l) (insertBefore n p a) := by
  have hne : ∀ z, z ≠ p → (if z = p then [n, z] else [z]) = [z] := fun z hz => if_neg hz
  refine ha.place hn hp (fun g xs hm => ?_) (fun g xs hx hg => ha.insert_other hn (ha.prev_on hp) hp hx hg) fun xs
    hx => ?_
  · obtain ⟨hg, hm⟩ := not_or.mp (fun h => hm (List.mem_cons.mpr h))
    rw [if_neg (Ne.symm hg), flatMap_of_notMem hne hm]
  · have hr := ha.ring h xs hx
    have hnew : n ∉ h :: xs := fun hm => hn h ((on_iff hx).mpr hm)
    rcases List.mem_cons.mp ((on_iff hx).mp hp) with rfl | hm
    · rw [if_pos rfl]
      exact ⟨hr.insert_last hnew, fun z hz => by simpa [or_comm] using hz⟩
    · have hh : h ≠ p := by
        rintro rfl
        exact hr.head_notMem hm
      obtain ⟨us, vs, rfl, hu, hv⟩ := hr.split hm
      rw [if_neg hh, flatMap_split hne hu hv, if_pos rfl, List.append_assoc]
      refine ⟨hr.insert_before hnew, fun z hz => ?_⟩
      simp only [List.mem_append, List.mem_cons, List.not_mem_nil, or_false] at hz ⊢
      tauto

/-- A node that can be taken out: it is in a list, or a head without one. -/
def Sequences.Loose (a : Sequences α) (e : α) : Prop := Member a e ∨ a e = some []

omit [DecidableEq α] in
theorem Family.head_notMember (ha : Family l a) (hx : a h = some xs) : ¬ Member a h := by
  rintro ⟨g, ys, hy, hm⟩
  obtain rfl : g = h := ha.apart g h h ⟨ys, hy, List.mem_cons_of_mem _ hm⟩ ⟨xs, hx, List.mem_cons_self⟩
  exact (ha.ring g ys hy).head_notMem hm

omit [DecidableEq α] in
theorem Family.member_eq_none (ha : Family l a) (he : Member a e) : a e = none := by
  cases hx : a e with
  | none => rfl
  | some xs => exact absurd he (ha.head_notMember hx)

theorem forget_eq_some : forget n a h = some xs ↔ h ≠ n ∧ a h = some xs := by
  unfold forget
  by_cases hh : h = n
  · subst hh
    simp
  · simp [hh]

theorem setList_eq_some : setList g ys a h = some xs ↔ (h = g ∧ xs = ys) ∨ (h ≠ g ∧ a h = some xs) := by
  unfold setList
  by_cases hh : h = g
  · subst hh
    simp [eq_comm]
  · simp [hh]

theorem remove_eq_some : remove e a h = some ys ↔ h ≠ e ∧ ∃ xs, a h = some xs ∧ xs.erase e = ys := by
  unfold Sequences.remove mapLists
  simp only [Option.map_eq_some_iff, forget_eq_some, and_assoc, exists_and_left]

theorem Family.notOn_remove (ha : Family l a) (e h : α) : ¬ On (remove e a) h e := by
  rintro ⟨ys, hy, hm⟩
  obtain ⟨hne, xs, hx, rfl⟩ := remove_eq_some.mp hy
  rcases List.mem_cons.mp hm with rfl | hm
  · exact hne rfl
  · exact ((List.nodup_cons.mp (ha.ring h xs hx).nodup).2.mem_erase_iff.mp hm).1 rfl

theorem on_of_on_remove (hz : On (remove e a) h z) : On a h z := by
  obtain ⟨ys, hy, hm⟩ := hz
  obtain ⟨-, xs, hx, rfl⟩ := remove_eq_some.mp hy
  exact ⟨xs, hx, (List.erase_sublist.cons_cons h).subset hm⟩

theorem Family.remove (ha : Family l a) (he : Loose a e) :
    Family (join (l.prev e) (l.next e) l) (remove e a) := by
  refine ha.mono (fun h ys hy => ?_) fun h z => on_of_on_remove
  obtain ⟨hne, xs, hx, rfl⟩ := remove_eq_some.mp hy
  have hr := ha.ring h xs hx
  by_cases hm : e ∈ xs
  · obtain ⟨us, vs, rfl, hu, -⟩ := hr.split hm
    rw [List.erase_append_right _ hu, List.erase_cons_head]
    exact hr.remove
  · rw [List.erase_of_not_mem hm]
    rcases he with ⟨g, zs, hg, hmg⟩ | hnil
    · have hon : On a g e := (on_iff hg).mpr (List.mem_cons_of_mem _ hmg)
      have hgh : h ≠ g := by
        rintro rfl
        obtain rfl := Option.some.inj (hx.symm.trans hg)
        exact hm hmg
      exact ha.join_other (ha.prev_on hon) (ha.next_on hon) hx hgh
    · have hon : On a e e := (on_iff hnil).mpr List.mem_cons_self
      exact ha.join_other (ha.prev_on hon) (ha.next_on hon) hx hne

/-- A node that is in no list becomes a head without one. -/
theorem Family.setNil (ha : Family l a) (hn : ¬ Member a n) :
    Family ((l.setNext n n).setPrev n n) (setList n [] a) := by
  have hf : Family ((l.setNext n n).setPrev n n) (Sequences.forget n a) :=
    (ha.forget n).other (notOn_forget hn) (fun z hz => Links.next_setNext_of_ne hz) fun z hz =>
      Links.prev_setPrev_of_ne hz
  refine hf.mono_new (g := n) (notOn_forget hn) (fun h xs hx => ?_) fun h z hz => ?_
  · by_cases hh : h = n
    · subst hh
      obtain rfl : [] = xs := by simpa [setList] using hx
      exact .nil (Links.next_setNext_self ..) (Links.prev_setPrev_self ..)
    · exact hf.ring h xs (by simpa [setList, Sequences.forget, hh] using hx)
  · rcases on_setList.mp hz with ⟨rfl, hz⟩ | ⟨hne, hz⟩
    · exact .inr ⟨rfl, by simpa using hz⟩
    · exact .inl (on_forget.mpr ⟨hne, hz⟩)

/-! ### In the place of another -/

/-- The fields that change when `n` takes the place of `o`. -/
theorem Ring.replace_other (hr : Ring l h xs) (hn : n ∉ h :: xs) (hnext : l.next p ∉ h :: xs)
    (hprev : l.prev p ∉ h :: xs) :
    Ring (Rings.replace p n l) h xs := by
  refine (hr.join_other hn hnext).join_other ?_ hn
  by_cases hp : p = l.next p
  · rw [← hp, joined_join.2]
    exact hn
  · rwa [prev_join_of_ne hp]

theorem map_of_notMem (hp : p ∉ xs) : (xs.map fun z => if z = p then n else z) = xs := by
  refine (List.map_congr_left fun z hz => if_neg ?_).trans (List.map_id xs)
  rintro rfl
  exact hp hz

theorem Family.replace (ha : Family l a) (hp : On a h p) (hn : ∀ h, ¬ On a h n) :
    Family (Rings.replace p n l) (Sequences.replace p n a) := by
  have hother : ∀ g xs, a g = some xs → g ≠ h → Ring (Rings.replace p n l) g xs := fun g xs hx hg =>
    (ha.ring g xs hx).replace_other (fun hm => hn g ((on_iff hx).mpr hm)) (ha.notMem (ha.next_on hp) hx hg)
      (ha.notMem (ha.prev_on hp) hx hg)
  unfold Sequences.replace
  cases hpx : a p with
  | some xs =>
    -- the head of a ring
    obtain rfl : h = p := ha.apart h p p hp ((on_iff hpx).mpr List.mem_cons_self)
    have hring : Ring (Rings.replace h n l) n xs := (ha.ring h xs hpx).replace fun hm => hn h ((on_iff hpx).mpr hm)
    have hkept : ∀ g z, On (setList n xs (Sequences.forget h a)) g z →
        (g = n ∧ (z = n ∨ On a h z)) ∨ (g ≠ n ∧ g ≠ h ∧ On a g z) := by
      intro g z hz
      rcases on_setList.mp hz with ⟨rfl, hz⟩ | ⟨hne, hz⟩
      · refine .inl ⟨rfl, (List.mem_cons.mp hz).imp_right fun hz => ?_⟩
        exact (on_iff hpx).mpr (List.mem_cons_of_mem _ hz)
      · exact .inr ⟨hne, on_forget.mp hz⟩
    refine ⟨fun g ys hy => ?_, fun g k z hg hk => ?_⟩
    · by_cases hgn : g = n
      · subst hgn
        obtain rfl : xs = ys := by simpa [setList] using hy
        exact hring
      · obtain ⟨hgh, hy⟩ := forget_eq_some.mp (by simpa [setList, hgn] using hy)
        exact hother g ys hy hgh
    · rcases hkept g z hg with ⟨rfl, hzg⟩ | ⟨hgn, hgh, hzg⟩ <;> rcases hkept k z hk with ⟨rfl, hzk⟩ | ⟨hkn, hkh, hzk⟩
      · rfl
      · rcases hzg with rfl | hzg
        · exact absurd hzk (hn k)
        · exact absurd (ha.apart k h z hzk hzg) hkh
      · rcases hzk with rfl | hzk
        · exact absurd hzg (hn g)
        · exact absurd (ha.apart g h z hzg hzk) hgh
      · exact ha.apart g k z hzg hzk
  | none =>
    refine ha.place hn hp (fun g xs hm => ?_) hother fun xs hx => ?_
    · exact map_of_notMem fun h => hm (List.mem_cons_of_mem _ h)
    · have hr := ha.ring h xs hx
      have hm : p ∈ xs := by
        rcases List.mem_cons.mp ((on_iff hx).mp hp) with rfl | hm
        · rw [hpx] at hx
          cases hx
        · exact hm
      obtain ⟨us, vs, rfl, hu, hv⟩ := hr.split hm
      rw [List.map_append, List.map_cons, if_pos rfl, map_of_notMem hu, map_of_notMem hv]
      constructor
      · have hnew : n ∉ p :: (vs ++ h :: us) := by
          intro hm'
          refine hn h ((on_iff hx).mpr ?_)
          simp only [List.mem_cons, List.mem_append] at hm' ⊢
          tauto
        exact (hr.rotate.replace hnew).rotate
      · intro z hz
        simp only [List.mem_append, List.mem_cons] at hz ⊢
        tauto

omit [DecidableEq α] in
theorem Family.ne_of_on (hp : On a h p) (hn : ∀ h, ¬ On a h n) : n ≠ p := by
  rintro rfl
  exact hn h hp

/-- The node that was replaced is in no list. -/
theorem Family.notMember_replace (ha : Family l a) (hp : On a h p) (hn : ∀ h, ¬ On a h n) :
    ¬ Member (Sequences.replace p n a) p := by
  rintro ⟨k, ys, hk, hm⟩
  unfold Sequences.replace at hk
  cases hpx : a p with
  | some xs =>
    rw [hpx] at hk
    refine ha.head_notMember hpx ?_
    rcases setList_eq_some.mp hk with ⟨-, rfl⟩ | ⟨-, hk⟩
    · exact ⟨p, ys, hpx, hm⟩
    · exact ⟨k, ys, (forget_eq_some.mp hk).2, hm⟩
  | none =>
    rw [hpx] at hk
    obtain ⟨xs, -, rfl⟩ := Option.map_eq_some_iff.mp hk
    obtain ⟨z, -, hz⟩ := List.mem_map.mp hm
    by_cases hzp : z = p
    · rw [if_pos hzp] at hz
      exact Family.ne_of_on hp hn hz
    · rw [if_neg hzp] at hz
      exact hzp hz

/-! ### Whole lists -/

/-- The list of `g` is added to the one of `h`, in front or at the end. -/
theorem Family.join_lists {zs : List α} (ha : Family l a) (hg : a g = some ys) (hh : a h = some xs)
    (hz : ∀ z, z ∈ zs ↔ z ∈ ys ∨ z ∈ xs) (hr : Ring l' h zs)
    (hother : ∀ k us, a k = some us → k ≠ g → k ≠ h → Ring l' k us) :
      Family l' (setList h zs (Sequences.forget g a)) := by
  have hfrom : ∀ k z, On (setList h zs (Sequences.forget g a)) k z →
      (k = h ∧ (On a g z ∨ On a h z)) ∨ (k ≠ h ∧ k ≠ g ∧ On a k z) := by
    intro k z hk
    rcases on_setList.mp hk with ⟨rfl, hm⟩ | ⟨hne, hk⟩
    · refine .inl ⟨rfl, ?_⟩
      rw [on_iff hg, on_iff hh]
      simp only [List.mem_cons, hz] at hm ⊢
      tauto
    · exact .inr ⟨hne, on_forget.mp hk⟩
  refine ⟨fun k us hk => ?_, fun k j z hk hj => ?_⟩
  · rcases setList_eq_some.mp hk with ⟨rfl, rfl⟩ | ⟨hne, hk⟩
    · exact hr
    · obtain ⟨hkg, hk⟩ := forget_eq_some.mp hk
      exact hother k us hk hkg hne
  · rcases hfrom k z hk with ⟨rfl, hzk⟩ | ⟨hkh, hkg, hzk⟩ <;> rcases hfrom j z hj with ⟨rfl, hzj⟩ | ⟨hjh, hjg, hzj⟩
    · rfl
    · exact hzk.elim (fun h => absurd (ha.apart j g z hzj h) hjg) fun h => absurd (ha.apart j _ z hzj h) hjh
    · exact hzj.elim (fun h => absurd (ha.apart k g z hzk h) hkg) fun h => absurd (ha.apart k _ z hzk h) hkh
    · exact ha.apart k j z hzk hzj

theorem Family.splice_other (ha : Family l a) (hp : On a h p) (hq : On a h q) (hg : a g = some ys) {k : α}
    (hk : a k = some us) (hkg : k ≠ g) (hkh : k ≠ h) : Ring (Rings.splice g p q l) k us := by
  have hgg : On a g g := (on_iff hg).mpr List.mem_cons_self
  exact ((ha.ring k us hk).join_other (ha.notMem hp hk hkh) (ha.notMem (ha.next_on hgg) hk hkg)).join_other
    (ha.notMem (ha.prev_on hgg) hk hkg) (ha.notMem hq hk hkh)

/-- Only the list of one head changes. -/
theorem mapLists_eq_setList {f : α → List α → List α} (hh : a h = some xs)
    (hsame : ∀ k us, k ≠ h → a k = some us → f k us = us) : mapLists f a = setList h (f h xs) a := by
  funext k
  by_cases hk : k = h
  · subst hk
    simp [mapLists, setList, hh]
  · cases hu : a k with
    | none => simp [mapLists, setList, hk, hu]
    | some us => simp [mapLists, setList, hk, hu, hsame k us hk hu]

/-- The nodes behind `g` come into the list of `h`. -/
theorem Family.splice {f : α → List α → List α} (ha : Family l a) (hg : a g = some ys) (hgh : g ≠ h) (hp : On a h p)
    (hq : On a h q) (hsame : ∀ k us, h ≠ k → a k = some us → f k us = us)
    (hring : ∀ xs, a h = some xs → (∀ z ∈ g :: ys, z ∉ h :: xs) →
      Ring (Rings.splice g p q l) h (f h xs) ∧ ∀ z, z ∈ f h xs ↔ z ∈ ys ∨ z ∈ xs) :
    Family (Rings.splice g p q l) (mapLists f (Sequences.forget g a)) := by
  obtain ⟨xs, hx, -⟩ := id hp
  obtain ⟨hr, hz⟩ := hring xs hx fun z hz => ha.notMem ((on_iff hg).mpr hz) hx (Ne.symm hgh)
  rw [mapLists_eq_setList (forget_eq_some.mpr ⟨Ne.symm hgh, hx⟩) fun k us hk hu =>
    hsame k us (Ne.symm hk) (forget_eq_some.mp hu).2]
  exact ha.join_lists hg hx hz hr fun k us hk hkg hkh => ha.splice_other hp hq hg hk hkg hkh

theorem Family.splice_after (ha : Family l a) (hg : a g = some ys) (hp : On a h p) (hgh : g ≠ h) (hne : ys ≠ []) :
    Family (Rings.splice g p (l.next p) l) (spliceAfter ys p (Sequences.forget g a)) := by
  have hf : ∀ z, z ≠ p → (if z = p then z :: ys else [z]) = [z] := fun z hz => if_neg hz
  refine ha.splice hg hgh hp (ha.next_on hp) (fun k us hk hu => ?_) fun xs hx hd => ?_
  · have hnot := ha.notMem hp hu (Ne.symm hk)
    rw [List.mem_cons, not_or] at hnot
    rw [if_neg (Ne.symm hnot.1), flatMap_of_notMem hf hnot.2]
  · have hr := ha.ring h xs hx
    rcases List.mem_cons.mp ((on_iff hx).mp hp) with rfl | hm
    · rw [if_pos rfl]
      exact ⟨hr.splice (ha.ring g ys hg) hne hd, fun z => List.mem_append⟩
    · have hh : h ≠ p := by
        rintro rfl
        exact hr.head_notMem hm
      obtain ⟨us, vs, rfl, hu, hv⟩ := hr.split hm
      rw [if_neg hh, flatMap_split hf hu hv, if_pos rfl, List.append_assoc, List.cons_append]
      refine ⟨hr.splice_after (ha.ring g ys hg) hne hd, fun z => ?_⟩
      simp only [List.mem_append, List.mem_cons]
      tauto

theorem Family.splice_before (ha : Family l a) (hg : a g = some ys) (hp : On a h p) (hgh : g ≠ h) (hne : ys ≠ []) :
    Family (Rings.splice g (l.prev p) p l) (spliceBefore ys p (Sequences.forget g a)) := by
  have hf : ∀ z, z ≠ p → (if z = p then ys ++ [z] else [z]) = [z] := fun z hz => if_neg hz
  refine ha.splice hg hgh (ha.prev_on hp) hp (fun k us hk hu => ?_) fun xs hx hd => ?_
  · have hnot := ha.notMem hp hu (Ne.symm hk)
    rw [List.mem_cons, not_or] at hnot
    rw [if_neg (Ne.symm hnot.1), flatMap_of_notMem hf hnot.2]
  · have hr := ha.ring h xs hx
    rcases List.mem_cons.mp ((on_iff hx).mp hp) with rfl | hm
    · rw [if_pos rfl]
      exact ⟨hr.splice_last (ha.ring g ys hg) hne hd, fun z => List.mem_append.trans or_comm⟩
    · have hh : h ≠ p := by
        rintro rfl
        exact hr.head_notMem hm
      obtain ⟨us, vs, rfl, hu, hv⟩ := hr.split hm
      have hs := hr.splice_before (ha.ring g ys hg) hne hd
      rw [if_neg hh, flatMap_split hf hu hv, if_pos rfl]
      refine ⟨by simpa using hs, fun z => ?_⟩
      simp only [List.mem_append, List.mem_cons, List.not_mem_nil, or_false]
      tauto

omit [DecidableEq α] in
/-- What a splice puts into a list was in one before. -/
theorem mem_of_mem_flatMap {f : α → List α} (hf : ∀ y, ∀ w ∈ f y, w ∈ ys ∨ w = y) (hz : z ∈ xs.flatMap f) :
    z ∈ ys ∨ z ∈ xs := by
  obtain ⟨y, hy, hz⟩ := List.mem_flatMap.mp hz
  refine (hf y z hz).imp_right ?_
  rintro rfl
  exact hy

theorem member_of_spliceAfter (hg : a g = some ys) (hz : Member (spliceAfter ys p (Sequences.forget g a)) z) :
    Member a z := by
  obtain ⟨k, zs, hk, hm⟩ := hz
  obtain ⟨xs, hx, rfl⟩ := Option.map_eq_some_iff.mp hk
  have hor : z ∈ ys ∨ z ∈ xs := by
    by_cases hkp : k = p
    · exact List.mem_append.mp (by simpa only [if_pos hkp] using hm)
    · refine mem_of_mem_flatMap (fun y w hw => ?_) (by simpa only [if_neg hkp] using hm)
      split at hw
      · exact (List.mem_cons.mp hw).symm
      · exact .inr (List.mem_singleton.mp hw)
  exact hor.elim (fun hm => ⟨g, ys, hg, hm⟩) fun hm => ⟨k, xs, (forget_eq_some.mp hx).2, hm⟩

theorem member_of_spliceBefore (hg : a g = some ys) (hz : Member (spliceBefore ys p (Sequences.forget g a)) z) :
    Member a z := by
  obtain ⟨k, zs, hk, hm⟩ := hz
  obtain ⟨xs, hx, rfl⟩ := Option.map_eq_some_iff.mp hk
  have hor : z ∈ ys ∨ z ∈ xs := by
    by_cases hkp : k = p
    · exact (List.mem_append.mp (by simpa only [if_pos hkp] using hm)).symm
    · refine mem_of_mem_flatMap (fun y w hw => ?_) (by simpa only [if_neg hkp] using hm)
      split at hw
      · exact (List.mem_append.mp hw).imp_right List.mem_singleton.mp
      · exact .inr (List.mem_singleton.mp hw)
  exact hor.elim (fun hm => ⟨g, ys, hg, hm⟩) fun hm => ⟨k, xs, (forget_eq_some.mp hx).2, hm⟩

/-- `g` gets the nodes up to `e` from the list of `h`. -/
theorem Family.cut (ha : Family l a) (hh : a h = some (us ++ e :: vs)) (hg : ¬ Member a g) (hgh : g ≠ h) :
    Family (Rings.cutFront g h e l) (setList g (us ++ [e]) (setList h vs a)) := by
  have hf := ha.forget g
  have hn := notOn_forget hg
  have hh' : Sequences.forget g a h = some (us ++ e :: vs) := forget_eq_some.mpr ⟨Ne.symm hgh, hh⟩
  have hfresh : g ∉ h :: (us ++ e :: vs) := fun hm => hn h ((on_iff hh').mpr hm)
  obtain ⟨hcut, hrest⟩ := (ha.ring h _ hh).cut hfresh
  have hon : On (Sequences.forget g a) h h := (on_iff hh').mpr List.mem_cons_self
  have hone : On (Sequences.forget g a) h e := (on_iff hh').mpr (by simp)
  have hnd := (hf.ring h _ hh').nodup
  have hfrom : ∀ k z, On (setList g (us ++ [e]) (setList h vs a)) k z →
      (k = g ∧ (z = g ∨ z ∈ us ++ [e])) ∨ (k ≠ g ∧ k = h ∧ z ∈ h :: vs) ∨ (k ≠ g ∧ k ≠ h ∧ On a k z) := by
    intro k z hk
    rcases on_setList.mp hk with ⟨rfl, hm⟩ | ⟨hkg, hk⟩
    · exact .inl ⟨rfl, List.mem_cons.mp hm⟩
    · rcases on_setList.mp hk with ⟨rfl, hm⟩ | ⟨hkh, hk⟩
      · exact .inr (.inl ⟨hkg, rfl, hm⟩)
      · exact .inr (.inr ⟨hkg, hkh, hk⟩)
  have htaken : ∀ z ∈ us ++ [e], On a h z ∧ z ∉ h :: vs := by
    intro z hz
    have hdis : (us ++ [e]).Disjoint (h :: vs) := by
      refine List.disjoint_of_nodup_append ((List.Perm.nodup_iff ?_).mp hnd)
      rw [show us ++ e :: vs = (us ++ [e]) ++ vs by simp]
      exact List.perm_middle.symm
    refine ⟨(on_iff hh).mpr ?_, fun hm => hdis hz hm⟩
    simp only [List.mem_cons, List.mem_append, List.not_mem_nil, or_false] at hz ⊢
    tauto
  have hrest' : ∀ z ∈ h :: vs, On a h z := by
    intro z hz
    refine (on_iff hh).mpr ?_
    simp only [List.mem_cons, List.mem_append] at hz ⊢
    tauto
  have hgnot : ∀ k, k ≠ g → ¬ On a k g := fun k hk hon => hn k (on_forget.mpr ⟨hk, hon⟩)
  refine ⟨fun k zs hk => ?_, fun k j z hk hj => ?_⟩
  · rcases setList_eq_some.mp hk with ⟨rfl, rfl⟩ | ⟨hkg, hk⟩
    · exact hcut
    · rcases setList_eq_some.mp hk with ⟨rfl, rfl⟩ | ⟨hkh, hk⟩
      · exact hrest
      · have hk' : Sequences.forget g a k = some zs := forget_eq_some.mpr ⟨hkg, hk⟩
        have hgk : g ∉ k :: zs := fun hm => hn k ((on_iff hk').mpr hm)
        exact (((hf.ring k zs hk').join_other hgk (hf.notMem (hf.next_on hon) hk' hkh)).join_other
          (hf.notMem hone hk' hkh) hgk).join_other (hf.notMem hon hk' hkh) (hf.notMem (hf.next_on hone) hk' hkh)
  · rcases hfrom k z hk with ⟨rfl, hzk⟩ | ⟨hkg, rfl, hzk⟩ | ⟨hkg, hkh, hzk⟩ <;>
      rcases hfrom j z hj with ⟨rfl, hzj⟩ | ⟨hjg, rfl, hzj⟩ | ⟨hjg, hjh, hzj⟩
    · rfl
    · rcases hzk with rfl | hzk
      · exact absurd (hrest' _ hzj) (hgnot _ hjg)
      · exact absurd hzj (htaken z hzk).2
    · rcases hzk with rfl | hzk
      · exact absurd hzj (hgnot j hjg)
      · exact absurd (ha.apart j h z hzj (htaken z hzk).1) hjh
    · rcases hzj with rfl | hzj
      · exact absurd (hrest' _ hzk) (hgnot _ hkg)
      · exact absurd hzk (htaken z hzj).2
    · rfl
    · exact absurd (ha.apart j _ z hzj (hrest' z hzk)) hjh
    · rcases hzj with rfl | hzj
      · exact absurd hzk (hgnot k hkg)
      · exact absurd (ha.apart k h z hzk (htaken z hzj).1) hkh
    · exact absurd (ha.apart k _ z hzk (hrest' z hzj)) hkh
    · exact ha.apart k j z hzk hzj

end

end PikoRT.Lib.Rings

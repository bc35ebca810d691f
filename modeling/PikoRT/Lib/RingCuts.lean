import PikoRT.Lib.Rings

/-! # Cutting and joining rings

Nodes that are each joined to the next one are a segment, and a ring is a segment that comes back
to its head. What is done to whole rings is a few calls of `join`: a call matters only to a segment
that `p` does not end, or that `q` does not begin. -/
namespace PikoRT.Lib.Rings

section

variable {α : Type*} {l : Links α} {g h n p q : α} {xs ys zs us vs : List α}

def Segment (l : Links α) (zs : List α) : Prop := zs.IsChain (Joined l)

theorem segment_append : Segment l (xs ++ ys) ↔
    Segment l xs ∧ Segment l ys ∧ ∀ x ∈ xs.getLast?, ∀ y ∈ ys.head?, Joined l x y :=
  List.isChain_append

theorem path_iff_segment : Path l p xs q ↔ Segment l (p :: xs ++ [q]) := by
  induction xs generalizing p with
  | nil => exact (List.isChain_pair ..).symm
  | cons x xs ih => exact (and_congr_right fun _ => ih).trans List.isChain_cons_cons.symm

theorem ring_iff_segment : Ring l h xs ↔ Segment l (h :: xs ++ [h]) ∧ (h :: xs).Nodup :=
  ⟨fun hr => ⟨path_iff_segment.mp hr.path, hr.nodup⟩, fun hs => ⟨path_iff_segment.mpr hs.1, hs.2⟩⟩

/-- The nodes of a ring without its head. -/
theorem Ring.inner (hr : Ring l h xs) : Segment l xs :=
  (segment_append.mp ((@segment_append _ _ [h] _).mp (ring_iff_segment.mp hr).1).2.1).1

/-- The nodes behind the head, up to it. -/
theorem Ring.outer (hr : Ring l h xs) : Segment l (xs ++ [h]) :=
  ((@segment_append _ _ [h] _).mp (ring_iff_segment.mp hr).1).2.1

theorem Ring.next_eq (hr : Ring l h xs) (hne : xs ≠ []) : l.next h = xs.head hne := by
  rw [hr.next_head, List.head_append_of_ne_nil]

theorem Ring.prev_eq (hr : Ring l h xs) (hne : xs ≠ []) : l.prev h = xs.getLast hne := by
  rw [← List.head_reverse (by simpa using hne)]
  exact hr.flip.next_eq (by simpa using hne)

theorem Ring.next_mem_of_ne_nil (hr : Ring l h xs) (hne : xs ≠ []) : l.next h ∈ xs :=
  hr.next_eq hne ▸ List.head_mem hne

theorem notMem_tail_of_nodup (hnd : zs.Nodup) (hq : ∀ z ∈ zs.head?, z = q) : q ∉ zs.tail := by
  cases zs with
  | nil => exact List.not_mem_nil
  | cons z zs => exact hq z rfl ▸ (List.nodup_cons.mp hnd).1

theorem notMem_dropLast_of_nodup (hnd : zs.Nodup) (hp : ∀ z ∈ zs.getLast?, z = p) : p ∉ zs.dropLast := by
  intro hm
  refine notMem_tail_of_nodup (List.nodup_reverse.mpr hnd) (q := p) ?_ ?_
  · rwa [List.head?_reverse]
  · rwa [List.tail_reverse, List.mem_reverse]

end

section

variable {α : Type*} [DecidableEq α] {l : Links α} {a b g h n p q : α} {xs ys zs us vs : List α}

theorem joined_join : Joined (join p q l) p q := by
  unfold join
  exact ⟨Links.next_setNext_self .., by rw [Links.prev_setNext, Links.prev_setPrev_self]⟩

theorem Joined.kept (hj : Joined l a b) (hp : a ≠ p) (hq : b ≠ q) : Joined (join p q l) a b :=
  ⟨(next_join_of_ne hp).trans hj.1, (prev_join_of_ne hq).trans hj.2⟩

theorem Segment.kept (hs : Segment l zs) (hp : p ∉ zs.dropLast) (hq : q ∉ zs.tail) : Segment (join p q l) zs := by
  induction zs with
  | nil => exact List.isChain_nil
  | cons a zs ih =>
    cases zs with
    | nil => exact List.isChain_singleton a
    | cons b zs =>
      obtain ⟨hab, hs⟩ := List.isChain_cons_cons.mp hs
      rw [List.dropLast_cons_cons, List.mem_cons, not_or] at hp
      rw [List.tail_cons, List.mem_cons, not_or] at hq
      exact List.isChain_cons_cons.mpr ⟨hab.kept (Ne.symm hp.1) (Ne.symm hq.1), ih hs hp.2 hq.2⟩

/-- A segment without the two nodes. -/
theorem Segment.kept_other (hs : Segment l zs) (hp : p ∉ zs) (hq : q ∉ zs) : Segment (join p q l) zs :=
  hs.kept (fun hm => hp ((List.dropLast_sublist zs).subset hm)) fun hm => hq ((List.tail_sublist zs).subset hm)

/-- The last node of a segment is joined to a node outside. -/
theorem Segment.kept_last (hs : Segment l zs) (hnd : zs.Nodup) (hp : ∀ z ∈ zs.getLast?, z = p) (hq : q ∉ zs) :
    Segment (join p q l) zs :=
  hs.kept (notMem_dropLast_of_nodup hnd hp) fun hm => hq ((List.tail_sublist zs).subset hm)

/-- A node outside is joined to the first node of a segment. -/
theorem Segment.kept_first (hs : Segment l zs) (hnd : zs.Nodup) (hp : p ∉ zs) (hq : ∀ z ∈ zs.head?, z = q) :
    Segment (join p q l) zs :=
  hs.kept (fun hm => hp ((List.dropLast_sublist zs).subset hm)) (notMem_tail_of_nodup hnd hq)

/-! ## Whole rings -/

omit [DecidableEq α] in
theorem ring_of_inner (hs : Segment l xs) (hne : xs ≠ []) (hfirst : Joined l h (xs.head hne))
    (hlast : Joined l (xs.getLast hne) h) (hnd : (h :: xs).Nodup) : Ring l h xs := by
  refine ring_iff_segment.mpr ⟨segment_append.mpr ⟨?_, List.isChain_singleton h, ?_⟩, hnd⟩
  · refine (@segment_append _ _ [h] _).mpr ⟨List.isChain_singleton h, hs, fun x hx y hy => ?_⟩
    obtain rfl : h = x := Option.some.inj hx
    rw [List.head?_eq_some_head hne] at hy
    obtain rfl := Option.some.inj hy
    exact hfirst
  · intro x hx y hy
    obtain rfl : h = y := Option.some.inj hy
    rw [List.getLast?_cons, List.getLast?_eq_some_getLast hne] at hx
    obtain rfl := Option.some.inj hx
    exact hlast

/-- The store of the fields of a node that takes the place of `o`, whose `prev` is read after the first stores. -/
def replace (o n : α) (l : Links α) : Links α :=
  let l := join n (l.next o) l
  join (l.prev o) n l

/-- A node takes the place of the head; when there is nothing else, the head is overwritten. -/
theorem Ring.replace (hr : Ring l h xs) (hn : n ∉ h :: xs) : Ring (Rings.replace h n l) n xs := by
  obtain ⟨hnh, hnx⟩ := not_or.mp (fun hm => hn (List.mem_cons.mpr hm))
  by_cases hne : xs = []
  · subst hne
    have hnext : l.next h = h := hr.path.1
    have hprev : (join n h l).prev h = n := joined_join.2
    simp only [Rings.replace, hnext, hprev]
    exact .nil joined_join.1 joined_join.2
  · obtain ⟨hhx, hnd⟩ := List.nodup_cons.mp hr.nodup
    have hfirst : xs.head hne ≠ h := fun he => hhx (he ▸ List.head_mem hne)
    have hprev : (join n (xs.head hne) l).prev h = xs.getLast hne :=
      (prev_join_of_ne (Ne.symm hfirst)).trans (hr.prev_eq hne)
    simp only [Rings.replace, hr.next_eq hne, hprev]
    have hinner : Segment (join n (xs.head hne) l) xs :=
      hr.inner.kept_first hnd hnx fun z hz => Option.some.inj (hz.symm.trans (List.head?_eq_some_head hne))
    refine ring_of_inner (hinner.kept_last hnd (fun z hz => ?_) hnx) hne ?_ joined_join
      (List.nodup_cons.mpr ⟨hnx, hnd⟩)
    · exact Option.some.inj (hz.symm.trans (List.getLast?_eq_some_getLast hne))
    · exact joined_join.kept (fun he => hnx (he ▸ List.getLast_mem hne)) fun he => hnx (he ▸ List.head_mem hne)

/-- The nodes behind the head `g` come between `p` and `q`. -/
def splice (g p q : α) (l : Links α) : Links α := join (l.prev g) q (join p (l.next g) l)

omit [DecidableEq α] in
theorem Ring.next_head? (hr : Ring l h xs) : (xs ++ [h]).head? = some (l.next h) := by
  rw [hr.next_head]
  exact List.head?_eq_some_head _

omit [DecidableEq α] in
theorem Ring.nodup_outer (hr : Ring l h xs) : (xs ++ [h]).Nodup :=
  (List.perm_append_singleton h xs).nodup_iff.mpr hr.nodup

/-- The nodes behind `g` come to the front of the ring of `h`. -/
theorem Ring.splice (hr : Ring l h xs) (hg : Ring l g ys) (hne : ys ≠ []) (hd : ∀ z ∈ g :: ys, z ∉ h :: xs) :
    Ring (Rings.splice g h (l.next h) l) h (ys ++ xs) := by
  obtain ⟨hgy, hndy⟩ := List.nodup_cons.mp hg.nodup
  have hdy : ∀ z ∈ ys, z ∉ xs ++ [h] := fun z hz hm =>
    hd z (List.mem_cons_of_mem _ hz) ((List.perm_append_singleton h xs).mem_iff.mp hm)
  have hhy : h ∉ ys := fun hm => hdy h hm (List.mem_append_right _ List.mem_cons_self)
  have hhead : ∀ z ∈ ys.head?, z = ys.head hne :=
    fun z hz => Option.some.inj (hz.symm.trans (List.head?_eq_some_head hne))
  have hlast : ∀ z ∈ ys.getLast?, z = ys.getLast hne := fun z hz =>
    Option.some.inj (hz.symm.trans (List.getLast?_eq_some_getLast hne))
  have hnext : ∀ z ∈ (xs ++ [h]).head?, z = l.next h := fun z hz => Option.some.inj (hz.symm.trans hr.next_head?)
  have hnextmem : l.next h ∈ xs ++ [h] := List.mem_of_mem_head? hr.next_head?
  have hfirst : ys.head hne ∉ xs ++ [h] := hdy _ (List.head_mem hne)
  have hend : ys.getLast hne ∉ xs ++ [h] := hdy _ (List.getLast_mem hne)
  have hoff : l.next h ∉ ys := fun hm => hdy _ hm hnextmem
  unfold Rings.splice
  rw [hg.next_eq hne, hg.prev_eq hne]
  -- the two segments that come behind the head
  have hfront : Segment (join (ys.getLast hne) (l.next h) (join h (ys.head hne) l)) ys :=
    (hg.inner.kept_first hndy hhy hhead).kept_last hndy hlast hoff
  have hback : Segment (join (ys.getLast hne) (l.next h) (join h (ys.head hne) l)) (xs ++ [h]) :=
    (hr.outer.kept_last hr.nodup_outer (fun z hz => by simpa using hz.symm) hfirst).kept_first hr.nodup_outer hend
      hnext
  refine ring_iff_segment.mpr ⟨?_, ?_⟩
  · rw [List.cons_append, List.append_assoc]
    refine (@segment_append _ _ [h] _).mpr ⟨List.isChain_singleton h, segment_append.mpr ⟨hfront, hback, ?_⟩, ?_⟩
    · intro x hx y hy
      obtain rfl := hlast x hx
      obtain rfl := hnext y hy
      exact joined_join
    · intro x hx y hy
      obtain rfl : h = x := Option.some.inj hx
      change y ∈ (ys ++ (xs ++ [h])).head? at hy
      rw [List.head?_append_of_ne_nil _ hne] at hy
      obtain rfl := hhead y hy
      refine joined_join.kept (fun he => hhy (he ▸ List.getLast_mem hne)) fun he => hoff (he ▸ List.head_mem hne)
  · refine List.nodup_cons.mpr ⟨fun hm => ?_, List.nodup_append.mpr ⟨hndy, (List.nodup_cons.mp hr.nodup).2, ?_⟩⟩
    · exact (List.mem_append.mp hm).elim hhy hr.head_notMem
    · rintro a ha b hb rfl
      exact hdy a ha (List.mem_append_left _ hb)

/-- The nodes behind `g` come to the end of the ring of `h`. -/
theorem Ring.splice_last (hr : Ring l h xs) (hg : Ring l g ys) (hne : ys ≠ []) (hd : ∀ z ∈ g :: ys, z ∉ h :: xs) :
    Ring (Rings.splice g (l.prev h) h l) h (xs ++ ys) := by
  rcases List.eq_nil_or_concat xs with rfl | ⟨us, p, rfl⟩
  · obtain ⟨hnext, hprev⟩ := hr.path
    have hs := hr.splice hg hne hd
    rw [hnext, List.append_nil] at hs
    rwa [hprev]
  · -- the ring begins at its last node
    rw [List.concat_eq_append] at hr hd ⊢
    have hprev : l.prev h = p := by
      rw [hr.prev_eq (by simp)]
      exact List.getLast_append_singleton us
    have hrot : Ring l p (h :: us) := hr.rotate
    have hs := hrot.splice hg hne fun z hz hm => hd z hz (by
      simp only [List.mem_cons, List.mem_append] at hm ⊢
      tauto)
    rw [show l.next p = h from hrot.path.1.1] at hs
    rw [hprev, List.append_assoc]
    exact hs.rotate

/-- The nodes behind `g` come behind a node of the ring of `h`. -/
theorem Ring.splice_after (hr : Ring l h (us ++ p :: vs)) (hg : Ring l g ys) (hne : ys ≠ [])
    (hd : ∀ z ∈ g :: ys, z ∉ h :: (us ++ p :: vs)) :
    Ring (Rings.splice g p (l.next p) l) h (us ++ p :: (ys ++ vs)) := by
  have hs := hr.rotate.splice hg hne fun z hz hm => hd z hz (by
    simp only [List.mem_cons, List.mem_append] at hm ⊢
    tauto)
  rw [← List.append_assoc] at hs
  exact hs.rotate

/-- The nodes behind `g` come in front of a node of the ring of `h`. -/
theorem Ring.splice_before (hr : Ring l h (us ++ p :: vs)) (hg : Ring l g ys) (hne : ys ≠ [])
    (hd : ∀ z ∈ g :: ys, z ∉ h :: (us ++ p :: vs)) :
    Ring (Rings.splice g (l.prev p) p l) h (us ++ ys ++ p :: vs) := by
  have hs := hr.rotate.splice_last hg hne fun z hz hm => hd z hz (by
    simp only [List.mem_cons, List.mem_append] at hm ⊢
    tauto)
  rw [List.append_assoc, List.cons_append] at hs
  exact hs.rotate

/-- `g` gets the nodes behind the head `h` up to `e`. -/
def cutFront (g h e : α) (l : Links α) : Links α := join h (l.next e) (join e g (join g (l.next h) l))

/-- What is taken off, and what is left. -/
theorem Ring.cut {e : α} (hr : Ring l h (us ++ e :: vs)) (hg : g ∉ h :: (us ++ e :: vs)) :
    Ring (Rings.cutFront g h e l) g (us ++ [e]) ∧ Ring (Rings.cutFront g h e l) h vs := by
  have hrot : Ring l e (vs ++ h :: us) := hr.rotate
  have hperm : (h :: (us ++ e :: vs)).Perm ((us ++ [e]) ++ (vs ++ [h])) := by
    rw [show (us ++ [e]) ++ (vs ++ [h]) = (us ++ e :: vs) ++ [h] by simp]
    exact (List.perm_append_singleton h _).symm
  have hnd := hperm.nodup_iff.mp hr.nodup
  obtain ⟨hndu, hndv, hdis⟩ := List.nodup_append.mp hnd
  have hg' : g ∉ (us ++ [e]) ++ (vs ++ [h]) := fun hm => hg (hperm.mem_iff.mpr hm)
  obtain ⟨hgu, hgv⟩ := not_or.mp (fun hm => hg' (List.mem_append.mpr hm))
  have hne : us ++ [e] ≠ [] := by simp
  have hsplit : us ++ e :: vs = (us ++ [e]) ++ vs := by simp
  have hfirst : l.next h = (us ++ [e]).head hne := by
    rw [hr.next_eq (by simp)]
    simp only [hsplit]
    exact List.head_append_of_ne_nil hne
  have hmem : (us ++ [e]).head hne ∈ us ++ [e] := List.head_mem hne
  have hemem : e ∈ us ++ [e] := List.mem_append_right _ List.mem_cons_self
  have hhead : ∀ z ∈ (us ++ [e]).head?, z = (us ++ [e]).head hne := fun z hz =>
    Option.some.inj (hz.symm.trans (List.head?_eq_some_head hne))
  have hlast : ∀ z ∈ (us ++ [e]).getLast?, z = e := fun z hz => by simpa using hz.symm
  -- the node behind `e`
  have hnew : ∀ z ∈ (vs ++ [h]).head?, z = l.next e := by
    intro z hz
    have hhead? := hrot.next_head?
    rw [show vs ++ h :: us ++ [e] = (vs ++ [h]) ++
      (us ++ [e]) by simp, List.head?_append_of_ne_nil _ (by simp)] at hhead?
    exact Option.some.inj (hz.symm.trans hhead?)
  have hnewmem : l.next e ∈ vs ++ [h] := by
    obtain ⟨z, hz⟩ := Option.isSome_iff_exists.mp (by simp : (vs ++ [h]).head?.isSome)
    exact hnew z hz ▸ List.mem_of_mem_head? hz
  have hseg := (ring_iff_segment.mp hr).1
  rw [hsplit, List.cons_append, List.append_assoc] at hseg
  obtain ⟨hu, hv, -⟩ := segment_append.mp ((@segment_append _ _ [h] _).mp hseg).2.1
  unfold Rings.cutFront
  rw [hfirst]
  constructor
  · refine ring_of_inner ?_ hne ?_ ?_ (List.nodup_cons.mpr ⟨hgu, hndu⟩)
    · refine ((hu.kept_first hndu hgu hhead).kept_last hndu hlast hgu).kept_other (fun hm => ?_) fun hm => ?_
      · exact hdis h hm h (List.mem_append_right _ List.mem_cons_self) rfl
      · exact hdis _ hm _ hnewmem rfl
    · refine (joined_join.kept ?_ ?_).kept ?_ ?_
      · rintro rfl; exact hgu hemem
      · intro he; exact hgu (he ▸ hmem)
      · rintro rfl; exact hgv (List.mem_append_right _ List.mem_cons_self)
      · intro he; exact hdis _ hmem _ hnewmem he
    · rw [List.getLast_append_singleton]
      refine joined_join.kept ?_ ?_
      · rintro rfl; exact hdis e hemem e (List.mem_append_right _ List.mem_cons_self) rfl
      · intro he; exact hgv (he ▸ hnewmem)
  · have hvs : Segment (join e g (join g ((us ++ [e]).head hne) l)) (vs ++ [h]) := by
      refine (hv.kept_other hgv fun hm => ?_).kept_other (fun hm => ?_) hgv
      · exact hdis _ hmem _ hm rfl
      · exact hdis e hemem e hm rfl
    have hdrop : h ∉ (vs ++ [h]).dropLast := notMem_dropLast_of_nodup hndv fun z hz => by simpa using hz.symm
    refine ring_iff_segment.mpr ⟨(@segment_append _ _ [h] _).mpr ⟨List.isChain_singleton h, ?_, ?_⟩, ?_⟩
    · exact hvs.kept hdrop (notMem_tail_of_nodup hndv hnew)
    · intro x hx y hy
      obtain rfl : h = x := Option.some.inj hx
      obtain rfl := hnew y hy
      exact joined_join
    · exact (List.perm_append_singleton h vs).nodup_iff.mp hndv

end

end PikoRT.Lib.Rings

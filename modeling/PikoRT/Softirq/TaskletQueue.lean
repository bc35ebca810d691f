import PikoRT.Kernel.ListFamily
import PikoRT.Softirq.Tasklet

/-! # The queues of the tasklets

A tasklet that is pending is scheduled again by the next `tasklet_schedule` as if it
were not: `list_add_tail` links its node a second time. The tick interrupt does so with
its tasklet whenever `softirqd` has not run since the last tick. A call that comes
while `tasklet_action` is between the accesses of `bitmap_queue_del` can be lost, too,
where it meets the node or the bit that is being written.

In the runs without such calls the invariant says, access by access, what the memory
holds, and outside `bitmap_queue_del` the queues hold the pending tasklets, each once,
and the bits say which queues are not empty. -/
namespace PikoRT.Softirq.TaskletQueue
open PikoRT.Lib.Rings PikoRT.Lib.Run PikoRT.Kernel.Bitops PikoRT.Kernel.LinuxList
open PikoRT.Kernel.ListFamily PikoRT.Softirq.Tasklet

abbrev Queues := Fin 32 → List TaskletAddr

/-! ## The memory -/

/-- Every head has its ring, and no tasklet is in two. -/
abbrev Rings (l : Memory (Fin 32) TaskletAddr) (q : Queues) : Prop := Lists Set.univ l q

section

variable {l l' : Memory (Fin 32) TaskletAddr} {q : Queues} {p r : Fin 32} {t : TaskletAddr}
  {rest : List TaskletAddr}

theorem next_of_first (h : Rings l q) (hq : q p = t :: rest) :
    l.prev (.item t) = .head p ∧ l.next (.item t) = first p rest := by
  have hpath := (h.ring p trivial).path
  rw [hq] at hpath
  refine ⟨hpath.1.2, ?_⟩
  rw [hpath.2.next_eq]
  cases rest <;> rfl

theorem mem_update_append {u : TaskletAddr} :
    u ∈ Function.update q r (q r ++ [t]) p ↔ u ∈ q p ∨ (u = t ∧ p = r) := by
  by_cases hp : p = r
  · subst hp
    simp
  · simp [hp]

/-- `__list_del` of the first node of a queue. -/
theorem rings_remove (h : Rings l q) (hq : q p = t :: rest) :
    Rings ((l.setPrev (first p rest) (.head p)).setNext (.head p) (first p rest)) (Function.update q p rest) := by
  obtain ⟨hprev, hnext⟩ := next_of_first h hq
  have hmem : t ∈ q p := by
    rw [hq]
    exact List.mem_cons_self
  have hjoin := h.join hmem
  rw [hprev, hnext, hq, List.erase_cons_head] at hjoin
  exact hjoin

/-- An append and the store to another node's `prev` do not meet. -/
theorem listAddTail_setPrev {n h a b : Node (Fin 32) TaskletAddr} (ha : a ≠ h) (hn : a ≠ n) :
    listAddTail n h (l.setPrev a b) = (listAddTail n h l).setPrev a b := by
  have hread : (l.setPrev a b).prev h = l.prev h := Links.prev_setPrev_of_ne (Ne.symm ha)
  unfold listAddTail
  rw [hread]
  refine Links.ext rfl ?_
  simp only [listAddBetween, Links.setNext, Links.setPrev]
  rw [Function.update_comm ha, Function.update_comm hn]

end

/-! ## The invariant -/

/-- The memory while `list_del` has made one of its two stores. -/
def midway : Phase → Memory (Fin 32) TaskletAddr → Memory (Fin 32) TaskletAddr
  | .storeNext _ _ prev next, l => l.setPrev next prev
  | _, l => l

/-- The queue that a tasklet has been taken from, until its bit has been seen to. -/
def removedFrom : Phase → Option (Fin 32)
  | .poisonNext p _ => some p
  | .poisonPrev p _ => some p
  | .isEmpty p _ => some p
  | .loadMap p _ => some p
  | .storeMap p _ _ => some p
  | _ => none

/-- What `list_del` has read. -/
def Reads (q : Queues) (p : Fin 32) (t : TaskletAddr) (prev next : Node (Fin 32) TaskletAddr) : Prop :=
  prev = .head p ∧ ∃ rest, q p = t :: rest ∧ next = first p rest

/-- What `tasklet_action` knows where it is. -/
def Knows (s : State) (q : Queues) : Phase → Prop
  | .find => ∃ p, q p ≠ []
  | .entry p => q p ≠ []
  | .del p t => ∃ rest, q p = t :: rest
  | .storePrev p t prev next => Reads q p t prev next
  | .storeNext p t prev next => Reads q p t prev next
  | .poisonNext _ t => s.pending t = false
  | .poisonPrev _ t => s.pending t = false
  | .loadMap p _ => q p = []
  | .storeMap p _ word => q p = [] ∧ word = s.map
  | _ => True

structure Inv (s : State) (q : Queues) : Prop where
  rings : ∃ l, Rings l q ∧ s.links = midway s.phase l
  mem_iff : ∀ p t, t ∈ q p ↔ s.pending t = true ∧ (s.info t).prio.toNat = p
  made : ∀ t, s.pending t = true → s.allocated t = true
  marks : ∀ p : Fin 32, s.map.getLsbD p = true ↔ q p ≠ [] ∨ removedFrom s.phase = some p
  knows : Knows s q s.phase

/-- The queues are well formed and hold the pending tasklets, and the bits say which
queues are not empty. -/
def WellQueued (s : State) : Prop :=
  ∃ q : Queues, (∀ p, Ring s.links (.head p) (nodes (q p))) ∧
    (∀ p : Fin 32, s.map.getLsbD p = true ↔ q p ≠ []) ∧
    ∀ p t, t ∈ q p ↔ s.pending t = true ∧ (s.info t).prio.toNat = p

/-- `tasklet_action` is not in the middle of `bitmap_queue_del`. -/
def Quiet : Phase → Prop
  | .storeNext .. => False
  | ph => removedFrom ph = none

section

variable {s s' : State} {q : Queues} {t : TaskletAddr}

theorem Inv.wellQueued (h : Inv s q) (hq : Quiet s.phase) : WellQueued s := by
  obtain ⟨l, hl, hlinks⟩ := h.rings
  have hquiet : midway s.phase l = l ∧ removedFrom s.phase = none := by
    cases hph : s.phase with
    | storeNext p u prev next =>
      rw [hph] at hq
      exact hq.elim
    | _ =>
      rw [hph] at hq
      exact ⟨rfl, hq⟩
  rw [hquiet.1] at hlinks
  refine ⟨q, fun p => hlinks ▸ hl.ring p trivial, fun p => ?_, h.mem_iff⟩
  rw [h.marks, hquiet.2]
  simp

theorem Inv.notMem (h : Inv s q) (ht : s.pending t = false) (p : Fin 32) : t ∉ q p := by
  intro hm
  rw [((h.mem_iff p t).mp hm).1] at ht
  cases ht

/-! ## Scheduling -/

/-- The call does not meet what `tasklet_action` is at: the tasklet is not pending; while
the last tasklet of a queue is being unlinked nothing is appended to that queue; the
tasklet that is being unlinked is not scheduled; no bit is set that the store of the
word would take back. -/
def Undisturbed (s : State) (t : TaskletAddr) : Prop :=
  s.pending t = false ∧
    match s.phase with
    | .storePrev p _ _ next => (s.info t).prio.toNat = p → next ≠ .head p
    | .storeNext p _ _ next => (s.info t).prio.toNat = p → next ≠ .head p
    | .poisonNext _ u => t ≠ u
    | .poisonPrev _ u => t ≠ u
    | .loadMap p _ => (s.info t).prio.toNat ≠ p
    | .storeMap p _ word => (s.info t).prio.toNat ≠ p ∧ word.getLsbD (s.info t).prio.toNat = true
    | _ => True

theorem first_append (p : Fin 32) {xs : List TaskletAddr} (hx : first p xs ≠ .head p) :
    first p (xs ++ [t]) = first p xs := by
  cases xs with
  | nil => exact absurd rfl hx
  | cons x xs => rfl

theorem Reads.append {p r : Fin 32} {u : TaskletAddr} {prev next : Node (Fin 32) TaskletAddr}
    (h : Reads q p u prev next) (hr : r = p → next ≠ .head p) :
    Reads (Function.update q r (q r ++ [t])) p u prev next := by
  obtain ⟨hprev, rest, hq, hnext⟩ := h
  by_cases hrp : r = p
  · subst hrp
    refine ⟨hprev, rest ++ [t], ?_, ?_⟩
    · rw [Function.update_self, hq, List.cons_append]
    · rw [first_append r (hnext ▸ hr rfl)]
      exact hnext
  · exact ⟨hprev, rest, by rw [Function.update_of_ne (Ne.symm hrp)]; exact hq, hnext⟩

theorem setBit_of_getLsbD {w : Word} {r : Fin 32} (h : w.getLsbD r = true) : setBit r w = w := by
  refine BitVec.eq_of_getLsbD_eq fun i hi => ?_
  rw [getLsbD_setBit w r.isLt hi]
  by_cases hir : i = r
  · rw [hir, h]
    simp
  · simp [hir]

theorem append_ne_nil {p r : Fin 32} (h : q p ≠ []) : Function.update q r (q r ++ [t]) p ≠ [] := by
  by_cases hp : p = r
  · subst hp
    simp
  · rwa [Function.update_of_ne hp]

/-- Only the phase between the two stores of `list_del` reads another memory. -/
theorem Inv.listAddTail_midway {r : Fin 32} {l : Memory (Fin 32) TaskletAddr} (h : Inv s q)
    (hr : (s.info t).prio.toNat = r) (hu : Undisturbed s t) :
    listAddTail (.item t) (.head r) (midway s.phase l) = midway s.phase (listAddTail (.item t) (.head r) l) := by
  obtain ⟨hnew, hphase⟩ := hu
  have hknow := h.knows
  cases hph : s.phase with
  | storeNext p u prev next =>
    rw [hph] at hphase hknow
    obtain ⟨-, rest, hq, hnext⟩ := hknow
    refine listAddTail_setPrev ?_ ?_
    · intro he
      cases rest with
      | nil =>
        rw [hnext] at he
        exact hphase (hr.trans (congrArg _ (Node.head.inj he).symm)) hnext
      | cons x rest =>
        rw [hnext] at he
        cases he
    · intro he
      cases rest with
      | nil =>
        rw [hnext] at he
        cases he
      | cons x rest =>
        rw [hnext] at he
        refine h.notMem hnew p ?_
        rw [hq, ← Node.item.inj he]
        simp
  | _ => rfl

theorem Inv.knows_enqueue {r : Fin 32} (h : Inv s q) (hr : (s.info t).prio.toNat = r) (hu : Undisturbed s t) :
    Knows (bitmapEnqueue t r s) (Function.update q r (q r ++ [t])) s.phase := by
  obtain ⟨-, hphase⟩ := hu
  have hknow := h.knows
  cases hph : s.phase with
  | find =>
    rw [hph] at hknow
    obtain ⟨p, hp⟩ := hknow
    exact ⟨p, append_ne_nil hp⟩
  | entry p =>
    rw [hph] at hknow
    exact append_ne_nil hknow
  | del p u =>
    rw [hph] at hknow
    obtain ⟨rest, hq⟩ := hknow
    by_cases hp : p = r
    · subst hp
      exact ⟨rest ++ [t], by rw [Function.update_self, hq, List.cons_append]⟩
    · exact ⟨rest, by rw [Function.update_of_ne hp]; exact hq⟩
  | storePrev p u prev next =>
    rw [hph] at hknow hphase
    exact Reads.append hknow fun hp => hphase (hr.trans (congrArg _ hp))
  | storeNext p u prev next =>
    rw [hph] at hknow hphase
    exact Reads.append hknow fun hp => hphase (hr.trans (congrArg _ hp))
  | poisonNext p u =>
    rw [hph] at hknow hphase
    exact (Function.update_of_ne (Ne.symm hphase) _ _).trans hknow
  | poisonPrev p u =>
    rw [hph] at hknow hphase
    exact (Function.update_of_ne (Ne.symm hphase) _ _).trans hknow
  | loadMap p u =>
    rw [hph] at hknow hphase
    have hp : p ≠ r := fun he => hphase (hr.trans (congrArg _ he.symm))
    exact (Function.update_of_ne hp _ _).trans hknow
  | storeMap p u word =>
    rw [hph] at hknow hphase
    have hp : p ≠ r := fun he => hphase.1 (hr.trans (congrArg _ he.symm))
    refine ⟨(Function.update_of_ne hp _ _).trans hknow.1, ?_⟩
    show word = setBit r s.map
    rw [hr, hknow.2] at hphase
    rw [setBit_of_getLsbD hphase.2]
    exact hknow.2
  | _ => trivial

theorem Inv.enqueue {r : Fin 32} (h : Inv s q) (hr : (s.info t).prio.toNat = r) (ha : s.allocated t = true)
    (hu : Undisturbed s t) : Inv (bitmapEnqueue t r s) (Function.update q r (q r ++ [t])) := by
  obtain ⟨l, hl, hlinks⟩ := h.rings
  refine ⟨⟨_, hl.addTail trivial (h.notMem hu.1), ?_⟩, fun p u => ?_, fun u hup => ?_, fun p => ?_,
    h.knows_enqueue hr hu⟩
  · show listAddTail (.item t) (.head r) s.links = _
    rw [hlinks]
    exact h.listAddTail_midway hr hu
  · show _ ↔ Function.update s.pending t true u = true ∧ (s.info u).prio.toNat = p
    rw [mem_update_append, h.mem_iff]
    by_cases hut : u = t
    · subst hut
      rw [Function.update_self, hu.1, hr]
      simp [Fin.ext_iff, eq_comm]
    · simp [hut]
  · by_cases hut : u = t
    · rw [hut]
      exact ha
    · have hold : Function.update s.pending t true u = true := hup
      rw [Function.update_of_ne hut] at hold
      exact h.made u hold
  · show (setBit r s.map).getLsbD p = true ↔ _ ∨ removedFrom s.phase = some p
    rw [getLsbD_setBit _ r.isLt p.isLt]
    by_cases hp : p = r
    · subst hp
      simp
    · have hne : (p : ℕ) ≠ r := fun he => hp (Fin.ext he)
      simp only [hne, decide_false, Bool.false_or, h.marks p, Function.update_of_ne hp]

theorem Inv.init {prio : Word} {func : Option Word} (h : Inv s q) (ht : s.allocated t = false) :
    Inv (taskletInit t prio func s) q := by
  have hnew : s.pending t = false := by
    by_contra hp
    rw [h.made t (by simpa using hp)] at ht
    cases ht
  have hnot := h.notMem hnew
  obtain ⟨l, hl, hlinks⟩ := h.rings
  refine ⟨⟨initListHead (.item t) l, ?_, ?_⟩, fun p u => ?_, fun u hu => ?_, h.marks, ?_⟩
  · refine hl.other (fun p _ => item_notMem (hnot p)) (fun z hz => ?_) fun z hz => ?_
    · exact Function.update_of_ne hz _ _
    · exact Function.update_of_ne hz _ _
  · show initListHead (.item t) s.links = midway s.phase _
    rw [hlinks]
    have hknow := h.knows
    cases hph : s.phase with
    | storeNext p u prev next =>
      rw [hph] at hknow
      obtain ⟨-, rest, hq, hnext⟩ := hknow
      have hne : next ≠ .item t := by
        rw [hnext]
        cases rest with
        | nil => exact fun he => (nomatch he)
        | cons x rest =>
          intro he
          refine hnot p ?_
          rw [hq, ← Node.item.inj he]
          simp
      refine Links.ext rfl ?_
      exact Function.update_comm hne _ _ _
    | _ => rfl
  · rw [h.mem_iff]
    by_cases hut : u = t
    · rw [hut]
      simp [taskletInit, hnew]
    · simp [taskletInit, hut]
  · show Function.update s.allocated t true u = true
    by_cases hut : u = t
    · rw [hut, Function.update_self]
    · rw [Function.update_of_ne hut]
      exact h.made u hu
  · show Knows (taskletInit t prio func s) q s.phase
    have hknow := h.knows
    cases hph : s.phase <;> rw [hph] at hknow <;> exact hknow

/-! ## The accesses of `tasklet_action` -/

/-- An access that writes nothing. -/
theorem Inv.advance (h : Inv s q) {ph : Phase} (hmid : ∀ l, midway ph l = midway s.phase l)
    (hrem : ∀ p : Fin 32, s.map.getLsbD p = true ↔ q p ≠ [] ∨ removedFrom ph = some p)
    (hk : Knows { s with phase := ph } q ph) : Inv { s with phase := ph } q := by
  obtain ⟨l, hl, hlinks⟩ := h.rings
  exact ⟨⟨l, hl, hlinks.trans (hmid l).symm⟩, h.mem_iff, h.made, hrem, hk⟩

theorem exists_ne_nil (h : Inv s q) (hrem : removedFrom s.phase = none) (hm : s.map ≠ 0) : ∃ p, q p ≠ [] := by
  by_contra hnone
  refine hm (BitVec.eq_of_getLsbD_eq fun i hi => ?_)
  by_contra hbit
  have hset : s.map.getLsbD i = true := by simpa using hbit
  rcases (h.marks ⟨i, hi⟩).mp hset with hq | hq
  · exact hnone ⟨_, hq⟩
  · rw [hrem] at hq
    cases hq

theorem findFirstBit_map (h : Inv s q) (hrem : removedFrom s.phase = none) (hq : ∃ p, q p ≠ []) :
    ∃ hlt : findFirstBit [s.map] 32 < 32, q ⟨_, hlt⟩ ≠ [] := by
  obtain ⟨p, hp⟩ := hq
  have hlt : findFirstBit [s.map] 32 < 32 := by
    refine findFirstBit_lt_iff.mpr ⟨p, p.isLt, ?_⟩
    rw [testBit_cons_lt _ _ p.isLt]
    exact (h.marks p).mpr (.inl hp)
  refine ⟨hlt, ?_⟩
  have hset := (findFirstBit_spec [s.map] 32).2.1 hlt
  rw [testBit_cons_lt _ _ hlt] at hset
  rcases (h.marks ⟨_, hlt⟩).mp hset with hne | hr
  · exact hne
  · rw [hrem] at hr
    cases hr

/-- The queues after the next access. -/
def afterAccess (ph : Phase) (q : Queues) : Queues :=
  match ph with
  | .storeNext p _ _ _ => Function.update q p (q p).tail
  | _ => q

/-- The second store of `list_del`: the tasklet is in no queue any more. -/
theorem Inv.storeNext {p : Fin 32} {prev next : Node (Fin 32) TaskletAddr} (h : Inv s q)
    (hph : s.phase = .storeNext p t prev next) :
    Inv { s with
      links := s.links.setNext prev next
      pending := Function.update s.pending t false
      phase := .poisonNext p t } (Function.update q p (q p).tail) := by
  obtain ⟨l, hl, hlinks⟩ := h.rings
  have hknow := h.knows
  rw [hph] at hlinks hknow
  obtain ⟨rfl, rest, hq, rfl⟩ := hknow
  have hnd : (t :: rest).Nodup := by
    have hring := (List.nodup_cons.mp (hl.ring p trivial).nodup).2
    rw [hq] at hring
    exact List.Nodup.of_map _ hring
  have hmem : t ∈ q p := hq ▸ List.mem_cons_self
  have htail : (q p).tail = rest := by rw [hq, List.tail_cons]
  rw [htail]
  refine ⟨⟨_, rings_remove hl hq, ?_⟩, fun r u => ?_, fun u hu => ?_, fun r => ?_, Function.update_self ..⟩
  · show s.links.setNext _ _ = _
    rw [hlinks]
    rfl
  · show _ ↔ Function.update s.pending t false u = true ∧ (s.info u).prio.toNat = r
    by_cases hut : u = t
    · subst hut
      rw [Function.update_self]
      refine ⟨fun hu => ?_, fun hu => (nomatch hu.1)⟩
      by_cases hr : r = p
      · subst hr
        rw [Function.update_self] at hu
        exact absurd hu (List.nodup_cons.mp hnd).1
      · rw [Function.update_of_ne hr] at hu
        exact absurd (hl.apart r p u hu hmem) hr
    · rw [Function.update_of_ne hut, ← h.mem_iff]
      by_cases hr : r = p
      · subst hr
        rw [Function.update_self, hq, List.mem_cons, or_iff_right hut]
      · rw [Function.update_of_ne hr]
  · have hold : Function.update s.pending t false u = true := hu
    by_cases hut : u = t
    · rw [hut, Function.update_self] at hold
      cases hold
    · rw [Function.update_of_ne hut] at hold
      exact h.made u hold
  · show s.map.getLsbD r = true ↔ _ ∨ some p = some r
    rw [h.marks, hph]
    by_cases hr : r = p
    · subst hr
      simp [hq]
    · have hne : p ≠ r := Ne.symm hr
      simp [removedFrom, hr, hne]

/-- The poison of a node that is in no queue. -/
theorem Inv.poison {ph : Phase} {l' : Memory (Fin 32) TaskletAddr} (h : Inv s q)
    (hmid : ∀ l, midway s.phase l = l ∧ midway ph l = l) (hrem : removedFrom ph = removedFrom s.phase)
    (ht : s.pending t = false) (hn : ∀ z, z ≠ .item t → l'.next z = s.links.next z)
    (hv : ∀ z, z ≠ .item t → l'.prev z = s.links.prev z) (hk : Knows { s with links := l', phase := ph } q ph) :
    Inv { s with links := l', phase := ph } q := by
  obtain ⟨l, hl, hlinks⟩ := h.rings
  rw [(hmid l).1] at hlinks
  rw [hlinks] at hn hv
  refine ⟨⟨l', hl.other (fun p _ => item_notMem (h.notMem ht p)) hn hv, (hmid l').2.symm⟩, h.mem_iff, h.made,
    fun p => ?_, hk⟩
  show _ ↔ _ ∨ removedFrom ph = some p
  rw [hrem]
  exact h.marks p

/-- `bitmap_clear_bit`, when the queue is empty. -/
theorem Inv.storeMap {p : Fin 32} {word : Word} (h : Inv s q) (hph : s.phase = .storeMap p t word) :
    Inv { s with map := clearBit p word, phase := .call t } q := by
  have hknow := h.knows
  have hmarks := h.marks
  obtain ⟨l, hl, hlinks⟩ := h.rings
  rw [hph] at hknow hmarks hlinks
  obtain ⟨hempty, rfl⟩ := hknow
  refine ⟨⟨l, hl, hlinks⟩, h.mem_iff, h.made, fun r => ?_, trivial⟩
  show (clearBit p s.map).getLsbD r = true ↔ _ ∨ none = some r
  rw [getLsbD_clearBit _ p.isLt r.isLt]
  by_cases hr : r = p
  · subst hr
    simp [hempty]
  · have hne : (r : ℕ) ≠ p := fun he => hr (Fin.ext he)
    have hsome : p ≠ r := Ne.symm hr
    simp only [hne, decide_false, Bool.not_false, Bool.true_and, hmarks r]
    simp [removedFrom, hsome]

theorem taskletAction_frame (hs : taskletAction s = some s') : s'.info = s.info ∧ s'.allocated = s.allocated := by
  unfold taskletAction at hs
  cases hph : s.phase with
  | test =>
    rw [hph] at hs
    obtain rfl := Option.some.inj hs
    split
    · exact ⟨rfl, rfl⟩
    · exact ⟨rfl, rfl⟩
  | find =>
    rw [hph] at hs
    obtain ⟨hlt, hs⟩ := Option.dite_none_right_eq_some.mp hs
    obtain rfl := Option.some.inj hs
    exact ⟨rfl, rfl⟩
  | entry p =>
    simp only [hph] at hs
    split at hs
    · obtain rfl := Option.some.inj hs
      exact ⟨rfl, rfl⟩
    · cases hs
  | stopped =>
    rw [hph] at hs
    cases hs
  | _ =>
    rw [hph] at hs
    obtain rfl := Option.some.inj hs
    exact ⟨rfl, rfl⟩

/-- **Step lemma** of `tasklet_action`: it finds a tasklet where it looks for one. -/
theorem taskletAction_inv (h : Inv s q) (hs : s.phase ≠ .stopped) :
    ∃ s', taskletAction s = some s' ∧ Inv s' (afterAccess s.phase q) := by
  have hknow := h.knows
  have hmarks := h.marks
  have hlists := h.rings
  unfold taskletAction
  cases hph : s.phase with
  | test =>
    dsimp only
    split
    · exact ⟨s, rfl, h⟩
    · rename_i hm
      rw [hph] at hmarks
      refine ⟨_, rfl, h.advance (fun l => by rw [hph]; rfl) hmarks ?_⟩
      exact exists_ne_nil h (by rw [hph]; rfl) hm
  | find =>
    rw [hph] at hknow hmarks
    obtain ⟨hlt, hne⟩ := findFirstBit_map h (by rw [hph]; rfl) hknow
    dsimp only
    rw [dif_pos hlt]
    exact ⟨_, rfl, h.advance (fun l => by rw [hph]; rfl) hmarks hne⟩
  | entry p =>
    rw [hph] at hknow hmarks hlists
    obtain ⟨l, hl, hlinks⟩ := hlists
    obtain ⟨t, rest, hq⟩ := List.exists_cons_of_ne_nil hknow
    have hnext : s.links.next (.head p) = .item t := by
      rw [hlinks]
      exact (hl.next_head trivial).trans (by rw [hq]; rfl)
    simp only [hnext]
    exact ⟨_, rfl, h.advance (fun l => by rw [hph]; rfl) hmarks ⟨rest, hq⟩⟩
  | del p t =>
    rw [hph] at hknow hmarks hlists
    obtain ⟨l, hl, hlinks⟩ := hlists
    obtain ⟨rest, hq⟩ := hknow
    obtain ⟨hprev, hnext⟩ := next_of_first hl hq
    have hlinks : s.links = l := hlinks
    refine ⟨_, rfl, h.advance (fun l => by rw [hph]; rfl) hmarks ?_⟩
    rw [hlinks]
    exact ⟨hprev, rest, hq, hnext⟩
  | storePrev p t prev next =>
    rw [hph] at hknow hmarks hlists
    obtain ⟨l, hl, hlinks⟩ := hlists
    exact ⟨_, rfl, ⟨l, hl, congrArg (Links.setPrev next prev) hlinks⟩, h.mem_iff, h.made, hmarks, hknow⟩
  | storeNext p t prev next =>
    exact ⟨_, rfl, h.storeNext hph⟩
  | poisonNext p t =>
    rw [hph] at hknow
    refine ⟨_, rfl, h.poison (fun l => by rw [hph]; exact ⟨rfl, rfl⟩) (by rw [hph]; rfl) hknow ?_ ?_ hknow⟩
    · exact fun z hz => Links.next_setNext_of_ne hz
    · exact fun z _ => rfl
  | poisonPrev p t =>
    rw [hph] at hknow
    refine ⟨_, rfl, h.poison (fun l => by rw [hph]; exact ⟨rfl, rfl⟩) (by rw [hph]; rfl) hknow ?_ ?_ trivial⟩
    · exact fun z _ => rfl
    · exact fun z hz => Links.prev_setPrev_of_ne hz
  | isEmpty p t =>
    rw [hph] at hmarks hlists
    obtain ⟨l, hl, hlinks⟩ := hlists
    have hlinks : s.links = l := hlinks
    have hempty : listEmpty (.head p) s.links = true ↔ q p = [] := by
      rw [hlinks, listEmpty_iff (hl.ring p trivial)]
      exact List.map_eq_nil_iff
    dsimp only
    split
    · rename_i he
      exact ⟨_, rfl, h.advance (fun l => by rw [hph]; rfl) hmarks (hempty.mp he)⟩
    · rename_i he
      refine ⟨_, rfl, h.advance (fun l => by rw [hph]; rfl) (fun r => ?_) trivial⟩
      rw [hmarks]
      by_cases hr : r = p
      · subst hr
        simp [hempty.not.mp he]
      · have hne : p ≠ r := Ne.symm hr
        simp [removedFrom, hne]
  | loadMap p t =>
    rw [hph] at hknow hmarks
    exact ⟨_, rfl, h.advance (fun l => by rw [hph]; rfl) hmarks ⟨hknow, rfl⟩⟩
  | storeMap p t word => exact ⟨_, rfl, h.storeMap hph⟩
  | call t =>
    rw [hph] at hmarks
    dsimp only
    split
    · exact ⟨_, rfl, h.advance (fun l => by rw [hph]; rfl) hmarks trivial⟩
    · exact ⟨_, rfl, h.advance (fun l => by rw [hph]; rfl) hmarks trivial⟩
  | stopped => exact absurd hph hs

/-- A queue that has been initialised stays so while the others are. -/
theorem foldl_initListHead (ps : List (Fin 32)) (l : Memory (Fin 32) TaskletAddr) (p : Fin 32)
    (h : p ∈ ps ∨ (l.next (.head p) = .head p ∧ l.prev (.head p) = .head p)) :
    (ps.foldl (fun l p => initListHead (.head p) l) l).next (.head p) = .head p ∧
      (ps.foldl (fun l p => initListHead (.head p) l) l).prev (.head p) = .head p := by
  induction ps generalizing l with
  | nil => exact h.resolve_left List.not_mem_nil
  | cons r ps ih =>
    refine ih _ ?_
    by_cases hp : p = r
    · subst hp
      exact .inr ⟨Function.update_self .., Function.update_self ..⟩
    · have hne : (Node.head p : Node (Fin 32) TaskletAddr) ≠ .head r := fun he => hp (Node.head.inj he)
      rcases h with hm | ⟨hn, hv⟩
      · exact .inl ((List.mem_cons.mp hm).resolve_left hp)
      · exact .inr ⟨(Function.update_of_ne hne _ _).trans hn, (Function.update_of_ne hne _ _).trans hv⟩

theorem inv_init (mem : Memory (Fin 32) TaskletAddr) (info : TaskletAddr → TaskletStruct) :
    Inv (init mem info) fun _ => [] := by
  refine ⟨⟨_, ⟨fun p _ => ?_, fun _ _ => rfl, fun _ _ _ hm => (nomatch hm)⟩, rfl⟩, fun p t => ?_,
    fun _ hp => (nomatch hp), fun p => ?_, trivial⟩
  · obtain ⟨hn, hv⟩ := foldl_initListHead (List.finRange 32) mem p (.inl (List.mem_finRange p))
    exact Ring.nil hn hv
  · exact ⟨fun hm => (nomatch hm), fun hp => (nomatch hp.1)⟩
  · simp [init, removedFrom]

end

def memory : Memory (Fin 32) TaskletAddr := ⟨fun _ => .poison1, fun _ => .poison2⟩

end PikoRT.Softirq.TaskletQueue

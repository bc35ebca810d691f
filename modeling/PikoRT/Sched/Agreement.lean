import PikoRT.Sched.RunQueue

/-! # Bits and queues along a run

A thread is queued under the priority it has then, and the bit that its removal
clears is the one of the priority it has later; `sched_dequeue` moreover looks
at the array that the label names. A call keeps bits and queues in agreement
exactly when the removal in it, if it empties a queue, finds the bit of that
queue (`step_agree_iff`). `LinkedBits` has it for the runs of the code on the
nodes. -/
namespace PikoRT.Sched.Agreement
open PikoRT.Kernel.Bitmap PikoRT.Lib.PrioQueue PikoRT.Lib.Run
open PikoRT.Sched.Model PikoRT.Sched.RunQueue

/-- The representation invariant, and what it is for. -/
def InOrder (s : State) : Prop :=
  Agree s ∧ findNextThread s.threadIdle s.active ≠ none ∧ findNextThread s.threadIdle s.expire ≠ none

theorem inOrder_iff {s : State} : InOrder s ↔ Agree s :=
  ⟨fun h => h.1, fun h => ⟨h, findNextThread_ne_none h.1 _, findNextThread_ne_none h.2 _⟩⟩

/-! ## The condition -/

/-- The thread that an election takes, when it is alone in its queue, still has
the priority of that queue. -/
def TakesOwnBit (s : State) : Prop :=
  ∀ x, First (nowActive s) x → ∀ p, (nowActive s).queue p = [x] → (s.info x).tiPriority = p

/-- A thread that a dequeue unlinks, when it is alone in its queue, has the
priority of that queue and the label of the array. -/
def DropsOwnBit (x : Thread) (s : State) : Prop :=
  x ≠ s.current →
    ((s.info x).tiState = s.stateMap.actived →
      (∀ p, s.active.queue p = [x] → (s.info x).tiPriority = p) ∧ ∀ p, s.expire.queue p ≠ [x]) ∧
    ((s.info x).tiState ≠ s.stateMap.actived → (s.info x).tiState = s.stateMap.expired →
      (∀ p, s.active.queue p ≠ [x]) ∧ ∀ p, s.expire.queue p = [x] → (s.info x).tiPriority = p)

def OwnBit (s : State) : Op → Prop
  | .enqueue _ => True
  | .dequeue x => DropsOwnBit x s
  | .elect _ => TakesOwnBit s
  | .yield => TakesOwnBit (schedEnqueue s.current s)
  | .setPriority _ _ => True

/-! ## One step -/

section

variable {s t : State}

theorem schedDequeue_agree_iff {x : Thread} (h : Agree s) :
    Agree (schedDequeue x s).2 ↔ DropsOwnBit x s := by
  unfold DropsOwnBit
  rcases schedDequeue_cases x s with hd | ⟨hc, ha, hd⟩ | ⟨hc, ha, he, hd⟩
  · -- nothing was done: the thread runs, or its label is not a ready one
    rw [hd]
    refine ⟨fun _ hc => ?_, fun _ => h⟩
    have hdo : (schedDequeue x s).1 = -1 := by rw [hd]
    unfold schedDequeue schedBitmapDequeue threadDequeueActive threadDequeueExpire at hdo
    rw [if_neg hc] at hdo
    refine ⟨fun ha => ?_, fun hna he => ?_⟩
    · rw [if_pos ha] at hdo; cases hdo
    · rw [if_neg hna, if_pos he, if_neg hc] at hdo; cases hdo
  · rw [hd]
    show Consistent (bitmapQueueDel x _ s.active) ∧ Consistent (unlink x s.expire) ↔ _
    rw [consistent_bitmapQueueDel_iff h.1, consistent_unlink_iff h.2]
    refine ⟨fun hq _ => ⟨fun _ => ⟨fun p hp => (hq.1 p hp).symm, hq.2⟩, fun hna => absurd ha hna⟩,
      fun hq => ?_⟩
    obtain ⟨hown, hexp⟩ := (hq hc).1 ha
    exact ⟨fun p hp => (hown p hp).symm, hexp⟩
  · rw [hd]
    show Consistent (unlink x s.active) ∧ Consistent (bitmapQueueDel x _ s.expire) ↔ _
    rw [consistent_bitmapQueueDel_iff h.2, consistent_unlink_iff h.1]
    refine ⟨fun hq _ => ⟨fun hact => absurd hact ha,
      fun _ _ => ⟨hq.1, fun p hp => (hq.2 p hp).symm⟩⟩, fun hq => ?_⟩
    obtain ⟨hact, hown⟩ := (hq hc).2 ha he
    exact ⟨hact, fun p hp => (hown p hp).symm⟩

/-- The array that `expire` has become only ever gains a thread. -/
theorem elected_consistent_expire {flags : SchedOpt} {x : Thread} {s' : State}
    (he : Elected flags s x s' t) (h : Linked s) (ha : Agree s) : Consistent t.expire := by
  have ha' := he.chosen.agree ha
  rw [he.expire h]
  split
  · exact ha'.2.enqueue _ _
  · exact ha'.2

theorem takesOwnBit_iff {x : Thread} {s' : State} (hc : Chosen s x s') :
    TakesOwnBit s ↔ ∀ p, s'.active.queue p = [x] → (s.info x).tiPriority = p := by
  unfold TakesOwnBit First
  rw [← hc.queues.1]
  constructor
  · intro hall p hp
    rcases hc.first with ⟨hnil, -⟩ | hf
    · rw [queue_of_members_nil (List.append_eq_nil_iff.mp hnil).1] at hp; cases hp
    · exact hall x hf p hp
  · intro hall y hy p hp
    rcases hc.first with ⟨hnil, -⟩ | hf
    · rw [queue_of_members_nil (List.append_eq_nil_iff.mp hnil).1] at hp; cases hp
    · have hy' : First s'.active y := hy
      obtain rfl := hy'.unique hf
      exact hall p hp

theorem elected_agree_iff {flags : SchedOpt} {x : Thread} {s' : State}
    (he : Elected flags s x s' t) (h : Linked s) (ha : Agree s) : Agree t ↔ TakesOwnBit s := by
  have ha' := he.chosen.agree ha
  have hlone : ∀ p, s'.active.queue p = [x] → x ≠ s'.threadIdle := by
    rintro p hp rfl
    exact (he.chosen.linked h).idleActive (mem_members.mpr ⟨p, by rw [hp]; simp⟩)
  have hact : Agree t ↔ Consistent (takeNext x s').active := by
    unfold Agree
    rw [he.active]
    exact ⟨fun hb => hb.1, fun hb => ⟨hb, elected_consistent_expire he h ha⟩⟩
  rw [hact, takesOwnBit_iff he.chosen, active_takeNext]
  by_cases hx : x = s'.threadIdle
  · rw [if_pos hx]
    exact ⟨fun _ p hp => absurd hx (hlone p hp), fun _ => ha'.1⟩
  · rw [if_neg hx, consistent_bitmapQueueDel_iff ha'.1, he.chosen.frame.1]
    exact ⟨fun hq p hp => (hq p hp).symm, fun hq p hp => (hq p hp).symm⟩

theorem schedElect_agree_iff {flags : SchedOpt} (h : Linked s) (ha : Agree s)
    (ht : schedElect flags s = some t) : Agree t ↔ TakesOwnBit s := by
  obtain ⟨x, s', u, he, rfl⟩ := schedElect_elected h ht
  rw [← elected_agree_iff he h ha]
  unfold relabel
  split <;> rfl

/-- **Step lemma.** A call leaves bits and queues in agreement exactly when the
removal in it, if there is one, finds its own bit. -/
theorem step_agree_iff {a : Op} (h : Linked s) (ha : Agree s) (ht : step s a = some t) :
    Agree t ↔ OwnBit s a := by
  cases a with
  | enqueue x =>
    simp only [step, Option.ite_none_left_eq_some] at ht
    obtain ⟨-, ht⟩ := ht
    cases ht
    exact ⟨fun _ => trivial, fun _ => ha.schedEnqueue x⟩
  | dequeue x =>
    simp only [step, Option.ite_none_left_eq_some] at ht
    obtain ⟨-, ht⟩ := ht
    cases ht
    exact schedDequeue_agree_iff ha
  | elect flags =>
    simp only [step, Option.ite_none_left_eq_some] at ht
    exact schedElect_agree_iff h ha ht.2
  | yield =>
    simp only [step, Option.ite_none_left_eq_some, not_or] at ht
    obtain ⟨⟨hx, hi⟩, ht⟩ := ht
    exact schedElect_agree_iff (h.schedEnqueue hx hi) (ha.schedEnqueue _) ht
  | setPriority x p =>
    cases ht
    exact ⟨fun _ => trivial, fun _ => ha⟩

end

end PikoRT.Sched.Agreement

import PikoRT.Kernel.ListFamily
import PikoRT.Lib.Run
import PikoRT.Time.Timer

/-! # The list of the running timers

`systick_timers` links the armed timers, each of them once, as long as no armed timer
is armed again: `sys_timer_settime` unlinks an armed timer only to disarm it, and
`list_add` of a node that is in the list leaves it in a circle of its own. A delay of zero in
`sys_msleep`, and a timer that `sys_timer_create` frees before it has set `disarmed`,
make `list_del` follow the pointers of a node that was never linked.

In the runs without these, the bottom half visits every linked timer once, although
it unlinks the timer it visits and may link it again at the front. -/
namespace PikoRT.Time.TimerList
open PikoRT.Lib.Rings PikoRT.Lib.Run PikoRT.Kernel.Bitops PikoRT.Kernel.LinuxList
open PikoRT.Sched.Model (Thread)
open PikoRT.Kernel.ListFamily PikoRT.Time.Timer

def Armed (s : Timers) (t : TimerAddr) : Prop := s.allocated t = true ∧ (s.info t).disarmed = false

instance (s : Timers) (t : TimerAddr) : Decidable (Armed s t) := inferInstanceAs (Decidable (_ ∧ _))

/-- The timer of a call of `sys_msleep`. -/
def Sleeper (s : Timers) (t : TimerAddr) : Prop := (s.info t).callback = some .msleepCallback

/-- The list is well formed and links the armed timers. -/
structure Listed (s : Timers) (xs : List TimerAddr) : Prop where
  ring : Ring s.links systickTimers (nodes xs)
  mem_iff : ∀ t, t ∈ xs ↔ Armed s t

/-- The routes of an armed timer: it ends when it expires, becomes an interval timer,
or is one. -/
inductive Routed (i : TimerInfo) : Prop where
  | once (ht : i.type = .oneshot)
      (hc : i.callback = some .msleepCallback ∨ i.callback = some .timerCallback)
  | link (ht : i.type = .oneshot) (hc : i.callback = some .timerCallbackAndLink)
      (hv : i.value.itInterval ≠ .zero)
  | every (ht : i.type = .interval) (hc : i.callback = some .timerCallback)
      (hv : i.value.itInterval ≠ .zero)

structure Inv (s : Timers) (xs : List TimerAddr) : Prop extends Listed s xs where
  routed : ∀ t ∈ xs, Routed (s.info t)
  created : ∀ t ∈ s.timerHead, s.allocated t = true
  asleep : ∀ t ∈ s.sleeping, s.allocated t = true ∧ t ∉ s.timerHead
  nodup : s.sleeping.Nodup

/-- At most the timer `t` and the list have changed. -/
structure SameElse (t : TimerAddr) (s s' : Timers) : Prop where
  info : ∀ u, u ≠ t → s'.info u = s.info u
  allocated : ∀ u, u ≠ t → s'.allocated u = s.allocated u
  timerHead : s'.timerHead = s.timerHead
  sleeping : s'.sleeping = s.sleeping

section

variable {s s' : Timers} {t u : TimerAddr} {xs ys us vs : List TimerAddr}

/-! ## One timer changes -/

theorem nodup_of_ring {l : Memory Unit TimerAddr} (hr : Ring l systickTimers (nodes xs)) : xs.Nodup :=
  List.Nodup.of_map _ (List.nodup_cons.mp hr.nodup).2

theorem ring_link {l : Memory Unit TimerAddr} (hr : Ring l systickTimers (nodes xs)) (ht : t ∉ xs) :
    Ring (listAdd (.item t) systickTimers l) systickTimers (nodes (t :: xs)) :=
  ring_listAdd hr (item_notMem ht)

theorem ring_unlink {l : Memory Unit TimerAddr} (hr : Ring l systickTimers (nodes xs)) (ht : t ∈ xs) :
    Ring (listDel (.item t) l) systickTimers (nodes (xs.erase t)) := by
  rw [nodes_erase]
  exact ring_listDel hr (mem_nodes.mpr ht)

/-- **Frame rule.** What holds of the other timers stays, and of the timer that
changed it must be shown again. -/
theorem Inv.change (h : Inv s xs) (hf : SameElse t s s') (hr : Ring s'.links systickTimers (nodes ys))
    (hm : ∀ u, u ≠ t → (u ∈ ys ↔ u ∈ xs)) (ht : t ∈ ys ↔ Armed s' t)
    (hroute : t ∈ ys → Routed (s'.info t))
    (hk : t ∈ s.timerHead ∨ t ∈ s.sleeping → s'.allocated t = true) : Inv s' ys := by
  have halloc : ∀ u, u ∈ s.timerHead ∨ u ∈ s.sleeping → s'.allocated u = true := by
    intro u hu
    by_cases hut : u = t
    · subst hut
      exact hk hu
    · rw [hf.allocated u hut]
      rcases hu with hu | hu
      · exact h.created u hu
      · exact (h.asleep u hu).1
  refine ⟨⟨hr, fun u => ?_⟩, fun u hu => ?_, fun u hu => ?_, fun u hu => ?_, ?_⟩
  · by_cases hut : u = t
    · rw [hut]
      exact ht
    · rw [hm u hut, h.mem_iff]
      unfold Armed
      rw [hf.allocated u hut, hf.info u hut]
  · by_cases hut : u = t
    · rw [hut] at hu ⊢
      exact hroute hu
    · rw [hf.info u hut]
      exact h.routed u ((hm u hut).mp hu)
  · exact halloc u (.inl (hf.timerHead ▸ hu))
  · rw [hf.sleeping] at hu
    rw [hf.timerHead]
    exact ⟨halloc u (.inr hu), (h.asleep u hu).2⟩
  · rw [hf.sleeping]
    exact h.nodup

/-- The timer is linked. -/
theorem Inv.link (h : Inv s xs) (hf : SameElse t s s') (ht : t ∉ xs)
    (hl : s'.links = listAdd (.item t) systickTimers s.links) (ha : Armed s' t)
    (hroute : Routed (s'.info t)) : Inv s' (t :: xs) := by
  refine h.change hf (hl ▸ ring_link h.ring ht) (fun u hut => ?_) ?_ (fun _ => hroute) fun _ => ha.1
  · exact List.mem_cons.trans (or_iff_right hut)
  · exact ⟨fun _ => ha, fun _ => List.mem_cons_self⟩

/-- The timer is unlinked. -/
theorem Inv.unlink (h : Inv s xs) (hf : SameElse t s s') (ht : t ∈ xs)
    (hl : s'.links = listDel (.item t) s.links) (ha : ¬ Armed s' t)
    (hk : t ∈ s.timerHead ∨ t ∈ s.sleeping → s'.allocated t = true) : Inv s' (xs.erase t) := by
  have hnd : t ∉ xs.erase t := (nodup_of_ring h.ring).not_mem_erase
  refine h.change hf (hl ▸ ring_unlink h.ring ht) (fun u hut => ?_) ?_ (fun hm => absurd hm hnd) hk
  · exact List.mem_erase_of_ne hut
  · exact ⟨fun hm => absurd hm hnd, fun hm => absurd hm ha⟩

/-- A timer that is not linked, and does not become armed. -/
theorem Inv.rest (h : Inv s xs) (hf : SameElse t s s') (ht : t ∉ xs)
    (hr : Ring s'.links systickTimers (nodes xs)) (ha : ¬ Armed s' t)
    (hk : t ∈ s.timerHead ∨ t ∈ s.sleeping → s'.allocated t = true) : Inv s' xs :=
  h.change hf hr (fun _ _ => Iff.rfl) ⟨fun hm => absurd hm ht, fun hm => absurd hm ha⟩
    (fun hm => absurd hm ht) hk

theorem Inv.allocated (h : Inv s xs) (ht : t ∈ xs) : s.allocated t = true := ((h.mem_iff t).mp ht).1

/-! ## The bottom half -/

/-- What the body of the loop does to a timer that has expired. -/
structure Expires (t : TimerAddr) (s s' : Timers) : Prop where
  frame : SameElse t s s'
  clock : s'.clocktimeInMsec = s.clocktimeInMsec
  allocated : s'.allocated t = s.allocated t
  owner : (s'.info t).owner = (s.info t).owner
  fired : ∃ f : Fire, f.timer = t ∧ s'.fired = s.fired ++ [f] ∧ f.owner = (s.info t).owner ∧
    (f.sigev = none ↔ Sleeper s t)
  sleeper : Sleeper s' t → Sleeper s t ∧ (s'.info t).disarmed = true
  ends : s'.links = listDel (.item t) s.links ∧ (s'.info t).disarmed = true ∨
    s'.links = listAdd (.item t) systickTimers (listDel (.item t) s.links) ∧
      (s'.info t).disarmed = (s.info t).disarmed ∧ Routed (s'.info t)

theorem sameElse_of_eq (i : TimerInfo) (hi : s'.info = Function.update s.info t i)
    (ha : s'.allocated = s.allocated) (hh : s'.timerHead = s.timerHead) (hs : s'.sleeping = s.sleeping) :
    SameElse t s s' :=
  ⟨fun u hu => by rw [hi, Function.update_of_ne hu], fun u _ => by rw [ha], hh, hs⟩

theorem expire_once (he : expired s t = true) (ht : (s.info t).type = .oneshot)
    (hc : (s.info t).callback = some .msleepCallback ∨ (s.info t).callback = some .timerCallback) :
    Expires t s (expire t s) := by
  have hcall : expire t s = timerExpireCallback t (s.setLinks (listDel (.item t) s.links)) := by
    unfold expire
    rw [if_pos he]
    simp [ht]
  rw [hcall]
  unfold timerExpireCallback
  rcases hc with hc | hc
  · rw [Timers.setLinks_info, hc]
    refine ⟨sameElse_of_eq _ rfl rfl rfl rfl, rfl, rfl, ?_, ⟨_, rfl, rfl, rfl, ?_⟩, fun _ => ⟨hc, ?_⟩,
      .inl ⟨rfl, ?_⟩⟩ <;> simp [msleepCallback, fire, Sleeper, hc]
  · rw [Timers.setLinks_info, hc]
    have hend : timerCallback t (s.setLinks (listDel (.item t) s.links)) =
        fire t (some (s.info t).sigev) ((s.setLinks (listDel (.item t) s.links)).setInfo t
          { s.info t with disarmed := true }) := by
      unfold timerCallback
      simp [ht]
    show Expires t s (timerCallback t _)
    rw [hend]
    refine ⟨sameElse_of_eq _ rfl rfl rfl rfl, rfl, rfl, ?_, ⟨_, rfl, rfl, ?_, ?_⟩, fun hc' => ?_,
      .inl ⟨rfl, ?_⟩⟩
    · simp [fire]
    · simp
    · simp [Sleeper, hc]
    · simp [Sleeper, fire, hc] at hc'
    · simp [fire]

theorem expire_link (he : expired s t = true) (ht : (s.info t).type = .oneshot)
    (hc : (s.info t).callback = some .timerCallbackAndLink) (hv : (s.info t).value.itInterval ≠ .zero) :
    Expires t s (expire t s) := by
  have hcall : expire t s = timerCallbackAndLink t (s.setLinks (listDel (.item t) s.links)) := by
    unfold expire
    rw [if_pos he]
    simp [ht, timerExpireCallback, hc]
  rw [hcall]
  unfold timerCallbackAndLink
  simp only [Timers.setLinks_info, Timers.setInfo_info, Function.update_self]
  rw [systickTimerSet_of_ne t hv]
  refine ⟨sameElse_of_eq _ (Function.update_idem ..) rfl rfl rfl, rfl, rfl, ?_, ⟨_, rfl, rfl, ?_, ?_⟩,
    fun hc' => ?_, .inr ⟨rfl, ?_, ?_⟩⟩
  · simp [fire]
  · simp
  · simp [Sleeper, hc]
  · simp [Sleeper, fire] at hc'
  · simp [fire]
  · refine .every ?_ ?_ ?_ <;> simp [fire, hv]

theorem expire_every (he : expired s t = true) (ht : (s.info t).type = .interval)
    (hc : (s.info t).callback = some .timerCallback) (hv : (s.info t).value.itInterval ≠ .zero) :
    Expires t s (expire t s) := by
  have hcall : expire t s =
      fire t (some (s.info t).sigev) (systickTimerSet t (s.info t).value.itInterval
        (s.setLinks (listDel (.item t) s.links))) := by
    unfold expire
    rw [if_pos he]
    simp [ht, systickTimerSet_of_ne t hv, timerExpireCallback, hc, timerCallback]
  rw [hcall, systickTimerSet_of_ne t hv]
  refine ⟨sameElse_of_eq _ rfl rfl rfl rfl, rfl, rfl, ?_, ⟨_, rfl, rfl, ?_, ?_⟩, fun hc' => ?_,
    .inr ⟨rfl, ?_, ?_⟩⟩
  · simp [fire]
  · simp
  · simp [Sleeper, hc]
  · simp [Sleeper, fire, hc] at hc'
  · simp [fire]
  · refine .every ?_ ?_ ?_ <;> simp [fire, ht, hc, hv]

theorem expire_expires (h : Routed (s.info t)) (he : expired s t = true) : Expires t s (expire t s) := by
  cases h with
  | once ht hc => exact expire_once he ht hc
  | link ht hc hv => exact expire_link he ht hc hv
  | every ht hc hv => exact expire_every he ht hc hv

/-- The timer leaves its place, and may come back at the front. -/
theorem Inv.expires (h : Inv s (us ++ t :: vs)) (he : Expires t s s') : ∃ us', Inv s' (us' ++ vs) := by
  have hmem : t ∈ us ++ t :: vs := by simp
  have hnd := nodup_of_ring h.ring
  have herase : (us ++ t :: vs).erase t = us ++ vs := by
    have htu : t ∉ us := fun hu => (List.nodup_append.mp hnd).2.2 t hu t List.mem_cons_self rfl
    rw [List.erase_append_right _ htu, List.erase_cons_head]
  have hnot : t ∉ us ++ vs := herase ▸ hnd.not_mem_erase
  have halloc : s'.allocated t = true := he.allocated.trans (h.allocated hmem)
  rcases he.ends with ⟨hl, hd⟩ | ⟨hl, hd, hroute⟩
  · refine ⟨us, herase ▸ h.unlink he.frame hmem hl ?_ fun _ => halloc⟩
    intro ha
    cases hd.symm.trans ha.2
  · have harmed : Armed s' t := ⟨halloc, hd.trans ((h.mem_iff t).mp hmem).2⟩
    have hring := ring_unlink h.ring hmem
    rw [herase] at hring
    refine ⟨t :: us, h.change he.frame (hl ▸ ring_link hring hnot) (fun u hut => ?_) ?_ (fun _ => hroute)
      fun _ => halloc⟩
    · simp [hut]
    · exact ⟨fun _ => harmed, fun _ => List.mem_cons_self⟩

theorem next_eq_first (hr : Ring s.links systickTimers (nodes (us ++ t :: vs))) :
    s.links.next (.item t) = first () vs := by
  have hpath := hr.path
  unfold nodes at hpath
  rw [List.map_append, List.map_cons, path_append] at hpath
  rw [hpath.2.next_eq]
  cases vs <;> rfl

theorem next_head_eq_first (hr : Ring s.links systickTimers (nodes xs)) :
    s.links.next systickTimers = first () xs := by
  rw [hr.next_head]
  cases xs <;> rfl

/-- The timer and the clock are the same. -/
structure Alike (t : TimerAddr) (s s' : Timers) : Prop where
  info : s'.info t = s.info t
  clock : s'.clocktimeInMsec = s.clocktimeInMsec

theorem Alike.systickTimerSet (h : Alike t s s') (value : Timespec) :
    Alike t (systickTimerSet t value s) (systickTimerSet t value s') := by
  unfold Timer.systickTimerSet
  split
  · exact ⟨h.info, h.clock⟩
  · refine ⟨?_, h.clock⟩
    simp [h.info, h.clock]

theorem Alike.timerExpireCallback (h : Alike t s s') :
    Alike t (timerExpireCallback t s) (timerExpireCallback t s') := by
  unfold Timer.timerExpireCallback
  rw [h.info]
  split
  · exact ⟨by simp [msleepCallback, fire, h.info], h.clock⟩
  · unfold timerCallback
    rw [h.info]
    split
    · exact ⟨by simp [fire], h.clock⟩
    · exact ⟨h.info, h.clock⟩
  · have hlink : Alike t (s.setInfo t { s.info t with type := .interval, callback := some .timerCallback })
        (s'.setInfo t { s'.info t with type := .interval, callback := some .timerCallback }) :=
      ⟨by simp [h.info], h.clock⟩
    have hset := hlink.systickTimerSet (s.info t).value.itInterval
    unfold timerCallbackAndLink
    simp only [Timers.setInfo_info, Function.update_self, h.info]
    exact ⟨by simpa [fire, h.info] using hset.info, by simpa [fire, h.info] using hset.clock⟩
  · exact h

/-- The body of the loop goes by the timer and the clock alone. -/
theorem Alike.expire (h : Alike t s s') : Alike t (expire t s) (expire t s') := by
  have hx : expired s' t = expired s t := by
    unfold expired
    rw [h.info, h.clock]
  unfold Timer.expire
  rw [hx]
  split
  · have hdel : Alike t (s.setLinks (listDel (.item t) s.links)) (s'.setLinks (listDel (.item t) s'.links)) :=
      ⟨h.info, h.clock⟩
    generalize s.setLinks (listDel (.item t) s.links) = d at hdel ⊢
    generalize s'.setLinks (listDel (.item t) s'.links) = d' at hdel ⊢
    refine Alike.timerExpireCallback ?_
    rw [hdel.info]
    split
    · exact hdel.systickTimerSet _
    · exact hdel
  · exact h

/-- What a run of the bottom half does. -/
structure Handles (s s' : Timers) (ts : List TimerAddr) : Prop where
  fired : ∃ fs : List Fire, s'.fired = s.fired ++ fs ∧ fs.map Fire.timer = ts.filter (expired s) ∧
    ∀ f ∈ fs, f.owner = (s.info f.timer).owner ∧ (f.sigev = none ↔ Sleeper s f.timer)
  sleeper : ∀ u, Sleeper s' u → Sleeper s u ∧ (u ∈ ts → expired s u = true → (s'.info u).disarmed = true)
  info : ∀ u, u ∉ ts ∨ expired s u = false → s'.info u = s.info u
  visited : ∀ u ∈ ts, s'.info u = (expire u s).info u
  owner : ∀ u, (s'.info u).owner = (s.info u).owner
  allocated : s'.allocated = s.allocated
  timerHead : s'.timerHead = s.timerHead
  sleeping : s'.sleeping = s.sleeping

theorem Handles.refl (s : Timers) : Handles s s [] :=
  ⟨⟨[], by simp, rfl, by simp⟩, fun _ hu => ⟨hu, fun hm => (nomatch hm)⟩, fun _ _ => rfl,
    fun _ hm => (nomatch hm), fun _ => rfl, rfl, rfl, rfl⟩

theorem Expires.allocated_eq (h : Expires t s s') : s'.allocated = s.allocated := by
  funext u
  by_cases hut : u = t
  · rw [hut]
    exact h.allocated
  · exact h.frame.allocated u hut

theorem Expires.owner_eq (h : Expires t s s') (u : TimerAddr) : (s'.info u).owner = (s.info u).owner := by
  by_cases hut : u = t
  · rw [hut]
    exact h.owner
  · rw [h.frame.info u hut]

/-- One more timer, whether it has expired or not. -/
theorem Handles.cons {s1 s2 : Timers} (hnot : t ∉ vs) (hs1 : s1 = expire t s)
    (he : expired s t = true ∧ Expires t s s1 ∨ expired s t = false ∧ s1 = s) (h : Handles s1 s2 vs) :
    Handles s s2 (t :: vs) := by
  rcases he with ⟨hx, he⟩ | ⟨hx, rfl⟩
  · have hsame : ∀ u, u ≠ t → expired s1 u = expired s u := by
      intro u hut
      unfold expired
      rw [he.frame.info u hut, he.clock]
    have hslept : ∀ u, u ≠ t → (Sleeper s1 u ↔ Sleeper s u) := by
      intro u hut
      unfold Sleeper
      rw [he.frame.info u hut]
    have hne : ∀ u ∈ vs, u ≠ t := by
      rintro u hu rfl
      exact hnot hu
    obtain ⟨fs, hfs, hmap, hown⟩ := h.fired
    obtain ⟨f, hft, hf, hfo⟩ := he.fired
    refine ⟨⟨f :: fs, ?_, ?_, ?_⟩, fun u hu => ?_, fun u hu => ?_, fun u hu => ?_, fun u => ?_, ?_, ?_, ?_⟩
    · rw [hfs, hf, List.append_assoc, List.singleton_append]
    · rw [List.map_cons, hmap, hft, List.filter_cons_of_pos hx]
      exact congrArg _ (List.filter_congr fun u hu => hsame u (hne u hu))
    · intro g hg
      rcases List.mem_cons.mp hg with rfl | hg
      · rw [hft]
        exact hfo
      · have hgv : g.timer ∈ vs := List.mem_of_mem_filter (hmap ▸ List.mem_map_of_mem hg)
        rw [(hown g hg).1, he.owner_eq, (hown g hg).2, hslept _ (hne _ hgv)]
        exact ⟨rfl, Iff.rfl⟩
    · obtain ⟨hu1, hdis⟩ := h.sleeper u hu
      by_cases hut : u = t
      · subst hut
        obtain ⟨hu0, hd⟩ := he.sleeper hu1
        refine ⟨hu0, fun _ _ => ?_⟩
        rw [h.info u (.inl hnot)]
        exact hd
      · refine ⟨(hslept u hut).mp hu1, fun hm hxu => hdis ?_ ((hsame u hut).trans hxu)⟩
        exact (List.mem_cons.mp hm).resolve_left hut
    · have hut : u ≠ t := by
        rintro rfl
        rcases hu with hu | hu
        · exact hu List.mem_cons_self
        · rw [hx] at hu
          cases hu
      rw [h.info u (hu.imp (fun hm hv => hm (List.mem_cons_of_mem _ hv)) fun hf => (hsame u hut).trans hf),
        he.frame.info u hut]
    · rcases List.mem_cons.mp hu with rfl | hu
      · rw [h.info u (.inl hnot), hs1]
      · rw [h.visited u hu]
        have halike : Alike u s s1 := ⟨he.frame.info u (hne u hu), he.clock⟩
        exact halike.expire.info
    · rw [h.owner, he.owner_eq]
    · exact h.allocated.trans he.allocated_eq
    · exact h.timerHead.trans he.frame.timerHead
    · exact h.sleeping.trans he.frame.sleeping
  · obtain ⟨fs, hfs, hmap, hown⟩ := h.fired
    refine ⟨⟨fs, hfs, ?_, hown⟩, fun u hu => ⟨(h.sleeper u hu).1, fun hm hxu => ?_⟩, fun u hu => h.info u ?_,
      fun u hu => ?_, h.owner, h.allocated, h.timerHead, h.sleeping⟩
    · rw [hmap, List.filter_cons_of_neg (by simp [hx])]
    · rcases List.mem_cons.mp hm with rfl | hm
      · rw [hx] at hxu
        cases hxu
      · exact (h.sleeper u hu).2 hm hxu
    · exact hu.imp_left fun hm hv => hm (List.mem_cons_of_mem _ hv)
    · rcases List.mem_cons.mp hu with rfl | hu
      · rw [h.info u (.inl hnot), ← hs1]
      · exact h.visited u hu

/-- **The loop of the bottom half.** With the timers `ts` left to visit, it comes to
its end, handles them in order, and leaves a list of the timers that are still armed. -/
theorem systickBhFrom_spec (ts : List TimerAddr) (us : List TimerAddr) (s : Timers) (h : Inv s (us ++ ts)) :
    ∃ s' ys, systickBhFrom (ts.length + 1) (first () ts) (s.links.next (first () ts)) s = some s' ∧
      Inv s' ys ∧ Handles s s' ts := by
  induction ts generalizing us s with
  | nil => exact ⟨s, us ++ [], rfl, h, .refl s⟩
  | cons t vs ih =>
    have hnot : t ∉ vs := by
      have hnd := (List.nodup_append.mp (nodup_of_ring h.ring)).2.1
      exact (List.nodup_cons.mp hnd).1
    have hnext : s.links.next (first () (t :: vs)) = first () vs := next_eq_first h.ring
    obtain ⟨us', hus', hcase⟩ : ∃ us', Inv (expire t s) (us' ++ vs) ∧
        (expired s t = true ∧ Expires t s (expire t s) ∨ expired s t = false ∧ expire t s = s) := by
      cases hx : expired s t with
      | true =>
        have he := expire_expires (h.routed t (by simp)) hx
        obtain ⟨us', hus'⟩ := h.expires he
        exact ⟨us', hus', .inl ⟨rfl, he⟩⟩
      | false =>
        have he : expire t s = s := by
          unfold expire
          simp [hx]
        refine ⟨us ++ [t], ?_, .inr ⟨rfl, he⟩⟩
        rw [he, List.append_assoc, List.singleton_append]
        exact h
    obtain ⟨s', ys, hs', hys, hh⟩ := ih us' (expire t s) hus'
    refine ⟨s', ys, ?_, hys, hh.cons hnot rfl hcase⟩
    rw [hnext]
    exact hs'

theorem systickBhFrom_mono {fuel fuel' : ℕ} {pos pos1 : Node Unit TimerAddr} (hle : fuel ≤ fuel')
    (hs : systickBhFrom fuel pos pos1 s = some s') : systickBhFrom fuel' pos pos1 s = some s' := by
  induction fuel generalizing fuel' pos pos1 s with
  | zero => cases hs
  | succ fuel ih =>
    obtain ⟨k, rfl⟩ : ∃ k, fuel' = k + 1 := ⟨fuel' - 1, by omega⟩
    cases pos with
    | head => exact hs
    | item t => exact ih (s := expire t s) (by omega) hs
    | poison1 => cases hs
    | poison2 => cases hs

/-- **The bottom half** comes to its end; all its runs that do are the same. -/
theorem systickBh_spec (h : Inv s xs) :
    ∃ s' ys, systickBh (xs.length + 1) s = some s' ∧ Inv s' ys ∧ Handles s s' xs := by
  obtain ⟨s', ys, hs', hys, hh⟩ := systickBhFrom_spec xs [] s h
  refine ⟨s', ys, ?_, hys, hh⟩
  unfold systickBh
  rw [next_head_eq_first h.ring]
  exact hs'

theorem systickBh_inv {fuel : ℕ} (h : Inv s xs) (he : systickBh fuel s = some s') :
    (∃ ys, Inv s' ys) ∧ Handles s s' xs := by
  obtain ⟨s'', ys, hs'', hys, hh⟩ := systickBh_spec h
  have hmax := systickBhFrom_mono (le_max_left fuel (xs.length + 1)) he
  rw [systickBhFrom_mono (le_max_right fuel (xs.length + 1)) hs''] at hmax
  cases hmax
  exact ⟨⟨ys, hys⟩, hh⟩

/-! ## Calls -/

theorem notMem_of_not_allocated (h : Inv s xs) (ha : s.allocated t = false) :
    t ∉ xs ∧ t ∉ s.timerHead ∧ t ∉ s.sleeping := by
  refine ⟨fun hm => ?_, fun hm => ?_, fun hm => ?_⟩
  · cases ha.symm.trans (h.allocated hm)
  · cases ha.symm.trans (h.created t hm)
  · cases ha.symm.trans (h.asleep t hm).1

theorem notMem_of_disarmed (h : Inv s xs) (hd : (s.info t).disarmed = true) : t ∉ xs := by
  intro hm
  cases hd.symm.trans ((h.mem_iff t).mp hm).2

theorem ring_timerAlloc {b : Block} (h : Inv s xs) (hb : s.allocated b.addr = false) :
    Ring (timerAlloc b s).links systickTimers (nodes xs) :=
  ring_poison h.ring (item_notMem (notMem_of_not_allocated h hb).1)

theorem timerAlloc_info (b : Block) (s : Timers) : (timerAlloc b s).info b.addr = b.info :=
  Function.update_self ..

theorem sameElse_timerAlloc (b : Block) (s : Timers) : SameElse b.addr s (timerAlloc b s) :=
  ⟨fun _ hu => Function.update_of_ne hu _ _, fun _ hu => Function.update_of_ne hu _ _, rfl, rfl⟩

theorem SameElse.trans {s1 s2 : Timers} (h1 : SameElse t s s1) (h2 : SameElse t s1 s2) : SameElse t s s2 :=
  ⟨fun u hu => (h2.info u hu).trans (h1.info u hu), fun u hu => (h2.allocated u hu).trans (h1.allocated u hu),
    h2.timerHead.trans h1.timerHead, h2.sleeping.trans h1.sleeping⟩

/-- A timer enters one of the two lists of users. -/
theorem Inv.enter (h : Inv s xs) (ha : s.allocated t = true) (hh : t ∉ s.timerHead) (hs : t ∉ s.sleeping) :
    Inv { s with sleeping := t :: s.sleeping } xs ∧ Inv { s with timerHead := t :: s.timerHead } xs := by
  refine ⟨⟨⟨h.ring, h.mem_iff⟩, h.routed, h.created, fun u hu => ?_, List.nodup_cons.mpr ⟨hs, h.nodup⟩⟩,
    ⟨⟨h.ring, h.mem_iff⟩, h.routed, fun u hu => ?_, fun u hu => ⟨(h.asleep u hu).1, fun hm => ?_⟩, h.nodup⟩⟩
  · rcases List.mem_cons.mp hu with rfl | hu
    · exact ⟨ha, hh⟩
    · exact h.asleep u hu
  · rcases List.mem_cons.mp hu with rfl | hu
    · exact ha
    · exact h.created u hu
  · rcases List.mem_cons.mp hm with rfl | hm
    · exact hs hu
    · exact (h.asleep u hu).2 hm

theorem msecTimespec_ne_zero {msec : Word} (hm : msec ≠ 0) : msecTimespec msec ≠ .zero := by
  intro he
  injection he with hs hn
  have hpos : msec.toNat ≠ 0 := fun h0 => hm (BitVec.eq_of_toNat_eq h0)
  omega

/-- `sys_msleep` links its timer. -/
theorem sysMsleep_list {b : Block} {msec : Word} {c : Thread} (h : Inv s xs) (hb : s.allocated b.addr = false)
    (hm : msec ≠ 0) : Inv (sysMsleep (some b) msec c s) (b.addr :: xs) := by
  obtain ⟨hx, hh, hs⟩ := notMem_of_not_allocated h hb
  let i : TimerInfo :=
    { b.info with owner := c, disarmed := false, type := .oneshot, callback := some .msleepCallback }
  let s1 := systickTimerSet b.addr (msecTimespec msec) ((timerAlloc b s).setInfo b.addr i)
  have hs1 : s1 = _ := systickTimerSet_of_ne b.addr (msecTimespec_ne_zero hm) _
  have harmed : Armed s1 b.addr := by
    rw [hs1]
    exact ⟨Function.update_self .., by simp [i]⟩
  have hinv : Inv s1 (b.addr :: xs) := by
    refine h.change (t := b.addr) ?_ ?_ (fun u hu => List.mem_cons.trans (or_iff_right hu)) ?_ (fun _ => ?_) ?_
    · rw [hs1]
      exact (sameElse_timerAlloc b s).trans (sameElse_of_eq _ (Function.update_idem ..) rfl rfl rfl)
    · rw [hs1]
      exact ring_link (ring_timerAlloc h hb) hx
    · exact ⟨fun _ => harmed, fun _ => List.mem_cons_self⟩
    · rw [hs1]
      refine .once ?_ (.inl ?_) <;> simp [i]
    · exact fun _ => harmed.1
  have hsame : sysMsleep (some b) msec c s = { s1 with sleeping := b.addr :: s1.sleeping } := by
    simp only [sysMsleep, s1, i, timerAlloc_info]
  rw [hsame]
  refine (hinv.enter harmed.1 ?_ ?_).1
  · rw [hs1]
    exact hh
  · rw [hs1]
    exact hs

theorem timerFree_frame (t : TimerAddr) (s : Timers) :
    SameElse t s (timerFree t s) ∧ ¬ Armed (timerFree t s) t := by
  constructor
  · unfold timerFree
    cases (s.info t).disarmed with
    | false => exact ⟨fun _ _ => rfl, fun _ hu => Function.update_of_ne hu _ _, rfl, rfl⟩
    | true => exact ⟨fun _ _ => rfl, fun _ hu => Function.update_of_ne hu _ _, rfl, rfl⟩
  · rintro ⟨hal, -⟩
    unfold timerFree at hal
    simp at hal

/-- `timer_free` unlinks the timer if it is linked. -/
theorem timerFree_list (h : Inv s xs) (hh : t ∉ s.timerHead) (hs : t ∉ s.sleeping) (ha : s.allocated t = true) :
    Inv (timerFree t s) (xs.erase t) := by
  have hout : ¬ (t ∈ s.timerHead ∨ t ∈ s.sleeping) := not_or.mpr ⟨hh, hs⟩
  obtain ⟨hframe, hfree⟩ := timerFree_frame t s
  cases hd : (s.info t).disarmed with
  | false =>
    have hl : (timerFree t s).links = listDel (.item t) s.links := by
      unfold timerFree
      simp [hd, systickTimerSet_zero]
    exact h.unlink hframe ((h.mem_iff t).mpr ⟨ha, hd⟩) hl hfree fun hm => absurd hm hout
  | true =>
    have hl : (timerFree t s).links = s.links := by
      unfold timerFree
      simp [hd]
    have hnot := notMem_of_disarmed h hd
    rw [List.erase_of_not_mem hnot]
    exact h.rest hframe hnot (hl ▸ h.ring) hfree fun hm => absurd hm hout

theorem sysMsleepReturn_list (h : Inv s xs) (ht : t ∈ s.sleeping) : Inv (sysMsleepReturn t s) (xs.erase t) := by
  have hout : Inv { s with sleeping := s.sleeping.erase t } xs :=
    ⟨⟨h.ring, h.mem_iff⟩, h.routed, h.created, fun u hu => h.asleep u (List.mem_of_mem_erase hu),
      h.nodup.erase t⟩
  exact timerFree_list hout (h.asleep t ht).2 h.nodup.not_mem_erase (h.asleep t ht).1

/-- `sys_timer_create` links nothing. -/
theorem sysTimerCreate_list {b : Block} {sevp : Sigevent} (h : Inv s xs) (hb : s.allocated b.addr = false)
    (hid : (reserveTimerId s.bitmap).isSome ∨ b.info.disarmed = true) :
    Inv (sysTimerCreate (some b) sevp s).2 xs := by
  obtain ⟨hx, hh, hs⟩ := notMem_of_not_allocated h hb
  have halloc : (timerAlloc b s).allocated b.addr = true := Function.update_self ..
  cases hr : reserveTimerId s.bitmap with
  | none =>
    have hd : b.info.disarmed = true := by simpa [hr] using hid
    have heq : (sysTimerCreate (some b) sevp s).2 = timerFree b.addr (timerAlloc b s) := by
      have hr' : reserveTimerId (timerAlloc b s).bitmap = none := hr
      simp only [sysTimerCreate, hr']
    rw [heq, ← List.erase_of_not_mem hx]
    refine timerFree_list (h.rest (sameElse_timerAlloc b s) hx (ring_timerAlloc h hb) ?_ fun _ => halloc)
      hh hs halloc
    rintro ⟨-, hf⟩
    rw [timerAlloc_info, hd] at hf
    cases hf
  | some r =>
    obtain ⟨id, bitmap⟩ := r
    let s1 := (timerAlloc b s).setInfo b.addr { b.info with id := id, disarmed := true, sigev := sevp }
    have heq : (sysTimerCreate (some b) sevp s).2 =
        { s1 with bitmap := bitmap, timerHead := b.addr :: s1.timerHead } := by
      have hr' : reserveTimerId (timerAlloc b s).bitmap = some (id, bitmap) := hr
      simp only [sysTimerCreate, hr', s1, timerAlloc_info]
    rw [heq]
    have hinv : Inv { s1 with bitmap := bitmap } xs := by
      refine h.rest (t := b.addr) ?_ hx (ring_timerAlloc h hb) ?_ fun _ => halloc
      · exact (sameElse_timerAlloc b s).trans (sameElse_of_eq _ rfl rfl rfl rfl)
      · rintro ⟨-, hf⟩
        simp [s1] at hf
    exact (hinv.enter halloc hh hs).2

theorem sysTimerCreate_inv {b : Block} {sevp : Sigevent} (h : Inv s xs) (hb : s.allocated b.addr = false)
    (hid : (reserveTimerId s.bitmap).isSome ∨ b.info.disarmed = true) :
    ∃ ys, Inv (sysTimerCreate (some b) sevp s).2 ys := ⟨_, sysTimerCreate_list h hb hid⟩

theorem mem_of_findTimerById {timerid : ℕ} (hf : findTimerById timerid s = some t) : t ∈ s.timerHead :=
  List.mem_of_find?_eq_some hf

/-- The three ways to arm a timer, which all link it. -/
theorem armTimer_eq {newValue : Itimerspec} {c : Thread} (hv : newValue.itValue ≠ .zero)
    (hi : (s.info t).value = newValue) : ∃ i, Routed i ∧ i.disarmed = false ∧ i.owner = c ∧
      i.callback ≠ some .msleepCallback ∧
      armTimer t newValue c s = (s.setInfo t i).setLinks (listAdd (.item t) systickTimers s.links) := by
  unfold armTimer
  by_cases hz : newValue.itInterval = .zero
  · rw [if_neg (not_not.mpr hz), systickTimerSet_of_ne t hv]
    refine ⟨{ s.info t with owner := c, disarmed := false, type := .oneshot, callback := some .timerCallback,
                            startClocktime := s.clocktimeInMsec,
                            expireClocktime := after newValue.itValue s.clocktimeInMsec },
      .once rfl (.inr rfl), rfl, rfl, by simp, ?_⟩
    simp [Timers.setInfo]
  · rw [if_pos hz]
    split
    · rw [systickTimerSet_of_ne t hz]
      refine ⟨{ s.info t with owner := c, disarmed := false, type := .interval, callback := some .timerCallback,
                              startClocktime := s.clocktimeInMsec,
                              expireClocktime := after newValue.itInterval s.clocktimeInMsec },
        .every rfl rfl (hi ▸ hz), rfl, rfl, by simp, ?_⟩
      simp [Timers.setInfo]
    · rw [systickTimerSet_of_ne t hv]
      refine ⟨{ s.info t with owner := c, disarmed := false, type := .oneshot,
                              callback := some .timerCallbackAndLink,
                              startClocktime := s.clocktimeInMsec,
                              expireClocktime := after newValue.itValue s.clocktimeInMsec },
        .link rfl rfl (hi ▸ hz), rfl, rfl, by simp, ?_⟩
      simp [Timers.setInfo]

/-- What `sys_timer_settime` does to the timer it finds. -/
theorem sysTimerSettime_cases {timerid : ℕ} {newValue : Itimerspec} {c : Thread}
    (hf : findTimerById timerid s = some t) (hs : (sysTimerSettime timerid newValue c s).2 = s') :
    (newValue.itValue = .zero ∧ (s.info t).disarmed = false ∧ ∃ i, i.disarmed = true ∧
        s' = (s.setInfo t i).setLinks (listDel (.item t) s.links)) ∨
      (newValue.itValue = .zero ∧ (s.info t).disarmed = true ∧ ∃ i, i.disarmed = true ∧ s' = s.setInfo t i) ∨
      (newValue.itValue ≠ .zero ∧ ∃ i, Routed i ∧ i.disarmed = false ∧ i.owner = c ∧
        i.callback ≠ some .msleepCallback ∧
        s' = (s.setInfo t i).setLinks (listAdd (.item t) systickTimers s.links)) := by
  subst hs
  unfold sysTimerSettime
  simp only [hf]
  by_cases hz : newValue.itValue = .zero
  · rw [if_pos hz]
    cases hd : (s.info t).disarmed with
    | false =>
      refine .inl ⟨hz, rfl, { s.info t with value := newValue, disarmed := true }, rfl, ?_⟩
      simp [hz, systickTimerSet_zero, Timers.setInfo, Timers.setLinks]
    | true =>
      refine .inr (.inl ⟨hz, rfl, { s.info t with value := newValue }, hd, ?_⟩)
      simp [hd]
  · rw [if_neg hz]
    obtain ⟨i, hroute, hd, ho, hcb, he⟩ := armTimer_eq (c := c)
      (s := s.setInfo t { s.info t with value := newValue }) (t := t) hz (by simp)
    refine .inr (.inr ⟨hz, i, hroute, hd, ho, hcb, he.trans ?_⟩)
    simp [Timers.setInfo]

/-- It writes the fields of this timer and the links. -/
theorem sysTimerSettime_writes (timerid : ℕ) (newValue : Itimerspec) (c : Thread) (s : Timers) :
    (sysTimerSettime timerid newValue c s).2 = s ∨
      ∃ t i l, findTimerById timerid s = some t ∧
        (sysTimerSettime timerid newValue c s).2 = (s.setInfo t i).setLinks l := by
  cases hf : findTimerById timerid s with
  | none => exact .inl (by simp only [sysTimerSettime, hf])
  | some t =>
    rcases sysTimerSettime_cases hf rfl with ⟨-, -, i, -, he⟩ | ⟨-, -, i, -, he⟩ | ⟨-, i, -, -, -, -, he⟩
    · exact .inr ⟨t, i, _, rfl, he⟩
    · exact .inr ⟨t, i, s.links, rfl, he⟩
    · exact .inr ⟨t, i, _, rfl, he⟩

/-- `sys_timer_settime` leaves the list, links a timer or unlinks the one it disarms. -/
theorem sysTimerSettime_list {timerid : ℕ} {newValue : Itimerspec} {c : Thread} (h : Inv s xs)
    (harm : newValue.itValue ≠ .zero → ∀ t, findTimerById timerid s = some t → (s.info t).disarmed = true) :
    ∃ ys, Inv (sysTimerSettime timerid newValue c s).2 ys ∧
      (ys = xs ∨ (∃ t, t ∉ xs ∧ ys = t :: xs) ∨
        ∃ t ∈ xs, (newValue.itValue = .zero ∧ findTimerById timerid s = some t) ∧ ys = xs.erase t) := by
  cases hf : findTimerById timerid s with
  | none =>
    have heq : (sysTimerSettime timerid newValue c s).2 = s := by simp only [sysTimerSettime, hf]
    rw [heq]
    exact ⟨xs, h, .inl rfl⟩
  | some t =>
    have halloc : s.allocated t = true := h.created t (mem_of_findTimerById hf)
    rcases sysTimerSettime_cases hf rfl with ⟨hz, hd, i, hi, he⟩ | ⟨-, hd, i, hi, he⟩ | ⟨hv, i, hr, hi, -, -, he⟩
    · rw [he]
      have ht : t ∈ xs := (h.mem_iff t).mpr ⟨halloc, hd⟩
      refine ⟨_, h.unlink (sameElse_of_eq i rfl rfl rfl rfl) ht rfl ?_ fun _ => halloc,
        .inr (.inr ⟨t, ht, ⟨hz, rfl⟩, rfl⟩)⟩
      rintro ⟨-, hfalse⟩
      simp [hi] at hfalse
    · rw [he]
      refine ⟨xs, h.rest (sameElse_of_eq i rfl rfl rfl rfl) (notMem_of_disarmed h hd) h.ring ?_ fun _ => halloc,
        .inl rfl⟩
      rintro ⟨-, hfalse⟩
      simp [hi] at hfalse
    · rw [he]
      have hx := notMem_of_disarmed h (harm hv t hf)
      exact ⟨_, h.link (sameElse_of_eq i rfl rfl rfl rfl) hx rfl ⟨halloc, by simp [hi]⟩ (by simpa using hr),
        .inr (.inl ⟨t, hx, rfl⟩)⟩

theorem sysTimerSettime_inv {timerid : ℕ} {newValue : Itimerspec} {c : Thread} (h : Inv s xs)
    (harm : newValue.itValue ≠ .zero → ∀ t, findTimerById timerid s = some t → (s.info t).disarmed = true) :
    ∃ ys, Inv (sysTimerSettime timerid newValue c s).2 ys := by
  obtain ⟨ys, hys, -⟩ := sysTimerSettime_list (c := c) h harm
  exact ⟨ys, hys⟩

/-! ## Runs -/

theorem inv_init (mem : Memory Unit TimerAddr) (info : TimerAddr → TimerInfo) : Inv (init mem info) [] := by
  refine ⟨⟨ring_initListHead systickTimers mem, fun t => ?_⟩, ?_, ?_, ?_, List.nodup_nil⟩
  · exact ⟨fun hm => (nomatch hm), fun ha => (nomatch ha.1)⟩
  · exact fun _ hm => (nomatch hm)
  · exact fun _ hm => (nomatch hm)
  · exact fun _ hm => (nomatch hm)

/-- The steps that keep the list: `sys_timer_settime` arms only a timer that is
disarmed, `sys_msleep` is given some time, and `sys_timer_create` finds a timer id left
or memory that does not look like an armed timer. -/
def Meets (s : Timers) : Act → Prop
  | .timerCreate (some b) _ => (reserveTimerId s.bitmap).isSome ∨ b.info.disarmed = true
  | .timerSettime timerid newValue _ =>
    newValue.itValue ≠ .zero → ∀ t, findTimerById timerid s = some t → (s.info t).disarmed = true
  | .msleep (some _) msec _ => msec ≠ 0
  | _ => True

/-- The calls that can unlink the timer. -/
def Unlinks (s : Timers) (t : TimerAddr) : Act → Prop
  | .timerSettime timerid newValue _ => newValue.itValue = .zero ∧ findTimerById timerid s = some t
  | .msleepReturn u => u = t
  | _ => False

/-- **What a call does to the list:** nothing, or it links a timer at the front, or it
unlinks one. -/
theorem call_list {a : Act} (h : Inv s xs) (hm : Meets s a) (ha : ∀ fuel, a ≠ .systickBh fuel)
    (he : step s a = some s') :
    ∃ ys, Inv s' ys ∧ (ys = xs ∨ (∃ t, t ∉ xs ∧ ys = t :: xs) ∨ ∃ t ∈ xs, Unlinks s t a ∧ ys = xs.erase t) := by
  cases a with
  | timerCreate mem sevp =>
    cases mem with
    | none =>
      cases he
      exact ⟨xs, h, .inl rfl⟩
    | some b =>
      obtain ⟨hb, rfl⟩ := Option.ite_none_right_eq_some.mp he |>.imp_right Option.some.inj
      exact ⟨xs, sysTimerCreate_list h (by simpa [validMem] using hb) hm, .inl rfl⟩
  | timerSettime timerid newValue c =>
    cases he
    exact sysTimerSettime_list h hm
  | msleep mem msec c =>
    cases mem with
    | none =>
      cases he
      exact ⟨xs, h, .inl rfl⟩
    | some b =>
      obtain ⟨hb, rfl⟩ := Option.ite_none_right_eq_some.mp he |>.imp_right Option.some.inj
      have hfree : s.allocated b.addr = false := by simpa [validMem] using hb
      exact ⟨_, sysMsleep_list h hfree hm, .inr (.inl ⟨_, (notMem_of_not_allocated h hfree).1, rfl⟩)⟩
  | msleepReturn t =>
    obtain ⟨ht, rfl⟩ := Option.ite_none_right_eq_some.mp he |>.imp_right Option.some.inj
    refine ⟨_, sysMsleepReturn_list h ht, ?_⟩
    by_cases hx : t ∈ xs
    · exact .inr (.inr ⟨t, hx, rfl, rfl⟩)
    · exact .inl (List.erase_of_not_mem hx)
  | systick =>
    cases he
    exact ⟨xs, ⟨⟨h.ring, h.mem_iff⟩, h.routed, h.created, h.asleep, h.nodup⟩, .inl rfl⟩
  | systickBh fuel => exact absurd rfl (ha fuel)

theorem step_inv {a : Act} (h : ∃ xs, Inv s xs) (hm : Meets s a) (he : step s a = some s') :
    ∃ ys, Inv s' ys := by
  obtain ⟨xs, h⟩ := h
  by_cases ha : ∀ fuel, a ≠ .systickBh fuel
  · obtain ⟨ys, hys, -⟩ := call_list h hm ha he
    exact ⟨ys, hys⟩
  · obtain ⟨fuel, rfl⟩ := not_forall_not.mp ha
    exact (systickBh_inv h he).1

/-- The list is as `disarmed` says, and the bottom half fires, once each, the armed
timers that have expired and leaves the others as they are. -/
structure Sound (s : Timers) : Prop where
  listed : ∃ xs, Listed s xs
  fires : ∃ fuel s' fs, systickBh fuel s = some s' ∧ s'.fired = s.fired ++ fs ∧
    (fs.map Fire.timer).Nodup ∧ (∀ t, t ∈ fs.map Fire.timer ↔ Armed s t ∧ expired s t = true) ∧
    ∀ t, expired s t = false → s'.info t = s.info t ∧ (Armed s' t ↔ Armed s t)

theorem Inv.sound (h : Inv s xs) : Sound s := by
  obtain ⟨s', ys, hs', -, hh⟩ := systickBh_spec h
  obtain ⟨fs, hfs, hmap, -⟩ := hh.fired
  refine ⟨⟨xs, h.toListed⟩, _, s', fs, hs', hfs, ?_, fun t => ?_, fun t ht => ?_⟩
  · rw [hmap]
    exact (nodup_of_ring h.ring).filter _
  · rw [hmap, List.mem_filter, h.mem_iff]
  · have hinfo := hh.info t (.inr ht)
    refine ⟨hinfo, ?_⟩
    unfold Armed
    rw [hinfo, hh.allocated]

/-- **The timer list.** In every run whose steps meet the condition, the list links
exactly the armed timers, each once; a cancelled timer does not fire and an armed one
is not lost. -/
theorem runs_sound (mem : Memory Unit TimerAddr) (info : TimerAddr → TimerInfo) (as : List Act)
    (hm : ∀ x ∈ trace step (init mem info) as, Meets x.pre x.act)
    (hr : run step (init mem info) as = some s) : Sound s := by
  obtain ⟨xs, h⟩ := run_invariant_of_trace (I := fun s => ∃ xs, Inv s xs)
    (fun _ _ _ hi hc he => step_inv hi hc he) hr ⟨[], inv_init mem info⟩ hm
  exact h.sound

/-! ## Arming an armed timer -/

/-- An armed timer that is armed again has two predecessors. -/
theorem settime_armed_not_listed {timerid : ℕ} {newValue : Itimerspec} {c : Thread} (h : Inv s xs)
    (hf : findTimerById timerid s = some t) (hd : (s.info t).disarmed = false)
    (hv : newValue.itValue ≠ .zero) : ¬ ∃ ys, Listed (sysTimerSettime timerid newValue c s).2 ys := by
  rintro ⟨ys, hl⟩
  have halloc : s.allocated t = true := h.created t (mem_of_findTimerById hf)
  have ht : t ∈ xs := (h.mem_iff t).mpr ⟨halloc, hd⟩
  rcases sysTimerSettime_cases hf rfl with ⟨hz, -⟩ | ⟨hz, -⟩ | ⟨-, i, -, hi, -, -, he⟩
  · exact hv hz
  · exact hv hz
  · rw [he] at hl
    refine h.ring.not_insert_head (mem_nodes.mpr ht) (fun z hz => ?_) hl.ring
    obtain ⟨u, hu, rfl⟩ := List.mem_map.mp hz
    refine mem_nodes.mpr ((hl.mem_iff u).mpr ⟨h.allocated hu, ?_⟩)
    by_cases hut : u = t
    · simp [hut, hi]
    · simpa [hut] using ((h.mem_iff u).mp hu).2

end

/-! ## Concrete runs -/

def garbage : TimerInfo := ⟨0, false, .oneshot, none, 0, ⟨.zero, .zero⟩, ⟨0, 0⟩, 0, 0⟩

def memory : Memory Unit TimerAddr := ⟨fun _ => .poison1, fun _ => .poison2⟩

/-- A timer is created and set to one second. -/
def armed : List Act :=
  [.timerCreate (some ⟨0, garbage, .poison1, .poison2⟩) ⟨7, 0⟩,
    .timerSettime 0 ⟨.zero, ⟨1, 0⟩⟩ 1]

theorem runs_sound_armed : (∀ x ∈ trace step (init memory fun _ => garbage) armed, Meets x.pre x.act) ∧
    ∃ s, run step (init memory fun _ => garbage) armed = some s ∧ Armed s 0 ∧ Sound s := by
  have hm : ∀ x ∈ trace step (init memory fun _ => garbage) armed, Meets x.pre x.act := by
    refine List.forall_mem_cons.mpr ⟨.inl (by decide), List.forall_mem_singleton.mpr ?_⟩
    intro _ t ht
    cases ht
    rfl
  exact ⟨hm, _, rfl, by decide, runs_sound memory (fun _ => garbage) armed hm rfl⟩

/-- The timer of `armed` is set to two seconds. -/
theorem armed_again_not_listed : ∃ s, run step (init memory fun _ => garbage)
    (armed ++ [.timerSettime 0 ⟨.zero, ⟨2, 0⟩⟩ 1]) = some s ∧ ¬ Sound s := by
  refine ⟨_, rfl, fun hs => ?_⟩
  obtain ⟨xs, hl⟩ := hs.listed
  have hhead := hl.ring.prev_next List.mem_cons_self
  have harmed : 0 ∈ xs := (hl.mem_iff 0).mpr (by decide)
  have hself := hl.ring.prev_next (List.mem_cons_of_mem _ (mem_nodes.mpr harmed))
  revert hhead hself
  decide

end PikoRT.Time.TimerList

import Mathlib

/-! # Runs of a partial step function

A system is a function `step : σ → α → Option σ`: the state after one action,
or nothing when the action cannot be taken. A run is a list of actions. The
rules below turn a fact about one step into a fact about every state that a
run passes. -/
namespace PikoRT.Lib.Run

variable {σ α : Type*} (step : σ → α → Option σ)

/-- The state after the actions `as`, if each of them can be taken. -/
def run : σ → List α → Option σ
  | s, [] => some s
  | s, a :: as => (step s a).bind fun t => run t as

/-- One step of a run, with the states before and after it. -/
structure Transition (σ α : Type*) where
  pre : σ
  act : α
  post : σ

/-- The steps a run takes, in order, up to the first that cannot be taken. -/
def trace : σ → List α → List (Transition σ α)
  | _, [] => []
  | s, a :: as => match step s a with
    | none => []
    | some t => ⟨s, a, t⟩ :: trace t as

/-- `t` is the end of some run from `s`. -/
def Reachable (s t : σ) : Prop := ∃ as, run step s as = some t

variable {step}

@[simp] theorem run_nil (s : σ) : run step s [] = some s := rfl

theorem run_cons (s : σ) (a : α) (as : List α) :
    run step s (a :: as) = (step s a).bind fun t => run step t as := rfl

theorem run_cons_some {s u : σ} {a : α} {as : List α} (h : run step s (a :: as) = some u) :
    ∃ t, step s a = some t ∧ run step t as = some u := by
  rw [run_cons] at h
  exact Option.bind_eq_some_iff.mp h

theorem run_append (s : σ) (as bs : List α) :
    run step s (as ++ bs) = (run step s as).bind fun t => run step t bs := by
  induction as generalizing s with
  | nil => rfl
  | cons a as ih =>
    simp only [List.cons_append, run_cons]
    cases step s a with
    | none => rfl
    | some t => exact ih t

theorem run_concat {s t u : σ} {a : α} {as : List α} (h : run step s as = some t) (ha : step t a = some u) :
    run step s (as ++ [a]) = some u := by
  rw [run_append, h, Option.bind_some, run_cons, ha]
  rfl

theorem trace_cons_some {s t : σ} {a : α} (h : step s a = some t) (as : List α) :
    trace step s (a :: as) = ⟨s, a, t⟩ :: trace step t as := by
  simp only [trace, h]

theorem trace_cons_none {s : σ} {a : α} (h : step s a = none) (as : List α) :
    trace step s (a :: as) = [] := by
  simp only [trace, h]

theorem of_mem_trace {s : σ} {as : List α} {x : Transition σ α} (h : x ∈ trace step s as) :
    x.act ∈ as ∧ step x.pre x.act = some x.post := by
  induction as generalizing s with
  | nil => cases h
  | cons a as ih =>
    cases hs : step s a with
    | none => rw [trace_cons_none hs] at h; cases h
    | some t =>
      rw [trace_cons_some hs] at h
      rcases List.mem_cons.mp h with rfl | h
      · exact ⟨List.mem_cons_self, hs⟩
      · exact ⟨List.mem_cons_of_mem _ (ih h).1, (ih h).2⟩

theorem act_mem_of_mem_trace {s : σ} {as : List α} {x : Transition σ α} (h : x ∈ trace step s as) : x.act ∈ as :=
  (of_mem_trace h).1

theorem step_of_mem_trace {s : σ} {as : List α} {x : Transition σ α} (h : x ∈ trace step s as) :
    step x.pre x.act = some x.post :=
  (of_mem_trace h).2

theorem trace_append {s t : σ} {as : List α} (h : run step s as = some t) (bs : List α) :
    trace step s (as ++ bs) = trace step s as ++ trace step t bs := by
  induction as generalizing s with
  | nil => cases h; rfl
  | cons a as ih =>
    obtain ⟨u, hu, hr⟩ := run_cons_some h
    rw [List.cons_append, trace_cons_some hu, trace_cons_some hu, ih hr, List.cons_append]

/-- The steps of a run, one at a time. -/
theorem forall_trace_cons {C : Transition σ α → Prop} {s t : σ} {a : α} {as : List α} (h : step s a = some t)
    (hc : C ⟨s, a, t⟩) (hs : ∀ x ∈ trace step t as, C x) : ∀ x ∈ trace step s (a :: as), C x := by
  rw [trace_cons_some h]
  exact List.forall_mem_cons.mpr ⟨hc, hs⟩

/-- The same for what is said of the state and the action before a step. -/
theorem forall_trace_of_step {P : σ → α → Prop} {s : σ} {a : α} {as : List α} (h : P s a)
    (hs : ∀ t, step s a = some t → ∀ x ∈ trace step t as, P x.pre x.act) :
    ∀ x ∈ trace step s (a :: as), P x.pre x.act := by
  cases ht : step s a with
  | none =>
    rw [trace_cons_none ht]
    simp
  | some t => exact forall_trace_cons ht h (hs t ht)

/-- The step after a run is on the trace. -/
theorem mem_trace_of_run {s t u : σ} {a : α} {as : List α} (h : run step s as = some t)
    (ht : step t a = some u) : ⟨t, a, u⟩ ∈ trace step s (as ++ [a]) := by
  rw [trace_append h, trace_cons_some ht]
  simp

theorem Reachable.refl (s : σ) : Reachable step s s := ⟨[], rfl⟩

/-- **Invariant rule under a side condition.** If a step that meets `C` keeps
`I`, then in a run whose steps all meet `C` every state passed has `I`. -/
theorem trace_invariant {I : σ → Prop} {C : σ → α → Prop}
    (hstep : ∀ s a t, I s → C s a → step s a = some t → I t) {s : σ} {as : List α} (hs : I s)
    (hC : ∀ x ∈ trace step s as, C x.pre x.act) :
    ∀ x ∈ trace step s as, I x.pre ∧ I x.post := by
  induction as generalizing s with
  | nil => simp [trace]
  | cons a as ih =>
    cases h : step s a with
    | none => rw [trace_cons_none h]; simp
    | some t =>
      rw [trace_cons_some h] at hC ⊢
      have ht : I t := hstep s a t hs (hC ⟨s, a, t⟩ (by simp)) h
      intro x hx
      rcases List.mem_cons.mp hx with rfl | hx
      · exact ⟨hs, ht⟩
      · exact ih ht (fun y hy => hC y (List.mem_cons_of_mem _ hy)) x hx

/-- The same for the state at the end of the run. -/
theorem run_invariant_of_trace {I : σ → Prop} {C : σ → α → Prop}
    (hstep : ∀ s a t, I s → C s a → step s a = some t → I t) {s t : σ} {as : List α}
    (h : run step s as = some t) (hs : I s) (hC : ∀ x ∈ trace step s as, C x.pre x.act) : I t := by
  induction as generalizing s with
  | nil => cases h; exact hs
  | cons a as ih =>
    obtain ⟨u, hu, hr⟩ := run_cons_some h
    rw [trace_cons_some hu] at hC
    exact ih hr (hstep s a u hs (hC ⟨s, a, u⟩ List.mem_cons_self) hu)
      fun y hy => hC y (List.mem_cons_of_mem _ hy)

/-- **Invariant rule.** What every step preserves holds at the end of every run. -/
theorem run_invariant {I : σ → Prop} (hstep : ∀ s a t, I s → step s a = some t → I t)
    {s t : σ} {as : List α} (h : run step s as = some t) (hs : I s) : I t :=
  run_invariant_of_trace (C := fun _ _ => True) (fun s a t hI _ => hstep s a t hI) h hs fun _ _ => trivial

theorem Reachable.invariant {I : σ → Prop} (hstep : ∀ s a t, I s → step s a = some t → I t)
    {s t : σ} (h : Reachable step s t) (hs : I s) : I t := by
  obtain ⟨as, has⟩ := h
  exact run_invariant hstep has hs

/-- **Exact condition along a run** whose steps all meet `S`: if, from the states of `I`, a
step does `Q` exactly when it meets `C`, and a step that meets `C` keeps `I`, then all steps
of the run do `Q` exactly when all of them meet `C`. -/
theorem trace_forall_iff_of {I : σ → Prop} {Q : σ → α → σ → Prop} {S C : σ → α → Prop}
    (hq : ∀ s a t, I s → S s a → step s a = some t → (Q s a t ↔ C s a))
    (hi : ∀ s a t, I s → S s a → C s a → step s a = some t → I t) {s : σ} {as : List α} (hs : I s)
    (hS : ∀ x ∈ trace step s as, S x.pre x.act) :
    (∀ x ∈ trace step s as, Q x.pre x.act x.post) ↔ ∀ x ∈ trace step s as, C x.pre x.act := by
  induction as generalizing s with
  | nil => simp [trace]
  | cons a as ih =>
    cases h : step s a with
    | none => rw [trace_cons_none h]; simp
    | some t =>
      rw [trace_cons_some h] at hS ⊢
      obtain ⟨ha, hrest⟩ := List.forall_mem_cons.mp hS
      simp only [List.forall_mem_cons, hq s a t hs ha h]
      constructor
      · rintro ⟨hc, hall⟩
        exact ⟨hc, (ih (hi s a t hs ha hc h) hrest).mp hall⟩
      · rintro ⟨hc, hall⟩
        exact ⟨hc, (ih (hi s a t hs ha hc h) hrest).mpr hall⟩

/-- The same for every run. -/
theorem trace_forall_iff {I : σ → Prop} {Q : σ → α → σ → Prop} {C : σ → α → Prop}
    (hq : ∀ s a t, I s → step s a = some t → (Q s a t ↔ C s a))
    (hi : ∀ s a t, I s → C s a → step s a = some t → I t) {s : σ} {as : List α} (hs : I s) :
    (∀ x ∈ trace step s as, Q x.pre x.act x.post) ↔ ∀ x ∈ trace step s as, C x.pre x.act :=
  trace_forall_iff_of (S := fun _ _ => True) (fun s a t hI _ => hq s a t hI) (fun s a t hI _ => hi s a t hI) hs
    fun _ _ => trivial

/-- The same for a relation between the states: every run of the one system is one of the other. -/
theorem run_related {τ β : Type*} {other : τ → β → Option τ} {R : σ → τ → Prop} {g : α → β}
    (hstep : ∀ s a t u, R s u → step s a = some t → ∃ v, other u (g a) = some v ∧ R t v) {s t : σ} {u : τ}
    {as : List α}
    (hs : R s u) (hr : run step s as = some t) : ∃ v, run other u (as.map g) = some v ∧ R t v := by
  induction as generalizing s u with
  | nil =>
    cases hr
    exact ⟨u, rfl, hs⟩
  | cons a as ih =>
    obtain ⟨s', hs', hr⟩ := run_cons_some hr
    obtain ⟨v, hv, hR⟩ := hstep s a s' u hs hs'
    obtain ⟨w, hw, ht⟩ := ih hR hr
    exact ⟨w, by rw [List.map_cons, run_cons, hv]; exact hw, ht⟩

/-- What comes in and what goes out at every step of a run, in the order of a queue. -/
theorem run_conserves {β : Type*} {f : σ → List β} {ins outs : Transition σ α → List β} {s t : σ} {as : List α}
    (hstep : ∀ x ∈ trace step s as, f x.pre ++ ins x = outs x ++ f x.post) (hr : run step s as = some t) :
    f s ++ (trace step s as).flatMap ins = (trace step s as).flatMap outs ++ f t := by
  induction as generalizing s with
  | nil =>
    cases hr
    simp [trace]
  | cons a as ih =>
    obtain ⟨u, hu, hr⟩ := run_cons_some hr
    rw [trace_cons_some hu] at hstep ⊢
    obtain ⟨hfirst, hrest⟩ := List.forall_mem_cons.mp hstep
    rw [List.flatMap_cons, List.flatMap_cons, ← List.append_assoc, hfirst, List.append_assoc, ih hrest hr,
      List.append_assoc]

/-- The same for numbers. -/
theorem run_balances {f : σ → ℕ} {ins outs : Transition σ α → ℕ} {s t : σ} {as : List α}
    (hstep : ∀ x ∈ trace step s as, f x.pre + ins x = outs x + f x.post) (hr : run step s as = some t) :
    f s + ((trace step s as).map ins).sum = ((trace step s as).map outs).sum + f t := by
  induction as generalizing s with
  | nil =>
    cases hr
    simp [trace]
  | cons a as ih =>
    obtain ⟨u, hu, hr⟩ := run_cons_some hr
    rw [trace_cons_some hu] at hstep ⊢
    obtain ⟨hfirst, hrest⟩ := List.forall_mem_cons.mp hstep
    have htail := ih hrest hr
    simp only [List.map_cons, List.sum_cons] at hfirst htail ⊢
    omega

/-- A record that is kept beside a run whose actions meet `C`. -/
theorem run_accumulates {β : Type*} {R : σ → β → Prop} {C : α → Prop} {f : β → Transition σ α → β}
    (hstep : ∀ s b a t, R s b → C a → step s a = some t → R t (f b ⟨s, a, t⟩)) {s t : σ} {b : β} {as : List α}
    (hs : R s b) (hC : ∀ a ∈ as, C a) (hr : run step s as = some t) : R t ((trace step s as).foldl f b) := by
  induction as generalizing s b with
  | nil =>
    cases hr
    exact hs
  | cons a as ih =>
    obtain ⟨u, hu, hr⟩ := run_cons_some hr
    obtain ⟨ha, has⟩ := List.forall_mem_cons.mp hC
    rw [trace_cons_some hu, List.foldl_cons]
    exact ih (hstep s b a u hs ha hu) has hr

/-! ## Histories -/

/-- What the latest event says that says anything. -/
def latest {ε α : Type*} (f : ε → Option α) (events : List ε) : Option α := events.reverse.findSome? f

@[simp] theorem latest_nil {ε α : Type*} (f : ε → Option α) : latest f [] = none := rfl

theorem latest_append {ε α : Type*} (f : ε → Option α) (events : List ε) (e : ε) :
    latest f (events ++ [e]) = (f e).or (latest f events) := by
  rw [latest, List.reverse_append, List.reverse_singleton, List.singleton_append, List.findSome?_cons]
  cases f e with
  | none => rfl
  | some a => rfl

end PikoRT.Lib.Run

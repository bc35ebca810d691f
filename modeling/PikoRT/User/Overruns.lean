import PikoRT.User.Editing
import PikoRT.User.Splitting

/-! # The buffers of the shell (`user/sh.c`)

No loop compares an index with `BUF_LINE_LEN` or `ARG_COUNT_MAX`: a character that makes
the line as long as the buffer puts its NUL behind it, and every run of spaces in a line
takes one more place of `argv`. -/
namespace PikoRT.User.Overruns
open PikoRT.Libc.Printf (Byte ch)
open PikoRT.Lib.Fields PikoRT.Lib.LineEditor PikoRT.Lib.Run
open PikoRT.User.Shell PikoRT.User.Editing PikoRT.User.Splitting

/-- `readline` takes all bytes, and what it writes lies in `buf_line`. -/
def LineInside (fuel : ℕ) (exec : Exec) (s : State) (bytes : List Byte) : Prop :=
  ∃ s', run (readline fuel exec) s bytes = some s' ∧ ∀ i ∈ s'.written, 0 ≤ i ∧ i < BUF_LINE_LEN

/-- `parse_command_line` comes to its end, and what it writes lies in `argv`. -/
def ArgvInside (fuel : ℕ) (buf : Buf) (argv : ℕ → ℤ) : Prop :=
  ∃ r, parseCommandLine fuel buf argv = some r ∧ ∀ k ∈ r.written, k < ARG_COUNT_MAX

variable {s s' : State} {t : Typed} {c : Byte} {fuel : ℕ} {exec : Exec} {bytes line : List Byte} {buf : Buf}

/-! ## What is written stays noted -/

theorem cursorBackward_written (n : ℤ) (s : State) : (cursorBackward n s).written = s.written := by
  obtain ⟨output, h⟩ := cursorBackward_eq n s
  rw [h]

theorem echo_written {p : ℤ} (h : ((s.echo fuel p).map fun s => cursorBackward (s.curEol - s.cur) s) = some s') :
    s'.written = s.written := by
  rw [State.echo, Option.map_map, Option.map_eq_some_iff] at h
  obtain ⟨text, -, rfl⟩ := h
  exact cursorBackward_written ..

theorem delete_written (h : delete fuel s = some s') : s.written <:+ s'.written := by
  obtain ⟨buf, w, he, -⟩ := close_spec s
  rw [delete] at h
  split at h
  · rw [he] at h
    rw [echo_written h]
    simp only [State.write, cursorBackward_written, State.store]
    exact ⟨(s.curEol - 1) :: w, rfl⟩
  · cases h
    exact List.suffix_rfl

theorem insert_written (h : Shell.insert fuel c s = some s') : s.written <:+ s'.written := by
  obtain ⟨buf, w, he, -⟩ := gap_spec s
  simp only [Shell.insert, he] at h
  rw [echo_written h]
  exact ⟨(s.curEol + 1) :: s.cur :: w, rfl⟩

theorem submit_written (exec : Exec) (s : State) : (submit exec s).written = s.written := by
  by_cases h : (s.write TERM_CRLF).curEol > 0
  · simp only [submit, if_pos h]
    rfl
  · simp only [submit, if_neg h]
    rfl

theorem arrow_written (c : Byte) (s : State) : (arrow c s).written = s.written := by
  simp only [arrow]
  split_ifs <;> rfl

theorem readline_written (h : readline fuel exec s c = some s') : s.written <:+ s'.written := by
  cases hp : s.place with
  | first =>
    simp only [readline, hp] at h
    split_ifs at h with hcr hdel hprint hesc
    · cases h
      rw [submit_written]
    · exact delete_written h
    · exact insert_written h
    · cases h
      exact List.suffix_rfl
    · cases h
      exact List.suffix_rfl
  | escape =>
    simp only [readline, hp] at h
    cases h
    exact List.suffix_rfl
  | bracket =>
    simp only [readline, hp] at h
    cases h
    rw [arrow_written]

/-! ## The line -/

theorem length_press (t : Typed) (c : Byte) : (press t c).text.length ≤ t.text.length + 1 := by
  rw [press]
  cases (decode t.place c).2 with
  | none => exact Nat.le_succ _
  | some key => exact t.toSession.length_press key

/-- By induction on the bytes: the line agrees up to the byte that makes it too long, and what
this byte writes stays noted. -/
theorem lineInside_iff (exec : Exec) (h : Agree s t) (ht : t.text.length < BUF_LINE_LEN) (hf : BUF_LINE_LEN < fuel) :
    LineInside fuel exec s bytes ↔
      (∀ i ∈ s.written, 0 ≤ i ∧ i < BUF_LINE_LEN) ∧
        ∀ p, p <+: bytes → (p.foldl press t).text.length < BUF_LINE_LEN := by
  induction bytes generalizing s t with
  | nil =>
    constructor
    · intro ⟨s', hs, hin⟩
      cases hs
      refine ⟨hin, ?_⟩
      intro p hp
      rwa [List.prefix_nil.mp hp]
    · intro ⟨hin, _⟩
      exact ⟨s, rfl, hin⟩
  | cons c bytes ih =>
    have hlen := length_press t c
    have hfuel : (press t c).text.length < fuel := by omega
    obtain ⟨s₁, hs, ha, w, hw, hin, hend⟩ := readline_agrees exec h hfuel
    have hrun : LineInside fuel exec s (c :: bytes) ↔ LineInside fuel exec s₁ bytes := by
      rw [LineInside, run_cons, hs, Option.bind_some]
      rfl
    rw [hrun, forall_prefix_cons]
    by_cases hshort : (press t c).text.length < BUF_LINE_LEN
    · rw [ih ha hshort, hw]
      have hnew : ∀ i ∈ w, 0 ≤ i ∧ i < (BUF_LINE_LEN : ℤ) := by
        intro i hi
        have := hin i hi
        omega
      simp only [List.forall_mem_append]
      exact ⟨fun ⟨⟨_, hold⟩, hp⟩ => ⟨hold, ht, hp⟩, fun ⟨hold, _, hp⟩ => ⟨⟨hnew, hold⟩, hp⟩⟩
    · have hfull : (press t c).text.length = BUF_LINE_LEN := by omega
      have hmem : (BUF_LINE_LEN : ℤ) ∈ s₁.written := by
        rw [hw, ← hfull]
        exact List.mem_append_left _ (hend (by omega))
      constructor
      · intro ⟨s', hr, hall⟩
        have := run_invariant (I := fun s => (BUF_LINE_LEN : ℤ) ∈ s.written)
          (fun _ _ _ hm hstep => (readline_written hstep).mem hm) hr hmem
        exact absurd (hall _ this).2 (lt_irrefl _)
      · intro ⟨_, _, hp⟩
        exact absurd (hp [] List.nil_prefix) hshort

/-! ## The arguments -/

theorem argvInside_iff (argv : ℕ → ℤ) (h : TextAt buf 0 line) (hf : line.length < fuel) :
    ArgvInside fuel buf argv ↔ runs isSpace false line < ARG_COUNT_MAX := by
  obtain ⟨r, hr, hargc, -, -, hw⟩ := parseCommandLine_spec argv h hf
  rw [length_fields] at hargc
  have hall : (∀ k ∈ r.written, k < ARG_COUNT_MAX) ↔ runs isSpace false line < ARG_COUNT_MAX := by
    simp only [hw, List.mem_reverse, List.mem_range, hargc]
    constructor
    · intro h
      exact h _ (Nat.lt_succ_self _)
    · intro h k hk
      omega
  rw [← hall]
  constructor
  · intro ⟨r', hr', hin⟩
    rw [hr] at hr'
    obtain rfl := Option.some.inj hr'
    exact hin
  · intro hin
    exact ⟨r, hr, hin⟩

/-- For every sequence of bytes, and for every line in the buffer. -/
theorem stays_inside_iff (exec : Exec) (mem : Buf) (bytes : List Byte) (argv : ℕ → ℤ) (h : TextAt buf 0 line)
    (hf : BUF_LINE_LEN + line.length < fuel) :
    (LineInside fuel exec (minishell mem) bytes ↔ ∀ p, p <+: bytes → (typed p).text.length < BUF_LINE_LEN) ∧
      (ArgvInside fuel buf argv ↔ runs isSpace false line < ARG_COUNT_MAX) := by
  refine ⟨?_, argvInside_iff argv h (by omega)⟩
  rw [lineInside_iff exec (agree_minishell mem) (by decide) (by omega)]
  exact and_iff_right (by simp [minishell])

theorem stays_inside_shortLine :
    LineInside 256 noCommands (minishell fun _ => 0) (literal "ps -a") ∧
      ArgvInside 256 (memoryOf (literal "ps -a")) fun _ => 0 := by
  obtain ⟨hline, hargv⟩ := stays_inside_iff noCommands (fun _ => 0) (literal "ps -a") (fun _ => 0)
    (textAt_memoryOf (by decide : 0 ∉ literal "ps -a")) (by decide : BUF_LINE_LEN + _ < 256)
  have hshort : ∀ p ∈ (literal "ps -a").inits, (typed p).text.length < BUF_LINE_LEN := by decide +kernel
  exact ⟨hline.mpr fun p hp => hshort p ((List.mem_inits p _).mpr hp), hargv.mpr (by decide)⟩

/-- The 128th character without a return between, and the ninth word. -/
theorem long_line_overruns :
    ¬ LineInside 256 noCommands (minishell fun _ => 0) (List.replicate 128 (ch 'a')) ∧
      ¬ ArgvInside 256 (memoryOf (literal "a b c d e f g h i")) (fun _ => 0) := by
  rw [lineInside_iff noCommands (agree_minishell fun _ => 0) (by decide) (by decide),
    argvInside_iff (fun _ => 0) (textAt_memoryOf (by decide : 0 ∉ literal "a b c d e f g h i")) (by decide)]
  refine ⟨?_, by decide⟩
  intro ⟨_, h⟩
  exact absurd (h _ List.prefix_rfl) (by decide +kernel)

end PikoRT.User.Overruns

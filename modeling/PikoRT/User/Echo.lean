import PikoRT.Kernel.Printk
import PikoRT.User.Display

/-! # `echo` at the prompt (`user/echo.c`, `user/sh.c`)

The command prints through the console of the kernel, word by word, and the shell writes to
the same terminal. The arguments are the fields of the line: a blank at its end makes one
more, which is empty. -/
namespace PikoRT.User.Echo
open PikoRT.Kernel.Bitops (Word)
open PikoRT.Kernel.Printk (Console Linked crlf crlf_append crlf_of_notMem print_pieces)
open PikoRT.Libc.Printf (Byte ch Arg CString ofBytes ofBytes_text)
open PikoRT.Libc.PrintfPieces (Piece Clean rendered)
open PikoRT.Lib.Fields PikoRT.Lib.Run PikoRT.Lib.Terminal PikoRT.User.Shell PikoRT.User.Splitting PikoRT.User.Display
open PikoRT.User.Editing (typed)

/-- The argument for `%s`: a pointer into the line, and the string there. -/
def lineArg (base : Word) (p : ℤ) (text : List Byte) : Arg := ⟨base + BitVec.ofInt 32 p, ofBytes text⟩

/-- The `for` loop of `echo`, with `n` arguments to come from the `i`-th on. -/
def echoLoop (x : Linked) (base : Word) (fuel : ℕ) (a : Args) : ℕ → ℕ → Console → Option Console
  | 0, _, k => some k
  | n + 1, i, k =>
    (cstring fuel a.buf (a.argv i)).bind fun text =>
      (x.print fuel (if i = 1 then "%s" else " %s") [lineArg base (a.argv i) text] k).bind
        (echoLoop x base fuel a n (i + 1))

def echo (x : Linked) (base : Word) (fuel : ℕ) (a : Args) (k : Console) : Option Console :=
  if a.argc = 1 then some k
  else (echoLoop x base fuel a (a.argc - 1) 1 k).bind fun k => x.print fuel "\n" [] k

/-- The entry of the section, when `printk` has `mem` in its buffer. -/
def shellEcho (x : Linked) (base : Word) (fuel : ℕ) (mem : Word → Byte) : ShellCmd where
  name := ofBytes (literal "echo")
  func a := (a.buf, ((echo x base fuel a ⟨mem, 0, []⟩).map Console.sent).getD [])

/-- What surrounds the command: the other ones of the section, before it and behind it, what is on
the stack, and what the lines so far have left in the buffer of `printk`. -/
structure Around where
  before : List ShellCmd
  behind : List ShellCmd
  stack : ℕ → ℤ
  printkBuf : List Buf → Word → Byte

/-- `exec_command`, given the buffers of this call and of those before. -/
def exec (x : Linked) (base : Word) (fuel : ℕ) (o : Around) : Exec := fun bufs =>
  let buf := bufs.headD fun _ => 0
  (execCommand fuel (o.before ++ shellEcho x base fuel (o.printkBuf bufs) :: o.behind) o.stack buf).getD (buf, [])

/-! ## What should be seen -/

/-- The line has room in `argv`, and does not begin with the name of another command. -/
def Allowed (o : Around) (line : List Byte) : Prop :=
  (fields isSpace false line).length ≤ ARG_COUNT_MAX ∧
    ∀ cmd ∈ o.before ++ o.behind, cmd.name.text ≠ line.takeWhile fun c => !isSpace c

instance (o : Around) (line : List Byte) : Decidable (Allowed o line) := inferInstanceAs (Decidable (_ ∧ _))

/-- The row of the arguments, if there are any. -/
def echoed : List (List Byte) → List (List Byte)
  | [] => []
  | w :: ws => [[ch ' '].intercalate (w :: ws)]

/-- What the last line leaves on the screen. -/
def echoRows (lines : List (List Byte)) : List (List Byte) :=
  if ((lines.headD []).takeWhile fun c => !isSpace c) = literal "echo" then
    echoed (fields isSpace false (lines.headD [])).tail
  else unknown lines

variable {x : Linked} {base : Word} {fuel n i : ℕ} {a : Args} {k : Console} {text w line : List Byte}
    {ws : List (List Byte)}
  {o : Around} {mem : Word → Byte}

/-! ## What is printed -/

theorem noNul_of_textAt {buf : Buf} {p : ℤ} (h : TextAt buf p text) : 0 ∉ text := by
  induction text generalizing p with
  | nil => exact List.not_mem_nil
  | cons c text ih =>
    rw [List.mem_cons, not_or]
    exact ⟨Ne.symm h.1, ih h.2.2⟩

theorem print_str (x : Linked) (base : Word) (p : ℤ) (hno : 0 ∉ w) (hlen : w.length < 256) (hf : 256 ≤ fuel)
    (k : Console) :
    ∃ k', x.print fuel "%s" [lineArg base p w] k = some k' ∧ k'.sent = k.sent ++ crlf w := by
  have htext : (lineArg base p w).pointee.text = w := ofBytes_text hno
  have hr : rendered [.str (lineArg base p w)] = w := by simp [rendered, Piece.render, htext]
  obtain ⟨k', hk, hsent⟩ := @print_pieces [.str (lineArg base p w)] fuel "%s" _ x rfl rfl ⟨trivial, trivial⟩
    (by rw [hr]; exact hlen) hf k
  exact ⟨k', hk, by rw [hsent, hr]⟩

theorem print_blankStr (x : Linked) (base : Word) (p : ℤ) (hno : 0 ∉ w) (hlen : w.length < 255) (hf : 256 ≤ fuel)
    (k : Console) :
    ∃ k', x.print fuel " %s" [lineArg base p w] k = some k' ∧ k'.sent = k.sent ++ crlf (ch ' ' :: w) := by
  have htext : (lineArg base p w).pointee.text = w := ofBytes_text hno
  have hr : rendered [.ordinary (ch ' ') (by decide), .str (lineArg base p w)] = ch ' ' :: w := by
    simp [rendered, Piece.render, htext]
  obtain ⟨k', hk, hsent⟩ :=
    @print_pieces [.ordinary (ch ' ') (by decide), .str (lineArg base p w)] fuel " %s" _ x rfl rfl
    ⟨trivial, trivial, trivial⟩ (by rw [hr, List.length_cons]; omega) hf k
  exact ⟨k', hk, by rw [hsent, hr]⟩

theorem print_newline (x : Linked) (hf : 256 ≤ fuel) (k : Console) :
    ∃ k', x.print fuel "\n" [] k = some k' ∧ k'.sent = k.sent ++ TERM_CRLF :=
  @print_pieces [.ordinary (ch '\n') (by decide)] fuel "\n" _ x (by decide) rfl ⟨trivial, trivial⟩ (by decide) hf k

/-- A separator in front of every piece but the first one. -/
theorem intercalate_cons (sep w : List Byte) (ws : List (List Byte)) :
    sep.intercalate (w :: ws) = w ++ ws.flatMap fun v => sep ++ v := by
  induction ws generalizing w with
  | nil => simp
  | cons v ws ih => rw [List.intercalate_cons_cons, ih, List.flatMap_cons, List.append_assoc, List.append_assoc]

/-- The arguments behind the first one. -/
theorem echoLoop_spec (hws : List.Forall₂ (TextAt a.buf) ((List.range' i n).map a.argv) ws) (hi : 1 < i)
    (hlen : ∀ w ∈ ws, w.length < 255) (hf : 256 ≤ fuel) (k : Console) :
    ∃ k', echoLoop x base fuel a n i k = some k' ∧ k'.sent = k.sent ++ crlf (ws.flatMap fun v => [ch ' '] ++ v) := by
  induction n generalizing i ws k with
  | zero =>
    obtain rfl := List.forall₂_nil_left_iff.mp hws
    exact ⟨k, rfl, (List.append_nil _).symm⟩
  | succ n ih =>
    rw [List.range'_succ, List.map_cons] at hws
    obtain ⟨w, ws, hw, hrest, rfl⟩ := List.forall₂_cons_left_iff.mp hws
    obtain ⟨hwlen, hlen⟩ := List.forall_mem_cons.mp hlen
    obtain ⟨k₁, hk₁, hsent₁⟩ := print_blankStr x base (a.argv i) (noNul_of_textAt hw) hwlen hf k
    obtain ⟨k', hk', hsent'⟩ := ih hrest (by omega) hlen k₁
    refine ⟨k', ?_, ?_⟩
    · rw [echoLoop, cstring_eq hw (by omega), Option.bind_some, if_neg (by omega), hk₁, Option.bind_some, hk']
    · rw [hsent', hsent₁, List.append_assoc, ← crlf_append, List.flatMap_cons]
      rfl

theorem echo_spec (hfields : List.Forall₂ (TextAt a.buf) ((List.range a.argc).map a.argv) (w :: ws))
    (hlen : ∀ w ∈ ws, w.length < 255) (hf : 256 ≤ fuel) (k : Console) :
    ∃ k', echo x base fuel a k = some k' ∧ k'.sent = k.sent ++ (echoed ws).flatMap fun row =>
    crlf row ++ TERM_CRLF := by
  have hargc : a.argc = ws.length + 1 := by simpa using hfields.length_eq
  rw [hargc, List.range_eq_range', List.range'_succ, List.map_cons] at hfields
  have hrest := (List.forall₂_cons.mp hfields).2
  cases ws with
  | nil =>
    refine ⟨k, ?_, (List.append_nil _).symm⟩
    rw [echo, if_pos (by simpa using hargc)]
  | cons v ws =>
    rw [List.length_cons, List.range'_succ, List.map_cons] at hrest
    obtain ⟨hv, hws⟩ := List.forall₂_cons.mp hrest
    obtain ⟨hvlen, hlen⟩ := List.forall_mem_cons.mp hlen
    obtain ⟨k₁, hk₁, hsent₁⟩ := print_str x base (a.argv 1) (noNul_of_textAt hv) (by omega) hf k
    obtain ⟨k₂, hk₂, hsent₂⟩ := @echoLoop_spec x base fuel _ _ a _ hws (by omega) hlen hf k₁
    obtain ⟨k₃, hk₃, hsent₃⟩ := print_newline x hf k₂
    refine ⟨k₃, ?_, ?_⟩
    · rw [echo, if_neg (by rw [hargc, List.length_cons]; omega), hargc, Nat.add_sub_cancel, List.length_cons, echoLoop,
        cstring_eq hv (by omega), Option.bind_some, if_pos rfl, hk₁, Option.bind_some, hk₂, Option.bind_some, hk₃]
    · rw [hsent₃, hsent₂, hsent₁, echoed, List.flatMap_singleton, intercalate_cons, crlf_append]
      simp only [List.append_assoc]

/-! ## At the prompt -/

/-- The arguments of a line that can be typed in. -/
theorem plain_of_mem_fields (hplain : Plain line) (hw : w ∈ fields isSpace false line) : Plain w := by
  have hsub := sublist_of_mem_fields isSpace hw
  exact ⟨fun c hc => hplain.1 c (hsub.subset hc), hsub.length_le.trans hplain.2⟩

theorem printable_echoed (hws : ∀ w ∈ ws, Plain w) {row : List Byte} (hrow : row ∈ echoed ws) :
    ∀ c ∈ row, Printable c := by
  cases ws with
  | nil => cases hrow
  | cons w ws =>
    obtain rfl := List.mem_singleton.mp hrow
    obtain ⟨hw, hws⟩ := List.forall_mem_cons.mp hws
    intro c hc
    rw [intercalate_cons] at hc
    rcases List.mem_append.mp hc with hc | hc
    · exact hw.1 c hc
    · obtain ⟨v, hv, hc⟩ := List.mem_flatMap.mp hc
      rcases List.mem_cons.mp hc with rfl | hc
      · decide
      · exact (hws v hv).1 c hc

theorem printable_unknown (hplain : Plain line) {lines : List (List Byte)} {row : List Byte}
    (hrow : row ∈ unknown (line :: lines)) :
    ∀ c ∈ row, Printable c := by
  intro c hc
  obtain rfl := List.mem_singleton.mp hrow
  rcases List.mem_append.mp hc with hc | hc
  · have hall : ∀ c ∈ TERM_CMD_NOT_FOUND, Printable c := by decide
    exact hall c hc
  · exact hplain.1 c ((List.takeWhile_prefix _).subset hc)

/-- Rows that can be shown have no newlines in them. -/
theorem sent_rows {rows : List (List Byte)} (hrows : ∀ row ∈ rows, ∀ c ∈ row, Printable c) :
    (rows.flatMap fun row => crlf row ++ TERM_CRLF) = Screen.printed rows := by
  refine List.flatMap_congr fun row hrow => ?_
  rw [crlf_of_notMem fun hn => absurd (hrows row hrow _ hn) (by decide)]
  rfl

theorem find?_commands (hallowed : Allowed o line) (mem : Word → Byte) :
    ((o.before ++ shellEcho x base fuel mem :: o.behind).find? fun cmd => cmd.name.text = line.takeWhile fun c =>
      !isSpace c) =
      if (line.takeWhile fun c => !isSpace c) = literal "echo" then some (shellEcho x base fuel mem) else none := by
  have hname : (shellEcho x base fuel mem).name.text = literal "echo" := ofBytes_text (by decide)
  have hothers : ∀ cmd ∈ o.before ++ o.behind, ¬ decide (cmd.name.text = line.takeWhile fun c => !isSpace c) = true :=
    fun cmd hcmd => by simpa using hallowed.2 cmd hcmd
  have hbefore := List.find?_eq_none.mpr fun cmd hcmd => hothers cmd (List.mem_append_left _ hcmd)
  have hbehind := List.find?_eq_none.mpr fun cmd hcmd => hothers cmd (List.mem_append_right _ hcmd)
  rw [List.find?_append, hbefore, Option.none_or, List.find?_cons, hname, hbehind]
  by_cases h : (line.takeWhile fun c => !isSpace c) = literal "echo"
  · rw [if_pos h, h]
    simp
  · rw [if_neg h, decide_eq_false (Ne.symm h)]

theorem exec_spec (hf : 256 ≤ fuel) {buf : Buf} (bufs : List Buf) (lines : List (List Byte))
    (htext : TextAt buf 0 line)
    (hplain : Plain line) (hallowed : Allowed o line) :
    (exec x base fuel o (buf :: bufs)).2 = Screen.printed (echoRows (line :: lines)) := by
  have hlen : line.length < fuel := by
    have := hplain.2
    omega
  obtain ⟨r, hparse, hexec⟩ :=
    execCommand_spec (o.before ++ shellEcho x base fuel (o.printkBuf (buf :: bufs)) :: o.behind)
    o.stack htext hlen
  rw [find?_commands hallowed] at hexec
  simp only [exec, List.headD_cons, hexec]
  by_cases hecho : (line.takeWhile fun c => !isSpace c) = literal "echo"
  · obtain ⟨r', hparse', -, hfields, -, -⟩ := parseCommandLine_spec o.stack htext hlen
    obtain rfl := Option.some.inj (hparse.symm.trans hparse')
    obtain ⟨f, fs, hsplit⟩ := List.exists_cons_of_ne_nil (fields_ne_nil isSpace false line)
    have hfs : ∀ w ∈ fs, Plain w := fun w hw => plain_of_mem_fields hplain (hsplit ▸ List.mem_cons_of_mem _ hw)
    rw [hsplit] at hfields
    obtain ⟨k', hk, hsent⟩ := @echo_spec x base fuel _ _ _ hfields
      (fun w hw => Nat.lt_of_le_of_lt (hfs w hw).2 (by norm_num)) hf ⟨o.printkBuf (buf :: bufs), 0, []⟩
    rw [List.nil_append, sent_rows fun row hrow => printable_echoed hfs hrow] at hsent
    simp only [if_pos hecho, Option.getD_some, shellEcho, hk, Option.map_some, hsent, echoRows, List.headD_cons,
      hsplit,
      List.tail_cons]
  · have hrows : echoRows (line :: lines) = unknown (line :: lines) := if_neg hecho
    rw [if_neg hecho, hrows, Option.getD_some, unknown, Screen.printed, List.flatMap_singleton]
    rfl

theorem prints_exec (hf : 256 ≤ fuel) (o : Around) : Prints (Allowed o) (exec x base fuel o) echoRows := by
  constructor
  · intro buf bufs line lines htext hplain
    obtain ⟨⟨hp, ha⟩, -⟩ := List.forall_mem_cons.mp hplain
    exact exec_spec hf bufs lines (List.forall₂_cons.mp htext).1 hp ha
  · intro line lines hplain row hrow
    obtain ⟨⟨hp, -⟩, -⟩ := List.forall_mem_cons.mp hplain
    unfold echoRows at hrow
    rw [List.headD_cons] at hrow
    split at hrow
    · exact printable_echoed (fun w hw => plain_of_mem_fields hp (List.mem_of_mem_tail hw)) hrow
    · exact printable_unknown hp hrow

/-- **Words that are typed in behind `echo` come out below.** After every sequence of bytes without
unknown escape sequences, as long as the line never gets longer than 126 characters, no submitted
line has more than 8 arguments and none is for another command, the terminal shows below every
submitted line what it should: its arguments in one row, with one blank between them, when it begins
with `echo`, and that there is no such command otherwise. -/
theorem echo_session_right (x : Linked) (base : Word) (fuel : ℕ) (hf : 256 ≤ fuel) (o : Around) (mem : Buf)
    (bytes : List Byte)
    (hb : ∀ p, p <+: bytes → (typed p).text.length ≤ 126 ∧ ∀ line ∈ (typed p).lines, Allowed o line)
    (hh : ∀ p c, p ++ [c] <+: bytes → Handled (typed p) c) :
    ∃ s, run (readlineTty fuel (exec x base fuel o)) (minishell mem) bytes = some s ∧
      Screen.blank.feed s.output = (shown echoRows bytes).screen := by
  have hbuf : BUF_LINE_LEN ≤ 256 := by decide
  obtain ⟨s, hs, h⟩ := run_displays (prints_exec hf o) (displays_minishell mem) hb hh (hbuf.trans hf)
  exact ⟨s, hs, h.screen⟩

/-- The section of the program; what the other commands do is left open. -/
def builtinCmds (func : Args → Buf × List Byte) : Around where
  before := [⟨ofBytes (literal "cat"), func⟩]
  behind := ["exit", "halt", "ls", "reboot"].map fun name => ⟨ofBytes (literal name), func⟩
  stack := fun _ => 0
  printkBuf := fun _ _ => ch 'x'

/-- A line for `echo`, an unknown one, and one that is not submitted yet. -/
def threeLines : List Byte :=
  literal "echo  hello w" ++ ASCII_CARRIAGE_RETURN :: literal "ho" ++ ASCII_CARRIAGE_RETURN :: literal "ec"

theorem echo_session_right_threeLines : ∃ s,
    run (readlineTty 256
    (exec ⟨fun _ _ => 0, fun _ => 0, fun _ _ => ⟨0, ofBytes []⟩⟩ 0x20000100 256 (builtinCmds fun a => (a.buf, []))))
      (minishell fun _ => 0) threeLines = some s ∧
    Screen.blank.feed s.output =
      ⟨.ground, [literal "$ echo  hello w", literal "hello w", literal "$ ho", literal "command not found: ho"],
        literal "$ ec", 4⟩ := by
  have hinits : ∀ p ∈ threeLines.inits, (typed p).place = .first ∧ (typed p).text.length ≤ 126 ∧
      ∀ line ∈ (typed p).lines, line ∈ [literal "echo  hello w", literal "ho"] := by decide +kernel
  have hinit : ∀ {p}, p <+: threeLines → p ∈ threeLines.inits := fun hp => (List.mem_inits _ threeLines).mpr hp
  obtain ⟨s, hs, hscreen⟩ :=
    echo_session_right ⟨fun _ _ => 0, fun _ => 0, fun _ _ => ⟨0, ofBytes []⟩⟩ 0x20000100 256 le_rfl
    (builtinCmds fun a => (a.buf, [])) (fun _ => 0) threeLines
    (fun p hp => by
      obtain ⟨-, hlen, hlines⟩ := hinits p (hinit hp)
      refine ⟨hlen, fun line hl => ?_⟩
      have hall : ∀ line ∈ [literal "echo  hello w", literal "ho"],
          Allowed (builtinCmds fun a => (a.buf, [])) line := by
        decide +kernel
      exact hall line (hlines line hl))
    fun p c hp hplace => by
      rw [(hinits p (hinit ((List.prefix_append p [c]).trans hp))).1] at hplace
      cases hplace
  exact ⟨s, hs, hscreen.trans (by decide +kernel)⟩

end PikoRT.User.Echo

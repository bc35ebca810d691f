import PikoRT.Lib.Terminal
import PikoRT.Libc.PrintfPieces
import PikoRT.User.Editing
import PikoRT.User.Splitting

/-! # The line on the screen (`user/sh.c`)

What `readline` writes moves the cursor only by steps within the row. On a terminal it
comes out as the line that is edited, behind the prompt, and below what was printed before. -/
namespace PikoRT.User.Display
open PikoRT.Kernel.Bitops (Word)
open PikoRT.Libc.Printf (Byte ch itoaBase)
open PikoRT.Lib.LineEditor PikoRT.Lib.Run PikoRT.Lib.Terminal PikoRT.User.Shell
open PikoRT.User.Editing (Typed Agree decode typed run_agrees readline_agrees agree_minishell)

/-- The report about an escape sequence that is not known. -/
def UNHANDLED : List Byte := literal "Unhandled escape sequence!" ++ TERM_CRLF

/-- `readline`, with its report to the console of the kernel, which is on the same terminal. -/
def readlineTty (fuel : ℕ) (exec : Exec) (s : State) (c : Byte) : Option State :=
  (readline fuel exec s c).map fun t =>
    if s.place = .bracket ∧ c ≠ ch 'C' ∧ c ≠ ch 'D' then t.write UNHANDLED else t

/-! ## What should be seen -/

/-- The text that is edited, and the rows above it. -/
structure Shown extends Typed where
  above : List (List Byte)

/-- The rows that a submitted line leaves. What a command prints depends on the lines so far. -/
def entered (rows : List (List Byte) → List (List Byte)) (t : Typed) : List (List Byte) :=
  [TERM_PROMPT ++ t.text] ++ if t.text = [] then [] else rows (t.text :: t.lines)

def press (rows : List (List Byte) → List (List Byte)) (x : Shown) (c : Byte) : Shown :=
  ⟨Editing.press x.toTyped c,
    match (decode x.place c).2 with
    | some .submit => x.above ++ entered rows x.toTyped
    | _ => x.above⟩

def shown (rows : List (List Byte) → List (List Byte)) (bytes : List Byte) : Shown :=
  bytes.foldl (press rows) ⟨⟨Session.empty, .first⟩, []⟩

/-- The prompt and the line in the last row, with the cursor in the line. -/
def Shown.screen (x : Shown) : Screen :=
  ⟨.ground, x.above, TERM_PROMPT ++ x.text, TERM_PROMPT.length + x.cursor⟩

/-- What can be typed in, and fits. -/
def Plain (line : List Byte) : Prop := (∀ c ∈ line, Printable c) ∧ line.length ≤ 126

/-- The byte does not end an escape sequence that is not known. -/
def Handled (t : Typed) (c : Byte) : Prop := t.place = .bracket → c = ch 'C' ∨ c = ch 'D'

/-- A command prints rows, which depend on the lines that were submitted, the last one first. Of
lines that are not `allowed` nothing is said. -/
structure Prints (allowed : List Byte → Prop) (exec : Exec) (rows : List (List Byte) → List (List Byte)) : Prop where
  output : ∀ buf bufs line lines, List.Forall₂ (fun buf line => TextAt buf 0 line) (buf :: bufs) (line :: lines) →
    (∀ l ∈ line :: lines, Plain l ∧ allowed l) → (exec (buf :: bufs)).2 = Screen.printed (rows (line :: lines))
  printable : ∀ line lines, (∀ l ∈ line :: lines, Plain l ∧ allowed l) →
    ∀ row ∈ rows (line :: lines), ∀ c ∈ row, Printable c

/-- The terminal shows what it should. -/
structure Displays (allowed : List Byte → Prop) (s : State) (x : Shown) : Prop where
  agree : Agree s x.toTyped
  text : Plain x.text
  lines : ∀ line ∈ x.lines, Plain line ∧ allowed line
  screen : Screen.blank.feed s.output = x.screen

variable {allowed : List Byte → Prop} {s s' : State} {x : Shown} {c : Byte} {fuel : ℕ} {exec : Exec}
    {bytes text u : List Byte}
  {above : List (List Byte)} {rows : List (List Byte) → List (List Byte)} {n : ℕ}

/-! ## What is written -/

/-- What `cursor_backward` writes. -/
def backward (n : ℤ) : List Byte :=
  if 0 < n then ASCII_ESCAPE :: ch '[' :: itoaBase (BitVec.ofInt 32 n) 10 ++ [ch 'D'] else []

theorem cursorBackward_write (n : ℤ) (s : State) : cursorBackward n s = s.write (backward n) := by
  unfold cursorBackward backward
  split
  · rfl
  · exact (congrArg (fun output => ({ s with output := output } : State)) (List.append_nil s.output)).symm

theorem echo_write {v : State} {p : ℤ}
    (h : ((v.echo fuel p).map fun s => cursorBackward (s.curEol - s.cur) s) = some s') :
    ∃ text, cstring fuel v.bufLine p = some text ∧ s' = (v.write text).write (backward (v.curEol - v.cur)) := by
  obtain ⟨w, hw, rfl⟩ := Option.map_eq_some_iff.mp h
  obtain ⟨text, htext, rfl⟩ := Option.map_eq_some_iff.mp hw
  exact ⟨text, htext, cursorBackward_write _ _⟩

/-- From the new character on the line is written, and the cursor goes back behind the character. -/
theorem insert_write (h : Shell.insert fuel c s = some s') :
    ∃ text, cstring fuel s'.bufLine (s'.cur - 1) = some text ∧
      s'.output = s.output ++ text ++ backward (s'.curEol - s'.cur) := by
  obtain ⟨buf, w, he, -, -, -⟩ := Editing.gap_spec s
  simp only [Shell.insert, he] at h
  obtain ⟨text, htext, rfl⟩ := echo_write h
  exact ⟨text, htext, rfl⟩

/-- The cursor goes to the left, and the rest of the line is written anew. -/
theorem delete_write (hpos : s.cur > 0) (h : delete fuel s = some s') :
    ∃ text, cstring fuel s'.bufLine s'.cur = some text ∧
      s'.output = s.output ++ backward 1 ++ ESC_SEQ_ERASE_LINE ++ text ++ backward (s'.curEol - s'.cur) := by
  obtain ⟨buf, w, he, -, -, -⟩ := Editing.close_spec s
  rw [delete, if_pos hpos, he] at h
  simp only [cursorBackward_write 1] at h
  obtain ⟨text, htext, rfl⟩ := echo_write h
  exact ⟨text, htext, rfl⟩

/-! ## What comes out -/

theorem feed_backward {row : List Byte} {column : ℕ} (hn : n < 2 ^ 31) :
    (⟨.ground, above, row, column⟩ : Screen).feed (backward n) = ⟨.ground, above, row, column - n⟩ := by
  rcases Nat.eq_zero_or_pos n with rfl | hpos
  · rfl
  · have hval : (BitVec.ofInt 32 (n : ℤ)).toInt = n := by
      rw [BitVec.toInt_ofInt]
      exact Int.bmod_eq_of_le (by omega) (by omega)
    have hdigits : itoaBase (BitVec.ofInt 32 (n : ℤ)) 10 = (Nat.toDigits 10 n).map code := by
      rw [Libc.PrintfPieces.itoaBase_ten, Libc.PrintfPieces.decimal, hval, if_neg (by omega), Int.natAbs_natCast]
      rfl
    rw [backward, if_pos (by omega), hdigits]
    exact Screen.feed_left hpos

theorem feed_backward_one {row : List Byte} {column : ℕ} :
    (⟨.ground, above, row, column⟩ : Screen).feed (backward 1) = ⟨.ground, above, row, column - 1⟩ :=
  feed_backward (n := 1) (by norm_num)

theorem feed_eraseLine {row : List Byte} {column : ℕ} :
    (⟨.ground, above, row, column⟩ : Screen).feed ESC_SEQ_ERASE_LINE = ⟨.ground, above, row.take column, column⟩ :=
  Screen.feed_erase

/-- The rest of a line is written over the one that was there, up to which both are the same. -/
theorem feed_rest (hu : ∀ c ∈ u, Printable c) (hn : n ≤ text.length) (hlen : text.length ≤ u.length)
    (hsame : u.take n = text.take n) :
    (⟨.ground, above, TERM_PROMPT ++ text, TERM_PROMPT.length + n⟩ : Screen).feed (u.drop n) =
      ⟨.ground, above, TERM_PROMPT ++ u, TERM_PROMPT.length + u.length⟩ := by
  have hrest : n + (u.drop n).length = u.length := by
    rw [List.length_drop]
    omega
  have htext : TERM_PROMPT ++ text.take n ++ u.drop n = TERM_PROMPT ++ u := by
    rw [← hsame, List.append_assoc, List.take_append_drop]
  rw [Screen.feed_text (fun c hc => hu c (List.mem_of_mem_drop hc)) (by rw [List.length_append]; omega), add_assoc,
    hrest,
    List.take_length_add_append, htext, List.drop_eq_nil_of_le (by rw [List.length_append]; omega), List.append_nil]

theorem Displays.write {w : List Byte} (h : Displays allowed s x) (hs : s'.output = s.output ++ w) :
    Screen.blank.feed s'.output = x.screen.feed w := by
  rw [hs, Screen.feed_append, h.screen]

/-! ## One byte -/

theorem insert_displays {t : Typed} (h : Displays allowed s x) (hc : Printable c)
    (hs : Shell.insert fuel c s = some s')
    (ha : Agree s' t) (ht : t.toSession = x.toSession.press (.insert c)) (hfuel : t.text.length < fuel)
    (hlen : t.text.length ≤ 126) : Displays allowed s' ⟨t, x.above⟩ := by
  obtain ⟨w, hw, hout⟩ := insert_write hs
  have htext : t.text = x.text.insertIdx x.cursor c := congrArg (fun e : Session Byte => e.text) ht
  have hcursor : t.cursor = x.cursor + 1 := congrArg (fun e : Session Byte => e.cursor) ht
  have hlines : t.lines = x.lines := (congrArg Session.lines ht).trans rfl
  have hgrows : t.text.length = x.text.length + 1 := by
    rw [htext]
    exact x.toEditor.length_insert c
  have hprint : ∀ d ∈ t.text, Printable d := by
    intro d hd
    rw [htext] at hd
    rcases Editor.mem_insert hd with rfl | hd
    · exact hc
    · exact h.text.1 d hd
  have hin := x.inside
  have hne : t.text ≠ [] := List.ne_nil_of_length_eq_add_one hgrows
  have hdrop := (ha.text hne).drop (k := x.cursor) (by omega)
  have hp : (0 : ℤ) + x.cursor = s'.cur - 1 := by
    rw [ha.cur, hcursor]
    omega
  rw [hp] at hdrop
  have hw' := cstring_eq hdrop (Nat.lt_of_le_of_lt (List.drop_suffix ..).length_le hfuel)
  obtain rfl := Option.some.inj (hw.symm.trans hw')
  have hback : s'.curEol - s'.cur = (t.text.length - (x.cursor + 1) : ℕ) := by
    rw [ha.curEol, ha.cur, hcursor]
    omega
  refine ⟨ha, ⟨hprint, hlen⟩, fun line hl => h.lines line (hlines ▸ hl), ?_⟩
  rw [hback, List.append_assoc] at hout
  rw [h.write hout, Screen.feed_append, Shown.screen,
    feed_rest hprint hin (by omega) (by rw [htext, List.take_insertIdx_eq_take_of_le _ _ _ _ le_rfl]),
    feed_backward (by omega)]
  simp only [Shown.screen, hcursor, Screen.mk.injEq, true_and]
  omega

theorem delete_displays {t : Typed} (h : Displays allowed s x) (hpos : 0 < x.cursor) (hs : delete fuel s = some s')
    (ha : Agree s' t)
    (ht : t.toSession = x.toSession.press .erase) (hfuel : t.text.length < fuel) (hlen : t.text.length ≤ 126) :
    Displays allowed s' ⟨t, x.above⟩ := by
  have hcur : s.cur > 0 := by
    rw [h.agree.cur]
    exact_mod_cast hpos
  obtain ⟨w, hw, hout⟩ := delete_write hcur hs
  have herase : x.toEditor.erase = ⟨x.text.eraseIdx (x.cursor - 1), x.cursor - 1, x.toEditor.erase_inside⟩ :=
    if_pos hpos
  have htext : t.text = x.toEditor.erase.text := congrArg (fun e : Session Byte => e.text) ht
  have hcursor : t.cursor = x.cursor - 1 :=
    (congrArg (fun e : Session Byte => e.cursor) ht).trans (congrArg Editor.cursor herase)
  have hlines : t.lines = x.lines := (congrArg Session.lines ht).trans rfl
  have hshrinks : t.text.length + 1 = x.text.length := by
    rw [htext]
    exact x.toEditor.length_erase hpos
  have hprint : ∀ d ∈ t.text, Printable d := fun d hd => h.text.1 d (Editor.mem_erase (htext ▸ hd))
  have hin := x.inside
  have hat : TextAt s'.bufLine 0 t.text := by
    obtain ⟨buf, ws, output, he, hat, -⟩ := Editing.delete_spec h.agree hpos (htext ▸ hfuel)
    obtain rfl := Option.some.inj (he.symm.trans hs)
    exact htext.symm ▸ hat
  have hdrop := hat.drop (k := t.cursor) (by omega)
  rw [zero_add, ← ha.cur] at hdrop
  have hw' := cstring_eq hdrop (Nat.lt_of_le_of_lt (List.drop_suffix ..).length_le hfuel)
  obtain rfl := Option.some.inj (hw.symm.trans hw')
  have hback : s'.curEol - s'.cur = (t.text.length - t.cursor : ℕ) := by
    have := t.inside
    rw [ha.curEol, ha.cur]
    omega
  have hsame : t.text.take t.cursor = (x.text.take t.cursor).take t.cursor := by
    rw [htext, herase, hcursor, List.take_take, min_self]
    exact List.take_eraseIdx_eq_take_of_le _ _ _ le_rfl
  have hcolumn : TERM_PROMPT.length + x.cursor - 1 = TERM_PROMPT.length + t.cursor := by omega
  have htake : (x.text.take t.cursor).length = t.cursor := List.length_take_of_le (by omega)
  refine ⟨ha, ⟨hprint, hlen⟩, fun line hl => h.lines line (hlines ▸ hl), ?_⟩
  rw [hback, List.append_assoc, List.append_assoc, List.append_assoc] at hout
  -- to the left, clear the row, the rest of the line, and back
  rw [h.write hout, Screen.feed_append, Shown.screen, feed_backward_one, hcolumn, Screen.feed_append, feed_eraseLine,
    List.take_length_add_append, Screen.feed_append, feed_rest hprint (by omega) (by omega) hsame,
    feed_backward (by omega)]
  have := t.inside
  simp only [Shown.screen, Screen.mk.injEq, true_and]
  omega

theorem feed_prompt :
    (⟨.ground, above, [], 0⟩ : Screen).feed TERM_PROMPT = ⟨.ground, above, TERM_PROMPT, TERM_PROMPT.length⟩ :=
  Screen.feed_text (by decide) (Nat.zero_le _)

theorem feed_crlf (x : Shown) : x.screen.feed TERM_CRLF = ⟨.ground, x.above ++ [TERM_PROMPT ++ x.text], [], 0⟩ :=
  Screen.feed_newline rfl

/-- The line stays above, with what the command prints, and a new prompt comes. -/
theorem submit_displays (hx : Prints allowed exec rows) (h : Displays allowed s x) (hp : x.place = .first)
    (hallow : x.text ≠ [] → allowed x.text) :
    Displays allowed (submit exec s) ⟨⟨x.toSession.submit, .first⟩, x.above ++ entered rows x.toTyped⟩ := by
  have ha : Agree (submit exec s) _ := (Editing.submit_agrees h.agree hp).1
  by_cases ht : x.text = []
  · have hzero : ¬ (s.write TERM_CRLF).curEol > 0 := by
      rw [State.write, h.agree.curEol, ht]
      simp
    have hs : x.toSession.submit = x.toSession := if_pos ht
    have hout : (submit exec s).output = s.output ++ (TERM_CRLF ++ TERM_PROMPT) := by
      simp only [submit, if_neg hzero]
      simp only [State.write, List.append_assoc]
    refine ⟨ha, ?_, ?_, ?_⟩
    · simp only [hs]
      exact h.text
    · simp only [hs]
      exact h.lines
    · have hcursor : x.cursor = 0 := Nat.le_zero.mp (by simpa [ht] using x.inside)
      rw [h.write hout, Screen.feed_append, feed_crlf, feed_prompt]
      simp [Shown.screen, entered, hs, ht, hcursor]
  · have hpos : (s.write TERM_CRLF).curEol > 0 := by
      rw [State.write, h.agree.curEol]
      exact Int.natCast_pos.mpr (List.length_pos_of_ne_nil ht)
    have hs : x.toSession.submit = ⟨Editor.empty, x.text :: x.lines⟩ := if_neg ht
    have hplain : ∀ l ∈ x.text :: x.lines, Plain l ∧ allowed l :=
      List.forall_mem_cons.mpr ⟨⟨h.text, hallow ht⟩, h.lines⟩
    have hexec := hx.output _ _ _ _ (.cons (h.agree.text ht) h.agree.executed) hplain
    have hout :
        (submit exec s).output = s.output ++
          (TERM_CRLF ++ (Screen.printed (rows (x.text :: x.lines)) ++ TERM_PROMPT)) := by
      simp only [submit, if_pos hpos]
      simp only [State.write, hexec, List.append_assoc]
    refine ⟨ha, ?_, ?_, ?_⟩
    · simp only [hs]
      exact ⟨List.forall_mem_nil _, Nat.zero_le _⟩
    · simp only [hs]
      exact hplain
    · rw [h.write hout, Screen.feed_append, feed_crlf, Screen.feed_append,
        Screen.feed_printed (hx.printable _ _ hplain),
        feed_prompt]
      simp [Shown.screen, entered, hs, ht, Editor.empty]

/-- Only the cursor moves. -/
theorem Displays.moved {t : Typed} {w : List Byte} (h : Displays allowed s x) (ha : Agree s' t)
    (htext : t.text = x.text)
    (hlines : t.lines = x.lines) (hs : s'.output = s.output ++ w)
    (hw : x.screen.feed w = ⟨.ground, x.above, TERM_PROMPT ++ x.text, TERM_PROMPT.length + t.cursor⟩) :
    Displays allowed s' ⟨t, x.above⟩ := by
  refine ⟨ha, ?_, ?_, ?_⟩
  · show Plain t.text
    exact htext ▸ h.text
  · show ∀ line ∈ t.lines, Plain line ∧ allowed line
    exact hlines ▸ h.lines
  · rw [h.write hs, hw, ← htext]
    rfl

theorem Displays.stays {t : Typed} (h : Displays allowed s x) (ha : Agree s' t) (ht : t.toSession = x.toSession)
    (hs : s'.output = s.output) : Displays allowed s' ⟨t, x.above⟩ := by
  refine h.moved (w := []) ha (congrArg (fun e : Session Byte => e.text) ht) (congrArg Session.lines ht)
    (hs.trans (List.append_nil _).symm) ?_
  rw [congrArg (fun e : Session Byte => e.cursor) ht]
  rfl

theorem arrow_displays (h : Displays allowed s x) (hp : x.place = .bracket) :
    Displays allowed (arrow c { s with place := .first }) ⟨Editing.press x.toTyped c, x.above⟩ := by
  have hx : ({ x.toTyped with place := .bracket } : Typed) = x.toTyped := by
    rw [← hp]
  have ha := (Editing.arrow_agrees (c := c) h.agree).1
  rw [hx] at ha
  have hin := x.inside
  have hcur := h.agree.cur
  have heol := h.agree.curEol
  by_cases hright : c = ch 'C'
  · have htyped : Editing.press x.toTyped c = ⟨⟨x.toEditor.right, x.lines⟩, .first⟩ := by
      simp only [Editing.press, decode, hp, if_pos hright]
      rfl
    rw [htyped] at ha ⊢
    by_cases hlt : s.cur < s.curEol
    · have hmin : min (x.cursor + 1) x.text.length = x.cursor + 1 := by omega
      have hout : (arrow c { s with place := .first }).output = s.output ++ (ASCII_ESCAPE :: literal "[C") := by
        simp only [arrow, if_pos hright, if_pos hlt, State.write]
      refine h.moved ha rfl rfl hout ?_
      simp only [Editor.right, hmin]
      exact Screen.feed_right_one
    · have hmin : min (x.cursor + 1) x.text.length = x.cursor := by omega
      refine h.moved (w := []) ha rfl rfl ?_ ?_
      · simp only [arrow, if_pos hright, if_neg hlt, List.append_nil]
      · simp only [Editor.right, hmin]
        rfl
  · by_cases hleft : c = ch 'D'
    · have htyped : Editing.press x.toTyped c = ⟨⟨x.toEditor.left, x.lines⟩, .first⟩ := by
        simp only [Editing.press, decode, hp, if_neg hright, if_pos hleft]
        rfl
      rw [htyped] at ha ⊢
      by_cases hpos : s.cur > 0
      · have hout : (arrow c { s with place := .first }).output = s.output ++ (ASCII_ESCAPE :: literal "[D") := by
          simp only [arrow, if_neg hright, if_pos hleft, if_pos hpos, State.write]
        refine h.moved ha rfl rfl hout ?_
        have hcolumn : TERM_PROMPT.length + x.cursor - 1 = TERM_PROMPT.length + (x.cursor - 1) := by omega
        simp only [Editor.left, ← hcolumn]
        exact Screen.feed_left_one
      · have hzero : x.cursor - 1 = x.cursor := by omega
        refine h.moved (w := []) ha rfl rfl ?_ ?_
        · simp only [arrow, if_neg hright, if_pos hleft, if_neg hpos, List.append_nil]
        · simp only [Editor.left, hzero]
          rfl
    · refine h.stays ha ?_ ?_
      · simp only [Editing.press, decode, hp, if_neg hright, if_neg hleft]
        rfl
      · simp only [arrow, if_neg hright, if_neg hleft]

/-! ## The run -/

/-- What one more byte makes of the screen. -/
theorem readline_displays (hx : Prints allowed exec rows) (h : Displays allowed s x)
    (hlen : (Editing.press x.toTyped c).text.length ≤ 126)
    (hallow : ∀ line ∈ (Editing.press x.toTyped c).lines, allowed line) (hf : BUF_LINE_LEN ≤ fuel) :
    ∃ s', readline fuel exec s c = some s' ∧ Displays allowed s' (press rows x c) := by
  have hfuel : (Editing.press x.toTyped c).text.length < fuel :=
    Nat.lt_of_le_of_lt hlen (Nat.lt_of_lt_of_le (by decide) hf)
  obtain ⟨s', hs, ha, -⟩ := readline_agrees exec h.agree hfuel
  refine ⟨s', hs, ?_⟩
  have hplace := h.agree.place
  cases hp : x.place with
  | first =>
    rw [hp] at hplace
    simp only [press, Editing.press, decode, hp] at hlen hallow hfuel ha ⊢
    simp only [readline, hplace] at hs
    by_cases hcr : c = ASCII_CARRIAGE_RETURN
    · simp only [if_pos hcr] at hs hallow ⊢
      obtain rfl := Option.some.inj hs
      refine submit_displays hx h hp fun ht => hallow x.text ?_
      have hlines : x.toSession.submit = ⟨Editor.empty, x.text :: x.lines⟩ := if_neg ht
      show x.text ∈ x.toSession.submit.lines
      rw [hlines]
      exact List.mem_cons_self
    simp only [if_neg hcr] at hs ha hlen hfuel ⊢
    by_cases hdel : c = ASCII_BACKSPACE ∨ c = ASCII_DELETE
    · simp only [if_pos hdel] at hs ha hlen hfuel ⊢
      by_cases hpos : 0 < x.cursor
      · exact delete_displays h hpos hs ha rfl hfuel hlen
      · have hzero : ¬ s.cur > 0 := by
          rw [h.agree.cur]
          omega
        rw [delete, if_neg hzero] at hs
        obtain rfl := Option.some.inj hs
        refine h.stays ha ?_ rfl
        simp only [Option.elim_some, Session.press, Session.edit, Editor.erase, if_neg hpos]
    simp only [if_neg hdel] at hs ha hlen hfuel ⊢
    by_cases hprint : ch ' ' ≤ c ∧ c ≤ ch '~'
    · simp only [if_pos hprint] at hs ha hlen hfuel ⊢
      exact insert_displays h hprint hs ha rfl hfuel hlen
    simp only [if_neg hprint] at hs ha ⊢
    refine h.stays ha rfl ?_
    by_cases hesc : c = ASCII_ESCAPE
    · simp only [if_pos hesc] at hs
      rw [← Option.some.inj hs]
    · simp only [if_neg hesc] at hs
      rw [← Option.some.inj hs]
  | escape =>
    rw [hp] at hplace
    simp only [press, Editing.press, decode, hp] at ha ⊢
    simp only [readline, hplace] at hs
    refine h.stays ha rfl ?_
    rw [← Option.some.inj hs]
  | bracket =>
    rw [hp] at hplace
    simp only [readline, hplace] at hs
    obtain rfl := Option.some.inj hs
    have habove : press rows x c = ⟨Editing.press x.toTyped c, x.above⟩ := by
      simp only [press, decode, hp]
      split_ifs <;> rfl
    rw [habove]
    exact arrow_displays h hp

theorem readlineTty_eq (h : Displays allowed s x) (hc : Handled x.toTyped c) :
    readlineTty fuel exec s c = readline fuel exec s c := by
  have hnot : ¬ (s.place = .bracket ∧ c ≠ ch 'C' ∧ c ≠ ch 'D') := by
    rw [h.agree.place]
    rintro ⟨hp, hC, hD⟩
    exact (hc hp).elim hC hD
  unfold readlineTty
  simp only [if_neg hnot, Option.map_id']

theorem displays_minishell (mem : Buf) : Displays allowed (minishell mem) ⟨⟨Session.empty, .first⟩, []⟩ := by
  refine ⟨agree_minishell mem, ⟨fun _ hc => (nomatch hc), Nat.zero_le _⟩, fun _ hl => (nomatch hl), ?_⟩
  rw [show (minishell mem).output = TERM_PROMPT from rfl, Screen.blank, feed_prompt]
  rfl

theorem run_displays (hx : Prints allowed exec rows) (h : Displays allowed s x)
    (hb : ∀ p, p <+: bytes → (p.foldl Editing.press x.toTyped).text.length ≤ 126 ∧
      ∀ line ∈ (p.foldl Editing.press x.toTyped).lines, allowed line)
    (hh : ∀ p c, p ++ [c] <+: bytes → Handled (p.foldl Editing.press x.toTyped) c) (hf : BUF_LINE_LEN ≤ fuel) :
    ∃ s', run (readlineTty fuel exec) s bytes = some s' ∧ Displays allowed s' (bytes.foldl (press rows) x) := by
  induction bytes generalizing s x with
  | nil => exact ⟨s, rfl, h⟩
  | cons c bytes ih =>
    obtain ⟨-, hrest⟩ := Editing.forall_prefix_cons.mp hb
    obtain ⟨hlen, hallow⟩ := hrest [] List.nil_prefix
    obtain ⟨s₁, hs, h₁⟩ := readline_displays hx h hlen hallow hf
    obtain ⟨s', hr, h'⟩ := ih h₁ hrest fun p d hp => hh (c :: p) d (List.cons_prefix_cons.mpr ⟨rfl, hp⟩)
    refine ⟨s', ?_, h'⟩
    rw [run_cons, readlineTty_eq h (hh [] c (List.cons_prefix_cons.mpr ⟨rfl, List.nil_prefix⟩)), hs,
      Option.bind_some, hr]

/-- **The screen shows the line.** After every sequence of bytes without escape sequences that are
not known, as long as the line never gets longer than 126 characters, the last row is the prompt
with the text that is edited, the cursor stands in it where the next character goes, and above it
are the lines that were submitted and what the commands printed. -/
theorem screen_right (allowed : List Byte → Prop) (exec : Exec) (rows : List (List Byte) → List (List Byte))
    (hx : Prints allowed exec rows) (mem : Buf) (hf : BUF_LINE_LEN ≤ fuel)
    (hb : ∀ p, p <+: bytes → (typed p).text.length ≤ 126 ∧ ∀ line ∈ (typed p).lines, allowed line)
    (hh : ∀ p c, p ++ [c] <+: bytes → Handled (typed p) c) :
    ∃ s, run (readlineTty fuel exec) (minishell mem) bytes = some s ∧
    Screen.blank.feed s.output = (shown rows bytes).screen := by
  obtain ⟨s, hs, h⟩ := run_displays hx (displays_minishell mem) hb hh hf
  exact ⟨s, hs, h.screen⟩

/-- What the shell says when there are no commands. -/
def unknown (lines : List (List Byte)) : List (List Byte) :=
  [TERM_CMD_NOT_FOUND ++ (lines.headD []).takeWhile fun c => !Splitting.isSpace c]

theorem prints_noCommands : Prints (fun _ => True) Editing.noCommands unknown := by
  constructor
  · intro buf bufs line lines htext hplain
    have hlen : line.length < BUF_LINE_LEN :=
      Nat.lt_of_le_of_lt (hplain line List.mem_cons_self).1.2 (by decide)
    obtain ⟨r, -, hr⟩ := Splitting.execCommand_spec [] (fun _ => 0) (List.forall₂_cons.mp htext).1 hlen
    simp only [Editing.noCommands, List.headD_cons, hr, List.find?_nil, Option.getD_some, unknown, Screen.printed,
      List.flatMap_cons, List.flatMap_nil, List.append_nil]
    rfl
  · intro line lines hplain row hrow c hc
    obtain rfl := List.mem_singleton.mp hrow
    rcases List.mem_append.mp hc with hc | hc
    · have hall : ∀ c ∈ TERM_CMD_NOT_FOUND, Printable c := by decide
      exact hall c hc
    · exact (hplain line List.mem_cons_self).1.1 c ((List.takeWhile_prefix _).subset hc)

theorem getElem?_of_begins {p : List Byte} (h : p ++ [c] <+: bytes) : bytes[p.length]? = some c := by
  obtain ⟨rest, rfl⟩ := h
  rw [List.append_assoc, List.getElem?_append_right le_rfl, Nat.sub_self]
  rfl

theorem screen_right_someKeys :
    ∃ s, run (readlineTty BUF_LINE_LEN Editing.noCommands) (minishell fun _ => 0) Editing.someKeys = some s ∧
      Screen.blank.feed s.output =
        ⟨.ground, [literal "$ abc", literal "command not found: abc"], literal "$ x", 3⟩ := by
  have hinits : ∀ p ∈ Editing.someKeys.inits, (typed p).text.length ≤ 126 ∧
      ((typed p).place = .bracket → Editing.someKeys[p.length]? = some (ch 'D')) := by decide
  obtain ⟨s, hs, hscreen⟩ :=
    screen_right (fun _ => True) Editing.noCommands unknown prints_noCommands (fun _ => 0) le_rfl
    (fun p hp => ⟨(hinits p ((List.mem_inits p Editing.someKeys).mpr hp)).1, fun _ _ => trivial⟩)
    fun p c hp hplace => by
      have hD := (hinits p ((List.mem_inits p Editing.someKeys).mpr ((List.prefix_append p [c]).trans hp))).2 hplace
      rw [getElem?_of_begins hp] at hD
      exact .inr (Option.some.inj hD)
  exact ⟨s, hs, hscreen.trans (by decide)⟩

end PikoRT.User.Display

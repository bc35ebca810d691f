import PikoRT.Lib.LineEditor
import PikoRT.Lib.Run
import PikoRT.User.Shell

/-! # The line editor (`user/sh.c`)

`readline` keeps a text with a cursor in `buf_line`, whatever a command leaves behind in
it: a line that is submitted does not have to be cleared. -/
namespace PikoRT.User.Editing
open PikoRT.Libc.Printf (Byte ch)
open PikoRT.Lib.LineEditor PikoRT.Lib.Run PikoRT.User.Shell

/-! ## The keys -/

/-- The key that a byte completes, and where the next byte is read. -/
def decode : Place → Byte → Place × Option (Key Byte)
  | .first, c =>
    if c = ASCII_CARRIAGE_RETURN then (.first, some .submit)
    else if c = ASCII_BACKSPACE ∨ c = ASCII_DELETE then (.first, some .erase)
    else if ch ' ' ≤ c ∧ c ≤ ch '~' then (.first, some (.insert c))
    else (if c = ASCII_ESCAPE then .escape else .first, none)
  | .escape, c => (if c = ch '[' then .bracket else .first, none)
  | .bracket, c => (.first, if c = ch 'C' then some .right else if c = ch 'D' then some .left else none)

/-- A session, and the place in an escape sequence. -/
structure Typed extends Session Byte where
  place : Place

def press (t : Typed) (c : Byte) : Typed :=
  ⟨(decode t.place c).2.elim t.toSession fun key => t.toSession.press key, (decode t.place c).1⟩

def typed (bytes : List Byte) : Typed := bytes.foldl press ⟨Session.empty, .first⟩

/-- The state is that of the editor, as far as one can see it. -/
structure Refines (s : State) (t : Session Byte) : Prop where
  bounds : 0 ≤ s.cur ∧ s.cur ≤ s.curEol
  nul : 0 < s.curEol → s.bufLine s.curEol = 0
  text : (List.range s.curEol.toNat).map (fun k : ℕ => s.bufLine k) = t.text
  cur : s.cur = t.cursor
  executed : List.Forall₂ (fun buf line => TextAt buf 0 line) s.executed t.lines

structure Agree (s : State) (t : Typed) : Prop where
  place : s.place = t.place
  cur : s.cur = t.cursor
  curEol : s.curEol = t.text.length
  text : t.text ≠ [] → TextAt s.bufLine 0 t.text
  executed : List.Forall₂ (fun buf line => TextAt buf 0 line) s.executed t.lines

/-- What a step from `t` to `t'` stores lies in the line and the NUL behind it; the NUL is
stored when the line grows. -/
def Stores (s s' : State) (t t' : Session Byte) : Prop :=
  ∃ w, s'.written = w ++ s.written ∧ (∀ j ∈ w, 0 ≤ j ∧ j ≤ t'.text.length) ∧
    (t.text.length < t'.text.length → (t'.text.length : ℤ) ∈ w)

/-- The state after a key that changed the line. -/
def edited (s : State) (cur curEol : ℤ) (buf : Buf) (w : List ℤ) (output : List Byte) : State :=
  { s with cur := cur, curEol := curEol, bufLine := buf, written := w ++ s.written, output := output }

variable {s s' : State} {t t' : Typed} {c : Byte} {fuel : ℕ} {exec : Exec} {bytes : List Byte}

/-! ## The loops -/

/-- `shiftLeft` from `i` on moves `n` characters one place down. -/
theorem shiftLeft_spec (n : ℕ) (i : ℤ) (s : State) :
    ∃ buf w, shiftLeft n i s = { s with bufLine := buf, written := w ++ s.written } ∧
      (∀ j, buf j = if i - 1 ≤ j ∧ j < i - 1 + n then s.bufLine (j + 1) else s.bufLine j) ∧
      ∀ j ∈ w, i - 1 ≤ j ∧ j < i - 1 + n := by
  induction n generalizing i s with
  | zero => exact ⟨s.bufLine, [], rfl, fun j => (if_neg (by omega)).symm, by simp⟩
  | succ n ih =>
    obtain ⟨buf, w, he, hb, hw⟩ := ih (i + 1) (s.store (i - 1) (s.bufLine i))
    refine ⟨buf, w ++ [i - 1], ?_, ?_, ?_⟩
    · rw [shiftLeft, he]
      simp [State.store]
    · intro j
      rw [hb]
      by_cases hj : j = i - 1
      · subst hj
        rw [if_neg (by omega), if_pos (by omega), Int.sub_add_cancel]
        exact Function.update_self ..
      · simp only [State.store, Function.update_apply, if_neg hj]
        split_ifs <;> first | rfl | omega
    · intro j hj
      rcases List.mem_append.mp hj with hj | hj
      · have := hw j hj
        omega
      · rw [List.mem_singleton.mp hj]
        omega

/-- `shiftRight` from `i` on, downwards, moves `n` characters one place up. -/
theorem shiftRight_spec (n : ℕ) (i : ℤ) (s : State) :
    ∃ buf w, shiftRight n i s = { s with bufLine := buf, written := w ++ s.written } ∧
      (∀ j, buf j = if i + 1 - n < j ∧ j ≤ i + 1 then s.bufLine (j - 1) else s.bufLine j) ∧
      ∀ j ∈ w, i + 1 - n < j ∧ j ≤ i + 1 := by
  induction n generalizing i s with
  | zero => exact ⟨s.bufLine, [], rfl, fun j => (if_neg (by omega)).symm, by simp⟩
  | succ n ih =>
    obtain ⟨buf, w, he, hb, hw⟩ := ih (i - 1) (s.store (i + 1) (s.bufLine i))
    refine ⟨buf, w ++ [i + 1], ?_, ?_, ?_⟩
    · rw [shiftRight, he]
      simp [State.store]
    · intro j
      rw [hb]
      by_cases hj : j = i + 1
      · subst hj
        rw [if_neg (by omega), if_pos (by omega), Int.add_sub_cancel]
        exact Function.update_self ..
      · simp only [State.store, Function.update_apply, if_neg hj]
        split_ifs <;> first | rfl | omega
    · intro j hj
      rcases List.mem_append.mp hj with hj | hj
      · have := hw j hj
        omega
      · rw [List.mem_singleton.mp hj]
        omega

/-! ## The output -/

theorem cursorBackward_eq (n : ℤ) (s : State) : ∃ output, cursorBackward n s = { s with output := output } := by
  rw [cursorBackward]
  split
  · exact ⟨_, rfl⟩
  · exact ⟨s.output, rfl⟩

/-- The echo comes to the end of the line. -/
theorem echo_eq {text : List Byte} {p : ℤ} (h : TextAt s.bufLine p text) (hf : text.length < fuel) :
    ∃ output, ((s.echo fuel p).map fun s => cursorBackward (s.curEol - s.cur) s) =
    some { s with output := output } := by
  obtain ⟨output, ho⟩ := cursorBackward_eq (s.curEol - s.cur) (s.write text)
  refine ⟨output, ?_⟩
  rw [State.echo, cstring_eq h hf]
  exact congrArg some ho

/-! ## The line -/

theorem Agree.chars (h : Agree s t) {k : ℕ} {d : Byte} (hk : t.text[k]? = some d) : s.bufLine k = d := by
  have hne : t.text ≠ [] := by
    intro he
    simp [he] at hk
  simpa using (textAt_iff.mp (h.text hne)).1 k d hk

theorem Agree.noNul (h : Agree s t) : 0 ∉ t.text := by
  by_cases hne : t.text = []
  · simp [hne]
  · exact (textAt_iff.mp (h.text hne)).2.2

theorem Agree.bounds (h : Agree s t) : 0 ≤ s.cur ∧ s.cur ≤ s.curEol := by
  have := t.inside
  rw [h.cur, h.curEol]
  omega

/-- The first loop of the insertion opens a gap at the cursor. -/
theorem gap_spec (s : State) : ∃ buf w,
    (if s.cur < s.curEol then shiftRight (s.curEol - s.cur + 1).toNat s.curEol s else s) =
      { s with bufLine := buf, written := w ++ s.written } ∧
    (∀ j < s.cur, buf j = s.bufLine j) ∧ (∀ j, s.cur < j → j ≤ s.curEol → buf j = s.bufLine (j - 1)) ∧
    ∀ j ∈ w, s.cur < j ∧ j ≤ s.curEol + 1 := by
  split
  · obtain ⟨buf, w, he, hb, hw⟩ := shiftRight_spec (s.curEol - s.cur + 1).toNat s.curEol s
    refine ⟨buf, w, he, ?_, ?_, ?_⟩
    · intro j hj
      rw [hb, if_neg (by omega)]
    · intro j hj hle
      rw [hb, if_pos (by omega)]
    · intro j hj
      have := hw j hj
      omega
  · exact ⟨s.bufLine, [], rfl, fun j hj => rfl, fun j hj hle => by omega, by simp⟩

/-- With the character in the gap and the NUL behind, the buffer holds the new line. -/
theorem textAt_insert {buf : Buf} (h : Agree s t) (hc : c ≠ 0) (hbelow : ∀ j < s.cur, buf j = s.bufLine j)
    (habove : ∀ j, s.cur < j → j ≤ s.curEol → buf j = s.bufLine (j - 1)) :
    TextAt (Function.update (Function.update buf s.cur c) (s.curEol + 1) 0) 0 (t.toEditor.insert c).text := by
  obtain ⟨hcur, hle⟩ := h.bounds
  refine textAt_iff.mpr ⟨?_, ?_, ?_⟩
  · intro k d hk
    have hlt := (List.getElem?_eq_some_iff.mp hk).1
    rw [Editor.length_insert] at hlt
    have hend : (0 : ℤ) + k ≠ s.curEol + 1 := by
      rw [h.curEol]
      omega
    rw [Function.update_of_ne hend, zero_add]
    rw [Editor.getElem?_insert] at hk
    have hcursor := h.cur
    split_ifs at hk with hlow hat
    · rw [Function.update_of_ne (by omega), hbelow k (by omega), h.chars hk]
    · rw [hcursor, hat, Function.update_self]
      exact Option.some.inj hk
    · have := h.curEol
      have hpred : (k : ℤ) - 1 = (k - 1 : ℕ) := by omega
      rw [Function.update_of_ne (by omega), habove k (by omega) (by omega), hpred, h.chars hk]
  · rw [Editor.length_insert, h.curEol, zero_add]
    exact Function.update_self ..
  · intro h0
    rcases Editor.mem_insert h0 with h0 | h0
    · exact hc h0.symm
    · exact h.noNul h0

theorem insert_spec (h : Agree s t) (hc : c ≠ 0) (hf : (t.toEditor.insert c).text.length < fuel) :
    ∃ buf w output, Shell.insert fuel c s = some (edited s (s.cur + 1) (s.curEol + 1) buf w output) ∧
      TextAt buf 0 (t.toEditor.insert c).text ∧ (∀ j ∈ w, 0 ≤ j ∧ j ≤ s.curEol + 1) ∧ s.curEol + 1 ∈ w := by
  obtain ⟨buf, w, he, hbelow, habove, hw⟩ := gap_spec s
  obtain ⟨hcur, hle⟩ := h.bounds
  have htext := textAt_insert h hc hbelow habove
  have hdrop := htext.drop (Nat.le_of_succ_le (t.toEditor.insert c).inside)
  have hp : (0 : ℤ) + t.cursor = s.cur + 1 - 1 := by
    rw [h.cur]
    omega
  rw [hp] at hdrop
  obtain ⟨output, ho⟩ := echo_eq (s := edited s (s.cur + 1) (s.curEol + 1) _ ((s.curEol + 1) :: s.cur :: w) s.output)
    hdrop (Nat.lt_of_le_of_lt (List.drop_suffix ..).length_le hf)
  refine ⟨_, (s.curEol + 1) :: s.cur :: w, output, ?_, htext, ?_, List.mem_cons_self⟩
  · simp only [Shell.insert, he]
    exact ho
  · intro j hj
    simp only [List.mem_cons] at hj
    rcases hj with rfl | rfl | hj
    · omega
    · omega
    · have := hw j hj
      omega

/-- The loop of the deletion closes the place before the cursor. -/
theorem close_spec (s : State) : ∃ buf w,
    (if s.cur < s.curEol then shiftLeft (s.curEol - s.cur + 1).toNat s.cur s else s) =
      { s with bufLine := buf, written := w ++ s.written } ∧
    (∀ j < s.cur - 1, buf j = s.bufLine j) ∧
    (∀ j, s.cur - 1 ≤ j → j < s.curEol - 1 → buf j = s.bufLine (j + 1)) ∧
    ∀ j ∈ w, s.cur - 1 ≤ j ∧ j < s.curEol := by
  split
  · obtain ⟨buf, w, he, hb, hw⟩ := shiftLeft_spec (s.curEol - s.cur + 1).toNat s.cur s
    refine ⟨buf, w, he, ?_, ?_, ?_⟩
    · intro j hj
      rw [hb, if_neg (by omega)]
    · intro j hj hlt
      rw [hb, if_pos (by omega)]
    · intro j hj
      have := hw j hj
      omega
  · exact ⟨s.bufLine, [], rfl, fun j hj => rfl, fun j hj hlt => by omega, by simp⟩

/-- With the place closed and the NUL in front of the old one, the buffer holds the new line. -/
theorem textAt_erase {buf : Buf} (h : Agree s t) (hpos : 0 < t.cursor) (hbelow : ∀ j < s.cur - 1, buf j = s.bufLine j)
    (habove : ∀ j, s.cur - 1 ≤ j → j < s.curEol - 1 → buf j = s.bufLine (j + 1)) :
    TextAt (Function.update buf (s.curEol - 1) 0) 0 t.toEditor.erase.text := by
  have hcursor := h.cur
  have heol := h.curEol
  have hlen := t.toEditor.length_erase hpos
  refine textAt_iff.mpr ⟨?_, ?_, ?_⟩
  · intro k d hk
    have hlt := (List.getElem?_eq_some_iff.mp hk).1
    rw [zero_add, Function.update_of_ne (by omega)]
    rw [Editor.getElem?_erase _ hpos] at hk
    split_ifs at hk with hlow
    · rw [hbelow k (by omega), h.chars hk]
    · have hsucc : (k : ℤ) + 1 = (k + 1 : ℕ) := by omega
      rw [habove k (by omega) (by omega), hsucc, h.chars hk]
  · have hend : (0 : ℤ) + t.toEditor.erase.text.length = s.curEol - 1 := by omega
    rw [hend, Function.update_self]
  · exact fun h0 => h.noNul (Editor.mem_erase h0)

theorem delete_spec (h : Agree s t) (hpos : 0 < t.cursor) (hf : t.toEditor.erase.text.length < fuel) :
    ∃ buf w output, delete fuel s = some (edited s (s.cur - 1) (s.curEol - 1) buf w output) ∧
      TextAt buf 0 t.toEditor.erase.text ∧ ∀ j ∈ w, 0 ≤ j ∧ j ≤ s.curEol - 1 := by
  obtain ⟨buf, w, he, hbelow, habove, hw⟩ := close_spec s
  obtain ⟨hcur, hle⟩ := h.bounds
  have hcursor := h.cur
  have hlen := t.toEditor.length_erase hpos
  have htext := textAt_erase h hpos hbelow habove
  have hinside := t.inside
  have hdrop := htext.drop (k := t.cursor - 1) (by omega)
  have hp : (0 : ℤ) + (t.cursor - 1 : ℕ) = s.cur - 1 := by omega
  rw [hp] at hdrop
  obtain ⟨output, hback⟩ := cursorBackward_eq 1 (edited s (s.cur - 1) (s.curEol - 1)
    (Function.update buf (s.curEol - 1) 0) ((s.curEol - 1) :: w) s.output)
  obtain ⟨output', ho⟩ := echo_eq (s := edited s (s.cur - 1) (s.curEol - 1) _ ((s.curEol - 1) :: w)
    (output ++ ESC_SEQ_ERASE_LINE)) hdrop (Nat.lt_of_le_of_lt (List.drop_suffix ..).length_le hf)
  refine ⟨_, (s.curEol - 1) :: w, output', ?_, htext, ?_⟩
  · rw [delete, if_pos (by omega), he]
    simp only [edited, List.cons_append] at hback
    simp only [State.store, hback]
    exact ho
  · intro j hj
    simp only [List.mem_cons] at hj
    rcases hj with rfl | hj
    · omega
    · have := hw j hj
      omega

/-! ## The step -/

theorem stores_nothing {u u' : Session Byte} (h : s'.written = s.written) (hlen : u'.text.length ≤ u.text.length) :
    Stores s s' u u' :=
  ⟨[], h, by simp, fun hlt => by omega⟩

theorem submit_agrees (h : Agree s t) (hp : t.place = .first) :
    Agree (submit exec s) ⟨t.toSession.submit, .first⟩ ∧ Stores s (submit exec s) t.toSession t.toSession.submit := by
  have hplace := h.place.trans hp
  by_cases ht : t.text = []
  · have hzero : ¬ (s.write TERM_CRLF).curEol > 0 := by
      rw [State.write, h.curEol, ht]
      simp
    have hs : t.toSession.submit = t.toSession := if_pos ht
    simp only [submit, if_neg hzero, hs]
    exact ⟨⟨hplace, h.cur, h.curEol, h.text, h.executed⟩, stores_nothing rfl le_rfl⟩
  · have hpos : (s.write TERM_CRLF).curEol > 0 := by
      rw [State.write, h.curEol]
      exact Int.natCast_pos.mpr (List.length_pos_of_ne_nil ht)
    have hs : t.toSession.submit = ⟨Editor.empty, t.text :: t.lines⟩ := if_neg ht
    simp only [submit, if_pos hpos, hs]
    exact ⟨⟨hplace, rfl, rfl, fun hne => absurd rfl hne, .cons (h.text ht) h.executed⟩,
      stores_nothing rfl (Nat.zero_le _)⟩

theorem delete_agrees (h : Agree s t) (hp : t.place = .first) (hf : t.toEditor.erase.text.length < fuel) :
    ∃ s', delete fuel s = some s' ∧ Agree s' ⟨t.toSession.press .erase, .first⟩ ∧
      Stores s s' t.toSession (t.toSession.press .erase) := by
  by_cases hpos : 0 < t.cursor
  · obtain ⟨buf, w, output, hs, htext, hw⟩ := delete_spec h hpos hf
    have hlen := t.toEditor.length_erase hpos
    have hcursor : t.toEditor.erase.cursor = t.cursor - 1 := by rw [Editor.erase, if_pos hpos]
    have hcur := h.cur
    have heol := h.curEol
    refine ⟨_, hs, ⟨h.place.trans hp, ?_, ?_, fun _ => htext, h.executed⟩, w, rfl, ?_, ?_⟩
    · simp only [Session.press, Session.edit, hcursor, edited]
      omega
    · simp only [Session.press, Session.edit, edited]
      omega
    · intro j hj
      have := hw j hj
      simp only [Session.press, Session.edit]
      omega
    · simp only [Session.press, Session.edit]
      omega
  · have hzero : ¬ s.cur > 0 := by
      rw [h.cur]
      omega
    have he : t.toSession.press .erase = t.toSession := by
      simp only [Session.press, Session.edit, Editor.erase, if_neg hpos]
    rw [he]
    exact ⟨s, if_neg hzero, ⟨h.place.trans hp, h.cur, h.curEol, h.text, h.executed⟩, stores_nothing rfl le_rfl⟩

theorem insert_agrees (h : Agree s t) (hp : t.place = .first) (hc : c ≠ 0)
    (hf : (t.toEditor.insert c).text.length < fuel) :
    ∃ s', Shell.insert fuel c s = some s' ∧ Agree s' ⟨t.toSession.press (.insert c), .first⟩ ∧
      Stores s s' t.toSession (t.toSession.press (.insert c)) := by
  obtain ⟨buf, w, output, hs, htext, hw, hend⟩ := insert_spec h hc hf
  have hlen : ((t.toEditor.insert c).text.length : ℤ) = s.curEol + 1 := by
    rw [Editor.length_insert, h.curEol]
    rfl
  refine ⟨_, hs, ⟨h.place.trans hp, ?_, hlen.symm, fun _ => htext, h.executed⟩, w, rfl, ?_, fun _ => ?_⟩
  · simp only [h.cur]
    rfl
  · simp only [Session.press, Session.edit, hlen]
    exact hw
  · simp only [Session.press, Session.edit, hlen]
    exact hend

theorem arrow_agrees (h : Agree s t) :
    Agree (arrow c { s with place := .first }) (press { t with place := .bracket } c) ∧
      Stores s (arrow c { s with place := .first }) t.toSession (press { t with place := .bracket } c).toSession := by
  have hcur := h.cur
  have heol := h.curEol
  simp only [arrow, press, decode]
  by_cases hright : c = ch 'C'
  · simp only [if_pos hright, Option.elim_some, Session.press, Session.edit, Editor.right]
    split
    · refine ⟨⟨rfl, ?_, h.curEol, h.text, h.executed⟩, stores_nothing rfl le_rfl⟩
      simp only [State.write]
      omega
    · refine ⟨⟨rfl, ?_, h.curEol, h.text, h.executed⟩, stores_nothing rfl le_rfl⟩
      have := t.inside
      simp only at *
      omega
  · by_cases hleft : c = ch 'D'
    · simp only [if_neg hright, if_pos hleft, Option.elim_some, Session.press, Session.edit, Editor.left]
      split
      · refine ⟨⟨rfl, ?_, h.curEol, h.text, h.executed⟩, stores_nothing rfl le_rfl⟩
        simp only [State.write] at *
        omega
      · refine ⟨⟨rfl, ?_, h.curEol, h.text, h.executed⟩, stores_nothing rfl le_rfl⟩
        simp only at *
        omega
    · simp only [if_neg hright, if_neg hleft, Option.elim_none]
      exact ⟨⟨rfl, h.cur, h.curEol, h.text, h.executed⟩, stores_nothing rfl le_rfl⟩

theorem readline_agrees (exec : Exec) (h : Agree s t) (hf : (press t c).text.length < fuel) :
    ∃ s', readline fuel exec s c = some s' ∧ Agree s' (press t c) ∧ Stores s s' t.toSession (press t c).toSession := by
  have hplace := h.place
  cases hp : t.place with
  | first =>
    rw [hp] at hplace
    simp only [press, decode, hp] at hf ⊢
    simp only [readline, hplace]
    by_cases hcr : c = ASCII_CARRIAGE_RETURN
    · simp only [if_pos hcr]
      exact ⟨_, rfl, submit_agrees h hp⟩
    simp only [if_neg hcr] at hf ⊢
    by_cases hdel : c = ASCII_BACKSPACE ∨ c = ASCII_DELETE
    · simp only [if_pos hdel] at hf ⊢
      exact delete_agrees h hp hf
    simp only [if_neg hdel] at hf ⊢
    by_cases hprint : ch ' ' ≤ c ∧ c ≤ ch '~'
    · simp only [if_pos hprint] at hf ⊢
      have hc : c ≠ 0 := by
        intro h0
        rw [h0] at hprint
        exact absurd hprint.1 (by decide)
      exact insert_agrees h hp hc hf
    simp only [if_neg hprint]
    by_cases hesc : c = ASCII_ESCAPE
    · simp only [if_pos hesc]
      exact ⟨_, rfl, ⟨rfl, h.cur, h.curEol, h.text, h.executed⟩, stores_nothing rfl le_rfl⟩
    · simp only [if_neg hesc]
      exact ⟨_, rfl, ⟨hplace, h.cur, h.curEol, h.text, h.executed⟩, stores_nothing rfl le_rfl⟩
  | escape =>
    rw [hp] at hplace
    simp only [press, decode, hp, readline, hplace]
    exact ⟨_, rfl, ⟨rfl, h.cur, h.curEol, h.text, h.executed⟩, stores_nothing rfl le_rfl⟩
  | bracket =>
    rw [hp] at hplace
    have ht : { t with place := .bracket } = t := by
      cases t
      cases hp
      rfl
    simp only [readline, hplace]
    have := arrow_agrees (c := c) h
    rw [ht] at this
    exact ⟨_, rfl, this⟩

/-! ## The run -/

theorem agree_minishell (mem : Buf) : Agree (minishell mem) (typed []) :=
  ⟨rfl, rfl, rfl, fun h => absurd rfl h, .nil⟩

theorem Agree.refines (h : Agree s t) : Refines s t.toSession := by
  have heol : s.curEol.toNat = t.text.length := by
    rw [h.curEol]
    rfl
  refine ⟨h.bounds, ?_, ?_, h.cur, h.executed⟩
  · intro hpos
    have hne : t.text ≠ [] := by
      intro he
      rw [h.curEol, he] at hpos
      exact lt_irrefl _ hpos
    simpa [h.curEol] using (textAt_iff.mp (h.text hne)).2.1
  · rw [heol]
    refine List.ext_getElem (by simp) ?_
    intro k hk hk'
    rw [List.getElem_map, List.getElem_range]
    exact h.chars (List.getElem?_eq_getElem hk')

theorem forall_prefix_cons {P : List Byte → Prop} :
    (∀ p, p <+: c :: bytes → P p) ↔ P [] ∧ ∀ p, p <+: bytes → P (c :: p) := by
  constructor
  · intro h
    exact ⟨h [] List.nil_prefix, fun p hp => h (c :: p) (List.cons_prefix_cons.mpr ⟨rfl, hp⟩)⟩
  · intro ⟨hnil, hcons⟩ p hp
    cases p with
    | nil => exact hnil
    | cons d p =>
      obtain ⟨rfl, htail⟩ := List.cons_prefix_cons.mp hp
      exact hcons p htail

/-- From any state that agrees, with fuel for the longest line of the run. -/
theorem run_agrees (exec : Exec) {n : ℕ} (h : Agree s t)
    (hb : ∀ p, p <+: bytes → (p.foldl press t).text.length ≤ n) (hf : n < fuel) :
    ∃ s', run (readline fuel exec) s bytes = some s' ∧ Agree s' (bytes.foldl press t) ∧
      ∃ w, s'.written = w ++ s.written ∧ ∀ j ∈ w, 0 ≤ j ∧ j ≤ n := by
  induction bytes generalizing s t with
  | nil => exact ⟨s, rfl, h, [], rfl, by simp⟩
  | cons c bytes ih =>
    obtain ⟨-, hrest⟩ := forall_prefix_cons.mp hb
    have hlen : (press t c).text.length ≤ n := hrest [] List.nil_prefix
    obtain ⟨s₁, hs, ha, w, hw, hin, -⟩ := readline_agrees exec h (Nat.lt_of_le_of_lt hlen hf)
    obtain ⟨s', hr, ha', w', hw', hin'⟩ := ih ha hrest
    refine ⟨s', ?_, ha', w' ++ w, ?_, ?_⟩
    · rw [run_cons, hs, Option.bind_some, hr]
    · rw [hw', hw, List.append_assoc]
    · intro j hj
      rcases List.mem_append.mp hj with hj | hj
      · exact hin' j hj
      · have := hin j hj
        omega

/-- After every sequence of bytes, as long as the line never gets longer than 126 characters. -/
theorem readline_refines (exec : Exec) (mem : Buf) (hf : BUF_LINE_LEN ≤ fuel)
    (hb : ∀ p, p <+: bytes → (typed p).text.length ≤ 126) :
    ∃ s, run (readline fuel exec) (minishell mem) bytes = some s ∧ Refines s (typed bytes).toSession ∧
      ∀ i ∈ s.written, 0 ≤ i ∧ i < BUF_LINE_LEN := by
  obtain ⟨s, hs, ha, w, hw, hin⟩ := run_agrees exec (agree_minishell mem) hb (Nat.lt_of_lt_of_le (by decide) hf)
  refine ⟨s, hs, ha.refines, ?_⟩
  intro i hi
  rw [hw, minishell, List.append_nil] at hi
  have := hin i hi
  rw [BUF_LINE_LEN]
  omega

/-- `exec_command` with no command in the section. -/
def noCommands : Exec := fun bufs =>
  (execCommand BUF_LINE_LEN [] (fun _ => 0) (bufs.headD fun _ => 0)).getD (fun _ => 0, [])

/-- `ac`, one to the left, `b`, and the line is submitted; then `x`. -/
def someKeys : List Byte := literal "ac" ++ ASCII_ESCAPE :: literal "[Db" ++ ASCII_CARRIAGE_RETURN :: literal "x"

theorem readline_refines_someKeys :
    ∃ s, run (readline BUF_LINE_LEN noCommands) (minishell fun _ => 0) someKeys = some s ∧
      Refines s (typed someKeys).toSession ∧ ∀ i ∈ s.written, 0 ≤ i ∧ i < BUF_LINE_LEN := by
  have hinits : ∀ p ∈ someKeys.inits, (typed p).text.length ≤ 126 := by decide
  exact readline_refines noCommands (fun _ => 0) le_rfl fun p hp => hinits p ((List.mem_inits p someKeys).mpr hp)

example : (typed someKeys).lines = [literal "abc"] ∧ (typed someKeys).text = literal "x" := by decide

end PikoRT.User.Editing

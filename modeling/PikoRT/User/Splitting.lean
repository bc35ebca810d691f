import PikoRT.Lib.Fields
import PikoRT.User.Shell
import Mathlib.Data.List.Forall2

/-! # The arguments of a command (`user/sh.c`)

`parse_command_line` puts a NUL over the first space of every run and points behind the
run: what it finds are the fields of the line. -/
namespace PikoRT.User.Splitting
open PikoRT.Libc.Printf (Byte ch)
open PikoRT.Lib.Fields PikoRT.User.Shell

def isSpace (c : Byte) : Bool := c = ch ' '

/-- What the loop makes of the text from `i` on: the strings at `i` and at the pointers
that it stores are the fields, and nothing before `i` is touched. -/
structure Cuts (a : Args) (i : ℤ) (text : List Byte) (r : Args) : Prop where
  strings : List.Forall₂ (TextAt r.buf) (i :: (List.range' a.argc (runs isSpace false text)).map r.argv)
    (fields isSpace false text)
  argc : r.argc = a.argc + runs isSpace false text
  argv : ∀ k < a.argc, r.argv k = a.argv k
  buf : ∀ p < i, r.buf p = a.buf p
  written : r.written = (List.range' a.argc (runs isSpace false text)).reverse ++ a.written

/-- The line is in the buffer; it has a word, and no more words than `argv` has room for. -/
structure Line (buf : Buf) (line : List Byte) : Prop where
  text : TextAt buf 0 line
  word : ∃ c ∈ line, c ≠ ch ' '
  few : (words isSpace line).length ≤ ARG_COUNT_MAX

/-- `argc` is the number of the words, and `argv` points to them in order. -/
def Splits (buf : Buf) (argv : ℕ → ℤ) (line : List Byte) : Prop :=
  ∃ n, ∀ fuel ≥ n, ∃ r, parseCommandLine fuel buf argv = some r ∧ r.argc = (words isSpace line).length ∧
    List.Forall₂ (TextAt r.buf) ((List.range r.argc).map r.argv) (words isSpace line)

variable {buf : Buf} {a r : Args} {i : ℤ} {c : Byte} {text line : List Byte}

/-! ## The loop -/

theorem skipSpaces_spec {fuel : ℕ} (h : TextAt buf i text) (hf : text.length < fuel) :
    ∃ j, skipSpaces fuel buf i = some j ∧ j = i + (text.length - (text.dropWhile isSpace).length : ℕ) ∧
      TextAt buf j (text.dropWhile isSpace) := by
  induction text generalizing i fuel with
  | nil =>
    obtain ⟨n, rfl⟩ := Nat.exists_eq_succ_of_ne_zero (Nat.ne_zero_of_lt hf)
    have hne : buf i ≠ ch ' ' := by rw [show buf i = 0 from h]; decide
    exact ⟨i, if_neg hne, by simp, h⟩
  | cons c text ih =>
    obtain ⟨n, rfl⟩ := Nat.exists_eq_succ_of_ne_zero (Nat.ne_zero_of_lt hf)
    by_cases hc : c = ch ' '
    · obtain ⟨j, hj, he, ht⟩ := ih h.2.2 (Nat.lt_of_succ_lt_succ hf)
      have hle := List.length_dropWhile_le isSpace text
      rw [List.dropWhile_cons_of_pos (by simpa [isSpace] using hc)]
      refine ⟨j, ?_, ?_, ht⟩
      · rw [skipSpaces, if_pos (h.2.1.trans hc), hj]
      · rw [he, List.length_cons]
        omega
    · rw [List.dropWhile_cons_of_neg (by simpa [isSpace] using hc)]
      exact ⟨i, if_neg (by rwa [h.2.1]), by simp, h⟩

theorem Cuts.nil (h : TextAt a.buf i []) : Cuts a i [] a :=
  ⟨.cons h .nil, rfl, fun _ _ => rfl, fun _ _ => rfl, rfl⟩

theorem Cuts.cons (hc : c ≠ ch ' ') (h : TextAt a.buf i (c :: text)) (hr : Cuts a (i + 1) text r) :
    Cuts a i (c :: text) r := by
  have hspace : isSpace c = false := by simpa [isSpace] using hc
  have hruns : runs isSpace false (c :: text) = runs isSpace false text := by simp [runs, hspace]
  obtain ⟨f, fs, hf⟩ := List.exists_cons_of_ne_nil (fields_ne_nil isSpace false text)
  have hfields : fields isSpace false (c :: text) = (c :: f) :: fs := by simp [fields, hspace, hf]
  have hstrings := hr.strings
  rw [hf] at hstrings
  obtain ⟨hfirst, hrest⟩ := List.forall₂_cons.mp hstrings
  have hi : r.buf i = c := (hr.buf i (by omega)).trans h.2.1
  constructor
  · rw [hruns, hfields]
    exact .cons ⟨h.1, hi, hfirst⟩ hrest
  · rw [hruns, hr.argc]
  · exact hr.argv
  · exact fun p hp => hr.buf p (by omega)
  · rw [hruns, hr.written]

theorem runs_true (text : List Byte) : runs isSpace true text = runs isSpace false (text.dropWhile isSpace) := by
  apply Nat.add_right_cancel (m := 1)
  rw [← length_fields, ← length_fields, fields_true]

theorem Cuts.space {j : ℤ} (hj : i < j)
    (hr : Cuts ({ a with buf := Function.update a.buf i 0 }.push j) j (text.dropWhile isSpace) r) :
    Cuts a i (ch ' ' :: text) r := by
  have hspace : isSpace (ch ' ') = true := by simp [isSpace]
  have hruns : runs isSpace false (ch ' ' :: text) = runs isSpace false (text.dropWhile isSpace) + 1 := by
    simp [runs, hspace, runs_true, Nat.add_comm]
  have hfields : fields isSpace false (ch ' ' :: text) = [] :: fields isSpace false (text.dropWhile isSpace) := by
    simp [fields, hspace, fields_true]
  have hpointer : r.argv a.argc = j := by
    rw [hr.argv a.argc (Nat.lt_succ_self _)]
    exact Function.update_self ..
  have hnul : r.buf i = 0 := by
    rw [hr.buf i hj]
    exact Function.update_self ..
  constructor
  · rw [hruns, hfields, List.range'_succ, List.map_cons, hpointer]
    exact .cons hnul hr.strings
  · rw [hruns, hr.argc]
    simp only [Args.push]
    omega
  · intro k hk
    rw [hr.argv k (Nat.lt_succ_of_lt hk)]
    exact Function.update_of_ne hk.ne ..
  · intro p hp
    rw [hr.buf p (by omega)]
    exact Function.update_of_ne (by omega) ..
  · rw [hruns, hr.written, List.range'_succ]
    simp [Args.push]

/-- By induction on the fuel. After a run the loop goes on behind the character that the run
ends with, which is no space, or behind the end. -/
theorem parseLoop_spec {fuel buflen : ℕ} (h : TextAt a.buf i text) (hf : text.length < fuel)
    (hlen : (buflen : ℤ) = i + text.length) : ∃ r, parseLoop buflen fuel i a = some r ∧ Cuts a i text r := by
  induction fuel generalizing a i text with
  | zero => omega
  | succ n ih =>
    cases text with
    | nil => exact ⟨a, if_neg (by simp at hlen; omega), Cuts.nil h⟩
    | cons c text =>
      simp only [List.length_cons] at hf hlen
      have hi : i < buflen := by omega
      by_cases hc : c = ch ' '
      · subst hc
        have htext : TextAt (Function.update a.buf i 0) (i + 1) text :=
          h.2.2.congr fun q hq => Function.update_of_ne (by omega) ..
        obtain ⟨j, hj, he, hrest⟩ := skipSpaces_spec htext (by omega : text.length < n)
        have hle := List.length_dropWhile_le isSpace text
        have hstep : parseLoop buflen (n + 1) i a =
            parseLoop buflen n (j + 1) ({ a with buf := Function.update a.buf i 0 }.push j) := by
          rw [parseLoop, if_pos hi, if_pos h.2.1]
          simp only [hj, Option.bind_some]
        rw [hstep]
        have hhead := List.head?_dropWhile_not isSpace text
        cases hd : text.dropWhile isSpace with
        | nil =>
          rw [hd] at hrest he
          obtain ⟨m, rfl⟩ := Nat.exists_eq_succ_of_ne_zero (by omega : n ≠ 0)
          refine ⟨_, if_neg (by simp at he; omega), Cuts.space (j := j) (by omega) ?_⟩
          rw [hd]
          exact Cuts.nil hrest
        | cons d rest =>
          rw [hd] at hrest he hhead hle
          have hne : d ≠ ch ' ' := by simpa [isSpace] using hhead
          simp only [List.length_cons] at he hle
          obtain ⟨r, hr, hcuts⟩ := ih (a := { a with buf := Function.update a.buf i 0 }.push j) hrest.2.2
            (by omega) (by omega)
          refine ⟨r, hr, Cuts.space (j := j) (by omega) ?_⟩
          rw [hd]
          exact hcuts.cons hne hrest
      · obtain ⟨r, hr, hcuts⟩ := ih h.2.2 (by omega : text.length < n) (by omega)
        refine ⟨r, ?_, hcuts.cons hc h⟩
        rw [parseLoop, if_pos hi, if_neg (by rwa [h.2.1]), hr]

/-! ## The line -/

theorem parseCommandLine_spec {fuel : ℕ} (argv : ℕ → ℤ) (h : TextAt buf 0 line) (hf : line.length < fuel) :
    ∃ r, parseCommandLine fuel buf argv = some r ∧ r.argc = (fields isSpace false line).length ∧
      List.Forall₂ (TextAt r.buf) ((List.range r.argc).map r.argv) (fields isSpace false line) ∧
      r.argv 0 = 0 ∧ r.written = (List.range r.argc).reverse := by
  have hlen : (line.length : ℤ) = 0 + line.length := (zero_add _).symm
  obtain ⟨r, hr, hcuts⟩ := parseLoop_spec (a := ⟨buf, 1, Function.update argv 0 0, [0]⟩) h hf hlen
  have hzero : r.argv 0 = 0 := by
    rw [hcuts.argv 0 Nat.one_pos]
    exact Function.update_self (0 : ℕ) (0 : ℤ) argv
  have hrange : List.range r.argc = 0 :: List.range' 1 (runs isSpace false line) := by
    rw [hcuts.argc, Nat.add_comm, List.range_eq_range', List.range'_succ]
  refine ⟨r, ?_, ?_, ?_, hzero, ?_⟩
  · rw [parseCommandLine, strlen, cstring_eq h hf]
    exact hr
  · rw [hcuts.argc, length_fields, Nat.add_comm]
  · rw [hrange, List.map_cons, hzero]
    exact hcuts.strings
  · rw [hrange, hcuts.written, List.reverse_cons]

/-- The strings at the pointers are determined by the memory. -/
theorem forall₂_textAt_unique {ps : List ℤ} {ss ts : List (List Byte)} (hs : List.Forall₂ (TextAt buf) ps ss)
    (ht : List.Forall₂ (TextAt buf) ps ts) : ss = ts :=
  List.right_unique_forall₂' (fun _ _ _ h h' => h.unique h') hs ht

/-- Where the arguments are exactly the words. -/
theorem splits_iff (argv : ℕ → ℤ) (h : TextAt buf 0 line) :
    Splits buf argv line ↔ fields isSpace false line = words isSpace line := by
  constructor
  · intro ⟨n, hn⟩
    obtain ⟨r, hr, -, hwords⟩ := hn (n + line.length + 1) (by omega)
    obtain ⟨r', hr', -, hfields, -, -⟩ := parseCommandLine_spec argv h (by omega : line.length < n + line.length + 1)
    rw [hr] at hr'
    obtain rfl := Option.some.inj hr'
    exact forall₂_textAt_unique hfields hwords
  · intro he
    refine ⟨line.length + 1, ?_⟩
    intro fuel hfuel
    obtain ⟨r, hr, hargc, hfields, -, -⟩ := parseCommandLine_spec argv h (by omega : line.length < fuel)
    exact ⟨r, hr, he ▸ hargc, he ▸ hfields⟩

/-- Leading and trailing spaces make empty arguments. -/
theorem words_found_iff (argv : ℕ → ℤ) (h : Line buf line) :
    Splits buf argv line ↔ line.head? ≠ some (ch ' ') ∧ line.getLast? ≠ some (ch ' ') := by
  have hl : line ≠ [] := by
    obtain ⟨c, hc, -⟩ := h.word
    exact List.ne_nil_of_mem hc
  rw [splits_iff argv h.text, fields_eq_words_iff isSpace line hl, not_or]
  simp [Option.any_eq_true, isSpace]

theorem line_threeWords : Line (memoryOf (literal "ps -a  x")) (literal "ps -a  x") :=
  ⟨textAt_memoryOf (by decide), ⟨ch 'p', by decide⟩, by decide⟩

theorem words_found_threeWords : Splits (memoryOf (literal "ps -a  x")) (fun _ => 0) (literal "ps -a  x") :=
  (words_found_iff (fun _ => 0) line_threeWords).mpr (by decide)

theorem line_trailingSpace : Line (memoryOf (literal "ps ")) (literal "ps ") :=
  ⟨textAt_memoryOf (by decide), ⟨ch 'p', by decide⟩, by decide⟩

/-- The space behind `ps` makes a second argument, which is empty. -/
theorem trailing_space_counted : Line (memoryOf (literal "ps ")) (literal "ps ") ∧
    ¬ Splits (memoryOf (literal "ps ")) (fun _ => 0) (literal "ps ") := by
  refine ⟨line_trailingSpace, ?_⟩
  rw [splits_iff (fun _ => 0) line_trailingSpace.text]
  decide

/-! ## The command -/

/-- The command is the one that the line begins with. What the shell does not know it reports
up to the first space only, since the line has been cut. -/
theorem execCommand_spec {fuel : ℕ} (commands : List ShellCmd) (argv : ℕ → ℤ) (h : TextAt buf 0 line)
    (hf : line.length < fuel) : ∃ r, parseCommandLine fuel buf argv = some r ∧
      execCommand fuel commands argv buf =
        match commands.find? fun cmd => cmd.name.text = line.takeWhile fun c => !isSpace c with
        | some cmd => some (cmd.func r)
        | none => some (r.buf, TERM_CMD_NOT_FOUND ++ (line.takeWhile fun c => !isSpace c) ++ TERM_CRLF) := by
  obtain ⟨r, hr, hargc, hfields, hzero, -⟩ := parseCommandLine_spec argv h hf
  have hhead := head_fields isSpace line
  obtain ⟨f, fs, he⟩ := List.exists_cons_of_ne_nil (fields_ne_nil isSpace false line)
  rw [he, List.head?_cons] at hhead
  obtain rfl := Option.some.inj hhead
  have hlen := (List.takeWhile_prefix (l := line) fun c => !isSpace c).length_le
  rw [he, List.length_cons] at hargc
  rw [he, hargc, List.range_succ_eq_map, List.map_cons, hzero] at hfields
  have hname := cstring_eq (List.forall₂_cons.mp hfields).1 (Nat.lt_of_le_of_lt hlen hf)
  refine ⟨r, hr, ?_⟩
  rw [execCommand, hr, Option.bind_some, hzero, hname, Option.bind_some]
  rfl

end PikoRT.User.Splitting

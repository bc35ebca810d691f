import Mathlib.Data.List.Basic

/-! # Words and fields of a line

The words of a line are its maximal pieces without a separator. A splitter that cuts at
every run of separators finds its fields instead: they are the words, with an empty one
in front where the line begins with a separator and one behind where it ends with one. -/
namespace PikoRT.Lib.Fields

variable {α : Type*} (sep : α → Bool)

def words (l : List α) : List (List α) := (l.splitOnP sep).filter fun w => !w.isEmpty

/-- The pieces between the runs of separators. The flag says that the list stands in a
run. -/
def fields : Bool → List α → List (List α)
  | _, [] => [[]]
  | inRun, c :: l =>
    if sep c then if inRun then fields true l else [] :: fields true l
    else (fields false l).modifyHead (c :: ·)

/-- How many runs of separators begin in the list. -/
def runs : Bool → List α → ℕ
  | _, [] => 0
  | inRun, c :: l => if sep c then (if inRun then 0 else 1) + runs true l else runs false l

theorem length_fields (inRun : Bool) (l : List α) :
    (fields sep inRun l).length = runs sep inRun l + 1 := by
  induction l generalizing inRun with
  | nil => rfl
  | cons c l ih =>
    simp only [fields, runs]
    split
    · split
      · rw [ih, Nat.zero_add]
      · rw [List.length_cons, ih, Nat.add_comm 1]
    · rw [List.length_modifyHead, ih]

theorem fields_ne_nil (inRun : Bool) (l : List α) : fields sep inRun l ≠ [] := by
  apply List.ne_nil_of_length_pos
  rw [length_fields]
  exact Nat.succ_pos _

/-- Inside of a run the rest of it is skipped. -/
theorem fields_true (l : List α) : fields sep true l = fields sep false (l.dropWhile sep) := by
  induction l with
  | nil => rfl
  | cons c l ih =>
    cases hc : sep c with
    | true => rw [List.dropWhile_cons_of_pos hc, ← ih]; simp [fields, hc]
    | false => rw [List.dropWhile_cons_of_neg (by simp [hc])]; simp [fields, hc]

/-- The first field ends before the first separator. -/
theorem head_fields (l : List α) : (fields sep false l).head? = some (l.takeWhile fun c => !sep c) := by
  induction l with
  | nil => rfl
  | cons c l ih =>
    cases hc : sep c with
    | true => simp [fields, hc]
    | false =>
      obtain ⟨f, fs, hf⟩ := List.exists_cons_of_ne_nil (fields_ne_nil sep false l)
      rw [hf, List.head?_cons] at ih
      simpa [fields, hc, hf] using Option.some.inj ih

/-- A field is what is left of the line when the rest is taken out. -/
theorem sublist_of_mem_fields {inRun : Bool} {l f : List α} (h : f ∈ fields sep inRun l) : f.Sublist l := by
  induction l generalizing inRun f with
  | nil =>
    obtain rfl := List.mem_singleton.mp h
    exact .slnil
  | cons c l ih =>
    cases hc : sep c with
    | true =>
      have hcons : fields sep inRun (c :: l) = if inRun then fields sep true l else [] :: fields sep true l := by
        simp [fields, hc]
      rw [hcons] at h
      split at h
      · exact (ih h).cons c
      · rcases List.mem_cons.mp h with rfl | h
        · exact List.nil_sublist _
        · exact (ih h).cons c
    | false =>
      obtain ⟨g, gs, hg⟩ := List.exists_cons_of_ne_nil (fields_ne_nil sep false l)
      have hcons : fields sep inRun (c :: l) = (c :: g) :: gs := by simp [fields, hc, hg]
      rw [hcons] at h
      rcases List.mem_cons.mp h with rfl | h
      · exact (ih (hg ▸ List.mem_cons_self)).cons_cons c
      · exact (ih (hg ▸ List.mem_cons_of_mem _ h)).cons c

/-! ## Words of what stands side by side -/

theorem words_nil : words sep [] = [] := rfl

theorem words_append_cons (l m : List α) {c : α} (hc : sep c = true) :
    words sep (l ++ c :: m) = words sep l ++ words sep m := by
  rw [words, List.splitOnP_append_cons l m hc, List.filter_append, words, words]

theorem words_cons {c : α} (hc : sep c = true) (m : List α) : words sep (c :: m) = words sep m :=
  words_append_cons sep [] m hc

/-- A separator at the end keeps what comes behind apart. -/
theorem words_append_of_getLast {l : List α} (m : List α) {c : α} (hl : l.getLast? = some c) (hc : sep c = true) :
    words sep (l ++ m) = words sep l ++ words sep m := by
  obtain ⟨l', rfl⟩ := List.getLast?_eq_some_iff.mp hl
  rw [List.append_assoc, List.singleton_append, words_append_cons sep l' m hc, words_append_cons sep l' [] hc,
    words_nil,
    List.append_nil]

/-- So does one in front. -/
theorem words_append_of_head (l : List α) {m : List α} {c : α} (hm : m.head? = some c) (hc : sep c = true) :
    words sep (l ++ m) = words sep l ++ words sep m := by
  obtain ⟨m', rfl⟩ := List.head?_eq_some_iff.mp hm
  rw [words_append_cons sep l m' hc, words_cons sep hc]

theorem words_of_forall {l : List α} (hne : l ≠ []) (h : ∀ c ∈ l, sep c = false) : words sep l = [l] := by
  rw [words, List.splitOnP_eq_singleton h, List.filter_cons_of_pos (by simpa using hne), List.filter_nil]

/-! ## The fields and the words -/

/-- The first field is the piece up to the first separator, and the others give the same
words as the other pieces. -/
theorem fields_split (l : List α) :
    (∃ f fs gs, fields sep false l = f :: fs ∧ l.splitOnP sep = f :: gs ∧
      (fs.filter fun w => !w.isEmpty) = gs.filter fun w => !w.isEmpty) ∧
    ((fields sep true l).filter fun w => !w.isEmpty) = words sep l := by
  induction l with
  | nil => exact ⟨⟨[], [], [], rfl, rfl, rfl⟩, rfl⟩
  | cons c l ih =>
    obtain ⟨⟨f, fs, gs, hf, hs, he⟩, ht⟩ := ih
    cases hc : sep c with
    | true =>
      have hs' : (c :: l).splitOnP sep = [] :: l.splitOnP sep := by
        rw [List.splitOnP_cons_eq_if_modifyHead, if_pos hc]
      refine ⟨⟨[], fields sep true l, l.splitOnP sep, by simp [fields, hc], hs', ht⟩, ?_⟩
      rw [words, hs', List.filter_cons_of_neg (by simp)]
      simpa [fields, hc, words] using ht
    | false =>
      have hs' : (c :: l).splitOnP sep = (c :: f) :: gs := by
        rw [List.splitOnP_cons_eq_if_modifyHead, if_neg (by simp [hc]), hs]
        rfl
      have hf' (b : Bool) : fields sep b (c :: l) = (c :: f) :: fs := by simp [fields, hc, hf]
      refine ⟨⟨c :: f, fs, gs, hf' false, hs', he⟩, ?_⟩
      rw [words, hs', hf', List.filter_cons_of_pos (by simp), List.filter_cons_of_pos (by simp), he]

theorem filter_fields (l : List α) :
    ((fields sep false l).filter fun w => !w.isEmpty) = words sep l := by
  obtain ⟨⟨f, fs, gs, hf, hs, he⟩, -⟩ := fields_split sep l
  rw [words, hf, hs, List.filter_cons, List.filter_cons, he]

/-- Which lines have an empty field, behind the first one and inside of a run. -/
theorem nil_mem_fields_aux (l : List α) :
    ([] ∈ (fields sep false l).tail ↔ l.getLast?.any sep) ∧
    ([] ∈ fields sep true l ↔ l = [] ∨ l.getLast?.any sep) := by
  induction l with
  | nil => simp [fields]
  | cons c l ih =>
    obtain ⟨htail, htrue⟩ := ih
    have hlast : (c :: l).getLast?.any sep = true ↔
        (l = [] ∧ sep c) ∨ l.getLast?.any sep := by
      cases l with
      | nil => simp
      | cons d l => simp [List.getLast?_cons]
    cases hc : sep c with
    | true =>
      have h : l = [] ∨ l.getLast?.any sep ↔ (c :: l).getLast?.any sep := by simp [hlast, hc]
      exact ⟨by simpa [fields, hc] using htrue.trans h, by simpa [fields, hc] using htrue.trans h⟩
    | false =>
      obtain ⟨f, fs, hf⟩ := List.exists_cons_of_ne_nil (fields_ne_nil sep false l)
      rw [hf, List.tail_cons] at htail
      have h : [] ∈ fs ↔ (c :: l).getLast?.any sep := by simp [hlast, hc, htail]
      exact ⟨by simpa [fields, hc, hf] using h, by simpa [fields, hc, hf] using h⟩

theorem nil_mem_fields (l : List α) (hl : l ≠ []) :
    [] ∈ fields sep false l ↔ l.head?.any sep ∨ l.getLast?.any sep := by
  cases l with
  | nil => contradiction
  | cons c l =>
    obtain ⟨htail, -⟩ := nil_mem_fields_aux sep (c :: l)
    rw [← htail]
    cases hc : sep c with
    | true => simp [fields, hc]
    | false =>
      obtain ⟨f, fs, hf⟩ := List.exists_cons_of_ne_nil (fields_ne_nil sep false l)
      simp [fields, hc, hf]

/-- The fields are the words where there is no separator at either end. -/
theorem fields_eq_words_iff (l : List α) (hl : l ≠ []) :
    fields sep false l = words sep l ↔ ¬ (l.head?.any sep ∨ l.getLast?.any sep) := by
  rw [← nil_mem_fields sep l hl, ← filter_fields, eq_comm, List.filter_eq_self]
  constructor
  · intro h hm
    simpa using h [] hm
  · intro h w hw
    cases w with
    | nil => contradiction
    | cons c w => rfl

end PikoRT.Lib.Fields

import PikoRT.Fs.OpenClose

/-! # Walking a path

`path_head` counts its limit from the slash that it stands on, so that a name has 31
characters when it follows a slash and 32 when it does not. A longer component is handed on
in pieces. A path that begins with two slashes loses the empty component between them. -/
namespace PikoRT.Fs.PathWalk
open PikoRT.Kernel.Bitops PikoRT.Libc.Printf
open PikoRT.Fs.Romfs PikoRT.Fs.RomfsLookup PikoRT.Fs.Vfs PikoRT.Fs.Open PikoRT.Fs.OpenClose

/-- The path begins with a slash. -/
def Absolute (pathname : Pathname) : Prop := pathname.text.head? = some (ch '/')

instance (pathname : Pathname) : Decidable (Absolute pathname) :=
  inferInstanceAs (Decidable (pathname.text.head? = some (ch '/')))

/-- What stands between the slashes of a path; `/` has no component. -/
def components (pathname : Pathname) : List (List Byte) :=
  if pathname.text.tail = [] then [] else pathname.text.tail.splitOn (ch '/')

/-- The names that the loop of `sys_open` hands to `vfs_lookup`. -/
def openHanded (fuel : ℕ) : List (List Byte) → Ptr → Ptr → System → List (List Byte)
  | [], _, _, _ => []
  | name :: names, inode, parent, s =>
    match s.malloc fuel sizeofDentry with
    | some (some addr, t) =>
      name :: match vfsLookup fuel inode name (initDentry addr parent name t) with
        | some (some found, u) => openHanded fuel names found.1 (.heap addr) (fillDentry addr found u)
        | _ => []
    | _ => []

/-- The names that the loop of `inode_from_pathname` hands to `vfs_lookup`. -/
def lookupHanded (fuel : ℕ) : List (List Byte) → Ptr → System → List (List Byte)
  | [], _, _ => []
  | name :: names, inode, s =>
    name :: match vfsLookup fuel inode name s with
      | some (some found, t) => lookupHanded fuel names found.1 t
      | _ => []

/-- What walking a path has to be like. -/
structure Faithful (pathname : Pathname) : Prop where
  /-- Every `path_head` consumes a character, and none behind the path. -/
  progress : ∀ rest, rest <:+ pathname.next → rest ≠ [] →
    0 < (pathHead rest).1 ∧ (pathHead rest).1 ≤ rest.length
  /-- Nothing is left of the path after so many rounds. -/
  terminates : ∀ n, pathname.next.length ≤ n → pathNamesFrom n pathname.next = pathNames pathname.next
  /-- The NUL behind a name lies in `d_name`. -/
  inside : ∀ name ∈ pathNames pathname.next, name.length < NAME_MAX
  opens : ∀ fuel s, openHanded fuel (pathNames pathname.next) rootInode rootDentry s <+: components pathname
  opensAll : ∀ fuel s found t,
    openNames fuel (pathNames pathname.next) rootInode rootDentry s = some (.ok found, t) →
      openHanded fuel (pathNames pathname.next) rootInode rootDentry s = components pathname
  looksUp : ∀ fuel s, lookupHanded fuel (pathNames pathname.next) rootInode s <+: components pathname
  looksUpAll : ∀ fuel s found t,
    lookupPath fuel (pathNames pathname.next) rootInode s = some (some found, t) →
      lookupHanded fuel (pathNames pathname.next) rootInode s = components pathname

/-- Every component fits into `d_name` with a NUL, and the path does not begin with two slashes. -/
def Plain (pathname : Pathname) : Prop :=
  (∀ c ∈ components pathname, c.length < NAME_MAX) ∧ pathname.text.tail.head? ≠ some (ch '/')

instance (pathname : Pathname) : Decidable (Plain pathname) :=
  inferInstanceAs (Decidable ((∀ c ∈ components pathname, c.length < NAME_MAX) ∧ _))

section

variable {rest cs : List Byte} {c : Byte} {names : List (List Byte)} {n : ℕ}

/-! ## `path_head` -/

/-- Up to the next slash. -/
def upToSlash (cs : List Byte) : List Byte := cs.takeWhile fun c => decide (c ≠ ch '/')

theorem pathHead_slash (cs : List Byte) :
    pathHead (ch '/' :: cs) =
      (1 + ((upToSlash cs).take (NAME_MAX - 1)).length, (upToSlash cs).take (NAME_MAX - 1)) := rfl

theorem pathHead_noSlash (h : c ≠ ch '/') :
    pathHead (c :: cs) = (((upToSlash (c :: cs)).take NAME_MAX).length, (upToSlash (c :: cs)).take NAME_MAX) := by
  have hhead : ¬ (c :: cs).head? = some (ch '/') := fun he => h (Option.some.inj he)
  simp only [pathHead, if_neg hhead, List.drop_zero, Nat.sub_zero, Nat.zero_add]
  rfl

theorem length_upToSlash_le (cs : List Byte) : (upToSlash cs).length ≤ cs.length :=
  (List.takeWhile_prefix _).length_le

theorem upToSlash_cons (h : c ≠ ch '/') : upToSlash (c :: cs) = c :: upToSlash cs :=
  List.takeWhile_cons_of_pos (decide_eq_true h)

theorem pathHead_progress (h : rest ≠ []) : 0 < (pathHead rest).1 ∧ (pathHead rest).1 ≤ rest.length := by
  cases rest with
  | nil => exact absurd rfl h
  | cons c cs =>
    by_cases hc : c = ch '/'
    · rw [hc, pathHead_slash]
      have := length_upToSlash_le cs
      simp only [List.length_take, List.length_cons]
      omega
    · rw [pathHead_noSlash hc]
      have := length_upToSlash_le (c :: cs)
      simp only [upToSlash_cons hc, List.length_take, List.length_cons, NAME_MAX] at this ⊢
      omega

/-! ## The rounds -/

/-- So many rounds as the path has characters are enough. -/
theorem pathNamesFrom_enough {m : ℕ} (hn : rest.length ≤ n) (hm : rest.length ≤ m) :
    pathNamesFrom n rest = pathNamesFrom m rest := by
  induction n generalizing rest m with
  | zero =>
    obtain rfl := List.length_eq_zero_iff.mp (Nat.le_zero.mp hn)
    cases m <;> rfl
  | succ n ih =>
    cases rest with
    | nil => cases m <;> rfl
    | cons c cs =>
      cases m with
      | zero => simp at hm
      | succ m =>
        obtain ⟨hpos, hle⟩ := pathHead_progress (List.cons_ne_nil c cs)
        have hlen := List.length_drop (i := (pathHead (c :: cs)).1) (l := c :: cs)
        rw [pathNamesFrom, pathNamesFrom, ih (m := m)]
        all_goals omega

theorem pathNames_cons (c : Byte) (cs : List Byte) :
    pathNames (c :: cs) = (pathHead (c :: cs)).2 :: pathNames ((c :: cs).drop (pathHead (c :: cs)).1) := by
  obtain ⟨hpos, hle⟩ := pathHead_progress (List.cons_ne_nil c cs)
  have hlen := List.length_drop (i := (pathHead (c :: cs)).1) (l := c :: cs)
  rw [List.length_cons] at hlen
  rw [pathNames, List.length_cons, pathNamesFrom, pathNames, pathNamesFrom_enough (m := cs.length) le_rfl]
  all_goals omega

/-! ## The components -/

theorem noSlash_upToSlash (cs : List Byte) : ch '/' ∉ upToSlash cs := by
  intro h
  have hne := List.mem_takeWhile_imp h
  simp at hne

theorem dropWhile_head {d : Byte} {ds : List Byte} (h : (cs.dropWhile fun c => decide (c ≠ ch '/')) = d :: ds) :
    d = ch '/' := by
  have hstop := List.head?_dropWhile_not (fun c => decide (c ≠ ch '/')) cs
  rw [h, List.head?_cons] at hstop
  simpa using hstop

/-- Behind the first component stands nothing, or a slash and the next components. -/
theorem splitOn_cases (cs : List Byte) :
    (cs.drop (upToSlash cs).length = [] ∧ cs.splitOn (ch '/') = [upToSlash cs]) ∨
    ∃ ds, cs.drop (upToSlash cs).length = ch '/' :: ds ∧ ds.length < cs.length ∧
      cs.splitOn (ch '/') = upToSlash cs :: ds.splitOn (ch '/') := by
  have happ : upToSlash cs ++ cs.dropWhile (fun c => decide (c ≠ ch '/')) = cs := List.takeWhile_append_dropWhile
  have hdrop : cs.drop (upToSlash cs).length = cs.dropWhile fun c => decide (c ≠ ch '/') := by
    have hleft := @List.drop_left _ (upToSlash cs) (cs.dropWhile fun c => decide (c ≠ ch '/'))
    rwa [happ] at hleft
  rw [hdrop]
  cases hd : cs.dropWhile (fun c => decide (c ≠ ch '/')) with
  | nil =>
    rw [hd, List.append_nil] at happ
    refine .inl ⟨rfl, ?_⟩
    rw [List.splitOn_eq_singleton (happ ▸ noSlash_upToSlash cs), happ]
  | cons d ds =>
    obtain rfl := dropWhile_head hd
    rw [hd] at happ
    refine .inr ⟨ds, rfl, ?_, ?_⟩
    · have := congrArg List.length happ
      simp only [List.length_append, List.length_cons] at this
      omega
    · conv_lhs => rw [← happ]
      exact List.splitOn_append_cons_self_of_not_mem (noSlash_upToSlash cs) ds

/-- Behind a slash the names are the components, when each of them fits. -/
theorem pathNames_slash (h : ∀ c ∈ cs.splitOn (ch '/'), c.length < NAME_MAX) :
    pathNames (ch '/' :: cs) = cs.splitOn (ch '/') := by
  induction hn : cs.length using Nat.strong_induction_on generalizing cs with
  | _ n ih =>
    subst hn
    rw [pathNames_cons, pathHead_slash]
    rcases splitOn_cases cs with ⟨hdrop, hsplit⟩ | ⟨ds, hdrop, hlt, hsplit⟩
    · rw [hsplit] at h ⊢
      have hfit : (upToSlash cs).length ≤ NAME_MAX - 1 := Nat.le_sub_one_of_lt (h _ List.mem_cons_self)
      simp only [List.take_of_length_le hfit, Nat.add_comm 1, List.drop_succ_cons, hdrop]
      rfl
    · rw [hsplit] at h ⊢
      have hfit : (upToSlash cs).length ≤ NAME_MAX - 1 := Nat.le_sub_one_of_lt (h _ List.mem_cons_self)
      simp only [List.take_of_length_le hfit, Nat.add_comm 1, List.drop_succ_cons, hdrop]
      rw [ih ds.length hlt (fun c hc => h c (List.mem_cons_of_mem _ hc)) rfl]

/-- The same at the start of a path, which has no slash of its own. -/
theorem pathNames_noSlash (hc : c ≠ ch '/') (h : ∀ d ∈ (c :: cs).splitOn (ch '/'), d.length < NAME_MAX) :
    pathNames (c :: cs) = (c :: cs).splitOn (ch '/') := by
  rw [pathNames_cons, pathHead_noSlash hc]
  rcases splitOn_cases (c :: cs) with ⟨hdrop, hsplit⟩ | ⟨ds, hdrop, -, hsplit⟩
  · rw [hsplit] at h ⊢
    simp only [List.take_of_length_le (h _ List.mem_cons_self).le, hdrop]
    rfl
  · rw [hsplit] at h ⊢
    simp only [List.take_of_length_le (h _ List.mem_cons_self).le, hdrop]
    rw [pathNames_slash fun d hd => h d (List.mem_cons_of_mem _ hd)]

/-- The first of two slashes is taken off with the name behind it, and the component before it is not
handed on. -/
theorem pathNames_slash_ne (cs : List Byte) : pathNames (ch '/' :: cs) ≠ (ch '/' :: cs).splitOn (ch '/') := by
  induction hn : cs.length using Nat.strong_induction_on generalizing cs with
  | _ n ih =>
    subst hn
    intro h
    rw [pathNames_cons, pathHead_slash, List.splitOn_cons_eq_if_modifyHead, if_pos (beq_self_eq_true _)] at h
    obtain ⟨hname, hrest⟩ := List.cons.inj h
    have hnil : upToSlash cs = [] := by
      simpa [NAME_MAX] using hname
    simp only [hnil, List.take_nil, List.length_nil, Nat.add_zero, List.drop_one, List.tail_cons] at hrest
    rcases splitOn_cases cs with ⟨hdrop, hsplit⟩ | ⟨ds, hdrop, hlt, hsplit⟩
    · rw [hnil, List.length_nil, List.drop_zero] at hdrop
      rw [hdrop] at hrest
      exact List.splitOn_ne_nil _ _ hrest.symm
    · rw [hnil, List.length_nil, List.drop_zero] at hdrop
      rw [hdrop] at hrest
      exact ih ds.length hlt ds rfl hrest

end

section

variable {pathname : Pathname} {names : List (List Byte)} {fuel : ℕ} {inode parent : Ptr} {s t : System}

/-! ## What is handed on -/

theorem openHanded_prefix (names : List (List Byte)) (inode parent : Ptr) (s : System) :
    openHanded fuel names inode parent s <+: names := by
  induction names generalizing inode parent s with
  | nil => exact List.nil_prefix
  | cons name names ih =>
    rw [openHanded]
    split
    · refine (List.prefix_cons_inj name).mpr ?_
      split
      · exact ih ..
      · exact List.nil_prefix
    · exact List.nil_prefix

theorem openHanded_all {found : Ptr × Ptr} (h : openNames fuel names inode parent s = some (.ok found, t)) :
    openHanded fuel names inode parent s = names := by
  induction names generalizing inode parent s with
  | nil => rfl
  | cons name names ih =>
    obtain ⟨⟨o, u⟩, hm, h⟩ := Option.bind_eq_some_iff.mp h
    cases o with
    | none => cases h
    | some addr =>
      obtain ⟨⟨q, v⟩, hl, h⟩ := Option.bind_eq_some_iff.mp h
      cases q with
      | none =>
        obtain ⟨r, -, hr⟩ := Option.map_eq_some_iff.mp h
        cases hr
      | some next =>
        rw [openHanded, hm]
        simp only [hl, ih h]

theorem lookupHanded_prefix (names : List (List Byte)) (inode : Ptr) (s : System) :
    lookupHanded fuel names inode s <+: names := by
  induction names generalizing inode s with
  | nil => exact List.nil_prefix
  | cons name names ih =>
    rw [lookupHanded]
    refine (List.prefix_cons_inj name).mpr ?_
    split
    · exact ih ..
    · exact List.nil_prefix

theorem lookupHanded_all {found : Ptr} (h : lookupPath fuel names inode s = some (some found, t)) :
    lookupHanded fuel names inode s = names := by
  induction names generalizing inode s with
  | nil => rfl
  | cons name names ih =>
    obtain ⟨⟨q, v⟩, hl, h⟩ := Option.bind_eq_some_iff.mp h
    cases q with
    | none => cases h
    | some next =>
      rw [lookupHanded, hl]
      simp only [ih h]

/-! ## A root that has every name -/

/-- Every inode is a tmpfs directory with these entries. -/
def mirror (entries : List Dirlist) : System :=
  { longSystem with inodes := fun _ => ⟨sIfdir, 1, 2, .tmpfs, some .tmpfs, 0, 0⟩, dirlists := fun _ => entries }

theorem vfsLookup_mirror {entries : List Dirlist} {name : List Byte} (hroot : ∀ e ∈ entries, e.inode = rootInode)
    (hname : ∃ e ∈ entries, e.name.text = name) :
    vfsLookup fuel rootInode name (mirror entries) = some (some (rootInode, .tmpfs), mirror entries) := by
  obtain ⟨e, he, rfl⟩ := hname
  cases hf : entries.find? fun d => decide (d.name.text = e.name.text) with
  | none => exact absurd (List.find?_eq_none.mp hf e he) (by simp)
  | some d =>
    have hd : tmpfsLookup rootInode e.name.text (mirror entries) = some (rootInode, .tmpfs) := by
      show (entries.find? fun d => decide (d.name.text = e.name.text)).map _ = _
      rw [hf, Option.map_some, hroot d (List.mem_of_find?_eq_some hf)]
    have hdir : sIsdir ((mirror entries).inodes rootInode).iMode = true := by
      show sIsdir sIfdir = true
      decide
    rw [vfsLookup, if_pos hdir, ← hd]
    rfl

theorem lookupPath_mirror {entries : List Dirlist} (hroot : ∀ e ∈ entries, e.inode = rootInode)
    (hnames : ∀ name ∈ names, ∃ e ∈ entries, e.name.text = name) :
    lookupPath fuel names rootInode (mirror entries) = some (some rootInode, mirror entries) := by
  induction names with
  | nil => rfl
  | cons name names ih =>
    rw [lookupPath, vfsLookup_mirror hroot (hnames name List.mem_cons_self), Option.bind_some]
    exact ih fun n hn => hnames n (List.mem_cons_of_mem _ hn)

/-- One entry for each name of the path. -/
def entriesFor (names : List (List Byte)) (h : ∀ name ∈ names, 0 ∉ name ∧ name.length < NAME_MAX) : List Dirlist :=
  names.pmap (fun name hn => ⟨rootInode, ⟨name, hn.1⟩, hn.2⟩) h

theorem entriesFor_spec (h : ∀ name ∈ names, 0 ∉ name ∧ name.length < NAME_MAX) :
    (∀ e ∈ entriesFor names h, e.inode = rootInode) ∧ ∀ name ∈ names, ∃ e ∈ entriesFor names h,
      e.name.text = name := by
  constructor
  · intro e he
    obtain ⟨name, hn, rfl⟩ := List.mem_pmap.mp he
    rfl
  · intro name hn
    exact ⟨_, List.mem_pmap.mpr ⟨name, hn, rfl⟩, rfl⟩

/-! ## Which paths are walked as they are written -/

theorem mem_of_mem_pathHead {rest : List Byte} {b : Byte} (h : b ∈ (pathHead rest).2) : b ∈ rest :=
  List.mem_of_mem_drop ((List.takeWhile_sublist _).mem (List.mem_of_mem_take h))

theorem mem_of_mem_pathNamesFrom {n : ℕ} {rest name : List Byte} {b : Byte} (hn : name ∈ pathNamesFrom n rest)
    (hb : b ∈ name) : b ∈ rest := by
  induction n generalizing rest with
  | zero => cases hn
  | succ n ih =>
    cases rest with
    | nil => cases hn
    | cons c cs =>
      rcases List.mem_cons.mp hn with rfl | hn
      · exact mem_of_mem_pathHead hb
      · exact List.mem_of_mem_drop (ih hn)

theorem next_eq_tail (h : Absolute pathname) : pathname.next = pathname.text.tail := by
  unfold Absolute at h
  unfold Pathname.next
  cases htext : pathname.text with
  | nil => rw [htext] at h; cases h
  | cons c cs => rfl

theorem pathNames_eq_components (h : Absolute pathname) (hp : Plain pathname) :
    pathNames pathname.next = components pathname := by
  obtain ⟨hfit, hslash⟩ := hp
  rw [next_eq_tail h]
  unfold components at hfit ⊢
  cases htail : pathname.text.tail with
  | nil => rfl
  | cons c cs =>
    rw [htail, if_neg (List.cons_ne_nil c cs)] at hfit
    rw [htail] at hslash
    rw [if_neg (List.cons_ne_nil c cs)]
    exact pathNames_noSlash (fun hc => hslash (congrArg some hc)) hfit

end

/-- **The names handed on are the components of the path, each with room for its NUL, exactly
when the components are short and the path does not begin with two slashes.** -/
theorem faithful_iff (pathname : Pathname) (h : Absolute pathname) : Faithful pathname ↔ Plain pathname := by
  constructor
  · intro hf
    have hshort : ∀ name ∈ pathNames pathname.next, 0 ∉ name ∧ name.length < NAME_MAX := by
      intro name hn
      refine ⟨fun h0 => ?_, hf.inside name hn⟩
      have h0 : 0 ∈ pathname.text.tail := next_eq_tail h ▸ mem_of_mem_pathNamesFrom hn h0
      exact pathname.noNul (List.mem_of_mem_tail h0)
    -- where every name is found, all of them are handed on
    obtain ⟨hroot, hall⟩ := entriesFor_spec hshort
    have hlook : lookupPath 0 (pathNames pathname.next) rootInode (mirror _) = some (some rootInode, mirror _) :=
      lookupPath_mirror hroot hall
    have hnames : pathNames pathname.next = components pathname :=
      (lookupHanded_all hlook).symm.trans (hf.looksUpAll _ _ _ _ hlook)
    refine ⟨fun c hc => hf.inside c (hnames ▸ hc), fun hslash => ?_⟩
    rw [next_eq_tail h] at hnames
    obtain ⟨cs, htail⟩ : ∃ cs, pathname.text.tail = ch '/' :: cs := List.head?_eq_some_iff.mp hslash
    unfold components at hnames
    rw [htail, if_neg (List.cons_ne_nil _ cs)] at hnames
    exact pathNames_slash_ne cs hnames
  · intro hp
    have hnames := pathNames_eq_components h hp
    constructor
    · exact fun rest _ hne => pathHead_progress hne
    · exact fun n hn => pathNamesFrom_enough hn le_rfl
    · exact fun name hn => hp.1 name (hnames ▸ hn)
    · exact fun fuel s => hnames ▸ openHanded_prefix ..
    · exact fun fuel s found t ho => (openHanded_all ho).trans hnames
    · exact fun fuel s => hnames ▸ lookupHanded_prefix ..
    · exact fun fuel s found t hl => (lookupHanded_all hl).trans hnames

/-- The longest component that fits, behind the first. -/
theorem faithful_longest : Absolute (path "/dev/aaaaaaaaaaaaaaaaaaaaaaaaaaaaaaa") ∧
    Faithful (path "/dev/aaaaaaaaaaaaaaaaaaaaaaaaaaaaaaa") :=
  ⟨by decide +kernel, (faithful_iff _ (by decide +kernel)).mpr (by decide +kernel)⟩

/-- A first component of 32 characters has its NUL behind `d_name`, and later it is handed on in two pieces. -/
theorem longest_not_faithful : Absolute (path "/bbbbbbbbbbbbbbbbbbbbbbbbbbbbbbbb") ∧
    ¬ Faithful (path "/bbbbbbbbbbbbbbbbbbbbbbbbbbbbbbbb") ∧
    pathNames (path "/dev/bbbbbbbbbbbbbbbbbbbbbbbbbbbbbbbb").next =
      [(text "dev").text, (text "bbbbbbbbbbbbbbbbbbbbbbbbbbbbbbb").text, (text "b").text] ∧
    components (path "/dev/bbbbbbbbbbbbbbbbbbbbbbbbbbbbbbbb") = [(text "dev").text, fileName.text] := by
  refine ⟨by decide +kernel, fun hf => ?_, by decide +kernel, by decide +kernel⟩
  have hlen := hf.inside fileName.text (by decide +kernel)
  exact absurd hlen (by decide)

end PikoRT.Fs.PathWalk

import PikoRT.Kernel.LinuxList

/-! # Several lists in one memory

The heads of a set, each with its list, and no item in two lists. What a function of
the list header does to one list leaves the others as they are. -/
namespace PikoRT.Kernel.ListFamily
open PikoRT.Lib.Rings PikoRT.Kernel.LinuxList

variable {H I : Type}

def nodes (xs : List I) : List (Node H I) := xs.map .item

/-- The node after the head, when these items are in the list. -/
def first (h : H) : List I → Node H I
  | [] => .head h
  | i :: _ => .item i

theorem mem_nodes {i : I} {xs : List I} : (.item i : Node H I) ∈ nodes xs ↔ i ∈ xs :=
  List.mem_map_of_injective fun _ _ h => Node.item.inj h

theorem item_notMem {h : H} {i : I} {xs : List I} (hi : i ∉ xs) : .item i ∉ Node.head h :: nodes xs := by
  intro hm
  rcases List.mem_cons.mp hm with hm | hm
  · cases hm
  · exact hi (mem_nodes.mp hm)

theorem head_notMem {h g : H} {xs : List I} (hne : g ≠ h) : .head g ∉ Node.head h :: nodes xs := by
  intro hm
  rcases List.mem_cons.mp hm with hm | hm
  · exact hne (Node.head.inj hm)
  · obtain ⟨i, -, he⟩ := List.mem_map.mp hm
    cases he

/-- The heads of `D` have the lists `q`. -/
structure Lists (D : Set H) (l : Memory H I) (q : H → List I) : Prop where
  ring : ∀ h ∈ D, Ring l (.head h) (nodes (q h))
  outside : ∀ h ∉ D, q h = []
  apart : ∀ h g i, i ∈ q h → i ∈ q g → h = g

section

variable {D : Set H} {l l' : Memory H I} {q : H → List I} {g h : H} {i : I} {xs : List I}

theorem Lists.mem (hl : Lists D l q) (hi : i ∈ q h) : h ∈ D := by
  by_contra hh
  rw [hl.outside h hh] at hi
  cases hi

theorem Lists.nodup (hl : Lists D l q) (hh : h ∈ D) : (q h).Nodup :=
  List.Nodup.of_map _ (List.nodup_cons.mp (hl.ring h hh).nodup).2

theorem Lists.next_head (hl : Lists D l q) (hh : h ∈ D) : l.next (.head h) = first h (q h) := by
  rw [(hl.ring h hh).next_head]
  cases q h <;> rfl

theorem Lists.prev_head (hl : Lists D l q) (hh : h ∈ D) : l.prev (.head h) = first h (q h).reverse := by
  have hring : Ring l.flip (.head h) (nodes (q h).reverse) := by
    rw [nodes, List.map_reverse]
    exact (hl.ring h hh).flip
  have hhead : l.prev (.head h) = _ := hring.next_head
  rw [hhead]
  cases (q h).reverse <;> rfl

theorem Lists.disjoint (hl : Lists D l q) (hne : h ≠ g) :
    ∀ z ∈ Node.head h :: nodes (q h), z ∉ Node.head g :: nodes (q g) := by
  intro z hz
  rcases List.mem_cons.mp hz with rfl | hz
  · exact head_notMem hne
  · obtain ⟨i, hi, rfl⟩ := List.mem_map.mp hz
    exact item_notMem fun hig => hne (hl.apart h g i hi hig)

/-- One list changes. -/
theorem Lists.replace [DecidableEq H] (hl : Lists D l q) (hg : g ∈ D) (hr : Ring l' (.head g) (nodes xs))
    (ho : ∀ h ∈ D, h ≠ g → Ring l' (.head h) (nodes (q h))) (hx : ∀ j ∈ xs, ∀ h, j ∈ q h → h = g) :
    Lists D l' (Function.update q g xs) := by
  refine ⟨fun h hh => ?_, fun h hh => ?_, fun h h' j hj hj' => ?_⟩
  · by_cases he : h = g
    · subst he
      rw [Function.update_self]
      exact hr
    · rw [Function.update_of_ne he]
      exact ho h hh he
  · have he : h ≠ g := fun he => hh (he ▸ hg)
    rw [Function.update_of_ne he]
    exact hl.outside h hh
  · by_cases he : h = g
    · subst he
      rw [Function.update_self] at hj
      by_contra hne
      rw [Function.update_of_ne (Ne.symm hne)] at hj'
      exact hne (hx j hj h' hj').symm
    · rw [Function.update_of_ne he] at hj
      by_cases he' : h' = g
      · subst he'
        rw [Function.update_self] at hj'
        exact hx j hj' h hj
      · rw [Function.update_of_ne he'] at hj'
        exact hl.apart h h' j hj hj'

/-- What is written to a node that is in no list does not matter. -/
theorem Lists.other (hl : Lists D l q) {n : Node H I} (hn : ∀ h ∈ D, n ∉ Node.head h :: nodes (q h))
    (hnext : ∀ z, z ≠ n → l'.next z = l.next z) (hprev : ∀ z, z ≠ n → l'.prev z = l.prev z) : Lists D l' q := by
  refine ⟨fun h hh => ?_, hl.outside, hl.apart⟩
  have hne : ∀ z ∈ Node.head h :: nodes (q h), z ≠ n := by
    rintro z hz rfl
    exact hn h hh hz
  exact (hl.ring h hh).congr (fun z hz => hnext z (hne z hz)) fun z hz => hprev z (hne z hz)

variable [DecidableEq H] [DecidableEq I]

/-- `list_add` of an item that is in no list. -/
theorem Lists.add (hl : Lists D l q) (hg : g ∈ D) (hi : ∀ h, i ∉ q h) :
    Lists D (listAdd (.item i) (.head g) l) (Function.update q g (i :: q g)) := by
  refine hl.replace hg ?_ (fun h hh hne => ?_) fun j hj h hjh => ?_
  · exact ring_listAdd (hl.ring g hg) (item_notMem (hi g))
  · exact ring_listAdd_other (hl.ring g hg) (hl.ring h hh) (item_notMem (hi h)) (hl.disjoint (Ne.symm hne))
  · rcases List.mem_cons.mp hj with rfl | hj
    · exact absurd hjh (hi h)
    · exact hl.apart h g j hjh hj

/-- `list_add_tail` of an item that is in no list. -/
theorem Lists.addTail (hl : Lists D l q) (hg : g ∈ D) (hi : ∀ h, i ∉ q h) :
    Lists D (listAddTail (.item i) (.head g) l) (Function.update q g (q g ++ [i])) := by
  refine hl.replace hg ?_ (fun h hh hne => ?_) fun j hj h hjh => ?_
  · rw [nodes, List.map_append]
    exact ring_listAddTail (hl.ring g hg) (item_notMem (hi g))
  · exact ring_listAddTail_other (hl.ring g hg) (hl.ring h hh) (item_notMem (hi h)) (hl.disjoint (Ne.symm hne))
  · rcases List.mem_append.mp hj with hj | hj
    · exact hl.apart h g j hjh hj
    · rw [List.mem_singleton.mp hj] at hjh
      exact absurd hjh (hi h)

theorem nodes_erase (i : I) (xs : List I) : (nodes (xs.erase i) : List (Node H I)) = (nodes xs).erase (.item i) :=
  List.map_erase (fun _ _ he => Node.item.inj he) xs

/-- `__list_del` of an item. -/
theorem Lists.join (hl : Lists D l q) (hi : i ∈ q g) :
    Lists D (listDelBetween (l.prev (.item i)) (l.next (.item i)) l) (Function.update q g ((q g).erase i)) := by
  have hg := hl.mem hi
  have hnode : Node.item i ∈ (nodes (q g) : List (Node H I)) := mem_nodes.mpr hi
  have hmem : .item i ∈ Node.head g :: nodes (q g) := List.mem_cons_of_mem _ hnode
  refine hl.replace hg ?_ (fun h hh hne => ?_) fun j hj h hjh => ?_
  · have hring := hl.ring g hg
    obtain ⟨us, vs, -, hsplit, herase⟩ := List.exists_erase_eq hnode
    rw [hsplit] at hring
    rw [nodes_erase, herase]
    exact hring.remove
  · have hd := hl.disjoint (Ne.symm hne)
    exact (hl.ring h hh).join_other (hd _ ((hl.ring g hg).prev_mem hmem)) (hd _ ((hl.ring g hg).next_mem hmem))
  · exact hl.apart h g j hjh (List.mem_of_mem_erase hj)

theorem Lists.mem_erase (hl : Lists D l q) (hi : i ∈ q g) {j : I} :
    j ∈ Function.update q g ((q g).erase i) h ↔ j ≠ i ∧ j ∈ q h := by
  by_cases hh : h = g
  · subst hh
    rw [Function.update_self]
    exact (hl.nodup (hl.mem hi)).mem_erase_iff
  · rw [Function.update_of_ne hh]
    refine ⟨fun hj => ⟨?_, hj⟩, fun hj => hj.2⟩
    rintro rfl
    exact hh (hl.apart h g j hj hi)

/-- The item is then in no list. -/
theorem Lists.notMem_erase (hl : Lists D l q) (hi : i ∈ q g) (h : H) :
    i ∉ Function.update q g ((q g).erase i) h := fun hm => ((hl.mem_erase hi).mp hm).1 rfl

/-- `list_del`. -/
theorem Lists.del (hl : Lists D l q) (hi : i ∈ q g) :
    Lists D (listDel (.item i) l) (Function.update q g ((q g).erase i)) := by
  refine (hl.join hi).other (fun h _ => item_notMem (hl.notMem_erase hi h)) (fun z hz => ?_) fun z hz => ?_
  · exact Links.next_setNext_of_ne hz
  · exact Links.prev_setPrev_of_ne hz

/-- `list_move` from the list it is in to any other. -/
theorem Lists.move (hl : Lists D l q) (hi : i ∈ q g) (hh : h ∈ D) :
    Lists D (listMove (.item i) (.head h) l)
      (Function.update (Function.update q g ((q g).erase i)) h (i :: Function.update q g ((q g).erase i) h)) :=
  (hl.join hi).add hh (hl.notMem_erase hi)

omit [DecidableEq I] in
theorem mem_update_cons {j : I} {k : H} :
    j ∈ Function.update q h (i :: q h) k ↔ (j = i ∧ k = h) ∨ j ∈ q k := by
  by_cases hk : k = h
  · subst hk
    simp
  · simp [hk]

theorem Lists.mem_move (hl : Lists D l q) (hi : i ∈ q g) {j : I} {k : H} :
    j ∈ Function.update (Function.update q g ((q g).erase i)) h (i :: Function.update q g ((q g).erase i) h) k ↔
      (j = i ∧ k = h) ∨ (j ≠ i ∧ j ∈ q k) := by
  rw [mem_update_cons, hl.mem_erase hi]

/-- `INIT_LIST_HEAD` of a head that has no list. -/
theorem Lists.init (hl : Lists D l q) (hh : h ∉ D) : Lists (Insert.insert h D) (initListHead (.head h) l) q := by
  have hne : ∀ g ∈ D, Node.head h ∉ Node.head g :: nodes (q g) := fun g hg =>
    head_notMem fun he => hh (he ▸ hg)
  have hold : Lists D (initListHead (.head h) l) q :=
    hl.other hne (fun z hz => Links.next_setNext_of_ne hz) fun z hz => Links.prev_setPrev_of_ne hz
  refine ⟨fun g hg => ?_, fun g hg => hl.outside g fun hgd => hg (.inr hgd), hl.apart⟩
  rcases hg with rfl | hg
  · rw [hl.outside g hh]
    exact ring_initListHead (.head g) l
  · exact hold.ring g hg

theorem Lists.listEmpty (hl : Lists D l q) (hh : h ∈ D) : listEmpty (.head h) l = true ↔ q h = [] := by
  rw [listEmpty_iff (hl.ring h hh)]
  exact List.map_eq_nil_iff

end

end PikoRT.Kernel.ListFamily

import PikoRT.Kernel.Bitops

/-! # The page allocator (`kernel/mm/page.c`)

The functions of the source, on an explicit value of `page_bitmap`. A bit that
is set is a free block: `page_bitmap[order]` has one bit for each aligned run
of `256 << order` bytes from `__pgmem_start__` on. -/
namespace PikoRT.Mm.Page
open PikoRT.Kernel.Bitops

abbrev Addr := BitVec 32

abbrev MAX_PAGE_ORDER : ℕ := 3

abbrev MIN_PAGE_SIZE : ℕ := 256

/-- `ilog2(MIN_PAGE_SIZE)`. -/
abbrev MIN_PAGE_SHIFT : ℕ := 8

/-- `page_bitmap[order]`, for each order. -/
abbrev PageBitmap := List (List Word)

/-- The value `page_bitmap` is initialized with. -/
def pageBitmapInit : PageBitmap := [[0, 0, 0, 0], [0, 0], [0], [0x7fff]]

def pageBitmapSz (order : ℕ) : ℕ := [128, 64, 32, 16].getD order 0

def sizeToPageOrder (size : ℕ) : ℤ :=
  if size ≤ 256 then 0
  else if size ≤ 512 then 1
  else if size ≤ 1024 then 2
  else if size ≤ 2048 then 3
  else -1

def findFirstFreePage (pb : PageBitmap) (order : ℕ) : ℤ :=
  let pageIdx := findFirstBit (pb.getD order []) (pageBitmapSz order)
  if pageIdx ≥ pageBitmapSz order then -1 else pageIdx

def splitFirstFreePage (pb : PageBitmap) (order : ℕ) : PageBitmap :=
  let pageIdx := findFirstBit (pb.getD order []) (pageBitmapSz order)
  let pb := pb.modify order (bitmapClearBit · pageIdx)
  let pb := pb.modify (order - 1) (bitmapSetBit · (pageIdx * 2))
  pb.modify (order - 1) (bitmapSetBit · (pageIdx * 2 + 1))

/-- `__pgmem_start__` is a parameter: the linker script places it. -/
def pageIdxToAddr (pgmemStart : Addr) (idx order : ℕ) : Addr :=
  pgmemStart + BitVec.ofNat 32 (idx * 2 ^ (order + MIN_PAGE_SHIFT))

/-- The first loop of `alloc_pages`: the least order from `o` on with a free
block, or `MAX_PAGE_ORDER + 1`. The last argument bounds the iterations. -/
def searchOrder (pb : PageBitmap) : ℕ → ℕ → ℕ
  | o, 0 => o
  | o, n + 1 =>
    if o ≤ MAX_PAGE_ORDER ∧ findFirstFreePage pb o < 0 then searchOrder pb (o + 1) n else o

/-- The second loop of `alloc_pages`: split from order `o` down to `order`. -/
def splitDown (order : ℕ) : ℕ → PageBitmap → PageBitmap
  | 0, pb => pb
  | o + 1, pb => if o + 1 > order then splitDown order o (splitFirstFreePage pb (o + 1)) else pb

/-- `NULL` is `none`: an address inside the section is never null. -/
def allocPages (pgmemStart : Addr) (pb : PageBitmap) (order : ℕ) : Option Addr × PageBitmap :=
  let o := searchOrder pb order (MAX_PAGE_ORDER + 1)
  if o > MAX_PAGE_ORDER then (none, pb)
  else
    let pb := splitDown order o pb
    let pageIdx := findFirstBit (pb.getD order []) (pageBitmapSz order)
    (some (pageIdxToAddr pgmemStart pageIdx order), pb.modify order (bitmapClearBit · pageIdx))

def addrToPageIdx (pgmemStart addr : Addr) (order : ℕ) : ℕ :=
  ((addr - pgmemStart) >>> (order + MIN_PAGE_SHIFT)).toNat

def getBuddyIndex (idx : ℕ) : ℕ := if idx % 2 ≠ 0 then idx - 1 else idx + 1

/-- `~((1 << (order + 1 + ilog2(MIN_PAGE_SIZE))) - 1)`. -/
def coalesceMask (order : ℕ) : Addr := ~~~((1#32 <<< (order + 1 + MIN_PAGE_SHIFT)) - 1#32)

/-- The loop of `free_pages`, with the number of orders that are left below
`MAX_PAGE_ORDER`. -/
def freeLoop (pgmemStart : Addr) : ℕ → PageBitmap → Addr → ℕ → PageBitmap
  | 0, pb, addr, order => pb.modify order (bitmapSetBit · (addrToPageIdx pgmemStart addr order))
  | n + 1, pb, addr, order =>
    let pageIdx := addrToPageIdx pgmemStart addr order
    let buddyIdx := getBuddyIndex pageIdx
    if bitmapGetBit (pb.getD order []) buddyIdx ≠ 0 then
      freeLoop pgmemStart n (pb.modify order (bitmapClearBit · buddyIdx))
        (addr &&& coalesceMask order) (order + 1)
    else pb.modify order (bitmapSetBit · pageIdx)

def freePages (pgmemStart : Addr) (pb : PageBitmap) (addr : Addr) (order : ℕ) : PageBitmap :=
  freeLoop pgmemStart (MAX_PAGE_ORDER - order) pb addr order

/-- `hash_djb2` of `include/kernel/hash.h`. -/
def hashDjb2 (str : List (BitVec 8)) : Word :=
  str.foldl (fun hash c => ((hash <<< 5) + hash) + c.setWidth 32) 5381

/-- The bytes of an array of words in memory order. -/
def wordBytes (words : List Word) : List (BitVec 8) :=
  words.flatMap fun w => [w.extractLsb' 0 8, w.extractLsb' 8 8, w.extractLsb' 16 8, w.extractLsb' 24 8]

def pageAllocSignature (pb : PageBitmap) : Word :=
  hashDjb2 ((wordBytes (pb.getD 0 [])).take (4 * 4)) +
    hashDjb2 ((wordBytes (pb.getD 1 [])).take (2 * 4)) +
    hashDjb2 ((wordBytes (pb.getD 2 [])).take (1 * 4)) +
    hashDjb2 ((wordBytes (pb.getD 3 [])).take (1 * 4))

/-! ## The bits of the four maps -/

/-- Bit `i` of the map of order `o`: that block is free. -/
def freeBit (pb : PageBitmap) (o i : ℕ) : Bool := testBit (pb.getD o []) i

/-- The four arrays have the lengths of the source. -/
def Shape (pb : PageBitmap) : Prop := pb.map List.length = [4, 2, 1, 1]

theorem shape_init : Shape pageBitmapInit := rfl

theorem Shape.length {pb : PageBitmap} (h : Shape pb) : pb.length = 4 := by
  have := congrArg List.length h
  simpa using this

theorem Shape.getD_length {pb : PageBitmap} (h : Shape pb) (o : ℕ) :
    (pb.getD o []).length = [4, 2, 1, 1].getD o 0 := by
  rw [← h, List.getD_eq_getElem?_getD, List.getD_eq_getElem?_getD, List.getElem?_map]
  cases pb[o]? <;> rfl

/-- A bit of the map lies in one of its words. -/
theorem Shape.word_lt {pb : PageBitmap} (h : Shape pb) {o i : ℕ} (ho : o ≤ 3)
    (hi : i < pageBitmapSz o) : i / 32 < (pb.getD o []).length := by
  rw [h.getD_length o]
  interval_cases o <;> simp [pageBitmapSz] at hi ⊢ <;> omega

theorem Shape.modify {pb : PageBitmap} (h : Shape pb) (o : ℕ) {f : List Word → List Word}
    (hf : ∀ m, (f m).length = m.length) : Shape (pb.modify o f) := by
  unfold Shape at h ⊢
  rw [← h]
  apply List.ext_getElem? fun i => ?_
  rw [List.getElem?_map, List.getElem?_map, List.getElem?_modify]
  cases pb[i]? with
  | none => rfl
  | some m =>
    simp only [Option.map_eq_map, Option.map_some, Option.some.injEq]
    split <;> simp [hf]

theorem getD_modify_self {pb : PageBitmap} (h : Shape pb) {o : ℕ} (ho : o ≤ 3)
    (f : List Word → List Word) : (pb.modify o f).getD o [] = f (pb.getD o []) := by
  have hlt : o < pb.length := by rw [h.length]; omega
  simp [List.getD_eq_getElem?_getD, List.getElem?_eq_getElem hlt]

theorem getD_modify_ne (pb : PageBitmap) {o o' : ℕ} (hne : o ≠ o') (f : List Word → List Word) :
    (pb.modify o f).getD o' [] = pb.getD o' [] := by
  simp only [List.getD_eq_getElem?_getD, List.getElem?_modify, if_neg hne]
  cases pb[o']? <;> rfl

theorem freeBit_set {pb : PageBitmap} (h : Shape pb) {o i : ℕ} (ho : o ≤ 3)
    (hi : i < pageBitmapSz o) (o' i' : ℕ) :
    freeBit (pb.modify o (bitmapSetBit · i)) o' i' =
      (decide (o' = o ∧ i' = i) || freeBit pb o' i') := by
  unfold freeBit
  by_cases he : o = o'
  · subst he
    rw [getD_modify_self h ho, testBit_bitmapSetBit (h.word_lt ho hi)]
    simp
  · rw [getD_modify_ne pb he]
    simp [Ne.symm he]

theorem freeBit_clear {pb : PageBitmap} (h : Shape pb) {o : ℕ} (ho : o ≤ 3)
    (i o' i' : ℕ) :
    freeBit (pb.modify o (bitmapClearBit · i)) o' i' =
      (!decide (o' = o ∧ i' = i) && freeBit pb o' i') := by
  unfold freeBit
  by_cases he : o = o'
  · subst he
    rw [getD_modify_self h ho, testBit_bitmapClearBit]
    simp
  · rw [getD_modify_ne pb he]
    simp [Ne.symm he]

/-- The maps are determined by their bits. -/
theorem ext_freeBit {pb pb' : PageBitmap} (h : Shape pb) (h' : Shape pb')
    (hbit : ∀ o ≤ 3, ∀ i, freeBit pb o i = freeBit pb' o i) : pb = pb' := by
  apply List.ext_getElem (by rw [h.length, h'.length])
  intro o ho ho'
  have hle : o ≤ 3 := by have := h.length; omega
  have hlen := (h.getD_length o).trans (h'.getD_length o).symm
  have := ext_testBit hlen fun i _ => hbit o hle i
  simpa [List.getD_eq_getElem?_getD, ho, ho'] using this

end PikoRT.Mm.Page

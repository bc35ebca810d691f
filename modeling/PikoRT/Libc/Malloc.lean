import PikoRT.Kernel.Bitops
import PikoRT.Kernel.LinuxList
import PikoRT.Lib.Run

/-! # The heap (`libc/stdlib.c`)

Every block of the heap begins with a tag of 12 bytes: a word with the length of the
block and a flag, and the node of the list of blocks. A tag is known by its address,
and memory holds a tag at every address, also where there is no block; a new block is
made where memory holds anything. -/
namespace PikoRT.Libc.Malloc
open PikoRT.Kernel.Bitops PikoRT.Kernel.LinuxList

/-- `sizeof(struct malloc_tag)`. -/
def sizeofMallocTag : ℕ := 12

/-- `BLOCK_FREE_MASK`. -/
def blockFreeMask : Word := 1#32 <<< 30

/-- `BLOCK_LENGTH_MASK`. -/
def blockLengthMask : Word := ~~~(1#32 <<< 30)

/-- The tags in memory. -/
structure Heap where
  freeLength : ℕ → Word
  links : Memory Unit ℕ

def blocks : Node Unit ℕ := .head ()

def getBlockLength (block : ℕ) (h : Heap) : Word := h.freeLength block &&& blockLengthMask

def setFreeLength (block : ℕ) (w : Word) (h : Heap) : Heap :=
  { h with freeLength := Function.update h.freeLength block w }

def setBlockLength (block : ℕ) (len : Word) (h : Heap) : Heap :=
  setFreeLength block ((h.freeLength block &&& blockFreeMask) ||| len) h

def getBlockFree (block : ℕ) (h : Heap) : Bool := h.freeLength block &&& blockFreeMask != 0

def setBlockFree (block : ℕ) (free : Bool) (h : Heap) : Heap :=
  if free then setFreeLength block (h.freeLength block ||| blockFreeMask) h
  else setFreeLength block (h.freeLength block &&& blockLengthMask) h

def kernelHeapInit (heapStart : ℕ) (heapSize : Word) (h : Heap) : Heap :=
  let h := setFreeLength heapStart (blockFreeMask ||| heapSize) h
  { h with links := listAdd (.item heapStart) blocks h.links }

/-- `align_next(x, 4)`. -/
def alignNext (x : Word) : Word := (x + 3) &&& ~~~3#32

/-- The body of the loop of `malloc`, at a free block that is large enough. -/
def mallocAt (freeBlock : ℕ) (size : Word) (h : Heap) : ℕ × Heap :=
  if sizeofMallocTag < (getBlockLength freeBlock h - size).toNat then
    let h := setBlockLength freeBlock (getBlockLength freeBlock h - size) h
    let newBlock := freeBlock + (getBlockLength freeBlock h).toNat
    let h := setBlockFree newBlock false h
    let h := setBlockLength newBlock size h
    let h := { h with links := listAdd (.item newBlock) (.item freeBlock) h.links }
    (newBlock + sizeofMallocTag, h)
  else (freeBlock + sizeofMallocTag, setBlockFree freeBlock false h)

/-- `list_for_each_entry` over the blocks. -/
def mallocFrom (size : Word) : ℕ → Node Unit ℕ → Heap → Option (Option ℕ × Heap)
  | 0, _, _ => none
  | fuel + 1, pos, h =>
    match pos with
    | .head () => some (none, h)
    | .item freeBlock =>
      if getBlockFree freeBlock h && decide (size ≤ getBlockLength freeBlock h) then
        let r := mallocAt freeBlock size h
        some (some r.1, r.2)
      else mallocFrom size fuel (h.links.next pos) h
    | .poison1 => none
    | .poison2 => none

/-- The size of the block for a request of `size` bytes. -/
def blockSize (size : Word) : Word := alignNext size + BitVec.ofNat 32 sizeofMallocTag

def malloc (fuel : ℕ) (size : Word) (h : Heap) : Option (Option ℕ × Heap) :=
  mallocFrom (blockSize size) fuel (h.links.next blocks) h

/-- Merge with the previous block if free; with the block that is left. -/
def mergePrev (block : ℕ) (h : Heap) : Option (ℕ × Heap) :=
  match h.links.prev (.item block) with
  | .head () => some (block, h)
  | .item prevBlock =>
    if getBlockFree prevBlock h then
      let h := setBlockLength prevBlock (getBlockLength prevBlock h + getBlockLength block h) h
      some (prevBlock, { h with links := listDel (.item block) h.links })
    else some (block, h)
  | .poison1 => none
  | .poison2 => none

/-- Merge with the next block if free. -/
def mergeNext (block : ℕ) (h : Heap) : Option Heap :=
  match h.links.next (.item block) with
  | .head () => some h
  | .item nextBlock =>
    if getBlockFree nextBlock h then
      let h := setBlockLength block (getBlockLength block h + getBlockLength nextBlock h) h
      some { h with links := listDel (.item nextBlock) h.links }
    else some h
  | .poison1 => none
  | .poison2 => none

def free (ptr : ℕ) (h : Heap) : Option Heap :=
  let block := ptr - sizeofMallocTag
  (mergePrev block (setBlockFree block true h)).bind fun r => mergeNext r.1 r.2

/-! ## Runs -/

/-- A pointer that `malloc` has returned and the size it was asked for. -/
structure Allocation where
  ptr : ℕ
  size : Word
  deriving DecidableEq, Repr

structure State where
  heap : Heap
  /-- The allocations that have not been freed. -/
  live : List Allocation

/-- A call, or a write of a user to its memory; `store` writes what a tag at that
address would hold. -/
inductive Act where
  | malloc (fuel : ℕ) (size : Word)
  | free (ptr : ℕ)
  | store (addr : ℕ) (word : Word) (next prev : Node Unit ℕ)

/-- The bytes of the tag-sized object at `addr` belong to the allocation. -/
def Allocation.covers (u : Allocation) (addr : ℕ) : Prop :=
  u.ptr ≤ addr ∧ addr + sizeofMallocTag ≤ u.ptr + u.size.toNat

instance (u : Allocation) (addr : ℕ) : Decidable (u.covers addr) := inferInstanceAs (Decidable (_ ∧ _))

/-- Only pointers that `malloc` has returned are freed. -/
def step (s : State) : Act → Option State
  | .malloc fuel size =>
    (malloc fuel size s.heap).map fun r =>
      ⟨r.2, match r.1 with
        | some ptr => ⟨ptr, size⟩ :: s.live
        | none => s.live⟩
  | .free ptr =>
    if ∃ u ∈ s.live, u.ptr = ptr then
      (free ptr s.heap).map fun h => ⟨h, s.live.eraseP fun u => decide (u.ptr = ptr)⟩
    else none
  | .store addr word next prev =>
    if ∃ u ∈ s.live, u.covers addr then
      some { s with heap := ⟨Function.update s.heap.freeLength addr word,
        (s.heap.links.setNext (.item addr) next).setPrev (.item addr) prev⟩ }
    else none

/-- Requests that are all granted, with their pointers. -/
def mallocs (fuel : ℕ) : List Word → State → Option (List ℕ × State)
  | [], s => some ([], s)
  | size :: sizes, s =>
    (malloc fuel size s.heap).bind fun r => r.1.bind fun ptr =>
      (mallocs fuel sizes ⟨r.2, ⟨ptr, size⟩ :: s.live⟩).map fun q => (ptr :: q.1, q.2)

/-- The memory that the kernel gives to the heap: words, at an address of a word, and
not more than the length field holds. -/
structure Region where
  start : ℕ
  size : Word
  aligned : 4 ∣ start
  words : 4 ∣ size.toNat
  atLeast : 16 ≤ size.toNat
  atMost : size.toNat ≤ 2 ^ 30 - 4

/-- After `kernel_heap_init`; memory holds anything. -/
def init (g : Region) (mem : Heap) : State :=
  ⟨kernelHeapInit g.start g.size { mem with links := initListHead blocks mem.links }, []⟩

end PikoRT.Libc.Malloc

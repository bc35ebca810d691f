import PikoRT.Kernel.LinuxList
import PikoRT.Mm.PageUse

/-! # Caches of objects (`kernel/mm/slab.c`)

A slab is a page of 256 bytes: a header with a bitmap, a counter and the node of a list,
and objects of one size behind it. A cache keeps its slabs in three lists. The object
itself does not say which slab it is in: `kmem_cache_free` finds the header and the
index from the address. The caches are objects of a cache, too, of `cache_caches`.

Memory holds a header at every address; a page that becomes a slab holds anything. -/
namespace PikoRT.Mm.Slab
open PikoRT.Kernel.Bitops PikoRT.Kernel.LinuxList PikoRT.Mm.Page PikoRT.Mm.PageUse
open PikoRT.Mm.PageRun (PgMem Call boot)

/-- A `struct kmem_cache`: `cache_caches`, or the address of an object of it. -/
inductive Cache where
  | cacheCaches
  | made (cache : Addr)
  deriving DecidableEq, Repr

inductive SlabList where
  | slabsFree
  | slabsPartial
  | slabsFull
  deriving DecidableEq, Repr

/-- The head of one of the lists of a cache. -/
abbrev Head := Cache × SlabList

/-- `sizeof(struct slab)`. -/
def sizeofSlab : ℕ := 16

/-- `sizeof(struct kmem_cache)`. -/
def sizeofKmemCache : ℕ := 64

/-- `CACHE_PAGE_SIZE`. -/
def cachePageSize : ℕ := 256

/-- `OBJECTS_PER_SLAB`. -/
def objectsPerSlab (objsize : ℕ) : ℕ := (cachePageSize - sizeofSlab) / objsize

/-- What `kmem_cache_alloc` returned, with the slab and the bit that it chose. -/
structure Object where
  cache : Cache
  addr : Addr
  slab : Addr
  bit : ℕ
  deriving DecidableEq, Repr

structure System where
  pages : PageRun.State
  links : Memory Head Addr
  objsize : Cache → ℕ
  objnum : Cache → ℕ
  freeBitmap : Addr → Word
  freeObjects : Addr → ℤ
  /-- `cache_caches` and the caches that were created. -/
  caches : List Cache
  /-- The pages that are slabs, with the cache each one was made for. -/
  slabs : List (Cache × Addr)
  /-- The objects that were not freed. -/
  live : List Object

def getSlabFromObj (obj : Addr) (pageSize : ℕ) : Addr := align obj pageSize

def objIndexInSlab (obj : Addr) (objsize : ℕ) : ℕ :=
  ((obj &&& 255#32) - BitVec.ofNat 32 sizeofSlab).toNat / objsize

/-- `slab->data + bit * cache->objsize`. -/
def objectAddr (slab : Addr) (bit objsize : ℕ) : Addr :=
  slab + BitVec.ofNat 32 sizeofSlab + BitVec.ofNat 32 (bit * objsize)

/-- The new slab, if there is a page for it. -/
def kmemCacheGrow (mem : PgMem) (cache : Cache) (s : System) : Option Addr × System :=
  let r := allocate mem 0 s.pages
  match r.1 with
  | none => (none, { s with pages := r.2 })
  | some slab => (some slab, { s with
      pages := r.2
      freeBitmap := Function.update s.freeBitmap slab 0
      freeObjects := Function.update s.freeObjects slab (s.objnum cache)
      links := listAdd (.item slab) (.head (cache, .slabsFree)) s.links
      slabs := (cache, slab) :: s.slabs })

/-- `list_first_entry`; nothing when the list is empty. -/
def firstEntry (head : Head) (s : System) : Option Addr :=
  match s.links.next (.head head) with
  | .item slab => some slab
  | _ => none

/-- `list_move`. -/
def moveTo (head : Head) (slab : Addr) (s : System) : System :=
  { s with links := listMove (.item slab) (.head head) s.links }

/-- The slab that `kmem_cache_alloc` takes an object from. -/
def chooseSlab (mem : PgMem) (cache : Cache) (s : System) : Option (Option Addr × System) :=
  if listEmpty (.head (cache, .slabsPartial)) s.links then
    if listEmpty (.head (cache, .slabsFree)) s.links then
      let r := kmemCacheGrow mem cache s
      match r.1 with
      | none => some (none, r.2)
      | some slab => some (some slab, moveTo (cache, .slabsPartial) slab r.2)
    else (firstEntry (cache, .slabsFree) s).map fun slab =>
      (some slab, moveTo (cache, .slabsPartial) slab s)
  else (firstEntry (cache, .slabsPartial) s).map fun slab => (some slab, s)

/-- The rest of `kmem_cache_alloc`. -/
def takeObject (cache : Cache) (slab : Addr) (s : System) : Object × System :=
  let bit := findFirstZeroBit [s.freeBitmap slab] (s.objnum cache)
  let mem : Object := ⟨cache, objectAddr slab bit (s.objsize cache), slab, bit⟩
  let s := { s with
    freeBitmap := Function.update s.freeBitmap slab ((bitmapSetBit [s.freeBitmap slab] bit).headD 0)
    freeObjects := Function.update s.freeObjects slab (s.freeObjects slab - 1)
    live := mem :: s.live }
  (mem, if s.freeObjects slab = 0 then moveTo (cache, .slabsFull) slab s else s)

def kmemCacheAlloc (mem : PgMem) (cache : Cache) (s : System) : Option (Option Object × System) :=
  (chooseSlab mem cache s).map fun r =>
    match r.1 with
    | none => (none, r.2)
    | some slab =>
      let q := takeObject cache slab r.2
      (some q.1, q.2)

def slabDestroy (mem : PgMem) (slab : Addr) (s : System) : System :=
  { s with
    links := listDel (.item slab) s.links
    pages := release mem slab ⟨slab, 0⟩ s.pages
    slabs := s.slabs.filter fun x => x.2 ≠ slab }

def kmemCacheFree (mem : PgMem) (cache : Cache) (obj : Addr) (s : System) : System :=
  let slab := getSlabFromObj obj 256
  let bit := objIndexInSlab obj (s.objsize cache)
  let s := { s with
    freeBitmap := Function.update s.freeBitmap slab ((bitmapClearBit [s.freeBitmap slab] bit).headD 0)
    freeObjects := Function.update s.freeObjects slab (s.freeObjects slab + 1) }
  if s.freeObjects slab = s.objnum cache then slabDestroy mem slab s
  else if s.freeObjects slab = 1 then moveTo (cache, .slabsPartial) slab s
  else s

/-- The three `INIT_LIST_HEAD` of a cache. -/
def initLists (cache : Cache) (l : Memory Head Addr) : Memory Head Addr :=
  initListHead (.head (cache, .slabsFull))
    (initListHead (.head (cache, .slabsPartial)) (initListHead (.head (cache, .slabsFree)) l))

/-- The new cache, or nothing when the size is refused or there is no memory. -/
def kmemCacheCreate (mem : PgMem) (size : ℕ) (s : System) : Option (Option Cache × System) :=
  if size < 8 then some (none, s)
  else if (256 - sizeofSlab) / 2 < size then some (none, s)
  else (kmemCacheAlloc mem .cacheCaches s).map fun r =>
    match r.1 with
    | none => (none, r.2)
    | some obj => (some (.made obj.addr), { r.2 with
        objsize := Function.update r.2.objsize (.made obj.addr) size
        objnum := Function.update r.2.objnum (.made obj.addr) (objectsPerSlab size)
        links := initLists (.made obj.addr) r.2.links
        caches := .made obj.addr :: r.2.caches })

def kmemCacheInit (mem : PgMem) (s : System) : System := (kmemCacheGrow mem .cacheCaches s).2

/-! ## Runs -/

inductive Act where
  | create (size : ℕ)
  | alloc (cache : Cache)
  | free (o : Object)
  /-- Somebody else calls the page allocator. -/
  | page (c : Call)
  /-- Somebody else writes to a page that is no slab. -/
  | write (page : Addr) (word : Word) (count : ℤ) (next prev : Node Head Addr)

def pageCall (mem : PgMem) (s : System) : Call → Option System
  | .alloc order => some { s with pages := (allocate mem order s.pages).2 }
  | .free addr order =>
    if ⟨addr, order⟩ ∈ s.pages.live ∧ ∀ x ∈ s.slabs, x.2 ≠ addr then
      some { s with pages := release mem addr ⟨addr, order⟩ s.pages }
    else none

/-- `cache_caches` is not known outside, and only live objects are freed. -/
def step (mem : PgMem) (s : System) : Act → Option System
  | .create size => (kmemCacheCreate mem size s).map Prod.snd
  | .alloc cache =>
    if cache ∈ s.caches ∧ cache ≠ .cacheCaches then (kmemCacheAlloc mem cache s).map Prod.snd else none
  | .free o =>
    if o ∈ s.live ∧ o.cache ≠ .cacheCaches then
      some { kmemCacheFree mem o.cache o.addr s with live := s.live.erase o }
    else none
  | .page c => pageCall mem s c
  | .write page word count next prev =>
    if ∀ x ∈ s.slabs, x.2 ≠ page then
      some { s with
        freeBitmap := Function.update s.freeBitmap page word
        freeObjects := Function.update s.freeObjects page count
        links := (s.links.setNext (.item page) next).setPrev (.item page) prev }
    else none

/-- What memory holds before the kernel starts. -/
structure Garbage where
  links : Memory Head Addr
  objsize : Cache → ℕ
  objnum : Cache → ℕ
  freeBitmap : Addr → Word
  freeObjects : Addr → ℤ

/-- The image that is loaded: `cache_caches` with its initializer, and no slab. -/
def statics (m : Garbage) : System where
  pages := boot
  links := initLists .cacheCaches m.links
  objsize := Function.update m.objsize .cacheCaches sizeofKmemCache
  objnum := Function.update m.objnum .cacheCaches (objectsPerSlab sizeofKmemCache)
  freeBitmap := m.freeBitmap
  freeObjects := m.freeObjects
  caches := [.cacheCaches]
  slabs := []
  live := []

def init (mem : PgMem) (m : Garbage) : System := kmemCacheInit mem (statics m)

end PikoRT.Mm.Slab

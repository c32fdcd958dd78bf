import AuraLite.Lib.ByteMemory
import AuraLite.Lib.Word64

/-!
# The boundary-tag heap

The allocator of `kernel/mm/heap.c` together with the page-backed expansion
`kheap_expand` of `kernel/mm/kheap.c`.  Headers, footers and the free-list links
live inside the managed memory, so the model keeps one byte memory and performs
the same word stores in the same order as the source.  Address `0` is `NULL`.
-/

namespace AuraLite.BoundaryTagHeap

open AuraLite.ByteMemory AuraLite.Word64

def heapAlign : ℕ := 16
def headerSize : ℕ := 32
def footerSize : ℕ := 16
def minPayload : ℕ := 16
def minBlock : ℕ := headerSize + footerSize + minPayload

def heapMagicUsed : ℕ := 0xA10CA10CA10CA10C
def heapMagicFree : ℕ := 0xF8EEF8EEF8EEF8EE

/-- `heap_t` with the memory it manages. -/
@[ext]
structure Heap where
  base : ℕ
  limit : ℕ
  brk : ℕ
  freeList : ℕ
  mem : Mem

/-! ## Header fields -/

def blockMagic (m : Mem) (b : ℕ) : ℕ := read64 m b
def blockSize (m : Mem) (b : ℕ) : ℕ := read64 m (b + 8)
def blockNext (m : Mem) (b : ℕ) : ℕ := read64 m (b + 16)
def blockPrev (m : Mem) (b : ℕ) : ℕ := read64 m (b + 24)

def setMagic (m : Mem) (b value : ℕ) : Mem := write64 m b value
def setSize (m : Mem) (b value : ℕ) : Mem := write64 m (b + 8) value
def setNext (m : Mem) (b value : ℕ) : Mem := write64 m (b + 16) value
def setPrev (m : Mem) (b value : ℕ) : Mem := write64 m (b + 24) value

def blockFooter (m : Mem) (b : ℕ) : ℕ := b + blockSize m b - footerSize

/-- Mirror the header of `b` into its boundary tag. -/
def setFooter (m : Mem) (b : ℕ) : Mem :=
  let f := blockFooter m b
  let m := write64 m f (blockMagic m b)
  write64 m (f + 8) (blockSize m b)

/-- Total block size required for a `payload`-byte allocation. -/
def requiredBlockSize (payload : ℕ) : ℕ :=
  let payload := if payload < minPayload then minPayload else payload
  alignUp (wrap64 (headerSize + footerSize + payload)) heapAlign

/-! ## Free list -/

def flInsert (h : Heap) (b : ℕ) : Heap :=
  let m := setPrev h.mem b 0
  let m := setNext m b h.freeList
  let m := if h.freeList ≠ 0 then setPrev m h.freeList b else m
  { h with mem := m, freeList := b }

def flRemove (h : Heap) (b : ℕ) : Heap :=
  let h :=
    if blockPrev h.mem b ≠ 0 then
      { h with mem := setNext h.mem (blockPrev h.mem b) (blockNext h.mem b) }
    else { h with freeList := blockNext h.mem b }
  let m := h.mem
  let m :=
    if blockNext m b ≠ 0 then setPrev m (blockNext m b) (blockPrev m b) else m
  let m := setNext m b 0
  let m := setPrev m b 0
  { h with mem := m }

def heapInit (base limit : ℕ) (mem : Mem) : Heap :=
  { base, limit, brk := 0, freeList := 0, mem }

/-! ## Allocation -/

/-- Cut a free block to `need` bytes when the rest can hold a block. -/
def splitBlock (h : Heap) (b need : ℕ) : Heap :=
  if blockSize h.mem b < wrap64 (need + minBlock) then h
  else
    let rem := b + need
    let m := setMagic h.mem rem heapMagicFree
    let m := setSize m rem (blockSize m b - need)
    let m := setFooter m rem
    let h := flInsert { h with mem := m } rem
    let m := setSize h.mem b need
    { h with mem := setFooter m b }

/-- The first-fit walk.  `none` means the walk did not end within `fuel` nodes,
`some 0` that it fell off the end of the list. -/
def firstFit (m : Mem) (need : ℕ) : ℕ → ℕ → Option ℕ
  | 0, _ => none
  | fuel + 1, b =>
    if b = 0 then some 0
    else if need ≤ blockSize m b then some b
    else firstFit m need fuel (blockNext m b)

/-- What `heap_alloc` does with the block its walk stopped at. -/
def takeBlock (h : Heap) (b need : ℕ) : Heap :=
  let h := splitBlock h b need
  let m := setMagic h.mem b heapMagicUsed
  let m := setFooter m b
  flRemove { h with mem := m } b

/-- `heap_expand_fn`.  The first argument numbers the calls made by one
`heap_alloc`, since the pages available may differ from call to call; `none` is
a non-zero return value. -/
abbrev ExpandFn := ℕ → Heap → ℕ → Option Heap

/-- The retry loop of `heap_alloc`; `none` means it did not return. -/
def heapAllocLoop (expand : ExpandFn) (need : ℕ) :
    ℕ → ℕ → Heap → Option (Heap × ℕ)
  | 0, _, _ => none
  | fuel + 1, call, h =>
    match firstFit h.mem need (h.brk + 1) h.freeList with
    | none => none
    | some 0 =>
      match expand call h need with
      | none => some (h, 0)
      | some h' => heapAllocLoop expand need fuel (call + 1) h'
    | some (b + 1) => some (takeBlock h (b + 1) need, b + 1 + headerSize)

/-- `heap_alloc`: the resulting heap and the returned pointer. -/
def heapAlloc (expand : ExpandFn) (h : Heap) (size : ℕ) : Option (Heap × ℕ) :=
  heapAllocLoop expand (requiredBlockSize size) (h.limit + 1) 0 h

/-! ## Release -/

/-- Forward half of `heap_free`: absorb a free successor inside the committed
region. -/
def mergeNext (h : Heap) (b : ℕ) : Heap :=
  let nb := b + blockSize h.mem b
  if nb < h.base + h.brk then
    if blockMagic h.mem nb = heapMagicFree then
      let h := flRemove h nb
      let m := setSize h.mem b (blockSize h.mem b + blockSize h.mem nb)
      { h with mem := setFooter m b }
    else h
  else h

/-- Backward half of `heap_free`: grow a free predecessor over `b`, else put
`b` on the free list. -/
def mergePrev (h : Heap) (b : ℕ) : Heap :=
  let pf := b - footerSize
  if h.base < b ∧ read64 h.mem pf = heapMagicFree then
    let prev := b - read64 h.mem (pf + 8)
    let m := setSize h.mem prev (blockSize h.mem prev + blockSize h.mem b)
    { h with mem := setFooter m prev }
  else flInsert h b

def heapFree (h : Heap) (ptr : ℕ) : Heap :=
  if ptr = 0 then h
  else
    let b := ptr - headerSize
    if blockMagic h.mem b ≠ heapMagicUsed then h
    else
      let h := { h with mem := setMagic h.mem b heapMagicFree }
      mergePrev (mergeNext h b) b

def heapRealloc (expand : ExpandFn) (h : Heap) (ptr size : ℕ) :
    Option (Heap × ℕ) :=
  if ptr = 0 then heapAlloc expand h size
  else if size = 0 then some (heapFree h ptr, 0)
  else
    let b := ptr - headerSize
    if blockMagic h.mem b ≠ heapMagicUsed then some (h, 0)
    else
      let oldPayload := blockSize h.mem b - headerSize - footerSize
      if requiredBlockSize size ≤ blockSize h.mem b then some (h, ptr)
      else
        match heapAlloc expand h size with
        | none => none
        | some (h, 0) => some (h, 0)
        | some (h, np + 1) =>
          let toCopy := if oldPayload < size then oldPayload else size
          let h := { h with mem := copyBytes h.mem (np + 1) ptr toCopy }
          some (heapFree h ptr, np + 1)

/-! ## Page-backed expansion -/

def pageSize : ℕ := 4096
def expandMin : ℕ := 2 * 1024 * 1024
def kheapP2m : ℕ := 0x200000

/-- Which page requests of one expansion the PMM and the VMM can serve, by
offset into the new span: `frame` for `pmm_alloc_frame`, `huge` for
`pmm_alloc_2m` followed by a successful `paging_map_2m`. -/
structure PageSupply where
  frame : ℕ → Bool
  huge : ℕ → Bool

/-- Map up to `count` pages of 4 KiB at offset `mapped`; the flag tells whether
none was refused. -/
def mapFrames (frame : ℕ → Bool) : ℕ → ℕ → ℕ × Bool
  | 0, mapped => (mapped, true)
  | count + 1, mapped =>
    if frame mapped then mapFrames frame count (mapped + pageSize)
    else (mapped, false)

/-- Map up to `count` pages of 2 MiB at offset `mapped`, stopping at the first
that falls back. -/
def mapHuge (huge : ℕ → Bool) : ℕ → ℕ → ℕ
  | 0, mapped => mapped
  | count + 1, mapped =>
    if huge mapped then mapHuge huge count (mapped + kheapP2m) else mapped

/-- Bytes committed by the three mapping loops of `kheap_expand`. -/
def mapSpan (supply : PageSupply) (va want : ℕ) : ℕ :=
  let head := min ((kheapP2m - va % kheapP2m) % kheapP2m) want
  match mapFrames supply.frame ((head + pageSize - 1) / pageSize) 0 with
  | (mapped, false) => mapped
  | (mapped, true) =>
    let mapped := mapHuge supply.huge ((want - mapped) / kheapP2m) mapped
    (mapFrames supply.frame ((want - mapped + pageSize - 1) / pageSize)
      mapped).1

/-- Expose `mapped` fresh bytes at `brk` as one free block. -/
def commitSpan (h : Heap) (mapped : ℕ) : Heap :=
  let b := h.base + h.brk
  let m := setMagic h.mem b heapMagicFree
  let m := setSize m b mapped
  let foot := b + mapped - 16
  let m := write64 m foot heapMagicFree
  let m := write64 m (foot + 8) mapped
  let m := setNext m b h.freeList
  let m := setPrev m b 0
  let m := if h.freeList ≠ 0 then setPrev m h.freeList b else m
  { h with mem := m, freeList := b, brk := h.brk + mapped }

/-- `kheap_expand`.  It fails when the first frame is refused; a request that
wrapped to zero bytes asks for no frame and still commits. -/
def kheapExpand (supply : ℕ → PageSupply) : ExpandFn := fun call h want =>
  let want := if want < expandMin then expandMin else want
  let want := alignUp want pageSize
  if h.limit < wrap64 (h.brk + want) then none
  else
    let mapped := mapSpan (supply call) (wrap64 (h.base + h.brk)) want
    if mapped = 0 ∧ want ≠ 0 then none else some (commitSpan h mapped)

end AuraLite.BoundaryTagHeap

import AuraLite.Mm.HeapInvariant

/-!
# The size-class front of the kernel heap

`kernel/mm/sizeclass.h` and the calls `kmalloc`, `kfree`, `krealloc` and
`kheap_class_drain` of `kernel/mm/kheap.c`.  A cached object is an ordinary used
block whose first payload word links it to the next object of its class.  The
heap lock makes each call one step.
-/

namespace AuraLite.SizeClass

open AuraLite.ByteMemory AuraLite.BoundaryTagHeap AuraLite.Reachability

def sizeclassMinShift : ℕ := 4
def sizeclassMaxShift : ℕ := 12
def sizeclassCount : ℕ := sizeclassMaxShift - sizeclassMinShift + 1
def sizeclassCap : ℕ := 64

abbrev ClassIndex := Fin sizeclassCount

/-- `sizeclass_cache_t`. -/
structure SizeclassCache where
  head : ClassIndex → ℕ
  count : ClassIndex → ℕ
  hits : ℕ
  misses : ℕ
  spills : ℕ

def sizeclassBytes (ci : ClassIndex) : ℕ := 2 ^ (sizeclassMinShift + ci.val)

/-- Smallest class that can serve a request; `none` is `-1`. -/
def sizeclassForRequest (size : ℕ) : Option ClassIndex :=
  if size = 0 ∨ 2 ^ sizeclassMaxShift < size then none
  else (List.finRange sizeclassCount).find? fun ci => size ≤ sizeclassBytes ci

/-- Largest class a block of `payload` bytes can serve, unless the payload is
twice that class or more. -/
def sizeclassForPayload (payload : ℕ) : Option ClassIndex :=
  match ((List.finRange sizeclassCount).takeWhile fun ci =>
      sizeclassBytes ci ≤ payload).getLast? with
  | none => none
  | some best => if sizeclassBytes best * 2 ≤ payload then none else some best

/-- The heap, its lock-protected cache and nothing else. -/
structure Kheap where
  heap : Heap
  cache : SizeclassCache

def sizeclassPush (k : Kheap) (ci : ClassIndex) (obj : ℕ) : Kheap :=
  { heap := { k.heap with
      mem := write64 k.heap.mem obj (k.cache.head ci) }
    cache := { k.cache with
      head := Function.update k.cache.head ci obj
      count := Function.update k.cache.count ci (k.cache.count ci + 1) } }

/-- Pop an object; `0` when the class is empty. -/
def sizeclassPop (k : Kheap) (ci : ClassIndex) : Kheap × ℕ :=
  let obj := k.cache.head ci
  if obj = 0 then (k, 0)
  else
    ({ heap := { k.heap with mem := write64 k.heap.mem obj 0 }
       cache := { k.cache with
         head := Function.update k.cache.head ci (read64 k.heap.mem obj)
         count := Function.update k.cache.count ci (k.cache.count ci - 1) } },
      obj)

/-- `heap_alloc` behind the cache. -/
def kmallocHeap (expand : ExpandFn) (k : Kheap) (size : ℕ) :
    Option (Kheap × ℕ) :=
  (heapAlloc expand k.heap size).map fun (h, p) => ({ k with heap := h }, p)

def kmalloc (expand : ExpandFn) (k : Kheap) (size : ℕ) : Option (Kheap × ℕ) :=
  match sizeclassForRequest size with
  | some ci =>
    match sizeclassPop k ci with
    | (k, 0) =>
      kmallocHeap expand
        { k with cache := { k.cache with misses := k.cache.misses + 1 } } size
    | (k, p + 1) =>
      some ({ k with cache := { k.cache with hits := k.cache.hits + 1 } },
        p + 1)
  | none => kmallocHeap expand k size

/-- `memset(ptr, 0, payload)` of `kfree`. -/
def scrub (k : Kheap) (ptr payload : ℕ) : Kheap :=
  { k with heap := { k.heap with mem := fill k.heap.mem ptr payload 0 } }

def kheapFree (k : Kheap) (ptr : ℕ) : Kheap :=
  { k with heap := heapFree k.heap ptr }

def kfree (k : Kheap) (ptr : ℕ) : Kheap :=
  let b := ptr - headerSize
  if ptr ≠ 0 ∧ blockMagic k.heap.mem b = heapMagicUsed ∧
      headerSize + footerSize < blockSize k.heap.mem b then
    let payload := blockSize k.heap.mem b - headerSize - footerSize
    let k := scrub k ptr payload
    match sizeclassForPayload payload with
    | some ci =>
      if k.cache.count ci < sizeclassCap then sizeclassPush k ci ptr
      else
        kheapFree
          { k with cache := { k.cache with spills := k.cache.spills + 1 } } ptr
    | none => kheapFree k ptr
  else kheapFree k ptr

/-- The inner loop of `kheap_class_drain`; `none` means it did not end within
`fuel` objects. -/
def drainClass (ci : ClassIndex) : ℕ → Kheap → Option Kheap
  | 0, _ => none
  | fuel + 1, k =>
    match sizeclassPop k ci with
    | (k, 0) => some k
    | (k, p + 1) => drainClass ci fuel (kheapFree k (p + 1))

def kheapClassDrain (k : Kheap) : Option Kheap :=
  (List.finRange sizeclassCount).foldlM
    (fun k ci => drainClass ci (sizeclassCap + 1) k) k

def krealloc (expand : ExpandFn) (k : Kheap) (ptr size : ℕ) :
    Option (Kheap × ℕ) :=
  (heapRealloc expand k.heap ptr size).map fun (h, p) => ({ k with heap := h }, p)

/-! ## Sessions -/

/-- The kernel heap and the allocations its callers hold, with their sizes. -/
structure KSession where
  kheap : Kheap
  live : List (ℕ × ℕ)

inductive KCall where
  | kmalloc (size : ℕ) (supply : ℕ → PageSupply)
  | kfree (ptr : ℕ)
  | krealloc (ptr size : ℕ) (supply : ℕ → PageSupply)
  | drain
  | store (ptr offset : ℕ) (byte : Byte)

def emptyCache : SizeclassCache := ⟨fun _ => 0, fun _ => 0, 0, 0, 0⟩

def KSession.start (region : Region) (mem : Mem) : KSession :=
  ⟨⟨heapInit region.base region.limit mem, emptyCache⟩, []⟩

/-- The session after a call; `none` means that the caller does not hold what it
passes or that the call does not return. -/
def KSession.step (s : KSession) : KCall → Option KSession
  | .kmalloc size supply =>
    match kmalloc (kheapExpand supply) s.kheap size with
    | none => none
    | some (k, p) =>
      some (if p = 0 then { s with kheap := k }
        else ⟨k, (p, size) :: s.live⟩)
  | .kfree ptr =>
    if ptr ∈ s.live.map Prod.fst then
      some ⟨kfree s.kheap ptr, dropPtr s.live ptr⟩
    else none
  | .krealloc ptr size supply =>
    if ptr ∈ s.live.map Prod.fst then
      match krealloc (kheapExpand supply) s.kheap ptr size with
      | none => none
      | some (k, p) =>
        some (if p = 0 then
            ⟨k, if size = 0 then dropPtr s.live ptr else s.live⟩
          else ⟨k, (p, size) :: dropPtr s.live ptr⟩)
    else none
  | .drain => (kheapClassDrain s.kheap).map fun k => { s with kheap := k }
  | .store ptr offset byte =>
    if ∃ entry ∈ s.live, entry.1 = ptr ∧ offset < entry.2 then
      some { s with kheap := { s.kheap with heap := { s.kheap.heap with
        mem := Function.update s.kheap.heap.mem (ptr + offset) byte } } }
    else none

def KSession.Step (s : KSession) (call : KCall) (s' : KSession) : Prop :=
  s.step call = some s'

/-- The sizes passed survive the rounding of the heap. -/
def KCall.Fits (s : KSession) : KCall → Prop
  | .kmalloc size _ => RequestFits s.kheap.heap size
  | .kfree _ => True
  | .krealloc _ size _ => RequestFits s.kheap.heap size
  | .drain => True
  | .store _ _ _ => True

end AuraLite.SizeClass

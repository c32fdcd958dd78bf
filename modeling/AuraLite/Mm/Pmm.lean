import AuraLite.Lib.Word64
import AuraLite.Mm.Bitmap

/-!
# The physical memory manager

The bitmap allocator of `pmm.c`.  Physical memory is one flat array of bytes and
the metadata of the allocator lies inside it: the bitmap at `bitmap_phys` and,
behind the bytes reserved for it, one 32-bit reference count per frame.  The
kernel reaches all of it through the higher-half direct map, so an access at
`hhdm + phys` is modelled as an access at `phys`.  Every operation holds the
allocator's lock from its first to its last access of the metadata.
-/

namespace AuraLite.Pmm

open ByteMemory Bitmap Word64

def pageSize : ℕ := 4096

theorem frame_addr (f : ℕ) : f * pageSize / pageSize = f := Nat.mul_div_cancel f (by decide)

def mib : ℕ := 1024 * 1024
def gib : ℕ := 1024 * mib

/-- `PMM_EARLY_HHDM_LIMIT`. -/
def earlyHhdmLimit : ℕ := 4 * gib

/-- `PMM_EARLY_BOOT_RESERVE`. -/
def earlyBootReserve : ℕ := 56 * mib

/-- `BOOT_MEM_*`. -/
inductive MemType
  | usable | reserved | acpiReclaim | acpiNvs | bad | bootloader | kernel
  | framebuf
  deriving DecidableEq

/-- `boot_mmap_entry_t`. -/
structure MapEntry where
  base : ℕ
  length : ℕ
  type : MemType

abbrev MemoryMap := List MapEntry

/-- `struct pmm_state`, with the physical memory it manages. -/
@[ext]
structure PmmState where
  mem : Mem
  bitmap : ℕ
  refcount : ℕ
  nframes : ℕ
  freeFrames : ℕ

/-! ## Initialisation -/

/-- The loop of `mark_range` over `count` frames from `f` on. -/
def markFrames (m : Mem) (bitmap nframes : ℕ) (used : Bool) : ℕ → ℕ → Mem
  | 0, _ => m
  | count + 1, f =>
    if f < nframes then
      let m := if used then bmSet m bitmap f else bmClear m bitmap f
      markFrames m bitmap nframes used count (f + 1)
    else m

/-- `mark_range`: the frames that lie inside `[base, base + len)`. -/
def markRange (m : Mem) (bitmap nframes base len : ℕ) (used : Bool) : Mem :=
  let start := alignUp base pageSize / pageSize
  let stop := wrap64 (base + len) / pageSize
  markFrames m bitmap nframes used (stop - start) start

def highestUsable (map : MemoryMap) : ℕ :=
  map.foldl (fun highest e =>
    if e.type = .usable ∧ highest < wrap64 (e.base + e.length) then
      wrap64 (e.base + e.length)
    else highest) 0

def nframesOf (map : MemoryMap) : ℕ :=
  alignUp (highestUsable map) pageSize / pageSize

def bitmapBytesOf (nframes : ℕ) : ℕ := alignUp (nframes / 8) pageSize

def refcountBytesOf (nframes : ℕ) : ℕ := alignUp (wrap64 (nframes * 4)) pageSize

/-- One region of `find_bitmap_region`: the place at its top, if it fits. -/
def placeIn (need : ℕ) (wantType : MemType) (e : MapEntry) : Option ℕ :=
  if e.type ≠ wantType then none
  else
    let start := alignUp e.base pageSize
    let stop := alignDown (wrap64 (e.base + e.length)) pageSize
    let stop := if earlyHhdmLimit < stop then earlyHhdmLimit else stop
    if stop ≤ start ∨ stop - start < need then none else some (stop - need)

/-- `find_bitmap_region`; `0` means that no region is large enough. -/
def findBitmapRegion (map : MemoryMap) (nframes : ℕ) : ℕ :=
  let need :=
    alignUp (wrap64 (bitmapBytesOf nframes + refcountBytesOf nframes)) pageSize
  match map.findSome? (placeIn need .bootloader) with
  | some place => place
  | none => (map.findSome? (placeIn need .usable)).getD 0

/-- Step 3 of `pmm_init`: clear the frames of the usable regions. -/
def clearUsable (map : MemoryMap) (m : Mem) (bitmap nframes : ℕ) : Mem :=
  map.foldl (fun m e =>
    if e.type = .usable then markRange m bitmap nframes e.base e.length false
    else m) m

/-- The number of clear bits below `nframes`. -/
def countFree (m : Mem) (bitmap nframes : ℕ) : ℕ :=
  (List.range nframes).countP fun f => !bmTest m bitmap f

/-- `pmm_init`; `none` stands for its fatal exits. -/
def pmmInit (map : MemoryMap) (mem : Mem) : Option PmmState :=
  let nframes := nframesOf map
  if nframes = 0 then none
  else
    let bitmap := findBitmapRegion map nframes
    if bitmap = 0 then none
    else
      let bitmapBytes := bitmapBytesOf nframes
      let refcountBytes := refcountBytesOf nframes
      let refcount := wrap64 (bitmap + bitmapBytes)
      let m := fill mem refcount refcountBytes 0
      let m := fill m bitmap bitmapBytes 255
      let m := clearUsable map m bitmap nframes
      let m := markRange m bitmap nframes 0 earlyBootReserve true
      let m := markRange m bitmap nframes bitmap
        (wrap64 (bitmapBytes + refcountBytes)) true
      some ⟨m, bitmap, refcount, nframes, countFree m bitmap nframes⟩

/-! ## Operations -/

/-- `pmm.refcount[idx]`. -/
def PmmState.ref (s : PmmState) (idx : ℕ) : ℕ := read32 s.mem (s.refcount + 4 * idx)

def PmmState.setRef (s : PmmState) (idx value : ℕ) : PmmState :=
  { s with mem := write32 s.mem (s.refcount + 4 * idx) value }

def PmmState.test (s : PmmState) (idx : ℕ) : Bool := bmTest s.mem s.bitmap idx

def PmmState.setBit (s : PmmState) (idx : ℕ) : PmmState :=
  { s with mem := bmSet s.mem s.bitmap idx }

def PmmState.clearBit (s : PmmState) (idx : ℕ) : PmmState :=
  { s with mem := bmClear s.mem s.bitmap idx }

/-- Mark a frame used with one reference. -/
def PmmState.claim (s : PmmState) (idx : ℕ) : PmmState :=
  (s.setBit idx).setRef idx 1

def pmmAllocFrame (s : PmmState) : PmmState × ℕ :=
  match bmFirstFree s.mem s.bitmap s.nframes with
  | none => (s, 0)
  | some idx =>
    let s := s.claim idx
    let phys := wrap64 (idx * pageSize)
    ({ s with
        freeFrames := sub64 s.freeFrames 1
        mem := fill s.mem phys pageSize 0 }, phys)

/-- The marking loop of `pmm_alloc_contiguous`. -/
def claimRun (s : PmmState) (idx : ℕ) : ℕ → PmmState
  | 0 => s
  | i + 1 => (claimRun s idx i).claim (idx + i)

def pmmAllocContiguous (s : PmmState) (count : ℕ) : PmmState × ℕ :=
  match bmFindContiguous s.mem s.bitmap s.nframes count with
  | none => (s, 0)
  | some idx =>
    let s := claimRun s idx count
    let phys := wrap64 (idx * pageSize)
    ({ s with
        freeFrames := sub64 s.freeFrames count
        mem := fill s.mem phys (wrap64 (count * pageSize)) 0 }, phys)

def pmmFreeFrame (s : PmmState) (phys : ℕ) : PmmState :=
  let idx := phys / pageSize
  if idx = 0 ∨ s.nframes ≤ idx then s
  else if s.test idx = false then s
  else if 1 < s.ref idx then s.setRef idx (s.ref idx - 1)
  else
    let s := (s.setRef idx 0).clearBit idx
    { s with freeFrames := wrap64 (s.freeFrames + 1) }

/-- The loop of `pmm_free_contiguous`. -/
def freeRun (s : PmmState) (phys : ℕ) : ℕ → PmmState
  | 0 => s
  | i + 1 => pmmFreeFrame (freeRun s phys i) (wrap64 (phys + i * pageSize))

def pmmFreeContiguous (s : PmmState) (phys count : ℕ) : PmmState :=
  if phys = 0 ∨ count = 0 then s else freeRun s phys count

def pmmAlloc2m (s : PmmState) : PmmState × ℕ :=
  let (s, base) := pmmAllocContiguous s 1024
  if base = 0 then (s, 0)
  else
    let idx := base / pageSize
    let aligned := alignDown (wrap64 (idx + 511)) 512
    let s := if aligned ≠ idx then pmmFreeContiguous s base (aligned - idx) else s
    let tailStart := wrap64 (aligned + 512)
    let tailEnd := wrap64 (idx + 1024)
    let s :=
      if tailStart < tailEnd then
        pmmFreeContiguous s (wrap64 (tailStart * pageSize)) (tailEnd - tailStart)
      else s
    (s, wrap64 (aligned * pageSize))

/-- `pmm_inc_frame_ref`; `false` stands for `-1`. -/
def pmmIncFrameRef (s : PmmState) (phys : ℕ) : PmmState × Bool :=
  let idx := phys / pageSize
  if idx = 0 ∨ s.nframes ≤ idx then (s, false)
  else if s.test idx = false ∨ s.ref idx = 0 then (s, false)
  else (s.setRef idx (s.ref idx + 1), true)

def pmmGetFrameRefcount (s : PmmState) (phys : ℕ) : ℕ :=
  let idx := phys / pageSize
  if idx = 0 ∨ s.nframes ≤ idx then 0 else s.ref idx

end AuraLite.Pmm

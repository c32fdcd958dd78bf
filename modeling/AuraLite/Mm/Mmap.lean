import AuraLite.Lib.Reachability
import AuraLite.Mm.Vma

/-!
# Mapping calls of a process

`mmap`, `munmap`, `mprotect`, `shmat`, `shmdt` and the page faults of one
process.  What the calls get from the rest of the kernel (allocations, open
files, permissions) is an `Env` of the call.  Frames handed to `pmm_free_frame`
are part of the outcome.
-/

namespace AuraLite.Mmap

open Pmm Word64

inductive Errno
  | einval
  | enomem
  | ebadf
  | eacces
deriving DecidableEq

def userMmapBase : ℕ := 0x400000000000
def userMmapMax : ℕ := 0x700000000000

def mapShared : ℕ := 0x01
def mapPrivate : ℕ := 0x02
def mapFixed : ℕ := 0x10
def mapAnonymous : ℕ := 0x20
def mapPopulate : ℕ := 0x4000

/-- An entry of `shm_attachments`. -/
structure Attachment where
  shmid : ℕ
  va : ℕ
deriving DecidableEq

structure Process where
  vmas : List Vma
  mmapNext : ℕ
  /-- The physical address behind each page; `0` where no PTE is present. -/
  pages : ℕ → ℕ
  attachments : List Attachment

/-- A shared memory segment that is in use.  `shmget` rounds the size up to at
least one page and bounds it by `SHMMAX`. -/
structure Shm where
  pages : List ℕ
  nattch : ℕ
  destroyPending : Bool
  nonempty : pages ≠ []
  bounded : pages.length ≤ 8192

def Shm.size (m : Shm) : ℕ := m.pages.length * pageSize

/-- A process together with the segments that are in use. -/
structure Space where
  proc : Process
  shms : ℕ → Option Shm

/-- What a call gets from the rest of the kernel. -/
structure Env where
  /-- Outcomes of the successive `vma_alloc` calls. -/
  slab : List Bool
  /-- The descriptor table. -/
  files : ℕ → Option ℕ
  /-- The result of `shmem_create`. -/
  shmem : Option ℕ
  /-- Results of the successive `pmm_alloc_frame` calls. -/
  frames : List ℕ
  /-- Whether the page table of a page exists or can be made. -/
  tables : ℕ → Bool
  permitted : Bool
  kmalloc : Bool

structure Outcome where
  result : Except Errno ℕ
  proc : Process
  freed : List ℕ

/-! ## Page loops -/

def userMmapRangeOk (addr len : ℕ) : Bool :=
  decide (len ≠ 0 ∧ addr % pageSize = 0 ∧ userMmapBase ≤ addr ∧ addr < userMmapMax ∧
    len ≤ userMmapMax - addr)

/-- The loop over the pages of a range that asks for present entries. -/
def userRangeIsFree (pages : ℕ → ℕ) (addr len : ℕ) : Bool :=
  (List.range ((len + (pageSize - 1)) / pageSize)).all fun k =>
    pages ((addr + k * pageSize) / pageSize) == 0

/-- `paging_map`, which does nothing without a page table. -/
def mapPage (tables : ℕ → Bool) (pages : ℕ → ℕ) (page phys : ℕ) : ℕ → ℕ :=
  if tables page then Function.update pages page phys else pages

def unmapPages (pages : ℕ → ℕ) (addr len : ℕ) : ℕ → ℕ := fun page =>
  if addr / pageSize ≤ page ∧ page < addr / pageSize + len / pageSize then 0
  else pages page

/-- The frames behind the present pages of a range. -/
def mappedFrames (pages : ℕ → ℕ) (addr len : ℕ) : List ℕ :=
  ((List.range (len / pageSize)).map fun k => pages (addr / pageSize + k)).filter
    (· ≠ 0)

/-- `MAP_POPULATE`: stops at the first frame that cannot be allocated. -/
def populate (tables : ℕ → Bool) :
    List ℕ → ℕ → ℕ → (ℕ → ℕ) → ℕ → ℕ
  | _, _, 0, pages => pages
  | [], _, _ + 1, pages => pages
  | phys :: frames, page, count + 1, pages =>
    if phys = 0 then pages
    else populate tables frames (page + 1) count (mapPage tables pages page phys)

/-! ## `mmap` and `munmap` -/

/-- Whether the area at an address is a shared file mapping, whose frames belong
to the page cache. -/
def sharedFileAt (list : List Vma) (va : ℕ) : Bool :=
  (vmaFind list va).any fun v =>
    hasFlag v.flags vmaShared && hasFlag v.flags vmaFile &&
      !hasFlag v.flags vmaShmem && v.file.isSome

/-- The common part of `munmap` and `MAP_FIXED`: the areas are cut, the pages
unmapped and their frames freed, unless the first area is a shared file
mapping. -/
def Process.discard (p : Process) (addr len : ℕ) (slab : List Bool) :
    Process × List ℕ × List Bool :=
  let removed := vmaRemoveRange addr (addr + len) p.vmas slab
  ({ p with vmas := removed.1, pages := unmapPages p.pages addr len },
    if sharedFileAt p.vmas addr then [] else mappedFrames p.pages addr len,
    removed.2)

/-- The candidate loop of `mmap`. -/
def mmapSearch (pages : ℕ → ℕ) (len : ℕ) : ℕ → ℕ → Option ℕ
  | 0, _ => none
  | fuel + 1, candidate =>
    if userMmapBase ≤ candidate ∧ wrap64 (candidate + len) ≤ userMmapMax then
      if userRangeIsFree pages candidate len then some candidate
      else if userMmapMax - len - pageSize < candidate then none
      else mmapSearch pages len fuel (wrap64 (candidate + len))
    else none

/-- Where the candidate loop starts. -/
def Process.mmapStart (p : Process) (addr : ℕ) : ℕ :=
  alignUp
    (if userMmapBase ≤ addr ∧ addr < userMmapMax then addr
      else if p.mmapNext ≠ 0 then p.mmapNext else userMmapBase)
    pageSize

def mmapVmaFlags (prot flags : ℕ) : ℕ :=
  let base := if hasFlag flags mapAnonymous then vmaAnon else vmaFile
  let read := if hasFlag prot 1 then base ||| vmaRead else base
  let write := if hasFlag prot 2 then read ||| vmaWrite else read
  let exec := if hasFlag prot 4 then write ||| vmaExec else write
  if hasFlag flags mapShared then exec ||| vmaShared else exec

/-- The list with the new area of `mmap`. -/
def Process.mmapVmas (p : Process) (env : Env) (addr len prot flags fd off : ℕ)
    (slab : List Bool) : Except Errno (List Vma) :=
  let vflags := mmapVmaFlags prot flags
  let anonymous := hasFlag flags mapAnonymous
  let file := if anonymous then none else env.files fd
  if !anonymous && file.isNone then .error .ebadf
  else
    match
      if anonymous && hasFlag flags mapShared then
        env.shmem.bind fun shmid =>
          (vmaInsertShmem p.vmas addr (addr + len) vflags shmid slab).1
      else (vmaInsert p.vmas ⟨addr, addr + len, vflags, file, off, 0⟩ slab).1 with
    | none => .error .enomem
    | some vmas => .ok vmas

/-- The second half of `mmap`, once the address is known: the area is inserted
and the pages are populated on request. -/
def Process.mmapInsert (p : Process) (env : Env) (addr len prot flags fd off : ℕ)
    (slab : List Bool) (freed : List ℕ) : Outcome :=
  match p.mmapVmas env addr len prot flags fd off slab with
  | .error e => ⟨.error e, p, freed⟩
  | .ok vmas =>
    let pages :=
      if hasFlag flags mapPopulate then
        populate env.tables env.frames (addr / pageSize) (len / pageSize) p.pages
      else p.pages
    ⟨.ok addr, { p with vmas := vmas, pages := pages }, freed⟩

/-- The arguments that `mmap` refuses before it looks at the length. -/
def mmapRefuses (prot flags fd off : ℕ) : Bool :=
  decide (8 ≤ prot) || !(hasFlag flags mapShared || hasFlag flags mapPrivate) ||
    (!hasFlag flags mapAnonymous &&
      (decide (fd = 2 ^ 64 - 1) || decide (off % pageSize ≠ 0) ||
        decide (2 ^ 63 ≤ off)))

def syscallMmap (p : Process) (env : Env) (addr len prot flags fd off : ℕ) :
    Outcome :=
  let size := alignUp len pageSize
  if len = 0 ∨ mmapRefuses prot flags fd off = true then ⟨.error .einval, p, []⟩
  else if size = 0 ∨ userMmapMax - userMmapBase < size then ⟨.error .einval, p, []⟩
  else if hasFlag flags mapFixed then
    if addr % pageSize ≠ 0 then ⟨.error .einval, p, []⟩
    else if !userMmapRangeOk addr size then ⟨.error .enomem, p, []⟩
    else
      let cut := p.discard addr size env.slab
      cut.1.mmapInsert env addr size prot flags fd off cut.2.2 cut.2.1
  else
    match mmapSearch p.pages size (userMmapMax / pageSize) (p.mmapStart addr) with
    | none => ⟨.error .enomem, p, []⟩
    | some found =>
      { p with mmapNext := found + size }.mmapInsert env found size prot flags fd
        off env.slab []

def syscallMunmap (p : Process) (env : Env) (addr len : ℕ) : Outcome :=
  let size := alignUp len pageSize
  if len = 0 ∨ addr % pageSize ≠ 0 ∨ userMmapRangeOk addr size = false then
    ⟨.error .einval, p, []⟩
  else
    let cut := p.discard addr size env.slab
    ⟨.ok 0, cut.1, cut.2.1⟩

/-- `mprotect` maps the present pages again to the same frames. -/
def syscallMprotect (p : Process) (addr len prot : ℕ) : Outcome :=
  if len = 0 ∨ addr % pageSize ≠ 0 ∨ 8 ≤ prot then ⟨.error .einval, p, []⟩
  else
    match mprotectUpdateVmaRange p.vmas addr (alignUp len pageSize) prot with
    | none => ⟨.error .enomem, p, []⟩
    | some vmas => ⟨.ok 0, { p with vmas := vmas }, []⟩

/-! ## Shared memory segments -/

/-- The address a hint of `shmat` stands for; `0` when it is not used. -/
def shmHint (hint : ℕ) (rnd : Bool) : ℕ :=
  let addr := if rnd then alignDown hint pageSize else hint
  if addr < 0x40000000 ∨ 0x7FFF00000000 ≤ addr then 0 else addr

/-- The scan of `shm_alloc_addr`. -/
def shmScan (pages : ℕ → ℕ) (len : ℕ) : ℕ → ℕ → Option ℕ
  | 0, _ => none
  | fuel + 1, candidate =>
    if userMmapBase ≤ candidate ∧ wrap64 (candidate + len) ≤ 0x7FFFFFFFFFFF then
      if userRangeIsFree pages candidate len then some candidate
      else shmScan pages len fuel (wrap64 (candidate + pageSize))
    else none

def Process.shmStart (p : Process) : ℕ :=
  alignUp (if p.mmapNext ≠ 0 then p.mmapNext else userMmapBase) pageSize

/-- `shm_alloc_addr`: the address and the new `mmap_next`. -/
def Process.shmAllocAddr (p : Process) (hint len : ℕ) (rnd : Bool) :
    Option (ℕ × ℕ) :=
  if shmHint hint rnd ≠ 0 ∧ userRangeIsFree p.pages (shmHint hint rnd) len = true then
    some (shmHint hint rnd, p.mmapNext)
  else
    (shmScan p.pages len (0x7FFFFFFFFFFF / pageSize) p.shmStart).map fun addr =>
      (addr, addr + len)

def mapSegment (tables : ℕ → Bool) (va : ℕ) : List ℕ → (ℕ → ℕ) → ℕ → ℕ
  | [], pages => pages
  | phys :: rest, pages =>
    mapSegment tables (va + pageSize) rest (mapPage tables pages (va / pageSize) phys)

def unmapSegment (pages : ℕ → ℕ) (va npages : ℕ) : ℕ → ℕ := fun page =>
  if va / pageSize ≤ page ∧ page < va / pageSize + npages then 0 else pages page

/-- The second half of `shmat`, once the address is known: the frames are mapped,
then the area and the attachment are recorded or everything is undone. -/
def Space.shmAttach (s : Space) (env : Env) (shmid shmflg : ℕ) (m : Shm)
    (va next : ℕ) : Except Errno ℕ × Space :=
  let p := { s.proc with
    mmapNext := next
    pages := mapSegment env.tables va m.pages s.proc.pages }
  let vflags := vmaShared ||| vmaRead |||
    (if hasFlag shmflg 0x1000 then 0 else vmaWrite)
  let undone := unmapSegment p.pages va m.pages.length
  match vmaInsert p.vmas ⟨va, va + m.size, vflags, none, 0, 0⟩ env.slab with
  | (none, _) => (.error .enomem, { s with proc := { p with pages := undone } })
  | (some vmas, slab) =>
    if env.kmalloc then
      (.ok va,
        { proc := { p with
            vmas := vmas
            attachments := ⟨shmid, va⟩ :: p.attachments }
          shms := Function.update s.shms shmid
            (some { m with nattch := m.nattch + 1 }) })
    else
      (.error .enomem,
        { s with proc := { p with
            vmas := (vmaRemoveRange va (va + m.size) vmas slab).1
            pages := undone } })

def sysvShmat (s : Space) (env : Env) (shmid shmaddr shmflg : ℕ) :
    Except Errno ℕ × Space :=
  match (if shmid < 32 then s.shms shmid else none) with
  | none => (.error .einval, s)
  | some m =>
    if env.permitted = false then (.error .eacces, s)
    else
      match s.proc.shmAllocAddr shmaddr m.size (hasFlag shmflg 0x2000) with
      | none => (.error .enomem, s)
      | some (va, next) => s.shmAttach env shmid shmflg m va next

/-- The detach of one attachment whose segment is still in use: `nattch` drops
and a segment marked for destruction goes with its last attachment. -/
def Shm.detach (m : Shm) : Option Shm :=
  if m.destroyPending ∧ m.nattch - 1 = 0 then none
  else some { m with nattch := m.nattch - 1 }

def sysvShmdt (s : Space) (env : Env) (shmaddr : ℕ) : Except Errno ℕ × Space :=
  match s.proc.attachments.find? (·.va == shmaddr) with
  | none => (.error .einval, s)
  | some a =>
    let p := { s.proc with attachments := s.proc.attachments.erase a }
    match (if a.shmid < 32 then s.shms a.shmid else none) with
    | none => (.ok 0, { s with proc := p })
    | some m =>
      (.ok 0,
        { proc := { p with
            vmas := (vmaRemoveRange a.va (a.va + m.size) p.vmas env.slab).1
            pages := unmapSegment p.pages a.va m.pages.length }
          shms := Function.update s.shms a.shmid m.detach })

/-! ## Page faults -/

/-- The area that `handle_user_page_fault` finds and lets the access through. -/
def faultVma (list : List Vma) (cr2 : ℕ) (write exec : Bool) : Option Vma :=
  (vmaFind list (alignDown cr2 pageSize)).filter fun v =>
    !(write && !hasFlag v.flags vmaWrite) && !(exec && !hasFlag v.flags vmaExec)

/-- A lazy fault that got the frame `phys`. -/
def Process.fault (p : Process) (env : Env) (cr2 : ℕ) (write exec : Bool)
    (phys : ℕ) : Process :=
  match faultVma p.vmas cr2 write exec with
  | none => p
  | some _ =>
    if phys = 0 then p
    else { p with pages := mapPage env.tables p.pages (cr2 / pageSize) phys }

/-- A resolved copy-on-write fault: another frame behind a present page. -/
def Process.cowFault (p : Process) (page phys : ℕ) : Process :=
  if p.pages page = 0 ∨ phys = 0 then p
  else { p with pages := Function.update p.pages page phys }

/-! ## Runs -/

inductive Call
  | mmap (env : Env) (addr len prot flags fd off : ℕ)
  | munmap (env : Env) (addr len : ℕ)
  | mprotect (addr len prot : ℕ)
  | shmat (env : Env) (shmid shmaddr shmflg : ℕ)
  | shmdt (env : Env) (shmaddr : ℕ)
  | fault (env : Env) (cr2 : ℕ) (write exec : Bool) (phys : ℕ)
  | cowFault (page phys : ℕ)
  /-- Other processes create, attach and destroy segments. -/
  | segments (shms : ℕ → Option Shm)

def Space.call (s : Space) : Call → Space
  | .mmap env addr len prot flags fd off =>
    { s with proc := (syscallMmap s.proc env addr len prot flags fd off).proc }
  | .munmap env addr len => { s with proc := (syscallMunmap s.proc env addr len).proc }
  | .mprotect addr len prot =>
    { s with proc := (syscallMprotect s.proc addr len prot).proc }
  | .shmat env shmid shmaddr shmflg => (sysvShmat s env shmid shmaddr shmflg).2
  | .shmdt env shmaddr => (sysvShmdt s env shmaddr).2
  | .fault env cr2 write exec phys =>
    { s with proc := s.proc.fault env cr2 write exec phys }
  | .cowFault page phys => { s with proc := s.proc.cowFault page phys }
  | .segments shms => { s with shms := shms }

def Space.Step (s : Space) (call : Call) (s' : Space) : Prop := s.call call = s'

end AuraLite.Mmap

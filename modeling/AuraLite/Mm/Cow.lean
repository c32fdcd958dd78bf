import AuraLite.Lib.Reachability
import AuraLite.Mm.PageClone

/-!
# Copy-on-write address spaces

Processes with their page tables over one frame allocator.  Page tables are
changed only under the `vm_lock`, so a fork and the resolution of a write fault
are single steps.  The frames that a resolved fault, a failed fork or a teardown
gives back are released after the lock has been dropped: they wait in `pending`
and every `pmm_free_frame` is a step of its own, in any order with the steps of
other processes.
-/

namespace AuraLite.Paging

open ByteMemory Pmm

structure Proc where
  root : Pml4
  /-- The pages that lie in a `VMA_SHARED` area of the process. -/
  sharedVma : ℕ → Bool

/-- A slot of `procs` is emptied when its process is torn down. -/
structure System where
  pmm : PmmState
  procs : List (Option Proc)
  pending : List ℕ

/-- The number of pages below `PML4_USER_TOP`. -/
def userPages : ℕ := 256 * 512 ^ 3

def System.proc (s : System) (i : ℕ) : Option Proc := s.procs.getD i none

/-- `walk_pte` in the tables of process `i`. -/
def System.pte (s : System) (i page : ℕ) : Option Pte :=
  (s.proc i).bind fun p => rootLevel.find p.root page

/-- The user leaf through which process `i` reaches a page. -/
def System.userPte (s : System) (i page : ℕ) : Option Pte :=
  if page < userPages then (s.pte i page).filter (·.user) else none

def System.sharedPage (s : System) (i page : ℕ) : Bool :=
  (s.proc i).any (·.sharedVma page)

/-- The physical address behind a virtual one. -/
def Pte.byteAddr (e : Pte) (addr : ℕ) : ℕ :=
  e.frame * pageSize + addr % pageSize

/-- The byte process `i` reads at `addr`, if the page is mapped. -/
def System.readByte (s : System) (i addr : ℕ) : Option Byte :=
  (s.userPte i (addr / pageSize)).map fun e => s.pmm.mem (e.byteAddr addr)

def System.setPte (s : System) (i page : ℕ) (e : Pte) : System :=
  { s with procs := s.procs.modify i (Option.map fun p =>
      { p with root := rootLevel.set p.root page e }) }

/-- The leaf once a fault has been resolved. -/
def Pte.resolved (e : Pte) (frame : ℕ) : Pte :=
  { e with frame := frame, writable := true, cow := false }

/-- `paging_handle_cow_fault` for a write to a present page; `none` stands for
the return value `0`. -/
def handleCowFault (s : System) (i page : ℕ) : Option System :=
  match s.userPte i page with
  | none => none
  | some e =>
    if e.cow = false then none
    else if pmmGetFrameRefcount s.pmm (e.frame * pageSize) ≤ 1 then
      some (s.setPte i page (e.resolved e.frame))
    else
      let new := pmmAllocFrame s.pmm
      if new.2 = 0 then none
      else
        let mem := copyBytes new.1.mem new.2 (e.frame * pageSize) pageSize
        some { s.setPte i page (e.resolved (new.2 / pageSize)) with
          pmm := { new.1 with mem := mem }
          pending := e.frame :: s.pending }

def System.store (s : System) (addr : ℕ) (byte : Byte) : System :=
  { s with pmm := { s.pmm with mem := Function.update s.pmm.mem addr byte } }

/-- A store by process `i`, from user code or from `copy_to_user`: through a
writable leaf, or after the fault has been resolved.  A fault that is not
resolved ends the store. -/
def System.write (s : System) (i addr : ℕ) (byte : Byte) : System :=
  match s.userPte i (addr / pageSize) with
  | none => s
  | some e =>
    if e.writable then s.store (e.byteAddr addr) byte
    else
      match handleCowFault s i (addr / pageSize) with
      | none => s
      | some s' =>
        match s'.userPte i (addr / pageSize) with
        | none => s'
        | some e => s'.store (e.byteAddr addr) byte

/-- The fork of process `i`: the child is appended, or what was built of it is
torn down. -/
def System.fork (s : System) (i : ℕ) : System :=
  match s.proc i with
  | none => s
  | some p =>
    let r := cloneUserSpace p.sharedVma p.root s.pmm
    let procs := s.procs.modify i (Option.map fun p => { p with root := r.parent })
    match r.ok, r.child with
    | true, some child =>
      { s with pmm := r.pmm, procs := procs ++ [some ⟨child, p.sharedVma⟩] }
    | _, child =>
      { pmm := r.pmm, procs := procs,
        pending := Level.child rootLevel.frames child ++ s.pending }

/-- `paging_free_address_space` of a process that has stopped running. -/
def System.exit (s : System) (i : ℕ) : System :=
  match s.proc i with
  | none => s
  | some p =>
    { s with
      procs := s.procs.set i none
      pending := rootLevel.frames p.root ++ s.pending }

/-- One `pmm_free_frame` of an operation that is on its way. -/
def System.settle (s : System) (k : ℕ) : System :=
  match s.pending[k]? with
  | none => s
  | some f =>
    { s with
      pmm := pmmFreeFrame s.pmm (f * pageSize)
      pending := s.pending.eraseIdx k }

inductive Event
  | fork (i : ℕ)
  | write (i addr : ℕ) (byte : Byte)
  | exit (i : ℕ)
  | settle (k : ℕ)

def System.step (s : System) : Event → System
  | .fork i => s.fork i
  | .write i addr byte => s.write i addr byte
  | .exit i => s.exit i
  | .settle k => s.settle k

def System.Step (s : System) (event : Event) (s' : System) : Prop :=
  s.step event = s'

/-- A fork may not bring a reference count to `2 ^ 32`. -/
def Event.Allowed (s : System) : Event → Prop
  | .fork i => ∀ p, s.proc i = some p → ∀ f,
      pmmGetFrameRefcount s.pmm (f * pageSize) +
        (rootLevel.frames p.root).length < 2 ^ 32
  | _ => True

/-! ## References -/

/-- The number of user leaves that map a frame. -/
def System.userPtes (s : System) (f : ℕ) : ℕ :=
  (Table.collect (fun p : Proc => rootLevel.leaves p.root) s.procs).count f

/-- The number of uses of a frame as a page table. -/
def System.tableUses (s : System) (f : ℕ) : ℕ :=
  (Table.collect (fun p : Proc => rootLevel.tables p.root) s.procs).count f

def System.refs (s : System) (f : ℕ) : ℕ :=
  s.userPtes f + s.tableUses f + s.pending.count f

/-- A frame that is mapped writable is mapped a second time only between pages
of shared areas. -/
def System.Exclusive (s : System) : Prop :=
  ∀ i j page page' e e', s.userPte i page = some e → s.userPte j page' = some e' →
    (i, page) ≠ (j, page') → e.frame = e'.frame → e.writable = true →
    s.sharedPage i page = true ∧ s.sharedPage j page' = true

/-- The states from which isolation holds.  The allocator's counts are the
references and a page table has no other reference. -/
structure Consistent (kept : ℕ → Prop) (s : System) : Prop where
  holds : Holds s.pmm kept s.refs
  tables : ∀ f, s.tableUses f ≠ 0 → s.refs f = 1
  exclusive : s.Exclusive

end AuraLite.Paging

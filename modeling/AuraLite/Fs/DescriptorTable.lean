import AuraLite.Fs.Description
import AuraLite.Lib.Fallible
import AuraLite.Lib.Reachability
import AuraLite.Mm.Vma

/-!
# Descriptor tables, areas and the descriptions they hold

The calls that move references to open file descriptions: `open`, `close`, `dup`, `dup2`,
`F_DUPFD`, `pipe2`, `mkfifo`, `unlink`, `fork`, `clone`, `exec` and thread exit.  A call runs
to its end before the next one starts.  What lies outside of these functions is an argument
of the call: the outcome of allocations, of the permission checks and of the file systems.
A reference that the running code holds between two updates is listed beside the state, so
that every step of a call either moves a reference or changes a count by one.
-/

namespace AuraLite.Descriptor

open Arena RefCount Fallible Reachability
open Mmap (Vma hasFlag vmaFile vmaInsert vmaLink vmaAlloc)

inductive Errno
  | enoent
  | ebadf
  | eagain
  | enomem
  | eacces
  | efault
  | eexist
  | eisdir
  | enotdir
  | einval
  | emfile
  | enospc
  | erofs
  | enosys
  | eperm
  | eio
  | enoexec
deriving DecidableEq

/-- `VFS_MAX_FDS`. -/
def maxFds : ℕ := 64

/-- `struct fdtab`. -/
structure Fdtab where
  slots : List (Option ℕ)
  cloexec : List Bool
  refs : ℕ
  full : slots.length = maxFds

/-- `fdtab_alloc`. -/
def Fdtab.fresh : Fdtab where
  slots := List.replicate maxFds none
  cloexec := List.replicate maxFds false
  refs := 1
  full := List.length_replicate

def Fdtab.held (tab : Fdtab) : List ℕ := tab.slots.flatMap Option.toList

/-- The description that `vma_retain_file` and `vma_drop_file` count. -/
def fileOf (v : Vma) : Option ℕ := if hasFlag v.flags vmaFile then v.file else none

def areaFiles (areas : List Vma) : List ℕ := areas.flatMap fun v => (fileOf v).toList

structure Task where
  /-- A task without a table uses the fallback table. -/
  fdtab : Option ℕ
  /-- The head of the area list; `clone` copies it. -/
  vmaList : Option ℕ
  isPthread : Bool
  dead : Bool
deriving DecidableEq

structure State where
  store : Store
  /-- Table `0` is `fallback_fdtab`. -/
  tables : List (Option Fdtab)
  lists : List (Option (List Vma))
  tasks : List (Option Task)

def State.running (s : State) (t : ℕ) : Option Task := (lookup s.tasks t).filter (!·.dead)

/-- `current_fd_table`. -/
def Task.table (task : Task) : ℕ := task.fdtab.getD 0

def State.slotAt (s : State) (k i : ℕ) : Option ℕ :=
  (lookup s.tables k).bind fun tab => tab.slots[i]?.join

/-- The slot of a descriptor with its range check. -/
def State.slot (s : State) (k : ℕ) (fd : ℤ) : Option ℕ :=
  if fd < 0 then none else s.slotAt k fd.toNat

def State.cloexecAt (s : State) (k i : ℕ) : Bool :=
  ((lookup s.tables k).bind fun tab => tab.cloexec[i]?).getD false

def Fdtab.set (tab : Fdtab) (i : ℕ) (o : Option ℕ) (cloexec : Bool) : Fdtab where
  slots := tab.slots.set i o
  cloexec := tab.cloexec.set i cloexec
  refs := tab.refs
  full := List.length_set.trans tab.full

def State.setSlot (s : State) (k i : ℕ) (o : Option ℕ) (cloexec : Bool) : State :=
  match lookup s.tables k with
  | none => s
  | some tab => { s with tables := s.tables.set k (some (tab.set i o cloexec)) }

/-- `alloc_fd_slot_ptr`. -/
def allocFdSlot (slots : List (Option ℕ)) (start : ℕ) : Option ℕ :=
  (List.range' start (maxFds - start)).find? fun i => slots[i]? == some none

def State.freeSlot (s : State) (k start : ℕ) : Option ℕ :=
  (lookup s.tables k).bind fun tab => allocFdSlot tab.slots start

def State.onStore (s : State) (f : Store → Store) : State := { s with store := f s.store }

def State.ofdGet (s : State) (o : ℕ) : State := s.onStore (·.ofdGet o)

def State.ofdPut (s : State) (o : ℕ) : State := s.onStore (·.ofdPut o)

/-! ## The calls on descriptors -/

abbrev Prog := EStateM Errno State

def orThrow {α : Type} (e : Errno) : Option α → Prog α
  | some a => pure a
  | none => throw e

def check : Option Errno → Prog Unit
  | none => pure ()
  | some e => throw e

def refuse (cond : Prop) [Decidable cond] (e : Errno) : Prog Unit :=
  if cond then throw e else pure ()

/-- The arguments of `vfs_open`, with the path as it is after resolution. -/
structure OpenArgs where
  path : Path
  creat : Bool
  excl : Bool
  cloexec : Bool
  /-- The error that keeps a missing file from being created. -/
  createErr : Option Errno
  /-- The error of the permission, type and truncation checks. -/
  checkErr : Option Errno
  /-- `slab_alloc` finds memory for the description. -/
  slab : Bool

def findVnode (args : OpenArgs) : Prog ℕ := do
  let s ← get
  match s.store.resolve args.path with
  | some v => if args.creat && args.excl then throw .eexist else pure v
  | none =>
    if args.creat then do
      check args.createErr
      modifyGet fun s => (s.store.vnodes.length, s.onStore (·.addFile args.path))
    else throw .enoent

/-- The end of `vfs_open`: a slot and a description for it. -/
def installOfd (k vn : ℕ) (cloexec slab : Bool) : Prog ℕ := do
  let s ← get
  let slot ← orThrow .emfile (s.freeSlot k 0)
  if slab then
    modifyGet fun s =>
      (slot, (s.onStore (·.ofdAlloc vn)).setSlot k slot (some s.store.ofds.length) cloexec)
  else throw .enomem

def vfsOpen (k : ℕ) (args : OpenArgs) : Prog ℕ := do
  let vn ← findVnode args
  check args.checkErr
  installOfd k vn args.cloexec args.slab

def vfsClose (k : ℕ) (fd : ℤ) : Prog Unit := do
  let s ← get
  let o ← orThrow .ebadf (s.slot k fd)
  modify fun s => (s.setSlot k fd.toNat none false).ofdPut o

/-- `dup_lowest_from`; `vfs_dup` is the case `start = 0` without `FD_CLOEXEC`. -/
def dupLowestFrom (k : ℕ) (oldfd minfd : ℤ) (cloexec : Bool) : Prog ℕ := do
  let s ← get
  let o ← orThrow .ebadf (s.slot k oldfd)
  refuse (minfd < 0 ∨ (maxFds : ℤ) ≤ minfd) .einval
  let nfd ← orThrow .emfile (s.freeSlot k minfd.toNat)
  modifyGet fun s => (nfd, (s.ofdGet o).setSlot k nfd (some o) cloexec)

def vfsDup (k : ℕ) (oldfd : ℤ) : Prog ℕ := dupLowestFrom k oldfd 0 false

def State.putSlot (s : State) : Option ℕ → State
  | none => s
  | some o => s.ofdPut o

def vfsDup2 (k : ℕ) (oldfd newfd : ℤ) : Prog ℤ := do
  let s ← get
  let o ← orThrow .ebadf (s.slot k oldfd)
  refuse (newfd < 0 ∨ (maxFds : ℤ) ≤ newfd) .ebadf
  if oldfd = newfd then pure newfd
  else do
    modify fun s => ((s.ofdGet o).setSlot k newfd.toNat (some o) false).putSlot (s.slot k newfd)
    pure newfd

def vfsSetCloexec (k : ℕ) (fd : ℤ) (on : Bool) : Prog Unit := do
  let s ← get
  let o ← orThrow .ebadf (s.slot k fd)
  modify fun s => s.setSlot k fd.toNat (some o) on

structure PipeArgs where
  /-- A null pointer or an unknown flag. -/
  argErr : Option Errno
  cloexec : Bool
  /-- The allocations of `vfs_pipe2` that succeed. -/
  ring : Bool
  rvn : Bool
  wvn : Bool
  ro : Bool
  wo : Bool

/-- The second slot: the first one is taken by then. -/
def State.secondSlot (s : State) (k rfd : ℕ) : Option ℕ :=
  (lookup s.tables k).bind fun tab => allocFdSlot (tab.slots.set rfd (some 0)) 0

def wasteIf (waste : Store → Store) (allocated : Bool) (st : Store) : Store :=
  if allocated then waste st else st

/-- The failing exit of `vfs_pipe2` after `kmalloc`: what was allocated is given back.  The
descriptions are tried only when there are two vnodes. -/
def Store.pipeFailed (st : Store) (args : PipeArgs) : Store :=
  wasteIf .wasteOfd (args.rvn && args.wvn && args.wo)
    (wasteIf .wasteOfd (args.rvn && args.wvn && args.ro)
      (wasteIf .wasteVnode args.wvn (wasteIf .wasteVnode args.rvn st.wasteRing)))

def vfsPipe2 (k : ℕ) (args : PipeArgs) : Prog (ℕ × ℕ) := do
  check args.argErr
  let s ← get
  let rfd ← orThrow .emfile (s.freeSlot k 0)
  let wfd ← orThrow .emfile (s.secondSlot k rfd)
  if args.ring then
    if args.rvn && args.wvn && args.ro && args.wo then
      modifyGet fun s => ((rfd, wfd), ((s.onStore Store.pipeObjects).setSlot k rfd
        (some s.store.ofds.length) args.cloexec).setSlot k wfd
        (some (s.store.ofds.length + 1)) args.cloexec)
    else do
      modify fun s => s.onStore (·.pipeFailed args)
      throw .enomem
  else throw .enomem

/-! ## The calls on names -/

structure FifoArgs where
  path : Path
  /-- The error of the checks on the path and on its parent. -/
  checkErr : Option Errno
  ring : Bool
  vn : Bool

def vfsMkfifo (args : FifoArgs) : Prog Unit := do
  let s ← get
  refuse ((s.store.resolve args.path).isSome) .eexist
  check args.checkErr
  let slot ← orThrow .enospc (s.store.namedFifos.findIdx? (·.isNone))
  if args.ring && args.vn then modify fun s => s.onStore (·.addFifo slot args.path)
  else do
    modify fun s => s.onStore fun st =>
      wasteIf .wasteVnode args.vn (wasteIf .wasteRing args.ring st)
    throw .enomem

structure UnlinkArgs where
  path : Path
  /-- The error of the check on the parent. -/
  checkErr : Option Errno
  /-- The path is a registered symbolic link, which is removed. -/
  symlink : Bool
  /-- The error of the file system. -/
  fsErr : Option Errno

def State.fifoEntry (s : State) (path : Path) : Option (ℕ × NamedFifo) :=
  (s.store.fifoSlot path).bind fun i => (lookup s.store.namedFifos i).map fun f => (i, f)

def vfsUnlink (args : UnlinkArgs) : Prog Unit := do
  check args.checkErr
  if args.symlink then pure ()
  else do
    let s ← get
    match s.fifoEntry args.path with
    | some (i, f) => modify fun s => s.onStore (·.removeFifo i f)
    | none => do
        check args.fsErr
        let v ← orThrow .enoent (s.store.files args.path)
        modify fun s => s.onStore (·.removeFile args.path v)

/-! ## The calls on tasks -/

/-- `vma_retain_file`. -/
def State.retainFile (s : State) (v : Vma) : State := (fileOf v).elim s s.ofdGet

/-- `vma_drop_file`. -/
def State.dropFile (s : State) (v : Vma) : State := (fileOf v).elim s s.ofdPut

/-- The areas behind the list head of a task. -/
def State.areas (s : State) (task : Task) : List Vma :=
  (task.vmaList.bind (lookup s.lists)).getD []

/-- The loop of `do_fork` that copies the areas; `slab` answers the calls of `vma_alloc`. -/
def State.copyAreas (s : State) (copy : List Vma) (slab : List Bool) :
    List Vma → Bool × List Vma × State
  | [] => (true, copy, s)
  | v :: rest =>
    match (vmaInsert copy { v with shmid := 0 } slab).1 with
    | none => (false, copy, s)
    | some copy' =>
      (s.retainFile v).copyAreas copy' (vmaInsert copy { v with shmid := 0 } slab).2 rest

/-- `fdtab_alloc` and `vfs_fork_inherit` from the table of the parent. -/
def State.inheritTable (s : State) (src : Option ℕ) : State :=
  { (((src.bind (lookup s.tables)).getD Fdtab.fresh).held.foldl State.ofdGet s) with
    tables := s.tables ++
      [some { (src.bind (lookup s.tables)).getD Fdtab.fresh with refs := 1 }] }

def State.addTask (s : State) (task : Task) : State :=
  { s with tasks := s.tasks ++ [some task] }

/-- A list head for the areas of a new task; an empty list has none. -/
def State.addAreas (s : State) (task : Task) (areas : List Vma) : State :=
  if areas = [] then s.addTask task
  else
    { s with lists := s.lists ++ [some areas] }.addTask
      { task with vmaList := some s.lists.length }

structure ForkArgs where
  /-- The address space and the thread are created. -/
  thread : Bool
  /-- There is memory for the table of the child. -/
  table : Bool
  slab : List Bool

/-- The table of the child, when there is one. -/
def State.childTable (s : State) (src : Option ℕ) (table : Bool) : State × Option ℕ :=
  if table then (s.inheritTable src, some s.tables.length) else (s, none)

/-- `do_fork`.  When the areas cannot be copied the child is left dead, with its table. -/
def State.fork (s : State) (self : Task) (args : ForkArgs) : State :=
  if args.thread then
    let child := s.childTable self.fdtab args.table
    match child.1.copyAreas [] args.slab (s.areas self) with
    | (true, copy, s') => s'.addAreas ⟨child.2, none, false, false⟩ copy
    | (false, copy, s') =>
      (copy.foldl State.dropFile s').addTask ⟨child.2, none, false, true⟩
  else s

def State.setTask (s : State) (t : ℕ) (task : Option Task) : State :=
  { s with tasks := s.tasks.set t task }

/-- `fdtab_unref`.  At zero every slot is closed and the table freed. -/
def State.fdtabUnref (s : State) (k : ℕ) : State :=
  match lookup s.tables k with
  | none => s
  | some tab =>
    if tab.refs - 1 ≠ 0 then
      { s with tables := s.tables.set k (some { tab with refs := tab.refs - 1 }) }
    else tab.held.foldl State.ofdPut { s with tables := s.tables.set k none }

def State.fdtabRef (s : State) (k : ℕ) : State :=
  match lookup s.tables k with
  | none => s
  | some tab => { s with tables := s.tables.set k (some { tab with refs := tab.refs + 1 }) }

/-- `do_clone`: the table is shared and the list head copied.  The table that the thread was
created with is dropped when the parent has one.  Without memory for the shared break (`brk`)
the call fails before the list head, and the thread, which is never started, keeps its
table. -/
def State.clone (s : State) (self : Task) (thread table brk : Bool) : State :=
  let head := if brk then self.vmaList else none
  if thread then
    match self.fdtab with
    | some k =>
      ({ s with tables := s.tables ++ if table then [none] else [] }.fdtabRef k).addTask
        ⟨some k, head, true, false⟩
    | none =>
      if table then
        { s with tables := s.tables ++ [some Fdtab.fresh] }.addTask
          ⟨some s.tables.length, head, true, false⟩
      else s.addTask ⟨none, head, true, false⟩
  else s

/-- `close_process_fds` in `thread_exit`. -/
def State.exit (s : State) (t : ℕ) (self : Task) : State :=
  match self.fdtab with
  | none => s.setTask t (some { self with dead := true })
  | some k => (s.setTask t (some { self with fdtab := none, dead := true })).fdtabUnref k

/-- `vma_free_all` on the list of a task. -/
def State.vmaFreeAll (s : State) (self : Task) : State :=
  match self.vmaList with
  | none => s
  | some k =>
    ((lookup s.lists k).getD []).foldl State.dropFile { s with lists := s.lists.set k none }

/-- The reaper: the areas of a process go with it, those of a thread do not. -/
def State.reap (s : State) (t : ℕ) (z : Task) : State :=
  if z.isPthread then s.setTask t none else (s.setTask t none).vmaFreeAll z

def vfsCloseOnExec (k : ℕ) : Prog Unit :=
  (List.range' 3 (maxFds - 3)).forM fun fd => do
    let s ← get
    if s.cloexecAt k fd && (s.slotAt k fd).isSome then vfsClose k fd else pure ()

/-- An image is opened, read and closed. -/
def readImage (k : ℕ) (args : OpenArgs) : Prog Unit := do
  let fd ← vfsOpen k { args with creat := false, cloexec := false }
  vfsClose k fd

structure ExecArgs where
  /-- The scripts on the way to the image, and the image. -/
  images : List OpenArgs
  interp : Option OpenArgs
  /-- The error met after the files were read. -/
  loadErr : Option Errno

/-- `execve_image` up to the new address space. -/
def execveImage (t : ℕ) (self : Task) (args : ExecArgs) : Prog Unit := do
  args.images.forM fun image => do
    vfsCloseOnExec self.table
    readImage self.table image
  args.interp.toList.forM (readImage self.table)
  check args.loadErr
  modify fun s => (s.setTask t (some { self with vmaList := none })).vmaFreeAll self

inductive Call
  | openFile (t : ℕ) (args : OpenArgs)
  | close (t : ℕ) (fd : ℤ)
  | dup (t : ℕ) (oldfd : ℤ)
  | dup2 (t : ℕ) (oldfd newfd : ℤ)
  | fcntlDup (t : ℕ) (oldfd minfd : ℤ) (cloexec : Bool)
  | setCloexec (t : ℕ) (fd : ℤ) (on : Bool)
  | pipe2 (t : ℕ) (args : PipeArgs)
  | mkfifo (args : FifoArgs)
  | unlink (args : UnlinkArgs)
  | fork (t : ℕ) (args : ForkArgs)
  | clone (t : ℕ) (thread table brk : Bool)
  | exec (t : ℕ) (args : ExecArgs)
  | exit (t : ℕ)
  | reap (t : ℕ)

def State.byTask {α : Type} (s : State) (t : ℕ) (m : Task → Prog α) : State :=
  match s.running t with
  | none => s
  | some self => after (m self) s

def State.step (s : State) : Call → State
  | .openFile t args => s.byTask t fun self => vfsOpen self.table args
  | .close t fd => s.byTask t fun self => vfsClose self.table fd
  | .dup t oldfd => s.byTask t fun self => vfsDup self.table oldfd
  | .dup2 t oldfd newfd => s.byTask t fun self => vfsDup2 self.table oldfd newfd
  | .fcntlDup t oldfd minfd cloexec =>
    s.byTask t fun self => dupLowestFrom self.table oldfd minfd cloexec
  | .setCloexec t fd on => s.byTask t fun self => vfsSetCloexec self.table fd on
  | .pipe2 t args => s.byTask t fun self => vfsPipe2 self.table args
  | .mkfifo args => after (vfsMkfifo args) s
  | .unlink args => after (vfsUnlink args) s
  | .exec t args => s.byTask t fun self => execveImage t self args
  | .fork t args =>
    match s.running t with
    | none => s
    | some self => s.fork self args
  | .clone t thread table brk =>
    match s.running t with
    | none => s
    | some self => s.clone self thread table brk
  | .exit t =>
    match s.running t with
    | none => s
    | some self => s.exit t self
  | .reap t =>
    match lookup s.tasks t with
    | none => s
    | some z => if z.dead then s.reap t z else s

def State.Step (s : State) (call : Call) (s' : State) : Prop := s.step call = s'

end AuraLite.Descriptor

import AuraLite.Fs.Tmpfs

/-!
# The calls of the VFS

`vfs.c` and `symlink.c` over the volumes: resolution of a path to a vnode, permission
checks, and the calls that open, create, remove, rename, link and change modes.  A call is a program that ends with a result or an error; as in the
source, an error does not undo what was done before it.
-/

namespace AuraLite.Vfs

open SlashPath Credentials Fallible Function
open Function (update)

/-- A vnode: the root or a slot of a volume, or a named FIFO. -/
inductive Ref
  | root (vol : ℕ)
  | slot (vol i : ℕ)
  | fifo (path : Name)
deriving DecidableEq

structure Fifo where
  path : Name
  attr : Attr
deriving DecidableEq

structure Ofd where
  vn : Ref
  access : ℕ
  append : Bool
  nonblock : Bool
  pos : ℕ
  path : Name
deriving DecidableEq

/-- The file systems, and the process that makes the calls. -/
structure State where
  mounts : List Mount
  links : List Link
  fifos : List Fifo
  vols : ℕ → Volume
  fds : ℕ → Option Ofd
  cloexec : ℕ → Bool
  cred : Cred
  cwd : Name

def maxFds : ℕ := 64
def maxSymlinks : ℕ := 32

abbrev Op := EStateM ℤ State

/-! ## Vnodes -/

def State.findFifo (s : State) (path : Name) : Option Fifo := s.fifos.find? (·.path == path)

def State.attr (s : State) : Ref → Option Attr
  | .root vol => some (s.vols vol).root
  | .slot vol i => ((s.vols vol).files i).map (·.attr)
  | .fifo path => (s.findFifo path).map (·.attr)

def State.kind (s : State) : Ref → Option Kind
  | .root _ => some .dir
  | .slot vol i => ((s.vols vol).files i).map (·.kind)
  | .fifo _ => some .fifo

/-- Whether the operation table of the vnode has the mutating operations. -/
def State.writable (s : State) : Ref → Bool
  | .root vol | .slot vol _ => (s.vols vol).writable
  | .fifo _ => false

def State.setVol (s : State) (vol : ℕ) (v : Volume) : State :=
  { s with vols := update s.vols vol v }

def Volume.setAttr (v : Volume) (i : ℕ) (attr : Attr) : Volume :=
  v.setFile i ((v.files i).map fun f => { f with attr := attr })

def State.setAttr (s : State) (attr : Attr) : Ref → State
  | .root vol => s.setVol vol { s.vols vol with root := attr }
  | .slot vol i => s.setVol vol ((s.vols vol).setAttr i attr)
  | .fifo path =>
    { s with fifos := s.fifos.map fun f => if f.path = path then ⟨path, attr⟩ else f }

/-! ## Resolution -/

def State.lookupIn (s : State) (m : Mount) (rel : Name) : Option Ref :=
  ((s.vols m.vol).lookup rel).map fun found => found.elim (.root m.vol) (.slot m.vol)

/-- The end of `resolve_path_follow`: named FIFOs first, then the mount table. -/
def State.lookup (s : State) (path : Name) : Option Ref :=
  match s.findFifo path with
  | some _ => some (.fifo path)
  | none => (findMount s.mounts path).bind fun found => s.lookupIn found.1 found.2

/-- `resolve_path`. -/
def State.resolve (s : State) (path : Name) : Option Ref :=
  (realpath s.links s.cwd path).bind fun cs => s.lookup (render cs)

/-- The path that `resolve_parent_vnode` resolves. -/
def parentPath (path : Name) : Name :=
  match dirName path with
  | none | some [] => ['/']
  | some parent => parent.take (pathMax - 1)

/-- `resolve_parent_vnode`. -/
def State.resolveParent (s : State) (path : Name) : Option Ref :=
  if path = [] then none else s.resolve (parentPath path)

/-- `vfs_check_perm`. -/
def State.permits (s : State) (access : ℕ) (vn : Ref) : Bool :=
  (s.attr vn).any fun attr => checkPerm attr access s.cred

def check (vn : Option Ref) (access : ℕ) : Op Unit := do
  let s ← get
  match vn with
  | none => throw eNoEnt
  | some vn => if s.permits access vn then pure () else throw eAcces

/-! ## The installation policy -/

/-- Strictly below one of the `allowed_dirs`. -/
def installable (path : Name) : Bool :=
  "/opt/".toList.isPrefixOf path || "/tmp/".toList.isPrefixOf path

/-- `exec_install_allowed` with `vfs_realpath` as its resolver. -/
def State.execInstallAllowed (s : State) (path : Name) : Bool :=
  (((canonicalPath pathMax path).bind fun canon =>
    realpath s.links s.cwd (render canon)).bind fun real =>
      canonicalPath pathMax (render real)).any fun cs => installable (render cs)

/-- `vfs_vnode_path`. -/
def State.vnodePath (s : State) (vn : Ref) : Option Name :=
  let found : Option (ℕ × Name) := match vn with
    | .root vol => some (vol, [])
    | .slot vol i => ((s.vols vol).files i).map fun f => (vol, f.name)
    | .fifo _ => none
  found.bind fun (vol, name) =>
    (s.mounts.find? (·.ops == (s.vols vol).ops)).bind fun m =>
      let full := if 1 < m.path.length then m.path ++ '/' :: name else m.path ++ name
      if full.length < pathMax then some full else none

/-! ## `vfs_open` -/

/-- Answers of the allocators. -/
structure Mem where
  data : Bool
  description : Bool
deriving DecidableEq

def creat (flags : ℕ) : Bool := flags.testBit 6
def excl (flags : ℕ) : Bool := flags.testBit 7
def trunc (flags : ℕ) : Bool := flags.testBit 9
def appendFlag (flags : ℕ) : Bool := flags.testBit 10
def nonblockFlag (flags : ℕ) : Bool := flags.testBit 11
def directory (flags : ℕ) : Bool := flags.testBit 16
def cloexecFlag (flags : ℕ) : Bool := flags.testBit 19

/-- `O_WRONLY` or `O_RDWR`. -/
def writing (flags : ℕ) : Bool := flags % 4 == 1 || flags % 4 == 2

/-- The permissions that an existing file has to give. -/
def required (flags : ℕ) : ℕ :=
  let access := if flags % 4 = 0 then 4 else if flags % 4 = 1 then 2 else 6
  if trunc flags then access ||| 2 else access

def openCreate (path : Name) (mode : ℕ) (mem : Bool) : Op Ref := do
  let s ← get
  if createMode s.cred mode &&& execModeBits ≠ 0 ∧ s.execInstallAllowed path = false then
    throw ePerm
  else do
    check (s.resolveParent path) 2
    match findMount s.mounts path with
    | none => throw eNoEnt
    | some (m, rel) =>
      if (s.vols m.vol).writable = false then throw eRofs
      else
        match tmpfsCreate rel mem (s.vols m.vol) with
        | none => throw eAcces
        | some (i, v) => do
            set (s.setVol m.vol
              (v.setAttr i ⟨createMode s.cred mode, s.cred.euid, s.cred.egid⟩))
            pure (.slot m.vol i)

def wrapErr (fallback e : ℤ) : ℤ := if e = -1 then fallback else e

/-- An operation on one volume, through `vfs_wrap_err`. -/
def onVolume (vol : ℕ) (op : Fs Unit) (fallback : ℤ) : Op Unit := fun s =>
  match op.run (s.vols vol) with
  | .ok _ v => .ok () (s.setVol vol v)
  | .error e v => .error (wrapErr fallback e) (s.setVol vol v)

/-- `vn->ops->truncate`, which only the slots of writable volumes get to. -/
def truncateVnode (vn : Ref) (size : ℕ) (mem : Bool) : Op Unit :=
  match vn with
  | .slot vol i => onVolume vol (tmpfsTruncate i size mem) eIO
  | _ => throw eIO

def State.freeFd (s : State) : Option ℕ :=
  (List.range maxFds).find? fun fd => (s.fds fd).isNone

/-- `vn->size`. -/
def State.size (s : State) : Ref → ℕ
  | .slot vol i => ((s.vols vol).files i).elim 0 (·.size)
  | _ => 0

def installFd (vn : Ref) (path : Name) (flags : ℕ) (mem : Bool) : Op ℕ := do
  let s ← get
  match s.freeFd with
  | none => throw eMFile
  | some fd =>
    if mem = false then throw eNoMem
    else do
      let ofd : Ofd := ⟨vn, flags % 4, appendFlag flags, nonblockFlag flags,
        if appendFlag flags then s.size vn else 0, path⟩
      set { s with
        fds := update s.fds fd (some ofd)
        cloexec := update s.cloexec fd (cloexecFlag flags) }
      pure fd

/-- The type checks, `O_TRUNC` and the descriptor. -/
def openFinish (vn : Ref) (created : Bool) (path : Name) (flags : ℕ) (mem : Mem) : Op ℕ := do
  let s ← get
  if s.kind vn = some .dir ∧ writing flags then throw eIsDir
  else if directory flags ∧ s.kind vn ≠ some .dir then throw eNotDir
  else if trunc flags ∧ writing flags ∧ s.kind vn = some .file ∧ created = false ∧
      s.writable vn then do
    truncateVnode vn 0 mem.data
    installFd vn path flags mem.description
  else installFd vn path flags mem.description

def vfsOpen (path : Name) (flags mode : ℕ) (mem : Mem) : Op ℕ := do
  let s ← get
  if flags % 4 = 3 then throw eInval
  else
    match s.resolve path with
    | none =>
      if creat flags = false then throw eNoEnt
      else do
        let vn ← openCreate path mode mem.data
        openFinish vn true path flags mem
    | some vn =>
      if creat flags ∧ excl flags then throw eExist
      else do
        check (some vn) (required flags)
        openFinish vn false path flags mem

/-! ## The other calls -/

/-- The mutation of a name, after the check on the directory: the mount of the path as
it was given. -/
def mutate (path : Name) (op : Name → Fs Unit) (fallback : ℤ) : Op Unit := do
  let s ← get
  match findMount s.mounts path with
  | none => throw eNoEnt
  | some (m, rel) =>
    if (s.vols m.vol).writable = false then throw eNoSys
    else onVolume m.vol (op rel) fallback

def vfsUnlink (path : Name) : Op Unit := do
  let s ← get
  check (s.resolveParent path) 2
  if (findSymlink s.links path).isSome then
    set { s with links := s.links.eraseP (·.path == path) }
  else if (s.findFifo path).isSome then
    set { s with fifos := s.fifos.eraseP (·.path == path) }
  else mutate path tmpfsUnlink eNoEnt

def vfsRename (src dst : Name) : Op Unit := do
  let s ← get
  check (s.resolveParent src) 2
  check (s.resolveParent dst) 2
  match findMount s.mounts src, findMount s.mounts dst with
  | some (m, relSrc), some (m', relDst) =>
    if m ≠ m' then throw eXDev
    else if (s.vols m.vol).writable = false then throw eNoSys
    else onVolume m.vol (tmpfsRename relSrc relDst) eNoEnt
  | _, _ => throw eNoEnt

def vfsLink (old new : Name) : Op Unit := do
  let s ← get
  if old.head? ≠ some '/' ∨ new.head? ≠ some '/' then throw eInval
  else
    match s.resolve old with
    | none => throw eNoEnt
    | some vn =>
      if s.kind vn = some .dir ∨ (findSymlink s.links old).isSome then throw ePerm
      else if (s.resolve new).isSome ∨ (findSymlink s.links new).isSome then throw eExist
      else
        match findMount s.mounts old, findMount s.mounts new with
        | some (m, relOld), some (m', relNew) =>
          if m ≠ m' then throw eXDev
          else if (s.vols m.vol).writable = false then throw ePerm
          else do
            check (s.resolveParent new) 2
            onVolume m.vol (tmpfsLink relOld relNew) eNoEnt
        | _, _ => throw eNoEnt

def vfsSymlink (target linkpath : Name) (mem : Bool) : Op Unit := do
  let s ← get
  if linkpath.head? ≠ some '/' ∨ target = [] then throw eInval
  else if (findSymlink s.links linkpath).isSome ∨ (s.resolve linkpath).isSome then throw eExist
  else if maxSymlinks ≤ s.links.length then throw eNoSpc
  else if mem = false then throw eNoMem
  else
    let link : Link := ⟨linkpath.take (pathMax - 1), target.take (pathMax - 1)⟩
    set { s with links := s.links ++ [link] }

/-- The common part of `vfs_chmod` and `vfs_fchmod`. -/
def chmodVnode (vn : Ref) (mode : ℕ) (allowed : State → Bool) : Op Unit := do
  let s ← get
  match s.attr vn with
  | none => throw eNoEnt
  | some attr =>
    if s.cred.euid ≠ 0 ∧ s.cred.euid ≠ attr.uid then throw ePerm
    else if mode &&& execModeBits &&& (attr.mode ^^^ execModeBits) ≠ 0 ∧ allowed s = false
      then throw ePerm
    else set (s.setAttr (attr.chmod s.cred mode true) vn)

def vfsChmod (path : Name) (mode : ℕ) : Op Unit := do
  let s ← get
  match s.resolve path with
  | none => throw eNoEnt
  | some vn => chmodVnode vn mode fun s => s.execInstallAllowed path

def vfsFchmod (fd mode : ℕ) : Op Unit := do
  let s ← get
  match s.fds fd with
  | none => throw eBadF
  | some o => chmodVnode o.vn mode fun s => (s.vnodePath o.vn).any s.execInstallAllowed

/-! ## Checks and operations on one volume -/

variable {s : State}

open State

theorem setVol_self (s : State) (vol : ℕ) : s.setVol vol (s.vols vol) = s := by
  rw [setVol, update_eq_self]

theorem setVol_vols (s : State) (vol : ℕ) (v : Volume) : (s.setVol vol v).vols vol = v := by
  simp only [setVol, update_self]

theorem setVol_ne {vol other : ℕ} (hother : other ≠ vol) (s : State) (v : Volume) :
    (s.setVol vol v).vols other = s.vols other := by
  simp only [setVol, update_of_ne hother]

/-- Behind the check the directory is there and permits the access. -/
theorem check_bind {α : Type} {vn : Option Ref} {access : ℕ} {next : Unit → Op α}
    {done : α → State → Prop} {fails : ℤ → State → Prop} (hfails : ∀ e, fails e s)
    (hnext : ∀ r, vn = some r ∧ s.permits access r = true → Exits (next ()) s done fails) :
    Exits (check vn access >>= next) s done fails := by
  have hcheck : Exits (check vn access) s
      (fun _ s' => s' = s ∧ ∃ r, vn = some r ∧ s.permits access r = true) fails := by
    apply Exits.get_bind
    cases vn with
    | none => exact Exits.throw (hfails _)
    | some r =>
      apply Exits.ite
      · exact fun hpermits => Exits.pure ⟨rfl, r, rfl, hpermits⟩
      · exact fun _ => Exits.throw (hfails _)
  refine hcheck.bind ?_
  rintro _ s' ⟨rfl, r, hr⟩
  exact hnext r hr

variable {fallback : ℤ}

theorem onVolume_run_exits {vol : ℕ} {op : Fs Unit} {done fails : Volume → Prop}
    (hop : Exits op (s.vols vol) (fun _ v => done v) fun _ v => fails v) :
    Exits (onVolume vol op fallback) s (fun _ s' => ∃ v, done v ∧ s' = s.setVol vol v)
      fun _ s' => ∃ v, fails v ∧ s' = s.setVol vol v := by
  rw [Exits] at hop
  rw [Exits, EStateM.run, onVolume]
  cases hrun : op.run (s.vols vol) with
  | ok a v =>
    rw [hrun] at hop
    exact ⟨v, hop, rfl⟩
  | error e v =>
    rw [hrun] at hop
    exact ⟨v, hop, rfl⟩

/-- A failed operation on a volume that left it alone leaves the state alone. -/
theorem onVolume_exits {vol : ℕ} {op : Fs Unit} {done : Volume → Prop}
    (hop : Exits op (s.vols vol) (fun _ v => done v) fun _ v => v = s.vols vol) :
    Exits (onVolume vol op fallback) s (fun _ s' => ∃ v, done v ∧ s' = s.setVol vol v)
      fun _ s' => s' = s := by
  refine (onVolume_run_exits hop).weaken (fun _ _ h => h) ?_
  rintro _ s' ⟨v, rfl, rfl⟩
  exact setVol_self s vol

variable {done : Volume → Name → Volume → Prop}

/-- Both directories of a rename were checked, and it ran on the mount of the two paths
as given. -/
def Renamed (s : State) (src dst : Name) (done : Volume → Name → Name → Volume → Prop)
    (s' : State) : Prop :=
  ∃ m rel rel' v dir dir', findMount s.mounts src = some (m, rel) ∧
    findMount s.mounts dst = some (m, rel') ∧
    (s.resolveParent src = some dir ∧ s.permits 2 dir = true) ∧
    (s.resolveParent dst = some dir' ∧ s.permits 2 dir' = true) ∧
    done (s.vols m.vol) rel rel' v ∧ s' = s.setVol m.vol v

theorem vfsRename_exits {src dst : Name} {done fails : Volume → Name → Name → Volume → Prop}
    (hop : ∀ v rel rel', Exits (tmpfsRename rel rel') v (fun _ v' => done v rel rel' v')
      fun _ v' => fails v rel rel' v') :
    Exits (vfsRename src dst) s (fun _ s' => Renamed s src dst done s')
      fun _ s' => s' = s ∨ Renamed s src dst fails s' := by
  have hsame : s = s ∨ Renamed s src dst fails s := .inl rfl
  refine .get_bind (check_bind (fun _ => hsame) fun dir hdir => ?_)
  refine check_bind (fun _ => hsame) fun dir' hdir' => ?_
  cases hsrc : findMount s.mounts src with
  | none => exact hsame
  | some found =>
    cases hdst : findMount s.mounts dst with
    | none => exact hsame
    | some found' =>
      obtain ⟨m, rel⟩ := found
      obtain ⟨m', rel'⟩ := found'
      refine .unless hsame fun hmounts => ?_
      obtain rfl : m = m' := not_not.mp hmounts
      refine .unless hsame fun _ => ?_
      refine (onVolume_run_exits (hop _ rel rel')).weaken ?_ ?_
      · rintro _ s₁ ⟨v, hdone, rfl⟩
        exact ⟨m, rel, rel', v, dir, dir', hsrc, hdst, hdir, hdir', hdone, rfl⟩
      · rintro _ s₁ ⟨v, hfails, rfl⟩
        exact .inr ⟨m, rel, rel', v, dir, dir', hsrc, hdst, hdir, hdir', hfails, rfl⟩

/-- The creating branch of `vfs_open`: what was checked and what is there then. -/
theorem openCreate_exits (path : Name) (mode : ℕ) (mem : Bool) : Exits (openCreate path mode mem) s
      (fun vn s' => ∃ m rel i v dir, findMount s.mounts path = some (m, rel) ∧
        (createMode s.cred mode &&& execModeBits ≠ 0 → s.execInstallAllowed path = true) ∧
        (s.resolveParent path = some dir ∧ s.permits 2 dir = true) ∧
        (s.vols m.vol).writable = true ∧
        tmpfsCreate rel mem (s.vols m.vol) = some (i, v) ∧ vn = .slot m.vol i ∧
        s' = s.setVol m.vol (v.setAttr i ⟨createMode s.cred mode, s.cred.euid, s.cred.egid⟩))
      fun _ s' => s' = s := by
  refine .get_bind ?_
  refine .unless rfl fun hpolicy => ?_
  refine check_bind (fun _ => rfl) fun dir hdir => ?_
  cases hmount : findMount s.mounts path with
  | none => exact .throw rfl
  | some found =>
    refine .unless rfl fun hreadonly => ?_
    cases hcreate : tmpfsCreate found.2 mem (s.vols found.1.vol) with
    | none => exact .throw rfl
    | some made =>
      refine ⟨found.1, found.2, made.1, made.2, dir, rfl, ?_, hdir,
        Bool.eq_true_of_not_eq_false hreadonly, hcreate, rfl, rfl⟩
      intro hexec
      exact Bool.eq_true_of_not_eq_false fun hdenied => hpolicy ⟨hexec, hdenied⟩

/-- A description of the vnode, and nothing else. -/
def Installed (s : State) (vn : Ref) (fd : ℕ) (s' : State) : Prop :=
  ∃ o cloexec, o.vn = vn ∧
    s' = { s with fds := update s.fds fd (some o), cloexec := cloexec }

theorem installFd_exits (vn : Ref) (path : Name) (flags : ℕ) (mem : Bool) :
    Exits (installFd vn path flags mem) s (fun fd s' => Installed s vn fd s')
      fun _ s' => s' = s ∧ (s.freeFd = none ∨ mem = false) := by
  refine .get_bind ?_
  cases hfree : s.freeFd with
  | none => exact .throw ⟨rfl, .inl rfl⟩
  | some fd =>
    refine .ite (fun hmem => .throw ⟨rfl, .inr hmem⟩) fun _ => ?_
    exact ⟨_, _, rfl, rfl⟩

end AuraLite.Vfs

import AuraLite.Fs.Path
import AuraLite.Lib.Fallible
import AuraLite.Proc.Credentials

/-!
# Volumes

A volume of `tmpfs.c`: a flat table of names that carry their whole relative path, with
data blocks that hard links share.  A volume without the mutating operations stands for
a read-only file system.
-/

namespace AuraLite.Vfs

open List Option SlashPath Fallible Bool

def ePerm : ℤ := -1
def eNoEnt : ℤ := -2
def eIO : ℤ := -5
def eBadF : ℤ := -9
def eNoMem : ℤ := -12
def eAcces : ℤ := -13
def eExist : ℤ := -17
def eXDev : ℤ := -18
def eNotDir : ℤ := -20
def eIsDir : ℤ := -21
def eInval : ℤ := -22
def eMFile : ℤ := -24
def eNoSpc : ℤ := -28
def eRofs : ℤ := -30
def eNameTooLong : ℤ := -36
def eNoSys : ℤ := -38
def eNotEmpty : ℤ := -39

/-- Mode, owner and group. -/
abbrev Attr := Credentials.File

inductive Kind
  | file
  | dir
  | charDev
  | fifo
deriving DecidableEq

/-- `struct tmpfs_file` with its vnode; `data` is the inode of the shared block. -/
structure Entry where
  name : Name
  kind : Kind
  attr : Attr
  size : ℕ
  data : Option ℕ
deriving DecidableEq

/-- `struct tmpfs_data`. -/
structure Block where
  bytes : List ℕ
  refs : ℕ
deriving DecidableEq

structure Volume where
  ops : ℕ
  /-- Whether the operation table has the mutating operations. -/
  writable : Bool
  root : Attr
  files : ℕ → Option Entry
  blocks : ℕ → Option Block
  nextIno : ℕ

/-- `TMPFS_MAX_FILES`. -/
def maxFiles : ℕ := 256

/-! ## The table -/

def Volume.findFile (v : Volume) (path : Name) : Option ℕ :=
  (range maxFiles).find? fun i => (v.files i).any (·.name == path)

def Volume.freeSlot (v : Volume) : Option ℕ :=
  (range maxFiles).find? fun i => (v.files i).isNone

def Volume.setFile (v : Volume) (i : ℕ) (f : Option Entry) : Volume :=
  { v with files := Function.update v.files i f }

def Volume.setBlock (v : Volume) (ino : ℕ) (b : Option Block) : Volume :=
  { v with blocks := Function.update v.blocks ino b }

def Volume.isDir (v : Volume) (i : ℕ) : Bool := (v.files i).any (·.kind == .dir)

def doubleSlash : Name → Bool
  | [] => false
  | c :: rest => c == '/' && rest.head? == some '/' || doubleSlash rest

def pathOk (path : Name) : Bool :=
  path != [] && path.head? != some '/' && decide (path.length < pathMax - 1) &&
    path.getLast? != some '/' && !doubleSlash path

inductive Parent
  | found
  | missing
  | notDir
deriving DecidableEq

def Volume.parentDirOf (v : Volume) (path : Name) : Parent :=
  match dirName path with
  | none => .found
  | some parent =>
    match v.findFile parent with
    | none => .missing
    | some i => if v.isDir i then .found else .notDir

/-- An entry whose name goes on with a slash after `dir`. -/
def Entry.below (f : Entry) (dir : Name) : Bool := (dir ++ ['/']).isPrefixOf f.name

/-- The name of another entry is below `dir`. -/
def Volume.hasChild (v : Volume) (i : ℕ) (dir : Name) : Bool :=
  (range maxFiles).any fun j => j != i && (v.files j).any (·.below dir)

def Volume.dataRelease (v : Volume) : Option ℕ → Volume
  | none => v
  | some ino =>
    match v.blocks ino with
    | none => v
    | some b =>
      v.setBlock ino (if b.refs ≤ 1 then none else some { b with refs := b.refs - 1 })

/-! ## Operations -/

/-- A file-system operation; an error keeps what was done before it. -/
abbrev Fs := EStateM ℤ Volume

/-- `tmpfs_lookup`: `none` inside is the root. -/
def Volume.lookup (v : Volume) (path : Name) : Option (Option ℕ) :=
  if path = [] then some none else (v.findFile path).map some

/-- `tmpfs_create`; `mem` is the answer of `kmalloc`. -/
def tmpfsCreate (path : Name) (mem : Bool) (v : Volume) : Option (ℕ × Volume) :=
  if pathOk path = false then none
  else
    match v.findFile path with
    | some i => some (i, v)
    | none =>
      match v.parentDirOf path, v.freeSlot with
      | .found, some i =>
        if mem then
          let ino := v.nextIno + 1
          let v' := { v with nextIno := ino }
          some (i, (v'.setFile i (some ⟨path, .file, ⟨0, 0, 0⟩, 0, some ino⟩)).setBlock ino
            (some ⟨[], 1⟩))
        else none
      | _, _ => none

def tmpfsUnlink (path : Name) : Fs Unit := do
  let v ← get
  match v.findFile path with
  | none => throw eNoEnt
  | some i =>
    if v.isDir i then throw eIsDir
    else set ((v.dataRelease ((v.files i).bind (·.data))).setFile i none)

/-- The target of a rename goes, if there is one. -/
def replaceTarget (i : ℕ) (dst : Name) : Fs Unit := do
  let v ← get
  match v.findFile dst with
  | none => pure ()
  | some t =>
    if v.isDir t ∧ v.isDir i = false then throw eIsDir
    else if v.isDir t = false ∧ v.isDir i then throw eNotDir
    else if v.isDir t then
      if v.hasChild t dst then throw eNotEmpty else set (v.setFile t none)
    else set ((v.dataRelease ((v.files t).bind (·.data))).setFile t none)

def Volume.setName (v : Volume) (i : ℕ) (name : Name) : Volume :=
  v.setFile i ((v.files i).map fun f => { f with name := name })

/-- The rewriting of one descendant of a renamed directory. -/
def moveChild (i : ℕ) (src dst : Name) (j : ℕ) : Fs Unit := do
  let v ← get
  match v.files j with
  | none => pure ()
  | some f =>
    if j = i ∨ f.below src = false then pure ()
    else
      let newName := dst ++ f.name.drop src.length
      if pathMax - 1 ≤ newName.length then throw eNameTooLong
      else
        match v.findFile newName with
        | some k => if k = j then set (v.setName j newName) else throw eExist
        | none => set (v.setName j newName)

def tmpfsRename (src dst : Name) : Fs Unit := do
  let v ← get
  if pathOk dst = false then throw eInval
  else
    match v.findFile src with
    | none => throw eNoEnt
    | some i =>
      if src = dst then pure ()
      else do
        replaceTarget i dst
        let v' ← get
        match v'.parentDirOf dst with
        | .missing => throw eNoEnt
        | .notDir => throw eNotDir
        | .found => do
            if v'.isDir i then (range maxFiles).forM (moveChild i src dst)
            modify fun w => w.setName i dst

def tmpfsLink (old new : Name) : Fs Unit := do
  let v ← get
  if pathOk old = false ∨ pathOk new = false then throw eInval
  else
    match (v.findFile old).bind v.files with
    | none => throw eNoEnt
    | some f =>
      if f.kind = .dir then throw ePerm
      else if (v.findFile new).isSome then throw eExist
      else
        match v.parentDirOf new with
        | .missing => throw eNoEnt
        | .notDir => throw eNotDir
        | .found =>
          match v.freeSlot with
          | none => throw eNoSpc
          | some j =>
            let bumped := (f.data.bind fun ino => (v.blocks ino).map fun b =>
              v.setBlock ino (some { b with refs := b.refs + 1 })).getD v
            set (bumped.setFile j (some ⟨new, .file, f.attr, f.size, f.data⟩))

/-- The bytes after a write at `pos`; a gap reads as zeros. -/
def writeAt (bytes : List ℕ) (pos : ℕ) (buf : List ℕ) : List ℕ :=
  (bytes ++ replicate (pos - bytes.length) 0).take pos ++ buf ++
    bytes.drop (pos + buf.length)

def tmpfsWrite (i pos : ℕ) (buf : List ℕ) (mem : Bool) : Fs Unit := do
  let v ← get
  match v.files i with
  | none => throw eIO
  | some f =>
    match f.data.bind fun ino => (v.blocks ino).map fun b => (ino, b) with
    | none => throw eIO
    | some (ino, b) =>
      if 2 ^ 64 ≤ pos + buf.length then throw eInval
      else if mem = false then throw eNoSpc
      else
        let grown := b.bytes.length < pos + buf.length
        let size := if grown then pos + buf.length else f.size
        set ((v.setBlock ino (some { b with bytes := writeAt b.bytes pos buf })).setFile i
          (some { f with size := size }))

def tmpfsTruncate (i newSize : ℕ) (mem : Bool) : Fs Unit := do
  let v ← get
  match v.files i with
  | none => throw eIO
  | some f =>
    match f.data.bind fun ino => (v.blocks ino).map fun b => (ino, b) with
    | none => throw eIO
    | some (ino, b) =>
      if b.bytes.length < newSize ∧ mem = false then throw eNoSpc
      else
        let bytes := b.bytes.take newSize ++
          replicate (newSize - b.bytes.length) 0
        set ((v.setBlock ino (some { b with bytes := bytes })).setFile i
          (some { f with size := newSize }))

/-! ## Names -/

section

variable {v v' : Volume} {path src dst : Name} {i j : ℕ} {f : Entry} {mem : Bool}

open Volume

theorem Volume.setFile_self (v : Volume) (i : ℕ) (f : Option Entry) :
    (v.setFile i f).files i = f := by
  simp only [setFile, Function.update_self]

theorem Volume.setFile_ne (hj : j ≠ i) (v : Volume) (f : Option Entry) :
    (v.setFile i f).files j = v.files j := by
  simp only [setFile, Function.update_of_ne hj]

theorem Volume.findFile_some (hfind : v.findFile path = some i) :
    i < maxFiles ∧ ∃ f, v.files i = some f ∧ f.name = path := by
  have hrange := mem_of_find?_eq_some hfind
  have hname : (v.files i).any (·.name == path) = true := by
    simpa using find?_some hfind
  refine ⟨mem_range.mp hrange, ?_⟩
  obtain ⟨f, hf, hsame⟩ := (any_eq_true _ _).mp hname
  exact ⟨f, hf, beq_iff_eq.mp hsame⟩

/-- A new regular file in the free slot `i`, with a fresh block. -/
def Volume.addFile (v : Volume) (i : ℕ) (path : Name) : Volume :=
  ({ v with nextIno := v.nextIno + 1 }.setFile i
    (some ⟨path, .file, ⟨0, 0, 0⟩, 0, some (v.nextIno + 1)⟩)).setBlock (v.nextIno + 1)
      (some ⟨[], 1⟩)

theorem tmpfsCreate_new (hnew : v.findFile path = none)
    (hcreate : tmpfsCreate path mem v = some (i, v')) :
    v.freeSlot = some i ∧ v' = v.addFile i path := by
  rw [tmpfsCreate] at hcreate
  split at hcreate
  · cases hcreate
  · rw [hnew] at hcreate
    simp only at hcreate
    split at hcreate
    · next hslot =>
        by_cases hmem : mem = true
        · rw [if_pos hmem] at hcreate
          cases hcreate
          exact ⟨hslot, rfl⟩
        · rw [if_neg hmem] at hcreate
          cases hcreate
    · cases hcreate

/-- The slot that creation returns holds the name, and the others are as before. -/
theorem tmpfsCreate_files (hcreate : tmpfsCreate path mem v = some (i, v')) :
    v'.ops = v.ops ∧ (∀ j, j ≠ i → v'.files j = v.files j) ∧
      ∃ f, v'.files i = some f ∧ f.name = path := by
  cases hfind : v.findFile path with
  | none =>
    obtain ⟨-, rfl⟩ := tmpfsCreate_new hfind hcreate
    refine ⟨rfl, fun j hj => ?_, _, Volume.setFile_self _ i _, rfl⟩
    exact Volume.setFile_ne hj { v with nextIno := v.nextIno + 1 } _
  | some k =>
    rw [tmpfsCreate] at hcreate
    split at hcreate
    · cases hcreate
    · rw [hfind] at hcreate
      cases hcreate
      exact ⟨rfl, fun j _ => rfl, (Volume.findFile_some hfind).2⟩

/-! ## What the other operations leave -/

def RemovedFile (v : Volume) (path : Name) (v' : Volume) : Prop :=
  ∃ i, v.findFile path = some i ∧
    v' = (v.dataRelease ((v.files i).bind (·.data))).setFile i none

theorem tmpfsUnlink_exits : Exits (tmpfsUnlink path) v (fun _ v' => RemovedFile v path v')
    fun _ v' => v' = v := by
  refine .get_bind ?_
  cases hfind : v.findFile path with
  | none => exact .throw rfl
  | some i => exact .unless rfl fun _ => ⟨i, hfind, rfl⟩

/-- The slot, the entry and the block that a write or a truncation is about. -/
theorem tmpfsTruncate_exits (i size : ℕ) (mem : Bool) : Exits (tmpfsTruncate i size mem) v
    (fun _ v' => ∃ f ino b, v.files i = some f ∧ f.data = some ino ∧ v.blocks ino = some b ∧
      ∃ bytes, v' = (v.setBlock ino (some { b with bytes := bytes })).setFile i
        (some { f with size := size }))
    fun _ v' => v' = v := by
  refine .get_bind ?_
  cases hfile : v.files i with
  | none => exact .throw rfl
  | some f =>
    simp only
    cases hdata : f.data.bind fun ino => (v.blocks ino).map fun b => (ino, b) with
    | none => exact .throw rfl
    | some found =>
      obtain ⟨ino, hino, hblock⟩ := Option.bind_eq_some_iff.mp hdata
      obtain ⟨b, hb, rfl⟩ := Option.map_eq_some_iff.mp hblock
      refine .unless rfl fun _ => ?_
      exact ⟨f, ino, b, rfl, hino, hb, _, rfl⟩

def Linked (v : Volume) (old new : Name) (v' : Volume) : Prop :=
  ∃ i f j, v.findFile old = some i ∧ v.files i = some f ∧ v.freeSlot = some j ∧
    v' = ((f.data.bind fun ino => (v.blocks ino).map fun b =>
      v.setBlock ino (some { b with refs := b.refs + 1 })).getD v).setFile j
        (some ⟨new, .file, f.attr, f.size, f.data⟩)

theorem Linked.files {new : Name} (h : Linked v path new v') :
    v'.ops = v.ops ∧ ∃ i f j, v.files i = some f ∧
      v'.files j = some ⟨new, .file, f.attr, f.size, f.data⟩ ∧ ∀ k, k ≠ j → v'.files k = v.files k := by
  obtain ⟨i, f, j, -, hf, -, rfl⟩ := h
  have hbumped : ∀ w : Volume, w = (f.data.bind fun ino => (v.blocks ino).map fun b =>
      v.setBlock ino (some { b with refs := b.refs + 1 })).getD v →
      w.ops = v.ops ∧ w.files = v.files := by
    rintro w rfl
    cases f.data with
    | none => exact ⟨rfl, rfl⟩
    | some ino =>
      rw [bind_some]
      cases v.blocks ino with
      | none => exact ⟨rfl, rfl⟩
      | some b => exact ⟨rfl, rfl⟩
  obtain ⟨hops, hfiles⟩ := hbumped _ rfl
  refine ⟨hops, i, f, j, hf, Volume.setFile_self _ j _, fun k hk => ?_⟩
  rw [Volume.setFile_ne hk, hfiles]

theorem tmpfsLink_exits {new : Name} : Exits (tmpfsLink path new) v
    (fun _ v' => Linked v path new v') fun _ v' => v' = v := by
  refine .get_bind ?_
  refine .unless rfl fun _ => ?_
  cases hold : (v.findFile path).bind v.files with
  | none => exact .throw rfl
  | some f =>
    obtain ⟨i, hfind, hfile⟩ := Option.bind_eq_some_iff.mp hold
    refine .unless rfl fun _ => ?_
    refine .unless rfl fun _ => ?_
    cases v.parentDirOf new with
    | missing => exact .throw rfl
    | notDir => exact .throw rfl
    | found =>
      cases hfree : v.freeSlot with
      | none => exact .throw rfl
      | some j => exact ⟨i, f, j, hfind, hfile, hfree, rfl⟩

/-- What names keep is kept by the rewriting of a descendant, also by one that fails. -/
theorem moveChild_invariant {holds : Volume → Prop} (hname : ∀ name, holds (v.setName j name))
    (h : holds v) : Leaves (moveChild i src dst j) v holds := by
  refine .get_bind ?_
  cases v.files j with
  | none => exact .pure h
  | some f =>
    refine .ite (fun _ => .pure h) fun _ => ?_
    refine .unless h fun _ => ?_
    cases v.findFile (dst ++ f.name.drop src.length) with
    | none => exact hname _
    | some k => exact .ite (fun _ => hname _) fun _ => .throw h

theorem Volume.dataRelease_files (v : Volume) (ino : Option ℕ) :
    (v.dataRelease ino).files = v.files := by
  cases ino with
  | none => rfl
  | some ino =>
    rw [dataRelease]
    split <;> rfl

/-- What a rename keeps until it gives the entry its new name, and what holds then. -/
theorem tmpfsRename_rule {holds done : Volume → Prop} (h : holds v)
    (hname : ∀ w i name, holds w → holds (w.setName i name))
    (hclear : ∀ t, src ≠ dst → v.findFile dst = some t → holds (v.setFile t none) ∧
      holds ((v.dataRelease ((v.files t).bind (·.data))).setFile t none))
    (hdone : pathOk dst = true → ∀ i, v.findFile src = some i → (src = dst → done v) ∧
      ∀ w, holds w → done (w.setName i dst)) :
    Exits (tmpfsRename src dst) v (fun _ w => done w) fun _ w => holds w := by
  refine .get_bind ?_
  refine .unless h fun hok => ?_
  have hdone := hdone (eq_true_of_not_eq_false hok)
  cases hsrc : v.findFile src with
  | none => exact .throw h
  | some i =>
    refine .ite (hdone i hsrc).1 fun hne => ?_
    have htarget : Leaves (replaceTarget i dst) v holds := by
      refine .get_bind ?_
      cases hdst : v.findFile dst with
      | none => exact .pure h
      | some t =>
        refine .unless h fun _ => ?_
        refine .unless h fun _ => ?_
        refine .ite (fun _ => ?_) fun _ => (hclear t hne hdst).2
        exact .unless h fun _ => (hclear t hne hdst).1
    refine htarget.bind fun _ v₁ h₁ => .get_bind ?_
    cases v₁.parentDirOf dst with
    | missing => exact .throw h₁
    | notDir => exact .throw h₁
    | found =>
      have hmoved : Leaves ((range maxFiles).forM (moveChild i src dst)) v₁ holds :=
        .forM _ (fun j _ w hw => moveChild_invariant (fun name => hname w j name hw) hw) h₁
      refine .ite (fun _ => ?_) fun _ => .modify ((hdone i hsrc).2 v₁ h₁)
      exact hmoved.bind fun _ w hw => .modify ((hdone i hsrc).2 w hw)

/-- Every entry was in its slot before, with the same owner, mode and data. -/
structure Volume.Keeps (v v' : Volume) : Prop where
  ops : v'.ops = v.ops
  entry : ∀ i f', v'.files i = some f' →
    ∃ f, v.files i = some f ∧ f.attr = f'.attr ∧ f.data = f'.data

theorem Volume.Keeps.refl (v : Volume) : v.Keeps v := ⟨rfl, fun _ f' hf' => ⟨f', hf', rfl, rfl⟩⟩

theorem Volume.Keeps.dataRelease (h : v.Keeps v') (ino : Option ℕ) :
    v.Keeps (v'.dataRelease ino) where
  ops := by
    rw [← h.ops]
    cases ino with
    | none => rfl
    | some ino =>
      rw [Volume.dataRelease]
      split <;> rfl
  entry i f' hf' := h.entry i f' (v'.dataRelease_files ino ▸ hf')

theorem Volume.Keeps.remove (h : v.Keeps v') (i : ℕ) : v.Keeps (v'.setFile i none) := by
  refine ⟨h.ops, fun j f' hf' => ?_⟩
  by_cases hj : j = i
  · rw [hj, setFile_self] at hf'
    cases hf'
  · rw [setFile_ne hj] at hf'
    exact h.entry j f' hf'

theorem Volume.Keeps.setName (h : v.Keeps v') (i : ℕ) (name : Name) :
    v.Keeps (v'.setName i name) := by
  refine ⟨h.ops, fun j f' hf' => ?_⟩
  rw [Volume.setName] at hf'
  by_cases hj : j = i
  · rw [hj, setFile_self] at hf'
    obtain ⟨f, hf, rfl⟩ := Option.map_eq_some_iff.mp hf'
    exact hj ▸ h.entry i f hf
  · rw [setFile_ne hj] at hf'
    exact h.entry j f' hf'

theorem tmpfsRename_keeps (src dst : Name) : Leaves (tmpfsRename src dst) v v.Keeps :=
  tmpfsRename_rule (.refl v) (fun _ i name h => h.setName i name)
    (fun t _ _ => ⟨(Volume.Keeps.refl v).remove t, ((Volume.Keeps.refl v).dataRelease _).remove t⟩)
    fun _ i _ => ⟨fun _ => .refl v, fun _ h => h.setName i dst⟩

end

end AuraLite.Vfs

import AuraLite.Lib.Reachability
import Mathlib.Data.Nat.Bitwise
import Mathlib.Data.Set.Basic

/-!
# Credentials

The ids of the processes and the owners and modes of the files, under the calls that
change either: the `set*id` family, `chmod` and `chown` with their descriptor forms,
`open` when it creates, `fork`, and the set-id bits in `execve`.  A call names the file
that its path or descriptor leads to.
-/

namespace AuraLite.Credentials

open Reachability

structure Ids where
  real : ℕ
  effective : ℕ
  saved : ℕ
deriving DecidableEq

structure Cred where
  uids : Ids
  gids : Ids
  groups : List ℕ
  umask : ℕ
deriving DecidableEq

def Cred.euid (c : Cred) : ℕ := c.uids.effective
def Cred.egid (c : Cred) : ℕ := c.gids.effective

structure File where
  mode : ℕ
  uid : ℕ
  gid : ℕ
deriving DecidableEq

structure State where
  procs : ℕ → Option Cred
  files : ℕ → Option File

/-- `(uint32_t)-1`, which leaves an id as it is. -/
def noId : ℕ := 2 ^ 32 - 1

/-! ## The calls -/

/-- `SYS_SETUID` and `SYS_SETGID` on the ids they are about. -/
def Ids.set (ids : Ids) (root : Bool) (id : ℕ) : Ids :=
  if root then ⟨id, id, id⟩
  else if id = ids.real ∨ id = ids.saved then { ids with effective := id }
  else ids

/-- `SYS_SETREUID` and `SYS_SETREGID` on the ids they are about. -/
def Ids.setRe (ids : Ids) (root : Bool) (real effective : ℕ) : Ids :=
  if root = false ∧ (real ≠ noId ∧ real ≠ ids.real ∧ real ≠ ids.effective ∨
      effective ≠ noId ∧ effective ≠ ids.real ∧ effective ≠ ids.effective ∧
        effective ≠ ids.saved) then ids
  else
    { real := if real ≠ noId then real else ids.real
      effective := if effective ≠ noId then effective else ids.effective
      saved :=
        if real ≠ noId ∨ effective ≠ noId ∧ effective ≠ ids.real then
          if effective ≠ noId then effective else ids.effective
        else ids.saved }

def Cred.root (c : Cred) : Bool := c.euid == 0

def Cred.setUid (c : Cred) (uid : ℕ) : Cred := { c with uids := c.uids.set c.root uid }

def Cred.setGid (c : Cred) (gid : ℕ) : Cred := { c with gids := c.gids.set c.root gid }

def Cred.setReUid (c : Cred) (ruid euid : ℕ) : Cred :=
  { c with uids := c.uids.setRe c.root ruid euid }

def Cred.setReGid (c : Cred) (rgid egid : ℕ) : Cred :=
  { c with gids := c.gids.setRe c.root rgid egid }

/-- `vfs_check_perm`; `access` is a mask of 4, 2 and 1. -/
def checkPerm (f : File) (access : ℕ) (c : Cred) : Bool :=
  if access = 0 ∨ c.euid = 0 then true
  else
    let granted :=
      if c.euid = f.uid then f.mode >>> 6 &&& 7
      else if c.egid = f.gid ∨ f.gid ∈ c.groups then f.mode >>> 3 &&& 7
      else f.mode &&& 7
    granted &&& access == access

def execModeBits : ℕ := 0o111

/-- `vfs_chmod` and `vfs_fchmod`; `allowed` is the answer of `exec_install_allowed`. -/
def File.chmod (f : File) (c : Cred) (mode : ℕ) (allowed : Bool) : File :=
  if c.euid ≠ 0 ∧ c.euid ≠ f.uid then f
  else if mode &&& execModeBits &&& (f.mode ^^^ execModeBits) ≠ 0 ∧ allowed = false then f
  else { f with mode := f.mode >>> 12 <<< 12 ||| mode &&& 0o7777 }

/-- `vfs_chown` and `vfs_fchown`. -/
def File.chown (f : File) (c : Cred) (uid gid : ℕ) : File :=
  if c.euid ≠ 0 ∧ (uid ≠ noId ∧ uid ≠ c.euid ∨ c.euid ≠ f.uid) then f
  else
    { f with
      uid := if uid ≠ noId then uid else f.uid
      gid := if gid ≠ noId then gid else f.gid }

/-- The mode of a created file, after the umask. -/
def createMode (c : Cred) (mode : ℕ) : ℕ :=
  let masked := (if mode ≠ 0 then mode else 0o666) &&& 0o7777 &&& (0o7777 ^^^ c.umask)
  if masked ≠ 0 then masked else 0o644 &&& (0o7777 ^^^ c.umask)

/-- The creating branch of `vfs_open`. -/
def creates (c : Cred) (parent : File) (mode : ℕ) (allowed : Bool) : Option File :=
  if createMode c mode &&& execModeBits ≠ 0 ∧ allowed = false then none
  else if checkPerm parent 2 c then some ⟨createMode c mode, c.euid, c.egid⟩
  else none

/-- The set-id bits in `execve_image`, once the file is open for reading. -/
def Cred.execve (c : Cred) (f : File) : Cred :=
  if checkPerm f 4 c then
    { c with
      uids := { c.uids with effective := if f.mode.testBit 11 then f.uid else c.euid }
      gids := { c.gids with effective := if f.mode.testBit 10 then f.gid else c.egid } }
  else c

inductive Call
  | setUid (uid : ℕ)
  | setGid (gid : ℕ)
  | setReUid (ruid euid : ℕ)
  | setReGid (rgid egid : ℕ)
  | chmod (file mode : ℕ) (allowed : Bool)
  | chown (file uid gid : ℕ)
  | create (file parent mode : ℕ) (allowed : Bool)
  | fork (child : ℕ)
  | execve (file : ℕ)

structure Event where
  pid : ℕ
  call : Call

def State.setCred (s : State) (pid : ℕ) (c : Cred) : State :=
  { s with procs := Function.update s.procs pid (some c) }

def State.setFile (s : State) (file : ℕ) (f : File) : State :=
  { s with files := Function.update s.files file (some f) }

def State.call (s : State) (pid : ℕ) (c : Cred) : Call → State
  | .setUid uid => s.setCred pid (c.setUid uid)
  | .setGid gid => s.setCred pid (c.setGid gid)
  | .setReUid ruid euid => s.setCred pid (c.setReUid ruid euid)
  | .setReGid rgid egid => s.setCred pid (c.setReGid rgid egid)
  | .chmod file mode allowed =>
    match s.files file with
    | none => s
    | some f => s.setFile file (f.chmod c mode allowed)
  | .chown file uid gid =>
    match s.files file with
    | none => s
    | some f => s.setFile file (f.chown c uid gid)
  | .create file parent mode allowed =>
    match (s.files parent).bind fun dir => creates c dir mode allowed with
    | none => s
    | some f => s.setFile file f
  | .fork child => if (s.procs child).isSome then s else s.setCred child c
  | .execve file =>
    match s.files file with
    | none => s
    | some f => s.setCred pid (c.execve f)

def State.step (s : State) (event : Event) : State :=
  match s.procs event.pid with
  | none => s
  | some c => s.call event.pid c event.call

def State.Step (s : State) (event : Event) (s' : State) : Prop := s.step event = s'

/-- The call is made by a process with a non-zero uid. -/
def Event.Unprivileged (s : State) (event : Event) : Prop :=
  ∀ c, s.procs event.pid = some c → c.uids.real ≠ 0

/-! ## What an unprivileged caller can reach -/

variable {U G : Set ℕ} {ids : Ids} {c : Cred} {f : File} {s₀ s : State}

structure Ids.In (U : Set ℕ) (ids : Ids) : Prop where
  real : ids.real ∈ U
  effective : ids.effective ∈ U
  saved : ids.saved ∈ U

theorem Ids.In.set (hids : ids.In U) (id : ℕ) : (ids.set false id).In U := by
  rw [Ids.set, if_neg Bool.false_ne_true]
  split_ifs with hown
  · refine ⟨hids.real, ?_, hids.saved⟩
    rcases hown with rfl | rfl
    · exact hids.real
    · exact hids.saved
  · exact hids

theorem Ids.In.setRe (hids : ids.In U) (real effective : ℕ) :
    (ids.setRe false real effective).In U := by
  rw [Ids.setRe]
  split
  · exact hids
  · rename_i hdenied
    have hallowed := not_or.mp fun h => hdenied ⟨rfl, h⟩
    have hreal : (if real ≠ noId then real else ids.real) ∈ U := by
      split_ifs with hset
      · by_cases hsame : real = ids.real
        · exact hsame ▸ hids.real
        · have heff := not_not.mp fun h => hallowed.1 ⟨hset, hsame, h⟩
          exact heff ▸ hids.effective
      · exact hids.real
    have heffective : (if effective ≠ noId then effective else ids.effective) ∈ U := by
      split_ifs with hset
      · by_cases hsame : effective = ids.real
        · exact hsame ▸ hids.real
        · by_cases heff : effective = ids.effective
          · exact heff ▸ hids.effective
          · have hsaved := not_not.mp fun h => hallowed.2 ⟨hset, hsame, heff, h⟩
            exact hsaved ▸ hids.saved
      · exact hids.effective
    refine ⟨hreal, heffective, ?_⟩
    change (if _ then _ else _) ∈ U
    split
    · exact heffective
    · exact hids.saved

/-- Every process is a privileged one of the start, as it was, or has its ids in the sets,
and so have the set-id files that it can run or make: a file's owner may set the bits. -/
structure Confined (s₀ : State) (U G : Set ℕ) (s : State) : Prop where
  procs : ∀ pid c, s.procs pid = some c →
    s₀.procs pid = some c ∧ c.uids.real = 0 ∨ c.uids.In U ∧ c.gids.In G
  setUid : ∀ file f, s.files file = some f → f.mode.testBit 11 = true → f.uid ∈ U
  setGid : ∀ file f, s.files file = some f → f.mode.testBit 10 = true ∨ f.uid ∈ U → f.gid ∈ G

/-- The owner of a file that an unprivileged process changes is the process itself. -/
theorem File.chmod_cases (hroot : c.euid ≠ 0) (mode : ℕ) (allowed : Bool) :
    f.chmod c mode allowed = f ∨
      f.uid = c.euid ∧ ∃ mode', f.chmod c mode allowed = { f with mode := mode' } := by
  rw [File.chmod]
  split_ifs with howner hinstall
  · exact .inl rfl
  · exact .inl rfl
  · refine .inr ⟨?_, _, rfl⟩
    by_contra hother
    exact howner ⟨hroot, fun h => hother h.symm⟩

theorem File.chown_cases (hroot : c.euid ≠ 0) (uid gid : ℕ) : f.chown c uid gid = f ∨
      f.uid = c.euid ∧ f.chown c uid gid = { f with gid := if gid ≠ noId then gid else f.gid } := by
  rw [File.chown]
  by_cases hdenied : c.euid ≠ 0 ∧ (uid ≠ noId ∧ uid ≠ c.euid ∨ c.euid ≠ f.uid)
  · exact .inl (if_pos hdenied)
  · rw [if_neg hdenied]
    have hallowed := not_or.mp fun h => hdenied ⟨hroot, h⟩
    have howner : f.uid = c.euid := (not_not.mp hallowed.2).symm
    have huid : (if uid ≠ noId then uid else f.uid) = f.uid := by
      split_ifs with hset
      · rw [howner]
        exact not_not.mp fun hother => hallowed.1 ⟨hset, hother⟩
      · rfl
    rw [huid]
    exact .inr ⟨howner, rfl⟩

theorem creates_eq {dir : File} {mode : ℕ} {allowed : Bool}
    (hcreates : creates c dir mode allowed = some f) : f.uid = c.euid ∧ f.gid = c.egid := by
  rw [creates] at hcreates
  split_ifs at hcreates
  cases hcreates
  exact ⟨rfl, rfl⟩

theorem Confined.setCred (hs : Confined s₀ U G s) {pid : ℕ} (hu : c.uids.In U)
    (hg : c.gids.In G) : Confined s₀ U G (s.setCred pid c) where
  __ := hs
  procs := (Function.forall_update_iff s.procs fun pid' cred => ∀ c', cred = some c' →
    s₀.procs pid' = some c' ∧ c'.uids.real = 0 ∨ c'.uids.In U ∧ c'.gids.In G).mpr
      ⟨fun _ hc => .inr (Option.some.inj hc ▸ ⟨hu, hg⟩), fun pid' _ => hs.procs pid'⟩

theorem Confined.setFile (hs : Confined s₀ U G s) {file : ℕ}
    (hu : f.mode.testBit 11 = true → f.uid ∈ U)
    (hg : f.mode.testBit 10 = true ∨ f.uid ∈ U → f.gid ∈ G) :
    Confined s₀ U G (s.setFile file f) where
  __ := hs
  setUid := (Function.forall_update_iff s.files fun _ found => ∀ f', found = some f' →
    f'.mode.testBit 11 = true → f'.uid ∈ U).mpr
      ⟨fun _ hf => Option.some.inj hf ▸ hu, fun file' _ => hs.setUid file'⟩
  setGid := (Function.forall_update_iff s.files fun _ found => ∀ f', found = some f' →
    f'.mode.testBit 10 = true ∨ f'.uid ∈ U → f'.gid ∈ G).mpr
      ⟨fun _ hf => Option.some.inj hf ▸ hg, fun file' _ => hs.setGid file'⟩

/-- A group that `chown` gives to a file is one of the set. -/
def Event.GroupIn (G : Set ℕ) (event : Event) : Prop :=
  ∀ file uid gid, event.call = .chown file uid gid → gid = noId ∨ gid ∈ G

theorem Confined.call (hs : Confined s₀ U G s) (hroot : 0 ∉ U) {pid : ℕ} (hu : c.uids.In U)
    (hg : c.gids.In G) {call : Call} (hgroup : Event.GroupIn G ⟨pid, call⟩) :
    Confined s₀ U G (s.call pid c call) := by
  have heuid : c.euid ∈ U := hu.effective
  have hne : c.euid ≠ 0 := fun hzero => hroot (hzero ▸ heuid)
  have hplain : c.root = false := beq_eq_false_iff_ne.mpr hne
  cases call with
  | setUid uid =>
    have hnew : (c.uids.set c.root uid).In U := hplain ▸ hu.set uid
    exact hs.setCred hnew hg
  | setReUid ruid euid =>
    have hnew : (c.uids.setRe c.root ruid euid).In U := hplain ▸ hu.setRe ruid euid
    exact hs.setCred hnew hg
  | setGid gid =>
    have hnew : (c.gids.set c.root gid).In G := hplain ▸ hg.set gid
    exact hs.setCred hu hnew
  | setReGid rgid egid =>
    have hnew : (c.gids.setRe c.root rgid egid).In G := hplain ▸ hg.setRe rgid egid
    exact hs.setCred hu hnew
  | chmod file mode allowed =>
    rw [State.call]
    cases hfile : s.files file with
    | none => exact hs
    | some f =>
      change Confined s₀ U G (s.setFile file (f.chmod c mode allowed))
      rcases File.chmod_cases hne mode allowed with hsame | ⟨howner, mode', hnew⟩
      · rw [hsame]
        exact hs.setFile (hs.setUid file f hfile) (hs.setGid file f hfile)
      · have hown : f.uid ∈ U := howner.symm ▸ heuid
        rw [hnew]
        exact hs.setFile (fun _ => hown) fun _ => hs.setGid file f hfile (.inr hown)
  | chown file uid gid =>
    rw [State.call]
    cases hfile : s.files file with
    | none => exact hs
    | some f =>
      change Confined s₀ U G (s.setFile file (f.chown c uid gid))
      rcases File.chown_cases hne uid gid with hsame | ⟨howner, hnew⟩
      · rw [hsame]
        exact hs.setFile (hs.setUid file f hfile) (hs.setGid file f hfile)
      · have hown : f.uid ∈ U := howner.symm ▸ heuid
        have hgid : (if gid ≠ noId then gid else f.gid) ∈ G := by
          split_ifs with hset
          · exact (hgroup file uid gid rfl).resolve_left hset
          · exact hs.setGid file f hfile (.inr hown)
        rw [hnew]
        exact hs.setFile (fun _ => hown) fun _ => hgid
  | create file parent mode allowed =>
    rw [State.call]
    cases hnew : (s.files parent).bind fun dir => creates c dir mode allowed with
    | none => exact hs
    | some f =>
      obtain ⟨dir, -, hcreates⟩ := Option.bind_eq_some_iff.mp hnew
      obtain ⟨huid, hgid⟩ := creates_eq hcreates
      exact hs.setFile (fun _ => huid ▸ heuid) fun _ => hgid ▸ hg.effective
  | fork child =>
    rw [State.call]
    split_ifs
    · exact hs
    · exact hs.setCred hu hg
  | execve file =>
    rw [State.call]
    cases hfile : s.files file with
    | none => exact hs
    | some f =>
      change Confined s₀ U G (s.setCred pid (c.execve f))
      rw [Cred.execve]
      split
      · apply hs.setCred
        · refine ⟨hu.real, ?_, hu.saved⟩
          change (if _ then _ else _) ∈ U
          split_ifs with hbit
          · exact hs.setUid file f hfile hbit
          · exact heuid
        · refine ⟨hg.real, ?_, hg.saved⟩
          change (if _ then _ else _) ∈ G
          split_ifs with hbit
          · exact hs.setGid file f hfile (.inl hbit)
          · exact hg.effective
      · exact hs.setCred hu hg

theorem Confined.step (hs : Confined s₀ U G s) (hroot : 0 ∉ U) {event : Event}
    (hcaller : event.Unprivileged s) (hgroup : event.GroupIn G) :
    Confined s₀ U G (s.step event) := by
  rw [State.step]
  cases hpid : s.procs event.pid with
  | none => exact hs
  | some c =>
    obtain ⟨hu, hg⟩ := (hs.procs _ c hpid).resolve_left fun hpriv => hcaller c hpid hpriv.2
    exact hs.call hroot hu hg hgroup

/-- Unprivileged processes, and those they fork, stay within the uids that they and the
owners of the set-uid files start with, and within the gids as long as `chown` gives out no
other; the privileged processes of the start are as they were. -/
theorem identities_confined (U G : Set ℕ) (hroot : 0 ∉ U) (s₀ : State)
    (hstart : Confined s₀ U G s₀) :
    (∀ s, Reaches (guarded (fun s event => Event.Unprivileged s event) State.Step) s₀ s →
      ∀ pid c, s.procs pid = some c →
        s₀.procs pid = some c ∧ c.uids.real = 0 ∨ c.uids.In U) ∧
    (∀ s, Reaches (guarded (fun s event => Event.Unprivileged s event ∧ event.GroupIn G)
        State.Step) s₀ s →
      ∀ pid c, s.procs pid = some c →
        s₀.procs pid = some c ∧ c.uids.real = 0 ∨ c.uids.In U ∧ c.gids.In G) := by
  constructor
  · -- The uids do not depend on the gids: all gids are allowed here.
    have hany : Confined s₀ U Set.univ s₀ := by
      refine ⟨fun pid c hpid => ?_, hstart.setUid, fun _ _ _ _ => trivial⟩
      exact (hstart.procs pid c hpid).imp_right fun hin => ⟨hin.1, trivial, trivial, trivial⟩
    intro s hrun pid c hpid
    have hs : Confined s₀ U Set.univ s :=
      hrun.kept hany fun hbefore hcaller =>
        hbefore.step hroot hcaller fun _ _ _ _ => .inr trivial
    exact (hs.procs pid c hpid).imp_right And.left
  · intro s hrun
    have hs : Confined s₀ U G s :=
      hrun.kept hstart fun hbefore hfits => hbefore.step hroot hfits.1 hfits.2
    exact hs.procs

/-- One user, 1000, in group 100, with a file of their own. -/
def oneUser : State where
  procs := fun pid =>
    if pid = 1 then some ⟨⟨1000, 1000, 1000⟩, ⟨100, 100, 100⟩, [], 0o022⟩ else none
  files := fun file => if file = 7 then some ⟨0o644, 1000, 100⟩ else none

instance (s : State) (event : Event) : Decidable (event.Unprivileged s) :=
  inferInstanceAs (Decidable (∀ c ∈ s.procs event.pid, _))

/-- The file becomes set-uid and is run. -/
def runsOwnFile : List Event :=
  [⟨1, .chmod 7 0o4755 true⟩, ⟨1, .fork 2⟩, ⟨2, .execve 7⟩]

theorem identities_confined_one_user :
    ∃ s c, Reaches (guarded (fun s event => Event.Unprivileged s event) State.Step)
      oneUser s ∧ s.procs 2 = some c ∧ c.uids.In {1000} := by
  have hstart : Confined oneUser {1000} {100} oneUser := by
    refine ⟨fun pid c hpid => ?_, fun file f hfile hbit => ?_, fun file f hfile _ => ?_⟩
    · change (if pid = 1 then some _ else none) = some c at hpid
      split_ifs at hpid
      cases hpid
      exact .inr ⟨⟨rfl, rfl, rfl⟩, rfl, rfl, rfl⟩
    · change (if file = 7 then some _ else none) = some f at hfile
      split_ifs at hfile
      cases hfile
      exact absurd hbit (by decide)
    · change (if file = 7 then some _ else none) = some f at hfile
      split_ifs at hfile
      cases hfile
      rfl
  have hrun : Reaches (guarded (fun s event => Event.Unprivileged s event) State.Step)
      oneUser (runsOwnFile.foldl State.step oneUser) :=
    reaches_foldl (by decide +kernel)
  have hchild : (runsOwnFile.foldl State.step oneUser).procs 2 =
      some ⟨⟨1000, 1000, 1000⟩, ⟨100, 100, 100⟩, [], 0o022⟩ := by
    decide +kernel
  have hconfined := (identities_confined {1000} {100} nofun oneUser hstart).1 _ hrun 2 _ hchild
  exact ⟨_, _, hrun, hchild, hconfined.resolve_left (by decide)⟩

/-- The owner gives the file to group 0, sets the set-gid bit and runs it. -/
def takesGroup : State :=
  [⟨1, .chown 7 noId 0⟩, ⟨1, .chmod 7 0o2644 false⟩, ⟨1, .execve 7⟩].foldl
    State.step oneUser

/-- A second user, 1001. -/
def twoUsers : State where
  procs := fun pid =>
    if pid = 2 then some ⟨⟨1001, 1001, 1001⟩, ⟨101, 101, 101⟩, [], 0o022⟩
    else oneUser.procs pid
  files := oneUser.files

/-- The first user makes their file set-uid, and the second runs it. -/
def lendsUid : State :=
  [⟨1, .chmod 7 0o4755 true⟩, ⟨2, .execve 7⟩].foldl State.step twoUsers

/-- A process leaves the gids it started with by `chown`, and its uids by running a
file that another user has made set-uid meanwhile. -/
theorem identities_minted :
    (Reaches (guarded (fun s event => Event.Unprivileged s event) State.Step) oneUser takesGroup ∧
      takesGroup.procs 1 = some ⟨⟨1000, 1000, 1000⟩, ⟨100, 0, 100⟩, [], 0o022⟩) ∧
    Reaches (guarded (fun s event => Event.Unprivileged s event) State.Step) twoUsers lendsUid ∧
      lendsUid.procs 2 = some ⟨⟨1001, 1000, 1001⟩, ⟨101, 101, 101⟩, [], 0o022⟩ := by
  refine ⟨⟨?_, by decide +kernel⟩, ?_, by decide +kernel⟩
  · exact reaches_foldl (by decide +kernel)
  · exact reaches_foldl (by decide +kernel)

end AuraLite.Credentials

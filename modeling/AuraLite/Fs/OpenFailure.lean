import AuraLite.Fs.Vfs

/-!
# A failed `open`

When `vfs_open` returns an error the file systems and the descriptor table are as
before, unless it has created or emptied a file in its middle and one of its last checks
then fails.
-/

namespace AuraLite.Vfs

open SlashPath Credentials Fallible

variable {s : State}

/-- What `open` does to a file before its last checks: it makes one, or finds an entry under
the name as given, and sets mode and owner; or it empties one. -/
inductive Touches (s : State) (path : Name) (flags mode : ℕ) (mem : Mem) : Ref → State → Prop
  | create {m : Mount} {rel : Name} {i : ℕ} {v : Volume} {dir : Ref} (haccess : flags % 4 ≠ 3)
      (habsent : s.resolve path = none) (hcreat : creat flags = true)
      (hpolicy : createMode s.cred mode &&& execModeBits ≠ 0 → s.execInstallAllowed path = true)
      (hdir : s.resolveParent path = some dir ∧ s.permits 2 dir = true)
      (hmount : findMount s.mounts path = some (m, rel))
      (hwritable : (s.vols m.vol).writable = true)
      (hcreate : tmpfsCreate rel mem.data (s.vols m.vol) = some (i, v)) :
      Touches s path flags mode mem (.slot m.vol i)
        (s.setVol m.vol (v.setAttr i ⟨createMode s.cred mode, s.cred.euid, s.cred.egid⟩))
  | empty {vol i : ℕ} {v : Volume} (haccess : flags % 4 ≠ 3)
      (hfound : s.resolve path = some (.slot vol i)) (hnew : ¬ (creat flags ∧ excl flags))
      (hpermits : s.permits (required flags) (.slot vol i) = true)
      (hfile : s.kind (.slot vol i) = some .file) (hdirectory : directory flags = false)
      (htrunc : trunc flags = true) (hwriting : writing flags = true)
      (hwritable : (s.vols vol).writable = true)
      (hrun : (tmpfsTruncate i 0 mem.data).run (s.vols vol) = .ok () v) :
      Touches s path flags mode mem (.slot vol i) (s.setVol vol v)

/-- The last checks: the type, a free descriptor and memory for the description. -/
structure Completes (s : State) (vn : Ref) (flags : ℕ) (mem : Mem) : Prop where
  writes : ¬ (s.kind vn = some .dir ∧ writing flags)
  lists : ¬ (directory flags ∧ s.kind vn ≠ some .dir)
  slot : s.freeFd.isSome
  memory : mem.description = true

variable {path : Name} {flags mode : ℕ} {mem : Mem} {vn : Ref} {s' : State}

theorem installFd_iff (vn : Ref) (path : Name) (flags : ℕ) (mem : Bool) :
    Exits (installFd vn path flags mem) s (fun _ _ => s.freeFd.isSome ∧ mem = true)
      fun _ s' => s' = s ∧ ¬ (s.freeFd.isSome ∧ mem = true) := by
  refine .get_bind ?_
  cases hfree : s.freeFd with
  | none => exact .throw ⟨rfl, nofun⟩
  | some fd =>
    refine .ite (fun hmem => .throw ⟨rfl, ?_⟩) fun hmem => ⟨rfl, Bool.eq_true_of_not_eq_false hmem⟩
    rw [hmem]
    nofun

/-- After a creation the call returns exactly when the last checks pass. -/
theorem openFinish_created (vn : Ref) (path : Name) (flags : ℕ) (mem : Mem) :
    Exits (openFinish vn true path flags mem) s (fun _ _ => Completes s vn flags mem)
      fun _ s' => s' = s ∧ ¬ Completes s vn flags mem := by
  refine .get_bind ?_
  refine .ite (fun hdir => ⟨rfl, fun h => h.writes hdir⟩) fun hwrites => ?_
  refine .ite (fun hlist => ⟨rfl, fun h => h.lists hlist⟩) fun hlists => ?_
  refine .ite (fun htrunc => ?_) fun _ => ?_
  · cases htrunc.2.2.2.1
  · refine (installFd_iff vn path flags mem.description).weaken ?_ ?_
    · exact fun _ _ h => ⟨hwrites, hlists, h.1, h.2⟩
    · exact fun _ _ h => ⟨h.1, fun hall => h.2 ⟨hall.slot, hall.memory⟩⟩

theorem check_passes {α : Type} {access : ℕ} {next : Unit → Op α} {done : α → State → Prop}
    {fails : ℤ → State → Prop} (hpermits : s.permits access vn = true)
    (hnext : Exits (next ()) s done fails) : Exits (check (some vn) access >>= next) s done fails := by
  have hcheck : Exits (check (some vn) access) s (fun _ s' => s' = s) fails :=
    .get_bind (.ite (fun _ => .pure rfl) fun hdenied => absurd hpermits hdenied)
  refine hcheck.bind ?_
  rintro _ s' rfl
  exact hnext

theorem openCreate_ok {m : Mount} {rel : Name} {i : ℕ} {v : Volume} {dir : Ref} {mem : Bool}
    {fails : ℤ → State → Prop}
    (hpolicy : createMode s.cred mode &&& execModeBits ≠ 0 → s.execInstallAllowed path = true)
    (hdir : s.resolveParent path = some dir ∧ s.permits 2 dir = true)
    (hmount : findMount s.mounts path = some (m, rel)) (hwritable : (s.vols m.vol).writable = true)
    (hcreate : tmpfsCreate rel mem (s.vols m.vol) = some (i, v)) :
    Exits (openCreate path mode mem) s (fun vn s' => vn = .slot m.vol i ∧ s' =
      s.setVol m.vol (v.setAttr i ⟨createMode s.cred mode, s.cred.euid, s.cred.egid⟩)) fails := by
  refine .get_bind (.ite (fun hdenied => ?_) fun _ => ?_)
  · rw [hpolicy hdenied.1] at hdenied
    cases hdenied.2
  · rw [hdir.1]
    refine check_passes hdir.2 ?_
    rw [hmount]
    refine .ite (fun h => by rw [hwritable] at h; cases h) fun _ => ?_
    rw [hcreate]
    exact ⟨rfl, rfl⟩

theorem truncateVnode_ok {vol i : ℕ} {v : Volume} {mem : Bool} {fails : ℤ → State → Prop}
    (hrun : (tmpfsTruncate i 0 mem).run (s.vols vol) = .ok () v) :
    Exits (truncateVnode (.slot vol i) 0 mem) s (fun _ s' => s' = s.setVol vol v) fails := by
  have hok : (onVolume vol (tmpfsTruncate i 0 mem) eIO).run s = .ok () (s.setVol vol v) := by
    rw [EStateM.run, onVolume, hrun]
  rw [Exits, truncateVnode, hok]

theorem truncated_kind {vol i : ℕ} {v : Volume} {mem : Bool}
    (hfile : s.kind (.slot vol i) = some .file)
    (hrun : (tmpfsTruncate i 0 mem).run (s.vols vol) = .ok () v) :
    (s.setVol vol v).kind (.slot vol i) = some .file := by
  obtain ⟨f, ino, b, hf, -, -, bytes, rfl⟩ := (tmpfsTruncate_exits i 0 mem).ok hrun
  rw [State.kind, hf] at hfile
  simpa [State.kind, State.setVol, Volume.setFile] using hfile

/-- A call that touches a file returns when the last checks pass, and leaves the file as it has
made it when one fails. -/
theorem Touches.exits (htouches : Touches s path flags mode mem vn s') :
    Exits (vfsOpen path flags mode mem) s (fun _ _ => Completes s' vn flags mem)
      fun _ s₁ => s₁ = s' ∧ ¬ Completes s' vn flags mem := by
  refine .get_bind ?_
  cases htouches with
  | create haccess habsent hcreat hpolicy hdir hmount hwritable hcreate =>
    refine .ite (fun h => absurd h haccess) fun _ => ?_
    rw [habsent]
    refine .ite (fun h => by rw [hcreat] at h; cases h) fun _ => ?_
    refine (openCreate_ok hpolicy hdir hmount hwritable hcreate).bind ?_
    rintro _ _ ⟨rfl, rfl⟩
    exact openFinish_created _ path flags mem
  | empty haccess hfound hnew hpermits hfile hdirectory htrunc hwriting hwritable hrun =>
    refine .ite (fun h => absurd h haccess) fun _ => ?_
    rw [hfound]
    refine .ite (fun h => absurd h hnew) fun _ => ?_
    refine check_passes hpermits (.get_bind ?_)
    refine .ite (fun h => by rw [hfile] at h; cases h.1) fun _ => ?_
    refine .ite (fun h => by rw [hdirectory] at h; cases h.1) fun _ => ?_
    refine .ite (fun _ => ?_) fun hno => absurd ⟨htrunc, hwriting, hfile, rfl, hwritable⟩ hno
    refine (truncateVnode_ok hrun).bind ?_
    rintro _ _ rfl
    have hkind := truncated_kind hfile hrun
    refine (installFd_iff _ path flags mem.description).weaken ?_ ?_
    · refine fun _ _ h => ⟨fun hdir => ?_, fun hlist => ?_, h.1, h.2⟩
      · rw [hkind] at hdir
        cases hdir.1
      · rw [hdirectory] at hlist
        cases hlist.1
    · exact fun _ _ h => ⟨h.1, fun hall => h.2 ⟨hall.slot, hall.memory⟩⟩

end AuraLite.Vfs

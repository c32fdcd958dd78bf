import AuraLite.Fs.OpenFailure

/-!
# Direct paths

`vfs_open`, `vfs_mkdir`, `vfs_rmdir`, `vfs_unlink` and `vfs_rename` check the directory
that the path resolves to and then hand the path as given to the mount table.  The two
agree exactly on direct paths, where the directory is written in its canonical form and
no symbolic link leads to it.
-/

namespace AuraLite.Vfs

open List Option SlashPath Credentials Fallible

/-- What is handed to the file system: the mount of the path as given. -/
def State.handed (s : State) (path : Name) : Option (Mount × Name) := findMount s.mounts path

/-- The path is the directory `ds`, canonical and without a link on the way, and a last
component `c`.  One more slash in front is harmless where the mount table sees no
difference, which is on a file system that is mounted at `/`. -/
structure Locates (s : State) (path lead : Name) (ds : List Name) (c : Name) : Prop where
  path_eq : path = lead ++ render (ds ++ [c])
  slash : lead = [] ∨ lead = ['/'] ∧ s.handed path = s.handed (render (ds ++ [c]))
  canonical : Canonical ds
  last : c ≠ [] ∧ '/' ∉ c
  fits : (lead ++ joined ds).length < pathMax
  links : firstLink s.links ds = none
  fifo : s.findFifo (render ds) = none

def State.Direct (s : State) (path : Name) : Prop := ∃ lead ds c, Locates s path lead ds c

/-- The path fits, its last component is proper too, and it is itself no link. -/
def State.Stands (s : State) (path : Name) : Prop :=
  ∃ lead ds c, Locates s path lead ds c ∧ Canonical (ds ++ [c]) ∧ path.length < pathMax ∧
    findSymlink s.links (render (ds ++ [c])) = none

variable {s : State} {path lead : Name} {cs ds : List Name} {c : Name} {m : Mount} {rel : Name}

/-- A doubled slash in front makes no difference to the real path. -/
theorem realpath_lead (hlead : lead = [] ∨ lead = ['/']) (hcs : Canonical cs)
    (hne : lead ++ joined cs ≠ []) (hfits : (lead ++ joined cs).length < pathMax)
    (links : List Link) (cwd : Name) :
    realpath links cwd (lead ++ joined cs) = walk links symlinkMaxFollow cs := by
  have hparts : components (lead ++ joined cs) = cs := by
    have hjoined : componentsFrom [] (joined cs) = cs := componentsFrom_joined hcs.1 []
    rcases hlead with rfl | rfl <;> exact hjoined
  have hhead : (lead ++ joined cs).head? = some '/' := by
    rcases hlead with rfl | rfl
    · cases cs with
      | nil => exact absurd rfl hne
      | cons c rest => rfl
    · rfl
  have hrender : (render cs).length < pathMax := by
    rw [render]
    split_ifs
    · decide
    · rw [length_append] at hfits
      omega
  have hcanonical : canonicalPath pathMax (lead ++ joined cs) = some cs := by
    rw [canonicalPath, if_pos hhead, hparts]
    exact foldlM_canonicalStep_self hcs hrender
  rw [realpath, anchorPath, if_pos hhead, if_pos hfits, bind_some, hcanonical, bind_some]

section

variable (h : Locates s path lead ds c)
include h

theorem Locates.lead_cases : lead = [] ∨ lead = ['/'] := h.slash.imp_right And.left

theorem Locates.eq_append : path = (lead ++ joined ds) ++ '/' :: c := by
  rw [h.path_eq, render_concat, append_assoc]

theorem Locates.realpath_dir (cwd : Name) : realpath s.links cwd (parentPath path) = some ds := by
  have hdir : dirName path = some (lead ++ joined ds) := by
    rw [h.eq_append]
    exact dirName_append _ _ h.last.2
  rw [← walk_of_firstLink symlinkMaxFollow h.links, parentPath, hdir]
  by_cases hempty : lead ++ joined ds = []
  · have hds : ds = [] := by
      cases ds with
      | nil => rfl
      | cons d rest => simp [joined] at hempty
    rw [hempty, hds]
    exact realpath_render .nil (by decide)
  · obtain ⟨d, rest, hcons⟩ := exists_cons_of_ne_nil hempty
    have hshort : (lead ++ joined ds).take (pathMax - 1) = lead ++ joined ds :=
      take_of_length_le (Nat.le_sub_one_of_lt h.fits)
    have hreal := realpath_lead h.lead_cases h.canonical hempty h.fits s.links cwd
    rw [hcons] at hshort hreal ⊢
    rw [← hreal]
    exact congrArg (realpath s.links cwd) hshort

theorem Locates.resolveParent : s.resolveParent path =
    (findMount s.mounts (render ds)).bind fun found => s.lookupIn found.1 found.2 := by
  have hne : path ≠ [] := by
    rw [h.eq_append]
    simp
  rw [State.resolveParent, if_neg hne, State.resolve, h.realpath_dir, bind_some, State.lookup, h.fifo]

theorem Locates.handed_eq : s.handed path = findMount s.mounts (render (ds ++ [c])) := by
  rcases h.slash with rfl | ⟨-, hsame⟩
  · rw [h.path_eq]
    rfl
  · exact hsame

end

/-! ## The directory of an entry -/

/-- The directory of a volume that holds the name `rel`. -/
def State.entryDir (s : State) (m : Mount) (rel : Name) : Option Ref :=
  match dirName rel with
  | none => some (.root m.vol)
  | some dir => s.lookupIn m dir

/-- What stands behind the last slash. -/
def baseName (path : Name) : Name := (path.reverse.takeWhile (· ≠ '/')).reverse

/-- The mount of the resolved directory with the last component. -/
def State.intended (s : State) (path : Name) : Option (Mount × Name) :=
  (realpath s.links s.cwd (parentPath path)).bind fun ds =>
    findMount s.mounts (render (ds ++ [baseName path]))

theorem Locates.intended (h : Locates s path lead ds c) : s.intended path = s.handed path := by
  have hrev : path.reverse = c.reverse ++ '/' :: (lead ++ joined ds).reverse := by
    rw [h.eq_append]
    simp
  have htake : (c.reverse ++ '/' :: (lead ++ joined ds).reverse).takeWhile (· ≠ '/') = c.reverse := by
    rw [takeWhile_append_of_pos]
    · simp
    · intro d hd
      rw [mem_reverse] at hd
      exact decide_eq_true fun hslash => h.last.2 (hslash ▸ hd)
  rw [State.intended, h.realpath_dir, bind_some, baseName, hrev, htake, reverse_reverse, h.handed_eq]

theorem Locates.entryDir (h : Locates s path lead ds c) (hhanded : s.handed path = some (m, rel))
    (hrel : rel ≠ []) : s.resolveParent path = s.entryDir m rel := by
  rw [h.handed_eq] at hhanded
  have hnot := not_mountPoint hhanded hrel
  rw [findMount_child h.canonical.1 h.last hnot] at hhanded
  obtain ⟨⟨m', relDir⟩, hdir, heq⟩ := Option.map_eq_some_iff.mp hhanded
  cases heq
  rw [h.resolveParent, hdir, bind_some, State.entryDir, childRel]
  split_ifs with hempty
  · rw [dirName_word _ h.last.2, hempty]
    rfl
  · rw [dirName_append _ _ h.last.2]

/-- The call acts on the name `rel` of the mount, in the directory that it has checked. -/
structure ActsIn (s : State) (path : Name) (m : Mount) (rel : Name) : Prop where
  handed : s.handed path = some (m, rel)
  intended : s.intended path = some (m, rel)
  checked : ∃ dir, s.resolveParent path = some dir ∧ s.entryDir m rel = some dir ∧
    s.permits 2 dir = true

theorem render_single (hcs : Plain cs) (rest : Name) : render cs ≠ '/' :: '/' :: rest := by
  rw [render]
  split_ifs with hempty
  · simp
  · obtain ⟨d, ds, rfl⟩ := exists_cons_of_ne_nil hempty
    obtain ⟨hd, hslash⟩ := hcs d mem_cons_self
    obtain ⟨a, word, rfl⟩ := exists_cons_of_ne_nil hd
    rintro heq
    simp only [joined, cons_append, cons.injEq] at heq
    exact hslash (heq.2.1 ▸ mem_cons_self)

theorem ne_nil_of_pathOk (hok : pathOk rel = true) : rel ≠ [] := by
  rintro rfl
  cases hok

/-- On a direct path the checked directory is the one that the call acts in. -/
theorem State.Direct.actsIn (h : s.Direct path) (hhanded : s.handed path = some (m, rel))
    (hrel : rel ≠ []) {dir : Ref} (hdir : s.resolveParent path = some dir ∧ s.permits 2 dir = true) :
    ActsIn s path m rel := by
  obtain ⟨lead, ds, c, hloc⟩ := h
  exact ⟨hhanded, hloc.intended.trans hhanded, dir, hdir.1,
    (hloc.entryDir hhanded hrel).symm.trans hdir.1, hdir.2⟩

/-! ## New entries -/

/-- The name under which a path that leads nowhere yet is looked up in a volume. -/
def State.nameIn (s : State) (vol : ℕ) (path : Name) : Option Name :=
  (realpath s.links s.cwd path).bind fun cs => (findMount s.mounts (render cs)).bind fun found =>
    if found.1.vol = vol ∧ found.2 ≠ [] then some found.2 else none

theorem lookupIn_slot {vol : Volume} (hvol : s.vols m.vol = vol) (hrel : rel ≠ []) :
    s.lookupIn m rel = (vol.findFile rel).map (.slot m.vol) := by
  rw [State.lookupIn, hvol, Volume.lookup, if_neg hrel, Option.map_map]
  rfl

theorem resolve_setVol (habsent : s.resolve path = none) (vol : ℕ) (v : Volume) :
    (s.setVol vol v).resolve path =
      (s.nameIn vol path).bind fun rel => (v.findFile rel).map (.slot vol) := by
  rw [State.resolve] at habsent
  rw [State.resolve, State.nameIn]
  change (realpath s.links s.cwd path).bind _ = _
  cases hreal : realpath s.links s.cwd path with
  | none => rfl
  | some cs =>
    rw [hreal, bind_some, State.lookup] at habsent
    have hfifos : (s.setVol vol v).findFifo (render cs) = s.findFifo (render cs) := rfl
    rw [bind_some, bind_some, State.lookup, hfifos]
    cases hfifo : s.findFifo (render cs) with
    | some fifo =>
      rw [hfifo] at habsent
      cases habsent
    | none =>
      rw [hfifo] at habsent
      change (findMount s.mounts (render cs)).bind _ = _
      cases hfound : findMount s.mounts (render cs) with
      | none => rfl
      | some found =>
        rw [hfound, bind_some] at habsent
        rw [bind_some, bind_some]
        by_cases hrel : found.2 = []
        · rw [hrel] at habsent
          cases habsent
        · by_cases hvol : found.1.vol = vol
          · rw [if_pos ⟨hvol, hrel⟩, bind_some, ← hvol]
            exact lookupIn_slot (setVol_vols s _ v) hrel
          · rw [if_neg fun h => hvol h.1, bind_none, State.lookupIn, setVol_ne hvol]
            exact habsent

/-- A path that stands for itself is looked up under the name it is handed with. -/
theorem State.Stands.nameIn (h : s.Stands path) (hhanded : s.handed path = some (m, rel))
    (hrel : rel ≠ []) : s.nameIn m.vol path = some rel := by
  obtain ⟨lead, ds, c, hloc, hcanonical, hlength, hlink⟩ := h
  have hfirst : firstLink s.links (ds ++ [c]) = none := by
    rw [firstLink_eq_none_iff]
    intro i hi
    rw [length_append, length_singleton, Nat.lt_succ_iff] at hi
    rcases Nat.lt_or_eq_of_le hi with hlt | rfl
    · rw [take_append_of_le_length hlt]
      exact firstLink_eq_none_iff.mp hloc.links i hlt
    · rw [take_of_length_le (by simp)]
      exact hlink
  have hreal : realpath s.links s.cwd path = some (ds ++ [c]) := by
    have hjoined : path = lead ++ joined (ds ++ [c]) := hloc.path_eq.trans (by simp [render])
    rw [hjoined] at hlength ⊢
    rw [realpath_lead hloc.lead_cases hcanonical (by simp [joined_append, joined]) hlength]
    exact walk_of_firstLink _ hfirst
  rw [State.nameIn, hreal, bind_some, ← hloc.handed_eq, hhanded, bind_some, if_pos ⟨rfl, hrel⟩]

/-- `vn` is a new entry in the directory that was checked, and the path leads to it. -/
def Creates (s s' : State) (path : Name) (vn : Ref) : Prop :=
  ∃ m rel i, vn = .slot m.vol i ∧ ActsIn s path m rel ∧ (s.vols m.vol).files i = none ∧
    s'.resolve path = some vn

section

variable {s' : State} {v : Volume} {i : ℕ} {dir : Ref} (habsent : s.resolve path = none)
  (hhanded : s.handed path = some (m, rel)) (hok : pathOk rel = true)
  (hresolve : s'.resolve path = (s.setVol m.vol v).resolve path)
include habsent hhanded hok

include hresolve

theorem State.Stands.creates (h : s.Stands path)
    (hdir : s.resolveParent path = some dir ∧ s.permits 2 dir = true)
    (hfree : (s.vols m.vol).files i = none) (hfind : v.findFile rel = some i) :
    Creates s s' path (.slot m.vol i) := by
  have hrel := ne_nil_of_pathOk hok
  have hdirect : s.Direct path := by
    obtain ⟨lead, ds, c, hloc, -⟩ := h
    exact ⟨lead, ds, c, hloc⟩
  refine ⟨m, rel, i, rfl, hdirect.actsIn hhanded hrel hdir, hfree, ?_⟩
  rw [hresolve, resolve_setVol habsent, h.nameIn hhanded hrel, bind_some, hfind, map_some]

end

/-! ## The calls -/

variable {i : ℕ}

theorem Installed.resolve {vn : Ref} {fd : ℕ} {s' : State} (h : Installed s vn fd s') (path : Name) :
    s'.resolve path = s.resolve path := by
  obtain ⟨o, cloexec, -, rfl⟩ := h
  rfl

theorem Installed.vn {vn : Ref} {fd : ℕ} {s' : State} (h : Installed s vn fd s') :
    (s'.fds fd).map (·.vn) = some vn := by
  obtain ⟨o, cloexec, hvn, rfl⟩ := h
  simp only [Function.update_self, map_some, hvn]

/-- The entry was in the directory of the old path, and gets its name in that of the new one. -/
def Moves (s s' : State) (path dst : Name) : Prop :=
  ∃ m rel rel' i, ActsIn s path m rel ∧ ActsIn s dst m rel' ∧
    (s.vols m.vol).findFile rel = some i ∧
    (rel ≠ rel' → ((s'.vols m.vol).files i).map (·.name) = some rel')

/-- `/tmp` for everybody and `/dev/shm` for the superuser. -/
def twoMounts (links : List Link) (euid : ℕ) : State where
  mounts := [⟨0, "/tmp".toList, 0, 0⟩, ⟨1, "/dev/shm".toList, 1, 1⟩]
  links := links
  fifos := []
  vols := fun vol =>
    { ops := vol
      writable := true
      root := ⟨if vol = 0 then 0o1777 else 0o755, 0, 0⟩
      files := fun _ => none
      blocks := fun _ => none
      nextIno := 0 }
  fds := fun _ => none
  cloexec := fun _ => false
  cred := ⟨⟨euid, euid, euid⟩, ⟨100, 100, 100⟩, [], 0o022⟩
  cwd := "/".toList

/-- `O_CREAT | O_WRONLY`. -/
def createFile (path : Name) : Op ℕ := vfsOpen path 0x41 0o644 ⟨true, true⟩

/-- A dangling link at the last component. -/
def dangling : State := twoMounts [⟨"/dev/shm/x".toList, "/tmp/x".toList⟩] 0

end AuraLite.Vfs

import AuraLite.Fs.Direct

/-!
# Where executables may be installed

`vfs_open`, `vfs_chmod` and `vfs_fchmod` ask `exec_install_allowed` before a file gets
an execute bit.  The policy judges the real path of a string; the file is stored where
the mount table takes the string, or the one rebuilt from the vnode.
-/

namespace AuraLite.Vfs

open List Option SlashPath Credentials Fallible Reachability Bool

/-! ## The path of a stored file -/

def Mount.full (m : Mount) (rel : Name) : Name :=
  if 1 < m.path.length then m.path ++ '/' :: rel else m.path ++ rel

variable {s s' : State} {path : Name} {m : Mount} {rel : Name} {cs : List Name}
variable {i : ℕ} {v : Volume}

open Volume

/-- The relative path leads back to the path, which is not the mount point. -/
theorem full_of_findMount {mounts : List Mount} (hcs : Plain cs)
    (hfound : findMount mounts (render cs) = some (m, rel)) (hrel : rel ≠ []) :
    m ∈ mounts ∧ m.full rel = render cs := by
  obtain ⟨hhead, hbest, -⟩ := findMount_spec hfound
  obtain ⟨hmem, -, hpos⟩ := bestMount_spec hbest
  refine ⟨hmem, ?_⟩
  rw [Mount.full]
  rcases findMount_path hfound hrel with hpath | ⟨hroot, hpath⟩
  · split_ifs with hlong
    · exact hpath.symm
    · obtain ⟨d, hd⟩ := List.length_eq_one_iff.mp (Nat.le_antisymm (Nat.le_of_not_lt hlong) hpos)
      rw [hpath, hd] at hhead
      obtain rfl : d = '/' := by simpa using hhead
      rw [hd] at hpath
      exact absurd hpath (render_single hcs rel)
  · rw [hpath, hroot]
    rfl

theorem installable_of_allowed (hallowed : s.execInstallAllowed path = true)
    (hreal : realpath s.links s.cwd path = some cs) : installable (render cs) = true := by
  obtain ⟨cs', hcs', hinstallable⟩ := (any_eq_true _ _).mp hallowed
  obtain ⟨real, hreal', hcanonical⟩ := bind_eq_some_iff.mp hcs'
  obtain ⟨canon, hcanon, hwalk⟩ := bind_eq_some_iff.mp hreal'
  obtain ⟨hrealCanonical, hrealFits, -⟩ := realpath_spec hwalk
  rw [canonicalPath_render hrealCanonical hrealFits] at hcanonical
  obtain rfl : real = cs' := some.inj hcanonical
  -- Both sides walk from the canonical form of the same absolute path.
  have hsame : realpath s.links s.cwd path = some real := by
    obtain ⟨hcanonCanonical, hcanonFits⟩ := canonicalPath_spec (by decide) hcanon
    rw [realpath_render hcanonCanonical hcanonFits] at hwalk
    have habsolute : path.head? = some '/' := by
      rw [canonicalPath] at hcanon
      split_ifs at hcanon with hhead
      exact hhead
    rw [realpath, anchorPath, if_pos habsolute] at hreal ⊢
    split_ifs at hreal ⊢ with hfits
    · rw [bind_some, hcanon, bind_some]
      exact hwalk
    · cases hreal
  rw [hreal] at hsame
  cases hsame
  exact hinstallable

/-! ## Entries that a call leaves alone -/

/-- Name, kind, owner, mode and data of an entry; what is left is the size. -/
def Entry.stable (f : Entry) : Name × Kind × Attr × Option ℕ := (f.name, f.kind, f.attr, f.data)

/-- The same mounts, and the slots hold the same entries, up to sizes. -/
structure SameFiles (s s' : State) : Prop where
  mounts : s'.mounts = s.mounts
  ops : ∀ vol, (s'.vols vol).ops = (s.vols vol).ops
  files : ∀ vol i,
    ((s'.vols vol).files i).map Entry.stable = ((s.vols vol).files i).map Entry.stable

theorem setVol_ops {vol : ℕ} (hops : v.ops = (s.vols vol).ops) (other : ℕ) :
    ((s.setVol vol v).vols other).ops = (s.vols other).ops := by
  by_cases hother : other = vol
  · rw [hother, setVol_vols, hops]
  · rw [setVol_ne hother]

theorem SameFiles.of_vols (hmounts : s'.mounts = s.mounts) (hvols : s'.vols = s.vols) :
    SameFiles s s' := by
  refine ⟨hmounts, fun vol => ?_, fun vol i => ?_⟩
  · rw [hvols]
  · rw [hvols]

theorem SameFiles.refl (s : State) : SameFiles s s := .of_vols rfl rfl

theorem SameFiles.trans {s'' : State} (h : SameFiles s s') (h' : SameFiles s' s'') :
    SameFiles s s'' where
  mounts := h'.mounts.trans h.mounts
  ops vol := (h'.ops vol).trans (h.ops vol)
  files vol i := (h'.files vol i).trans (h.files vol i)

variable {vol : ℕ}

theorem SameFiles.entry (h : SameFiles s s') {f' : Entry} (hf' : (s'.vols vol).files i = some f') :
    ∃ f, (s.vols vol).files i = some f ∧ f.stable = f'.stable := by
  have hsame := h.files vol i
  rw [hf', map_some] at hsame
  exact map_eq_some_iff.mp hsame.symm

theorem SameFiles.setVol (hops : v.ops = (s.vols vol).ops)
    (hfiles : ∀ i, (v.files i).map Entry.stable = ((s.vols vol).files i).map Entry.stable) :
    SameFiles s (s.setVol vol v) where
  mounts := rfl
  ops := setVol_ops hops
  files other i := by
    by_cases hother : other = vol
    · rw [hother, setVol_vols, hfiles]
    · rw [setVol_ne hother]

theorem truncateVnode_same (vn : Ref) (size : ℕ) (mem : Bool) :
    Leaves (truncateVnode vn size mem) s (SameFiles s) := by
  cases vn with
  | slot vol i =>
    refine (onVolume_exits (tmpfsTruncate_exits i size mem)).leaves (.refl s) ?_
    rintro _ s' ⟨v, ⟨f, ino, b, hf, -, -, bytes, rfl⟩, rfl⟩
    refine .setVol rfl fun j => ?_
    by_cases hj : j = i
    · rw [hj, setFile_self, hf]
      rfl
    · rw [setFile_ne hj]
      rfl
  | _ => exact .throw (.refl s)

theorem installFd_same (vn : Ref) (path : Name) (flags : ℕ) (mem : Bool) :
    Leaves (installFd vn path flags mem) s (SameFiles s) := by
  refine (installFd_exits vn path flags mem).weaken ?_ ?_
  · rintro _ s' ⟨o, cloexec, -, rfl⟩
    exact .of_vols rfl rfl
  · rintro _ s' ⟨rfl, -⟩
    exact SameFiles.refl s'

theorem openFinish_same (vn : Ref) (created : Bool) (path : Name) (flags : ℕ) (mem : Mem) :
    Leaves (openFinish vn created path flags mem) s (SameFiles s) := by
  have hsame := SameFiles.refl s
  refine .get_bind ?_
  refine .unless hsame fun _ => ?_
  refine .unless hsame fun _ => ?_
  refine .ite (fun _ => ?_) fun _ => installFd_same vn path flags mem.description
  refine (truncateVnode_same vn 0 mem.data).bind fun _ s' hcut => ?_
  exact (installFd_same vn path flags mem.description).imp fun _ => hcut.trans

/-! ## Acquisition -/

/-- The entry has an execute bit that no name of its file had before. -/
structure Acquires (s s' : State) (vol i : ℕ) (f' : Entry) : Prop where
  entry : (s'.vols vol).files i = some f'
  bit : ∃ bit ino, execModeBits.testBit bit = true ∧ f'.data = some ino ∧
    f'.attr.mode.testBit bit = true ∧
    ∀ j f, (s.vols vol).files j = some f → f.data = some ino → f.attr.mode.testBit bit = false

/-- What is acquired is stored below `/opt` or `/tmp`. -/
structure Obeys (s s' : State) : Prop where
  mounts : s'.mounts = s.mounts
  ops : ∀ vol, (s'.vols vol).ops = (s.vols vol).ops
  installs : ∀ vol i f', Acquires s s' vol i f' →
    ∀ m ∈ s.mounts, m.vol = vol → installable (m.full f'.name) = true

/-- An entry that shares its data with one of the same mode acquires nothing. -/
theorem Acquires.false {f f' : Entry} (h : Acquires s s' vol i f') {j : ℕ}
    (hf : (s.vols vol).files j = some f) (hattr : f.attr = f'.attr) (hdata : f.data = f'.data) :
    False := by
  obtain ⟨bit, ino, -, hino, hset, hnone⟩ := h.bit
  have hclear := hnone j f hf (hdata.trans hino)
  rw [hattr, hset] at hclear
  cases hclear

/-- Calls that leave entries alone after the one that installs do not matter. -/
theorem Obeys.then_same {s'' : State} (h : Obeys s s') (hsame : SameFiles s' s'') :
    Obeys s s'' where
  mounts := hsame.mounts.trans h.mounts
  ops vol := (hsame.ops vol).trans (h.ops vol)
  installs := by
    intro vol i f'' hacquires
    obtain ⟨f', hf', hstable⟩ := hsame.entry hacquires.entry
    simp only [Entry.stable, Prod.mk.injEq] at hstable
    obtain ⟨hname, -, hattr, hdata⟩ := hstable
    rw [← hname]
    apply h.installs vol i f'
    refine ⟨hf', ?_⟩
    rw [hattr, hdata]
    exact hacquires.bit

theorem Obeys.refl (s : State) : Obeys s s where
  mounts := rfl
  ops _ := rfl
  installs _ _ _ hacquires := (hacquires.false hacquires.entry rfl rfl).elim

theorem SameFiles.obeys (h : SameFiles s s') : Obeys s s' := (Obeys.refl s).then_same h

/-- A change to one volume, where each entry shares data and mode with one that was
there, or is below `/opt` or `/tmp`. -/
theorem Obeys.setVol (hops : v.ops = (s.vols vol).ops)
    (hfiles : ∀ i f', v.files i = some f' → Acquires s (s.setVol vol v) vol i f' →
      (∃ j f, (s.vols vol).files j = some f ∧ f.attr = f'.attr ∧ f.data = f'.data) ∨
      ∀ m ∈ s.mounts, m.vol = vol → installable (m.full f'.name) = true) :
    Obeys s (s.setVol vol v) where
  mounts := rfl
  ops := setVol_ops hops
  installs other i f' hacquires := by
    have hentry := hacquires.entry
    by_cases hother : other = vol
    · subst hother
      rw [setVol_vols] at hentry
      rcases hfiles i f' hentry hacquires with ⟨j, f, hf, hattr, hdata⟩ | hplace
      · exact (hacquires.false hf hattr hdata).elim
      · exact hplace
    · rw [setVol_ne hother] at hentry
      exact (hacquires.false hentry rfl rfl).elim

/-! ## Places -/

/-- Every mount has an operation table of its own, the one of its volume. -/
def State.MountsApart (s : State) : Prop :=
  (∀ m ∈ s.mounts, (s.vols m.vol).ops = m.ops) ∧
    ∀ m ∈ s.mounts, ∀ m' ∈ s.mounts, m.ops = m'.ops → m = m'

theorem State.MountsApart.eq (h : s.MountsApart) {m' : Mount} (hm : m ∈ s.mounts)
    (hm' : m' ∈ s.mounts) (hvol : m'.vol = m.vol) : m' = m := by
  apply h.2 m' hm' m hm
  rw [← h.1 m hm, ← h.1 m' hm', hvol]

theorem Obeys.mountsApart (h : Obeys s s') (hapart : s.MountsApart) : s'.MountsApart := by
  rw [State.MountsApart, h.mounts]
  refine ⟨fun m hm => ?_, hapart.2⟩
  rw [h.ops]
  exact hapart.1 m hm

/-- The string is its own real path. -/
def State.Unredirected (s : State) (path : Name) : Prop :=
  ∃ cs, realpath s.links s.cwd path = some cs ∧ render cs = path

/-- What the policy allows for a real path holds for the mount and the relative path. -/
theorem place_installable (hapart : s.MountsApart) (hallowed : s.execInstallAllowed path = true)
    (hreal : realpath s.links s.cwd path = some cs)
    (hfound : findMount s.mounts (render cs) = some (m, rel)) (hrel : rel ≠ []) :
    ∀ m' ∈ s.mounts, m'.vol = m.vol → installable (m'.full rel) = true := by
  obtain ⟨hcanonical, -⟩ := realpath_spec hreal
  obtain ⟨hm, hfull⟩ := full_of_findMount hcanonical.1 hfound hrel
  intro m' hm' hvol
  rw [hapart.eq hm hm' hvol, hfull]
  exact installable_of_allowed hallowed hreal

theorem ne_zero_of_testBit {n : ℕ} (h : n.testBit i = true) : n ≠ 0 :=
  ((Nat.two_pow_pos i).trans_le (Nat.ge_two_pow_of_testBit h)).ne'

theorem execBits_ne_zero {mode bit : ℕ} (hbit : execModeBits.testBit bit = true)
    (hset : mode.testBit bit = true) : mode &&& execModeBits ≠ 0 := by
  apply ne_zero_of_testBit (i := bit)
  rw [Nat.testBit_and, hset, hbit]
  rfl

/-! ## The calls -/

/-- A file that is created with an execute bit is where the policy allows it. -/
theorem openCreate_obeys (hapart : s.MountsApart) (hdirect : s.Unredirected path)
    (mode : ℕ) (mem : Bool) :
    Leaves (openCreate path mode mem) s (Obeys s) := by
  refine (openCreate_exits path mode mem).leaves (.refl s) ?_
  rintro _ s' ⟨m, rel, i, v, -, hmount, hpolicy, -, -, hcreate, -, rfl⟩
  obtain ⟨hops, hothers, f, hf, hname⟩ := tmpfsCreate_files hcreate
  refine .setVol hops fun j f' hf' hacquires => ?_
  rw [setAttr] at hf'
  by_cases hj : j = i
  · rw [hj, setFile_self, hf] at hf'
    cases hf'
    right
    obtain ⟨bit, -, hbit, -, hset, -⟩ := hacquires.bit
    have hallowed := hpolicy (execBits_ne_zero hbit hset)
    obtain ⟨cs, hreal, hsame⟩ := hdirect
    have hrel : rel ≠ [] := by
      rintro rfl
      cases hcreate
    rw [hname]
    exact place_installable hapart hallowed hreal (hsame ▸ hmount) hrel
  · rw [setFile_ne hj, hothers j hj] at hf'
    exact .inl ⟨j, f', hf', rfl, rfl⟩

theorem open_obeys (hapart : s.MountsApart) {flags : ℕ}
    (hdirect : s.resolve path = none → creat flags = true → s.Unredirected path)
    (mode : ℕ) (mem : Mem) :
    Leaves (vfsOpen path flags mode mem) s (Obeys s) := by
  have hself := Obeys.refl s
  refine .get_bind ?_
  refine .unless hself fun _ => ?_
  cases hresolve : s.resolve path with
  | none =>
    refine .unless hself fun hcreat => ?_
    have hplain := hdirect hresolve (eq_true_of_not_eq_false hcreat)
    refine (openCreate_obeys hapart hplain mode mem.data).bind fun vn s' hobeys => ?_
    exact (openFinish_same vn true path flags mem).imp fun _ => hobeys.then_same
  | some vn =>
    refine .unless hself fun _ => ?_
    refine check_bind (fun _ => hself) fun _ _ => ?_
    exact (openFinish_same vn false path flags mem).imp fun _ => SameFiles.obeys

/-- A bit that `chmod` sets is one of those that the policy is asked about. -/
theorem chmod_bit {f : Attr} {c : Cred} {mode bit : ℕ} (hbit : execModeBits.testBit bit = true)
    (hset : (f.chmod c mode true).mode.testBit bit = true) (hclear : f.mode.testBit bit = false) :
    mode &&& execModeBits &&& (f.mode ^^^ execModeBits) ≠ 0 := by
  have hsmall : bit < 12 := by
    apply (Nat.pow_lt_pow_iff_right (by decide : 1 < 2)).mp
    exact (Nat.ge_two_pow_of_testBit hbit).trans_lt (by decide)
  have hmode : mode.testBit bit = true := by
    rw [File.chmod] at hset
    split_ifs at hset with howner hdenied
    · rw [hclear] at hset
      cases hset
    · cases hdenied.2
    · rw [Nat.testBit_or, Nat.testBit_shiftLeft, Nat.testBit_and,
        decide_eq_false (Nat.not_le_of_lt hsmall), Bool.false_and, Bool.false_or,
        and_eq_true] at hset
      exact hset.1
  apply ne_zero_of_testBit (i := bit)
  rw [Nat.testBit_and, Nat.testBit_and, Nat.testBit_xor, hmode, hbit, hclear]
  rfl

theorem chmodVnode_obeys (vn : Ref) (mode : ℕ) (allowed : State → Bool)
    (hplace : ∀ vol i f, vn = .slot vol i → (s.vols vol).files i = some f → allowed s = true →
      ∀ m ∈ s.mounts, m.vol = vol → installable (m.full f.name) = true) :
    Leaves (chmodVnode vn mode allowed) s (Obeys s) := by
  have hself := Obeys.refl s
  refine .get_bind ?_
  cases hattr : s.attr vn with
  | none => exact .throw hself
  | some attr =>
    refine .unless hself fun _ => ?_
    refine .unless hself fun hpolicy => ?_
    change Obeys s (s.setAttr (attr.chmod s.cred mode true) vn)
    cases vn with
    | root vol =>
      apply SameFiles.obeys
      exact SameFiles.setVol rfl fun _ => rfl
    | fifo path =>
      apply SameFiles.obeys
      exact SameFiles.of_vols rfl rfl
    | slot vol i =>
      obtain ⟨f, hf, rfl⟩ := map_eq_some_iff.mp hattr
      refine Obeys.setVol rfl fun j f' hf' hacquires => ?_
      rw [setAttr] at hf'
      by_cases hj : j = i
      · rw [hj, setFile_self, hf] at hf'
        cases hf'
        right
        obtain ⟨bit, ino, hbit, hino, hset, hclear⟩ := hacquires.bit
        have hasked := chmod_bit hbit hset (hclear i f hf hino)
        apply hplace vol i f rfl hf
        exact eq_true_of_not_eq_false fun hdenied => hpolicy ⟨hasked, hdenied⟩
      · rw [setFile_ne hj] at hf'
        exact .inl ⟨j, f', hf', rfl, rfl⟩

theorem place_of_resolve (hresolve : s.resolve path = some (.slot vol i)) :
    ∃ cs m f, realpath s.links s.cwd path = some cs ∧
      findMount s.mounts (render cs) = some (m, f.name) ∧ f.name ≠ [] ∧ m.vol = vol ∧
      (s.vols vol).files i = some f := by
  obtain ⟨cs, hreal, hlookup⟩ := bind_eq_some_iff.mp hresolve
  rw [State.lookup] at hlookup
  cases hfifo : s.findFifo (render cs) with
  | some fifo =>
    rw [hfifo] at hlookup
    cases hlookup
  | none =>
    rw [hfifo] at hlookup
    obtain ⟨⟨m, rel⟩, hmount, hin⟩ := bind_eq_some_iff.mp hlookup
    have hrel : rel ≠ [] := by
      rintro rfl
      cases hin
    rw [lookupIn_slot rfl hrel] at hin
    obtain ⟨k, hfind, heq⟩ := map_eq_some_iff.mp hin
    cases heq
    obtain ⟨-, f, hf, rfl⟩ := findFile_some hfind
    exact ⟨cs, m, f, hreal, hmount, hrel, rfl, hf⟩

theorem chmod_obeys (hapart : s.MountsApart) (path : Name) (mode : ℕ) :
    Leaves (vfsChmod path mode) s (Obeys s) := by
  refine .get_bind ?_
  cases hresolve : s.resolve path with
  | none => exact .throw (.refl s)
  | some vn =>
    apply chmodVnode_obeys
    rintro vol i f rfl hf hallowed
    obtain ⟨cs, m, f', hreal, hmount, hname, rfl, hf'⟩ := place_of_resolve hresolve
    cases hf.symm.trans hf'
    exact place_installable hapart hallowed hreal hmount hname

theorem full_of_vnodePath (hapart : s.MountsApart) {f : Entry} {full : Name}
    (hf : (s.vols vol).files i = some f) (hpath : s.vnodePath (.slot vol i) = some full)
    (hm : m ∈ s.mounts) (hvol : m.vol = vol) : m.full f.name = full := by
  simp only [State.vnodePath, hf, map_some, bind_some] at hpath
  obtain ⟨m', hfind, hfull⟩ := bind_eq_some_iff.mp hpath
  have hops : m'.ops = (s.vols vol).ops := by simpa using find?_some hfind
  have hsame : m' = m := by
    apply hapart.2 m' (mem_of_find?_eq_some hfind) m hm
    rw [hops, ← hvol, hapart.1 m hm]
  rw [hsame] at hfull
  exact some.inj (ite_none_right_eq_some.mp hfull).2

theorem fchmod_obeys (hapart : s.MountsApart) {fd : ℕ}
    (hdirect : ∀ o full, s.fds fd = some o → s.vnodePath o.vn = some full → s.Unredirected full)
    (mode : ℕ) :
    Leaves (vfsFchmod fd mode) s (Obeys s) := by
  refine .get_bind ?_
  cases hfd : s.fds fd with
  | none => exact .throw (.refl s)
  | some o =>
    apply chmodVnode_obeys
    intro vol i f hvn hf hallowed m hm hvol
    obtain ⟨full, hpath, hfull⟩ := (any_eq_true _ _).mp hallowed
    obtain ⟨cs, hreal, hsame⟩ := hdirect o full hfd hpath
    rw [hvn] at hpath
    rw [full_of_vnodePath hapart hf hpath hm hvol, ← hsame]
    exact installable_of_allowed hfull hreal

theorem symlink_obeys (target linkpath : Name) (mem : Bool) :
    Leaves (vfsSymlink target linkpath mem) s (Obeys s) := by
  have hself := Obeys.refl s
  refine .get_bind ?_
  refine .unless hself fun _ => ?_
  refine .unless hself fun _ => ?_
  refine .unless hself fun _ => ?_
  refine .unless hself fun _ => ?_
  apply SameFiles.obeys
  exact SameFiles.of_vols rfl rfl

/-- The new name shares the data and has the mode of the old one. -/
theorem onVolume_link_obeys (vol : ℕ) (old new : Name) (fallback : ℤ) :
    Leaves (onVolume vol (tmpfsLink old new) fallback) s (Obeys s) := by
  refine (onVolume_exits tmpfsLink_exits).leaves (.refl s) ?_
  rintro _ s' ⟨v, hlinked, rfl⟩
  obtain ⟨hops, i, f, j, hf, hnew, hothers⟩ := hlinked.files
  refine .setVol hops fun k f' hf' _ => .inl ?_
  by_cases hk : k = j
  · rw [hk, hnew] at hf'
    cases hf'
    exact ⟨i, f, hf, rfl, rfl⟩
  · rw [hothers k hk] at hf'
    exact ⟨k, f', hf', rfl, rfl⟩

theorem link_obeys (old new : Name) :
    Leaves (vfsLink old new) s (Obeys s) := by
  have hself := Obeys.refl s
  refine .get_bind ?_
  refine .unless hself fun _ => ?_
  cases s.resolve old with
  | none => exact .throw hself
  | some vn =>
    refine .unless hself fun _ => ?_
    refine .unless hself fun _ => ?_
    cases findMount s.mounts old with
    | none => exact .throw hself
    | some found =>
      cases findMount s.mounts new with
      | none => exact .throw hself
      | some found' =>
        refine .unless hself fun _ => ?_
        refine .unless hself fun _ => ?_
        exact check_bind (fun _ => hself) fun _ _ =>
          onVolume_link_obeys found.1.vol found.2 found'.2 eNoEnt

theorem Volume.Keeps.obeys (h : (s.vols vol).Keeps v) : Obeys s (s.setVol vol v) :=
  .setVol h.ops fun i f' hf' _ => .inl ⟨i, h.entry i f' hf'⟩

theorem rename_obeys (src dst : Name) :
    Leaves (vfsRename src dst) s (Obeys s) := by
  have hobeys : ∀ s', Renamed s src dst (fun v _ _ v' => v.Keeps v') s' → Obeys s s' := by
    rintro s' ⟨m, rel, rel', v, dir, dir', -, -, -, -, hkeeps, rfl⟩
    exact hkeeps.obeys
  refine (vfsRename_exits fun _ => tmpfsRename_keeps).weaken (fun _ => hobeys) ?_
  rintro _ s' (rfl | hrenamed)
  · exact .refl s'
  · exact hobeys s' hrenamed

/-! ## Runs -/

inductive Install
  | openFile (path : Name) (flags mode : ℕ) (mem : Mem)
  | chmod (path : Name) (mode : ℕ)
  | fchmod (fd mode : ℕ)
  | symlink (target linkpath : Name) (mem : Bool)
  | link (old new : Name)
  | rename (src dst : Name)
  /-- Another process makes the next calls. -/
  | become (cred : Cred) (cwd : Name) (fds : ℕ → Option Ofd)

def State.install (s : State) : Install → State
  | .openFile path flags mode mem => after (vfsOpen path flags mode mem) s
  | .chmod path mode => after (vfsChmod path mode) s
  | .fchmod fd mode => after (vfsFchmod fd mode) s
  | .symlink target linkpath mem => after (vfsSymlink target linkpath mem) s
  | .link old new => after (vfsLink old new) s
  | .rename src dst => after (vfsRename src dst) s
  | .become cred cwd fds => { s with cred := cred, cwd := cwd, fds := fds }

def State.Installs (s : State) (call : Install) (s' : State) : Prop := s' = s.install call

/-- A path that is to be created, and the path that `fchmod` rebuilds, is its own real
path. -/
def Install.Fits (s : State) : Install → Prop
  | .openFile path flags _ _ => s.resolve path = none → creat flags = true → s.Unredirected path
  | .fchmod fd _ => ∀ o full, s.fds fd = some o → s.vnodePath o.vn = some full →
      s.Unredirected full
  | _ => True

theorem install_obeys (hapart : s.MountsApart) (call : Install) (hfits : call.Fits s) :
    Obeys s (s.install call) := by
  cases call with
  | openFile path flags mode mem => exact (open_obeys hapart hfits mode mem).after
  | chmod path mode => exact (chmod_obeys hapart path mode).after
  | fchmod fd mode => exact (fchmod_obeys hapart hfits mode).after
  | symlink target linkpath mem => exact (symlink_obeys target linkpath mem).after
  | link old new => exact (link_obeys old new).after
  | rename src dst => exact (rename_obeys src dst).after
  | become cred cwd fds =>
    apply SameFiles.obeys
    exact SameFiles.of_vols rfl rfl

/-- When no path that is created and no path that `fchmod` rebuilds is redirected, what
acquires an execute bit is stored below `/opt` or `/tmp`. -/
theorem executables_below (start : State) (hstart : start.MountsApart) (s : State)
    (hrun : Reaches (guarded (fun s call => Install.Fits s call) State.Installs) start s)
    (call : Install) (hfits : call.Fits s) (vol i : ℕ) (f' : Entry)
    (hacquires : Acquires s (s.install call) vol i f') :
    ∀ m ∈ s.mounts, m.vol = vol → installable (m.full f'.name) = true := by
  have hapart : s.MountsApart := by
    apply hrun.invariant hstart
    rintro before call after hbefore ⟨hfits, rfl⟩
    exact (install_obeys hbefore call hfits).mountsApart hbefore
  exact (install_obeys hapart call hfits).installs vol i f' hacquires

/-- `O_CREAT | O_WRONLY` with an execute bit. -/
def createTool (path : Name) : Install := .openFile path 0x41 0o755 ⟨true, true⟩

/-- The entry of the tool `x`. -/
def tool (uid : ℕ) : Entry := ⟨"x".toList, .file, ⟨0o755, uid, 100⟩, 0, some 1⟩

/-- The superuser makes a link, and then a user a tool. -/
theorem executables_below_tmp : ∃ s,
    Reaches (guarded (fun s call => Install.Fits s call) State.Installs) (twoMounts [] 0) s ∧
    Acquires s (s.install (createTool "/tmp/x".toList)) 0 0 (tool 1000) ∧
    installable (Mount.full ⟨0, "/tmp".toList, 0, 0⟩ "x".toList) = true := by
  let s := twoMounts [⟨"/dev/l".toList, "/tmp/a".toList⟩] 1000
  have hapart : (twoMounts [] 0).MountsApart := by
    refine ⟨?_, ?_⟩
    · simp [twoMounts]
    · simp [twoMounts]
  have hlink : guarded (fun s call => Install.Fits s call) State.Installs (twoMounts [] 0)
      (.symlink "/tmp/a".toList "/dev/l".toList true) { s with cred := (twoMounts [] 0).cred } :=
    ⟨trivial, rfl⟩
  have hother : guarded (fun s call => Install.Fits s call) State.Installs
      { s with cred := (twoMounts [] 0).cred } (.become s.cred s.cwd s.fds) s := ⟨trivial, rfl⟩
  have hrun := ((Reaches.refl _ _).tail hlink).tail hother
  have hfits : (createTool "/tmp/x".toList).Fits s :=
    fun _ _ => ⟨["tmp".toList, "x".toList], by decide +kernel, by decide +kernel⟩
  have hacquires : Acquires s (s.install (createTool "/tmp/x".toList)) 0 0 (tool 1000) := by
    refine ⟨by decide +kernel, 0, 1, by decide, rfl, by decide, ?_⟩
    intro j f hf
    cases hf
  refine ⟨s, hrun, hacquires, ?_⟩
  exact executables_below (twoMounts [] 0) hapart s hrun (createTool "/tmp/x".toList) hfits 0 0
    (tool 1000) hacquires ⟨0, "/tmp".toList, 0, 0⟩ mem_cons_self rfl

/-- `/dev/shm/x` is a dangling link to `/tmp/x`.  A tool that is created under that name
is stored in `/dev/shm`; and so is a plain file, which `fchmod` then makes a tool. -/
theorem executables_elsewhere :
    (Acquires dangling (dangling.install (createTool "/dev/shm/x".toList)) 1 0 (tool 0) ∧
      ((after (createFile "/dev/shm/x".toList) dangling).vols 1).files 0 =
        some { tool 0 with attr := ⟨0o644, 0, 100⟩ } ∧
      (((after (createFile "/dev/shm/x".toList) dangling).install (.fchmod 0 0o755)).vols 1).files
        0 = some (tool 0)) ∧
    dangling.mounts.map (fun m => (m.vol, installable (m.full "x".toList))) =
      [(0, true), (1, false)] := by
  refine ⟨⟨⟨by decide +kernel, 0, 1, by decide, rfl, by decide, ?_⟩, ?_, ?_⟩, ?_⟩
  · intro j f hf
    cases hf
  all_goals decide +kernel

end AuraLite.Vfs

import AuraLite.Fs.DescriptorRuns

/-!
# Runs of the descriptor calls

The counts hold in every run in which a name is removed only when nothing is open behind it
and an area list is freed only by its last user.  A pipe frees its ring with the last end,
but of its two vnodes only the one of that end.
-/

namespace AuraLite.Descriptor

open Arena RefCount Fallible Reachability
open List hiding lookup
open Mmap (Vma)

variable {s s' s₀ : State}

/-- The slots that a call may close. -/
def Call.Clears (s : State) : Call → ℕ → ℕ → Prop
  | .close t fd, k, i => ∃ self, s.running t = some self ∧ k = self.table ∧ i = fd.toNat
  | .dup2 t _ newfd, k, i => ∃ self, s.running t = some self ∧ k = self.table ∧ i = newfd.toNat
  | .exec t _, k, i => ∃ self, s.running t = some self ∧ k = self.table ∧ 3 ≤ i ∧
      s.cloexecAt k i = true
  | .exit t, k, _ => ∃ self tab, s.running t = some self ∧ self.fdtab = some k ∧
      lookup s.tables k = some tab ∧ tab.refs ≤ 1
  | _, _, _ => False

/-- The area lists that a call may free. -/
def Call.Frees (s : State) : Call → ℕ → Prop
  | .exec t _, k => ∃ self, s.running t = some self ∧ self.vmaList = some k
  | .reap t, k => ∃ z, lookup s.tasks t = some z ∧ z.vmaList = some k
  | _, _ => False

/-- A slot or an area that the call leaves alone holds the description. -/
def Call.Leaves (s : State) (call : Call) (o : ℕ) : Prop :=
  (∃ k i, s.slotAt k i = some o ∧ ¬ call.Clears s k i) ∨
    ∃ k areas v, lookup s.lists k = some areas ∧ v ∈ areas ∧ fileOf v = some o ∧
      ¬ call.Frees s k

/-- The call does not drop the last reference to a pipe. -/
def Call.Spares (s : State) (call : Call) : Prop :=
  ∀ (r : ℕ) (ring : Ring) (ends : Ends), s.store.rings[r]? = some ring →
    ring.owner = .pipe ends →
    ∃ side o d, lookup s.store.ofds o = some d ∧ d.vn = ends.vn side ∧ call.Leaves s o

/-- A name is removed when no description refers to its vnode; an area list is freed when no
other task enters it. -/
def Call.Fits (s : State) : Call → Prop
  | .unlink args => ∀ v, s.store.resolve args.path = some v → s.store.opens v = 0
  | .exec t _ => s.Alone t
  | .reap t => (∀ z, lookup s.tasks t = some z → z.isPthread = true) ∨ s.Alone t
  | _ => True

/-! ## One call -/

open State

theorem running_eq_some {t : ℕ} {self : Task} (hself : s.running t = some self) :
    lookup s.tasks t = some self :=
  (Option.filter_eq_some_iff.mp hself).1

theorem byTask_good {α : Type} {t : ℕ} {m : Task → Prog α} {clears : ℕ → ℕ → Prop}
    {frees : ℕ → Prop} (hsound : s.Sound [])
    (hdoes : ∀ self, s.running t = some self → Does clears frees (m self) s) :
    Good clears frees s (s.byTask t m) := by
  rw [byTask]
  cases hself : s.running t with
  | none => exact .refl hsound
  | some self => exact (hdoes self hself).after

variable {call : Call}

section

variable (hsound : s.Sound []) (hfits : call.Fits s)
include hsound hfits

theorem step_keeps :
    (s.step call).Sound [] ∧ Kept (call.Clears s) (call.Frees s) s (s.step call) ∧
      PipesFrom s.store (s.step call).store := by
  have hgood : ∀ {s' : State}, Good (call.Clears s) (call.Frees s) s s' →
      s'.Sound [] ∧ Kept (call.Clears s) (call.Frees s) s s' ∧ PipesFrom s.store s'.store :=
    fun h => ⟨h.sound, h.kept, h.pipes.from⟩
  have hself : Good (call.Clears s) (call.Frees s) s s := .refl hsound
  cases call with
  | openFile t args =>
    exact hgood (byTask_good hsound fun _ _ => vfsOpen_does hsound args)
  | close t fd =>
    apply hgood
    apply byTask_good hsound
    intro self hrunning
    exact vfsClose_does hsound ⟨self, hrunning, rfl, rfl⟩
  | dup t oldfd =>
    exact hgood (byTask_good hsound fun _ _ => dupLowestFrom_does hsound oldfd 0 false)
  | dup2 t oldfd newfd =>
    apply hgood
    apply byTask_good hsound
    intro self hrunning
    exact vfsDup2_does hsound ⟨self, hrunning, rfl, rfl⟩
  | fcntlDup t oldfd minfd cloexec =>
    exact hgood (byTask_good hsound fun _ _ => dupLowestFrom_does hsound oldfd minfd cloexec)
  | setCloexec t fd on =>
    exact hgood (byTask_good hsound fun _ _ => vfsSetCloexec_does hsound fd on)
  | pipe2 t args =>
    rw [step, byTask]
    cases hrunning : s.running t with
    | none => exact hgood hself
    | some self => exact Exits.after (vfsPipe2_exits hsound args)
  | mkfifo args =>
    have hdoes : Does (Call.Clears s (.mkfifo args)) (Call.Frees s (.mkfifo args))
        (vfsMkfifo args) s := vfsMkfifo_does hsound args
    exact hgood hdoes.after
  | unlink args =>
    have hdoes : Does (Call.Clears s (.unlink args)) (Call.Frees s (.unlink args))
        (vfsUnlink args) s := vfsUnlink_does hsound args hfits
    exact hgood hdoes.after
  | fork t args =>
    rw [step]
    cases hrunning : s.running t with
    | none => exact hgood hself
    | some self => exact hgood (fork_good hsound (running_eq_some hrunning) args)
  | clone t thread table brk =>
    rw [step]
    cases hrunning : s.running t with
    | none => exact hgood hself
    | some self => exact hgood (clone_good hsound (running_eq_some hrunning) thread table brk)
  | exec t args =>
    apply hgood
    apply byTask_good hsound
    intro self hrunning
    apply execveImage_does hsound (running_eq_some hrunning) hfits args
    · intro i hi hflag
      exact ⟨self, hrunning, rfl, hi, hflag⟩
    · intro k hk
      exact ⟨self, hrunning, hk⟩
  | exit t =>
    rw [step]
    cases hrunning : s.running t with
    | none => exact hgood hself
    | some self =>
      apply hgood
      apply exit_good hsound (running_eq_some hrunning)
      intro k tab hk htab hlast i
      exact ⟨self, tab, hrunning, hk, htab, hlast⟩
  | reap t =>
    rw [step]
    cases hz : lookup s.tasks t with
    | none => exact hgood hself
    | some z =>
      simp only
      split_ifs
      · apply hgood
        apply reap_good hsound hz
        · exact hfits.imp (fun h => h z hz) id
        · intro k hk
          exact ⟨z, hz, hk⟩
      · exact hgood hself

/-- A description that the call leaves in a slot or an area is live afterwards. -/
theorem lookup_of_leaves {o : ℕ} {d : Ofd} (hd : lookup s.store.ofds o = some d)
    (hleaves : call.Leaves s o) :
    ∃ d', lookup (s.step call).store.ofds o = some d' ∧ d'.vn = d.vn := by
  obtain ⟨hsound', hkept, -⟩ := step_keeps hsound hfits
  have hheld : 0 < (s.step call).held o := by
    obtain ⟨k, i, hslot, hnot⟩ | ⟨k, areas, v, hlist, hv, hfile, hnot⟩ := hleaves
    · exact held_pos_of_slot (hkept.slots k i o hslot hnot)
    · exact held_pos_of_area (hkept.lists k areas hlist hnot) hv hfile
  obtain ⟨d', hd'⟩ := hsound'.store.counts.exists (Nat.add_pos_left hheld _)
  obtain ⟨d₁, hd₁, hvn⟩ := hkept.vns.vn o d' hd' (lookup_lt hd)
  rw [hd] at hd₁
  cases hd₁
  exact ⟨d', hd', hvn.symm⟩

/-- A call that spares the pipes leaves each with an open end. -/
theorem step_pipesOpen (hspares : call.Spares s) : (s.step call).store.PipesOpen := by
  obtain ⟨-, -, hfrom⟩ := step_keeps hsound hfits
  intro r ring' ends hring' howner
  obtain ⟨ring, hring, hring_owner⟩ | hopen := hfrom r ring' ends hring' howner
  · obtain ⟨side, o, d, hd, hvn, hleaves⟩ := hspares r ring ends hring hring_owner
    obtain ⟨d', hd', hvn'⟩ := lookup_of_leaves hsound hfits hd hleaves
    refine ⟨side, ?_⟩
    rw [← hvn, ← hvn']
    exact opens_of_lookup hd'
  · exact hopen

end

/-! ## Whole runs -/

/-- The live descriptions on one end of a pipe. -/
def Store.endCount (st : Store) (side : PipeEnd) (r : ℕ) : ℕ :=
  (owned (fun d : Ofd => [d.vn]) st.ofds).countP fun v =>
    st.vnodes[v]?.map Vnode.backing == some (.pipe side r)

/-- The lifetime of open file descriptions. -/
structure State.Lifetime (s : State) : Prop where
  refcount : ∀ o d, lookup s.store.ofds o = some d →
    d.refcount = (owned Fdtab.held s.tables).count o + (owned areaFiles s.lists).count o
  ends : ∀ (r : ℕ) (ring : Ring) (ends : Ends), s.store.rings[r]? = some ring →
    ring.owner = .pipe ends → ∀ side, ring.count side = s.store.endCount side r
  backed : ∀ o d, lookup s.store.ofds o = some d → s.store.Live d.vn
  freed : ∀ (r : ℕ) (ring : Ring) (ends : Ends), s.store.rings[r]? = some ring →
    ring.owner = .pipe ends → (∀ side, s.store.endCount side r = 0) →
    ring.frees = 1 ∧ ∀ side, s.store.vnodes[ends.vn side]?.map Vnode.frees = some 1

theorem Backs.endCount {opens : ℕ → ℕ} {st : Store} (hbacks : Backs opens st) {r : ℕ}
    {ring : Ring} {ends : Ends} (hring : st.rings[r]? = some ring)
    (howner : ring.owner = .pipe ends) (side : PipeEnd) :
    st.endCount side r = st.opens (ends.vn side) := by
  rw [Store.endCount, Store.opens, count]
  apply countP_congr
  intro v _
  rw [beq_iff_eq, beq_iff_eq]
  constructor
  · intro hv
    obtain ⟨x, hx, hb⟩ := Option.map_eq_some_iff.mp hv
    obtain ⟨side', hside, hend⟩ := hbacks.end_of_ring hring howner hx (by rw [hb]; rfl)
    rw [hb] at hside
    cases hside
    exact hend.symm
  · rintro rfl
    obtain ⟨n, hn⟩ := (hbacks.pipe r ring ends hring howner).vnode side
    rw [hn, Option.map_some]

theorem PipeOk.count {opens : ℕ → ℕ} {vnodes : List Vnode} {r : ℕ} {ring : Ring} {ends : Ends}
    (hok : PipeOk opens vnodes r ring ends) (side : PipeEnd) :
    ring.count side = opens (ends.vn side) := by
  cases hok with
  | live _ _ hcount => exact hcount side
  | gone _ hclosed hcount => rw [hcount, hclosed]

/-- Sound counts on pipes that are open make up the lifetime. -/
theorem State.Sound.lifetime (hsound : s.Sound []) (hopen : s.store.PipesOpen) : s.Lifetime := by
  have hbacks := hsound.store.backs
  refine ⟨?_, ?_, ?_, ?_⟩
  · intro o d hd
    have hcount := hsound.store.counts.count o
    rw [hd, Option.elim_some, count_nil, Nat.add_zero] at hcount
    exact hcount
  · intro r ring ends hring howner side
    rw [hbacks.endCount hring howner, (hbacks.pipe r ring ends hring howner).count]
  · intro o d hd
    exact hbacks.live d.vn (opens_of_lookup hd)
  · intro r ring ends hring howner hclosed
    obtain ⟨side, hside⟩ := hopen r ring ends hring howner
    rw [← hbacks.endCount hring howner, hclosed side] at hside
    exact absurd hside (Nat.lt_irrefl 0)

/-- Any number of tasks, any calls: the counts are the holders, a pipe counts its ends and
descriptions refer to live objects, as long as names and area lists are given up by their
last user and no call drops the last reference to a pipe. -/
theorem descriptions_live (hstart : s₀.Sound []) (hopen : s₀.store.PipesOpen)
    (hrun : Reaches (guarded (fun s call => call.Fits s ∧ call.Spares s) State.Step) s₀ s) :
    s.Lifetime := by
  have hinv : s.Sound [] ∧ s.store.PipesOpen := by
    apply hrun.invariant ⟨hstart, hopen⟩
    rintro before call after ⟨hsound, -⟩ ⟨⟨hfits, hspares⟩, rfl⟩
    exact ⟨(step_keeps hsound hfits).1, step_pipesOpen hsound hfits hspares⟩
  exact hinv.1.lifetime hinv.2

/-! ## Runs of one process -/

/-- One process with an empty table, and the fallback table. -/
def bootState : State where
  store := ⟨[], [], [], replicate 16 none, fun _ => none⟩
  tables := [some Fdtab.fresh, some Fdtab.fresh]
  lists := []
  tasks := [some ⟨some 1, none, false, false⟩]

def makePipe : Call := .pipe2 0 ⟨none, false, true, true, true, true, true⟩

theorem bootState_fifos (i : ℕ) : lookup bootState.store.namedFifos i = none := by
  cases hget : lookup bootState.store.namedFifos i with
  | none => rfl
  | some f =>
    have hmem : some f ∈ replicate 16 (none : Option NamedFifo) :=
      mem_of_getElem? (lookup_eq_some.mp hget)
    cases eq_of_mem_replicate hmem

theorem bootState_sound : bootState.Sound [] := by
  refine ⟨⟨⟨?_, nofun⟩, ⟨?_, nofun,
    nofun, ?_, ?_, nofun,
    nofun⟩⟩, ?_, ?_⟩
  · intro o
    have hslots : owned Fdtab.held bootState.tables = [] := by decide
    rw [held, hslots]
    rfl
  · intro v hv
    exact absurd hv (Nat.lt_irrefl 0)
  · intro i f hf
    rw [bootState_fifos] at hf
    cases hf
  · intro i j f g hf
    rw [bootState_fifos] at hf
    cases hf
  · intro k
    rcases k with _ | _ | k
    · decide
    · decide
    · rw [count_eq_zero_of_not_mem]
      · exact Nat.zero_le _
      · intro hmem
        have hlist : (0 :: owned (fun task : Task => task.fdtab.toList) bootState.tasks) =
            [0, 1] := by decide
        rw [hlist] at hmem
        simp at hmem
  · intro t task k htask hvma
    have hmem : some task ∈ bootState.tasks := mem_of_getElem? (lookup_eq_some.mp htask)
    rw [bootState, mem_singleton] at hmem
    cases hmem
    cases hvma

/-- The write end of the only pipe stays in slot 1. -/
theorem spares_write (hrings : s.store.rings = [⟨1, 1, .pipe ⟨0, 1⟩, 0⟩])
    (hofd : lookup s.store.ofds 1 = some ⟨1, 1⟩)
    (hslot : s.slotAt 1 1 = some 1) (hnot : ¬ call.Clears s 1 1) : call.Spares s := by
  intro r ring' ends hring' howner'
  rw [hrings] at hring'
  have hmem := mem_singleton.mp (mem_of_getElem? hring')
  rw [hmem] at howner'
  cases howner'
  exact ⟨.write, 1, ⟨1, 1⟩, hofd, rfl, .inl ⟨1, 1, hslot, hnot⟩⟩

/-- A pipe is made, its read end duplicated and closed once. -/
theorem descriptions_live_pipe :
    ([makePipe, .dup 0 0, .close 0 0].foldl State.step bootState).Lifetime := by
  have hfirst : Call.Fits bootState makePipe ∧ Call.Spares bootState makePipe :=
    ⟨trivial, nofun⟩
  have hsecond : Call.Fits (bootState.step makePipe) (.dup 0 0) ∧
      Call.Spares (bootState.step makePipe) (.dup 0 0) :=
    ⟨trivial, spares_write (by decide +kernel) (by decide +kernel) (by decide +kernel) id⟩
  have hthird : Call.Fits ((bootState.step makePipe).step (.dup 0 0)) (.close 0 0) ∧
      Call.Spares ((bootState.step makePipe).step (.dup 0 0)) (.close 0 0) := by
    refine ⟨trivial, spares_write (by decide +kernel) (by decide +kernel) (by decide +kernel) ?_⟩
    rintro ⟨self, -, -, hzero⟩
    cases hzero
  apply descriptions_live bootState_sound nofun
  exact (((Reaches.refl _ _).tail ⟨hfirst, rfl⟩).tail ⟨hsecond, rfl⟩).tail ⟨hthird, rfl⟩

/-- Both ends of a pipe are closed and one vnode stays; a FIFO is unlinked while it is open. -/
theorem descriptions_dangle :
    ¬ ([makePipe, .close 0 0, .close 0 1].foldl State.step bootState).Lifetime ∧
    ¬ ([.mkfifo ⟨['/', 'f'], none, true, true⟩,
        .openFile 0 ⟨['/', 'f'], false, false, false, none, none, true⟩,
        .unlink ⟨['/', 'f'], none, false, none⟩].foldl State.step bootState).Lifetime := by
  constructor
  · intro hlife
    have hfreed := hlife.freed 0 ⟨0, 0, .pipe ⟨0, 1⟩, 1⟩ ⟨0, 1⟩ (by decide +kernel) rfl
      (by intro side; cases side <;> decide +kernel)
    exact absurd (hfreed.2 .read) (by decide +kernel)
  · intro hlife
    obtain ⟨b, hb, -⟩ := hlife.backed 0 ⟨0, 1⟩ (by decide +kernel)
    have hvn : ([.mkfifo ⟨['/', 'f'], none, true, true⟩,
        .openFile 0 ⟨['/', 'f'], false, false, false, none, none, true⟩,
        .unlink ⟨['/', 'f'], none, false, none⟩].foldl step
        bootState).store.vnodes[0]? = some ⟨.fifo 0, 1⟩ := by decide +kernel
    rw [hvn] at hb
    cases hb

end AuraLite.Descriptor

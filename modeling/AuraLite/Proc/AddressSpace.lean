import AuraLite.Lib.Reachability
import AuraLite.Mm.VmaChain

/-!
# Lifetime of address spaces

The members of a thread group carry the same `pml4_phys`, and each has its own
pointer to the head of the group's area list.  The model has the task control
blocks, the area nodes and the log of `paging_free_address_space`, under `fork`,
`clone(CLONE_VM|CLONE_THREAD)`, area edits by any member, exit, `waitpid` and the
reaper.  Page table roots are numbered in order of creation; each call is one
step.
-/

namespace AuraLite.AddressSpace

open List Mmap NodePool Reachability
open Function (update update_self update_apply update_of_ne)

structure Tcb where
  pml4 : ℕ
  isPthread : Bool
  vmaList : ℕ
  dead : Bool
  waited : Bool
  started : Bool
deriving DecidableEq

structure State where
  pool : VmaPool
  /-- The task control blocks that have not been reaped. -/
  tcbs : ℕ → Option Tcb
  nextTid : ℕ
  nextPml4 : ℕ
  /-- The roots given to `paging_free_address_space`. -/
  freed : List ℕ

inductive Event
  /-- `task`: `kthread_create_unstarted` gives the child. -/
  | fork (t : ℕ) (task : Bool) (slab : List Bool)
  /-- `brk`: the caller has a shared break cell, or `kmalloc` gives one. -/
  | clone (t : ℕ) (brk : Bool)
  /-- `vma_insert` on the list of the caller. -/
  | mmap (t : ℕ) (new : Vma) (slab : List Bool)
  /-- `vma_remove_range` on the list of the caller. -/
  | munmap (t start stop : ℕ) (slab : List Bool)
  /-- Without a parent the exiting thread is collected at once. -/
  | exit (t : ℕ) (orphan : Bool)
  /-- `waitpid` collects the zombie `t`. -/
  | wait (t : ℕ)
  | reap (t : ℕ)

def State.running (s : State) (t : ℕ) : Option Tcb :=
  (s.tcbs t).filter fun u => u.started && !u.dead

def State.setTcb (s : State) (t : ℕ) (tcb : Option Tcb) : State :=
  { s with tcbs := update s.tcbs t tcb }

def State.addTcb (s : State) (tcb : Tcb) : State :=
  { s.setTcb s.nextTid (some tcb) with nextTid := s.nextTid + 1 }

/-- `do_fork`: a new root, a new task and a copy of the area list.  Without the task the
root is given up; when the copy fails root and copy are, and the task is left dead. -/
def State.fork (s : State) (self : Tcb) (task : Bool) (slab : List Bool) : State :=
  let areas := s.pool.walk s.pool.fresh self.vmaList
  let copy := chainCopy areas s.pool 0 slab
  if task = false then
    { s with nextPml4 := s.nextPml4 + 1, freed := s.nextPml4 :: s.freed }
  else if copy.1 then
    { s with pool := copy.2.1, nextPml4 := s.nextPml4 + 1 }.addTcb
      ⟨s.nextPml4, false, copy.2.2, false, false, true⟩
  else
    { s with
      pool := chainFree copy.2.1 copy.2.2
      nextPml4 := s.nextPml4 + 1
      freed := s.nextPml4 :: s.freed }.addTcb ⟨0, false, 0, true, true, false⟩

/-- `do_clone`: root and list head are copied.  Without the break cell it returns before
the list is, and leaves the new task as it is, never started. -/
def State.clone (s : State) (self : Tcb) (brk : Bool) : State :=
  if brk then s.addTcb ⟨self.pml4, true, self.vmaList, false, false, true⟩
  else s.addTcb ⟨self.pml4, true, 0, false, false, false⟩

def State.edit (s : State) (t : ℕ) (self : Tcb) (result : VmaPool × ℕ) : State :=
  { s with pool := result.1 }.setTcb t (some { self with vmaList := result.2 })

/-- One round of `thread_reap_zombies`. -/
def State.reap (s : State) (t : ℕ) (z : Tcb) : State :=
  if z.pml4 ≠ 0 ∧ z.isPthread = false then
    { s with
      pool := chainFree s.pool z.vmaList
      freed := z.pml4 :: s.freed }.setTcb t none
  else s.setTcb t none

def State.step (s : State) : Event → State
  | .fork t task slab =>
    match s.running t with
    | none => s
    | some self => s.fork self task slab
  | .clone t brk =>
    match s.running t with
    | none => s
    | some self => s.clone self brk
  | .mmap t new slab =>
    match s.running t with
    | none => s
    | some self => s.edit t self (chainInsert s.pool self.vmaList new slab).2.1
  | .munmap t start stop slab =>
    match s.running t with
    | none => s
    | some self => s.edit t self (chainRemove s.pool self.vmaList start stop slab)
  | .exit t orphan =>
    match s.running t with
    | none => s
    | some self => s.setTcb t (some { self with dead := true, waited := orphan })
  | .wait t =>
    match s.tcbs t with
    | none => s
    | some z => if z.dead then s.setTcb t (some { z with waited := true }) else s
  | .reap t =>
    match s.tcbs t with
    | none => s
    | some z => if z.dead && z.waited then s.reap t z else s

def State.Step (s : State) (event : Event) (s' : State) : Prop := s.step event = s'

/-- One process with an empty area list. -/
def State.start : State where
  pool := Pool.empty
  tcbs := update (fun _ => none) 0 (some ⟨1, false, 0, false, false, true⟩)
  nextTid := 1
  nextPml4 := 2
  freed := []

/-- No other unreaped task has the root of `t`. -/
def State.Alone (s : State) (t : ℕ) : Prop :=
  ∀ j < s.nextTid, j ≠ t → ∀ u ∈ s.tcbs j, ∀ self ∈ s.tcbs t, u.pml4 ≠ self.pml4

/-- The condition on the calls: while a task has siblings it does not insert an
area in front of the first one and does not cut the first one; no `clone` is without a
break cell; the process itself is reaped after its threads. -/
def Event.Fits (s : State) : Event → Prop
  | .clone _ brk => brk = true
  | .mmap t new _ =>
    s.Alone t ∨ ∃ self ∈ s.tcbs t, ∃ node ∈ s.pool.nodes self.vmaList,
      node.val.vaStart < new.vaStart
  | .munmap t start stop _ =>
    s.Alone t ∨ ∀ self ∈ s.tcbs t, ∀ node ∈ s.pool.nodes self.vmaList,
      node.val.vaEnd ≤ start ∨ stop ≤ node.val.vaStart
  | .reap t => s.Alone t ∨ ∀ z ∈ s.tcbs t, z.isPthread = true
  | _ => True

/-! ## What is kept -/

/-- `view k` is the area list of the space with root `k`. -/
structure Lists (pool : VmaPool) (view : ℕ → List (ℕ × Vma)) : Prop where
  tidy : Tidy pool
  nodup : ∀ k, (addrs (view k)).Nodup
  bounded : ∀ k, ∀ q ∈ addrs (view k), q < pool.fresh
  apart : ∀ k j, k ≠ j → ∀ q ∈ addrs (view k), q ∉ addrs (view j)

/-- A task on a root below `n` that was not freed. -/
structure Tcb.Kept (pool : VmaPool) (view : ℕ → List (ℕ × Vma)) (n : ℕ) (freed : List ℕ)
    (u : Tcb) : Prop where
  linked : u.pml4 ≠ 0 → u.pml4 < n ∧ Linked pool u.vmaList (view u.pml4)
  user : u.dead = false → u.pml4 ≠ 0
  stays : u.pml4 ∉ freed

structure Kept (s : State) (view : ℕ → List (ℕ × Vma)) : Prop extends Lists s.pool view where
  unused : ∀ t, s.nextTid ≤ t → s.tcbs t = none
  task : ∀ t u, s.tcbs t = some u → u.Kept s.pool view s.nextPml4 s.freed
  once : s.freed.Nodup
  gone : ∀ k ∈ s.freed, k ≠ 0 ∧ k < s.nextPml4
  owner : ∀ k, k ≠ 0 → k < s.nextPml4 →
    k ∈ s.freed ∨ ∃ t u, s.tcbs t = some u ∧ u.pml4 = k ∧ u.isPthread = false
  root : 0 < s.nextPml4

variable {s s' : State} {view : ℕ → List (ℕ × Vma)} {t : ℕ} {self : Tcb}

open State

theorem running_eq_some (hself : s.running t = some self) :
    s.tcbs t = some self ∧ self.dead = false := by
  obtain ⟨htcb, hruns⟩ := Option.filter_eq_some_iff.mp hself
  rw [Bool.and_eq_true, Bool.not_eq_true'] at hruns
  exact ⟨htcb, hruns.2⟩

theorem setTcb_tcbs (s : State) (t : ℕ) (tcb : Option Tcb) (j : ℕ) :
    (s.setTcb t tcb).tcbs j = if j = t then tcb else s.tcbs j :=
  update_apply _ _ _ _

theorem addTcb_tcbs (s : State) (tcb : Tcb) (j : ℕ) :
    (s.addTcb tcb).tcbs j = if j = s.nextTid then some tcb else s.tcbs j :=
  update_apply _ _ _ _

theorem forall_setTcb {P : Tcb → Prop} {tcb : Option Tcb} (hnew : ∀ u ∈ tcb, P u)
    (hold : ∀ j u, j ≠ t → s.tcbs j = some u → P u) (j : ℕ) (u : Tcb)
    (hu : (s.setTcb t tcb).tcbs j = some u) : P u := by
  rw [setTcb_tcbs] at hu
  split_ifs at hu with heq
  · exact hnew u hu
  · exact hold j u heq hu

/-- The areas of a space are edited: the other lists stay as they are. -/
theorem Lists.edited {pool pool' : VmaPool} {k : ℕ} {l' : List (ℕ × Vma)} (hlists : Lists pool view)
    (hedited : Edited pool pool' (view k) l') (hbounded : ∀ q ∈ addrs l', q < pool'.fresh) :
    Lists pool' (update view k l') ∧
      ∀ j p, j ≠ k → Linked pool p (view j) → Linked pool' p (update view k l' j) := by
  have hnew : ∀ j, j ≠ k → ∀ q ∈ addrs l', q ∉ addrs (view j) := by
    intro j hj q hq hother
    obtain hold | hfresh := hedited.source q hq
    · exact hlists.apart k j (Ne.symm hj) q hold hother
    · exact absurd (hlists.bounded j q hother) (Nat.not_lt_of_le hfresh)
  refine ⟨⟨hedited.tidy, ?_, ?_, fun i j hij q hq => ?_⟩, fun j p hj hp => ?_⟩
  · exact (Function.forall_update_iff view fun _ l => (addrs l).Nodup).mpr
      ⟨hedited.nodup, fun j _ => hlists.nodup j⟩
  · exact (Function.forall_update_iff view fun _ l => ∀ q ∈ addrs l, q < pool'.fresh).mpr
      ⟨hbounded, fun j _ q hq => (hlists.bounded j q hq).trans_le hedited.grown⟩
  · by_cases hi : i = k
    · rw [hi, update_self] at hq
      rw [update_of_ne fun hj => hij (hi.trans hj.symm)]
      exact hnew j (fun hj => hij (hi.trans hj.symm)) q hq
    · rw [update_of_ne hi] at hq
      by_cases hj : j = k
      · rw [hj, update_self]
        exact fun hmem => hnew i hi q hmem hq
      · rw [update_of_ne hj]
        exact hlists.apart i j hij q hq
  · rw [update_of_ne hj]
    exact hedited.linked_of_disjoint hlists.tidy hp fun q hq => hlists.apart j k hj q hq

section

variable (hkept : Kept s view)
include hkept

theorem Kept.lt_nextTid (hself : s.tcbs t = some self) : t < s.nextTid := by
  by_contra hge
  rw [hkept.unused t (Nat.le_of_not_lt hge)] at hself
  cases hself

section

variable {new : Tcb} (hself : s.tcbs t = some self) (hpml4 : new.pml4 = self.pml4)
  (hthread : new.isPthread = self.isPthread)
include hself hpml4 hthread

/-- A task keeps its root.  Tasks that are reaped and owners stay. -/
theorem Kept.replace :
    (∀ j, s.nextTid ≤ j → (s.setTcb t (some new)).tcbs j = none) ∧
    ∀ k, k ≠ 0 → k < s.nextPml4 → k ∈ s.freed ∨
      ∃ j u, (s.setTcb t (some new)).tcbs j = some u ∧ u.pml4 = k ∧ u.isPthread = false := by
  refine ⟨fun j hj => ?_, fun k hk hlt => ?_⟩
  · have hne : j ≠ t := fun heq =>
      absurd (hkept.lt_nextTid hself) (Nat.not_lt_of_le (heq ▸ hj))
    rw [setTcb_tcbs, if_neg hne]
    exact hkept.unused j hj
  · refine (hkept.owner k hk hlt).imp_right fun ⟨j, u, hu, hroot, howner⟩ => ?_
    by_cases heq : j = t
    · rw [heq, hself, Option.some.injEq] at hu
      subst hu
      exact ⟨t, new, by rw [setTcb_tcbs, if_pos rfl], hpml4.trans hroot, hthread.trans howner⟩
    · exact ⟨j, u, by rw [setTcb_tcbs, if_neg heq, hu], hroot, howner⟩

theorem Kept.retask (hlist : new.vmaList = self.vmaList) (hdead : new.dead = true) :
    Kept (s.setTcb t (some new)) view := by
  obtain ⟨hunused, howner⟩ := hkept.replace hself hpml4 hthread
  refine { hkept with
    unused := hunused
    task := forall_setTcb ?_ fun j u _ hu => hkept.task j u hu
    owner := howner }
  rintro _ ⟨⟩
  obtain ⟨hlinked, -, hstays⟩ := hkept.task t self hself
  rw [← hpml4] at hlinked hstays
  rw [← hlist] at hlinked
  exact ⟨hlinked, fun hlive => absurd (hdead.symm.trans hlive) Bool.false_ne_true.symm, hstays⟩

end

/-- A member edits the list.  If the head moves the member must be alone. -/
theorem Kept.edit (hself : s.tcbs t = some self)
    (hroot : self.pml4 ≠ 0) {result : VmaPool × ℕ} {list : List Vma}
    (hgives : Gives s.pool (view self.pml4) result list)
    (hhead : s.Alone t ∨ result.2 = self.vmaList) :
    ∃ view', Kept (s.edit t self result) view' := by
  obtain ⟨l', hlinked, hedited, -⟩ := hgives
  obtain ⟨hlists, hothers⟩ := hkept.edited hedited fun q hq => hlinked.lt_fresh hedited.tidy hq
  have htask := hkept.task t self hself
  obtain ⟨hpml4, hold⟩ := htask.linked hroot
  obtain ⟨hunused, howner⟩ :=
    @Kept.replace s view t self hkept { self with vmaList := result.2 } hself rfl rfl
  refine ⟨update view self.pml4 l', hlists, hunused, forall_setTcb ?_ fun j u heq hu => ?_,
    hkept.once, hkept.gone, howner, hkept.root⟩
  · rintro _ ⟨⟩
    refine ⟨fun _ => ⟨hpml4, ?_⟩, fun _ => hroot, htask.stays⟩
    simp only [update_self]
    exact hlinked
  · obtain ⟨hulinked, huser, hstays⟩ := hkept.task j u hu
    refine ⟨fun hne => ⟨(hulinked hne).1, ?_⟩, huser, hstays⟩
    by_cases hsame : u.pml4 = self.pml4
    · obtain ⟨-, hulinked⟩ := hulinked hne
      rw [hsame, update_self]
      rw [hsame] at hulinked
      obtain halone | hstays := hhead
      · exact absurd hsame (halone j (hkept.lt_nextTid hu) heq u hu self hself)
      · -- both entered the list by the same head
        rw [hulinked.head_eq, ← hold.head_eq, ← hstays]
        exact hlinked
    · exact hothers u.pml4 u.vmaList hsame (hulinked hne).2

theorem Kept.addBelow {new : Tcb} {n : ℕ} (hle : s.nextPml4 ≤ n)
    (hnew : new.Kept s.pool view n s.freed)
    (howns : ∀ k, s.nextPml4 ≤ k → k < n → new.pml4 = k ∧ new.isPthread = false) :
    Kept ({ s with nextPml4 := n }.addTcb new) view := by
  have htcbs := addTcb_tcbs { s with nextPml4 := n } new
  refine ⟨hkept.toLists, fun j hj => ?_, forall_setTcb ?_ fun j u _ hu => ?_, hkept.once,
    fun k hk => (hkept.gone k hk).imp_right hle.trans_lt', fun k hk hlt => ?_,
    hkept.root.trans_le hle⟩
  · have hge : s.nextTid + 1 ≤ j := hj
    rw [htcbs, if_neg (Nat.ne_of_gt hge)]
    exact hkept.unused j (Nat.le_of_succ_le hge)
  · rintro _ ⟨⟩
    exact hnew
  · obtain ⟨hlinked, huser, hstays⟩ := hkept.task j u hu
    exact ⟨fun hroot => (hlinked hroot).imp_left hle.trans_lt', huser, hstays⟩
  · by_cases hnew : s.nextPml4 ≤ k
    · exact .inr ⟨s.nextTid, new, by rw [htcbs, if_pos rfl], howns k hnew hlt⟩
    · obtain hfreed | ⟨j, u, hu, howner⟩ := hkept.owner k hk (Nat.lt_of_not_le hnew)
      · exact .inl hfreed
      · refine .inr ⟨j, u, ?_, howner⟩
        rw [htcbs, if_neg (Nat.ne_of_lt (hkept.lt_nextTid hu))]
        exact hu

theorem Kept.add {new : Tcb} (hnew : new.Kept s.pool view s.nextPml4 s.freed) :
    Kept (s.addTcb new) view :=
  hkept.addBelow le_rfl hnew fun _ hge hlt => absurd hlt hge.not_gt

theorem Kept.repool {pool' : VmaPool} {l' : List (ℕ × Vma)}
    (hedited : Edited s.pool pool' [] l') (hbounded : ∀ q ∈ addrs l', q < pool'.fresh) :
    Kept { s with pool := pool' } (update view s.nextPml4 l') := by
  obtain ⟨hlists, hothers⟩ := hkept.edited (k := s.nextPml4) hedited.of_nil hbounded
  refine { hlists, hkept with task := fun j u hu => ?_ }
  refine { hkept.task j u hu with linked := fun hroot => ?_ }
  obtain ⟨hlt, hlinked⟩ := (hkept.task j u hu).linked hroot
  exact ⟨hlt, hothers u.pml4 u.vmaList (Nat.ne_of_lt hlt) hlinked⟩

theorem Kept.spawn {head : ℕ} (hlinked : Linked s.pool head (view s.nextPml4)) :
    Kept ({ s with nextPml4 := s.nextPml4 + 1 }.addTcb
      ⟨s.nextPml4, false, head, false, false, true⟩) view := by
  refine hkept.addBelow (Nat.le_succ _) ⟨fun _ => ⟨Nat.lt_succ_self _, hlinked⟩,
    fun _ => Nat.ne_of_gt hkept.root, fun hmem => (hkept.gone _ hmem).2.ne rfl⟩ ?_
  exact fun k hge hlt => ⟨Nat.le_antisymm hge (Nat.le_of_lt_succ hlt), rfl⟩

theorem Kept.abandon : Kept { s with
      nextPml4 := s.nextPml4 + 1
      freed := s.nextPml4 :: s.freed } view := by
  have hroot := Nat.ne_of_gt hkept.root
  refine { hkept with
    task := fun j u hu => ?_
    once := List.nodup_cons.mpr ⟨fun hmem => (hkept.gone _ hmem).2.ne rfl, hkept.once⟩
    gone := List.forall_mem_cons.mpr ⟨⟨hroot, Nat.lt_succ_self _⟩,
      fun k hk => (hkept.gone k hk).imp_right Nat.lt_succ_of_lt⟩
    owner := fun k hk hlt => ?_
    root := Nat.succ_pos _ }
  · obtain ⟨hlinked, huser, hstays⟩ := hkept.task j u hu
    refine ⟨fun hne => (hlinked hne).imp_left Nat.lt_succ_of_lt, huser, fun hmem => ?_⟩
    obtain heq | hold := List.mem_cons.mp hmem
    · exact (hlinked (heq ▸ hroot)).1.ne heq
    · exact hstays hold
  · obtain hold | hnew := Nat.lt_succ_iff_lt_or_eq.mp hlt
    · exact (hkept.owner k hk hold).imp_left (mem_cons_of_mem _)
    · exact .inl (hnew ▸ mem_cons_self)

theorem Kept.fork (self : Tcb) (task : Bool) (slab : List Bool) :
    ∃ view', Kept (s.fork self task slab) view' := by
  have hempty : Linked s.pool 0 [] := rfl
  obtain ⟨list, l', hlinked, hedited, -⟩ :=
    chainCopy_gives hkept.tidy hempty nodup_nil (s.pool.walk s.pool.fresh self.vmaList) slab
  have hbounded : ∀ q ∈ addrs l', q < (chainCopy (s.pool.walk s.pool.fresh self.vmaList)
      s.pool 0 slab).2.1.fresh := fun q hq => hlinked.lt_fresh hedited.tidy hq
  rw [State.fork]
  generalize chainCopy (s.pool.walk s.pool.fresh self.vmaList) s.pool 0 slab = copy
    at hlinked hedited hbounded ⊢
  split_ifs with htask hok
  · exact ⟨view, hkept.abandon⟩
  · have hhead : Linked copy.2.1 copy.2.2 (update view s.nextPml4 l' s.nextPml4) := by
      rw [update_self]
      exact hlinked
    exact ⟨_, (hkept.repool hedited hbounded).spawn hhead⟩
  · have hfree : Edited s.pool (chainFree copy.2.1 copy.2.2) [] [] :=
      hedited.trans (chainFree_edited hedited.tidy hlinked hedited.nodup)
    have hgone := (hkept.repool hfree nofun).abandon
    exact ⟨_, hgone.add ⟨fun hne => absurd rfl hne, nofun, fun hmem => (hgone.gone 0 hmem).1 rfl⟩⟩

theorem Kept.remove (hself : s.tcbs t = some self)
    (hmember : self.pml4 ≠ 0 → self.isPthread = true) : Kept (s.setTcb t none) view := by
  refine { hkept with
    unused := fun j hj => ?_
    task := forall_setTcb nofun fun j u _ hu => hkept.task j u hu
    owner := fun k hk hlt => ?_ }
  · rw [setTcb_tcbs, hkept.unused j hj, ite_self]
  · obtain hfreed | ⟨j, u, hu, hroot, howner⟩ := hkept.owner k hk hlt
    · exact .inl hfreed
    · refine .inr ⟨j, u, ?_, hroot, howner⟩
      have hne : j ≠ t := by
        rintro rfl
        rw [hself, Option.some.injEq] at hu
        subst hu
        have hthread := hmember (hroot ▸ hk)
        rw [howner] at hthread
        cases hthread
      rw [setTcb_tcbs, if_neg hne, hu]

/-- The owner of a root is removed after all others, with the root. -/
theorem Kept.removeOwner (hself : s.tcbs t = some self)
    (hroot : self.pml4 ≠ 0) (halone : s.Alone t) :
    ∃ view', Kept ({ s with
      pool := chainFree s.pool self.vmaList
      freed := self.pml4 :: s.freed }.setTcb t none) view' := by
  obtain ⟨hpml4, hlinked⟩ := (hkept.task t self hself).linked hroot
  have hedited := chainFree_edited hkept.tidy hlinked (hkept.nodup self.pml4)
  obtain ⟨hlists, hothers⟩ := hkept.edited hedited nofun
  have htcbs := setTcb_tcbs { s with
    pool := chainFree s.pool self.vmaList
    freed := self.pml4 :: s.freed } t none
  refine ⟨update view self.pml4 [], hlists, fun j hj => ?_,
    forall_setTcb nofun fun j u heq hu => ?_,
    List.nodup_cons.mpr ⟨(hkept.task t self hself).stays, hkept.once⟩,
    List.forall_mem_cons.mpr ⟨⟨hroot, hpml4⟩, hkept.gone⟩, fun k hk hlt => ?_, hkept.root⟩
  · rw [htcbs]
    simp only [hkept.unused j hj, ite_self]
  · have hdiff := halone j (hkept.lt_nextTid hu) heq u hu self hself
    obtain ⟨hulinked, huser, hstays⟩ := hkept.task j u hu
    exact ⟨fun hne => (hulinked hne).imp_right (hothers _ _ hdiff), huser,
      fun hmem => (List.mem_cons.mp hmem).elim hdiff hstays⟩
  · by_cases hself' : k = self.pml4
    · exact .inl (hself' ▸ mem_cons_self)
    · obtain hfreed | ⟨j, u, hu, hk', howner⟩ := hkept.owner k hk hlt
      · exact .inl (mem_cons_of_mem _ hfreed)
      · refine .inr ⟨j, u, ?_, hk', howner⟩
        have hne : j ≠ t := by
          rintro rfl
          rw [hself, Option.some.injEq] at hu
          exact hself' (hk'.symm.trans (congrArg Tcb.pml4 hu.symm))
        rw [htcbs, if_neg hne]
        exact hu

theorem Kept.reap (hself : s.tcbs t = some self)
    (hfits : Event.Fits s (.reap t)) : ∃ view', Kept (s.reap t self) view' := by
  rw [State.reap]
  split_ifs with howner
  · obtain halone | hthread := hfits
    · exact hkept.removeOwner hself howner.1 halone
    · have hpthread := hthread self hself
      rw [howner.2] at hpthread
      cases hpthread
  · refine ⟨view, hkept.remove hself fun hroot => ?_⟩
    rw [not_and, Bool.not_eq_false] at howner
    exact howner hroot

theorem Kept.step {event : Event} (hfits : event.Fits s) : ∃ view', Kept (s.step event) view' := by
  cases event with
  | fork t task slab =>
    simp only [State.step]
    cases s.running t with
    | none => exact ⟨view, hkept⟩
    | some self => exact hkept.fork self task slab
  | clone t brk =>
    have hbrk : brk = true := hfits
    simp only [State.step, State.clone, if_pos hbrk]
    cases hself : s.running t with
    | none => exact ⟨view, hkept⟩
    | some self =>
      obtain ⟨htcb, hlive⟩ := running_eq_some hself
      obtain ⟨hlinked, huser, hstays⟩ := hkept.task t self htcb
      exact ⟨view, hkept.add ⟨hlinked, fun _ => huser hlive, hstays⟩⟩
  | mmap t new slab =>
    simp only [State.step]
    cases hself : s.running t with
    | none => exact ⟨view, hkept⟩
    | some self =>
      obtain ⟨htcb, hlive⟩ := running_eq_some hself
      have hroot := (hkept.task t self htcb).user hlive
      obtain ⟨list, hgives⟩ := chainInsert_gives hkept.tidy
        ((hkept.task t self htcb).linked hroot).2 (hkept.nodup _) new slab
      refine hkept.edit htcb hroot hgives (hfits.imp_right ?_)
      rintro ⟨u, hu, node, hnode, hbelow⟩
      cases htcb.symm.trans hu
      exact chainInsert_head hkept.tidy hnode hbelow slab
  | munmap t start stop slab =>
    simp only [State.step]
    cases hself : s.running t with
    | none => exact ⟨view, hkept⟩
    | some self =>
      obtain ⟨htcb, hlive⟩ := running_eq_some hself
      have hroot := (hkept.task t self htcb).user hlive
      have hgives := chainRemove_gives hkept.tidy
        ((hkept.task t self htcb).linked hroot).2 (hkept.nodup _) start stop slab
      refine hkept.edit htcb hroot hgives (hfits.imp_right fun hbeside => ?_)
      exact chainRemove_head slab fun node hnode => hbeside self htcb node hnode
  | exit t orphan =>
    simp only [State.step]
    cases hself : s.running t with
    | none => exact ⟨view, hkept⟩
    | some self =>
      exact ⟨view, hkept.retask (running_eq_some hself).1 rfl rfl rfl rfl⟩
  | wait t =>
    simp only [State.step]
    cases hself : s.tcbs t with
    | none => exact ⟨view, hkept⟩
    | some z =>
      simp only
      split_ifs with hdead
      · exact ⟨view, hkept.retask hself rfl rfl rfl hdead⟩
      · exact ⟨view, hkept⟩
  | reap t =>
    simp only [State.step]
    cases hself : s.tcbs t with
    | none => exact ⟨view, hkept⟩
    | some z =>
      simp only
      split_ifs
      · exact hkept.reap hself hfits
      · exact ⟨view, hkept⟩

end

theorem start_tcbs {u : Tcb} (hu : State.start.tcbs t = some u) :
    t = 0 ∧ u = ⟨1, false, 0, false, false, true⟩ := by
  by_cases hzero : t = 0
  · rw [start, hzero] at hu
    exact ⟨hzero, (Option.some.inj hu).symm⟩
  · rw [start] at hu
    simp only [update_of_ne hzero] at hu
    cases hu

theorem start_kept : Kept State.start fun _ => [] := by
  refine ⟨⟨empty_tidy, fun _ => nodup_nil, nofun, nofun⟩, fun t ht => ?_, fun t u hu => ?_,
    nodup_nil, nofun, fun k hk hlt => ?_, Nat.two_pos⟩
  · cases hu : start.tcbs t with
    | none => rfl
    | some u => exact absurd (start_tcbs hu).1 (Nat.ne_of_gt ht)
  · obtain ⟨-, rfl⟩ := start_tcbs hu
    exact ⟨fun _ => ⟨Nat.one_lt_two, rfl⟩, fun _ => Nat.one_ne_zero, nofun⟩
  · have hone : k = 1 := Nat.le_antisymm (Nat.le_of_lt_succ hlt) (Nat.pos_of_ne_zero hk)
    exact .inr ⟨0, _, rfl, hone.symm, rfl⟩

/-- In every run whose calls meet the condition: a root is freed at most once and
only when no unreaped task carries it; a root that no unreaped task carries was
freed; the list of every task consists of allocated nodes, and tasks with the same
root have the same list. -/
theorem address_space_lifetime
    (hrun : Reaches (guarded (fun s event => Event.Fits s event) State.Step) State.start s) :
    s.freed.Nodup ∧
    (∀ k ∈ s.freed, ∀ t u, s.tcbs t = some u → u.pml4 ≠ k) ∧
    (∀ k, k ≠ 0 → k < s.nextPml4 → (∀ t u, s.tcbs t = some u → u.pml4 ≠ k) → k ∈ s.freed) ∧
    (∀ t u, s.tcbs t = some u → u.pml4 ≠ 0 → ∃ l, Linked s.pool u.vmaList l ∧
      ∀ t' u', s.tcbs t' = some u' → u'.pml4 = u.pml4 → Linked s.pool u'.vmaList l) := by
  have hkept : ∃ view, Kept s view :=
    @Reaches.kept _ _ _ _ _ _ (fun s => ∃ view, Kept s view) hrun ⟨_, start_kept⟩
      fun ⟨_, hkept⟩ hfits => hkept.step hfits
  obtain ⟨view, hkept⟩ := hkept
  refine ⟨hkept.once, fun k hk t u hu heq => (hkept.task t u hu).stays (heq ▸ hk),
    fun k hk hlt hnone => ?_,
    fun t u hu hroot => ⟨view u.pml4, ((hkept.task t u hu).linked hroot).2, ?_⟩⟩
  · obtain hfreed | ⟨t, u, hu, hroot, -⟩ := hkept.owner k hk hlt
    · exact hfreed
    · exact absurd hroot (hnone t u hu)
  · intro t' u' hu' hsame
    rw [← hsame]
    exact ((hkept.task t' u' hu').linked (hsame ▸ hroot)).2

/-! ## A process and its thread -/

instance (s : State) (t : ℕ) : Decidable (s.Alone t) :=
  inferInstanceAs (Decidable (∀ j < s.nextTid, j ≠ t → _))

instance (s : State) (event : Event) : Decidable (event.Fits s) := by
  cases event <;> unfold Event.Fits <;> infer_instance

def anonymous (start stop : ℕ) : Vma := ⟨start, stop, 0, none, 0, 0⟩

/-- The process maps an area and starts thread `1`. -/
def groupRun : List Event := [.mmap 0 (anonymous 16 32) [true], .clone 0 true]

/-- The thread maps a second area and the process cuts a hole into it. -/
def sharedRun : List Event :=
  groupRun ++ [.mmap 1 (anonymous 64 96) [true], .munmap 0 72 80 [true, true]]

/-- Process and thread see the same three areas. -/
theorem address_space_lifetime_shared : (sharedRun.foldl State.step State.start).tcbs 0 =
        some ⟨1, false, 1, false, false, true⟩ ∧
      (sharedRun.foldl State.step State.start).tcbs 1 = some ⟨1, true, 1, false, false, true⟩ ∧
      ∃ l, Linked (sharedRun.foldl State.step State.start).pool 1 l := by
  have hleader : (sharedRun.foldl step start).tcbs 0 =
      some ⟨1, false, 1, false, false, true⟩ := by decide +kernel
  have hthread : (sharedRun.foldl step start).tcbs 1 =
      some ⟨1, true, 1, false, false, true⟩ := by decide +kernel
  obtain ⟨-, -, -, hlists⟩ :=
    @address_space_lifetime (sharedRun.foldl step start) (reaches_foldl (by decide +kernel))
  obtain ⟨l, hl, hsame⟩ := hlists 0 _ hleader Nat.one_ne_zero
  exact ⟨hleader, hthread, l, hsame 1 _ hthread rfl⟩

/-- The process exits before its thread and is reaped. -/
def leaderRun : List Event := groupRun ++ [.exit 0 true, .reap 0]

/-- The process unmaps the first area. -/
def firstRun : List Event := groupRun ++ [.munmap 0 16 32 []]

/-- The thread maps an area in front of the first one. -/
def frontRun : List Event := groupRun ++ [.mmap 1 (anonymous 0 8) [true]]

/-- The `clone` of the process finds no memory for a break cell. -/
def failedRun : List Event := [.mmap 0 (anonymous 16 32) [true], .clone 0 false]

/-- The root is freed while the thread still runs on it, and the list of the
thread begins with a freed node; so it does after `munmap` of the first area; an area
that the thread maps in front is not seen by the process; and a failed `clone` leaves a
member without a list. -/
theorem address_space_dangles : (leaderRun.foldl State.step State.start).freed = [1] ∧
      (leaderRun.foldl State.step State.start).tcbs 1 = some ⟨1, true, 1, false, false, true⟩ ∧
      (leaderRun.foldl State.step State.start).pool.nodes 1 = none ∧
      (firstRun.foldl State.step State.start).tcbs 1 = some ⟨1, true, 1, false, false, true⟩ ∧
      (firstRun.foldl State.step State.start).pool.nodes 1 = none ∧
      (frontRun.foldl State.step State.start).pool.walk 3 1 = [anonymous 16 32] ∧
      (frontRun.foldl State.step State.start).tcbs 1 = some ⟨1, true, 2, false, false, true⟩ ∧
      (frontRun.foldl State.step State.start).pool.walk 3 2 = [anonymous 0 8, anonymous 16 32] ∧
      (failedRun.foldl State.step State.start).tcbs 0 = some ⟨1, false, 1, false, false, true⟩ ∧
      (failedRun.foldl State.step State.start).tcbs 1 = some ⟨1, true, 0, false, false, false⟩ := by
  refine ⟨?_, ?_, ?_, ?_, ?_, ?_, ?_, ?_, ?_, ?_⟩
  all_goals decide +kernel

end AuraLite.AddressSpace

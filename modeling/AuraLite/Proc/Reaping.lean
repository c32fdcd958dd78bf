import AuraLite.Lib.Reachability
import AuraLite.Proc.Family

/-!
# Collecting exited threads

The process table: child lists and `n_children` under `children_lock`, the zombie
list under `zombie_lock`, and the task control blocks, under `fork`, `clone`, exit,
`waitpid`/`waitid` and the reaper.  A locked section is one step, together with the
unlocked stores in front of it; an exit has two and so has a reaping.
-/

namespace AuraLite.Reaping

/-- How far a task has come. -/
inductive Place
  | running
  /-- `state` is `THREAD_DEAD` and the children are given away. -/
  | exiting
  /-- On the zombie list. -/
  | queued
  /-- Taken off the zombie list by a reaper. -/
  | taken
  /-- Given up by `fork` or `clone`, on no list. -/
  | lost
deriving DecidableEq

/-- `collected` counts the wait calls without `WNOWAIT` that returned the exit
status. -/
structure Tcb extends Links where
  nChildren : ℕ
  waited : Bool
  place : Place
  collected : ℕ
deriving DecidableEq

structure State where
  tcbs : ℕ → Option Tcb
  nextTid : ℕ

/-- The test of `do_waitpid_ex` and of the adoption loop for a collected child. -/
def Tcb.done (u : Tcb) : Bool := u.dead && u.waited

def State.done (s : State) (c : ℕ) : Bool := (s.tcbs c).any Tcb.done

def State.set (s : State) (t : ℕ) (u : Option Tcb) : State :=
  { s with tcbs := Function.update s.tcbs t u }

/-- `kthread_create_unstarted` with the parent pointer set by the caller. -/
def State.create (s : State) (parent : ℕ) (isPthread : Bool) : State :=
  { s.set s.nextTid (some ⟨⟨some parent, [], [], isPthread, false⟩, 0, false, .running, 0⟩)
    with nextTid := s.nextTid + 1 }

/-- `do_fork`: the child is linked by `proc_children_link`. -/
def State.fork (s : State) (p : ℕ) (self : Tcb) : State :=
  (s.create p false).set p (some { self with
    children := s.nextTid :: self.children
    nChildren := self.nChildren + 1 })

/-- `do_fork` when the area list cannot be copied: the new task is marked dead and
waited, and nothing else is undone. -/
def State.forkFail (s : State) (p : ℕ) : State :=
  { s.set s.nextTid (some ⟨⟨some p, [], [], false, true⟩, 0, true, .lost, 0⟩)
    with nextTid := s.nextTid + 1 }

/-- `do_clone`: the thread is counted, not linked. -/
def State.clone (s : State) (p : ℕ) (self : Tcb) : State :=
  (s.create p true).set p (some { self with
    threads := s.nextTid :: self.threads
    nChildren := self.nChildren + 1 })

/-- `do_clone` when `kmalloc` has no shared break cell: the new task has its parent pointer,
is not counted and never started, and nothing is undone. -/
def State.cloneFail (s : State) (p : ℕ) : State :=
  { s.set s.nextTid (some ⟨⟨some p, [], [], true, false⟩, 0, false, .lost, 0⟩)
    with nextTid := s.nextTid + 1 }

/-- The children of an exiting task when `init` takes them.  Collected ones lose
their parent. -/
def State.adopt (s : State) (t : ℕ) (self init : Tcb) : State :=
  let adopted := self.children.filter fun c => !s.done c
  { s with tcbs := fun j =>
      if j = t then
        some { self with children := [], nChildren := 0, dead := true, place := .exiting }
      else if j = 1 then
        some { init with
          children := adopted.reverse ++ init.children
          nChildren := init.nChildren + adopted.length }
      else if j ∈ self.children then
        (s.tcbs j).map fun u => { u with parent := if u.done then none else some 1 }
      else s.tcbs j }

/-- The fallback without `init`. -/
def State.abandon (s : State) (t : ℕ) (self : Tcb) : State :=
  { s with tcbs := fun j =>
      if j = t then
        some { self with children := [], nChildren := 0, dead := true, place := .exiting }
      else if j ∈ self.children then
        (s.tcbs j).map fun u => { u with parent := none, waited := u.waited || u.dead }
      else s.tcbs j }

/-- `thread_exit_with_code` up to the end of its `children_lock` section. -/
def State.exitBegin (s : State) (t : ℕ) (self : Tcb) : State :=
  match s.tcbs 1 with
  | none => s.abandon t self
  | some init => if t = 1 then s.abandon t self else s.adopt t self init

/-- The rest of the exit: a task without parent collects itself; then it is put on
the zombie list. -/
def State.exitEnd (s : State) (t : ℕ) (self : Tcb) : State :=
  s.set t (some { self with
    waited := self.waited || self.parent.isNone
    place := .queued })

/-- The locked section of `do_waitpid_ex` and `do_waitid` that finds the exited
child `c`. -/
def State.wait (s : State) (p c : ℕ) (self child : Tcb) (nowait : Bool) : State :=
  if nowait then s
  else (s.set c (some { child with waited := true, collected := child.collected + 1 })).set
    p (some { self with nChildren := self.nChildren - 1 })

/-- `proc_children_unlink`, which counts the child a second time. -/
def State.unlink (s : State) (p t : ℕ) : State :=
  match s.tcbs p with
  | none => s
  | some q =>
    if t ∈ q.children then
      s.set p (some { q with
        children := q.children.erase t
        nChildren := q.nChildren - 1 })
    else s

/-- The second half of `thread_reap_zombies`. -/
def State.free (s : State) (t : ℕ) (z : Tcb) : State :=
  match z.parent with
  | none => s.set t none
  | some p => (s.unlink p t).set t none

inductive Event
  | fork (p : ℕ)
  | forkFail (p : ℕ)
  | clone (p : ℕ)
  | cloneFail (p : ℕ)
  | exitBegin (t : ℕ)
  | exitEnd (t : ℕ)
  | wait (p c : ℕ) (nowait : Bool)
  | reapTake (t : ℕ)
  | reapFree (t : ℕ)

def State.running (s : State) (t : ℕ) : Option Tcb :=
  (s.tcbs t).filter fun u => !u.dead && u.place != .lost

def State.step (s : State) : Event → State
  | .fork p =>
    match s.running p with
    | none => s
    | some self => s.fork p self
  | .forkFail p => if (s.running p).isSome then s.forkFail p else s
  | .clone p =>
    match s.running p with
    | none => s
    | some self => s.clone p self
  | .cloneFail p => if (s.running p).isSome then s.cloneFail p else s
  | .exitBegin t =>
    match s.running t with
    | none => s
    | some self => s.exitBegin t self
  | .exitEnd t =>
    match s.tcbs t with
    | none => s
    | some self => if self.place = .exiting then s.exitEnd t self else s
  | .wait p c nowait =>
    match s.running p, s.tcbs c with
    | some self, some child =>
      if c ∈ self.children ∧ child.dead ∧ child.waited = false then
        s.wait p c self child nowait
      else s
    | _, _ => s
  | .reapTake t =>
    match s.tcbs t with
    | none => s
    | some z =>
      if z.place = .queued ∧ z.waited then s.set t (some { z with place := .taken })
      else s
  | .reapFree t =>
    match s.tcbs t with
    | none => s
    | some z => if z.place = .taken then s.free t z else s

def State.Step (s : State) (event : Event) (s' : State) : Prop := s.step event = s'

/-- `init` alone. -/
def State.start : State where
  tcbs := Function.update (fun _ => none) 1
    (some ⟨⟨none, [], [], false, false⟩, 0, false, .running, 0⟩)
  nextTid := 2

/-- The condition on the steps: the area copy of `fork` does not fail, nor the break cell
of `clone`; `init` does not exit, nor does a thread made by `clone`, nor a task that has made one; a task is
reaped when its parent has no uncollected child left. -/
def Event.Fits (s : State) : Event → Prop
  | .forkFail _ | .cloneFail _ => False
  | .exitBegin t => t ≠ 1 ∧ ∀ u ∈ s.tcbs t, u.isPthread = false ∧ u.threads = []
  | .reapFree t =>
    ∀ z ∈ s.tcbs t, ∀ p ∈ z.parent, ∀ q ∈ s.tcbs p, q.nChildren = 0
  | _ => True

/-! ## The process table -/

def State.links (s : State) (j : ℕ) : Option Links := (s.tcbs j).map Tcb.toLinks

structure Tcb.Ok (u : Tcb) : Prop where
  dead : u.waited = true → u.dead = true
  once : u.collected ≤ if u.waited then 1 else 0
  place : u.dead = true ↔ u.place ≠ .running
  taken : u.place = .taken → u.waited = true
  found : u.place ≠ .lost

structure Sound (s : State) : Prop where
  unused : ∀ t, s.nextTid ≤ t → s.tcbs t = none
  family : Family s.links
  parented : ∀ t u, s.tcbs t = some u → t ≠ 1 → u.parent = none → u.waited = true
  task : ∀ t u, s.tcbs t = some u → u.Ok ∧
    u.nChildren = (u.children.filter (!s.done ·)).length + u.threads.length

variable {s s' : State} {p t c : ℕ} {self : Tcb}

open List Option State

section

variable (hself : s.tcbs t = some self)
include hself

theorem links_eq : s.links t = some self.toLinks := by
  rw [links, hself]
  rfl

theorem done_eq : s.done t = self.done := by
  rw [done, hself]
  rfl

theorem Sound.not_waited (hsound : Sound s) (hlive : self.dead = false) : self.waited = false:= by
  obtain ⟨hok, -⟩ := hsound.task t self hself
  cases hwaited : self.waited with
  | false => rfl
  | true => exact absurd (hlive.symm.trans (hok.dead hwaited)) Bool.false_ne_true

theorem Sound.lt_nextTid (hsound : Sound s) : t < s.nextTid := by
  by_contra hge
  rw [hsound.unused t (Nat.le_of_not_lt hge)] at hself
  cases hself

theorem Sound.parent (hsound : Sound s)
    (hparent : self.parent = some p) : ∃ q, s.tcbs p = some q ∧ q.dead = false ∧
      if self.isPthread then t ∈ q.threads else t ∈ q.children := by
  have hmem := (hsound.family.agree p t _).mpr (place_eq.mpr ⟨_, links_eq hself, hparent, rfl⟩)
  obtain ⟨q, hq, hin⟩ := mem_kids.mp hmem
  obtain ⟨q, hq', rfl⟩ := map_eq_some_iff.mp hq
  refine ⟨q, hq', Bool.eq_false_iff.mpr fun hdead => ?_, hin⟩
  rw [(hsound.family.idle p _ hq hdead).2] at hmem
  exact not_mem_nil hmem

end

theorem running_eq_some (hself : s.running t = some self) :
    s.tcbs t = some self ∧ self.dead = false := by
  obtain ⟨htcb, hruns⟩ := filter_eq_some_iff.mp hself
  rw [Bool.and_eq_true, Bool.not_eq_true'] at hruns
  exact ⟨htcb, hruns.1⟩

/-- A child is not the parent of itself, nor has it two parents. -/
theorem Sound.child (hsound : Sound s) (thread : Bool) (hself : s.tcbs p = some self)
    (hc : if thread then c ∈ self.threads else c ∈ self.children) :
    ∃ u, s.tcbs c = some u ∧ u.parent = some p ∧ u.isPthread = thread ∧ c ≠ p := by
  have hplace := (hsound.family.agree p c thread).mp (mem_kids.mpr ⟨_, links_eq hself, hc⟩)
  obtain ⟨u, hu, hparent, hkind⟩ := place_eq.mp hplace
  obtain ⟨u, hu', rfl⟩ := map_eq_some_iff.mp hu
  refine ⟨u, hu', hparent, hkind, ?_⟩
  rintro rfl
  exact hsound.family.irrefl c thread hplace

theorem Sound.nodup (hsound : Sound s) (hself : s.tcbs p = some self) :
    self.children.Nodup ∧ self.threads.Nodup := by
  have hnodup := hsound.family.nodup p
  simp only [kids, links_eq hself] at hnodup
  exact ⟨hnodup false, hnodup true⟩

theorem filter_done_congr {l : List ℕ} (hdone : ∀ c ∈ l, s'.done c = s.done c) :
    l.filter (!s'.done ·) = l.filter (!s.done ·) :=
  filter_congr fun c hc => by rw [hdone c hc]

theorem new_ok (links : Links) (hlive : links.dead = false) :
    Tcb.Ok ⟨links, 0, false, .running, 0⟩ := by
  refine ⟨nofun, Nat.zero_le _, ?_, ?_, ?_⟩
  · simp [hlive]
  · rintro ⟨⟩
  · rintro ⟨⟩

/-- A task that has got one more child or thread. -/
def Tcb.grow (self : Tcb) (n : ℕ) (thread : Bool) : Tcb :=
  { self with toLinks := self.toLinks.grow n thread, nChildren := self.nChildren + 1 }

theorem Sound.grow (hsound : Sound s) {thread : Bool} (hself : s.tcbs p = some self)
    (hlive : self.dead = false)
    (hnext : s'.nextTid = s.nextTid + 1)
    (htcbs : ∀ j, s'.tcbs j = if j = p then some (self.grow s.nextTid thread)
      else if j = s.nextTid then
        some ⟨⟨some p, [], [], thread, false⟩, 0, false, .running, 0⟩
      else s.tcbs j) : Sound s' := by
  have hp := hsound.lt_nextTid hself
  have hfresh : s.tcbs s.nextTid = none := hsound.unused _ le_rfl
  have hdead := (grow_fields self.toLinks s.nextTid thread).2
  have hwhole : (self.grow s.nextTid thread).done = self.done := by
    rw [Tcb.done, Tcb.done]
    exact congrArg (· && self.waited) hdead
  have hdone : ∀ c, s'.done c = s.done c := by
    intro c
    rw [done, htcbs]
    split_ifs with h₁ h₂
    · rw [h₁, done_eq hself, ← hwhole]
      rfl
    · rw [h₂, done, hfresh]
      rfl
    · rfl
  refine ⟨fun j hj => ?_, ?_, fun j u hu hj hparent => ?_, fun r q hq => ?_⟩
  · rw [hnext] at hj
    rw [htcbs, if_neg (hp.trans hj).ne', if_neg (Nat.ne_of_gt hj)]
    exact hsound.unused j (Nat.le_of_succ_le hj)
  · refine @Family.grow s.links s'.links p s.nextTid self.toLinks thread hsound.family
      (links_eq hself) hlive (by rw [links, hfresh]; rfl) fun j => ?_
    rw [links, htcbs]
    split_ifs <;> rfl
  · rw [htcbs] at hu
    split_ifs at hu with h₁
    · cases hu
      have hold := (grow_fields self.toLinks s.nextTid thread).1
      exact hsound.parented p self hself (h₁ ▸ hj) (hold.symm.trans hparent)
    · cases hu
      cases hparent
    · exact hsound.parented j u hu hj hparent
  · rw [filter_done_congr fun c _ => hdone c]
    rw [htcbs] at hq
    split_ifs at hq with h₁ h₂
    · cases hq
      obtain ⟨hok, hcount⟩ := hsound.task p self hself
      have hnew : s.done s.nextTid = false := by rw [done, hfresh]; rfl
      refine ⟨⟨fun h => hdead.trans (hok.dead h), hok.once,
        (Bool.eq_iff_iff.mp hdead).trans hok.place, hok.taken, hok.found⟩, ?_⟩
      cases thread with
      | false =>
        simp only [Tcb.grow, Links.grow, Bool.false_eq_true, if_false, filter_cons,
          hnew, Bool.not_false, if_true, length_cons]
        omega
      | true =>
        simp only [Tcb.grow, Links.grow, if_true, length_cons]
        omega
    · cases hq
      exact ⟨new_ok _ rfl, rfl⟩
    · exact hsound.task r q hq

theorem set_tcbs (s : State) (t : ℕ) (u : Option Tcb) (j : ℕ) :
    (s.set t u).tcbs j = if j = t then u else s.tcbs j :=
  Function.update_apply _ _ _ _

theorem create_tcbs (s : State) (parent : ℕ) (isPthread : Bool) (j : ℕ) :
    (s.create parent isPthread).tcbs j = if j = s.nextTid then
      some ⟨⟨some parent, [], [], isPthread, false⟩, 0, false, .running, 0⟩
    else s.tcbs j :=
  Function.update_apply _ _ _ _

section

variable (hsound : Sound s)
include hsound

theorem Sound.fork (hself : s.tcbs p = some self)
    (hlive : self.dead = false) : Sound (s.fork p self) := by
  refine @Sound.grow s _ p self hsound false hself hlive rfl fun j => ?_
  rw [State.fork, set_tcbs, create_tcbs]
  rfl

theorem Sound.clone (hself : s.tcbs p = some self)
    (hlive : self.dead = false) : Sound (s.clone p self) := by
  refine @Sound.grow s _ p self hsound true hself hlive rfl fun j => ?_
  rw [State.clone, set_tcbs, create_tcbs]
  rfl

/-- A task is changed outside of its links.  Only a task that nobody counts may
become collected. -/
theorem Sound.retouch {new : Tcb} (hself : s.tcbs t = some self)
    (hlinks : new.toLinks = self.toLinks) (hcount : new.nChildren = self.nChildren)
    (hok : new.Ok) (hwaited : self.waited = true → new.waited = true)
    (hdone : self.parent ≠ none → new.done = self.done) :
    Sound (s.set t (some new)) := by
  have hsame : (s.set t (some new)).links = s.links := by
    funext j
    rw [links, set_tcbs]
    split_ifs with heq
    · rw [heq, links_eq hself, map_some, hlinks]
    · rfl
  have hfilter : ∀ r q, s.tcbs r = some q → q.children.filter (!(s.set t (some new)).done ·) =
        q.children.filter (!s.done ·) := by
    intro r q hq
    refine filter_done_congr fun c hc => ?_
    obtain ⟨u, hu, hparent, -⟩ := hsound.child false hq hc
    rw [done, set_tcbs]
    split_ifs with heq
    · rw [heq] at hu ⊢
      cases hself.symm.trans hu
      rw [done_eq hself]
      exact hdone (hparent ▸ some_ne_none r)
    · rfl
  refine ⟨fun j hj => ?_, hsame ▸ hsound.family, fun j u hu hj hparent => ?_,
    fun r q hq => ?_⟩
  · have hlt := hsound.lt_nextTid hself
    rw [set_tcbs, if_neg (hlt.trans_le hj).ne']
    exact hsound.unused j hj
  · rw [set_tcbs] at hu
    split_ifs at hu with heq
    · cases hu
      rw [hlinks] at hparent
      exact hwaited (hsound.parented t self hself (heq ▸ hj) hparent)
    · exact hsound.parented j u hu hj hparent
  · rw [set_tcbs] at hq
    split_ifs at hq with heq
    · cases hq
      rw [hlinks, hcount, hfilter t self hself]
      exact ⟨hok, (hsound.task t self hself).2⟩
    · rw [hfilter r q hq]
      exact hsound.task r q hq

theorem Sound.exitEnd (hself : s.tcbs t = some self)
    (hplace : self.place = .exiting) : Sound (s.exitEnd t self) := by
  obtain ⟨hok, -⟩ := hsound.task t self hself
  have hdead : self.dead = true := hok.place.mpr (by rw [hplace]; exact nofun)
  refine hsound.retouch hself rfl rfl ?_ (fun h => ?_) fun hparent => ?_
  · refine ⟨fun _ => hdead, ?_, iff_of_true hdead nofun, nofun, nofun⟩
    refine hok.once.trans ?_
    cases self.waited with
    | false => exact Nat.zero_le _
    | true => exact le_rfl
  · rw [h]
    rfl
  · cases hnone : self.parent with
    | none => exact absurd hnone hparent
    | some r => simp [Tcb.done]

theorem Sound.take (hself : s.tcbs t = some self)
    (hwaited : self.waited = true) :
    Sound (s.set t (some { self with place := .taken })) := by
  obtain ⟨hok, -⟩ := hsound.task t self hself
  have hdead : self.dead = true := hok.dead hwaited
  refine hsound.retouch hself rfl rfl ?_ id fun _ => rfl
  exact ⟨hok.dead, hok.once, iff_of_true hdead nofun, fun _ => hwaited, nofun⟩

/-- Collecting one child takes it out of the count of its parent, once. -/
theorem Sound.wait {kid : Tcb} (hself : s.tcbs p = some self)
    (hkid : s.tcbs c = some kid) (hc : c ∈ self.children) (hdead : kid.dead = true)
    (hwaited : kid.waited = false) (nowait : Bool) :
    Sound (s.wait p c self kid nowait) := by
  rw [State.wait]
  split_ifs
  · exact hsound
  obtain ⟨u, hu, hparent, -, hcp⟩ := hsound.child false hself hc
  cases hkid.symm.trans hu
  generalize hs' : (s.set c (some { kid with
    waited := true, collected := kid.collected + 1 })).set p
      (some { self with nChildren := self.nChildren - 1 }) = s'
  have htcbs : ∀ j, s'.tcbs j =
      if j = p then some { self with nChildren := self.nChildren - 1 }
      else if j = c then some { kid with waited := true, collected := kid.collected + 1 }
      else s.tcbs j := by
    intro j
    rw [← hs', set_tcbs, set_tcbs]
  have hnext : s'.nextTid = s.nextTid := by rw [← hs']; rfl
  have hlinks : s'.links = s.links := by
    funext j
    rw [links, htcbs]
    split_ifs with h₁ h₂
    · rw [h₁, links_eq hself]
      rfl
    · rw [h₂, links_eq hkid]
      rfl
    · rfl
  have hself' : s'.done c = true := by
    have hc' : s'.tcbs c = some { kid with
        waited := true, collected := kid.collected + 1 } := by
      rw [htcbs, if_neg hcp, if_pos rfl]
    rw [done_eq hc', Tcb.done, hdead]
    rfl
  have hkidDone : s.done c = false := by
    rw [done_eq hkid, Tcb.done, hwaited, Bool.and_false]
  have hother : ∀ j, j ≠ c → s'.done j = s.done j := by
    intro j hj
    rw [done, htcbs]
    split_ifs with h₁
    · rw [h₁, done_eq hself]
      rfl
    · rfl
  refine ⟨fun j hj => ?_, hlinks ▸ hsound.family, fun j u hu hj hnone => ?_, fun r q hq => ?_⟩
  · rw [hnext] at hj
    rw [htcbs, if_neg ((hsound.lt_nextTid hself).trans_le hj).ne',
      if_neg ((hsound.lt_nextTid hkid).trans_le hj).ne']
    exact hsound.unused j hj
  · rw [htcbs] at hu
    split_ifs at hu with h₁
    · cases hu
      exact hsound.parented p self hself (h₁ ▸ hj) hnone
    · cases hu
      rfl
    · exact hsound.parented j u hu hj hnone
  · have hcount : ∀ q₀, s.tcbs r = some q₀ → r ≠ p → q₀.Ok ∧
        q₀.nChildren = (q₀.children.filter (!s'.done ·)).length + q₀.threads.length := by
      intro q₀ hq₀ hr
      rw [filter_done_congr fun j hj => hother j ?_]
      · exact hsound.task r q₀ hq₀
      · rintro rfl
        obtain ⟨u', hu', hparent', -⟩ := hsound.child false hq₀ hj
        cases hkid.symm.trans hu'
        exact hr (some.inj (hparent'.symm.trans hparent))
    rw [htcbs] at hq
    split_ifs at hq with h₁ h₂
    · cases hq
      obtain ⟨hok, hold⟩ := hsound.task p self hself
      -- the filtered list loses exactly the collected child
      have hnodup := (hsound.nodup hself).1
      have herase : self.children.filter (!s'.done ·) =
          (self.children.filter (!s.done ·)).erase c := by
        rw [(hnodup.filter _).erase_eq_filter, List.filter_filter]
        refine filter_congr fun j _ => ?_
        by_cases hj : j = c
        · rw [hj, hself', hkidDone]
          simp
        · simp [hother j hj, hj]
      have hmem : c ∈ self.children.filter (!s.done ·) :=
        mem_filter.mpr ⟨hc, by rw [hkidDone]; rfl⟩
      have hpos := length_pos_of_mem hmem
      refine ⟨{ hok with }, ?_⟩
      rw [herase, length_erase_of_mem hmem]
      simp only
      omega
    · cases hq
      obtain ⟨hok, hcounted⟩ := hcount kid (h₂ ▸ hkid) h₁
      have honce := hok.once
      rw [hwaited] at honce
      refine ⟨⟨fun _ => hdead, ?_, hok.place, fun _ => rfl, hok.found⟩, hcounted⟩
      simpa using honce
    · exact hcount q hq h₁

/-- The children of an exiting task are counted by `init`. -/
theorem Sound.adopt {init : Tcb} (hself : s.tcbs t = some self)
    (hlive : self.dead = false) (ht : t ≠ 1) (hpthread : self.isPthread = false)
    (hthreads : self.threads = []) (hinit : s.tcbs 1 = some init) :
    Sound (s.adopt t self init) := by
  have hwaited := hsound.not_waited hself hlive
  have htcbs : ∀ j, (s.adopt t self init).tcbs j = if j = t then
      some { self with children := [], nChildren := 0, dead := true, place := .exiting }
      else if j = 1 then some { init with
        children := (self.children.filter (!s.done ·)).reverse ++ init.children
        nChildren := init.nChildren + (self.children.filter (!s.done ·)).length }
      else if j ∈ self.children then (s.tcbs j).map fun u =>
        { u with toLinks := u.toLinks.rehome (s.done j) }
      else s.tcbs j := by
    intro j
    simp only [State.adopt]
    by_cases hmem : j ∈ self.children
    · obtain ⟨u, hu, -⟩ := hsound.child false hself hmem
      rw [if_pos hmem, if_pos hmem, hu, done_eq hu]
      rfl
    · rw [if_neg hmem, if_neg hmem]
  have hdone : ∀ c, (s.adopt t self init).done c = s.done c := by
    intro c
    rw [State.done, htcbs]
    split_ifs with h₁ h₂
    · rw [h₁, done_eq hself]
      simp [Tcb.done, hwaited]
    · rw [h₂, done_eq hinit]
      rfl
    · rw [State.done]
      cases s.tcbs c <;> rfl
    · rfl
  refine ⟨fun j hj => ?_, ?_, fun j u hu hj hparent => ?_, fun r q hq => ?_⟩
  · have hnone : s.tcbs j = none := hsound.unused j hj
    rw [htcbs, if_neg ((hsound.lt_nextTid hself).trans_le hj).ne',
      if_neg ((hsound.lt_nextTid hinit).trans_le hj).ne', hnone]
    exact ite_self _
  · refine @Family.adopt s.links _ t self.toLinks init.toLinks s.done hsound.family
      (links_eq hself) ht hthreads hpthread (links_eq hinit) fun j => ?_
    rw [State.links, htcbs]
    split_ifs
    · rfl
    · rfl
    · rw [State.links, Option.map_map, Option.map_map]
      rfl
    · rfl
  · rw [htcbs] at hu
    split_ifs at hu with h₁ h₂
    · cases hu
      exact hsound.parented t self hself ht hparent
    · obtain ⟨kid, hkid, rfl⟩ := map_eq_some_iff.mp hu
      -- a child without a parent now is a collected one
      rw [done_eq hkid] at hparent
      cases hdone : kid.done with
      | false => simp [Links.rehome, hdone] at hparent
      | true => exact (Bool.and_eq_true_iff.mp hdone).2
    · exact hsound.parented j u hu hj hparent
  · rw [filter_done_congr fun c _ => hdone c]
    rw [htcbs] at hq
    split_ifs at hq with h₁ h₂ h₃
    · cases hq
      obtain ⟨hok, -⟩ := hsound.task t self hself
      refine ⟨⟨fun _ => rfl, hok.once, by simp, by simp, by simp⟩, ?_⟩
      rw [hthreads]
      rfl
    · cases hq
      obtain ⟨hok, hcount⟩ := hsound.task 1 init hinit
      refine ⟨{ hok with }, ?_⟩
      rw [filter_append, length_append, filter_reverse,
        length_reverse, List.filter_filter]
      simp only [Bool.and_self]
      omega
    · obtain ⟨u, hu, rfl⟩ := map_eq_some_iff.mp hq
      obtain ⟨hok, hcount⟩ := hsound.task r u hu
      exact ⟨{ hok with }, hcount⟩
    · exact hsound.task r q hq

end

section

variable (hsound : Sound s) (hself : s.tcbs t = some self)
include hsound hself

theorem Sound.parent_of_dead (hdead : self.dead = true) (hparent : self.parent = some p) :
    ∃ q, s.tcbs p = some q ∧ q.dead = false ∧ t ∈ q.children := by
  obtain ⟨q, hq, hlive, hmem⟩ := hsound.parent hself hparent
  rw [(hsound.family.idle t _ (links_eq hself) hdead).1] at hmem
  exact ⟨q, hq, hlive, hmem⟩

theorem Sound.free_tcbs (hdead : self.dead = true) (j : ℕ) :
    (s.free t self).tcbs j = if j = t then none
      else if self.parent = some j then (s.tcbs j).map fun q =>
        { q with children := q.children.erase t, nChildren := q.nChildren - 1 }
      else s.tcbs j := by
  rw [free]
  cases hparent : self.parent with
  | none =>
    rw [set_tcbs]
    rfl
  | some r =>
    obtain ⟨q, hq, -, hmem⟩ := hsound.parent_of_dead hself hdead hparent
    simp only [unlink, hq, if_pos hmem]
    rw [set_tcbs, set_tcbs]
    by_cases hj : j = r
    · rw [if_pos hj, if_pos (congrArg some hj.symm), hj, hq]
      rfl
    · rw [if_neg hj, if_neg fun heq => hj (some.inj heq).symm]

/-- The reaper takes the task off its parent's list; the parent's counter is
already zero. -/
theorem Sound.free (hplace : self.place = .taken)
    (hfits : ∀ r ∈ self.parent, ∀ q ∈ s.tcbs r, q.nChildren = 0) : Sound (s.free t self) := by
  obtain ⟨hok, -⟩ := hsound.task t self hself
  have hdead : self.dead = true := hok.dead (hok.taken hplace)
  have htcbs := hsound.free_tcbs hself hdead
  have hnext : (s.free t self).nextTid = s.nextTid := by
    rw [State.free]
    cases hparent : self.parent with
    | none => rfl
    | some r =>
      obtain ⟨q, hq, -, hmem⟩ := hsound.parent_of_dead hself hdead hparent
      simp only [unlink, hq, if_pos hmem]
      rfl
  have hdone : ∀ c, c ≠ t → (s.free t self).done c = s.done c := by
    intro c hc
    rw [done, htcbs, if_neg hc]
    split_ifs
    · rw [done]
      cases s.tcbs c <;> rfl
    · rfl
  refine ⟨fun j hj => ?_, ?_, fun j u hu hj hparent => ?_, fun r q hq => ?_⟩
  · have hnone : s.tcbs j = none := hsound.unused j (hnext ▸ hj)
    rw [htcbs, hnone]
    simp
  · refine hsound.family.remove (links_eq hself) hdead fun j => ?_
    rw [links, htcbs]
    split_ifs
    · rfl
    · rw [links, Option.map_map, Option.map_map]
      rfl
    · rfl
  · rw [htcbs] at hu
    split_ifs at hu
    · obtain ⟨q, hq, rfl⟩ := map_eq_some_iff.mp hu
      exact hsound.parented j q hq hj hparent
    · exact hsound.parented j u hu hj hparent
  · rw [htcbs] at hq
    split_ifs at hq with h₁ h₂
    · obtain ⟨q₀, hq₀, rfl⟩ := map_eq_some_iff.mp hq
      have hzero := hfits r h₂ q₀ hq₀
      obtain ⟨hok, hcount⟩ := hsound.task r q₀ hq₀
      rw [hzero] at hcount
      obtain ⟨hfilter, hthreads⟩ := Nat.add_eq_zero_iff.mp hcount.symm
      have hnodup := (hsound.nodup hq₀).1
      have hsub : ((q₀.children.erase t).filter
          (!(s.free t self).done ·)).length ≤ (q₀.children.filter (!s.done ·)).length := by
        rw [filter_congr fun c hc => by
          rw [hdone c fun heq => hnodup.not_mem_erase (heq ▸ hc)]]
        exact (erase_sublist.filter _).length_le
      refine ⟨{ hok with }, ?_⟩
      simp only
      omega
    · rw [filter_done_congr fun c hc => hdone c ?_]
      · exact hsound.task r q hq
      · rintro rfl
        obtain ⟨u, hu, hparent, -⟩ := hsound.child false hq hc
        cases hself.symm.trans hu
        exact h₂ hparent

end

theorem Sound.step (hsound : Sound s) {event : Event} (hfits : event.Fits s) :
    Sound (s.step event) := by
  cases event with
  | fork p =>
    simp only [State.step]
    cases hself : s.running p with
    | none => exact hsound
    | some self =>
      obtain ⟨htcb, hlive⟩ := running_eq_some hself
      exact hsound.fork htcb hlive
  | forkFail p | cloneFail p => exact absurd hfits id
  | clone p =>
    simp only [State.step]
    cases hself : s.running p with
    | none => exact hsound
    | some self =>
      obtain ⟨htcb, hlive⟩ := running_eq_some hself
      exact hsound.clone htcb hlive
  | exitBegin t =>
    simp only [State.step]
    cases hself : s.running t with
    | none => exact hsound
    | some self =>
      obtain ⟨htcb, hlive⟩ := running_eq_some hself
      obtain ⟨ht, hlone⟩ := hfits
      obtain ⟨hpthread, hthreads⟩ := hlone self htcb
      obtain ⟨i, hi, -⟩ := hsound.family.init
      obtain ⟨init, hinit, -⟩ := map_eq_some_iff.mp hi
      simp only [exitBegin, hinit, if_neg ht]
      exact hsound.adopt htcb hlive ht hpthread hthreads hinit
  | exitEnd t =>
    simp only [State.step]
    cases hself : s.tcbs t with
    | none => exact hsound
    | some self =>
      simp only
      split_ifs with hplace
      · exact hsound.exitEnd hself hplace
      · exact hsound
  | wait p c nowait =>
    simp only [State.step]
    cases hself : s.running p with
    | none => exact hsound
    | some self =>
      cases hkid : s.tcbs c with
      | none => exact hsound
      | some kid =>
        have htcb := (running_eq_some hself).1
        simp only
        split_ifs with hready
        · obtain ⟨hc, hdead, hwaited⟩ := hready
          exact hsound.wait htcb hkid hc hdead hwaited nowait
        · exact hsound
  | reapTake t =>
    simp only [State.step]
    cases hself : s.tcbs t with
    | none => exact hsound
    | some z =>
      simp only
      split_ifs with hready
      · exact hsound.take hself hready.2
      · exact hsound
  | reapFree t =>
    simp only [State.step]
    cases hself : s.tcbs t with
    | none => exact hsound
    | some z =>
      simp only
      split_ifs with hplace
      · exact hsound.free hself hplace (hfits z hself)
      · exact hsound

/-! ## Every exited thread is collected once -/

open Reachability

/-- The number of tasks with this parent pointer that are not collected. -/
def State.uncollected (s : State) (p : ℕ) : ℕ :=
  ((range s.nextTid).filter fun c =>
    (s.tcbs c).any fun u => u.parent == some p && !u.done).length

theorem Sound.uncollected_eq (hsound : Sound s) (hself : s.tcbs p = some self) :
    self.nChildren = s.uncollected p := by
  obtain ⟨hnodup, hnodup'⟩ := hsound.nodup hself
  have hdisjoint : ∀ c ∈ self.children.filter (!s.done ·), c ∉ self.threads := by
    intro c hc hthread
    obtain ⟨u, hu, -, hkind, -⟩ := hsound.child false hself (mem_of_mem_filter hc)
    obtain ⟨u', hu', -, hkind', -⟩ := hsound.child true hself hthread
    cases hu.symm.trans hu'
    exact absurd (hkind.symm.trans hkind') Bool.false_ne_true
  have hperm : (self.children.filter (!s.done ·) ++ self.threads).Perm
      ((range s.nextTid).filter fun c =>
        (s.tcbs c).any fun u => u.parent == some p && !u.done) := by
    refine (perm_ext_iff_of_nodup ?_ (nodup_range.filter _)).mpr fun c => ?_
    · exact nodup_append'.mpr ⟨hnodup.filter _, hnodup', fun c => hdisjoint c⟩
    · simp only [mem_append, mem_filter, mem_range, Option.any_eq_true,
        Bool.and_eq_true, beq_iff_eq]
      constructor
      · rintro (⟨hc, hdone⟩ | hc)
        · obtain ⟨u, hu, hparent, -⟩ := hsound.child false hself hc
          exact ⟨hsound.lt_nextTid hu, u, hu, hparent, done_eq hu ▸ hdone⟩
        · obtain ⟨u, hu, hparent, hkind, -⟩ := hsound.child true hself hc
          refine ⟨hsound.lt_nextTid hu, u, hu, hparent, ?_⟩
          cases hdead : u.dead with
          | false => rw [Tcb.done, hdead]; rfl
          | true =>
            obtain ⟨hkind', -⟩ := hsound.family.idle c _ (links_eq hu) hdead
            exact absurd (hkind'.symm.trans hkind) Bool.false_ne_true
      · rintro ⟨-, u, hu, hparent, hdone⟩
        obtain ⟨q, hq, -, hmem⟩ := hsound.parent hu hparent
        cases hself.symm.trans hq
        split_ifs at hmem
        · exact .inr hmem
        · exact .inl ⟨hmem, (done_eq hu).symm ▸ hdone⟩
  rw [(hsound.task p self hself).2, uncollected, ← hperm.length_eq, length_append]

theorem start_tcbs {u : Tcb} (hu : State.start.tcbs t = some u) :
    t = 1 ∧ u = ⟨⟨none, [], [], false, false⟩, 0, false, .running, 0⟩ := by
  by_cases hone : t = 1
  · rw [start, hone] at hu
    exact ⟨hone, (some.inj hu).symm⟩
  · rw [start] at hu
    simp only [Function.update_of_ne hone] at hu
    cases hu

theorem start_sound : Sound State.start := by
  have hlinks : ∀ j u, start.links j = some u → j = 1 ∧ u = ⟨none, [], [], false, false⟩ := by
    intro j u hu
    obtain ⟨u, hu', rfl⟩ := map_eq_some_iff.mp hu
    obtain ⟨hj, rfl⟩ := start_tcbs hu'
    exact ⟨hj, rfl⟩
  have hkids : ∀ p thread, kids start.links p thread = [] := by
    intro p thread
    cases hp : start.links p with
    | none => rw [kids, hp, elim_none]
    | some q =>
      obtain ⟨-, rfl⟩ := hlinks p q hp
      cases thread <;> rw [kids, hp] <;> rfl
  have hplace : ∀ c, place start.links c = none := by
    intro c
    cases hc : start.links c with
    | none => rw [place, hc, bind_none]
    | some u =>
      obtain ⟨-, rfl⟩ := hlinks c u hc
      rw [place, hc]
      rfl
  refine ⟨fun t ht => ?_, ⟨⟨_, rfl, rfl, rfl⟩, fun p c thread => ?_, fun p thread => ?_,
    fun p q hq _ => ?_, fun t thread => ?_⟩, fun t u hu ht => ?_, fun t u hu => ?_⟩
  · cases hu : start.tcbs t with
    | none => rfl
    | some u => exact absurd (start_tcbs hu).1 (Nat.ne_of_gt ht)
  · rw [hkids, hplace]
    exact iff_of_false not_mem_nil (some_ne_none _).symm
  · rw [hkids]
    exact nodup_nil
  · obtain ⟨-, rfl⟩ := hlinks p q hq
    exact ⟨rfl, hkids p⟩
  · rw [hplace]
    exact (some_ne_none _).symm
  · exact absurd (start_tcbs hu).1 ht
  · obtain ⟨-, rfl⟩ := start_tcbs hu
    exact ⟨new_ok _ rfl, rfl⟩

/-- In every run whose steps meet the condition: an exited task is collected, or is
on the child list of exactly one living parent; it is in its exit, on the zombie list or
with a reaper; parent pointers are not dangling; `n_children` of a living task is the
number of its uncollected children; and an exit status was returned at most once. -/
theorem exited_collected_once
    (hrun : Reaches (guarded (fun s event => Event.Fits s event) State.Step) State.start s) :
    (∀ t u, s.tcbs t = some u → u.dead = true → (u.waited = true ∨
        ∃! p, ∃ q, s.tcbs p = some q ∧ q.dead = false ∧ t ∈ q.children) ∧
      (u.place = .exiting ∨ u.place = .queued ∨ u.place = .taken)) ∧
    (∀ t u p, s.tcbs t = some u → u.parent = some p → ∃ q, s.tcbs p = some q) ∧
    (∀ p q, s.tcbs p = some q → q.dead = false → q.nChildren = s.uncollected p) ∧
    (∀ t u, s.tcbs t = some u → u.collected ≤ 1) := by
  have hsound : Sound s :=
    hrun.kept start_sound fun hbefore hfits => hbefore.step hfits
  refine ⟨fun t u hu hdead => ⟨?_, ?_⟩, fun t u p hu hparent => ?_,
    fun p q hq _ => hsound.uncollected_eq hq, fun t u hu => ?_⟩
  · cases hparent : u.parent with
    | some p =>
      refine .inr ⟨p, hsound.parent_of_dead hu hdead hparent, ?_⟩
      rintro r ⟨q, hq, -, hmem⟩
      obtain ⟨u', hu', hparent', -⟩ := hsound.child false hq hmem
      cases hu.symm.trans hu'
      exact some.inj (hparent'.symm.trans hparent)
    | none =>
      refine .inl (hsound.parented t u hu ?_ hparent)
      rintro rfl
      obtain ⟨init, hinit, hlive, -⟩ := hsound.family.init
      cases (links_eq hu).symm.trans hinit
      exact absurd (hlive.symm.trans hdead) Bool.false_ne_true
  · obtain ⟨hok, -⟩ := hsound.task t u hu
    cases hplace : u.place with
    | running => exact absurd hplace (hok.place.mp hdead)
    | exiting => exact .inl rfl
    | queued => exact .inr (.inl rfl)
    | taken => exact .inr (.inr rfl)
    | lost => exact absurd hplace hok.found
  · obtain ⟨q, hq, -⟩ := hsound.parent hu hparent
    exact ⟨q, hq⟩
  · refine (hsound.task t u hu).1.once.trans ?_
    split_ifs
    · exact le_rfl
    · exact Nat.zero_le 1

/-! ## Families -/

instance (s : State) (event : Event) : Decidable (event.Fits s) := by
  cases event <;> unfold Event.Fits <;> infer_instance

def exits (t : ℕ) : List Event := [.exitBegin t, .exitEnd t]

def collects (p t : ℕ) : List Event := [.wait p t false, .reapTake t, .reapFree t]

/-- Task `3` is the grandchild of `init`; its parent exits and is collected. -/
def adoptRun : List Event := [.fork 1, .fork 2] ++ exits 2 ++ [.wait 1 2 false]

/-- `init` has one uncollected child, the adopted one. -/
theorem exited_collected_once_adopted : (adoptRun.foldl State.step State.start).tcbs 1 =
        some ⟨⟨none, [3, 2], [], false, false⟩, 1, false, .running, 0⟩ ∧
      1 = (adoptRun.foldl State.step State.start).uncollected 1 := by
  have hinit : (adoptRun.foldl step start).tcbs 1 =
      some ⟨⟨none, [3, 2], [], false, false⟩, 1, false, .running, 0⟩ := by
    decide +kernel
  have honce := @exited_collected_once (adoptRun.foldl step start)
    (reaches_foldl (by decide +kernel))
  exact ⟨hinit, honce.2.2.1 1 _ hinit rfl⟩

/-- A thread of `init` exits. -/
def threadRun : List Event := .clone 1 :: exits 2

/-- A child of `init` makes a thread, exits and is reaped. -/
def danglingRun : List Event := [.fork 1, .clone 2] ++ exits 2 ++ collects 1 2

/-- One of two children of `init` exits and is reaped. -/
def countRun : List Event := [.fork 1, .fork 1] ++ exits 2 ++ collects 1 2

/-- The `clone` of a child of `init` finds no memory for a break cell; the child exits and
is reaped. -/
def failedRun : List Event := [.fork 1, .cloneFail 2] ++ exits 2 ++ collects 1 2

/-- The exited thread is on no child list and not collected; the thread of the
reaped task points to it as its parent; the reaped child was counted twice; and the task
that a failed `clone` leaves points to the reaped caller. -/
theorem exited_not_collected : (threadRun.foldl State.step State.start).tcbs 2 =
        some ⟨⟨some 1, [], [], true, true⟩, 0, false, .queued, 0⟩ ∧
      (threadRun.foldl State.step State.start).tcbs 1 =
        some ⟨⟨none, [], [2], false, false⟩, 1, false, .running, 0⟩ ∧
      (danglingRun.foldl State.step State.start).tcbs 2 = none ∧
      (danglingRun.foldl State.step State.start).tcbs 3 =
        some ⟨⟨some 2, [], [], true, false⟩, 0, false, .running, 0⟩ ∧
      (countRun.foldl State.step State.start).tcbs 1 =
        some ⟨⟨none, [3], [], false, false⟩, 0, false, .running, 0⟩ ∧
      (countRun.foldl State.step State.start).uncollected 1 = 1 ∧
      (failedRun.foldl State.step State.start).tcbs 2 = none ∧
      (failedRun.foldl State.step State.start).tcbs 3 =
        some ⟨⟨some 2, [], [], true, false⟩, 0, false, .lost, 0⟩ := by
  refine ⟨?_, ?_, ?_, ?_, ?_, ?_, ?_, ?_⟩
  all_goals decide +kernel

end AuraLite.Reaping

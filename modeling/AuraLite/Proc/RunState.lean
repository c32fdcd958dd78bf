import Mathlib.Order.Basic

/-!
# A thread between the run queues and the CPUs

What `schedule`, `sched_yield`, `sched_tick`, `sched_steal_work` and the wakers do to
one TCB, store by store.  A TCB does not record which CPU holds it but how many do:
those that won its `on_queue` bit and have not enqueued it yet, the run queue entries,
the CPUs that took it off a queue and have not cleared the bit, and those that wait
for its context to be saved.
-/

namespace AuraLite.RunState

/-- `enum thread_state`, without the dead. -/
inductive ThreadState
  | ready
  | running
  | blocked
  | stopped
deriving DecidableEq

/-- How far the CPU that executes the thread is. -/
inductive Place
  /-- On no CPU: the context is saved and `switch_parked` is set. -/
  | off
  /-- Outside of `schedule`. -/
  | running
  /-- In `schedule`, before the test of the state of the old thread. -/
  | switching
  /-- In `schedule`, behind that test. -/
  | published
deriving DecidableEq

structure Tcb where
  state : ThreadState
  onQueue : Bool
  claimed : ℕ
  queued : ℕ
  dequeued : ℕ
  picked : ℕ
  place : Place
deriving DecidableEq

/-- A thread that runs and is on no queue. -/
def Tcb.fresh : Tcb := ⟨.running, false, 0, 0, 0, 0, .running⟩

/-- `__sync_lock_test_and_set` on `on_queue`. -/
def Tcb.claim (t : Tcb) : Tcb :=
  if t.onQueue then t else { t with onQueue := true, claimed := t.claimed + 1 }

/-- The stores of the scheduler. -/
inductive Move
  /-- `sched_add_thread` by a CPU that won the bit. -/
  | enqueue
  /-- A CPU takes the thread off a run queue, its own or another's. -/
  | dequeue
  /-- It clears `on_queue`. -/
  | release
  /-- It finds the context saved and switches to the thread. -/
  | switchIn
  /-- The CPU that executes the thread has picked the thread itself. -/
  | keep
  /-- The old thread goes back to a queue if its state is `READY`. -/
  | publish
  /-- `context_switch` saves the old thread. -/
  | switchOut
deriving DecidableEq

def Tcb.move (t : Tcb) : Move → Tcb
  | .enqueue =>
    if 0 < t.claimed then
      { t with claimed := t.claimed - 1, queued := t.queued + 1 }
    else t
  | .dequeue =>
    if 0 < t.queued then
      { t with queued := t.queued - 1, dequeued := t.dequeued + 1 }
    else t
  | .release =>
    if 0 < t.dequeued then
      { t with dequeued := t.dequeued - 1, picked := t.picked + 1, onQueue := false }
    else t
  | .switchIn =>
    if 0 < t.picked ∧ t.place = .off then
      { t with picked := t.picked - 1, state := .running, place := .running }
    else t
  | .keep =>
    if 0 < t.picked ∧ t.place = .switching then
      { t with picked := t.picked - 1, state := .running, place := .running }
    else t
  | .publish =>
    if t.place = .switching then
      { (if t.state = .ready then t.claim else t) with place := .published }
    else t
  | .switchOut => if t.place = .published then { t with place := .off } else t

/-- `sched_yield`, and `sched_tick` when the quantum is used up: both store `READY`
before they call `schedule`. -/
def Tcb.yield (t : Tcb) : Tcb := { t with state := .ready, place := .switching }

/-- `schedule` called directly, with the state as it is. -/
def Tcb.schedule (t : Tcb) : Tcb := { t with place := .switching }

/-- What every waker does under the lock of its queue. -/
def Tcb.wake (t : Tcb) : Tcb :=
  if t.state = .blocked then ({ t with state := .ready } : Tcb).claim.move .enqueue else t

/-- The CPUs and queue entries that will bring the thread to a CPU. -/
def Tcb.awaited (t : Tcb) : ℕ := t.claimed + t.queued + t.dequeued + t.picked

/-- The thread is on a CPU, on a run queue or on its way between the two. -/
def Tcb.Runnable (t : Tcb) : Prop := t.place ≠ .off ∨ 0 < t.awaited

/-- The `on_queue` bit is set only while somebody has yet to clear it. -/
def Tcb.Tracked (t : Tcb) : Prop :=
  t.onQueue = true → 0 < t.claimed + t.queued + t.dequeued

/-- A thread that enters `schedule` only with the state `READY`. -/
structure Tcb.Wakeful (t : Tcb) : Prop where
  off : t.place = .off → 0 < t.awaited
  switching : t.place = .switching → t.state = .ready
  published : t.place = .published → 0 < t.awaited

variable {t : Tcb}

open Tcb

theorem Tcb.Wakeful.runnable (hwake : t.Wakeful) : t.Runnable := by
  by_cases hoff : t.place = .off
  · exact .inr (hwake.off hoff)
  · exact .inl hoff

theorem Tcb.wakeful_of_running (hrunning : t.place = .running) : t.Wakeful where
  off := fun hplace => absurd (hrunning.symm.trans hplace) nofun
  switching := fun hplace => absurd (hrunning.symm.trans hplace) nofun
  published := fun hplace => absurd (hrunning.symm.trans hplace) nofun

theorem Tcb.tracked_fresh : Tcb.fresh.Tracked := nofun

/-! ## The bit and the counts -/

theorem Tcb.claim_place (t : Tcb) : t.claim.place = t.place := by
  rw [claim]
  split_ifs <;> rfl

theorem Tcb.claim_state (t : Tcb) : t.claim.state = t.state := by
  rw [claim]
  split_ifs <;> rfl

theorem Tcb.claim_onQueue (t : Tcb) : t.claim.onQueue = true := by
  rw [claim]
  split_ifs with hqueue
  · exact hqueue
  · rfl

theorem Tcb.Tracked.claim (htracked : t.Tracked) : t.claim.Tracked := by
  rw [Tcb.claim]
  split_ifs
  · exact htracked
  · intro _
    change 0 < t.claimed + 1 + t.queued + t.dequeued
    omega

/-- After a claim the thread is awaited, whoever won the bit. -/
theorem Tcb.Tracked.claim_awaited (htracked : t.Tracked) : 0 < t.claim.awaited := by
  have hpos := htracked.claim t.claim_onQueue
  rw [awaited]
  omega

/-- On a CPU and outside of `schedule`, the scheduler does not change the place. -/
theorem Tcb.move_running (hplace : t.place = .running) (move : Move) :
    (t.move move).place = .running := by
  have hoff : t.place ≠ .off := fun h => absurd (hplace.symm.trans h) nofun
  have hswitching : t.place ≠ .switching := fun h => absurd (hplace.symm.trans h) nofun
  have hpublished : t.place ≠ .published := fun h => absurd (hplace.symm.trans h) nofun
  cases move with
  | switchIn =>
    rw [move, if_neg fun h => hoff h.2]
    exact hplace
  | keep =>
    rw [move, if_neg fun h => hswitching h.2]
    exact hplace
  | publish =>
    rw [move, if_neg hswitching]
    exact hplace
  | switchOut =>
    rw [move, if_neg hpublished]
    exact hplace
  | _ =>
    rw [move]
    split_ifs <;> exact hplace

/-- The scheduler stores no state but `RUNNING`, and it does so when it brings the
thread to a CPU. -/
theorem Tcb.move_state (t : Tcb) (move : Move) : (t.move move).state = .running ∨
    (t.move move).state = t.state ∧ ((t.move move).place = .running → t.place = .running) := by
  cases move with
  | switchIn =>
    rw [move]
    split_ifs
    · exact .inl rfl
    · exact .inr ⟨rfl, id⟩
  | keep =>
    rw [move]
    split_ifs
    · exact .inl rfl
    · exact .inr ⟨rfl, id⟩
  | publish =>
    rw [move]
    split_ifs
    · exact .inr ⟨t.claim_state, False.elim⟩
    · exact .inr ⟨rfl, False.elim⟩
    · exact .inr ⟨rfl, id⟩
  | switchOut =>
    rw [move]
    split_ifs
    · exact .inr ⟨rfl, False.elim⟩
    · exact .inr ⟨rfl, id⟩
  | _ =>
    rw [move]
    split_ifs <;> exact .inr ⟨rfl, id⟩

theorem Tcb.Tracked.move (htracked : t.Tracked) (move : Move) : (t.move move).Tracked := by
  cases move with
  | enqueue =>
    rw [Tcb.move]
    split_ifs
    · intro hqueue
      have hpos := htracked hqueue
      change 0 < t.claimed - 1 + (t.queued + 1) + t.dequeued
      omega
    · exact htracked
  | dequeue =>
    rw [Tcb.move]
    split_ifs
    · intro hqueue
      have hpos := htracked hqueue
      change 0 < t.claimed + (t.queued - 1) + (t.dequeued + 1)
      omega
    · exact htracked
  | release =>
    rw [Tcb.move]
    split_ifs
    · exact nofun
    · exact htracked
  | publish =>
    rw [Tcb.move]
    split_ifs
    · exact htracked.claim
    · exact htracked
    · exact htracked
  | _ =>
    rw [Tcb.move]
    split_ifs <;> exact htracked

theorem Tcb.Tracked.wake (htracked : t.Tracked) : t.wake.Tracked := by
  rw [Tcb.wake]
  split_ifs
  · have hready : ({ t with state := .ready } : Tcb).Tracked := htracked
    exact hready.claim.move .enqueue
  · exact htracked

/-! ## Threads that only yield -/

theorem Tcb.enqueue_awaited (t : Tcb) : (t.move .enqueue).awaited = t.awaited := by
  rw [move]
  split_ifs
  · change t.claimed - 1 + (t.queued + 1) + t.dequeued + t.picked =
      t.claimed + t.queued + t.dequeued + t.picked
    omega
  · rfl

theorem Tcb.enqueue_place (t : Tcb) : (t.move .enqueue).place = t.place := by
  rw [move]
  split_ifs <;> rfl

theorem Tcb.wake_place (t : Tcb) : t.wake.place = t.place := by
  rw [wake]
  split_ifs
  · rw [enqueue_place, claim_place]
  · rfl

theorem Tcb.wake_state (t : Tcb) :
    t.wake.state = if t.state = .blocked then .ready else t.state := by
  rw [wake]
  split_ifs
  · rw [move]
    split_ifs <;> exact claim_state _
  · rfl

/-- A wake-up leaves a ready thread alone and brings a blocked one to a queue. -/
theorem Tcb.Wakeful.wake (hwake : t.Wakeful) (htracked : t.Tracked) : t.wake.Wakeful := by
  by_cases hblocked : t.state = .blocked
  · have hready : ({ t with state := .ready } : Tcb).Tracked := htracked
    have hawaited : 0 < t.wake.awaited := by
      rw [Tcb.wake, if_pos hblocked, Tcb.enqueue_awaited]
      exact hready.claim_awaited
    refine ⟨fun _ => hawaited, fun hplace => ?_, fun _ => hawaited⟩
    rw [wake_place] at hplace
    exact absurd (hblocked.symm.trans (hwake.switching hplace)) nofun
  · rw [Tcb.wake, if_neg hblocked]
    exact hwake

theorem Tcb.Wakeful.of_awaited {u : Tcb} (hwake : t.Wakeful) (hplace : u.place = t.place)
    (hstate : u.state = t.state) (hawaited : u.awaited = t.awaited) : u.Wakeful where
  off := fun hoff => hawaited ▸ hwake.off (hplace ▸ hoff)
  switching := fun hswitching => hstate ▸ hwake.switching (hplace ▸ hswitching)
  published := fun hpublished => hawaited ▸ hwake.published (hplace ▸ hpublished)

theorem Tcb.Wakeful.move (hwake : t.Wakeful) (htracked : t.Tracked) (move : Move) :
    (t.move move).Wakeful := by
  cases move with
  | enqueue =>
    refine hwake.of_awaited t.enqueue_place ?_ t.enqueue_awaited
    rw [Tcb.move]
    split_ifs <;> rfl
  | dequeue =>
    rw [Tcb.move]
    split_ifs
    · refine hwake.of_awaited rfl rfl ?_
      change t.claimed + (t.queued - 1) + (t.dequeued + 1) + t.picked =
        t.claimed + t.queued + t.dequeued + t.picked
      omega
    · exact hwake
  | release =>
    rw [Tcb.move]
    split_ifs
    · refine hwake.of_awaited rfl rfl ?_
      change t.claimed + t.queued + (t.dequeued - 1) + (t.picked + 1) =
        t.claimed + t.queued + t.dequeued + t.picked
      omega
    · exact hwake
  | publish =>
    by_cases hswitching : t.place = .switching
    · -- the state is READY here, so the thread is claimed or was before
      rw [Tcb.move, if_pos hswitching, if_pos (hwake.switching hswitching)]
      exact ⟨nofun, nofun, fun _ => htracked.claim_awaited⟩
    · rw [Tcb.move, if_neg hswitching]
      exact hwake
  | switchOut =>
    rw [Tcb.move]
    split_ifs with hpublished
    · exact ⟨fun _ => hwake.published hpublished, nofun, nofun⟩
    · exact hwake
  | _ =>
    rw [Tcb.move]
    split_ifs
    · exact wakeful_of_running rfl
    · exact hwake

theorem Tcb.wakeful_yield (t : Tcb) : t.yield.Wakeful where
  off := nofun
  switching := fun _ => rfl
  published := nofun

end AuraLite.RunState

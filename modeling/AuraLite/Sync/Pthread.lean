import AuraLite.Lib.Reachability
import Mathlib.Order.Basic
import Mathlib.Algebra.Group.Nat.Defs

/-!
# Ordering in the thread library

`pthread_once`, `pthread_barrier_wait` and `pthread_join`, called by any number of threads.
A step is one atomic operation of one call.
-/

namespace AuraLite.Pthread

open Reachability
open Function (update update_apply)

/-- A `pthread_once_t`.  `running` and `finished` count the calls of `init_routine`, and
`returned` those of `pthread_once` that are over. -/
structure Once where
  done : Bool := false
  running : ℕ := 0
  finished : ℕ := 0
  returned : ℕ := 0

inductive Once.Event
  | call
  | initReturns

def Once.step (s : Once) : Once.Event → Option Once
  | .call =>
    some <| if s.done then { s with returned := s.returned + 1 }
      else { s with done := true, running := s.running + 1 }
  | .initReturns =>
    if s.running = 0 then none
    else some { s with
      running := s.running - 1, finished := s.finished + 1, returned := s.returned + 1 }

/-- No call falls into the run of `init_routine`. -/
def Once.Event.Fits (s : Once) : Once.Event → Prop
  | .call => s.running = 0
  | .initReturns => True

/-- `init_routine` is called once, by the first call of `pthread_once`. -/
def Once.Single (s : Once) : Prop := s.running + s.finished = if s.done then 1 else 0

section once
variable {s s' : Once} {event : Once.Event}

theorem Once.Single.step (h : s.Single) (hstep : s.step event = some s') : s'.Single := by
  cases event <;> simp only [Once.step, Once.Single] at * <;> grind

theorem Once.Single.finished_step (h : s.Single) (hreturned : 0 < s.returned → s.finished = 1)
    (hfits : event.Fits s) (hstep : s.step event = some s') :
    0 < s'.returned → s'.finished = 1 := by
  cases event <;> simp only [Once.step, Once.Single, Once.Event.Fits] at * <;> grind

end once

/-- Where a call of `pthread_barrier_wait` is.  A call that has arrived knows its group. -/
inductive Call
  | loaded (phase : ℕ)
  | waiting (phase group : ℕ)
  | last (group : ℕ)
  | reset (group : ℕ)
  | waking (group : ℕ)
  deriving DecidableEq

/-- A `pthread_barrier_t` and the number of calls at each place.  `group` counts the changes of
`phase`; of each group the calls that arrived, and that returned with 0 and with
`PTHREAD_BARRIER_SERIAL_THREAD`, are counted. -/
structure Barrier where
  count : ℕ := 0
  phase : ℕ := 0
  calls : Call → ℕ := fun _ => 0
  group : ℕ := 0
  arrived : ℕ → ℕ := fun _ => 0
  plain : ℕ → ℕ := fun _ => 0
  serial : ℕ → ℕ := fun _ => 0

def incr {α : Type} [DecidableEq α] (f : α → ℕ) (a : α) : α → ℕ := update f a (f a + 1)

/-- A call that has left its place goes on. -/
def Barrier.go (n : ℕ) (s : Barrier) : Call → Barrier
  | .loaded phase =>
    let count := (s.count + 1) % 2 ^ 32
    { s with
      count
      arrived := incr s.arrived s.group
      calls := incr s.calls (if count = n then .last s.group else .waiting phase s.group) }
  | .waiting phase group =>
    if s.phase = phase then { s with calls := incr s.calls (.waiting phase group) }
    else { s with plain := incr s.plain group }
  | .last group => { s with count := 0, calls := incr s.calls (.reset group) }
  | .reset group =>
    { s with
      phase := (s.phase + 1) % 2 ^ 32
      group := s.group + 1
      calls := incr s.calls (.waking group) }
  | .waking group => { s with serial := incr s.serial group }

/-- A new call loads `phase`, or a call goes on from its place. -/
def Barrier.step (n : ℕ) (s : Barrier) : Option Call → Option Barrier
  | none => some { s with calls := incr s.calls (.loaded s.phase) }
  | some call =>
    if s.calls call = 0 then none
    else some (Barrier.go n { s with calls := update s.calls call (s.calls call - 1) } call)

/-- A call arrives only with the current phase, and not between the last arrival of a group
and the change of the phase. -/
def Arrives (s : Barrier) : Option Call → Prop
  | some (.loaded phase) =>
    phase = s.phase ∧ ∀ group, s.calls (.last group) = 0 ∧ s.calls (.reset group) = 0
  | _ => True

/-- Of the calls of a group, `n - 1` wait or have returned 0 and one is or was the serial one. -/
structure Barrier.Grouped (n : ℕ) (s : Barrier) : Prop where
  phase : s.phase = s.group % 2 ^ 32
  past : ∀ g < s.group, s.arrived g = n
  future : ∀ g, s.group < g → s.arrived g = 0
  le : ∀ g, s.arrived g ≤ n
  count : s.calls (.last s.group) = 0 →
    s.count = if s.arrived s.group = n then 0 else s.arrived s.group
  turn : ∀ g, g ≠ s.group → s.calls (.last g) = 0 ∧ s.calls (.reset g) = 0
  ended : ∀ g, 0 < s.calls (.waking g) + s.serial g + s.plain g → g < s.group
  waiting : ∀ phase g, 0 < s.calls (.waiting phase g) → phase = g % 2 ^ 32
  serial : ∀ g, s.calls (.last g) + s.calls (.reset g) + s.calls (.waking g) + s.serial g =
    if s.arrived g = n then 1 else 0
  plain : ∀ g, s.calls (.waiting (g % 2 ^ 32) g) + s.plain g =
    if s.arrived g = n then n - 1 else s.arrived g

theorem Barrier.Grouped.step {n : ℕ} {s s' : Barrier} {call : Option Call}
    (hn : 0 < n ∧ n < 2 ^ 32) (h : s.Grouped n) (hfits : Arrives s call)
    (hstep : s.step n call = some s') : s'.Grouped n := by
  obtain ⟨hphase, hpast, hfuture, hle, hcount, hturn, hover, hwaiting, hserial, hplain⟩ := h
  obtain _ | call := call
  · simp only [Barrier.step, Option.some.injEq] at hstep
    subst hstep
    constructor <;> simp only [incr, update_apply] <;> grind
  simp only [Barrier.step, Option.ite_none_left_eq_some, Option.some.injEq] at hstep
  obtain ⟨hcall, rfl⟩ := hstep
  cases call with
  | loaded phase =>
    -- the group of the arrival is not complete: its count is the number of arrivals
    simp only [Arrives] at hfits
    constructor <;> simp only [Barrier.go, incr, update_apply]
    all_goals grind
  | waiting phase group =>
    -- the call stays, or its phase is over, so that its group is a past one
    simp only [Barrier.go]
    split_ifs
    · constructor <;> simp only [incr, update_apply]
      all_goals grind
    · constructor <;> simp only [incr, update_apply]
      all_goals grind
  | last group =>
    -- only the current group has a last call; the count starts again
    constructor <;> simp only [Barrier.go, incr, update_apply]
    all_goals grind
  | reset group =>
    -- the current group is complete and becomes a past one
    constructor <;> simp only [Barrier.go, incr, update_apply]
    all_goals grind
  | waking group =>
    constructor <;> simp only [Barrier.go, incr, update_apply]
    all_goals grind

/-- `pthread_join`, with the values of the threads that have terminated and what `*retval`
holds.  It returns 0 and looks at neither. -/
def pthreadJoin (_ended : ℕ → Option ℕ) (_thread : ℕ) (retval : Option ℕ) : ℕ × Option ℕ :=
  (0, retval.map fun _ => 0)

abbrev Once.Step (s : Once) (event : Once.Event) (s' : Once) : Prop := s.step event = some s'

abbrev Barrier.Step (n : ℕ) (s : Barrier) (call : Option Call) (s' : Barrier) : Prop :=
  s.step n call = some s'

/-- The initialiser runs once and before every return of `pthread_once`; of a group at a barrier
nobody returns before all have arrived, and one is the serial thread; and `pthread_join` returns
0 whether or not the thread has ended. -/
theorem thread_library_ordered {n : ℕ} (hn : 0 < n ∧ n < 2 ^ 32) :
    (∀ o, Reaches Once.Step {} o → o.running + o.finished = if o.done then 1 else 0) ∧
    (∀ o, Reaches (guarded (fun s event => event.Fits s) Once.Step) {} o →
      0 < o.returned → o.finished = 1) ∧
    (∀ b, Reaches (guarded Arrives (Barrier.Step n)) {} b → ∀ g,
      (0 < b.plain g + b.serial g → b.arrived g = n) ∧ b.arrived g ≤ n ∧
      (b.arrived g = n → b.calls (.waiting (g % 2 ^ 32) g) + b.plain g = n - 1 ∧
        b.calls (.last g) + b.calls (.reset g) + b.calls (.waking g) + b.serial g = 1)) ∧
    ∀ ended thread retval, pthreadJoin ended thread retval = (0, retval.map fun _ => 0) := by
  refine ⟨fun o hrun => ?_, fun o hrun => ?_, fun b hrun g => ?_, fun _ _ _ => rfl⟩
  · have h : o.Single := hrun.invariant rfl fun _ _ _ h hstep => h.step hstep
    exact h
  · have h : o.Single ∧ (0 < o.returned → o.finished = 1) := by
      apply hrun.invariant ⟨rfl, nofun⟩
      rintro before event after ⟨hsingle, hreturned⟩ ⟨hfits, hstep⟩
      exact ⟨hsingle.step hstep, hsingle.finished_step hreturned hfits hstep⟩
    exact h.2
  · have h : b.Grouped n := by
      refine hrun.invariant ?_ fun _ _ _ h hstep => h.step hn hstep.1 hstep.2
      constructor <;> simp <;> omega
    have hover := h.ended g
    have hpast := h.past g
    have hserial := h.serial g
    have hplain := h.plain g
    refine ⟨by omega, h.le g, fun hall => ?_⟩
    rw [if_pos hall] at hserial hplain
    exact ⟨hplain, hserial⟩

theorem thread_library_ordered_two : ∃ b,
    Reaches (guarded Arrives (Barrier.Step 2)) {} b ∧ b.plain 0 = 1 ∧ b.serial 0 = 1 ∧
    b.arrived 0 = 2 := by
  have go {s s'} (call : Option Call) (hrun : Reaches (guarded Arrives (Barrier.Step 2)) {} s)
      (hfits : Arrives s call) (hstep : s.step 2 call = some s') := hrun.tail ⟨hfits, hstep⟩
  have hrun := go none (go none (.refl _ _) trivial rfl) trivial rfl
  have hrun := go (some (.loaded 0)) hrun ⟨rfl, fun _ => ⟨rfl, rfl⟩⟩ rfl
  have hrun := go (some (.loaded 0)) hrun ⟨rfl, fun _ => ⟨rfl, rfl⟩⟩ rfl
  have hrun := go (some (.reset 0)) (go (some (.last 0)) hrun trivial rfl) trivial rfl
  have hrun := go (some (.waiting 0 0)) (go (some (.waking 0)) hrun trivial rfl) trivial rfl
  have hgroups := (thread_library_ordered (n := 2) (by decide)).2.2.1 _ hrun
  exact ⟨_, hrun, rfl, rfl, (hgroups 0).1 (by decide)⟩

/-- `pthread_join` returns while the thread runs and loses its value; a second caller of
`pthread_once` returns during `init_routine`; and an arrival between `count = 0` and the new
phase makes a third of a group of two. -/
theorem thread_library_unordered :
    (pthreadJoin (fun _ => none) 1 (some 9) = (0, some 0) ∧
      pthreadJoin (fun _ => some 5) 1 (some 9) = (0, some 0)) ∧
    (∃ o, Reaches Once.Step {} o ∧ o.returned = 1 ∧ o.finished = 0) ∧
    ∃ b, Reaches (Barrier.Step 2) {} b ∧ b.plain 0 + b.serial 0 = 3 := by
  have go {s s'} (call : Option Call) (hrun : Reaches (Barrier.Step 2) {} s)
      (hstep : s.step 2 call = some s') := hrun.tail hstep
  have hrun := go none (go none (go none (.refl _ _) rfl) rfl) rfl
  have hrun := go (some (.loaded 0)) (go (some (.loaded 0)) hrun rfl) rfl
  have hrun := go (some (.loaded 0)) (go (some (.last 0)) hrun rfl) rfl
  have hrun := go (some (.waking 0)) (go (some (.reset 0)) hrun rfl) rfl
  have hrun := go (some (.waiting 0 0)) (go (some (.waiting 0 0)) hrun rfl) rfl
  have hcall : Once.Step {} .call { done := true, running := 1 } := rfl
  have hagain : Once.Step { done := true, running := 1 } .call
    { done := true, running := 1, returned := 1 } := rfl
  exact ⟨⟨rfl, rfl⟩, ⟨_, ((Reaches.refl _ _).tail hcall).tail hagain, rfl, rfl⟩, _, hrun, rfl⟩

end AuraLite.Pthread

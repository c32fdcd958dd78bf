import AuraLite.Lib.Reachability
import AuraLite.Proc.RunState
import Mathlib.Data.Fintype.Fin

/-!
# Signals to a thread that goes to sleep or stops

One thread and any number of `signal_send` calls to it from other CPUs, with every
store to `sig_pending`, `state`, `stop_signal` and `on_queue` a step of its own.  The
thread waits in one of four ways: it tests for signals, stores `BLOCKED` and calls
`schedule` (`kernel_nanosleep`); it does so without the test (`do_select_kernel`,
`futex_wait_bitset`); it stores `BLOCKED` first and tests then (`sysv_semop`); or it
stores `BLOCKED` and calls `sched_yield` (`wq_wait`).
-/

namespace AuraLite.SignalWait

open Reachability RunState Bool

/-- Signals `1` to `31`; `0` is none. -/
abbrev Signal := Fin 32

def sigkill : Signal := 9
def sigchld : Signal := 17
def sigcont : Signal := 18
def sigstop : Signal := 19
def sigtstp : Signal := 20
def sigttin : Signal := 21
def sigttou : Signal := 22
def sigwinch : Signal := 28

inductive DefaultAction
  | term
  | ign
  | stop
deriving DecidableEq

def defaultAction (g : Signal) : DefaultAction :=
  if g = sigchld ∨ g = sigwinch ∨ g = sigcont then .ign
  else if g = sigstop ∨ g = sigtstp ∨ g = sigttin ∨ g = sigttou then .stop
  else .term

inductive Handler
  | dfl
  | ign
  | user
deriving DecidableEq

/-- Where the thread is.  The stores it makes next are those of the comments. -/
inductive Pc
  | user
  /-- `kernel_nanosleep` has found no signal: `BLOCKED`. -/
  | tested
  /-- `sysv_semop` has stored `BLOCKED` and tests for signals. -/
  | checking
  /-- `BLOCKED` is stored and `schedule` comes next. -/
  | blocking
  /-- In that call of `schedule`. -/
  | asleep
  /-- `wq_wait` has stored `BLOCKED` and calls `sched_yield`. -/
  | polling
  /-- `next_deliverable` gave the signal: its bit is cleared. -/
  | selected (g : Signal)
  /-- `stop_current_thread`: `stop_signal`. -/
  | taken (g : Signal)
  /-- `STOPPED`. -/
  | marked
  /-- `schedule`. -/
  | stopping
  /-- In that call of `schedule`. -/
  | halted
  | dead
deriving DecidableEq

/-- `since` records that a SIGCONT or SIGKILL was sent after the thread picked the
signal it acts on. -/
structure Thread where
  tcb : Tcb
  pending : Signal → Bool
  mask : Signal → Bool
  handler : Signal → Handler
  stopSignal : Signal
  continuedNotified : Bool
  pc : Pc
  since : Bool

/-- Unmasked, or one of SIGKILL and SIGSTOP. -/
def Thread.deliverable (t : Thread) (g : Signal) : Bool :=
  t.pending g && (!t.mask g || g == sigkill || g == sigstop)

def Thread.nextDeliverable (t : Thread) : Option Signal :=
  (List.finRange 32).find? fun g => g != 0 && t.deliverable g

/-- `signal_actionable`. -/
def Thread.actionable (t : Thread) (g : Signal) : Bool :=
  if g = sigkill ∨ g = sigstop then true
  else match t.handler g with
    | .ign => false
    | .dfl => defaultAction g != .ign
    | .user => true

/-- `signal_actionable_pending`. -/
def Thread.actionablePending (t : Thread) : Bool :=
  decide (∃ g, t.deliverable g = true ∧ t.actionable g = true)

def Thread.setState (t : Thread) (state : ThreadState) : Thread :=
  { t with tcb := { t.tcb with state := state } }

/-- `signal_send`, by the store or test that comes next. -/
inductive SendPc
  | discard
  | post
  | testBlocked
  | wake
  | claim
  | testStopped
  | clearStop
  | notify
  | resume
  | claimStopped
  | done
deriving DecidableEq

structure Sender where
  signo : Signal
  pc : SendPc
deriving DecidableEq

/-- A stop signal discards a pending SIGCONT, and SIGCONT every pending stop
signal. -/
def discard (g : Signal) (pending : Signal → Bool) (h : Signal) : Bool :=
  if g = sigcont then
    pending h && !(h == sigstop || h == sigtstp || h == sigttin || h == sigttou)
  else if defaultAction g = .stop then pending h && h != sigcont
  else pending h

/-- The first test of `signal_send`. -/
def Thread.wakes (t : Thread) (g : Signal) : Bool :=
  decide (t.tcb.state = .blocked ∧ (∃ h, t.pending h = true ∧ t.mask h = false) ∧
    t.actionable g = true)

/-- The second test of `signal_send`. -/
def Thread.resumes (t : Thread) (g : Signal) : Bool :=
  decide ((g = sigcont ∨ g = sigkill) ∧ t.tcb.state = .stopped)

/-- One step of `signal_send`. -/
def Sender.step (x : Sender) (t : Thread) : Thread × SendPc :=
  match x.pc with
  | .discard =>
    ({ t with
        pending := discard x.signo t.pending
        since := t.since || x.signo == sigcont }, .post)
  | .post =>
    ({ t with
        pending := Function.update t.pending x.signo true
        since := t.since || x.signo == sigkill }, .testBlocked)
  | .testBlocked => (t, if t.wakes x.signo then .wake else .testStopped)
  | .wake => (t.setState .ready, .claim)
  | .claim => ({ t with tcb := t.tcb.claim }, .testStopped)
  | .testStopped => (t, if t.resumes x.signo then .clearStop else .done)
  | .clearStop => ({ t with stopSignal := 0 }, .notify)
  | .notify =>
    ({ t with continuedNotified := t.continuedNotified || x.signo == sigcont }, .resume)
  | .resume => (t.setState .ready, .claimStopped)
  | .claimStopped => ({ t with tcb := t.tcb.claim }, .done)
  | .done => (t, .done)

/-- What follows when the bit of the signal is cleared: a stop, the end of the
thread, or nothing more (a handler frame changes mask and handlers only). -/
def Thread.act (t : Thread) (g : Signal) : Pc :=
  if g = sigkill ∨ g = sigstop ∨ t.handler g = .dfl then
    match defaultAction g with
    | .ign => .user
    | .stop => .taken g
    | .term => .dead
  else .user

/-- The steps the thread makes on its CPU. -/
inductive Own
  /-- `sigprocmask`, a handler frame, `sigreturn`, or the mask of `pselect`. -/
  | setMask (mask : Signal → Bool)
  | setHandler (g : Signal) (handler : Handler)
  /-- `signal_deliver_iret`. -/
  | deliver
  | take
  | mark
  | stop
  | test
  | block
  | blockUnchecked
  | blockFirst
  | check
  | poll
  | yield
  | schedule
  | resume
  /-- `sched_tick`, where interrupts are on. -/
  | tick

def Thread.own (t : Thread) : Own → Thread
  | .setMask mask => if t.pc = .user then { t with mask := mask } else t
  | .setHandler g handler =>
    if t.pc = .user then { t with handler := Function.update t.handler g handler } else t
  | .deliver =>
    if t.pc = .user then
      match t.nextDeliverable with
      | some g => { t with pc := .selected g, since := false }
      | none => t
    else t
  | .take =>
    match t.pc with
    | .selected g => { t with pending := Function.update t.pending g false, pc := t.act g }
    | _ => t
  | .mark =>
    match t.pc with
    | .taken g => { t with stopSignal := g, pc := .marked }
    | _ => t
  | .stop => if t.pc = .marked then { t.setState .stopped with pc := .stopping } else t
  | .test =>
    if t.pc = .user ∧ t.actionablePending = false then { t with pc := .tested } else t
  | .block => if t.pc = .tested then { t.setState .blocked with pc := .blocking } else t
  | .blockUnchecked =>
    if t.pc = .user then { t.setState .blocked with pc := .blocking } else t
  | .blockFirst => if t.pc = .user then { t.setState .blocked with pc := .checking } else t
  | .check =>
    if t.pc = .checking then
      if t.actionablePending then { t.setState .ready with pc := .user }
      else { t with pc := .blocking }
    else t
  | .poll => if t.pc = .user then { t.setState .blocked with pc := .polling } else t
  | .yield => if t.pc = .polling then { t with tcb := t.tcb.yield, pc := .user } else t
  | .schedule =>
    match t.pc with
    | .blocking => { t with tcb := t.tcb.schedule, pc := .asleep }
    | .stopping => { t with tcb := t.tcb.schedule, pc := .halted }
    | _ => t
  | .resume => if t.pc = .asleep ∨ t.pc = .halted then { t with pc := .user } else t
  | .tick => if t.pc = .user ∨ t.pc = .polling then { t with tcb := t.tcb.yield } else t

structure State where
  thread : Thread
  senders : List Sender

inductive Event
  | own (action : Own)
  /-- A step of the scheduler on the thread. -/
  | move (move : Move)
  /-- Another waker, under the lock of its queue. -/
  | wake
  /-- A call of `signal_send` begins. -/
  | send (g : Signal)
  /-- It makes its next step. -/
  | sender (i : ℕ)

def State.step (s : State) : Event → State
  | .own action =>
    if s.thread.tcb.place = .running then { s with thread := s.thread.own action } else s
  | .move move =>
    { s with thread := { s.thread with tcb := s.thread.tcb.move move } }
  | .wake => { s with thread := { s.thread with tcb := s.thread.tcb.wake } }
  | .send g => if g = 0 then s else { s with senders := s.senders ++ [⟨g, .discard⟩] }
  | .sender i =>
    match s.senders[i]? with
    | some x =>
      { thread := (x.step s.thread).1
        senders := s.senders.set i ⟨x.signo, (x.step s.thread).2⟩ }
    | none => s

def State.Step (s : State) (event : Event) (s' : State) : Prop := s.step event = s'

def State.start : State where
  thread := ⟨.fresh, fun _ => false, fun _ => false, fun _ => .dfl, 0, false, .user, false⟩
  senders := []

/-- The sender of the signal has not tested the state yet, or will store `READY`. -/
def Sender.Waking (x : Sender) (g : Signal) : Prop :=
  (x.pc = .testBlocked ∧ x.signo = g) ∨ x.pc = .wake

/-- A sender of SIGCONT or SIGKILL that has not tested for `STOPPED` yet, or will
store `READY`. -/
def Sender.Resuming (x : Sender) : Prop :=
  (x.signo = sigcont ∨ x.signo = sigkill) ∧ x.pc ≠ .claimStopped ∧ x.pc ≠ .done

/-- The condition on the steps: SIGKILL and SIGSTOP are not masked; when the thread
stores `BLOCKED` after its test or without one, each signal that should wake it has a
sender before the test of the state; and when it stores `STOPPED`, so has a SIGCONT or
SIGKILL sent in the meantime. -/
def Own.Fits (s : State) : Own → Prop
  | .setMask mask => mask sigkill = false ∧ mask sigstop = false
  | .block | .blockUnchecked => ∀ g, s.thread.deliverable g = true →
      s.thread.actionable g = true → ∃ x ∈ s.senders, x.Waking g
  | .stop => s.thread.since = true → ∃ x ∈ s.senders, x.Resuming
  | _ => True

def Event.Fits (s : State) : Event → Prop
  | .own action => action.Fits s
  | _ => True

/-! ## A blocked or stopped thread has a sender on its way -/

structure Heard (s : State) : Prop where
  mask : s.thread.mask sigkill = false ∧ s.thread.mask sigstop = false
  blocked : s.thread.tcb.state = .blocked → s.thread.pc = .polling ∨
    s.thread.pc = .checking ∨ s.thread.pc = .blocking ∨ s.thread.pc = .asleep
  onCpu : s.thread.tcb.state = .blocked → s.thread.pc ≠ .asleep →
    s.thread.tcb.place = .running
  awake : s.thread.pc = .asleep → s.thread.tcb.place = .running →
    s.thread.tcb.state ≠ .blocked
  sleeping : s.thread.tcb.state = .blocked →
    s.thread.pc = .blocking ∨ s.thread.pc = .asleep → ∀ g,
    s.thread.deliverable g = true → s.thread.actionable g = true →
    ∃ x ∈ s.senders, x.Waking g
  stopped : s.thread.tcb.state = .stopped → s.thread.since = true →
    ∃ x ∈ s.senders, x.Resuming

variable {s : State} {t : Thread}

open State

theorem heard_of_not_blocked {l : List Sender}
    (hmask : t.mask sigkill = false ∧ t.mask sigstop = false)
    (hstate : t.tcb.state ≠ .blocked)
    (hstopped : t.tcb.state = .stopped → t.since = true → ∃ x ∈ l, x.Resuming) :
    Heard ⟨t, l⟩ where
  mask := hmask
  blocked := fun h => absurd h hstate
  onCpu := fun h => absurd h hstate
  awake := fun _ _ => hstate
  sleeping := fun h => absurd h hstate
  stopped := hstopped

theorem Heard.goOn (hheard : Heard s) (hmask : t.mask sigkill = false ∧ t.mask sigstop = false)
    (hstate : t.tcb.state = s.thread.tcb.state) (hblocked : s.thread.tcb.state ≠ .blocked)
    (hsince : t.since = true → s.thread.since = true) :
    Heard { s with thread := t } :=
  heard_of_not_blocked hmask (hstate ▸ hblocked) fun hstopped hsent =>
    hheard.stopped (hstate ▸ hstopped) (hsince hsent)

theorem Heard.ready (hheard : Heard s) {l : List Sender} (hmask : t.mask = s.thread.mask)
    (hstate : t.tcb.state = .ready) : Heard ⟨t, l⟩ := by
  refine heard_of_not_blocked (hmask ▸ hheard.mask) ?_ ?_
  · rw [hstate]
    exact nofun
  · rw [hstate]
    exact nofun

/-- Where the thread may be blocked. -/
def Pc.waits : Pc → Bool
  | .polling | .checking | .blocking | .asleep => true
  | _ => false

theorem Heard.not_blocked (hheard : Heard s) {pc : Pc} (hpc : s.thread.pc = pc)
    (hwaits : pc.waits = false) : s.thread.tcb.state ≠ .blocked := by
  intro hstate
  rw [← hpc] at hwaits
  rcases hheard.blocked hstate with h | h | h | h
  all_goals
    rw [h] at hwaits
    cases hwaits

/-- A step that is made at its place in the code only. -/
theorem Heard.ite {p : Prop} [Decidable p] (hheard : Heard s)
    (hthen : p → Heard { s with thread := t }) :
    Heard { s with thread := if p then t else s.thread } := by
  split_ifs with hp
  · exact hthen hp
  · exact hheard

theorem Heard.block (hheard : Heard s) (hplace : s.thread.tcb.place = .running) {pc : Pc}
    (hpc : pc = .polling ∨ pc = .checking ∨ pc = .blocking)
    (hsleeping : pc = .blocking → ∀ g, s.thread.deliverable g = true →
      s.thread.actionable g = true → ∃ x ∈ s.senders, x.Waking g) :
    Heard { s with thread := { s.thread.setState .blocked with pc := pc } } where
  mask := hheard.mask
  blocked := fun _ => hpc.elim .inl fun h => .inr (h.elim .inl fun h => .inr (.inl h))
  onCpu := fun _ _ => hplace
  awake := fun hasleep => by
    change pc = .asleep at hasleep
    rw [hasleep] at hpc
    rcases hpc with h | h | h <;> cases h
  sleeping := fun _ hwaits => by
    rcases hwaits with h | h
    · exact hsleeping h
    · change pc = .asleep at h
      rw [h] at hpc
      rcases hpc with h | h | h <;> cases h
  stopped := nofun

variable {g : Signal}

theorem actionablePending_false (hnone : t.actionablePending = false)
    (hdeliverable : t.deliverable g = true) : t.actionable g ≠ true := by
  intro hactionable
  exact of_decide_eq_false hnone ⟨g, hdeliverable, hactionable⟩

theorem Heard.own (hheard : Heard s) (hplace : s.thread.tcb.place = .running) {action : Own}
    (hfits : action.Fits s) : Heard { s with thread := s.thread.own action } := by
  cases action with
  | setMask mask =>
    exact hheard.ite fun hpc => hheard.goOn hfits rfl (hheard.not_blocked hpc rfl) id
  | setHandler g handler =>
    exact hheard.ite fun hpc => hheard.goOn hheard.mask rfl (hheard.not_blocked hpc rfl) id
  | deliver =>
    refine hheard.ite fun hpc => ?_
    cases s.thread.nextDeliverable with
    | some g => exact hheard.goOn hheard.mask rfl (hheard.not_blocked hpc rfl) nofun
    | none => exact hheard
  | take | mark =>
    simp only [Thread.own]
    split
    · rename_i g hpc
      exact hheard.goOn hheard.mask rfl (hheard.not_blocked hpc rfl) id
    · exact hheard
  | stop => exact hheard.ite fun _ => heard_of_not_blocked hheard.mask nofun fun _ => hfits
  | test =>
    exact hheard.ite fun hpc => hheard.goOn hheard.mask rfl (hheard.not_blocked hpc.1 rfl) id
  | blockFirst => exact hheard.ite fun _ => hheard.block hplace (.inr (.inl rfl)) nofun
  | check =>
    refine hheard.ite fun _ => ?_
    split_ifs with hpending
    · exact hheard.ready rfl rfl
    · -- the test comes after the store, so a later signal finds the thread blocked
      refine ⟨hheard.mask, fun _ => .inr (.inr (.inl rfl)), fun _ _ => hplace,
        nofun, fun _ _ g hdeliverable hactionable => ?_, hheard.stopped⟩
      exact absurd hactionable
        (actionablePending_false (eq_false_of_not_eq_true hpending) hdeliverable)
  | poll => exact hheard.ite fun _ => hheard.block hplace (.inl rfl) nofun
  | yield => exact hheard.ite fun _ => hheard.ready rfl rfl
  | schedule =>
    simp only [Thread.own]
    split
    · rename_i hpc
      exact ⟨hheard.mask, fun _ => .inr (.inr (.inr rfl)), fun _ h => absurd rfl h, nofun,
        fun hstate _ => hheard.sleeping hstate (.inl hpc), hheard.stopped⟩
    · rename_i hpc
      exact hheard.goOn hheard.mask rfl (hheard.not_blocked hpc rfl) id
    · exact hheard
  | resume =>
    refine hheard.ite fun hpc => hheard.goOn hheard.mask rfl ?_ id
    rcases hpc with hasleep | hhalted
    · exact hheard.awake hasleep hplace
    · exact hheard.not_blocked hhalted rfl
  | tick => exact hheard.ite fun _ => hheard.ready rfl rfl
  | _ => exact hheard.ite fun _ => hheard.block hplace (.inr (.inr rfl)) fun _ => hfits

/-! ## The steps of a sender -/

variable {x : Sender}

theorem exists_mem_set {l : List Sender} {P : Sender → Prop} {i : ℕ} {new : Sender}
    (hsome : ∃ y ∈ l, P y) (hat : l[i]? = some x) (hkeep : P x → P new) :
    ∃ y ∈ l.set i new, P y := by
  obtain ⟨y, hmem, hy⟩ := hsome
  obtain ⟨j, hj⟩ := List.mem_iff_getElem?.mp hmem
  by_cases hij : i = j
  · subst hij
    obtain rfl : x = y := Option.some.inj (hat.symm.trans hj)
    exact ⟨new, List.mem_set (List.getElem?_eq_some_iff.mp hat).1 new, hkeep hy⟩
  · refine ⟨y, List.mem_iff_getElem?.mpr ⟨j, ?_⟩, hy⟩
    rw [List.getElem?_set_ne hij]
    exact hj

/-- A deliverable signal is pending and, as SIGKILL and SIGSTOP are not masked,
unmasked. -/
theorem Heard.unmasked (hheard : Heard s) (hdeliverable : s.thread.deliverable g = true) :
    s.thread.pending g = true ∧ s.thread.mask g = false := by
  rw [Thread.deliverable, and_eq_true, or_eq_true, or_eq_true,
    beq_iff_eq, beq_iff_eq] at hdeliverable
  obtain ⟨hpending, (hmask | rfl) | rfl⟩ := hdeliverable
  · exact ⟨hpending, eq_false_of_not_eq_true' hmask⟩
  · exact ⟨hpending, hheard.mask.1⟩
  · exact ⟨hpending, hheard.mask.2⟩

theorem Heard.setSender (hheard : Heard s) {i : ℕ} {pc : SendPc} (hat : s.senders[i]? = some x)
    (hsame : t.mask = s.thread.mask ∧ t.handler = s.thread.handler ∧ t.pc = s.thread.pc ∧
      t.tcb.state = s.thread.tcb.state ∧ t.tcb.place = s.thread.tcb.place)
    (hpending : ∀ g, t.deliverable g = true → s.thread.deliverable g = true ∨
      Sender.Waking ⟨x.signo, pc⟩ g)
    (hsince : t.since = true → s.thread.since = true ∨ Sender.Resuming ⟨x.signo, pc⟩)
    (hwake : x.pc ≠ .wake)
    (htest : x.pc = .testBlocked → s.thread.tcb.state = .blocked →
      s.thread.deliverable x.signo = true → s.thread.actionable x.signo = true → pc = .wake)
    (hresuming : s.thread.tcb.state = .stopped → x.Resuming → pc ≠ .claimStopped ∧ pc ≠ .done) :
    Heard ⟨t, s.senders.set i ⟨x.signo, pc⟩⟩ := by
  obtain ⟨hmask, hhandler, hpc, hstate, hplace⟩ := hsame
  have hactionable : ∀ g, t.actionable g = s.thread.actionable g := by
    intro g
    rw [Thread.actionable, Thread.actionable, hhandler]
  have hnew : ⟨x.signo, pc⟩ ∈ s.senders.set i ⟨x.signo, pc⟩ :=
    List.mem_set (List.getElem?_eq_some_iff.mp hat).1 _
  refine ⟨hmask ▸ hheard.mask, ?_, ?_, ?_, ?_, ?_⟩
  · simp only [hstate, hpc]
    exact hheard.blocked
  · simp only [hstate, hpc, hplace]
    exact hheard.onCpu
  · simp only [hstate, hpc, hplace]
    exact hheard.awake
  · simp only [hstate, hpc]
    intro hblocked hwaits g hdeliverable hacts
    rw [hactionable] at hacts
    rcases hpending g hdeliverable with hold | hsent
    · refine exists_mem_set (hheard.sleeping hblocked hwaits g hold hacts) hat ?_
      rintro (⟨hpc, rfl⟩ | hpc)
      · exact .inr (htest hpc hblocked hold hacts)
      · exact absurd hpc hwake
    · exact ⟨_, hnew, hsent⟩
  · simp only [hstate]
    intro hstopped hsent
    rcases hsince hsent with hold | hresumes
    · exact exists_mem_set (hheard.stopped hstopped hold) hat fun hx =>
        ⟨hx.1, hresuming hstopped hx⟩
    · exact ⟨_, hnew, hresumes⟩

theorem discard_le {h : Signal} {pending : Signal → Bool}
    (hpending : discard g pending h = true) : pending h = true := by
  rw [discard] at hpending
  split_ifs at hpending
  · exact (and_eq_true _ _ ▸ hpending).1
  · exact (and_eq_true _ _ ▸ hpending).1
  · exact hpending

theorem Heard.sender (hheard : Heard s) {i : ℕ} (hat : s.senders[i]? = some x) :
    Heard ⟨(x.step s.thread).1, s.senders.set i ⟨x.signo, (x.step s.thread).2⟩⟩ := by
  obtain ⟨g, pc⟩ := x
  cases pc with
  | discard =>
    refine hheard.setSender hat ⟨rfl, rfl, rfl, rfl, rfl⟩ (fun h hdeliverable => ?_)
      (fun hsince => ?_) nofun nofun fun _ _ => ⟨nofun, nofun⟩
    · left
      rw [Thread.deliverable, and_eq_true] at hdeliverable ⊢
      exact ⟨discard_le hdeliverable.1, hdeliverable.2⟩
    · rcases or_eq_true _ _ ▸ hsince with hold | hcont
      · exact .inl hold
      · exact .inr ⟨.inl (eq_of_beq hcont), nofun, nofun⟩
  | post =>
    refine hheard.setSender hat ⟨rfl, rfl, rfl, rfl, rfl⟩ (fun h hdeliverable => ?_)
      (fun hsince => ?_) nofun nofun fun _ _ => ⟨nofun, nofun⟩
    · by_cases hself : h = g
      · exact .inr (.inl ⟨rfl, hself.symm⟩)
      · left
        simpa only [Sender.step, Thread.deliverable, Function.update_of_ne hself] using hdeliverable
    · rcases or_eq_true _ _ ▸ hsince with hold | hkill
      · exact .inl hold
      · exact .inr ⟨.inr (eq_of_beq hkill), nofun, nofun⟩
  | testBlocked =>
    refine hheard.setSender hat ⟨rfl, rfl, rfl, rfl, rfl⟩ (fun h => .inl) .inl
      nofun (fun _ hblocked hdeliverable hactionable => ?_) fun _ _ => ?_
    · -- the sender of an unmasked actionable signal finds the thread blocked
      have hwakes : s.thread.wakes g = true :=
        decide_eq_true ⟨hblocked, ⟨g, hheard.unmasked hdeliverable⟩, hactionable⟩
      simp only [Sender.step, hwakes, if_true]
    · simp only [Sender.step]
      split_ifs <;> exact ⟨nofun, nofun⟩
  | wake => exact hheard.ready rfl rfl
  | claim =>
    exact hheard.setSender hat ⟨rfl, rfl, rfl, Tcb.claim_state _, Tcb.claim_place _⟩
      (fun h => .inl) .inl nofun nofun fun _ _ => ⟨nofun, nofun⟩
  | testStopped =>
    refine hheard.setSender hat ⟨rfl, rfl, rfl, rfl, rfl⟩ (fun h => .inl) .inl
      nofun nofun fun hstopped hresuming => ?_
    have hresumes : s.thread.resumes g = true := decide_eq_true ⟨hresuming.1, hstopped⟩
    simp only [Sender.step, hresumes, if_true]
    exact ⟨nofun, nofun⟩
  | resume => exact hheard.ready rfl rfl
  | claimStopped =>
    exact hheard.setSender hat ⟨rfl, rfl, rfl, Tcb.claim_state _, Tcb.claim_place _⟩
      (fun h => .inl) .inl nofun nofun fun _ hresuming => absurd rfl hresuming.2.1
  | done =>
    exact hheard.setSender hat ⟨rfl, rfl, rfl, rfl, rfl⟩ (fun h => .inl) .inl
      nofun nofun fun _ hresuming => absurd rfl hresuming.2.2
  | _ =>
    exact hheard.setSender hat ⟨rfl, rfl, rfl, rfl, rfl⟩ (fun h => .inl) .inl
      nofun nofun fun _ _ => ⟨nofun, nofun⟩

/-! ## Every run -/

/-- The scheduler and other wakers. -/
theorem Heard.setTcb (hheard : Heard s) {tcb : Tcb}
    (htcb : tcb.state = .running ∨ tcb.state = .ready ∨
      tcb.state = s.thread.tcb.state ∧ (tcb.place = .running → s.thread.tcb.place = .running) ∧
        (s.thread.tcb.place = .running → tcb.place = .running)) :
    Heard { s with thread := { s.thread with tcb := tcb } } := by
  rcases htcb with hrunning | hready | ⟨hstate, hfrom, hto⟩
  · refine heard_of_not_blocked hheard.mask ?_ ?_
    · rw [hrunning]
      exact nofun
    · rw [hrunning]
      exact nofun
  · exact hheard.ready rfl hready
  · refine ⟨hheard.mask, ?_, ?_, ?_, ?_, ?_⟩
    · simp only [hstate]
      exact hheard.blocked
    · simp only [hstate]
      exact fun hblocked hpc => hto (hheard.onCpu hblocked hpc)
    · simp only [hstate]
      exact fun hpc hplace => hheard.awake hpc (hfrom hplace)
    · simp only [hstate]
      exact hheard.sleeping
    · simp only [hstate]
      exact hheard.stopped

theorem Heard.send (hheard : Heard s) (x : Sender) :
    Heard { s with senders := s.senders ++ [x] } where
  __ := hheard
  sleeping := fun hblocked hwaits g hdeliverable hactionable => by
    obtain ⟨y, hmem, hy⟩ := hheard.sleeping hblocked hwaits g hdeliverable hactionable
    exact ⟨y, List.mem_append_left _ hmem, hy⟩
  stopped := fun hstopped hsince => by
    obtain ⟨y, hmem, hy⟩ := hheard.stopped hstopped hsince
    exact ⟨y, List.mem_append_left _ hmem, hy⟩

theorem Heard.step (hheard : Heard s) {event : Event} (hfits : event.Fits s) :
    Heard (s.step event) := by
  cases event with
  | own action =>
    simp only [State.step]
    split_ifs with hplace
    · exact hheard.own hplace hfits
    · exact hheard
  | move move =>
    apply hheard.setTcb
    rcases s.thread.tcb.move_state move with hrunning | ⟨hstate, hplace⟩
    · exact .inl hrunning
    · exact .inr (.inr ⟨hstate, hplace, fun h => Tcb.move_running h move⟩)
  | wake =>
    apply hheard.setTcb
    rw [Tcb.wake_state, Tcb.wake_place]
    split_ifs
    · exact .inr (.inl rfl)
    · exact .inr (.inr ⟨rfl, id, id⟩)
  | send g =>
    simp only [State.step]
    split_ifs
    · exact hheard
    · exact hheard.send _
  | sender i =>
    simp only [State.step]
    cases hat : s.senders[i]? with
    | none => exact hheard
    | some x => exact hheard.sender hat

theorem start_heard : Heard State.start := heard_of_not_blocked ⟨rfl, rfl⟩ nofun nofun

/-- In every run whose steps meet the condition, a blocked thread with an unmasked
actionable signal pending is still on its CPU in a wait that will look at it, or a
sender is about to wake it; and a thread that is stopped although a SIGCONT or SIGKILL
came after the signal it acts on has a sender about to resume it. -/
theorem signals_not_lost (hrun : Reaches (guarded (fun s event => Event.Fits s event) State.Step)
      State.start s) :
    (∀ g, s.thread.tcb.state = .blocked → s.thread.deliverable g = true →
      s.thread.actionable g = true →
      (s.thread.pc = .polling ∨ s.thread.pc = .checking) ∧ s.thread.tcb.place = .running ∨
        ∃ x ∈ s.senders, x.Waking g) ∧
    (s.thread.tcb.state = .stopped → s.thread.since = true → ∃ x ∈ s.senders, x.Resuming) := by
  have hheard : Heard s :=
    hrun.kept start_heard fun hheard hfits => hheard.step hfits
  refine ⟨fun g hblocked hdeliverable hactionable => ?_, hheard.stopped⟩
  rcases hheard.blocked hblocked with hpc | hpc | hpc | hpc
  · exact .inl ⟨.inl hpc, hheard.onCpu hblocked (hpc ▸ nofun)⟩
  · exact .inl ⟨.inr hpc, hheard.onCpu hblocked (hpc ▸ nofun)⟩
  · exact .inr (hheard.sleeping hblocked (.inl hpc) g hdeliverable hactionable)
  · exact .inr (hheard.sleeping hblocked (.inr hpc) g hdeliverable hactionable)

/-! ## Runs with one or two senders -/

instance (x : Sender) (g : Signal) : Decidable (x.Waking g) :=
  inferInstanceAs (Decidable (_ ∨ _))

instance (x : Sender) : Decidable x.Resuming := inferInstanceAs (Decidable (_ ∧ _))

instance (s : State) (action : Own) : Decidable (action.Fits s) := by
  cases action <;> unfold Own.Fits <;> infer_instance

instance (s : State) (event : Event) : Decidable (event.Fits s) := by
  cases event <;> unfold Event.Fits <;> infer_instance

/-- A whole call of `signal_send`. -/
def sends (g : Signal) (i : ℕ) : List Event := .send g :: List.replicate 10 (.sender i)

/-- `schedule` switches to another thread. -/
def leaves : List Event := [.own .schedule, .move .publish, .move .switchOut]

/-- SIGTERM comes while the thread sleeps in `kernel_nanosleep`. -/
def wakeRun : List Event :=
  [.own .test, .own .block] ++ leaves ++ [.send 15, .sender 0, .sender 0]

/-- SIGCONT comes after the thread has stopped. -/
def contRun : List Event :=
  sends sigtstp 0 ++ [.own .deliver, .own .take, .own .mark, .own .stop] ++ leaves ++
    [.send sigcont, .sender 1]

/-- The sleeping thread has its sender about to wake it, the stopped one its sender
about to resume it. -/
theorem signals_not_lost_asleep :
    ((wakeRun.foldl State.step State.start).thread.tcb.state = .blocked ∧
      ∃ x ∈ (wakeRun.foldl State.step State.start).senders, x.Waking 15) ∧
    ((contRun.foldl State.step State.start).thread.tcb.state = .stopped ∧
      ∃ x ∈ (contRun.foldl State.step State.start).senders, x.Resuming) := by
  have hblocked : (wakeRun.foldl step start).thread.tcb.state = .blocked := by
    decide +kernel
  have hstopped : (contRun.foldl step start).thread.tcb.state = .stopped := by
    decide +kernel
  have hoff : (wakeRun.foldl step start).thread.tcb.place ≠ .running := by
    decide +kernel
  have hwake := (@signals_not_lost (wakeRun.foldl step start)
    (reaches_foldl (by decide +kernel))).1 15 hblocked (by decide +kernel) (by decide +kernel)
  have hcont := (@signals_not_lost (contRun.foldl step start)
    (reaches_foldl (by decide +kernel))).2 hstopped (by decide +kernel)
  exact ⟨⟨hblocked, hwake.resolve_left fun h => hoff h.2⟩, hstopped, hcont⟩

/-- Blocked on no CPU and no queue, with the signal pending and every call of
`signal_send` returned. -/
def State.lost (s : State) (g : Signal) : Bool :=
  s.thread.tcb.state == .blocked && s.thread.tcb.place == .off &&
    s.thread.tcb.awaited == 0 && s.thread.deliverable g && s.thread.actionable g &&
    s.senders.all fun x => x.pc == .done

/-- SIGTERM comes between the test of `kernel_nanosleep` and its store of `BLOCKED`. -/
def lateRun : List Event := [.own .test] ++ sends 15 0 ++ [.own .block] ++ leaves

/-- SIGTERM is pending when `do_select_kernel` or `futex_wait_bitset` blocks. -/
def uncheckedRun : List Event := sends 15 0 ++ [.own .blockUnchecked] ++ leaves

/-- SIGKILL is sent to a thread that has it in the mask of its `pselect`. -/
def maskedRun : List Event :=
  [.own (.setMask fun g => g == sigkill), .own .blockUnchecked] ++ leaves ++ sends sigkill 0

/-- SIGCONT comes between the end of the pending bit of SIGTSTP and the store of
`STOPPED`. -/
def stopRun : List Event :=
  sends sigtstp 0 ++ [.own .deliver, .own .take] ++ sends sigcont 1 ++
    [.own .mark, .own .stop] ++ leaves

theorem signals_lost : (lateRun.foldl State.step State.start).lost 15 = true ∧
      (uncheckedRun.foldl State.step State.start).lost 15 = true ∧
      (maskedRun.foldl State.step State.start).lost sigkill = true ∧
      (stopRun.foldl State.step State.start).thread.tcb.state = .stopped ∧
      (stopRun.foldl State.step State.start).thread.since = true ∧
      (stopRun.foldl State.step State.start).thread.tcb.awaited = 0 ∧
      ∀ x ∈ (stopRun.foldl State.step State.start).senders, x.pc = .done := by
  refine ⟨?_, ?_, ?_, ?_, ?_, ?_, ?_⟩
  all_goals decide +kernel

end AuraLite.SignalWait

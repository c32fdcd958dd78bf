import AuraLite.Lib.Reachability
import AuraLite.Lib.RingBuffer
import AuraLite.Proc.RunState

/-!
# Anonymous pipes

`pipe_read_op`, `pipe_write_op` and the release of a pipe end, for any number of
threads on one pipe.  What a thread does between taking and giving up the pipe's
lock is one step.  `wq_wait` links the thread into the queue and stores `BLOCKED`
before it releases the lock; then it calls `sched_yield`, which stores `READY`, so
that a waiting thread polls the pipe each time it is scheduled.
-/

namespace AuraLite.Pipe

open Reachability RingBuffer RunState

def pipeBufSize : ℕ := 4096

structure PipeRing where
  ring : RingQueue ℕ
  readers : ℕ
  writers : ℕ

/-- Where a thread is in the operations of the pipe. -/
inductive Phase
  | outside
  /-- In `pipe_read_op`, before the lock. -/
  | reading (count : ℕ)
  /-- In `wq_wait` on `read_wq`; `yielded` tells that `sched_yield` was called. -/
  | readWait (count : ℕ) (yielded : Bool)
  /-- In `pipe_write_op`, before the lock: the bytes left and the number already
  put.  `entered` tells that the first test for readers is behind it. -/
  | writing (rest : List ℕ) (put : ℕ) (entered : Bool)
  /-- In `wq_wait` on `write_wq`. -/
  | writeWait (rest : List ℕ) (put : ℕ) (yielded : Bool)
deriving DecidableEq

structure Task where
  tcb : Tcb
  phase : Phase
deriving DecidableEq

/-- How a locked section of `pipe_read_op` ends. -/
inductive ReadOutcome
  | endOfFile
  | interrupted
  | sleep
  /-- A read of no bytes from a filled ring runs its loop for ever. -/
  | spin
  | data (bytes : List ℕ)
deriving DecidableEq

/-- How a locked section of `pipe_write_op` ends. -/
inductive WriteOutcome
  /-- `SIGPIPE` and `EPIPE`. -/
  | broken
  | interrupted
  /-- The number of bytes put before the readers went or a signal came. -/
  | short (put : ℕ)
  | sleep (rest : List ℕ) (put : ℕ)
  | done (put : ℕ)
deriving DecidableEq

/-- `pipe_read_op` from the lock on. -/
def PipeRing.read (p : PipeRing) (count : ℕ) (signal : Bool) : PipeRing × ReadOutcome :=
  if p.ring.used = 0 then
    if p.writers = 0 then (p, .endOfFile)
    else if signal then (p, .interrupted)
    else (p, .sleep)
  else if count = 0 then (p, .spin)
  else
    let r := p.ring.popAll pipeBufSize count
    ({ p with ring := r.2 }, .data r.1)

/-- The loop of `pipe_write_op` from the lock on. -/
def PipeRing.fill (p : PipeRing) (rest : List ℕ) (put : ℕ) (signal : Bool) :
    PipeRing × WriteOutcome :=
  let r := p.ring.pushAll pipeBufSize rest
  let p' := { p with ring := r.1 }
  let put' := put + (rest.length - r.2.length)
  if r.2 = [] then (p', .done put')
  else if p.readers = 0 then (p', if put' = 0 then .broken else .short put')
  else if signal then (p', if put' = 0 then .interrupted else .short put')
  else (p', .sleep r.2 put')

/-- `pipe_write_op`. -/
def PipeRing.write (p : PipeRing) (rest : List ℕ) (put : ℕ) (entered signal : Bool) :
    PipeRing × WriteOutcome :=
  if entered = false ∧ p.readers = 0 then (p, .broken) else p.fill rest put signal

structure State where
  pipe : PipeRing
  readWq : List ℕ
  writeWq : List ℕ
  tasks : ℕ → Task

/-- `wq_wake_all` on the threads of a queue. -/
def wakeAll (wq : List ℕ) (tasks : ℕ → Task) (t : ℕ) : Task :=
  if t ∈ wq then { tasks t with tcb := (tasks t).tcb.wake } else tasks t

def State.setPhase (s : State) (t : ℕ) (phase : Phase) : State :=
  { s with tasks := Function.update s.tasks t { s.tasks t with phase := phase } }

def State.setTcb (s : State) (t : ℕ) (tcb : Tcb) : State :=
  { s with tasks := Function.update s.tasks t { s.tasks t with tcb := tcb } }

/-- The part of `wq_wait` under the pipe's lock. -/
def State.block (s : State) (t : ℕ) (phase : Phase) : State :=
  { s with
    tasks := Function.update s.tasks t
      ⟨{ (s.tasks t).tcb with state := .blocked }, phase⟩ }

def State.wakeReaders (s : State) : State :=
  { s with readWq := [], tasks := wakeAll s.readWq s.tasks }

def State.wakeWriters (s : State) : State :=
  { s with writeWq := [], tasks := wakeAll s.writeWq s.tasks }

/-- A thread in `pipe_read_op` gets the lock. -/
def State.runRead (s : State) (t count : ℕ) (signal : Bool) : State :=
  match s.pipe.read count signal with
  | (p, .sleep) =>
    ({ s with pipe := p, readWq := t :: s.readWq } : State).block t
      (.readWait count false)
  | (p, .spin) => ({ s with pipe := p } : State).setPhase t (.reading count)
  | (p, .data _) => ({ s with pipe := p } : State).wakeWriters.setPhase t .outside
  | (p, _) => ({ s with pipe := p } : State).setPhase t .outside

/-- A thread in `pipe_write_op` gets the lock.  Only a write that put all of its
bytes wakes the readers. -/
def State.runWrite (s : State) (t : ℕ) (rest : List ℕ) (put : ℕ) (entered signal : Bool) :
    State :=
  match s.pipe.write rest put entered signal with
  | (p, .sleep rest put) =>
    ({ s with pipe := p, writeWq := t :: s.writeWq } : State).block t
      (.writeWait rest put false)
  | (p, .done _) => ({ s with pipe := p } : State).wakeReaders.setPhase t .outside
  | (p, _) => ({ s with pipe := p } : State).setPhase t .outside

/-- The thread gets the pipe's lock, for the first time or at the end of `wq_wait`,
where it takes its entry off the queue. -/
def State.run (s : State) (t : ℕ) (signal : Bool) : State :=
  match (s.tasks t).phase with
  | .reading count => s.runRead t count signal
  | .readWait count true =>
    ({ s with readWq := s.readWq.erase t } : State).runRead t count signal
  | .writing rest put entered => s.runWrite t rest put entered signal
  | .writeWait rest put true =>
    ({ s with writeWq := s.writeWq.erase t } : State).runWrite t rest put true signal
  | _ => s

/-- The call of `sched_yield` in `wq_wait`. -/
def State.yield (s : State) (t : ℕ) : State :=
  match (s.tasks t).phase with
  | .readWait count false =>
    (s.setTcb t (s.tasks t).tcb.yield).setPhase t (.readWait count true)
  | .writeWait rest put false =>
    (s.setTcb t (s.tasks t).tcb.yield).setPhase t (.writeWait rest put true)
  | _ => s

inductive Event
  | read (t count : ℕ)
  | write (t : ℕ) (bytes : List ℕ)
  /-- The thread gets the lock; `signal` is what `signal_interrupted` says. -/
  | run (t : ℕ) (signal : Bool)
  | yield (t : ℕ)
  /-- `sched_tick` at the end of the thread's quantum. -/
  | tick (t : ℕ)
  /-- A step of the scheduler on the thread. -/
  | move (t : ℕ) (move : Move)
  /-- A signal or another waker finds the thread. -/
  | wake (t : ℕ)
  /-- A thread outside of the pipe blocks elsewhere. -/
  | sleep (t : ℕ)
  /-- `ofd_release_backing` for a read end. -/
  | closeRead
  /-- `ofd_release_backing` for a write end. -/
  | closeWrite

/-- The steps.  Those a thread makes itself need it on a CPU and not in `schedule`. -/
def State.step (s : State) : Event → State
  | .read t count =>
    if (s.tasks t).tcb.place = .running ∧ (s.tasks t).phase = .outside then
      s.setPhase t (.reading count)
    else s
  | .write t bytes =>
    if (s.tasks t).tcb.place = .running ∧ (s.tasks t).phase = .outside then
      s.setPhase t (.writing bytes 0 false)
    else s
  | .run t signal => if (s.tasks t).tcb.place = .running then s.run t signal else s
  | .yield t => if (s.tasks t).tcb.place = .running then s.yield t else s
  | .tick t =>
    if (s.tasks t).tcb.place = .running then s.setTcb t (s.tasks t).tcb.yield else s
  | .move t move => s.setTcb t ((s.tasks t).tcb.move move)
  | .wake t => s.setTcb t (s.tasks t).tcb.wake
  | .sleep t =>
    if (s.tasks t).tcb.place = .running ∧ (s.tasks t).phase = .outside then
      s.setTcb t ({ (s.tasks t).tcb with state := .blocked } : Tcb).schedule
    else s
  | .closeRead => { s.wakeWriters with pipe := { s.pipe with readers := s.pipe.readers - 1 } }
  | .closeWrite =>
    { s.wakeReaders with pipe := { s.pipe with writers := s.pipe.writers - 1 } }

def State.Step (s : State) (event : Event) (s' : State) : Prop := s.step event = s'

/-- A new pipe with one open read end and one open write end, and the threads
anywhere else. -/
def State.start (tcbs : ℕ → Tcb) : State where
  pipe := ⟨⟨fun _ => 0, 0, 0, 0⟩, 1, 1⟩
  readWq := []
  writeWq := []
  tasks := fun t => ⟨tcbs t, .outside⟩

/-- The thread is inside `wq_wait` on `read_wq`. -/
def Phase.waitsToRead : Phase → Bool
  | .readWait _ _ => true
  | _ => false

/-- The thread is inside `wq_wait` on `write_wq`. -/
def Phase.waitsToWrite : Phase → Bool
  | .writeWait _ _ _ => true
  | _ => false

/-! ## Every thread in the pipe can run -/

structure Task.Sound (task : Task) : Prop where
  tracked : task.tcb.Tracked
  wakeful : task.phase ≠ .outside → task.tcb.Wakeful

structure Sound (s : State) : Prop where
  valid : Valid pipeBufSize s.pipe.ring
  tasks : ∀ t, (s.tasks t).Sound

variable {s : State} {t : ℕ}

open State

theorem sound_of_running {task : Task} (htracked : task.tcb.Tracked)
    (hplace : task.tcb.place = .running) : task.Sound where
  tracked := htracked
  wakeful := fun _ => Tcb.wakeful_of_running hplace

section

variable (hsound : Sound s)
include hsound

theorem Sound.update {new : Task} (hnew : new.Sound) :
    Sound { s with tasks := Function.update s.tasks t new } :=
  ⟨hsound.valid, (Function.forall_update_iff s.tasks fun _ task => task.Sound).mpr
    ⟨hnew, fun u _ => hsound.tasks u⟩⟩

theorem Sound.setPipe {p : PipeRing}
    (hvalid : Valid pipeBufSize p.ring) : Sound { s with pipe := p } :=
  ⟨hvalid, hsound.tasks⟩

omit hsound in
theorem wakeAll_place (wq : List ℕ) (tasks : ℕ → Task) (t : ℕ) :
    (wakeAll wq tasks t).tcb.place = (tasks t).tcb.place := by
  rw [wakeAll]
  split_ifs
  · exact Tcb.wake_place _
  · rfl

omit hsound in
theorem wakeAll_sound {wq : List ℕ} {tasks : ℕ → Task} (hsound : ∀ t, (tasks t).Sound)
    (t : ℕ) : (wakeAll wq tasks t).Sound := by
  rw [wakeAll]
  split_ifs
  · have htracked := (hsound t).tracked
    exact ⟨htracked.wake, fun hphase => ((hsound t).wakeful hphase).wake htracked⟩
  · exact hsound t

theorem Sound.wakeReaders : Sound s.wakeReaders := ⟨hsound.valid, wakeAll_sound hsound.tasks⟩

theorem Sound.wakeWriters : Sound s.wakeWriters := ⟨hsound.valid, wakeAll_sound hsound.tasks⟩

theorem Sound.setPhase (hplace : (s.tasks t).tcb.place = .running)
    (phase : Phase) : Sound (s.setPhase t phase) :=
  hsound.update (sound_of_running (hsound.tasks t).tracked hplace)

/-- The `BLOCKED` that `wq_wait` stores does not take the thread off its CPU. -/
theorem Sound.block (hplace : (s.tasks t).tcb.place = .running)
    (phase : Phase) : Sound (s.block t phase) := by
  have htracked : ({ (s.tasks t).tcb with state := .blocked } : Tcb).Tracked :=
    (hsound.tasks t).tracked
  exact hsound.update (sound_of_running htracked hplace)

omit hsound in
theorem read_valid {p : PipeRing} (hvalid : Valid pipeBufSize p.ring) (count : ℕ)
    (signal : Bool) : Valid pipeBufSize (p.read count signal).1.ring := by
  rw [PipeRing.read]
  split_ifs
  · exact hvalid
  · exact hvalid
  · exact hvalid
  · exact hvalid
  · exact hvalid.popAll count

omit hsound in
theorem fill_ring (p : PipeRing) (rest : List ℕ) (put : ℕ) (signal : Bool) :
    (p.fill rest put signal).1.ring = (p.ring.pushAll pipeBufSize rest).1 := by
  simp only [PipeRing.fill]
  split_ifs <;> rfl

omit hsound in
theorem write_valid {p : PipeRing} (hvalid : Valid pipeBufSize p.ring) (rest : List ℕ)
    (put : ℕ) (entered signal : Bool) :
    Valid pipeBufSize (p.write rest put entered signal).1.ring := by
  rw [PipeRing.write]
  split_ifs
  · exact hvalid
  · rw [fill_ring]
    exact hvalid.pushAll rest

section

variable (hplace : (s.tasks t).tcb.place = .running)
include hplace

theorem Sound.runRead (count : ℕ) (signal : Bool) : Sound (s.runRead t count signal) := by
  have hvalid := read_valid hsound.valid count signal
  rw [State.runRead]
  cases hread : s.pipe.read count signal with
  | mk p outcome =>
    rw [hread] at hvalid
    have hpipe := hsound.setPipe hvalid
    cases outcome with
    | sleep =>
      have hlinked : Sound { s with pipe := p, readWq := t :: s.readWq } := ⟨hvalid, hsound.tasks⟩
      exact hlinked.block hplace _
    | data bytes =>
      exact hpipe.wakeWriters.setPhase ((wakeAll_place _ _ t).trans hplace) _
    | _ => exact hpipe.setPhase hplace _

theorem Sound.runWrite (rest : List ℕ) (put : ℕ) (entered signal : Bool) :
    Sound (s.runWrite t rest put entered signal) := by
  have hvalid := write_valid hsound.valid rest put entered signal
  rw [State.runWrite]
  cases hwrite : s.pipe.write rest put entered signal with
  | mk p outcome =>
    rw [hwrite] at hvalid
    have hpipe := hsound.setPipe hvalid
    cases outcome with
    | sleep rest put =>
      have hlinked : Sound { s with pipe := p, writeWq := t :: s.writeWq } := ⟨hvalid, hsound.tasks⟩
      exact hlinked.block hplace _
    | done put =>
      exact hpipe.wakeReaders.setPhase ((wakeAll_place _ _ t).trans hplace) _
    | _ => exact hpipe.setPhase hplace _

theorem Sound.run (signal : Bool) : Sound (s.run t signal) := by
  rw [State.run]
  split
  · exact hsound.runRead hplace _ signal
  · have hunlinked : Sound { s with readWq := s.readWq.erase t } := ⟨hsound.valid, hsound.tasks⟩
    exact hunlinked.runRead hplace _ signal
  · exact hsound.runWrite hplace _ _ _ signal
  · have hunlinked : Sound { s with writeWq := s.writeWq.erase t } := ⟨hsound.valid, hsound.tasks⟩
    exact hunlinked.runWrite hplace _ _ _ signal
  · exact hsound

end

/-- A step of the scheduler, of a waker or of the thread on its own TCB. -/
theorem Sound.setTcb {tcb : Tcb} (htracked : tcb.Tracked)
    (hwakeful : (s.tasks t).phase ≠ .outside → tcb.Wakeful) : Sound (s.setTcb t tcb) :=
  hsound.update ⟨htracked, hwakeful⟩

/-- `sched_yield` stores `READY` whatever the state was. -/
theorem Sound.yielded (t : ℕ) (phase : Phase) :
    Sound ((s.setTcb t (s.tasks t).tcb.yield).setPhase t phase) := by
  have htracked : (s.tasks t).tcb.yield.Tracked := (hsound.tasks t).tracked
  refine (hsound.setTcb htracked fun _ => Tcb.wakeful_yield _).update ⟨?_, fun _ => ?_⟩
  · simp only [State.setTcb, Function.update_self]
    exact htracked
  · simp only [State.setTcb, Function.update_self]
    exact Tcb.wakeful_yield _

theorem Sound.step (event : Event) : Sound (s.step event) := by
  cases event with
  | run t signal =>
    simp only [State.step]
    split_ifs with hrunning
    · exact hsound.run hrunning signal
    · exact hsound
  | yield t =>
    simp only [State.step]
    split_ifs with hrunning
    · rw [yield]
      split
      · exact hsound.yielded t _
      · exact hsound.yielded t _
      · exact hsound
    · exact hsound
  | tick t =>
    simp only [State.step]
    split_ifs with hrunning
    · have htracked : (s.tasks t).tcb.yield.Tracked := (hsound.tasks t).tracked
      exact hsound.setTcb htracked fun _ => Tcb.wakeful_yield _
    · exact hsound
  | move t move =>
    have htracked := (hsound.tasks t).tracked
    exact hsound.setTcb (htracked.move move) fun hphase =>
      ((hsound.tasks t).wakeful hphase).move htracked move
  | wake t =>
    have htracked := (hsound.tasks t).tracked
    exact hsound.setTcb htracked.wake fun hphase =>
      ((hsound.tasks t).wakeful hphase).wake htracked
  | sleep t =>
    simp only [State.step]
    split_ifs with hrunning
    · have htracked : ({ (s.tasks t).tcb with state := .blocked } : Tcb).schedule.Tracked :=
        (hsound.tasks t).tracked
      exact hsound.setTcb htracked fun hphase => absurd hrunning.2 hphase
    · exact hsound
  | closeRead => exact hsound.wakeWriters.setPipe hsound.valid
  | closeWrite => exact hsound.wakeReaders.setPipe hsound.valid
  | _ =>
    simp only [State.step]
    split_ifs with hrunning
    · exact hsound.setPhase hrunning.1 _
    · exact hsound

end

variable {tcbs : ℕ → Tcb}

theorem start_sound (htcbs : ∀ t, (tcbs t).Tracked) : Sound (State.start tcbs) := by
  have hcap : 0 < pipeBufSize := by decide
  exact ⟨⟨Nat.zero_le _, hcap, rfl⟩, fun t => ⟨htcbs t, fun hphase => absurd rfl hphase⟩⟩

theorem reaches_sound (htcbs : ∀ t, (tcbs t).Tracked)
    (hrun : Reaches State.Step (State.start tcbs) s) : Sound s := by
  refine hrun.invariant (start_sound htcbs) ?_
  intro before event after hsound hstep
  exact hstep ▸ hsound.step event

/-- However reads, writes, signals and closes interleave, the ring holds no more than its
size, from its read index to its write index. -/
theorem ring_indices_agree (events : List Event) :
    Valid pipeBufSize (events.foldl State.step (State.start fun _ => .fresh)).pipe.ring :=
  (reaches_sound (fun _ => Tcb.tracked_fresh) (reaches_run State.step events _)).valid

/-- In no reachable state is there a thread in `read_wq` while the ring has bytes or
no writer is left, or one in `write_wq` while the ring has room or no reader is left,
and no thread that can run inside an operation on the pipe. -/
theorem pipe_never_stalls {tcbs : ℕ → Tcb} (htcbs : ∀ t, (tcbs t).Tracked)
    (hrun : Reaches State.Step (State.start tcbs) s) :
    (¬ ∃ t, (s.tasks t).phase.waitsToRead = true ∧ (0 < s.pipe.ring.used ∨ s.pipe.writers = 0) ∧
      ∀ u, (s.tasks u).phase ≠ .outside → ¬ (s.tasks u).tcb.Runnable) ∧
    ¬ ∃ t, (s.tasks t).phase.waitsToWrite = true ∧
      (s.pipe.ring.used < pipeBufSize ∨ s.pipe.readers = 0) ∧
      ∀ u, (s.tasks u).phase ≠ .outside → ¬ (s.tasks u).tcb.Runnable := by
  have hstuck : ∀ t, (∀ u, (s.tasks u).phase ≠ .outside → ¬ (s.tasks u).tcb.Runnable) →
      (s.tasks t).phase = .outside := fun t hnone =>
    -- a thread inside an operation can run, also while it waits
    by_contra fun hphase => hnone t hphase
      (((reaches_sound htcbs hrun).tasks t).wakeful hphase).runnable
  constructor
  all_goals
    rintro ⟨t, hwaits, -, hnone⟩
    rw [hstuck t hnone] at hwaits
    cases hwaits

/-! ## A reader and a writer of more than the ring holds -/

/-- Thread `0` waits for a byte, and thread `1` fills the ring and waits for room:
both are in their queues, and `wq_wake_all` was not called. -/
def fullRun : List Event :=
  [.read 0 1, .run 0 false, .yield 0, .move 0 .publish, .move 0 .enqueue,
    .move 0 .switchOut, .write 1 (List.replicate 4097 7), .run 1 false, .yield 1,
    .move 1 .publish, .move 1 .enqueue, .move 1 .switchOut]

/-- Both threads are on run queues then, so that neither is stuck. -/
theorem pipe_never_stalls_full :
    ((fullRun.foldl State.step (State.start fun _ => .fresh)).tasks 0).phase = .readWait 1 true ∧
      ((fullRun.foldl State.step (State.start fun _ => .fresh)).tasks 1).phase =
        .writeWait [7] 4096 true ∧
      (fullRun.foldl State.step (State.start fun _ => .fresh)).pipe.ring.used = pipeBufSize ∧
      ∃ u, ((fullRun.foldl State.step (State.start fun _ => .fresh)).tasks u).phase ≠ .outside ∧
        ((fullRun.foldl State.step (State.start fun _ => .fresh)).tasks u).tcb.Runnable := by
  have hphase : ((fullRun.foldl step (start fun _ => .fresh)).tasks 0).phase =
      .readWait 1 true := by decide +kernel
  have hused : (fullRun.foldl step (start fun _ => .fresh)).pipe.ring.used =
      pipeBufSize := by decide +kernel
  have hstalls := (pipe_never_stalls (fun _ => Tcb.tracked_fresh) (reaches_run step fullRun _)).1
  refine ⟨hphase, by decide +kernel, hused, ?_⟩
  by_contra hnone
  refine hstalls ⟨0, ?_, .inl ?_, fun u hinside hrunnable => hnone ⟨u, hinside, hrunnable⟩⟩
  · rw [hphase]
    rfl
  · rw [hused]
    decide

end AuraLite.Pipe

import AuraLite.Lib.Reachability
import AuraLite.Proc.SignalFrame

/-!
# Nested signal handlers and the restart of system calls

One thread that runs user code, makes system calls, is interrupted by handlers and
returns from them.  Beside the state of the kernel a run keeps the list of the frames
that have not been returned from, innermost first: where each one lies, which registers
and mask were in force when it was built, and which system call it interrupted.
-/

namespace AuraLite.SignalStack

open List Reachability SignalFrame

/-- `-EINTR` in a register. -/
def eintr : ℕ := 2 ^ 64 - 4

def sysSigreturn : ℕ := 15

structure Call where
  num : ℕ
  args : List ℕ
deriving DecidableEq

/-- `is_restartable`: read, write, nanosleep, select, futex, and the socket calls. -/
def isRestartable (num : ℕ) : Bool :=
  num ∈ [0, 1, 35, 23, 530, 303, 302, 301, 308, 307, 44, 45]

/-- `struct sigaction`. -/
structure SigAction where
  handler : ℕ
  saMask : ℕ
  restart : Bool
  nodefer : Bool
  siginfo : Bool
  restorer : ℕ

/-- The fields of the TCB; `restart` is the last system call dispatched. -/
structure Thread where
  persona : Persona
  mask : ℕ
  suspendActive : Bool
  suspendRestore : ℕ
  restart : Call
  restartPending : Bool

def Thread.savedMask (t : Thread) : ℕ :=
  if t.suspendActive then t.suspendRestore else t.mask

/-- A frame that has not been returned from: its words, the registers and the mask in
force when it was built, and the system call it is to restart. -/
structure Frame where
  base : ℕ
  regs : Regs
  mask : ℕ
  signo : ℕ
  restorer : ℕ
  info : ℕ → ℕ
  call : Option Call

inductive Phase
  | user
  /-- At the exit of a system call; `before` is the mask before a sigsuspend. -/
  | exiting (call : Call) (retval : ℕ) (before : Option ℕ)
  | dead

structure State where
  thread : Thread
  regs : Regs
  mem : ℕ → ℕ
  phase : Phase
  frames : List Frame

/-- What a delivery depends on beside the thread: the disposition and number of the
signal, whether the user range can be written, the words of the siginfo, and what a
native frame puts below the return address for `SA_SIGINFO`. -/
structure Delivery where
  sa : SigAction
  signo : ℕ
  validated : Bool
  info : ℕ → ℕ
  below : ℕ → ℕ

/-- The call at whose exit a signal is delivered is to be restarted. -/
def restarts (sa : SigAction) (num retval : ℕ) : Bool :=
  retval == eintr && sa.restart && isRestartable num

def Thread.handlerMask (t : Thread) (sa : SigAction) (signo : ℕ) : ℕ :=
  maskClean (t.mask ||| sa.saMask ||| if sa.nodefer then 0 else sigBit signo)

/-- The addresses of siginfo and ucontext for an `SA_SIGINFO` handler. -/
def infoAddr : Persona → ℕ → ℕ × ℕ
  | .native, base => ((((base - 184) / 16 * 16) - 32) / 16 * 16, (base - 184) / 16 * 16)
  | .lx, base => (base + 944, base + 8)

def handlerRegs (p : Persona) (r : Regs) (d : Delivery) (base : ℕ) : Regs :=
  { r with
    rip := d.sa.handler
    rsp := base
    rdi := d.signo
    rsi := if d.sa.siginfo then (infoAddr p base).1 else 0
    rdx := if d.sa.siginfo then (infoAddr p base).2 else 0
    rax := 0
    rflags := handlerFlags r.rflags }

/-- `build_handler_frame` and `build_handler_frame_lx`; only the first looks at
`SA_RESTART`.  The frame is recorded with the mask in force and the interrupted call. -/
def State.buildHandlerFrame (s : State) (r : Regs) (d : Delivery) (mask : ℕ)
    (call : Option Call) : State :=
  let t := s.thread
  let p := t.persona
  if d.validated = true ∧ hasRoom p r.rsp = true ∧ d.sa.restorer ≠ 0 ∧
      d.sa.restorer < userVaddrTop then
    let base := handlerRsp p r.rsp
    let below := fun addr => if d.sa.siginfo = true ∧ addr < base then d.below addr
      else s.mem addr
    { thread := { t with
        mask := t.handlerMask d.sa d.signo
        suspendActive := false
        restartPending := t.restartPending ||
          (p == .native && restarts d.sa t.restart.num r.rax) }
      regs := handlerRegs p r d base
      mem := writeWords below base (frameWords p)
        (frameWord p r t.savedMask d.signo d.sa.restorer d.info)
      phase := .user
      frames := ⟨base, r, mask, d.signo, d.sa.restorer, d.info, call⟩ :: s.frames }
  else { s with phase := .dead }

/-- The registers `syscall_check_signals` synthesises at the exit of a system call. -/
def exitRegs (r : Regs) (retval : ℕ) : Regs :=
  { r with
    r11 := 0, r10 := 0, r9 := 0, r8 := 0, rdi := 0, rsi := 0, rdx := 0, rcx := 0
    rax := retval }

/-- `do_sigreturn` and `lx_do_sigreturn`, with the call that is dispatched again and its
result. -/
def State.sigreturn (s : State) (validated : Bool) (result : ℕ) : State × Option Call :=
  let r := readFrame s.thread.persona s.regs.fx fun i => s.mem (s.regs.rsp + 8 * i)
  if validated = true ∧ r.1.rip < userVaddrTop ∧ r.1.rsp < userVaddrTop then
    if s.thread.restartPending then
      ({ s with
          thread := { s.thread with mask := r.2, restartPending := false }
          regs := { r.1 with rax := result }
          frames := s.frames.tail }, some s.thread.restart)
    else
      ({ s with
          thread := { s.thread with mask := r.2 }
          regs := r.1
          frames := s.frames.tail }, none)
  else ({ s with phase := .dead }, none)

/-- What a system call does to the mask. -/
inductive MaskEffect
  | keep
  /-- `sigprocmask`. -/
  | set (mask : ℕ)
  /-- `do_sigsuspend`; `caught` tells that a handler will run for the signal that ended
  it. -/
  | suspend (mask : ℕ) (caught : Bool)

def Thread.apply (t : Thread) : MaskEffect → Thread
  | .keep => t
  | .set mask => { t with mask := maskClean mask }
  | .suspend mask true =>
    { t with mask := maskClean mask, suspendActive := true, suspendRestore := t.mask }
  | .suspend _ false => t

def MaskEffect.before (mask : ℕ) : MaskEffect → Option ℕ
  | .suspend _ _ => some mask
  | _ => none

inductive Event
  /-- User code runs. -/
  | user (regs : Regs) (mem : ℕ → ℕ)
  | call (call : Call) (retval : ℕ) (effect : MaskEffect)
  /-- The system call returns without a handler. -/
  | leave
  /-- A handler is entered at the exit of the system call. -/
  | deliverExit (d : Delivery)
  /-- A handler is entered on the return from an interrupt or a fault. -/
  | deliver (d : Delivery)
  | sigreturn (validated : Bool) (result : ℕ)

def State.step (s : State) : Event → State
  | .user regs mem =>
    match s.phase with
    | .user => { s with regs := regs, mem := mem }
    | _ => s
  | .call call retval effect =>
    match s.phase with
    | .user =>
      { s with
        thread := { s.thread.apply effect with restart := call }
        phase := .exiting call retval (effect.before s.thread.mask) }
    | _ => s
  | .leave =>
    match s.phase with
    | .exiting _ retval _ =>
      { s with
        regs := { s.regs with rax := retval, rcx := s.regs.rip, r11 := s.regs.rflags }
        phase := .user }
    | _ => s
  | .deliverExit d =>
    match s.phase with
    | .exiting call retval before =>
      s.buildHandlerFrame (exitRegs s.regs retval) d (before.getD s.thread.mask)
        (if restarts d.sa call.num retval then some call else none)
    | _ => s
  | .deliver d =>
    match s.phase with
    | .user => s.buildHandlerFrame s.regs d s.thread.mask none
    | _ => s
  | .sigreturn validated result =>
    match s.phase with
    | .user => (s.sigreturn validated result).1
    | _ => s

def State.Step (s : State) (event : Event) (s' : State) : Prop := s.step event = s'

def State.start (persona : Persona) (regs : Regs) (mem : ℕ → ℕ) : State where
  thread := ⟨persona, 0, false, 0, ⟨0, []⟩, false⟩
  regs := regs
  mem := mem
  phase := .user
  frames := []

/-- Handlers are nested: user code does not touch the frames nor move RSP above the one
of its own handler, returns from a handler with RSP at its frame, and makes no other
call of sigreturn. -/
def Event.Proper (s : State) : Event → Prop
  | .user regs mem =>
    (∀ f ∈ s.frames, ∀ i < frameWords s.thread.persona,
      mem (f.base + 8 * i) = s.mem (f.base + 8 * i)) ∧
    ∀ f ∈ s.frames.head?, regs.rsp ≤ f.base + 8
  | .sigreturn _ _ => ∃ f ∈ s.frames.head?, s.regs.rsp = f.base + 8
  | .call c _ _ => c.num ≠ sysSigreturn
  | _ => True

/-- The condition on the steps: no system call and no other delivery in a handler that
interrupted a call to be restarted; no delivery outside of a system call that finds
`-EINTR` in RAX, `SA_RESTART` set and a restartable call the last; no interrupted call
to be restarted in an lx process; and no return from a sigsuspend that left its mask
without a handler. -/
def Event.Apart (s : State) : Event → Prop
  | .call _ _ _ => s.thread.restartPending = false
  | .deliver d => s.thread.restartPending = false ∧
      restarts d.sa s.thread.restart.num s.regs.rax = false
  | .deliverExit d =>
    match s.phase with
    | .exiting c retval _ =>
      s.thread.persona = .lx → restarts d.sa c.num retval = false
    | _ => True
  | .leave => s.thread.suspendActive = false
  | _ => True

def Event.Fits (s : State) (event : Event) : Prop := event.Proper s ∧ event.Apart s

/-! ## Frames do not overlap -/

/-- The frames lie below each other, each below the RSP it saved. -/
def Stacked (p : Persona) : ℕ → List Frame → Prop
  | _, [] => True
  | rsp, f :: rest =>
    rsp ≤ f.base + 8 ∧ f.base + 8 * frameWords p + 112 ≤ f.regs.rsp ∧
      Stacked p f.regs.rsp rest

theorem Stacked.le {p : Persona} {rsp : ℕ} {frames : List Frame}
    (hstacked : Stacked p rsp frames) {f : Frame} (hmem : f ∈ frames) :
    rsp ≤ f.base + 8 := by
  induction frames generalizing rsp with
  | nil => cases hmem
  | cons g rest ih =>
    obtain ⟨hle, hbelow, hrest⟩ := hstacked
    rcases mem_cons.mp hmem with rfl | hin
    · exact hle
    · have hnext := ih hrest hin
      omega

theorem Stacked.of_le {p : Persona} {rsp rsp' : ℕ} {frames : List Frame}
    (hstacked : Stacked p rsp frames) (hle : ∀ f ∈ frames.head?, rsp' ≤ f.base + 8) :
    Stacked p rsp' frames := by
  cases frames with
  | nil => trivial
  | cons f rest => exact ⟨hle f rfl, hstacked.2⟩

/-- The words of the frame are in memory. -/
def Frame.Intact (p : Persona) (mem : ℕ → ℕ) (f : Frame) : Prop :=
  ∀ i < frameWords p,
    mem (f.base + 8 * i) = frameWord p f.regs f.mask f.signo f.restorer f.info i

structure Nested (s : State) : Prop where
  stacked : Stacked s.thread.persona s.regs.rsp s.frames
  intact : ∀ f ∈ s.frames, f.Intact s.thread.persona s.mem ∧ maskClean f.mask = f.mask
  mask : maskClean s.thread.mask = s.thread.mask
  suspended : s.phase = .user → s.thread.suspendActive = false
  exiting : ∀ call retval before, s.phase = .exiting call retval before →
    s.thread.savedMask = before.getD s.thread.mask ∧
      maskClean s.thread.savedMask = s.thread.savedMask ∧
      s.thread.restart = call ∧ s.thread.restartPending = false
  calls : ∀ f rest, s.frames = f :: rest →
    f.call = (if s.thread.restartPending then some s.thread.restart else none) ∧
      ∀ g ∈ rest, g.call = none

variable {s : State}
variable {f : Frame} {r r' : Regs} {p : Persona} {rest frames : List Frame}

theorem Nested.quiet (hnested : Nested s) (hquiet : s.thread.restartPending = false) :
    ∀ f ∈ s.frames, f.call = none := by
  cases hframes : s.frames with
  | nil => exact nofun
  | cons f rest =>
    have hcalls := hnested.calls f rest hframes
    rw [hquiet] at hcalls
    exact forall_mem_cons.mpr hcalls

/-- A frame built for registers with the thread's RSP, with its mask and its call
recorded as they are. -/
theorem Nested.build (hnested : Nested s) {d : Delivery} {mask : ℕ} {call : Option Call}
    (hrsp : r.rsp = s.regs.rsp) (hsaved : s.thread.savedMask = mask)
    (hclean : maskClean mask = mask) (hquiet : s.thread.restartPending = false)
    (hcall : call = if s.thread.persona == .native &&
      restarts d.sa s.thread.restart.num r.rax then some s.thread.restart else none) :
    (s.buildHandlerFrame r d mask call).phase = .dead ∨
      Nested (s.buildHandlerFrame r d mask call) := by
  simp only [State.buildHandlerFrame]
  split_ifs with hvalid
  swap
  · exact .inl rfl
  right
  have hbelow := handlerRsp_below hvalid.2.1
  have hstacked : Stacked s.thread.persona r.rsp s.frames := hrsp ▸ hnested.stacked
  refine ⟨⟨Nat.le_add_right _ _, hbelow, hstacked⟩, forall_mem_cons.mpr
    ⟨⟨fun i hi => ?_, hclean⟩, fun f hold => ⟨fun i hi => ?_, (hnested.intact f hold).2⟩⟩,
    maskClean_idem _, fun _ => rfl, nofun, ?_⟩
  · simp only [writeWords_inside _ _ _ hi, hsaved]
  · -- an older frame lies above the words written now
    have hle := hstacked.le hold
    have habove : handlerRsp s.thread.persona r.rsp + 8 * frameWords s.thread.persona ≤
        f.base + 8 * i := by omega
    have hbase : ¬ (d.sa.siginfo = true ∧
        f.base + 8 * i < handlerRsp s.thread.persona r.rsp) := by omega
    simp only [writeWords_above habove, if_neg hbase]
    exact (hnested.intact f hold).1 i hi
  · rintro f rest ⟨⟩
    refine ⟨?_, hnested.quiet hquiet⟩
    simp only [hcall, hquiet, Bool.false_or]

/-! ## Return from the innermost handler -/

theorem general_rip (hgeneral : r.general = r'.general) : r.rip = r'.rip ∧ r.rsp = r'.rsp := by
  simp only [Regs.general, cons.injEq] at hgeneral
  obtain ⟨-, -, -, -, -, -, -, -, -, -, -, -, -, -, -, hrip, hrsp, -⟩ := hgeneral
  exact ⟨hrip, hrsp⟩

theorem general_rax (hgeneral : r.general = r'.general) (rax : ℕ) :
    ({ r with rax := rax } : Regs).general = ({ r' with rax := rax } : Regs).general := by
  simp only [Regs.general, cons.injEq] at hgeneral ⊢
  obtain ⟨h15, h14, h13, h12, h11, h10, h9, h8, hdi, hsi, hbp, hdx, hcx, hbx, -, hrest⟩ := hgeneral
  exact ⟨h15, h14, h13, h12, h11, h10, h9, h8, hdi, hsi, hbp, hdx, hcx, hbx, trivial, hrest⟩

theorem Nested.read (hnested : Nested s) (hframes : s.frames = f :: rest)
    (hrsp : s.regs.rsp = f.base + 8) :
    let r := readFrame s.thread.persona s.regs.fx fun i => s.mem (s.regs.rsp + 8 * i)
    r.1.general = f.regs.general ∧ r.1.rflags = restoreFlags f.regs.rflags ∧ r.2 = f.mask := by
  obtain ⟨hintact, hmask⟩ := hnested.intact f (hframes ▸ mem_cons_self)
  refine readFrame_frameWord s.thread.persona f.regs f.signo f.restorer f.info s.regs.fx
    hmask fun i hi => ?_
  have haddr : s.regs.rsp + 8 * i = f.base + 8 * (i + 1) := by omega
  simp only [haddr]
  exact hintact (i + 1) hi

/-- The registers a return from the frame gives: those saved, with the result of the
restarted call in RAX. -/
def Frame.resumed (f : Frame) (result : ℕ) : Regs :=
  match f.call with
  | some _ => { f.regs with rax := result }
  | none => f.regs

theorem Nested.sigreturn (hnested : Nested s) (hframes : s.frames = f :: rest)
    (hrsp : s.regs.rsp = f.base + 8) (validated : Bool) (result : ℕ) :
    (s.sigreturn validated result).1.phase = .dead ∧
        (validated = false ∨ userVaddrTop ≤ f.regs.rip ∨ userVaddrTop ≤ f.regs.rsp) ∨
      ∃ regs : Regs, regs.general = (f.resumed result).general ∧
        regs.rflags = restoreFlags f.regs.rflags ∧
        s.sigreturn validated result = ({ s with
          thread := { s.thread with mask := f.mask, restartPending := false }
          regs := regs
          frames := rest }, f.call) := by
  have hread := hnested.read hframes hrsp
  simp only [State.sigreturn]
  generalize readFrame s.thread.persona s.regs.fx (fun i => s.mem (s.regs.rsp + 8 * i)) = r
    at hread ⊢
  obtain ⟨regs, mask⟩ := r
  obtain ⟨hgeneral, hflags, rfl⟩ := hread
  obtain ⟨hrip, hrspSaved⟩ := general_rip hgeneral
  have hcall := (hnested.calls f rest hframes).1
  split_ifs with hvalid hpending
  · rw [if_pos hpending] at hcall
    refine .inr ⟨{ regs with rax := result }, ?_, hflags, ?_⟩
    · rw [Frame.resumed, hcall]
      exact general_rax hgeneral result
    · rw [hframes, hcall]
      rfl
  · rw [if_neg hpending] at hcall
    refine .inr ⟨regs, ?_, hflags, ?_⟩
    · rw [Frame.resumed, hcall]
      exact hgeneral
    · rw [hframes, hcall, ← Bool.eq_false_of_not_eq_true hpending]
      rfl
  · left
    refine ⟨rfl, ?_⟩
    rw [hrip, hrspSaved] at hvalid
    by_contra hnone
    simp only [not_or, Bool.not_eq_false, Nat.not_le] at hnone
    exact hvalid hnone

/-! ## Every run -/

theorem apply_persona (t : Thread) (effect : MaskEffect) : (t.apply effect).persona = t.persona ∧
      (t.apply effect).restartPending = t.restartPending := by
  cases effect with
  | keep => exact ⟨rfl, rfl⟩
  | set mask => exact ⟨rfl, rfl⟩
  | suspend mask caught =>
    cases caught with
    | true => exact ⟨rfl, rfl⟩
    | false => exact ⟨rfl, rfl⟩

/-- After a system call the frames record the mask in force, or the one before a
sigsuspend. -/
theorem apply_savedMask {t : Thread} (hactive : t.suspendActive = false)
    (hmask : maskClean t.mask = t.mask) (effect : MaskEffect) :
    maskClean (t.apply effect).mask = (t.apply effect).mask ∧
      (t.apply effect).savedMask = (effect.before t.mask).getD (t.apply effect).mask ∧
      maskClean (t.apply effect).savedMask = (t.apply effect).savedMask := by
  have hsaved : ∀ u : Thread, u.suspendActive = false → u.savedMask = u.mask := by
    intro u hu
    rw [Thread.savedMask, hu]
    rfl
  cases effect with
  | keep =>
    rw [Thread.apply, hsaved t hactive]
    exact ⟨hmask, rfl, hmask⟩
  | set mask =>
    have hset := hsaved (t.apply (.set mask)) hactive
    rw [hset]
    exact ⟨maskClean_idem mask, rfl, maskClean_idem mask⟩
  | suspend mask caught =>
    cases caught with
    | true => exact ⟨maskClean_idem mask, rfl, hmask⟩
    | false =>
      rw [Thread.apply, hsaved t hactive]
      exact ⟨hmask, rfl, hmask⟩

theorem Nested.call (hnested : Nested s) (hphase : s.phase = .user)
    (hquiet : s.thread.restartPending = false) (call : Call) (retval : ℕ)
    (effect : MaskEffect) :
    Nested { s with
      thread := { s.thread.apply effect with restart := call }
      phase := .exiting call retval (effect.before s.thread.mask) } := by
  obtain ⟨hpersona, hpending⟩ := apply_persona s.thread effect
  obtain ⟨hmask, hsaved, hclean⟩ :=
    apply_savedMask (hnested.suspended hphase) hnested.mask effect
  refine ⟨?_, ?_, hmask, nofun, ?_, ?_⟩
  · simp only [hpersona]
    exact hnested.stacked
  · simp only [hpersona]
    exact hnested.intact
  · intro call' retval' before' heq
    injection heq with hcall _ hbefore
    subst hbefore
    exact ⟨hsaved, hclean, hcall, hpending.trans hquiet⟩
  · have hnone := hnested.quiet hquiet
    intro f rest hframes
    rw [hframes] at hnone
    simp only [hpending, hquiet]
    exact forall_mem_cons.mp hnone

theorem Nested.step (hnested : Nested s) {event : Event} (hfits : event.Fits s) :
    (s.step event).phase = .dead ∨ Nested (s.step event) := by
  obtain ⟨hproper, hapart⟩ := hfits
  cases event with
  | user regs mem =>
    simp only [State.step]
    split
    · rename_i hphase
      right
      refine { hnested with
        stacked := hnested.stacked.of_le hproper.2
        intact := fun f hmem => ⟨fun i hi => ?_, (hnested.intact f hmem).2⟩ }
      simp only [hproper.1 f hmem i hi]
      exact (hnested.intact f hmem).1 i hi
    · exact .inr hnested
  | call c retval effect =>
    simp only [State.step]
    split
    · rename_i hphase
      exact .inr (hnested.call hphase hapart c retval effect)
    · exact .inr hnested
  | leave =>
    simp only [State.step]
    split
    · right
      exact { hnested with suspended := fun _ => hapart, exiting := nofun }
    · exact .inr hnested
  | deliverExit d =>
    simp only [State.step]
    split
    · rename_i call retval before hphase
      obtain ⟨hsaved, hclean, hrestart, hquiet⟩ := hnested.exiting call retval before hphase
      refine hnested.build rfl hsaved (hsaved ▸ hclean) hquiet ?_
      rw [hrestart]
      cases hpersona : s.thread.persona with
      | native => rfl
      | lx =>
        simp only [Event.Apart, hphase] at hapart
        rw [hapart hpersona]
        rfl
    · exact .inr hnested
  | deliver d =>
    simp only [State.step]
    split
    · rename_i hphase
      have hsaved : s.thread.savedMask = s.thread.mask := by
        rw [Thread.savedMask, hnested.suspended hphase]
        rfl
      refine hnested.build rfl hsaved hnested.mask hapart.1 ?_
      simp only [hapart.2, Bool.and_false, Bool.false_eq_true, if_false]
    · exact .inr hnested
  | sigreturn validated result =>
    simp only [State.step]
    split
    · rename_i hphase
      obtain ⟨f, hhead, hrsp⟩ := hproper
      obtain ⟨rest, hframes⟩ := head?_eq_some_iff.mp hhead
      rcases hnested.sigreturn hframes hrsp validated result with
        ⟨hdead, -⟩ | ⟨regs, hregs, -, heq⟩
      · exact .inl hdead
      right
      rw [heq]
      have hstacked := hnested.stacked
      obtain ⟨hfirst, hothers⟩ := forall_mem_cons.mp (hframes ▸ hnested.intact)
      rw [hframes] at hstacked
      have hresumed : (f.resumed result).rsp = f.regs.rsp := by
        rw [Frame.resumed]
        split <;> rfl
      refine ⟨?_, hothers, hfirst.2, fun _ => hnested.suspended hphase, ?_, ?_⟩
      · simp only [(general_rip hregs).2, hresumed]
        exact hstacked.2.2
      · simp only [hphase]
        exact nofun
      · rintro g others rfl
        exact forall_mem_cons.mp (hnested.calls f _ hframes).2
    · exact .inr hnested

theorem start_nested (persona : Persona) (regs : Regs) (mem : ℕ → ℕ) :
    Nested (State.start persona regs mem) where
  stacked := trivial
  intact := nofun
  mask := Nat.zero_and _
  suspended := fun _ => rfl
  exiting := nofun
  calls := nofun

theorem dead_step (hphase : s.phase = .dead) (event : Event) : (s.step event).phase = .dead := by
  cases event <;> simp only [State.step, hphase]

/-- In every run whose steps meet the condition a return from the innermost handler
restores the general registers, RIP, RSP, the flags a user may set and the mask in force
when its frame was built, and issues again the call that frame interrupted, and no
other; or the thread is killed because the frame cannot be read or holds an address
outside of user space. -/
theorem sigreturn_restores {persona : Persona} {regs : Regs} {mem : ℕ → ℕ}
    (hrun : Reaches (guarded (fun s event => Event.Fits s event) State.Step)
      (State.start persona regs mem) s)
    {f : Frame} (hphase : s.phase = .user) (hhead : f ∈ s.frames.head?)
    (hrsp : s.regs.rsp = f.base + 8) (validated : Bool) (result : ℕ) :
    (s.sigreturn validated result).1.phase = .dead ∧
        (validated = false ∨ userVaddrTop ≤ f.regs.rip ∨ userVaddrTop ≤ f.regs.rsp) ∨
      (s.sigreturn validated result).2 = f.call ∧
        (s.sigreturn validated result).1.regs.general = (f.resumed result).general ∧
        (s.sigreturn validated result).1.regs.rflags &&& fixEflags = f.regs.rflags &&& fixEflags ∧
        (s.sigreturn validated result).1.thread.mask = f.mask := by
  have hinv : s.phase = .dead ∨ Nested s := by
    refine @Reaches.invariant _ _ _ _ _ (fun s => s.phase = .dead ∨ Nested s) hrun
      (.inr (start_nested persona regs mem)) ?_
    rintro before event after (hdead | hnested) ⟨hfits, hstep⟩
    · exact .inl (hstep ▸ dead_step hdead event)
    · exact hstep ▸ hnested.step hfits
  have hnested : Nested s :=
    hinv.resolve_left fun hdead => nomatch hphase.symm.trans hdead
  obtain ⟨rest, hframes⟩ := head?_eq_some_iff.mp hhead
  rcases hnested.sigreturn hframes hrsp validated result with
    hdead | ⟨regs, hregs, hflags, heq⟩
  · exact .inl hdead
  · rw [heq]
    refine .inr ⟨rfl, hregs, ?_, rfl⟩
    simp only [hflags]
    exact restoreFlags_fix f.regs.rflags

/-! ## Runs of one process -/

instance (s : State) (event : Event) : Decidable (event.Proper s) := by
  cases event <;> unfold Event.Proper <;> infer_instance

instance (s : State) (event : Event) : Decidable (event.Apart s) := by
  unfold Event.Apart
  split <;> try split
  all_goals infer_instance

instance (s : State) (event : Event) : Decidable (event.Fits s) :=
  inferInstanceAs (Decidable (_ ∧ _))

def State.run (start : State) (moves : List (State → Event)) : State :=
  moves.foldl (fun s move => s.step (move s)) start

theorem run_reaches {guard : State → Event → Prop} [∀ s event, Decidable (guard s event)]
    {start : State} {moves : List (State → Event)}
    (hok : checkRun (fun s move => s.step (move s)) (fun s move => decide (guard s (move s)))
      start moves = true) :
    Reaches (guarded guard State.Step) start (start.run moves) :=
  @reaches_chosen State Event start guard (State → Event) State.step (fun move s => move s)
    (fun s event => decide (guard s event)) (fun _ _ => of_decide_eq_true) moves hok

/-- A process with its stack at `0x700000`. -/
def process (persona : Persona) : State :=
  .start persona ⟨0, 0, 0, 0, 0, 0, 0, 0, 0, 0, 0, 0, 0, 0, 0, 0x400000, 0x202, 0x700000,
    fun _ => 0⟩ fun _ => 0

def signal (restart : Bool) (signo : ℕ) : Delivery where
  sa := ⟨0x401000, 0, restart, false, false, 0x402000⟩
  signo := signo
  validated := true
  info := fun _ => 0
  below := fun _ => 0

/-- The `ret` at the end of the innermost handler. -/
def ret (s : State) : Event :=
  .user { s.regs with rsp := s.regs.rsp + 8 } s.mem

/-- A read is interrupted by a handler. -/
def readInterrupted (restart : Bool) : List (State → Event) :=
  [fun _ => .call ⟨0, [3]⟩ eintr .keep, fun _ => .deliverExit (signal restart 10)]

/-- The innermost frame with the call it is to restart, and the call a return from it
issues again. -/
def State.reissues (s : State) : Option (Option Call) × Option Call :=
  (s.frames.head?.map (·.call), (s.sigreturn true 5).2)

theorem sigreturn_restores_read : ((process .native).run (readInterrupted true ++ [ret])).reissues =
        (some (some ⟨0, [3]⟩), some ⟨0, [3]⟩) ∧
      (((process .native).run (readInterrupted true ++ [ret])).sigreturn true
        5).1.thread.mask = 0 := by
  have hrun : Reaches (guarded (fun s event => Event.Fits s event) State.Step)
      (process .native) ((process .native).run (readInterrupted true ++ [ret])) :=
    run_reaches (by decide +kernel)
  refine ⟨by decide +kernel, ?_⟩
  rcases sigreturn_restores hrun rfl rfl rfl true 5 with ⟨-, hkilled⟩ | ⟨-, -, -, hmask⟩
  · exact absurd hkilled (by decide +kernel)
  · exact hmask

/-- The handler that interrupted the read asks for its pid. -/
def callRun : List (State → Event) :=
  readInterrupted true ++ [fun _ => .call ⟨39, []⟩ 1 .keep, fun _ => .leave, ret]

/-- The handler that interrupted the read is itself interrupted. -/
def nestedRun : List (State → Event) :=
  readInterrupted true ++ [fun _ => .deliver (signal false 12), ret]

/-- A read that failed with `-EINTR` has returned when a handler with `SA_RESTART` is
entered. -/
def staleRun : List (State → Event) :=
  readInterrupted false ++
    [ret, fun _ => .sigreturn true 0, fun _ => .deliver (signal true 10), ret]

/-- A sigsuspend returns without a handler, and the mask is set before one is entered. -/
def suspendRun : List (State → Event) :=
  [fun _ => .call ⟨130, []⟩ eintr (.suspend 0 true), fun _ => .leave,
    fun _ => .call ⟨14, []⟩ 0 (.set 1), fun _ => .leave,
    fun _ => .deliver (signal false 10), ret]

/-- The return issues the handler's own call in place of the read; the return from the
inner handler issues the read; a read that has failed is issued again; the read of an lx
process is not; and a return does not restore the mask in force. -/
theorem sigreturn_misfires :
    (Reaches (guarded (fun s event => Event.Proper s event) State.Step) (process .native)
        ((process .native).run callRun) ∧
      ((process .native).run callRun).reissues = (some (some ⟨0, [3]⟩), some ⟨39, []⟩)) ∧
    (Reaches (guarded (fun s event => Event.Proper s event) State.Step) (process .native)
        ((process .native).run nestedRun) ∧
      ((process .native).run nestedRun).reissues = (some none, some ⟨0, [3]⟩)) ∧
    (Reaches (guarded (fun s event => Event.Proper s event) State.Step) (process .native)
        ((process .native).run staleRun) ∧
      ((process .native).run staleRun).reissues = (some none, some ⟨0, [3]⟩)) ∧
    (Reaches (guarded (fun s event => Event.Proper s event) State.Step) (process .lx)
        ((process .lx).run (readInterrupted true ++ [ret])) ∧
      ((process .lx).run (readInterrupted true ++ [ret])).reissues = (some (some ⟨0, [3]⟩), none)) ∧
    Reaches (guarded (fun s event => Event.Proper s event) State.Step) (process .native)
        ((process .native).run suspendRun) ∧
      ((process .native).run suspendRun).frames.head?.map (·.mask) = some 1 ∧
      (((process .native).run suspendRun).sigreturn true 0).1.thread.mask = 0 := by
  refine ⟨⟨run_reaches ?_, ?_⟩, ⟨run_reaches ?_, ?_⟩, ⟨run_reaches ?_, ?_⟩,
    ⟨run_reaches ?_, ?_⟩, run_reaches ?_, ?_, ?_⟩
  all_goals decide +kernel

end AuraLite.SignalStack

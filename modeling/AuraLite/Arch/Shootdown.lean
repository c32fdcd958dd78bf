import AuraLite.Arch.PcidPolicy
import AuraLite.Lib.Reachability

/-!
# TLB shootdowns with PCID

Every CPU has a TLB, a slot table and a mailbox.  `tlb_shootdown_range` overwrites the
mailboxes of the CPUs it does not skip and never waits; `ipi_tlb_shootdown_handler`
decides from the last payload alone what to do about all requests since its last run.
A translation carries the time at which it was installed, a request the time at which
it was sent: what a request is about are the older translations.
-/

namespace AuraLite.Shootdown

open List Pcid Reachability
open Function (update update_self update_of_ne)

/-- A shootdown request; victim `0` is the kernel broadcast, and `npages = 0` asks for
everything. -/
structure Request where
  victim : ℕ
  vpn : ℕ
  npages : ℕ
  time : ℕ
deriving DecidableEq

structure Cpu where
  policy : Policy
  /-- The time at which the translation of a page was installed under a PCID. -/
  tlb : ℕ → ℕ → Option ℕ
  /-- The address space in `CR3`, which is also the shadow the senders read. -/
  cur : ℕ
  /-- The mailbox. -/
  seq : ℕ
  cr3 : ℕ
  vpn : ℕ
  npages : ℕ
  lastHandled : ℕ
  /-- The pending bit of the vector. -/
  pending : Bool
  /-- Requests sent since the last run of the handler, newest first. -/
  waiting : List Request
  /-- Requests before that, and those that skipped this CPU. -/
  settled : List Request

/-- `TLB_MAX_CPUS`, the length of the arrays of mailboxes and shadows. -/
def tlbMaxCpus : ℕ := 32

/-- The arrays are indexed modulo their length: with no more CPUs than that, each has a
mailbox of its own. -/
structure State where
  ncpus : ℕ
  boxes : ncpus ≤ tlbMaxCpus
  kernel : ℕ
  clock : ℕ
  cpus : ℕ → Cpu

inductive Action
  | spurious
  | ranged
  | full
deriving DecidableEq

/-- `tlb_policy_decide` with `TLB_INVLPG_MAX`. -/
def decideAction (seq lastHandled npages : ℕ) : Action :=
  if seq = lastHandled then .spurious
  else if 1 < seq - lastHandled then .full
  else if npages = 0 ∨ 32 < npages then .full
  else .ranged

/-- The pages a request is about. -/
def Request.Covers (r : Request) (v : ℕ) : Prop :=
  r.npages = 0 ∨ r.vpn ≤ v ∧ v < r.vpn + r.npages

/-- The loop of `invlpg` over the window, in the current PCID. -/
def Cpu.invlpgLoop (c : Cpu) (slot vpn npages : ℕ) : Cpu :=
  { c with
    tlb := update c.tlb slot fun v =>
      if vpn ≤ v ∧ v < vpn + npages then none else c.tlb slot v }

/-- A reload of `CR3`. -/
def Cpu.flush (c : Cpu) (slot : ℕ) : Cpu :=
  { c with tlb := update c.tlb slot fun _ => none }

def Cpu.bump (c : Cpu) : Cpu := { c with policy := c.policy.genBump }

/-- What the handler does to the current PCID. -/
def Cpu.invalidate (c : Cpu) (kernel : ℕ) (action : Action) : Cpu :=
  if action = .ranged then c.invlpgLoop (slotOf kernel c.cur) c.vpn c.npages
  else c.flush (slotOf kernel c.cur)

/-- The branch of the handler for an action and a victim. -/
def Cpu.perform (c : Cpu) (kernel : ℕ) (action : Action) (victim : ℕ) : Cpu :=
  if victim = 0 then (c.invalidate kernel action).bump
  else if victim = c.cur then c.invalidate kernel action
  else { c with policy := c.policy.deown (slotOf kernel victim) victim }

/-- `ipi_tlb_shootdown_handler`. -/
def Cpu.handle (c : Cpu) (kernel : ℕ) : Cpu :=
  if c.pending then
    let action := decideAction c.seq c.lastHandled c.npages
    if action = .spurious then { c with pending := false }
    else
      { c.perform kernel action c.cr3 with
        lastHandled := c.seq
        pending := false
        waiting := []
        settled := c.waiting ++ c.settled }
  else c

/-- The sender's filter. -/
def Cpu.skips (c : Cpu) (kernel victim : ℕ) : Bool :=
  victim != 0 && c.policy.senderSkip (slotOf kernel victim) victim c.cur

/-- What a sender does about one target. -/
def Cpu.target (c : Cpu) (kernel : ℕ) (r : Request) : Cpu :=
  if c.skips kernel r.victim then { c with settled := r :: c.settled }
  else
    { c with
      seq := c.seq + 1
      cr3 := r.victim
      vpn := r.vpn
      npages := r.npages
      pending := true
      waiting := r :: c.waiting }

/-- `paging_switch_to`. -/
def Cpu.enter (c : Cpu) (kernel pml4 : ℕ) : Cpu :=
  let r := c.policy.enter (slotOf kernel pml4) pml4
  let c' := { c with policy := r.2, cur := pml4 }
  if r.1 then c' else c'.flush (slotOf kernel pml4)

def Cpu.fill (c : Cpu) (kernel clock vpn : ℕ) : Cpu :=
  { c with
    tlb := update c.tlb (slotOf kernel c.cur)
      (update (c.tlb (slotOf kernel c.cur)) vpn (some clock)) }

def Cpu.evict (c : Cpu) (pcid vpn : ℕ) : Cpu :=
  { c with tlb := update c.tlb pcid (update (c.tlb pcid) vpn none) }

inductive Event
  | send (sender victim vpn npages : ℕ)
  | handle (cpu : ℕ)
  | enter (cpu pml4 : ℕ)
  | fill (cpu vpn : ℕ)
  | evict (cpu pcid vpn : ℕ)
  | bump (cpu : ℕ)

def State.onCpu (s : State) (cpu : ℕ) (f : Cpu → Cpu) : State :=
  { s with cpus := update s.cpus cpu (f (s.cpus cpu)) }

/-- `tlb_shootdown_range`. -/
def State.send (s : State) (sender : ℕ) (r : Request) : State :=
  { s with
    clock := s.clock + 1
    cpus := fun cpu =>
      if 1 < s.ncpus ∧ cpu < min s.ncpus tlbMaxCpus ∧ cpu ≠ sender then
        (s.cpus cpu).target s.kernel r
      else s.cpus cpu }

def State.step (s : State) : Event → State
  | .send sender victim vpn npages => s.send sender ⟨victim, vpn, npages, s.clock⟩
  | .handle cpu => s.onCpu cpu (·.handle s.kernel)
  | .enter cpu pml4 => if pml4 = 0 then s else s.onCpu cpu (·.enter s.kernel pml4)
  | .fill cpu vpn => s.onCpu cpu (·.fill s.kernel s.clock vpn)
  | .evict cpu pcid vpn => s.onCpu cpu (·.evict pcid vpn)
  | .bump cpu => s.onCpu cpu Cpu.bump

def State.Step (s : State) (event : Event) (s' : State) : Prop := s.step event = s'

/-- Every CPU on the kernel's address space with an empty mailbox. -/
def State.boot (ncpus kernel : ℕ) (hboxes : ncpus ≤ tlbMaxCpus) : State where
  ncpus := ncpus
  boxes := hboxes
  kernel := kernel
  clock := 0
  cpus := fun _ =>
    { policy := ⟨fun _ => 0, fun _ => 0, 0⟩
      tlb := fun _ _ => none
      cur := kernel
      seq := 0
      cr3 := 0
      vpn := 0
      npages := 0
      lastHandled := 0
      pending := false
      waiting := []
      settled := [] }

/-- A translation of the space that the request is about is still there. -/
def Cpu.Stale (c : Cpu) (kernel : ℕ) (r : Request) (pml4 : ℕ) : Prop :=
  ∃ v time, r.Covers v ∧ c.tlb (slotOf kernel pml4) v = some time ∧ time ≤ r.time

/-- For every space the request is about: its translations are gone, or it is not
current and cannot be entered without a flush. -/
def Cpu.Discharged (c : Cpu) (kernel : ℕ) (r : Request) : Prop :=
  ∀ pml4, pml4 ≠ 0 → r.victim = 0 ∨ r.victim = pml4 →
    c.policy.Right (slotOf kernel pml4) pml4 ∨ pml4 = c.cur → ¬ c.Stale kernel r pml4

/-- A request overwrites an unhandled one only if it has the same victim or is a kernel
broadcast, and no slot carries the next generation when the generation is bumped. -/
def Event.Fits (s : State) : Event → Prop
  | .send sender victim _ _ => ∀ cpu, cpu < s.ncpus → cpu ≠ sender →
      (s.cpus cpu).skips s.kernel victim = false →
      (s.cpus cpu).seq = (s.cpus cpu).lastHandled ∨ victim = 0 ∨ (s.cpus cpu).cr3 = victim
  | .handle cpu => (s.cpus cpu).cr3 = 0 → (s.cpus cpu).policy.Fresh
  | .bump cpu => (s.cpus cpu).policy.Fresh
  | _ => True

/-! ## One CPU -/

structure Good (kernel clock : ℕ) (c : Cpu) : Prop where
  times : ∀ r ∈ c.waiting ++ c.settled, r.time < clock
  count : c.seq = c.lastHandled + c.waiting.length
  payload : ∀ r rest, c.waiting = r :: rest → c.vpn = r.vpn ∧ c.npages = r.npages
  victims : c.cr3 = 0 ∨ ∀ r ∈ c.waiting, r.victim = c.cr3
  served : ∀ r ∈ c.settled, c.Discharged kernel r

variable {kernel clock : ℕ} {c c' : Cpu} {r : Request}
variable {t slot slot' v : ℕ} {action : Action}

theorem Good.later (hgood : Good kernel clock c) : Good kernel (clock + 1) c :=
  { hgood with times := fun r hr => Nat.lt_succ_of_lt (hgood.times r hr) }

/-- What the handler leaves: fewer translations and rights, and the same space. -/
structure Shrinks (c c' : Cpu) : Prop where
  cur : c'.cur = c.cur
  seq : c'.seq = c.seq
  right : ∀ slot p, p ≠ 0 → c'.policy.Right slot p → c.policy.Right slot p
  tlb : ∀ slot v t, c'.tlb slot v = some t → c.tlb slot v = some t

theorem Shrinks.refl (c : Cpu) : Shrinks c c := ⟨rfl, rfl, fun _ _ _ h => h, fun _ _ _ h => h⟩

theorem Cpu.Discharged.mono (hdone : c.Discharged kernel r) (hshrinks : Shrinks c c') :
    c'.Discharged kernel r := by
  intro p hp hvictim hused hstale
  obtain ⟨v, time, hcovers, hentry, hold⟩ := hstale
  apply hdone p hp hvictim
  · rw [← hshrinks.cur]
    exact hused.imp_left (hshrinks.right _ p hp)
  · exact ⟨v, time, hcovers, hshrinks.tlb _ v time hentry, hold⟩

theorem invlpgLoop_tlb {vpn npages : ℕ}
    (hentry : (c.invlpgLoop slot vpn npages).tlb slot' v = some t) :
    c.tlb slot' v = some t ∧ ¬ (slot' = slot ∧ vpn ≤ v ∧ v < vpn + npages) := by
  change update c.tlb slot (fun v => if vpn ≤ v ∧ v < vpn + npages then none
    else c.tlb slot v) slot' v = some t at hentry
  by_cases hslot : slot' = slot
  · rw [hslot, update_self] at hentry
    split_ifs at hentry with hin
    exact ⟨hslot ▸ hentry, fun h => hin h.2⟩
  · rw [update_of_ne hslot] at hentry
    exact ⟨hentry, fun h => hslot h.1⟩

theorem flush_tlb (hentry : (c.flush slot).tlb slot' v = some t) :
    c.tlb slot' v = some t ∧ slot' ≠ slot := by
  change update c.tlb slot (fun _ => none) slot' v = some t at hentry
  by_cases hslot : slot' = slot
  · rw [hslot, update_self] at hentry
    cases hentry
  · rw [update_of_ne hslot] at hentry
    exact ⟨hentry, hslot⟩

theorem shrinks_invalidate : Shrinks c (c.invalidate kernel action) ∧
      (c.invalidate kernel action).policy = c.policy := by
  rw [Cpu.invalidate]
  split_ifs
  · exact ⟨⟨rfl, rfl, fun _ _ _ h => h, fun _ _ _ h => (invlpgLoop_tlb h).1⟩, rfl⟩
  · exact ⟨⟨rfl, rfl, fun _ _ _ h => h, fun _ _ _ h => (flush_tlb h).1⟩, rfl⟩

theorem shrinks_bump (hshrinks : Shrinks c c') (hfresh : c'.policy.Fresh) : Shrinks c c'.bump :=
  { hshrinks with right := fun _ _ hp hright => absurd hright (not_right_genBump hfresh hp) }

theorem shrinks_perform {victim : ℕ} (hfresh : victim = 0 → c.policy.Fresh) :
    Shrinks c (c.perform kernel action victim) := by
  obtain ⟨hshrinks, hpolicy⟩ := @shrinks_invalidate kernel c action
  rw [Cpu.perform]
  split_ifs with hbroadcast hcur
  · apply shrinks_bump hshrinks
    rw [hpolicy]
    exact hfresh hbroadcast
  · exact hshrinks
  · exact { Shrinks.refl c with right := fun _ _ hp hright => hright.of_deown hp }

section

variable (hgood : Good kernel clock c)
include hgood

/-- The current PCID keeps no translation of a waiting request: either there is one
request only and its own window goes, or everything goes. -/
theorem invalidate_current (hr : r ∈ c.waiting) (hcovers : r.Covers v) :
    (c.invalidate kernel (decideAction c.seq c.lastHandled c.npages)).tlb
      (slotOf kernel c.cur) v ≠ some t := by
  intro hentry
  rw [Cpu.invalidate] at hentry
  split_ifs at hentry with haction
  · rw [decideAction] at haction
    split_ifs at haction with hspurious hmany hwide
    -- A ranged action is chosen for a single request, whose window is in the mailbox.
    obtain ⟨first, rest, hwaiting⟩ := exists_cons_of_ne_nil (ne_nil_of_mem hr)
    have hcount := hgood.count
    rw [hwaiting, length_cons] at hcount
    have hrest : rest = [] := eq_nil_of_length_eq_zero (by omega)
    rw [hwaiting, hrest, mem_singleton] at hr
    obtain ⟨hvpn, hnpages⟩ := hgood.payload first rest hwaiting
    apply (invlpgLoop_tlb hentry).2
    rw [hvpn, hnpages, ← hr]
    rw [not_or, hnpages, ← hr] at hwide
    exact ⟨rfl, hcovers.resolve_left hwide.1⟩
  · exact (flush_tlb hentry).2 rfl

/-- Every waiting request is discharged by the branch for the last payload. -/
theorem discharged_perform (hr : r ∈ c.waiting) (hfresh : c.cr3 = 0 → c.policy.Fresh) :
    (c.perform kernel (decideAction c.seq c.lastHandled c.npages) c.cr3).Discharged kernel r := by
  obtain ⟨hshrinks, hpolicy⟩ :=
    @shrinks_invalidate kernel c (decideAction c.seq c.lastHandled c.npages)
  rintro p hp habout hused ⟨v, t, hcovers, hentry, -⟩
  rw [Cpu.perform] at hused hentry
  by_cases hbroadcast : c.cr3 = 0
  · rw [if_pos hbroadcast] at hused hentry
    rcases hused with hright | hcur
    · exact not_right_genBump (hpolicy ▸ hfresh hbroadcast) hp hright
    · rw [show p = c.cur from hcur.trans hshrinks.cur] at hentry
      exact invalidate_current hgood hr hcovers hentry
  · have hp' : p = c.cr3 := by
      have hown := hgood.victims.resolve_left hbroadcast r hr
      rw [hown] at habout
      exact (habout.resolve_left hbroadcast).symm
    rw [if_neg hbroadcast] at hused hentry
    by_cases hcur : c.cr3 = c.cur
    · rw [if_pos hcur, hp', hcur] at hentry
      exact invalidate_current hgood hr hcovers hentry
    · rw [if_neg hcur, hp'] at hused
      rcases hused with hright | hused
      · exact not_right_deown (hp' ▸ hp) hright
      · exact hcur hused

/-- A step of the CPU that leaves mailbox and requests alone. -/
theorem Good.frame {policy : Policy} {tlb : ℕ → ℕ → Option ℕ} {pending : Bool}
    (hshrinks : Shrinks c { c with policy := policy, tlb := tlb, pending := pending }) :
    Good kernel clock { c with policy := policy, tlb := tlb, pending := pending } :=
  { hgood with served := fun r hr => (hgood.served r hr).mono hshrinks }

theorem Good.handle (hfresh : c.cr3 = 0 → c.policy.Fresh) :
    Good kernel clock (c.handle kernel) := by
  rw [Cpu.handle]
  split_ifs with hpending
  · by_cases hspurious : decideAction c.seq c.lastHandled c.npages = .spurious
    · rw [if_pos hspurious]
      exact hgood.frame { Shrinks.refl c with }
    · rw [if_neg hspurious]
      have hshrinks := @shrinks_perform kernel c
        (decideAction c.seq c.lastHandled c.npages) c.cr3 hfresh
      refine ⟨hgood.times, hshrinks.seq, nofun, .inr nofun, forall_mem_append.mpr
        ⟨fun r hr => ?_, fun r hr => ?_⟩⟩
      · exact discharged_perform hgood hr hfresh
      · exact (hgood.served r hr).mono { hshrinks with }
  · exact hgood

theorem Good.target (hr : r.time = clock) (hfits : c.skips kernel r.victim = false →
      c.seq = c.lastHandled ∨ r.victim = 0 ∨ c.cr3 = r.victim) :
    Good kernel (clock + 1) (c.target kernel r) := by
  rw [Cpu.target]
  have hnow : r.time < clock + 1 := Nat.lt_succ_of_le (Nat.le_of_eq hr)
  split_ifs with hskip
  · obtain ⟨hwaiting, hsettled⟩ := forall_mem_append.mp hgood.later.times
    refine ⟨forall_mem_append.mpr ⟨hwaiting, forall_mem_cons.mpr ⟨hnow, hsettled⟩⟩, hgood.count,
      hgood.payload, hgood.victims, forall_mem_cons.mpr ⟨?_, hgood.served⟩⟩
    -- The CPU was skipped because the victim is neither current nor entitled.
    rw [Cpu.skips, Bool.and_eq_true, bne_iff_ne, Policy.senderSkip] at hskip
    intro p _ habout hused
    rw [habout.resolve_left hskip.1] at hskip
    have hno := hskip.2
    split_ifs at hno with hcur
    exact absurd hused (not_or.mpr ⟨of_decide_eq_true hno, fun h => hcur h.symm⟩)
  · refine ⟨forall_mem_cons.mpr ⟨hnow, hgood.later.times⟩, ?_, ?_, ?_, hgood.served⟩
    · change c.seq + 1 = c.lastHandled + (c.waiting.length + 1)
      rw [hgood.count, Nat.add_assoc]
    · intro first rest hwaiting
      obtain ⟨rfl, rfl⟩ := List.cons.inj hwaiting
      exact ⟨rfl, rfl⟩
    · rcases hfits (by simpa using hskip) with hquiet | hzero | hsame
      · have hcount := hgood.count
        have hempty : c.waiting = [] := eq_nil_of_length_eq_zero (by omega)
        rw [hempty]
        exact .inr (forall_mem_singleton.mpr rfl)
      · exact .inl hzero
      · refine hgood.victims.imp (fun hzero => hsame.symm.trans hzero) fun hall => ?_
        exact forall_mem_cons.mpr ⟨rfl, fun r' hr' => (hall r' hr').trans hsame⟩

/-- A space is entered with its right or with an empty PCID. -/
theorem Good.enter (pml4 : ℕ) : Good kernel clock (c.enter kernel pml4) := by
  rw [Cpu.enter]
  by_cases hright : c.policy.Right (slotOf kernel pml4) pml4
  · simp only [enter_of_right hright, if_true]
    refine { hgood with served := fun r hr p hp habout hused => ?_ }
    refine hgood.served r hr p hp habout (.inl ?_)
    exact hused.elim id fun hcur => hcur.symm ▸ hright
  · simp only [enter_of_not_right hright, Bool.false_eq_true, if_false]
    refine { hgood with served := fun r hr p hp habout hused => ?_ }
    rintro ⟨v, t, hcovers, hentry, hold⟩
    obtain ⟨hentry, hslot⟩ := flush_tlb hentry
    refine hgood.served r hr p hp habout (.inl ?_) ⟨v, t, hcovers, hentry, hold⟩
    rcases hused with hclaimed | hcur
    · exact (if_neg hslot).mp (right_claim.mp hclaimed)
    · exact absurd (congrArg (slotOf kernel) hcur) hslot

omit hgood in
theorem update₂_eq_some {f : ℕ → ℕ → Option ℕ} {i j i' j' : ℕ} {value : Option ℕ}
    (h : update f i (update (f i) j value) i' j' = some t) :
    (i' = i ∧ j' = j ∧ value = some t) ∨ f i' j' = some t := by
  by_cases hi : i' = i
  · rw [hi, update_self] at h
    by_cases hj : j' = j
    · rw [hj, update_self] at h
      exact .inl ⟨hi, hj, h⟩
    · rw [update_of_ne hj] at h
      exact .inr (hi ▸ h)
  · rw [update_of_ne hi] at h
    exact .inr h

/-- A new translation is younger than every request. -/
theorem Good.fill (vpn : ℕ) : Good kernel clock (c.fill kernel clock vpn) := by
  refine { hgood with served := fun r hr p hp habout hused => ?_ }
  rintro ⟨v, t, hcovers, hentry, hold⟩
  refine hgood.served r hr p hp habout hused ⟨v, t, hcovers, ?_, hold⟩
  have htime : r.time < clock := hgood.times r (mem_append_right _ hr)
  rcases update₂_eq_some hentry with ⟨-, -, hvalue⟩ | hkept
  · cases hvalue
    exact absurd htime (Nat.not_lt_of_le hold)
  · exact hkept

theorem Good.evict (pcid vpn : ℕ) : Good kernel clock (c.evict pcid vpn) := by
  refine hgood.frame { Shrinks.refl c with tlb := fun slot v t hentry => ?_ }
  exact (update₂_eq_some hentry).elim (fun h => nomatch h.2.2) id

end

/-! ## Runs -/

def Sound (s : State) : Prop := ∀ cpu, Good s.kernel s.clock (s.cpus cpu)

variable {s : State}

theorem Sound.onCpu (hsound : Sound s) (cpu : ℕ) {f : Cpu → Cpu}
    (hf : Good s.kernel s.clock (f (s.cpus cpu))) : Sound (s.onCpu cpu f) := by
  exact (Function.forall_update_iff s.cpus fun _ => Good s.kernel s.clock).mpr
    ⟨hf, fun other _ => hsound other⟩

theorem Sound.step (hsound : Sound s) {event : Event} (hfits : event.Fits s) :
    Sound (s.step event) := by
  cases event with
  | send sender victim vpn npages =>
    intro cpu
    change Good s.kernel (s.clock + 1)
      (if 1 < s.ncpus ∧ cpu < min s.ncpus tlbMaxCpus ∧ cpu ≠ sender then _ else _)
    rw [Nat.min_eq_left s.boxes]
    split_ifs with htarget
    · exact (hsound cpu).target rfl (hfits cpu htarget.2.1 htarget.2.2)
    · exact (hsound cpu).later
  | handle cpu => exact hsound.onCpu cpu ((hsound cpu).handle hfits)
  | enter cpu pml4 =>
    rw [State.step]
    split_ifs
    · exact hsound
    · exact hsound.onCpu cpu ((hsound cpu).enter pml4)
  | fill cpu vpn => exact hsound.onCpu cpu ((hsound cpu).fill vpn)
  | evict cpu pcid vpn => exact hsound.onCpu cpu ((hsound cpu).evict pcid vpn)
  | bump cpu =>
    have hshrinks := shrinks_bump (.refl (s.cpus cpu)) hfits
    exact hsound.onCpu cpu ((hsound cpu).frame hshrinks)

theorem sound_boot (ncpus kernel : ℕ) (hboxes : ncpus ≤ tlbMaxCpus) :
    Sound (State.boot ncpus kernel hboxes) := by
  intro cpu
  exact ⟨nofun, rfl, nofun, .inl rfl, nofun⟩

/-- The handler of a broadcast takes every right away. -/
theorem handle_broadcast (hgood : Good kernel clock c) (hpending : c.pending = true)
    (hr : r ∈ c.waiting) (hvictim : r.victim = 0) (hfresh : c.cr3 = 0 → c.policy.Fresh) {pml4 : ℕ}
    (hpml4 : pml4 ≠ 0) : ¬ (c.handle kernel).policy.Right slot pml4 := by
  have hzero : c.cr3 = 0 := hgood.victims.elim id fun hall => (hall r hr).symm.trans hvictim
  have hcount := hgood.count
  have hpos := length_pos_of_mem hr
  have hseq : c.seq ≠ c.lastHandled := by omega
  have haction : decideAction c.seq c.lastHandled c.npages ≠ .spurious := by
    rw [decideAction, if_neg hseq]
    split_ifs <;> exact nofun
  rw [Cpu.handle, if_pos hpending]
  simp only [if_neg haction]
  rw [Cpu.perform, if_pos hzero]
  have hpolicy := (@shrinks_invalidate kernel c (decideAction c.seq c.lastHandled c.npages)).2
  exact not_right_genBump (hpolicy ▸ hfresh hzero) hpml4

/-- A CPU whose handler has caught up has discharged every request that reached it or
skipped it, and the handler run that serves a broadcast leaves no right behind. -/
theorem shootdown_discharged (ncpus kernel : ℕ) (hboxes : ncpus ≤ tlbMaxCpus) (s : State)
    (hrun : Reaches (guarded (fun s event => Event.Fits s event) State.Step)
      (State.boot ncpus kernel hboxes) s) (cpu : ℕ) :
    ((s.cpus cpu).seq = (s.cpus cpu).lastHandled →
      ∀ r ∈ (s.cpus cpu).waiting ++ (s.cpus cpu).settled, (s.cpus cpu).Discharged s.kernel r) ∧
    ((s.cpus cpu).pending = true → Event.Fits s (.handle cpu) →
      ∀ r ∈ (s.cpus cpu).waiting, r.victim = 0 → ∀ slot pml4, pml4 ≠ 0 →
        ¬ ((s.step (.handle cpu)).cpus cpu).policy.Right slot pml4) := by
  have hsound : Sound s :=
    hrun.kept (sound_boot ncpus kernel hboxes) fun hbefore hfits => hbefore.step hfits
  refine ⟨fun hcaught r hr => ?_, fun hpending hfits r hr hvictim slot pml4 hpml4 => ?_⟩
  · have hcount := (hsound cpu).count
    have hempty : (s.cpus cpu).waiting = [] := eq_nil_of_length_eq_zero (by omega)
    rw [hempty, nil_append] at hr
    exact (hsound cpu).served r hr
  · have hstep : (s.step (.handle cpu)).cpus cpu = (s.cpus cpu).handle s.kernel :=
      update_self cpu _ s.cpus
    rw [hstep]
    exact handle_broadcast (hsound cpu) hpending hr hvictim hfits hpml4

def Event.check (s : State) : Event → Bool
  | .send sender victim _ _ => (List.range s.ncpus).all fun cpu =>
    cpu == sender || (s.cpus cpu).skips s.kernel victim ||
      (s.cpus cpu).seq == (s.cpus cpu).lastHandled || (s.cpus cpu).cr3 == victim
  | .handle cpu => (s.cpus cpu).cr3 != 0
  | .bump _ => false
  | _ => true

theorem Event.fits_of_check (s : State) (event : Event) (hcheck : event.check s = true) :
    event.Fits s := by
  cases event with
  | send sender victim vpn npages =>
    intro cpu hcpu hother hskip
    have hall := List.all_eq_true.mp hcheck cpu (List.mem_range.mpr hcpu)
    simp only [Bool.or_eq_true, beq_iff_eq] at hall
    rcases hall with ((hsender | hskips) | hquiet) | hsame
    · exact absurd hsender hother
    · exact absurd hskips (Bool.eq_false_iff.mp hskip)
    · exact .inl hquiet
    · exact .inr (.inr hsame)
  | handle cpu => exact fun hzero => absurd hzero (bne_iff_ne.mp hcheck)
  | bump cpu => cases hcheck
  | _ => trivial

/-- CPU 1 has used the spaces A and B and runs B; CPU 0 changes A. -/
def twoSpaces : List Event :=
  [.enter 1 0x5000, .fill 1 7, .enter 1 0x6000, .fill 1 9, .send 0 0x5000 7 1]

/-- A second request for A arrives before the handler runs. -/
def sameVictim : State :=
  (twoSpaces ++ [Event.send 0 0x5000 8 1, Event.handle 1]).foldl State.step
    (State.boot 2 0x1000 (by decide))

theorem shootdown_discharged_same_victim :
    Reaches (guarded (fun s event => Event.Fits s event) State.Step)
      (State.boot 2 0x1000 (by decide)) sameVictim ∧
    (sameVictim.cpus 1).seq = (sameVictim.cpus 1).lastHandled ∧
    ⟨0x5000, 7, 1, 0⟩ ∈ (sameVictim.cpus 1).settled ∧
    (sameVictim.cpus 1).tlb (slotOf 0x1000 0x5000) 7 = some 0 ∧
    (sameVictim.cpus 1).Discharged sameVictim.kernel ⟨0x5000, 7, 1, 0⟩ := by
  have hrun : Reaches (guarded (fun s event => Event.Fits s event) State.Step)
      (State.boot 2 0x1000 (by decide)) sameVictim :=
    @reaches_chosen _ _ _ _ Event State.step (fun event _ => event) _ Event.fits_of_check _
      (by decide +kernel)
  have hcaught : (sameVictim.cpus 1).seq = (sameVictim.cpus 1).lastHandled := by
    decide +kernel
  have hsettled : ⟨0x5000, 7, 1, 0⟩ ∈ (sameVictim.cpus 1).settled := by decide +kernel
  have hdone := (shootdown_discharged 2 0x1000 (by decide) _ hrun 1).1 hcaught ⟨0x5000, 7, 1, 0⟩
    (mem_append_right _ hsettled)
  exact ⟨hrun, hcaught, hsettled, by decide +kernel, hdone⟩

/-- A request for B overwrites the one for A before the handler runs. -/
def overwritten : State :=
  (twoSpaces ++ [Event.send 0 0x6000 9 1, Event.handle 1]).foldl State.step
    (State.boot 2 0x1000 (by decide))

/-- The handler sees two requests and flushes the current PCID, which is B's: A keeps
its right and its old translation. -/
theorem shootdown_overwritten :
    Reaches State.Step (State.boot 2 0x1000 (by decide)) overwritten ∧
    (overwritten.cpus 1).seq = (overwritten.cpus 1).lastHandled ∧
    ⟨0x5000, 7, 1, 0⟩ ∈ (overwritten.cpus 1).settled ∧
    (overwritten.cpus 1).policy.Right (slotOf 0x1000 0x5000) 0x5000 ∧
    (overwritten.cpus 1).tlb (slotOf 0x1000 0x5000) 7 = some 0 ∧
    ¬ (overwritten.cpus 1).Discharged overwritten.kernel ⟨0x5000, 7, 1, 0⟩ := by
  have hright : (overwritten.cpus 1).policy.Right (slotOf 0x1000 0x5000) 0x5000 := by
    decide +kernel
  have hentry : (overwritten.cpus 1).tlb (slotOf 0x1000 0x5000) 7 = some 0 := by
    decide +kernel
  refine ⟨reaches_run State.step _ _, by decide +kernel, by decide +kernel, hright, hentry,
    fun hdone => ?_⟩
  apply hdone 0x5000 (by decide) (.inr rfl) (.inl hright)
  exact ⟨7, 0, .inr (by decide), hentry, Nat.le_refl 0⟩

end AuraLite.Shootdown

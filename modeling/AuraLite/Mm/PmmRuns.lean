import AuraLite.Lib.Reachability
import AuraLite.Mm.PmmInit

/-!
# The frame allocator over whole runs

A session counts, for every frame, how often it was handed out, how often a
reference was added and how often one was given back.  Clients give back only
references they hold, keep below `2 ^ 32` references per frame and write only
into frames they hold.  Along every such run the bitmap, the reference counts
and the counter of free frames agree with the three tallies.
-/

namespace AuraLite.Pmm

open ByteMemory Word64 Reachability Function

structure Session where
  pmm : PmmState
  allocs : ℕ → ℕ
  incs : ℕ → ℕ
  frees : ℕ → ℕ

def Session.start (pmm : PmmState) : Session :=
  ⟨pmm, fun _ => 0, fun _ => 0, fun _ => 0⟩

/-- The references to a frame that have not been given back. -/
def Session.held (s : Session) (f : ℕ) : ℕ := s.allocs f + s.incs f - s.frees f

inductive Call
  | allocFrame
  | allocContiguous (count : ℕ)
  | alloc2m
  | incRef (phys : ℕ)
  | freeFrame (phys : ℕ)
  | freeContiguous (phys count : ℕ)
  | store (addr : ℕ) (byte : Byte)

/-- Count one event for every frame of a run. -/
def bump (tally : ℕ → ℕ) (first count f : ℕ) : ℕ :=
  if inRun first count f then tally f + 1 else tally f

/-- Record the outcome of an allocation of `count` frames. -/
def Session.took (s : Session) (result : PmmState × ℕ) (count : ℕ) :
    Session × ℕ :=
  ({ s with
      pmm := result.1
      allocs := if result.2 = 0 then s.allocs
        else bump s.allocs (result.2 / pageSize) count }, result.2)

/-- One call and the address it returned. -/
def Session.call (s : Session) : Call → Session × ℕ
  | .allocFrame => s.took (pmmAllocFrame s.pmm) 1
  | .allocContiguous count => s.took (pmmAllocContiguous s.pmm count) count
  | .alloc2m => s.took (pmmAlloc2m s.pmm) 512
  | .incRef phys =>
    let result := pmmIncFrameRef s.pmm phys
    ({ s with
        pmm := result.1
        incs := if result.2 then bump s.incs (phys / pageSize) 1 else s.incs }, 0)
  | .freeFrame phys =>
    ({ s with
        pmm := pmmFreeFrame s.pmm phys
        frees := bump s.frees (phys / pageSize) 1 }, 0)
  | .freeContiguous phys count =>
    ({ s with
        pmm := pmmFreeContiguous s.pmm phys count
        frees := bump s.frees (phys / pageSize) count }, 0)
  | .store addr byte =>
    ({ s with pmm := { s.pmm with mem := Function.update s.pmm.mem addr byte } },
      0)

/-- What clients may call: references are given back only while they are held,
and no frame gets `2 ^ 32` of them. -/
def Call.Allowed (s : Session) : Call → Prop
  | .incRef phys => s.held (phys / pageSize) + 1 < 2 ^ 32
  | .freeFrame phys => s.held (phys / pageSize) ≠ 0
  | .freeContiguous phys count =>
    ∀ f, inRun (phys / pageSize) count f → s.held f ≠ 0
  | .store addr _ => s.held (addr / pageSize) ≠ 0
  | _ => True

def Session.Step (s : Session) (call : Call) (s' : Session) : Prop :=
  (s.call call).1 = s'

/-! ## What a run has to keep -/

/-- A frame that lies inside a usable region of the memory map. -/
def Usable (map : MemoryMap) (f : ℕ) : Prop :=
  ∃ e ∈ map, e.type = .usable ∧ e.base ≤ f * pageSize ∧
    (f + 1) * pageSize ≤ e.base + e.length

/-- The frames that initialisation keeps out of the pool. -/
def Reserved (map : MemoryMap) (f : ℕ) : Prop :=
  ¬Usable map f ∨ BootFrame f ∨ MetadataFrame map f

/-- The state of the allocator agrees with the tallies of the session. -/
structure Sound (map : MemoryMap) (s : Session) : Prop where
  free_count : s.pmm.freeFrames =
    (List.range s.pmm.nframes).countP fun f => !s.pmm.test f
  clear_ref : ∀ f < s.pmm.nframes, s.pmm.test f = false →
    pmmGetFrameRefcount s.pmm (f * pageSize) = 0
  reserved_set : ∀ f < s.pmm.nframes, Reserved map f → s.pmm.test f = true
  free_iff : ∀ f < s.pmm.nframes, ¬Reserved map f →
    (s.pmm.test f = false ↔ s.allocs f + s.incs f = s.frees f)

/-- An allocation of `count` frames that returned `addr`: whole frames of the
pool that nobody held, now with one reference each. -/
structure Returned (map : MemoryMap) (s : Session) (count addr : ℕ)
    (s' : Session) : Prop where
  aligned : pageSize ∣ addr
  fresh : ∀ f, inRun (addr / pageSize) count f →
    f < s.pmm.nframes ∧ ¬Reserved map f ∧ s.allocs f + s.incs f = s.frees f
  taken : ∀ f, inRun (addr / pageSize) count f →
    s'.pmm.test f = true ∧ pmmGetFrameRefcount s'.pmm (f * pageSize) = 1

/-- An allocating call: it returns nothing and changes nothing, or it returns
`count` fresh frames. -/
def AllocSound (map : MemoryMap) (s : Session) (count : ℕ) (call : Call) : Prop :=
  ((s.call call).2 = 0 → (s.call call).1 = s) ∧
    ((s.call call).2 ≠ 0 →
      Returned map s count (s.call call).2 (s.call call).1)

def CallSound (map : MemoryMap) (s : Session) : Call → Prop
  | .allocFrame => AllocSound map s 1 .allocFrame
  | .allocContiguous count => AllocSound map s count (.allocContiguous count)
  | .alloc2m =>
    AllocSound map s 512 .alloc2m ∧ 512 * pageSize ∣ (s.call .alloc2m).2 ∧
      ∀ f < s.pmm.nframes,
        ((s.call .alloc2m).2 ≠ 0 →
          ¬inRun ((s.call .alloc2m).2 / pageSize) 512 f) →
        (s.call .alloc2m).1.pmm.test f = s.pmm.test f ∧
          pmmGetFrameRefcount (s.call .alloc2m).1.pmm (f * pageSize) =
            pmmGetFrameRefcount s.pmm (f * pageSize)
  | _ => True

/-- No usable region reaches into the last page of the address space. -/
def MapFits (map : MemoryMap) : Prop :=
  ∀ e ∈ map, e.type = .usable → e.base + e.length + pageSize ≤ 2 ^ 64

instance (map : MemoryMap) : Decidable (MapFits map) :=
  inferInstanceAs (Decidable (∀ e ∈ map, e.type = .usable →
    e.base + e.length + pageSize ≤ 2 ^ 64))

/-- Every frame whose bit lies behind the bytes of the bitmap is usable, or is
marked again after the usable regions have been cleared. -/
def TailCovered (map : MemoryMap) : Prop :=
  ∀ f, 8 * bitmapBytesOf (nframesOf map) ≤ f → f < nframesOf map →
    Usable map f ∨ BootFrame f ∨ MetadataFrame map f

variable {s s' : Session} {map : MemoryMap} {mem : Mem} {init pmm : PmmState}
variable {kept : ℕ → Prop} {refs : ℕ → ℕ} {f first count : ℕ}
variable {phys : ℕ}

/-! ## Steps -/

/-- The frames whose bit was set when the run started. -/
def Kept (init : PmmState) (f : ℕ) : Prop :=
  f < init.nframes → init.test f = true

/-- The pool of a session: its references are those the tallies leave over. -/
structure Tracks (init : PmmState) (s : Session) : Prop where
  holds : Holds s.pmm (Kept init) s.held
  settled : ∀ f, s.frees f ≤ s.allocs f + s.incs f
  nframes : s.pmm.nframes = init.nframes

open Session

theorem Initialised.tracks (hinit : Initialised map mem init) : Tracks init (Session.start init) :=
  ⟨hinit.holds, fun _ => Nat.zero_le _, rfl⟩

/-- What an allocator of `count` frames returns: nothing, with the state as it
was, or a run of free frames. -/
inductive Outcome (pmm : PmmState) (kept : ℕ → Prop) (refs : ℕ → ℕ) (count : ℕ) :
    PmmState × ℕ → Prop
  | none : Outcome pmm kept refs count (pmm, 0)
  | run {first : ℕ} {pmm' : PmmState} (hne : first ≠ 0)
      (hrun : FreeRun pmm kept refs first count)
      (hholds : Holds pmm' kept (claimed refs first count))
      (hnframes : pmm'.nframes = pmm.nframes) :
      Outcome pmm kept refs count (pmm', first * pageSize)

variable {pmm' : PmmState}

section

variable (hholds : Holds pmm kept refs)
include hholds

theorem Allocated.outcome (hcount : count ≠ 0) (halloc : Allocated pmm kept refs first count pmm') :
    Outcome pmm kept refs count (pmm', first * pageSize) := by
  have hfirst := halloc.run first (by simp only [inRun]; omega)
  exact .run (hholds.ne_zero hfirst.2.1) halloc.run halloc.holds halloc.keeps.nframes

theorem outcome_allocFrame : Outcome pmm kept refs 1 (pmmAllocFrame pmm) := by
  rcases pmmAllocFrame_spec hholds with ⟨hnone, _⟩ | ⟨idx, pmm', hsome, halloc, _⟩
  · exact hnone ▸ .none
  · exact hsome ▸ halloc.outcome hholds (by decide)

theorem outcome_allocContiguous (count : ℕ) :
    Outcome pmm kept refs count (pmmAllocContiguous pmm count) := by
  rcases pmmAllocContiguous_spec hholds count with
    hnone | ⟨idx, pmm', hsome, hcount, halloc⟩
  · exact hnone ▸ .none
  · exact hsome ▸ halloc.outcome hholds hcount

theorem outcome_alloc2m : Outcome pmm kept refs 512 (pmmAlloc2m pmm) := by
  rcases pmmAlloc2m_spec hholds with
    hnone | ⟨idx, pmm', hsome, _, hrun, hholds', hkeeps⟩
  · exact hnone ▸ .none
  · have hidx := hrun idx (by simp only [inRun]; omega)
    exact hsome ▸ .run (hholds.ne_zero hidx.2.1) hrun hholds' hkeeps.nframes

end

theorem Tracks.settled_of_free (htracks : Tracks init s) (hfree : s.held f = 0) :
    s.allocs f + s.incs f = s.frees f := by
  have hle := htracks.settled f
  rw [held] at hfree
  omega

theorem le_bump (tally : ℕ → ℕ) (first count f : ℕ) : tally f ≤ bump tally first count f := by
  rw [bump]
  split_ifs
  · exact Nat.le_succ _
  · exact le_rfl

theorem Tracks.took_some (htracks : Tracks init s)
    (hne : first ≠ 0) (hrun : FreeRun s.pmm (Kept init) s.held first count)
    (hholds : Holds pmm' (Kept init) (claimed s.held first count))
    (hnframes : pmm'.nframes = s.pmm.nframes) :
    Tracks init (s.took (pmm', first * pageSize) count).1 := by
  have haddr : first * pageSize ≠ 0 := Nat.mul_ne_zero hne (by decide)
  have hbumped : (s.took (pmm', first * pageSize) count).1.allocs = bump s.allocs first count := by
    simp only [took, haddr, if_false, frame_addr]
  have hheld : (s.took (pmm', first * pageSize) count).1.held = claimed s.held first count := by
    funext f
    rw [held, hbumped]
    by_cases hin : inRun first count f
    · have hsettled := htracks.settled_of_free (hrun f hin).2.2
      rw [bump, claimed, if_pos hin, if_pos hin]
      show s.allocs f + 1 + s.incs f - s.frees f = 1
      omega
    · rw [bump, claimed, if_neg hin, if_neg hin]
      rfl
  refine ⟨?_, fun f => ?_, hnframes.trans htracks.nframes⟩
  · rw [hheld]
    exact hholds
  · rw [hbumped]
    exact (htracks.settled f).trans (Nat.add_le_add_right (le_bump ..) _)

theorem Tracks.took {result : PmmState × ℕ} (htracks : Tracks init s)
    (houtcome : Outcome s.pmm (Kept init) s.held count result) :
    Tracks init (s.took result count).1 := by
  cases houtcome with
  | none => exact htracks
  | run hne hrun hholds hnframes => exact htracks.took_some hne hrun hholds hnframes

theorem Tracks.released (htracks : Tracks init s) (hheld : ∀ f, inRun first count f → s.held f ≠ 0)
    (hholds : Holds pmm' (Kept init) (released s.held first count))
    (hnframes : pmm'.nframes = s.pmm.nframes) :
    Tracks init { s with pmm := pmm', frees := bump s.frees first count } := by
  refine ⟨?_, fun f => ?_, hnframes.trans htracks.nframes⟩
  · have heq : held { s with
        pmm := pmm', frees := bump s.frees first count } = Pmm.released s.held first count := by
      funext f
      simp only [held, bump, Pmm.released]
      split_ifs
      · omega
      · rfl
    rw [heq]
    exact hholds
  · have hle := htracks.settled f
    show bump s.frees first count f ≤ s.allocs f + s.incs f
    rw [bump]
    split_ifs with hin
    · have hne := hheld f hin
      rw [held] at hne
      omega
    · exact hle

theorem released_one (refs : ℕ → ℕ) (f : ℕ) :
    released refs f 1 = Function.update refs f (refs f - 1) := by
  rw [released_succ, released_none, Nat.add_zero]

section

variable (htracks : Tracks init s)
include htracks

theorem Tracks.freeFrame (hheld : s.held (phys / pageSize) ≠ 0) :
    Tracks init (s.call (.freeFrame phys)).1 := by
  obtain ⟨hholds, hkeeps⟩ := pmmFreeFrame_spec htracks.holds hheld
  rw [← released_one] at hholds
  refine htracks.released (fun f hf => ?_) hholds hkeeps.nframes
  have heq : f = phys / pageSize := by simp only [inRun] at hf; omega
  exact heq ▸ hheld

theorem Tracks.freeContiguous (hheld : ∀ f, inRun (phys / pageSize) count f → s.held f ≠ 0) :
    Tracks init (s.call (.freeContiguous phys count)).1 := by
  obtain ⟨hholds, hkeeps⟩ := pmmFreeContiguous_spec htracks.holds hheld
  exact htracks.released hheld hholds hkeeps.nframes

theorem Tracks.incRef (hroom : s.held (phys / pageSize) + 1 < 2 ^ 32) :
    Tracks init (s.call (.incRef phys)).1 := by
  by_cases hheld : s.held (phys / pageSize) = 0
  · have hrefused := pmmIncFrameRef_refuses htracks.holds hheld
    simp only [call, hrefused, Bool.false_eq_true, if_false]
    exact htracks
  · obtain ⟨pmm', hcall, hholds, hkeeps⟩ := pmmIncFrameRef_spec htracks.holds hheld hroom
    simp only [call, hcall, if_true]
    refine ⟨?_, fun f => ?_, hkeeps.nframes.trans htracks.nframes⟩
    · have heq : held { s with
          pmm := pmm', incs := bump s.incs (phys / pageSize) 1 } =
            update s.held (phys / pageSize) (s.held (phys / pageSize) + 1) := by
        funext f
        by_cases hf : f = phys / pageSize
        · subst hf
          have hin : inRun (phys / pageSize) 1 (phys / pageSize) := by
            simp only [inRun]
            omega
          have hle := htracks.settled (phys / pageSize)
          rw [update_self]
          simp only [held, bump, hin, if_true]
          omega
        · have hout : ¬inRun (phys / pageSize) 1 f := by simp only [inRun]; omega
          rw [update_of_ne hf]
          simp only [held, bump, hout, if_false]
      rw [heq]
      exact hholds
    · exact (htracks.settled f).trans (Nat.add_le_add_left (le_bump ..) _)

theorem Tracks.store {addr : ℕ} {byte : Byte} (hheld : s.held (addr / pageSize) ≠ 0) :
    Tracks init (s.call (.store addr byte)).1 := by
  obtain ⟨hlt, hnot⟩ := htracks.holds.pool _ hheld
  have hsame : ∀ x, s.pmm.Metadata x → update s.pmm.mem addr byte x = s.pmm.mem x := by
    intro x hx
    refine update_of_ne ?_ _ _
    rintro rfl
    exact hnot (htracks.holds.metadata x hx hlt)
  exact ⟨htracks.holds.with_mem hsame, htracks.settled, htracks.nframes⟩

theorem Tracks.step {call : Call} (hallowed : call.Allowed s) : Tracks init (s.call call).1:= by
  cases call with
  | allocFrame => exact htracks.took (outcome_allocFrame htracks.holds)
  | allocContiguous count =>
    exact htracks.took (outcome_allocContiguous htracks.holds count)
  | alloc2m => exact htracks.took (outcome_alloc2m htracks.holds)
  | incRef phys => exact htracks.incRef hallowed
  | freeFrame phys => exact htracks.freeFrame hallowed
  | freeContiguous phys count => exact htracks.freeContiguous hallowed
  | store addr byte => exact htracks.store hallowed

end

/-! ## The frames kept back are the reserved ones -/

theorem freed_iff (hfits : MapFits map) (f : ℕ) : Freed map f ↔ Usable map f := by
  have hmarked : ∀ e ∈ map, e.type = .usable → (Marked e.base e.length f ↔ e.base ≤ f * pageSize ∧
        (f + 1) * pageSize ≤ e.base + e.length) := by
    intro e he husable
    have hle := hfits e he husable
    have hpage : 0 < pageSize := by decide
    rw [Marked, wrap64_of_lt (by omega), alignUp_of_lt (by omega)]
    simp only [pageSize] at hle ⊢
    omega
  constructor
  · rintro ⟨e, he, husable, hin⟩
    exact ⟨e, he, husable, (hmarked e he husable).mp hin⟩
  · rintro ⟨e, he, husable, hin⟩
    exact ⟨e, he, husable, (hmarked e he husable).mpr hin⟩

theorem kept_iff_reserved (hinit : Initialised map mem init)
    (hfits : MapFits map) (htail : TailCovered map) (hf : f < init.nframes) :
    Kept init f ↔ Reserved map f := by
  have htest := hinit.test_iff hf
  rw [freed_iff hfits] at htest
  rw [Kept, Reserved]
  constructor
  · intro hkept
    rcases htest.mp (hkept hf) with ⟨_, hnot⟩ | hheld
    · exact .inl hnot
    · exact .inr hheld
  · intro hreserved _
    refine htest.mpr ?_
    by_cases hin : f < 8 * bitmapBytesOf (nframesOf map)
    · exact hreserved.imp_left fun hnot => ⟨hin, hnot⟩
    · rcases htail f (by omega) (hinit.nframes ▸ hf) with husable | hheld
      · exact .inr (hreserved.resolve_left fun hnot => hnot husable)
      · exact .inr hheld

section

variable (htracks : Tracks init s) (hkept : ∀ f < init.nframes, Kept init f ↔ Reserved map f)
include htracks hkept

theorem Tracks.sound : Sound map s := by
  have hholds := htracks.holds
  refine ⟨hholds.free, fun f hf hclear => ?_, fun f hf hreserved => ?_, fun f hf hnot => ?_⟩
  · rw [hholds.refcount f]
    exact ((hholds.test_eq_iff hf).mp hclear).2
  · rw [hholds.bit f hf]
    exact .inl ((hkept f (htracks.nframes ▸ hf)).mpr hreserved)
  · rw [hholds.test_eq_iff hf, hkept f (htracks.nframes ▸ hf)]
    have hle := htracks.settled f
    constructor
    · exact fun h => htracks.settled_of_free h.2
    · intro heq
      refine ⟨hnot, ?_⟩
      rw [held]
      omega

theorem Tracks.returned (hrun : FreeRun s.pmm (Kept init) s.held first count)
    (hholds : Holds pmm' (Kept init) (claimed s.held first count))
    (hnframes : pmm'.nframes = s.pmm.nframes) :
    Returned map s count (first * pageSize) (s.took (pmm', first * pageSize) count).1 := by
  refine ⟨Nat.dvd_mul_left _ _, fun f hf => ?_, fun f hf => ?_⟩
  · rw [frame_addr] at hf
    obtain ⟨hlt, hnot, hfree⟩ := hrun f hf
    rw [hkept f (htracks.nframes ▸ hlt)] at hnot
    exact ⟨hlt, hnot, htracks.settled_of_free hfree⟩
  · rw [frame_addr] at hf
    have hlt : f < pmm'.nframes := hnframes ▸ (hrun f hf).1
    have hone : claimed s.held first count f = 1 := if_pos hf
    refine ⟨(hholds.bit f hlt).mpr (.inr ?_), (hholds.refcount f).trans hone⟩
    rw [hone]
    decide

end

theorem Tracks.allocSound {call : Call} {result : PmmState × ℕ} (htracks : Tracks init s)
    (hkept : ∀ f < init.nframes, Kept init f ↔ Reserved map f)
    (hcall : s.call call = s.took result count)
    (houtcome : Outcome s.pmm (Kept init) s.held count result) :
    AllocSound map s count call := by
  rw [AllocSound, hcall]
  cases houtcome with
  | none => exact ⟨fun _ => rfl, fun hne => absurd rfl hne⟩
  | @run first pmm' hne hrun hholds hnframes =>
    have haddr : first * pageSize ≠ 0 := Nat.mul_ne_zero hne (by decide)
    refine ⟨fun hzero => absurd hzero haddr, fun _ => ?_⟩
    exact htracks.returned hkept hrun hholds hnframes

theorem Tracks.alloc2m_frame (htracks : Tracks init s) : 512 * pageSize ∣ (s.call .alloc2m).2 ∧
      ∀ f < s.pmm.nframes, ((s.call .alloc2m).2 ≠ 0 →
          ¬inRun ((s.call .alloc2m).2 / pageSize) 512 f) →
        (s.call .alloc2m).1.pmm.test f = s.pmm.test f ∧
          pmmGetFrameRefcount (s.call .alloc2m).1.pmm (f * pageSize) =
            pmmGetFrameRefcount s.pmm (f * pageSize) := by
  rw [call]
  rcases pmmAlloc2m_spec htracks.holds with
    hnone | ⟨first, pmm', hsome, hdvd, hrun, hholds, hkeeps⟩
  · rw [hnone]
    exact ⟨dvd_zero _, fun f _ _ => ⟨rfl, rfl⟩⟩
  · rw [hsome]
    refine ⟨Nat.mul_dvd_mul_right hdvd _, fun f hf hout => ?_⟩
    have hfirst := hrun first (by simp only [inRun]; omega)
    have hne : first * pageSize ≠ 0 :=
      Nat.mul_ne_zero (htracks.holds.ne_zero hfirst.2.1) (by decide)
    have hnot := hout hne
    have hf' : f < pmm'.nframes := hkeeps.nframes ▸ hf
    have hsame : claimed s.held first 512 f = s.held f := claimed_outside (frame_addr first ▸ hnot)
    refine ⟨?_, ?_⟩
    · apply Bool.eq_iff_iff.mpr
      exact (hholds.bit f hf').trans (hsame ▸ (htracks.holds.bit f hf).symm)
    · exact (hholds.refcount f).trans (hsame.trans (htracks.holds.refcount f).symm)

theorem Tracks.callSound (htracks : Tracks init s)
    (hkept : ∀ f < init.nframes, Kept init f ↔ Reserved map f) (call : Call) :
    CallSound map s call := by
  cases call with
  | allocFrame =>
    exact htracks.allocSound hkept rfl (outcome_allocFrame htracks.holds)
  | allocContiguous count =>
    exact htracks.allocSound hkept rfl (outcome_allocContiguous htracks.holds count)
  | alloc2m =>
    exact ⟨htracks.allocSound hkept rfl (outcome_alloc2m htracks.holds), htracks.alloc2m_frame⟩
  | _ => exact trivial

/-- From every memory map whose usable regions do not wrap and whose frames
behind the bitmap are accounted for, along every run of allowed calls, the
bitmap, the reference counts and the counter agree with the tallies, and every
allocation hands out fresh frames of the pool or changes nothing. -/
theorem pmm_sound_of_tailCovered (map : MemoryMap) (mem : Mem) (init : PmmState)
    (hinit : pmmInit map mem = some init) (hfits : MapFits map)
    (htail : TailCovered map) (s : Session)
    (hrun : Reaches (guarded (fun s call => call.Allowed s) Session.Step) (Session.start init) s) :
    Sound map s ∧ ∀ call, CallSound map s call := by
  have hinitialised := pmmInit_initialised hinit
  have htracks : Tracks init s :=
    hrun.kept hinitialised.tracks fun hbefore hallowed => hbefore.step hallowed
  have hkept : ∀ f < init.nframes, Kept init f ↔ Reserved map f :=
    fun f hf => kept_iff_reserved hinitialised hfits htail hf
  exact ⟨htracks.sound hkept, htracks.callSound hkept⟩

/-- A machine with 128 MiB of usable memory. -/
def plainMap : MemoryMap := [⟨0, 0x8000000, .usable⟩]

/-- The first frame handed out lies right behind the early boot reserve. -/
theorem pmm_sound_after_alloc : ∃ init s, pmmInit plainMap (fun _ => 0) = some init ∧
      Reaches (guarded (fun s call => call.Allowed s) Session.Step) (Session.start init) s ∧
      s.allocs 0x3800 = 1 ∧ Sound plainMap s ∧ ∀ call, CallSound plainMap s call := by
  have hframes : nframesOf plainMap = 0x8000 := by decide +kernel
  have hplace : findBitmapRegion plainMap 0x8000 = 0x7fdf000 := by decide +kernel
  have hfits : MapFits plainMap := by decide +kernel
  have htail : TailCovered plainMap := by
    intro f hlow hhigh
    have hbytes : 8 * bitmapBytesOf 0x8000 = 0x8000 := by decide +kernel
    rw [hframes] at hlow hhigh
    omega
  obtain ⟨init, hinit⟩ := @pmmInit_succeeds plainMap (fun _ => 0)
    (by rw [hframes]; decide) (by rw [hframes, hplace]; decide)
  have hinitialised := pmmInit_initialised hinit
  have hnframes : init.nframes = 0x8000 := hinitialised.nframes.trans hframes
  have hmeta : ¬MetadataFrame plainMap 0x3800 := by
    rw [MetadataFrame, hframes, hplace]
    decide +kernel
  have hfree : ¬(Kept init 0x3800 ∨ (0 : ℕ) ≠ 0) := by
    rw [kept_iff_reserved hinitialised hfits htail (by rw [hnframes]; decide)]
    have husable : Usable plainMap 0x3800 :=
      ⟨_, List.mem_singleton.mpr rfl, rfl, by decide, by decide⟩
    have hboot : ¬BootFrame 0x3800 := by decide
    simp [Reserved, husable, hboot, hmeta]
  have haddr : (pmmAllocFrame init).2 = 0x3800 * pageSize := by
    refine pmmAllocFrame_least hinitialised.holds (by rw [hnframes]; decide) hfree
      fun g hg => .inl fun hlt => (hinitialised.test_iff hlt).mpr ?_
    have hboot : BootFrame g := by
      have hreserve : earlyBootReserve = 0x3800 * pageSize := by decide
      rw [BootFrame, hreserve]
      exact (Nat.mul_lt_mul_right (by decide)).mpr hg
    exact .inr (.inl hboot)
  have hrun : Reaches (guarded (fun s call => call.Allowed s) Step)
      (start init) ((start init).call .allocFrame).1 :=
    @Reaches.tail _ _ _ _ _ _ .allocFrame (Reaches.refl _ _) ⟨trivial, rfl⟩
  refine ⟨init, _, hinit, hrun, ?_, pmm_sound_of_tailCovered plainMap _ init hinit
    hfits htail _ hrun⟩
  simp only [call, took, start, haddr]
  decide

/-- A machine with a reserved page at 128 MiB and one usable page behind it. -/
def holeMap : MemoryMap :=
  [⟨0x4000000, 0x4000000, .bootloader⟩, ⟨0x8000000, 0x1000, .reserved⟩,
    ⟨0x8001000, 0x1000, .usable⟩]

/-- The bitmap of 32770 frames gets one page, which holds 32768 bits.  The bits
of the last two frames lie in the zeroed count of frame `0`, so the reserved
page starts out free and is the first frame handed out. -/
theorem pmm_alloc_hands_out_hole :
    MapFits holeMap ∧ ∃ init, pmmInit holeMap (fun _ => 0) = some init ∧
      (pmmAllocFrame init).2 = 0x8000000 ∧ Reserved holeMap 0x8000 ∧
      ¬CallSound holeMap (Session.start init) .allocFrame := by
  have hframes : nframesOf holeMap = 0x8002 := by decide +kernel
  have hplace : findBitmapRegion holeMap 0x8002 = 0x7fde000 := by decide +kernel
  have hfits : MapFits holeMap := by decide +kernel
  obtain ⟨init, hinit⟩ := @pmmInit_succeeds holeMap (fun _ => 0)
    (by rw [hframes]; decide) (by rw [hframes, hplace]; decide)
  have hinitialised := pmmInit_initialised hinit
  have hnframes : init.nframes = 0x8002 := hinitialised.nframes.trans hframes
  have hbytes : 8 * bitmapBytesOf 0x8002 = 0x8000 := by decide +kernel
  have hnotUsable : ∀ f, f ≤ 0x8000 → ¬Usable holeMap f := by
    rintro f hf ⟨e, he, husable, hbase, _⟩
    simp only [holeMap, List.mem_cons, List.not_mem_nil, or_false] at he
    rcases he with rfl | rfl | rfl
    · cases husable
    · cases husable
    · simp only [pageSize] at hbase
      omega
  have hmeta : ¬MetadataFrame holeMap 0x8000 := by
    rw [MetadataFrame, hframes, hplace]
    decide +kernel
  have hfree : ¬(Kept init 0x8000 ∨ (0 : ℕ) ≠ 0) := by
    have hlt : 0x8000 < init.nframes := by rw [hnframes]; decide
    have hboot : ¬BootFrame 0x8000 := by decide
    have htest := hinitialised.test_iff hlt
    rw [hframes, hbytes] at htest
    simp [Kept, hlt, htest, hboot, hmeta]
  have haddr : (pmmAllocFrame init).2 = 0x8000 * pageSize := by
    refine pmmAllocFrame_least hinitialised.holds (by rw [hnframes]; decide) hfree
      fun g hg => .inl fun hlt => (hinitialised.test_iff hlt).mpr (.inl ?_)
    rw [hframes, hbytes, freed_iff hfits]
    exact ⟨hg, hnotUsable g (by omega)⟩
  have hreserved : Reserved holeMap 0x8000 := .inl (hnotUsable _ le_rfl)
  refine ⟨hfits, init, hinit, haddr, hreserved, fun hsound => ?_⟩
  have hcall : ((start init).call .allocFrame).2 = 0x8000 * pageSize := haddr
  have hreturned := hsound.2 (by rw [hcall]; decide)
  rw [hcall] at hreturned
  exact (hreturned.fresh 0x8000 (by decide)).2.1 hreserved

end AuraLite.Pmm

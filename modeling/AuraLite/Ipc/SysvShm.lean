import AuraLite.Lib.RefCount
import AuraLite.Mm.Mmap

/-!
# Lifetime of System V shared memory

A segment owns one reference to each of its frames; `shmat` maps them without
taking more.  The model has the segment table, the attachment records and leaves
of every process and the reference counts of the frame allocator, and all calls
that edit them: `shmget`, `shmat`, `shmdt`, `IPC_RMID`, `fork`, `munmap`, page
faults, and the two halves of a process exit.  A call that fails a permission
check changes nothing and is not an event.
-/

namespace AuraLite.SysvShm

open List Mmap Pmm Reachability RefCount

/-- A segment in use.  `serial` numbers the segments in order of creation: a slot
of the table is used again, a serial is not. -/
structure Segment where
  serial : ℕ
  pages : List ℕ
  nattch : ℕ
  destroyPending : Bool
deriving DecidableEq

/-- A `struct shm_attach` of process `proc`. -/
structure Attach where
  proc : ℕ
  shmid : ℕ
  va : ℕ
deriving DecidableEq

/-- A present leaf; `shm` is the serial of the segment it was mapped for. -/
structure Leaf where
  proc : ℕ
  page : ℕ
  frame : ℕ
  shm : Option ℕ
deriving DecidableEq

structure State where
  refs : ℕ → ℕ
  shms : List (Option Segment)
  nextSerial : ℕ
  /-- The attachment lists of all processes, newest first. -/
  attachments : List Attach
  leaves : List Leaf
  /-- Processes that ran `sysvipc_cleanup_process`. -/
  exited : List ℕ
  /-- Frame references held by the rest of the kernel. -/
  others : List ℕ

def State.segment (s : State) (id : ℕ) : Option Segment := (s.shms[id]?).join

/-- The leaf lies in a range of `npages` pages of a process. -/
def Leaf.inRange (proc addr npages : ℕ) (l : Leaf) : Bool :=
  l.proc == proc && decide (addr / pageSize ≤ l.page) &&
    decide (l.page < addr / pageSize + npages)

/-- `paging_unmap` of a range; the frames are left alone. -/
def State.unmap (s : State) (proc addr npages : ℕ) : State :=
  { s with leaves := s.leaves.filter fun l => !l.inRange proc addr npages }

/-! ## The calls -/

/-- `sysv_shmget` on a new key with the frames `pmm_alloc_frame` handed out. -/
def State.shmget (s : State) (id : ℕ) (frames : List ℕ) : State :=
  if s.shms[id]? = some none ∧ frames.Nodup ∧ ∀ f ∈ frames, s.refs f = 0 then
    { s with
      refs := frames.foldl fresh s.refs
      shms := s.shms.set id (some ⟨s.nextSerial, frames, 0, false⟩)
      nextSerial := s.nextSerial + 1 }
  else s

/-- The leaves `sysv_shmat` installs: page `i` of the segment where `paging_map`
gets its table. -/
def shmLeaves (proc va : ℕ) (m : Segment) (table : ℕ → Bool) : List Leaf :=
  (m.pages.zipIdx.filter fun e => table e.2).map fun e =>
    ⟨proc, va / pageSize + e.2, e.1, some m.serial⟩

/-- `sysv_shmat` at the address `shm_alloc_addr` chose, where no page of the
range is present.  If the area or the record cannot be allocated the pages are
unmapped again. -/
def State.shmat (s : State) (proc id va : ℕ) (table : ℕ → Bool) (recorded : Bool) :
    State :=
  match s.segment id with
  | none => s
  | some m =>
    if (∀ l ∈ s.leaves, l.inRange proc va m.pages.length = false) ∧ recorded then
      { s with
        shms := s.shms.set id (some { m with nattch := m.nattch + 1 })
        attachments := ⟨proc, id, va⟩ :: s.attachments
        leaves := shmLeaves proc va m table ++ s.leaves }
    else s

/-- `shm_release_frames` and the clearing of the slot. -/
def State.releaseFrames (s : State) (id : ℕ) (m : Segment) : State :=
  { s with
    refs := m.pages.foldl release s.refs
    shms := s.shms.set id none }

/-- A detach, after the record is unlinked and the pages are unmapped. -/
def State.dropAttach (s : State) (id : ℕ) (m : Segment) : State :=
  if m.destroyPending ∧ m.nattch - 1 = 0 then s.releaseFrames id m
  else { s with shms := s.shms.set id (some { m with nattch := m.nattch - 1 }) }

/-- The body of `sysv_shmdt`, which `sysvipc_shm_detach_list` runs for every
record. -/
def State.detach (s : State) (a : Attach) : State :=
  let unlinked := { s with attachments := s.attachments.erase a }
  match s.segment a.shmid with
  | none => unlinked
  | some m => (unlinked.unmap a.proc a.va m.pages.length).dropAttach a.shmid m

def State.shmdt (s : State) (proc va : ℕ) : State :=
  match s.attachments.find? fun a => a.proc == proc && a.va == va with
  | none => s
  | some a => s.detach a

/-- `sysv_shmctl` with `IPC_RMID`. -/
def State.rmid (s : State) (id : ℕ) : State :=
  match s.segment id with
  | none => s
  | some m =>
    if m.nattch = 0 then s.releaseFrames id m
    else { s with shms := s.shms.set id (some { m with destroyPending := true }) }

def State.leavesOf (s : State) (proc : ℕ) : List Leaf :=
  s.leaves.filter (·.proc == proc)

def State.Unused (s : State) (proc : ℕ) : Prop :=
  proc ∉ s.exited ∧ (∀ l ∈ s.leaves, l.proc ≠ proc) ∧
    ∀ a ∈ s.attachments, a.proc ≠ proc

instance (s : State) (proc : ℕ) : Decidable (s.Unused proc) :=
  inferInstanceAs (Decidable (_ ∧ _ ∧ _))

/-- `paging_clone_user_space`: every leaf is copied with a reference of its own.
The attachment list and `nattch` are not touched. -/
def State.fork (s : State) (proc child : ℕ) : State :=
  if s.Unused child ∧ ∀ l ∈ s.leavesOf proc, s.refs l.frame ≠ 0 then
    { s with
      refs := ((s.leavesOf proc).map (·.frame)).foldl (retainMod (2 ^ 32)) s.refs
      leaves := (s.leavesOf proc).map (fun l => { l with proc := child }) ++ s.leaves }
  else s

/-- `syscall_munmap`, and the discarding half of `mmap` with `MAP_FIXED`.  Only
the frames of a range that starts with a shared file mapping are kept. -/
def State.munmap (s : State) (proc addr npages : ℕ) (sharedFile : Bool) : State :=
  let freed := if sharedFile then []
    else (s.leaves.filter (Leaf.inRange proc addr npages)).map (·.frame)
  { s.unmap proc addr npages with refs := freed.foldl release s.refs }

/-- The first touch of a private page. -/
def State.touch (s : State) (proc page frame : ℕ) : State :=
  if s.refs frame = 0 ∧ ∀ l ∈ s.leavesOf proc, l.page ≠ page then
    { s with
      refs := fresh s.refs frame
      leaves := ⟨proc, page, frame, none⟩ :: s.leaves }
  else s

/-- `sysvipc_cleanup_process` for the attachments of an exiting process. -/
def State.cleanup (s : State) (proc : ℕ) : State :=
  let s' := (s.attachments.filter (·.proc == proc)).foldl State.detach s
  { s' with exited := proc :: s'.exited }

/-- `paging_free_address_space` of an exited process. -/
def State.teardown (s : State) (proc : ℕ) : State :=
  { s with
    refs := ((s.leavesOf proc).map (·.frame)).foldl release s.refs
    leaves := s.leaves.filter (·.proc != proc) }

/-- The rest of the kernel allocates a frame. -/
def State.acquire (s : State) (frame : ℕ) : State :=
  if s.refs frame = 0 then
    { s with refs := fresh s.refs frame, others := frame :: s.others }
  else s

/-- The rest of the kernel frees a frame it holds. -/
def State.discard (s : State) (frame : ℕ) : State :=
  if frame ∈ s.others then
    { s with refs := release s.refs frame, others := s.others.erase frame }
  else s

inductive Event
  | shmget (id : ℕ) (frames : List ℕ)
  | shmat (proc id va : ℕ) (table : ℕ → Bool) (recorded : Bool)
  | shmdt (proc va : ℕ)
  | rmid (id : ℕ)
  | fork (proc child : ℕ)
  | munmap (proc addr npages : ℕ) (sharedFile : Bool)
  | touch (proc page frame : ℕ)
  | cleanup (proc : ℕ)
  | teardown (proc : ℕ)
  | acquire (frame : ℕ)
  | discard (frame : ℕ)

/-- The process whose own call the event is. -/
def Event.caller : Event → Option ℕ
  | .shmat proc .. | .shmdt proc _ | .fork proc _ | .munmap proc .. | .touch proc ..
  | .cleanup proc => some proc
  | _ => none

/-- A process makes no call after its exit, and only then its address space is
torn down. -/
def State.allows (s : State) (event : Event) : Prop :=
  (∀ proc ∈ event.caller, proc ∉ s.exited) ∧
    match event with
    | .teardown proc => proc ∈ s.exited
    | _ => True

def State.run (s : State) : Event → State
  | .shmget id frames => s.shmget id frames
  | .shmat proc id va table recorded => s.shmat proc id va table recorded
  | .shmdt proc va => s.shmdt proc va
  | .rmid id => s.rmid id
  | .fork proc child => s.fork proc child
  | .munmap proc addr npages sharedFile => s.munmap proc addr npages sharedFile
  | .touch proc page frame => s.touch proc page frame
  | .cleanup proc => s.cleanup proc
  | .teardown proc => s.teardown proc
  | .acquire frame => s.acquire frame
  | .discard frame => s.discard frame

instance (s : State) (event : Event) : Decidable (s.allows event) := by
  cases event <;> unfold State.allows <;> infer_instance

def State.step (s : State) (event : Event) : State :=
  if s.allows event then s.run event else s

def State.Step (s : State) (event : Event) (s' : State) : Prop := s.step event = s'

/-- `SYSV_MAX_OBJS` free slots. -/
def State.start : State where
  refs _ := 0
  shms := replicate 32 none
  nextSerial := 0
  attachments := []
  leaves := []
  exited := []
  others := []

/-! ## What is kept -/

/-- The number of attachment records of a segment. -/
def State.attached (s : State) (id : ℕ) : ℕ := s.attachments.countP (·.shmid == id)

def slotPages (slot : Option Segment) : List ℕ := (slot.map (·.pages)).getD []

/-- The references to a frame that have an owner: a segment, a leaf that was not
mapped for a segment, the rest of the kernel. -/
def State.owned (s : State) (f : ℕ) : ℕ :=
  (s.shms.flatMap slotPages).count f +
    ((s.leaves.filter (·.shm.isNone)).map (·.frame)).count f + s.others.count f

/-- The leaf belongs to the attachment, whose segment is the one with serial
`k`. -/
def Attach.Backs (a : Attach) (s : State) (l : Leaf) (k : ℕ) : Prop :=
  ∃ m, s.segment a.shmid = some m ∧ m.serial = k ∧ l.frame ∈ m.pages ∧
    l.inRange a.proc a.va m.pages.length = true

structure Tracked (s : State) : Prop where
  covers : Covers s.refs s.owned
  counted : ∀ id m, s.segment id = some m → m.nattch = s.attached id
  live : ∀ a ∈ s.attachments, ∃ m, s.segment a.shmid = some m
  pending : ∀ id m, s.segment id = some m → m.destroyPending = true → m.nattch ≠ 0
  mapped : ∀ l ∈ s.leaves, ∀ k, l.shm = some k → ∃ a ∈ s.attachments, a.Backs s l k
  running : ∀ a ∈ s.attachments, a.proc ∉ s.exited

/-- The condition on the calls: a process forks only while it maps no segment,
and no reference count reaches `2 ^ 32`; a range that is unmapped by `munmap` or
replaced by `MAP_FIXED` holds no page of a segment. -/
def Event.Fits (s : State) : Event → Prop
  | .fork proc _ =>
    ∀ l ∈ s.leavesOf proc, l.shm = none ∧ s.refs l.frame + s.leaves.length < 2 ^ 32
  | .munmap proc addr npages _ =>
    ∀ l ∈ s.leaves, l.inRange proc addr npages = true → l.shm = none
  | _ => True

/-! ## Each call keeps it -/

variable {s s' : State} {id : ℕ} {m : Segment} {a : Attach} {new : Option Segment}
variable {leaves : List Leaf} {l : Leaf} {k va : ℕ} {old : Option Segment}

open State

theorem segment_eq_some : s.segment id = some m ↔ s.shms[id]? = some (some m) := by
  rw [State.segment, Option.join_eq_some_iff]

theorem segment_set (hold : s.shms[id]? = some old) (hshms : s'.shms = s.shms.set id new) (j : ℕ) :
    s'.segment j = if j = id then new else s.segment j := by
  have hlt : id < s.shms.length := (List.getElem?_eq_some_iff.mp hold).1
  rw [State.segment, hshms, getElem?_set]
  split_ifs with h₁ h₂ h₃
  · rfl
  · exact absurd h₁.symm h₂
  · exact absurd h₃.symm h₁
  · rfl

theorem Attach.Backs.congr (hbacks : a.Backs s l k)
    (hsegment : s'.segment a.shmid = s.segment a.shmid) : a.Backs s' l k := by
  rw [Attach.Backs, hsegment]
  exact hbacks

/-- An edit of one slot, of its attachments and of the leaves.  A segment may be
made there, and given up when it has no attachment left. -/
theorem Tracked.retable (htracked : Tracked s) (hold : s.shms[id]? = some old)
    (hcovers : Covers s'.refs s'.owned) (hshms : s'.shms = s.shms.set id new)
    (hexited : s'.exited = s.exited)
    (hnew : ∀ m', new = some m' → (∀ m, old = some m → m'.serial = m.serial ∧
      m'.pages = m.pages) ∧ m'.nattch = s'.attached id ∧ (m'.destroyPending = true → m'.nattch ≠ 0))
    (hkept : ∀ b ∈ s'.attachments, b.shmid = id → ∃ m', new = some m')
    (hcount : ∀ j, j ≠ id → s'.attached j = s.attached j)
    (hattach : ∀ b ∈ s'.attachments, b ∈ s.attachments ∨ b.shmid = id ∧ b.proc ∉ s.exited)
    (hleaves : ∀ l ∈ s'.leaves, ∀ k, l.shm = some k →
      ∃ b ∈ s'.attachments, b.Backs s l k) : Tracked s' := by
  have hset := fun j => segment_set hold hshms j
  refine ⟨hcovers, fun j m' hj => ?_, fun b hb => ?_, fun j m' hj => ?_, ?_, ?_⟩
  · rw [hset] at hj
    split_ifs at hj with hid
    · rw [hid]
      exact (hnew m' hj).2.1
    · rw [hcount j hid]
      exact htracked.counted j m' hj
  · by_cases hid : b.shmid = id
    · obtain ⟨m', hm'⟩ := hkept b hb hid
      exact ⟨m', by rw [hset, if_pos hid, hm']⟩
    · obtain hold | hold := hattach b hb
      · obtain ⟨m', hm'⟩ := htracked.live b hold
        exact ⟨m', by rw [hset, if_neg hid, hm']⟩
      · exact absurd hold.1 hid
  · rw [hset] at hj
    split_ifs at hj with hid
    · exact (hnew m' hj).2.2
    · exact htracked.pending j m' hj
  · intro l hl k hk
    obtain ⟨b, hb, hbacks⟩ := hleaves l hl k hk
    refine ⟨b, hb, ?_⟩
    by_cases hid : b.shmid = id
    · obtain ⟨m, hm, hserial, hframe, hrange⟩ := hbacks
      obtain ⟨m', hm'⟩ := hkept b hb hid
      rw [hid, segment_eq_some, hold, Option.some.injEq] at hm
      obtain ⟨hserial', hpages⟩ := (hnew m' hm').1 m hm
      refine ⟨m', by rw [hset, if_pos hid, hm'], hserial' ▸ hserial, ?_, ?_⟩
      · rw [hpages]
        exact hframe
      · rw [hpages]
        exact hrange
    · exact hbacks.congr (by rw [hset, if_neg hid])
  · intro b hb
    rw [hexited]
    obtain hold | hold := hattach b hb
    · exact htracked.running b hold
    · exact hold.2

theorem Tracked.relink (htracked : Tracked s) {refs : ℕ → ℕ} {others : List ℕ}
    (hcovers : Covers refs { s with leaves, others }.owned)
    (hleaves : ∀ l ∈ leaves, l ∈ s.leaves ∨ l.shm = none) :
    Tracked { s with refs, leaves, others } := by
  refine { htracked with covers := hcovers, mapped := ?_ }
  intro l hl k hk
  obtain hold | hnone := hleaves l hl
  · exact htracked.mapped l hold k hk
  · rw [hnone] at hk
    cases hk

theorem Tracked.attached_eq_zero (htracked : Tracked s) (hnone : s.segment id = none) :
    s.attached id = 0 := by
  rw [attached, countP_eq_zero]
  intro b hb heq
  obtain ⟨m, hm⟩ := htracked.live b hb
  rw [beq_iff_eq.mp heq, hnone] at hm
  cases hm

theorem Tracked.shmget (htracked : Tracked s) (frames : List ℕ) : Tracked (s.shmget id frames) := by
  rw [State.shmget]
  split_ifs with hfree
  · obtain ⟨hslot, hnodup, hfrees⟩ := hfree
    refine htracked.retable hslot ?_ rfl rfl ?_ (fun _ _ _ => ⟨_, rfl⟩) (fun _ _ => rfl)
      (fun _ hb => .inl hb) htracked.mapped
    · refine htracked.covers.freshAll hnodup hfrees fun x => ?_
      have hcount :=
        count_flatMap_set slotPages (c := some ⟨s.nextSerial, frames, 0, false⟩) hslot x
      have hempty : (slotPages none).count x = 0 := rfl
      have hpages : (slotPages (some ⟨s.nextSerial, frames, 0, false⟩)).count x =
          frames.count x := rfl
      simp only [owned]
      omega
    · rintro _ ⟨rfl⟩
      exact ⟨nofun, (htracked.attached_eq_zero (by rw [State.segment, hslot]; rfl)).symm, nofun⟩
  · exact htracked

variable {proc : ℕ}

theorem shmLeaves_backed {table : ℕ → Bool} (hm : s.segment id = some m)
    (hl : l ∈ shmLeaves proc va m table) (hk : l.shm = some k) :
    (⟨proc, id, va⟩ : Attach).Backs s l k := by
  rw [shmLeaves, mem_map] at hl
  obtain ⟨⟨f, i⟩, hentry, rfl⟩ := hl
  have hzip := mem_zipIdx_iff_getElem?.mp (mem_filter.mp hentry).1
  obtain ⟨hlt, hget⟩ := List.getElem?_eq_some_iff.mp hzip
  refine ⟨m, hm, Option.some.inj hk, hget ▸ getElem_mem hlt, ?_⟩
  simpa [Leaf.inRange] using hlt

/-- Leaves that were mapped for a segment hold no reference. -/
theorem shmLeaves_ordinary (proc va : ℕ) (m : Segment) (table : ℕ → Bool) :
    (shmLeaves proc va m table).filter (·.shm.isNone) = [] := by
  rw [filter_eq_nil_iff]
  intro l hl
  rw [shmLeaves, mem_map] at hl
  obtain ⟨e, -, rfl⟩ := hl
  exact Bool.false_ne_true

/-- An edit of a segment that stays in use with its pages. -/
theorem Tracked.reslot (htracked : Tracked s) (hm : s.segment id = some m) {m' : Segment}
    {attachments : List Attach} (hsame : m'.serial = m.serial ∧ m'.pages = m.pages)
    (hnattch : m'.nattch = attachments.countP (·.shmid == id))
    (hpending : m'.destroyPending = true → m'.nattch ≠ 0)
    (hordinary : (leaves.filter (·.shm.isNone)).Sublist (s.leaves.filter (·.shm.isNone)))
    (hcount : ∀ j, j ≠ id → attachments.countP (·.shmid == j) = s.attached j)
    (hattach : ∀ b ∈ attachments, b ∈ s.attachments ∨ b.shmid = id ∧ b.proc ∉ s.exited)
    (hleaves : ∀ l ∈ leaves, ∀ k, l.shm = some k → ∃ b ∈ attachments, b.Backs s l k) :
    Tracked { s with shms := s.shms.set id (some m'), attachments, leaves } := by
  have hslot := segment_eq_some.mp hm
  refine htracked.retable hslot (htracked.covers.mono fun x => ?_) rfl rfl ?_
    (fun _ _ _ => ⟨m', rfl⟩) hcount hattach hleaves
  · have hslots := count_flatMap_set slotPages (c := some m') hslot x
    have hpages : (slotPages (some m')).count x = (slotPages (some m)).count x := by
      rw [slotPages, slotPages, Option.map_some, Option.map_some, hsame.2]
    have hle := (hordinary.map (·.frame)).count_le x
    simp only [owned]
    omega
  · rintro _ ⟨rfl⟩
    exact ⟨fun | _, rfl => hsame, hnattch, hpending⟩

/-- A slot without attachments is given up with the frames it owned. -/
theorem Tracked.freeSlot (htracked : Tracked s) (hm : s.segment id = some m)
    {attachments : List Attach} (hnone : attachments.countP (·.shmid == id) = 0)
    (hsub : leaves.Sublist s.leaves)
    (hcount : ∀ j, j ≠ id → attachments.countP (·.shmid == j) = s.attached j)
    (hattach : ∀ b ∈ attachments, b ∈ s.attachments)
    (hleaves : ∀ l ∈ leaves, ∀ k, l.shm = some k → ∃ b ∈ attachments, b.Backs s l k) :
    Tracked { s with
      refs := m.pages.foldl release s.refs
      shms := s.shms.set id none
      attachments
      leaves } := by
  have hslot := segment_eq_some.mp hm
  refine htracked.retable hslot (htracked.covers.releaseAll fun x => ?_) rfl rfl nofun
    (fun b hb heq => ?_) hcount (fun b hb => .inl (hattach b hb)) hleaves
  · have hslots := count_flatMap_set slotPages (c := none) hslot x
    have hempty : (slotPages none).count x = 0 := rfl
    have hpages : (slotPages (some m)).count x = m.pages.count x := rfl
    have hle := ((hsub.filter (·.shm.isNone)).map (·.frame)).count_le x
    simp only [owned]
    omega
  · exact absurd (beq_iff_eq.mpr heq) (countP_eq_zero.mp hnone b hb)

theorem Tracked.shmat (htracked : Tracked s) {table : ℕ → Bool} {recorded : Bool}
    (hrunning : proc ∉ s.exited) : Tracked (s.shmat proc id va table recorded) := by
  rw [State.shmat]
  cases hm : s.segment id with
  | none => exact htracked
  | some m =>
    simp only
    split_ifs
    · refine htracked.reslot hm ⟨rfl, rfl⟩ ?_ (fun _ => Nat.succ_ne_zero _) ?_ ?_ ?_ ?_
      · have hcount := htracked.counted id m hm
        simp only [attached, countP_cons, beq_self_eq_true, if_true] at hcount ⊢
        omega
      · rw [filter_append, shmLeaves_ordinary, nil_append]
      · intro j hj
        simp only [attached, countP_cons, beq_iff_eq, Ne.symm hj, if_false]
        rfl
      · intro b hb
        obtain rfl | hold := mem_cons.mp hb
        · exact .inr ⟨rfl, hrunning⟩
        · exact .inl hold
      · intro l hl k hk
        obtain hnew | hold := mem_append.mp hl
        · exact ⟨_, mem_cons_self, shmLeaves_backed hm hnew hk⟩
        · obtain ⟨b, hb, hbacks⟩ := htracked.mapped l hold k hk
          exact ⟨b, mem_cons_of_mem _ hb, hbacks⟩
    · exact htracked

theorem attached_erase (ha : a ∈ s.attachments) (j : ℕ) :
    (s.attachments.erase a).countP (·.shmid == j) + (if a.shmid = j then 1 else 0) =
      s.attached j := by
  have hperm := (perm_cons_erase ha).countP_eq (·.shmid == j)
  rw [attached, hperm, countP_cons]
  simp only [beq_iff_eq]

theorem detach_attachments (s : State) (a : Attach) :
    (s.detach a).attachments = s.attachments.erase a := by
  rw [detach]
  cases s.segment a.shmid with
  | none => rfl
  | some m =>
    simp only [dropAttach]
    split_ifs <;> rfl

section

variable (htracked : Tracked s)
include htracked

/-- The leaves that stay after a detach are backed by other attachments. -/
theorem Tracked.backed_erase (hm : s.segment a.shmid = some m) (hl : l ∈ s.leaves)
    (hout : (!l.inRange a.proc a.va m.pages.length) = true) (hk : l.shm = some k) :
    ∃ b ∈ s.attachments.erase a, b.Backs s l k := by
  obtain ⟨b, hb, hbacks⟩ := htracked.mapped l hl k hk
  have hne : b ≠ a := by
    rintro rfl
    obtain ⟨old, hold, -, -, hrange⟩ := hbacks
    rw [hm, Option.some.injEq] at hold
    rw [hold, hrange] at hout
    cases hout
  exact ⟨b, (mem_erase_of_ne hne).mpr hb, hbacks⟩

theorem Tracked.detach (ha : a ∈ s.attachments) : Tracked (s.detach a) := by
  obtain ⟨m, hm⟩ := htracked.live a ha
  have hcounted : m.nattch = s.attached a.shmid := htracked.counted _ m hm
  have hself : m.nattch - 1 = (s.attachments.erase a).countP (·.shmid == a.shmid) := by
    have hone := attached_erase ha a.shmid
    rw [if_pos rfl] at hone
    omega
  have hothers : ∀ j, j ≠ a.shmid →
      (s.attachments.erase a).countP (·.shmid == j) = s.attached j := by
    intro j hj
    have := attached_erase ha j
    rwa [if_neg hj.symm, Nat.add_zero] at this
  have hbacked : ∀ l ∈ s.leaves.filter fun l => !l.inRange a.proc a.va m.pages.length,
      ∀ k, l.shm = some k → ∃ b ∈ s.attachments.erase a, b.Backs s l k := by
    intro l hl k hk
    obtain ⟨hin, hout⟩ := mem_filter.mp hl
    exact htracked.backed_erase hm hin hout hk
  simp only [State.detach, hm, State.dropAttach]
  split_ifs with hlast
  · -- the last attachment of the slot is gone, so that none is left without it
    exact htracked.freeSlot hm (hself.symm.trans hlast.2) filter_sublist hothers
      (fun b => mem_of_mem_erase) hbacked
  · exact htracked.reslot hm ⟨rfl, rfl⟩ hself (fun hpending hzero => hlast ⟨hpending, hzero⟩)
      (filter_sublist.filter _) hothers (fun b hb => .inl (mem_of_mem_erase hb)) hbacked

theorem Tracked.shmdt (proc va : ℕ) : Tracked (s.shmdt proc va) := by
  rw [State.shmdt]
  cases hfind : s.attachments.find? fun a => a.proc == proc && a.va == va with
  | none => exact htracked
  | some a => exact htracked.detach (mem_of_find?_eq_some hfind)

theorem Tracked.rmid (id : ℕ) : Tracked (s.rmid id) := by
  rw [State.rmid]
  cases hm : s.segment id with
  | none => exact htracked
  | some m =>
    have hcounted : m.nattch = s.attached id := htracked.counted id m hm
    simp only
    split_ifs with hzero
    · exact htracked.freeSlot hm (hcounted.symm.trans hzero) (List.Sublist.refl _)
        (fun _ _ => rfl) (fun _ hb => hb) htracked.mapped
    · exact htracked.reslot hm ⟨rfl, rfl⟩ hcounted (fun _ => hzero) (List.Sublist.refl _)
        (fun _ _ => rfl) (fun _ hb => .inl hb) htracked.mapped

/-! ## Exit, fork and unmapping -/

omit htracked in
theorem detachAll_attachments (l : List Attach) (s : State) :
    (l.foldl State.detach s).attachments = s.attachments.diff l := by
  induction l generalizing s with
  | nil => rfl
  | cons a l ih =>
    rw [foldl_cons, ih, detach_attachments, diff_cons]

omit htracked in
theorem Tracked.detachAll {l : List Attach} (htracked : Tracked s)
    (hl : l.Subperm s.attachments) : Tracked (l.foldl State.detach s) := by
  induction l generalizing s with
  | nil => exact htracked
  | cons a l ih =>
    have ha : a ∈ s.attachments := hl.subset mem_cons_self
    refine ih (htracked.detach ha) ?_
    rw [detach_attachments]
    have herase := hl.erase a
    rwa [erase_cons_head] at herase

theorem Tracked.cleanup (proc : ℕ) : Tracked (s.cleanup proc) := by
  have hdone := htracked.detachAll (filter_sublist (p := fun a : Attach => a.proc == proc)).subperm
  have hattach := detachAll_attachments (s.attachments.filter (·.proc == proc)) s
  refine { hdone with running := ?_ }
  intro a ha hexited
  obtain heq | hold := mem_cons.mp hexited
  · -- every record of the process was taken out of the list
    have hcount : (s.attachments.diff (s.attachments.filter (·.proc == proc))).count a =
        0 := by
      rw [count_diff, @count_filter _ _ _ (fun b : Attach => b.proc == proc) a
        s.attachments (beq_iff_eq.mpr heq), Nat.sub_self]
    refine count_eq_zero.mp hcount ?_
    rw [← hattach]
    exact ha
  · exact hdone.running a ha hold

omit htracked in
theorem ordinary_split {p : Leaf → Bool} (hp : ∀ l ∈ leaves, p l = true → l.shm = none) (x : ℕ) :
    (((leaves.filter fun l => !p l).filter (·.shm.isNone)).map (·.frame)).count x +
        ((leaves.filter p).map (·.frame)).count x =
      ((leaves.filter (·.shm.isNone)).map (·.frame)).count x := by
  have htaken : leaves.filter p = (leaves.filter (·.shm.isNone)).filter p := by
    rw [filter_filter]
    refine filter_congr fun l hl => ?_
    cases hpl : p l with
    | false => rfl
    | true => rw [hp l hl hpl]; rfl
  have hstay : (leaves.filter fun l => !p l).filter (·.shm.isNone) =
      (leaves.filter (·.shm.isNone)).filter fun l => !p l := by
    rw [filter_filter, filter_filter]
    exact filter_congr fun l _ => Bool.and_comm _ _
  have hperm := (filter_append_perm p (leaves.filter (·.shm.isNone))).map (·.frame)
  have hcount := hperm.count_eq x
  rw [map_append, count_append] at hcount
  rw [htaken, hstay]
  omega

theorem Tracked.munmap {addr npages : ℕ} {sharedFile : Bool}
    (hfits : ∀ l ∈ s.leaves, l.inRange proc addr npages = true → l.shm = none) :
    Tracked (s.munmap proc addr npages sharedFile) := by
  refine htracked.relink ?_ fun l hl => .inl (mem_of_mem_filter hl)
  refine htracked.covers.releaseAll fun x => ?_
  have hsplit := ordinary_split hfits x
  simp only [owned, unmap]
  split_ifs
  · rw [count_nil]
    omega
  · omega

theorem Tracked.teardown (hexited : proc ∈ s.exited) : Tracked (s.teardown proc) := by
  have hfits : ∀ l ∈ s.leaves, (l.proc == proc) = true → l.shm = none := by
    intro l hl hproc
    cases hk : l.shm with
    | none => rfl
    | some k =>
      obtain ⟨a, ha, m, -, -, -, hrange⟩ := htracked.mapped l hl k hk
      simp only [Leaf.inRange, Bool.and_eq_true, beq_iff_eq] at hrange hproc
      exact absurd (hrange.1.1 ▸ hproc.symm ▸ hexited) (htracked.running a ha)
  refine htracked.relink ?_ fun l hl => .inl (mem_of_mem_filter hl)
  refine htracked.covers.releaseAll fun x => ?_
  have hsplit := ordinary_split hfits x
  simp only [owned, leavesOf, bne]
  omega

theorem Tracked.fork {child : ℕ} (hfits : ∀ l ∈ s.leavesOf proc,
      l.shm = none ∧ s.refs l.frame + s.leaves.length < 2 ^ 32) :
    Tracked (s.fork proc child) := by
  rw [State.fork]
  split_ifs
  · refine htracked.relink ?_ ?_
    · refine htracked.covers.retainAll ?_ fun x => ?_
      · intro f hf
        obtain ⟨l, hl, rfl⟩ := mem_map.mp hf
        have hle : (s.leavesOf proc).length ≤ s.leaves.length := length_filter_le _ _
        rw [length_map]
        exact lt_of_le_of_lt (Nat.add_le_add_left hle _) (hfits l hl).2
      · -- a copy owns the reference that was taken for it
        have hle := (((filter_sublist (p := fun l : Leaf => l.shm.isNone)
          (l := (s.leavesOf proc).map fun l => { l with proc := child }))).map (·.frame)).count_le x
        have hframes : (((s.leavesOf proc).map fun l => { l with proc := child }).map
            (·.frame)) = (s.leavesOf proc).map (·.frame) := by
          rw [map_map]
          rfl
        rw [hframes] at hle
        simp only [owned, filter_append, map_append, count_append]
        omega
    · intro l hl
      obtain hcopy | hold := mem_append.mp hl
      · obtain ⟨old, hold, rfl⟩ := mem_map.mp hcopy
        exact .inr (hfits old hold).1
      · exact .inl hold
  · exact htracked

theorem Tracked.touch (proc page frame : ℕ) : Tracked (s.touch proc page frame) := by
  rw [State.touch]
  split_ifs with hfree
  · refine htracked.relink ?_ ?_
    · refine htracked.covers.fresh hfree.1 fun x => ?_
      have hcons := count_cons_single frame ((s.leaves.filter (·.shm.isNone)).map (·.frame)) x
      have hfilter : (⟨proc, page, frame, none⟩ :: s.leaves).filter (·.shm.isNone) =
          (⟨proc, page, frame, none⟩ : Leaf) :: s.leaves.filter (·.shm.isNone) := rfl
      simp only [owned, hfilter, map_cons]
      omega
    · intro l hl
      obtain rfl | hold := mem_cons.mp hl
      · exact .inr rfl
      · exact .inl hold
  · exact htracked

theorem Tracked.acquire (frame : ℕ) : Tracked (s.acquire frame) := by
  rw [State.acquire]
  split_ifs with hfree
  · refine htracked.relink ?_ fun l hl => .inl hl
    refine htracked.covers.fresh hfree fun x => ?_
    have hcons := count_cons_single frame s.others x
    simp only [owned]
    omega
  · exact htracked

theorem Tracked.discard (frame : ℕ) : Tracked (s.discard frame) := by
  rw [State.discard]
  split_ifs with hheld
  · refine htracked.relink ?_ fun l hl => .inl hl
    refine htracked.covers.release fun x => ?_
    have hperm := (perm_cons_erase hheld).count_eq x
    have hcons := count_cons_single frame (s.others.erase frame) x
    simp only [owned]
    omega
  · exact htracked

theorem Tracked.step {event : Event} (hfits : event.Fits s) : Tracked (s.step event) := by
  rw [State.step]
  split_ifs with hallows
  · obtain ⟨hcaller, hown⟩ := hallows
    cases event with
    | shmget id frames => exact htracked.shmget frames
    | shmat proc id va table recorded => exact htracked.shmat (hcaller proc rfl)
    | shmdt proc va => exact htracked.shmdt proc va
    | rmid id => exact htracked.rmid id
    | fork proc child => exact htracked.fork hfits
    | munmap proc addr npages sharedFile => exact htracked.munmap hfits
    | touch proc page frame => exact htracked.touch proc page frame
    | cleanup proc => exact htracked.cleanup proc
    | teardown proc => exact htracked.teardown hown
    | acquire frame => exact htracked.acquire frame
    | discard frame => exact htracked.discard frame
  · exact htracked

theorem Tracked.allocated (hm : s.segment id = some m) {f : ℕ}
    (hf : f ∈ m.pages) : s.refs f ≠ 0 := by
  have hmem : f ∈ s.shms.flatMap slotPages :=
    mem_flatMap.mpr ⟨some m, mem_of_getElem? (segment_eq_some.mp hm), hf⟩
  have hpos : 0 < (s.shms.flatMap slotPages).count f := count_pos_iff.mpr hmem
  have hle : s.owned f ≤ s.refs f := htracked.covers f
  rw [owned] at hle
  omega

end

theorem start_segment (id : ℕ) : State.start.segment id = none := by
  rw [State.segment, start, getElem?_replicate]
  split_ifs <;> rfl

theorem start_tracked : Tracked State.start := by
  refine ⟨fun x => Nat.le_of_eq ?_, fun id m hm => ?_, ?_, fun id m hm => ?_, ?_, ?_⟩
  · have hempty : start.shms.flatMap slotPages = [] := by decide +kernel
    rw [owned, hempty]
    rfl
  · rw [start_segment] at hm
    cases hm
  · exact nofun
  · rw [start_segment] at hm
    cases hm
  · exact nofun
  · exact nofun

/-- In every run whose calls meet the condition: the frames of a segment in use
are allocated; `nattch` is the number of its attachments, and after `IPC_RMID` it
has at least one; an attachment keeps its segment in use; a leaf that was mapped
for a segment belongs to an attachment of its process to that segment, which still
has the frame. -/
theorem shm_lifetime (hrun : Reaches (guarded (fun s event => Event.Fits s event) State.Step)
      State.start s) :
    (∀ id m, s.segment id = some m → (∀ f ∈ m.pages, s.refs f ≠ 0) ∧ m.nattch = s.attached id ∧
        (m.destroyPending = true → s.attached id ≠ 0)) ∧
    (∀ a ∈ s.attachments, ∃ m, s.segment a.shmid = some m) ∧
    (∀ l ∈ s.leaves, ∀ k, l.shm = some k →
      ∃ a ∈ s.attachments, a.proc = l.proc ∧ a.Backs s l k) := by
  have htracked : Tracked s :=
    hrun.kept start_tracked fun hbefore hfits => hbefore.step hfits
  refine ⟨fun id m hm => ⟨fun f hf => htracked.allocated hm hf, ?_, ?_⟩,
    htracked.live, fun l hl k hk => ?_⟩
  · exact htracked.counted id m hm
  · intro hpending
    rw [← htracked.counted id m hm]
    exact htracked.pending id m hm hpending
  · obtain ⟨a, ha, hbacks⟩ := htracked.mapped l hl k hk
    refine ⟨a, ha, ?_, hbacks⟩
    obtain ⟨m, -, -, -, hrange⟩ := hbacks
    simp only [Leaf.inRange, Bool.and_eq_true, beq_iff_eq] at hrange
    exact hrange.1.1.symm

/-! ## Two processes and one segment -/

instance (s : State) (event : Event) : Decidable (event.Fits s) := by
  cases event <;> unfold Event.Fits <;> infer_instance

/-- Process `1` makes a segment of two pages and attaches it. -/
def attachRun : List Event :=
  [.shmget 0 [5, 6], .shmat 1 0 userMmapBase (fun _ => true) true]

/-- Process `2` attaches it too, the segment is removed and process `1` exits. -/
def exitRun : List Event :=
  attachRun ++ [.shmat 2 0 userMmapBase (fun _ => true) true, .rmid 0, .cleanup 1,
    .teardown 1]

/-- The segment survives the exit of one of its two processes. -/
theorem shm_lifetime_exit :
    (exitRun.foldl State.step State.start).segment 0 = some ⟨0, [5, 6], 1, true⟩ ∧
      (exitRun.foldl State.step State.start).refs 5 ≠ 0 ∧
      1 = (exitRun.foldl State.step State.start).attached 0 := by
  have hsegment : (exitRun.foldl step start).segment 0 =
      some ⟨0, [5, 6], 1, true⟩ := by decide +kernel
  obtain ⟨hframes, hcount, -⟩ :=
    (shm_lifetime (reaches_foldl (by decide +kernel))).1 0 _ hsegment
  exact ⟨hsegment, hframes 5 mem_cons_self, hcount⟩

/-- Process `1` unmaps the first page of its attachment with `munmap`. -/
def munmapRun : List Event := attachRun ++ [.munmap 1 userMmapBase 1 false]

/-- Process `1` forks; the segment is removed and detached by the parent. -/
def forkRun : List Event := attachRun ++ [.fork 1 2, .rmid 0, .shmdt 1 userMmapBase]

/-- `munmap` frees a frame of a segment in use.  After `fork` two address spaces
map the segment and one is counted, and the frames are released while the child
still maps them. -/
theorem shm_released_early :
    (munmapRun.foldl State.step State.start).segment 0 = some ⟨0, [5, 6], 1, false⟩ ∧
      (munmapRun.foldl State.step State.start).refs 5 = 0 ∧
      ((forkRun.take 3).foldl State.step State.start).segment 0 = some ⟨0, [5, 6], 1, false⟩ ∧
      ((forkRun.take 3).foldl State.step State.start).leaves.map (·.proc) = [2, 2, 1, 1] ∧
      (forkRun.foldl State.step State.start).segment 0 = none ∧
      (forkRun.foldl State.step State.start).leaves = [⟨2, userMmapBase / pageSize, 5, some 0⟩,
          ⟨2, userMmapBase / pageSize + 1, 6, some 0⟩] := by
  refine ⟨?_, ?_, ?_, ?_, ?_, ?_⟩
  all_goals decide +kernel

end AuraLite.SysvShm

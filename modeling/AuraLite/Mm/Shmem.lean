import AuraLite.Lib.Reachability
import AuraLite.Mm.PmmPool

/-!
# Anonymous shared memory objects

The object table and the frame table of `shmem.c`, with the faults that go
through `shmem_get_or_alloc`.  The sections under `shmem_lock` and the calls of
the frame allocator are the atomic steps: a fault is a task that other tasks may
overtake between any two of them.  The allocator is represented by its
reference counts.
-/

namespace AuraLite.Shmem

open List Option Pmm Reachability RefCount

structure Object where
  shmid : ℕ
  size : ℕ
deriving DecidableEq

/-- `shmem_frame`: the buckets hold at most one entry for a key, so the table is
kept as one list with the newest entry first. -/
structure Entry where
  shmid : ℕ
  offset : ℕ
  frame : ℕ
deriving DecidableEq

structure Leaf where
  proc : ℕ
  page : ℕ
  frame : ℕ
deriving DecidableEq

/-- The place a fault or a release has reached. -/
inductive Task
  /-- Before the first section under the lock. -/
  | lookup (proc page shmid offset : ℕ)
  /-- A frame was found; `pmm_inc_frame_ref` is next. -/
  | found (proc page frame : ℕ)
  /-- No frame was found; `pmm_alloc_frame` is next. -/
  | missing (proc page shmid offset : ℕ)
  /-- The new frame is zeroed and its node allocated; the second section is
  next. -/
  | insert (proc page shmid offset frame : ℕ)
  /-- Another fault was faster: `pmm_free_frame` of the new frame is next. -/
  | lost (proc page frame existing : ℕ)
  /-- `paging_map` is next; `first` when this fault made the entry. -/
  | map (proc page frame : ℕ) (first : Bool)
  /-- A leaf was removed; `pmm_free_frame` is next. -/
  | release (frame : ℕ)
  /-- The list `to_free` of `shmem_destroy`. -/
  | destroy (frames : List ℕ)
deriving DecidableEq

structure State where
  refs : ℕ → ℕ
  objects : List Object
  nextId : ℕ
  entries : List Entry
  leaves : List Leaf
  tasks : List Task
  /-- References held by other users of the allocator. -/
  others : List ℕ

/-- What a step of a task gets from the rest of the kernel. -/
structure Choice where
  /-- The frame `pmm_alloc_frame` would hand out. -/
  frame : Option ℕ
  kmalloc : Bool
  /-- Whether `paging_map` finds or makes the page table. -/
  table : Bool

inductive Event
  | create (size : ℕ)
  | destroy (shmid : ℕ)
  | fault (proc page shmid offset : ℕ)
  | run (k : ℕ) (choice : Choice)
  /-- `munmap` or a teardown takes a leaf away. -/
  | unmap (k : ℕ)
  /-- A fork copies a leaf and takes a reference for it. -/
  | clone (k proc page : ℕ)
  | otherAlloc (frame : ℕ)
  | otherFree (k : ℕ)

def State.find (s : State) (shmid offset : ℕ) : Option Entry :=
  s.entries.find? fun e => e.shmid == shmid && e.offset == offset

def State.object (s : State) (shmid : ℕ) : Option Object :=
  s.objects.find? (·.shmid == shmid)

/-- `shmem_create`. -/
def State.create (s : State) (size : ℕ) : State :=
  let rounded := Word64.alignUp size pageSize
  if size = 0 ∨ 64 ≤ s.objects.length then s
  else { s with
    objects := ⟨s.nextId, rounded⟩ :: s.objects
    nextId := s.nextId + 1 }

/-- The section of `shmem_destroy` under the lock. -/
def State.destroy (s : State) (shmid : ℕ) : State :=
  { s with
    objects := s.objects.eraseP (·.shmid == shmid)
    entries := s.entries.filter (·.shmid != shmid)
    tasks := .destroy ((s.entries.filter (·.shmid == shmid)).map (·.frame)) ::
      s.tasks }

/-- The place of a task after its next atomic step; `none` when it is done. -/
def State.runTask (s : State) (choice : Choice) : Task → State × Option Task
  | .lookup proc page shmid offset =>
    match s.object shmid with
    | none => (s, none)
    | some o =>
      if o.size ≤ offset then (s, none)
      else
        match s.find shmid offset with
        | some e => (s, some (.found proc page e.frame))
        | none => (s, some (.missing proc page shmid offset))
  | .found proc page frame =>
    if s.refs frame = 0 then (s, none)
    else
      ({ s with refs := retainMod (2 ^ 32) s.refs frame },
        some (.map proc page frame false))
  | .missing proc page shmid offset =>
    match choice.frame with
    | none => (s, none)
    | some frame =>
      if s.refs frame ≠ 0 then (s, none)
      else
        ({ s with refs := fresh s.refs frame },
          some (if choice.kmalloc then .insert proc page shmid offset frame
            else .release frame))
  | .insert proc page shmid offset frame =>
    match s.find shmid offset with
    | some e => (s, some (.lost proc page frame e.frame))
    | none =>
      ({ s with entries := ⟨shmid, offset, frame⟩ :: s.entries },
        some (.map proc page frame true))
  | .lost proc page frame existing =>
    ({ s with refs := release s.refs frame }, some (.found proc page existing))
  | .map proc page frame _ =>
    if choice.table then
      ({ s with leaves := ⟨proc, page, frame⟩ ::
          s.leaves.filter fun l => !(l.proc == proc && l.page == page) }, none)
    else (s, none)
  | .release frame => ({ s with refs := release s.refs frame }, none)
  | .destroy [] => (s, none)
  | .destroy (frame :: rest) =>
    ({ s with refs := release s.refs frame }, some (.destroy rest))

/-- One atomic step of task `k`. -/
def State.run (s : State) (k : ℕ) (choice : Choice) : State :=
  match s.tasks[k]? with
  | none => s
  | some task =>
    let r := s.runTask choice task
    match r.2 with
    | none => { r.1 with tasks := s.tasks.eraseIdx k }
    | some next => { r.1 with tasks := s.tasks.set k next }

def State.step (s : State) : Event → State
  | .create size => s.create size
  | .destroy shmid => s.destroy shmid
  | .fault proc page shmid offset =>
    { s with tasks := .lookup proc page shmid (Word64.alignDown offset pageSize) ::
        s.tasks }
  | .run k choice => s.run k choice
  | .unmap k =>
    match s.leaves[k]? with
    | none => s
    | some l =>
      { s with leaves := s.leaves.eraseIdx k, tasks := .release l.frame :: s.tasks }
  | .clone k proc page =>
    match s.leaves[k]? with
    | none => s
    | some l =>
      if s.refs l.frame = 0 then s
      else { s with
        refs := retainMod (2 ^ 32) s.refs l.frame
        leaves := ⟨proc, page, l.frame⟩ :: s.leaves }
  | .otherAlloc frame =>
    if s.refs frame ≠ 0 then s
    else { s with refs := fresh s.refs frame, others := frame :: s.others }
  | .otherFree k =>
    match s.others[k]? with
    | none => s
    | some frame =>
      { s with refs := release s.refs frame, others := s.others.eraseIdx k }

def State.Step (s : State) (event : Event) (s' : State) : Prop := s.step event = s'

def State.start : State where
  refs _ := 0
  objects := []
  nextId := 1
  entries := []
  leaves := []
  tasks := []
  others := []

/-! ## Ownership -/

def State.mapped (s : State) (frame : ℕ) : ℕ := (s.leaves.map (·.frame)).count frame

/-- The frames recorded for an object that is valid. -/
def State.Recorded (s : State) (frame : ℕ) : Prop :=
  ∃ o ∈ s.objects, ∃ e ∈ s.entries, e.shmid = o.shmid ∧ e.frame = frame

/-- The frame of a valid object has a reference besides those of its leaves, and
`shmem_destroy` drops only references that nobody else holds. -/
structure State.Owned (s : State) : Prop where
  recorded : ∀ f, s.Recorded f → 1 + s.mapped f ≤ s.refs f
  destroyed : ∀ frames, Task.destroy frames ∈ s.tasks → ∀ f ∈ frames,
    1 + s.mapped f + s.others.count f ≤ s.refs f

/-- The references a task holds.  A fault that made an entry has left its
reference to the table. -/
def Task.holds : Task → List ℕ
  | .lookup .. => []
  | .found .. => []
  | .missing .. => []
  | .insert _ _ _ _ frame => [frame]
  | .lost _ _ frame _ => [frame]
  | .map _ _ frame first => if first then [] else [frame]
  | .release frame => [frame]
  | .destroy frames => frames

/-- All references to a frame, one for each entry of the table. -/
def State.owners (s : State) (f : ℕ) : ℕ :=
  (s.entries.map (·.frame)).count f + s.mapped f +
    (s.tasks.flatMap Task.holds).count f + s.others.count f

/-- The condition on the step of a task: the fault that made an entry finds no
page table, and no count reaches `2 ^ 32`. -/
def Task.Fits (s : State) (choice : Choice) : Task → Prop
  | .map _ _ _ first => first = true → choice.table = false
  | .found _ _ frame => s.refs frame + 1 < 2 ^ 32
  | _ => True

def Event.Fits (s : State) : Event → Prop
  | .run k choice => ∀ task ∈ s.tasks[k]?, task.Fits s choice
  | .clone k _ _ => ∀ l ∈ s.leaves[k]?, s.refs l.frame + 1 < 2 ^ 32
  | _ => True

/-! ## Every step moves the owners with the counts -/

variable {s : State} {k : ℕ} {choice : Choice} {task next : Task}

/-- The references held by a task that may have ended. -/
def heldNext (next : Option Task) : List ℕ := (next.map Task.holds).getD []

open State

theorem mapped_filter_le (s : State) (keep : Leaf → Bool) (x : ℕ) :
    ((s.leaves.filter keep).map (·.frame)).count x ≤ s.mapped x :=
  (List.filter_sublist.map _).count_le x

/-- What one atomic step of a task does: it leaves the task list alone, and the
references of the table, the leaves and the task move with the counts. -/
theorem runTask_moves (hfits : task.Fits s choice) : (s.runTask choice task).1.tasks = s.tasks ∧
      Moves s.refs (s.runTask choice task).1.refs (fun x => s.owners x + (Task.holds task).count x)
        (fun x => (s.runTask choice task).1.owners x +
          (heldNext (s.runTask choice task).2).count x) := by
  have hquiet : s.tasks = s.tasks ∧ Moves s.refs s.refs
      (fun x => s.owners x + (Task.holds task).count x)
      (fun x => s.owners x + ([] : List ℕ).count x) :=
    ⟨rfl, .same rfl fun x => Nat.add_le_add_left (Nat.zero_le _) _⟩
  cases task with
  | lookup proc page shmid offset =>
    simp only [runTask]
    split
    · exact hquiet
    · split_ifs
      · exact hquiet
      · split <;> exact hquiet
  | found proc page frame =>
    simp only [runTask]
    split_ifs
    · exact hquiet
    · exact ⟨rfl, .retain frame (retainMod_of_lt hfits) fun x => le_rfl⟩
  | missing proc page shmid offset =>
    simp only [runTask]
    split
    · exact hquiet
    · rename_i frame _
      split_ifs with hused hnode
      · exact hquiet
      · exact ⟨rfl, .fresh frame (not_not.mp hused) rfl fun x => le_rfl⟩
      · exact ⟨rfl, .fresh frame (not_not.mp hused) rfl fun x => le_rfl⟩
  | insert proc page shmid offset frame =>
    simp only [runTask]
    split
    · exact ⟨rfl, .same rfl fun x => le_rfl⟩
    · refine ⟨rfl, .same rfl fun x => ?_⟩
      -- the reference of the fault becomes the one of the table
      simp only [owners, mapped, map_cons, heldNext, Task.holds,
        map_some, getD_some, if_true, count_nil,
        count_cons_single frame (s.entries.map (·.frame)) x]
      omega
  | lost proc page frame existing =>
    exact ⟨rfl, .release frame rfl fun x => le_rfl⟩
  | map proc page frame first =>
    simp only [runTask]
    cases first with
    | true =>
      rw [hfits rfl]
      exact hquiet
    | false =>
      split_ifs
      · refine ⟨rfl, .same rfl fun x => ?_⟩
        have hle := mapped_filter_le s (fun l => !(l.proc == proc && l.page == page)) x
        simp only [owners, mapped, map_cons, heldNext,
          Task.holds, map_none, getD_none, count_nil,
          Bool.false_eq_true, if_false,
          count_cons_single frame ((s.leaves.filter _).map (·.frame)) x] at hle ⊢
        omega
      · exact hquiet
  | release frame => exact ⟨rfl, .release frame rfl fun x => le_rfl⟩
  | destroy frames =>
    cases frames with
    | nil => exact hquiet
    | cons frame rest =>
      refine ⟨rfl, .release frame rfl fun x => ?_⟩
      simp only [runTask, heldNext, map_some, getD_some,
        Task.holds, count_cons_single frame rest x]
      exact (by omega : ∀ a b c : ℕ, a + b + c ≤ a + (c + b)) _ _ _

theorem run_moves (hk : s.tasks[k]? = some task) (hfits : Event.Fits s (.run k choice)) :
    Moves s.refs (s.run k choice).refs s.owners (s.run k choice).owners := by
  obtain ⟨htasks, hmoves⟩ := runTask_moves (hfits task hk)
  simp only [run, hk]
  generalize s.runTask choice task = r at htasks hmoves
  obtain ⟨s', next⟩ := r
  simp only at htasks hmoves
  cases next with
  | none =>
    refine hmoves.cancel fun x => ?_
    have hrest := count_flatMap_eraseIdx Task.holds hk x
    simp only [owners, mapped, heldNext, map_none, getD_none, count_nil, htasks]
    omega
  | some next =>
    refine hmoves.cancel fun x => ?_
    have hset := @count_flatMap_set ℕ Task _ Task.holds _ _ _ next hk x
    simp only [owners, mapped, heldNext, map_some, getD_some, htasks]
    omega

theorem owners_push (s : State) (task : Task) (x : ℕ) :
    { s with tasks := task :: s.tasks }.owners x = s.owners x + (Task.holds task).count x := by
  have hcount := count_flatMap_cons Task.holds task s.tasks x
  simp only [owners, mapped] at *
  omega

/-- The table gives its references to the list of `shmem_destroy`. -/
theorem destroy_owners (s : State) (shmid x : ℕ) : (s.destroy shmid).owners x = s.owners x := by
  have hsplit := (filter_append_perm (fun e : Entry => e.shmid == shmid) s.entries).map (·.frame)
  have hcount := hsplit.count_eq x
  rw [map_append, count_append] at hcount
  have hpush := count_flatMap_cons Task.holds
    (.destroy ((s.entries.filter (·.shmid == shmid)).map (·.frame))) s.tasks x
  simp only [owners, mapped, destroy, Task.holds, bne] at *
  omega

theorem step_moves {event : Event} (hfits : event.Fits s) :
    Moves s.refs (s.step event).refs s.owners (s.step event).owners := by
  have hquiet : Moves s.refs s.refs s.owners s.owners := .same rfl fun _ => le_rfl
  cases event with
  | create size =>
    simp only [step, create]
    split_ifs <;> exact hquiet
  | destroy shmid => exact .same rfl fun x => (destroy_owners s shmid x).le
  | fault proc page shmid offset =>
    exact .same rfl fun x => (owners_push s _ x).le
  | run k choice =>
    cases hk : s.tasks[k]? with
    | none =>
      simp only [step, run, hk]
      exact hquiet
    | some task => exact run_moves hk hfits
  | unmap k =>
    simp only [step]
    cases hk : s.leaves[k]? with
    | none => exact hquiet
    | some l =>
      refine .same rfl fun x => ?_
      have hmap : (s.leaves.map (·.frame))[k]? = some l.frame := by
        rw [getElem?_map, hk]
        rfl
      have hleaf := count_eraseIdx hmap x
      have hpush := count_flatMap_cons Task.holds (.release l.frame) s.tasks x
      rw [eraseIdx_map] at hleaf
      simp only [owners, mapped, Task.holds] at *
      omega
  | clone k proc page =>
    simp only [step]
    cases hk : s.leaves[k]? with
    | none => exact hquiet
    | some l =>
      simp only
      split_ifs
      · exact hquiet
      · refine .retain l.frame (retainMod_of_lt (hfits l hk)) fun x => ?_
        have hcons := count_cons_single l.frame (s.leaves.map (·.frame)) x
        simp only [owners, mapped, map_cons] at *
        omega
  | otherAlloc frame =>
    simp only [step]
    split_ifs with hused
    · exact hquiet
    · refine .fresh frame (not_not.mp hused) rfl fun x => ?_
      have hcons := count_cons_single frame s.others x
      simp only [owners, mapped] at *
      omega
  | otherFree k =>
    simp only [step]
    cases hk : s.others[k]? with
    | none => exact hquiet
    | some frame =>
      refine .release frame rfl fun x => ?_
      have hrest := count_eraseIdx hk x
      simp only [owners, mapped] at *
      omega

/-- What exact ownership means for the table and for `shmem_destroy`. -/
theorem Owned.of_covers (hcovers : Covers s.refs s.owners) : s.Owned := by
  constructor
  · rintro f ⟨_, _, e, he, _, rfl⟩
    have hentry : 0 < (s.entries.map (·.frame)).count e.frame :=
      List.count_pos_iff.mpr (List.mem_map.mpr ⟨e, he, rfl⟩)
    have hle := hcovers e.frame
    rw [owners] at hle
    omega
  · intro frames htask f hf
    have hheld : 0 < (s.tasks.flatMap Task.holds).count f :=
      List.count_pos_iff.mpr (List.mem_flatMap.mpr ⟨_, htask, hf⟩)
    have hle := hcovers f
    rw [owners] at hle
    omega

/-- In every run in which no fault both makes an entry and gets its leaf, frames
of valid objects keep a reference besides those of their leaves, the allocator
hands none of them out, and `shmem_destroy` drops references of its own. -/
theorem shmem_frames_owned {s₀ : State} (hstart : Covers s₀.refs s₀.owners)
    (hrun : Reaches (guarded (fun s event => Event.Fits s event) State.Step) s₀ s) :
    s.Owned ∧ ∀ f, s.refs f = 0 → ¬s.Recorded f := by
  have hcovers : Covers s.refs s.owners :=
    @Reaches.kept _ _ _ _ _ _ (fun s => Covers s.refs s.owners) hrun hstart fun hcovers hfits =>
      (step_moves hfits).covers hcovers
  have howned := Owned.of_covers hcovers
  refine ⟨howned, fun f hfree hrecorded => ?_⟩
  have hle := howned.recorded f hrecorded
  omega

instance (s : State) (choice : Choice) (task : Task) : Decidable (task.Fits s choice) := by
  cases task <;> unfold Task.Fits <;> infer_instance

instance (s : State) (event : Event) : Decidable (event.Fits s) := by
  cases event <;> unfold Event.Fits <;> infer_instance

/-- A step of the newest task that gets frame `7` whenever it asks for one. -/
def advance (table : Bool) : Event := .run 0 ⟨some 7, true, table⟩

/-- A fault of process `proc` on the only page of object `1`. -/
def touch (proc : ℕ) (table : Bool) (steps : ℕ) : List Event :=
  .fault proc 5 1 0 :: List.replicate steps (advance table)

/-- The first fault gets no leaf; a second process maps the page. -/
def ownedRun : List Event := .create 4096 :: touch 0 false 4 ++ touch 1 true 3

theorem shmem_frames_owned_second : Covers State.start.refs State.start.owners ∧
      Reaches (guarded (fun s event => Event.Fits s event) State.Step) State.start
        (ownedRun.foldl State.step State.start) ∧
      (ownedRun.foldl State.step State.start).entries = [⟨1, 0, 7⟩] ∧
      (ownedRun.foldl State.step State.start).leaves = [⟨1, 5, 7⟩] ∧
      (ownedRun.foldl State.step State.start).Owned := by
  have hstart : Covers start.refs start.owners := fun _ => le_rfl
  have hrun : Reaches (guarded (fun s event => Event.Fits s event) Step)
      start (ownedRun.foldl step start) :=
    reaches_foldl (by decide +kernel)
  exact ⟨hstart, hrun, by decide +kernel, by decide +kernel, (shmem_frames_owned hstart hrun).1⟩

/-- The first process to touch a page exits, and the allocator gives its frame to
another user while the object is valid and still records it. -/
def lostRun : List Event :=
  .create 4096 :: touch 0 true 4 ++ [.unmap 0, advance true, .otherAlloc 7]

/-- After the first fault the frame has one reference and one leaf; once that
leaf is gone the frame is handed to another user, and `shmem_destroy` then frees
it under that user. -/
theorem shmem_first_touch_unowned : ((lostRun.take 6).foldl State.step State.start).refs 7 = 1 ∧
      ((lostRun.take 6).foldl State.step State.start).mapped 7 = 1 ∧
      ((lostRun.take 6).foldl State.step State.start).Recorded 7 ∧
      ((lostRun.take 8).foldl State.step State.start).refs 7 = 0 ∧
      ((lostRun.take 8).foldl State.step State.start).Recorded 7 ∧
      (lostRun.foldl State.step State.start).others = [7] ∧
      ((lostRun ++ [.destroy 1, advance true]).foldl State.step State.start).refs 7 = 0 ∧
      ((lostRun ++ [.destroy 1, advance true]).foldl State.step State.start).others = [7] := by
  refine ⟨by decide +kernel, by decide +kernel, ?_, by decide +kernel, ?_,
    by decide +kernel, by decide +kernel, by decide +kernel⟩
  · exact ⟨⟨1, 4096⟩, by decide +kernel, ⟨1, 0, 7⟩, by decide +kernel, rfl, rfl⟩
  · exact ⟨⟨1, 4096⟩, by decide +kernel, ⟨1, 0, 7⟩, by decide +kernel, rfl, rfl⟩

end AuraLite.Shmem

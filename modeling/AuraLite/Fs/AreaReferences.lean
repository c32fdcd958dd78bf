import AuraLite.Fs.DescriptorLifetime

/-!
# Areas and the descriptions they hold

What `fork` makes of the area list of its caller, what is left when the list cannot be copied,
and which descriptions a list holds after a range is cut out of it.
-/

namespace AuraLite.Descriptor

open List Arena RefCount
open Mmap (Vma WellFormed vmaInsert vmaLink vmaFind vmaRemoveRange)

variable {s : State} {copy areas : List Vma}

def State.refcount (s : State) (o : ℕ) : ℕ := (lookup s.store.ofds o).elim 0 Ofd.refcount

open State

theorem State.Sound.refcount_eq (hsound : s.Sound []) (o : ℕ) : s.refcount o = s.held o :=
  hsound.store.counts.count o

/-! ## `fork` -/

theorem vmaLink_last {new : Vma} (hbelow : ∀ v ∈ copy, v.vaStart < new.vaStart) :
    vmaLink copy new = copy ++ [new] := by
  induction copy with
  | nil => rfl
  | cons v rest ih =>
    obtain ⟨hv, hrest⟩ := List.forall_mem_cons.mp hbelow
    rw [vmaLink, orderedInsert_cons, if_neg (Nat.not_le_of_lt hv)]
    exact congrArg (v :: ·) (ih hrest)

/-- Every file area has its file and the copies can be allocated. -/
def Copyable (slab : List Bool) (areas : List Vma) : Prop :=
  (∀ v ∈ areas, Mmap.hasFlag v.flags Mmap.vmaFile = true → v.file.isSome) ∧
    slab.take areas.length = replicate areas.length true

instance (slab : List Bool) (areas : List Vma) : Decidable (Copyable slab areas) :=
  inferInstanceAs (Decidable (_ ∧ _))

theorem copyAreas_ok (copy areas : List Vma) (slab : List Bool) :
    (s.copyAreas copy slab areas).1 = true ↔ Copyable slab areas := by
  induction areas generalizing s copy slab with
  | nil => simp [copyAreas, Copyable]
  | cons v rest ih =>
    rw [copyAreas, vmaInsert]
    cases hfile : Mmap.hasFlag v.flags Mmap.vmaFile <;> cases hv : v.file <;>
      rcases slab with _ | ⟨_ | _, slab⟩ <;>
      simp [Copyable, Mmap.vmaAlloc, replicate_succ, hfile, hv, ih]

def unshared (v : Vma) : Vma := { v with shmid := 0 }

/-- The areas are copied in their order, without their shmem objects. -/
theorem copyAreas_eq {slab : List Bool} (hsorted : areas.Pairwise fun v w => v.vaStart < w.vaStart)
    (hbelow : ∀ v ∈ copy, ∀ w ∈ areas, v.vaStart < w.vaStart)
    (hok : (s.copyAreas copy slab areas).1 = true) :
    (s.copyAreas copy slab areas).2.1 = copy ++ areas.map unshared := by
  induction areas generalizing s copy slab with
  | nil => exact (append_nil _).symm
  | cons v rest ih =>
    obtain ⟨hv, hrest⟩ := List.pairwise_cons.mp hsorted
    rw [copyAreas] at hok ⊢
    cases hinsert : (vmaInsert copy { v with shmid := 0 } slab).1 with
    | none =>
      rw [hinsert] at hok
      cases hok
    | some copy' =>
      have hcopy : copy' = copy ++ [unshared v] := (Mmap.vmaInsert_some hinsert).trans
        (vmaLink_last fun w hw => hbelow w hw v mem_cons_self)
      have hbelow' : ∀ u ∈ copy ++ [unshared v], ∀ w ∈ rest, u.vaStart < w.vaStart := by
        intro u hu w hw
        rcases mem_append.mp hu with hu | hu
        · exact hbelow u hu w (mem_cons_of_mem v hw)
        · rw [mem_singleton.mp hu]
          exact hv w hw
      rw [hinsert, hcopy] at hok
      simp only [hcopy]
      rw [ih hrest hbelow' hok, append_assoc]
      rfl

theorem childTable_tasks (s : State) (src : Option ℕ) (table : Bool) :
    (s.childTable src table).1.tasks = s.tasks := by
  cases table with
  | false => rfl
  | true => exact (Shifts.foldl Shifts.get _ s).tasks

theorem childTable_held (src : Option ℕ) (table : Bool) (o : ℕ) :
    (s.childTable src table).1.held o = s.held o +
      if table then ((src.bind (lookup s.tables)).getD Fdtab.fresh).held.count o else 0 := by
  cases table with
  | false => rfl
  | true =>
    have hlists := (Shifts.foldl Shifts.get
      ((src.bind (lookup s.tables)).getD Fdtab.fresh).held s).lists
    simp only [childTable, if_pos, inheritTable, held, count_owned_append, hlists]
    exact Nat.add_right_comm _ _ _

theorem unshared_find (hlist : WellFormed areas) :
    (∀ va, vmaFind (areas.map unshared) va = vmaFind areas va) ↔ ∀ v ∈ areas, v.shmid = 0 := by
  have hfind : ∀ va, vmaFind (areas.map unshared) va = (vmaFind areas va).map unshared :=
    fun va => find?_map
  constructor
  · intro hsame v hv
    have hstart : v.contains v.vaStart = true := decide_eq_true ⟨le_rfl, hlist.nonempty v hv⟩
    have hv' := hsame v.vaStart
    rw [hfind, Mmap.vmaFind_of_mem (Mmap.wellFormed_iff.mp hlist) hv hstart] at hv'
    exact congrArg Vma.shmid (Option.some.inj hv').symm
  · intro hshm va
    have hmap : areas.map unshared = areas := by
      refine (map_congr_left fun v hv => ?_).trans (map_id areas)
      rw [unshared, ← hshm v hv]
      rfl
    rw [hmap]

theorem addAreas_child (s : State) {task : Task} (hnone : task.vmaList = none) (areas : List Vma) :
    ∃ child, lookup (s.addAreas task areas).tasks s.tasks.length = some child ∧
      child.dead = task.dead ∧ (s.addAreas task areas).areas child = areas := by
  rw [addAreas]
  split_ifs with hempty
  · refine ⟨task, lookup_append_self _ _, rfl, ?_⟩
    rw [State.areas, hnone, hempty]
    rfl
  · refine ⟨_, lookup_append_self _ _, rfl, ?_⟩
    rw [State.areas, Option.bind_some, State.addTask, lookup_append_self]
    rfl

/-- When its list can be copied, the child finds at every address what its parent finds if and
only if no area has a shmem object.  When it cannot, the child is dead, and no reference
remains if and only if it has no table or nothing is open in it. -/
theorem fork_same_areas (s : State) (t : ℕ) (self : Task) (args : ForkArgs)
    (hsound : s.Sound []) (hself : lookup s.tasks t = some self) (hthread : args.thread = true)
    (hlist : WellFormed (s.areas self)) :
    ∃ child, lookup (s.fork self args).tasks s.tasks.length = some child ∧
      (child.dead = false ↔ Copyable args.slab (s.areas self)) ∧
      ((if child.dead then ∀ o, (s.fork self args).refcount o = s.refcount o
        else ∀ va, vmaFind ((s.fork self args).areas child) va = vmaFind (s.areas self) va) ↔
      if Copyable args.slab (s.areas self) then ∀ v ∈ s.areas self, v.shmid = 0
      else args.table = false ∨
        ((self.fdtab.bind (lookup s.tables)).getD Fdtab.fresh).held = []) := by
  have hfork : Good (fun _ _ => True) (fun _ => True) s (s.fork self args) :=
    fork_good hsound hself args
  have hshifts := copyAreas_shifts (s.childTable self.fdtab args.table).1 [] args.slab
    (s.areas self)
  have hcopy := @copyAreas_eq (s.childTable self.fdtab args.table).1 [] (s.areas self) args.slab
    hlist.sorted nofun
  have htasks := hshifts.tasks.trans (childTable_tasks s self.fdtab args.table)
  have hok := @copyAreas_ok (s.childTable self.fdtab args.table).1 [] (s.areas self) args.slab
  simp only [← hok]
  rw [fork, if_pos hthread] at hfork ⊢
  simp only at hfork ⊢
  generalize (s.childTable self.fdtab args.table).1.copyAreas [] args.slab
    (s.areas self) = result at *
  obtain ⟨ok, copy, s'⟩ := result
  cases ok with
  | true =>
    obtain ⟨child, hchild, hdead, hareas⟩ :=
      @addAreas_child s' ⟨(s.childTable self.fdtab args.table).2, none, false, false⟩ rfl copy
    refine ⟨child, htasks ▸ hchild, iff_of_true hdead rfl, ?_⟩
    have hlists : copy = (s.areas self).map unshared := hcopy rfl
    rw [if_neg (by rw [hdead]; exact Bool.false_ne_true), if_pos rfl, hareas, hlists]
    exact unshared_find hlist
  | false =>
    have hdrops := foldl_dropFile copy s' ▸ Shifts.foldl Shifts.put (areaFiles copy) s'
    have hback := hshifts.trans hdrops
    have hlength : (copy.foldl dropFile s').tasks.length = s.tasks.length := by
      rw [hdrops.tasks, htasks]
    refine ⟨_, hlength ▸ lookup_append_self _ _, by simp, ?_⟩
    have hcount : ∀ o, ((copy.foldl dropFile s').addTask
        ⟨(s.childTable self.fdtab args.table).2, none, false, true⟩).refcount o = s.refcount o +
          if args.table then
            ((self.fdtab.bind (lookup s.tables)).getD Fdtab.fresh).held.count o else 0 := by
      intro o
      rw [hfork.sound.refcount_eq, hsound.refcount_eq, ← childTable_held]
      exact hback.held o
    rw [if_pos rfl, if_neg Bool.false_ne_true]
    simp only [hcount]
    cases args.table with
    | false => simp
    | true => simp [List.eq_nil_iff_forall_not_mem, List.count_eq_zero]

/-- A second task on table `fdtab`, with one shared anonymous page. -/
def withArea (s : State) (fdtab : Option ℕ) (shmid : ℕ) : State :=
  s.addAreas ⟨fdtab, none, false, false⟩ [⟨0, 4096, 93, none, 0, shmid⟩]

/-- What the child of that task finds there. -/
def childFinds (shmid : ℕ) : Option Vma :=
  vmaFind (((withArea bootState none shmid).fork ⟨none, some 0, false, false⟩
    ⟨true, true, [true]⟩).areas ⟨some 2, some 1, false, false⟩) 0

theorem fork_same_areas_one : childFinds 0 = some ⟨0, 4096, 93, none, 0, 0⟩ := by
  have hsound : (withArea bootState none 0).Sound [] :=
    bootState_sound.addAreas nofun rfl
  obtain ⟨child, hchild, hfind⟩ := fork_same_areas _ 1 ⟨none, some 0, false, false⟩
    ⟨true, true, [true]⟩ hsound rfl rfl ⟨by decide, by decide, by decide⟩
  cases hchild.symm.trans (by decide +kernel : _ = some ⟨some 2, some 1, false, false⟩)
  exact hfind.2.mpr ((if_pos (hfind.1.mp rfl)).mpr (by decide)) 0

/-- The child of a task with shmem object 5 finds object 0 there, and after a failed copy the
inherited descriptors stay open. -/
theorem fork_loses_shmid : childFinds 5 = some ⟨0, 4096, 93, none, 0, 0⟩ ∧
    (withArea (bootState.step makePipe) (some 1) 0).refcount 0 = 1 ∧
    ((withArea (bootState.step makePipe) (some 1) 0).fork ⟨some 1, some 0, false, false⟩
      ⟨true, true, [false]⟩).refcount 0 = 2 := by
  decide +kernel

/-! ## `vma_remove_range` -/

/-- The file references that `vma_remove_range` takes and drops. -/
def State.cutAreas (start stop : ℕ) (s : State) : List Vma → List Bool → State
  | [], _ => s
  | v :: rest, slab =>
    if stop ≤ v.vaStart then s
    else if v.vaEnd ≤ start then s.cutAreas start stop rest slab
    else
      let nodes := v.nodes start stop slab
      let cut := ((v.pieces start stop).foldl State.retainFile s).dropFile v
      (if nodes.1 then cut else s).cutAreas start stop rest nodes.2

variable {start stop : ℕ} {extra : List ℕ} {v : Vma}

theorem fileOf_piece {w : Vma} (hw : w ∈ v.pieces start stop) : fileOf w = fileOf v := by
  rw [Vma.pieces, mem_append] at hw
  rcases hw with hw | hw <;> split_ifs at hw <;>
    simp only [mem_singleton, not_mem_nil] at hw
  all_goals rw [hw]; rfl

theorem State.Sound.cutArea (hsound : s.Sound ((fileOf v).toList ++ extra)) :
    (((v.pieces start stop).foldl State.retainFile s).dropFile v).Sound
      (areaFiles (v.pieces start stop) ++ extra) := by
  have hgets := getAll (areaFiles (v.pieces start stop)) hsound fun o ho => by
    obtain ⟨w, hw, ho⟩ := List.mem_flatMap.mp ho
    rw [fileOf_piece hw] at ho
    exact Nat.add_pos_right _ (List.count_pos_iff.mpr (mem_append_left _ ho))
  rw [← foldl_files] at hgets
  have hput := putAll _ (hgets.perm (perm_append_comm_assoc _ _ _))
  rw [dropFile]
  cases hfile : fileOf v <;> rw [hfile] at hput <;> exact hput

/-- The walk moves the references of the list to the list it returns. -/
theorem State.Sound.cutAreas {list : List Vma} (hsound : s.Sound (areaFiles list ++ extra))
    (slab : List Bool) : (s.cutAreas start stop list slab).Sound
      (areaFiles (vmaRemoveRange start stop list slab).1 ++ extra) := by
  induction list generalizing s slab extra with
  | nil => exact hsound
  | cons v rest ih =>
    have hv : s.Sound ((fileOf v).toList ++ (areaFiles rest ++ extra)) := by
      rwa [areaFiles, flatMap_cons, append_assoc] at hsound
    have hmove : ∀ {parts : List Vma} {s' : State} {slab'},
        s'.Sound (areaFiles parts ++ (areaFiles rest ++ extra)) →
        (s'.cutAreas start stop rest slab').Sound
          (areaFiles (parts ++ (vmaRemoveRange start stop rest slab').1) ++ extra) := by
      intro parts s' slab' hs'
      have hrest := ih (hs'.perm (perm_append_comm_assoc _ _ _)) slab'
      rw [areaFiles, flatMap_append, append_assoc]
      exact hrest.perm (perm_append_comm_assoc _ _ _)
    have hone : s.Sound (areaFiles [v] ++ (areaFiles rest ++ extra)) := by
      rwa [areaFiles, flatMap_singleton]
    rw [cutAreas]
    split_ifs with hstop hstart
    · rwa [vmaRemoveRange, if_pos hstop]
    · rw [vmaRemoveRange, if_neg hstop, if_pos hstart]
      exact hmove hone
    · rw [Mmap.vmaRemoveRange_met hstop hstart]
      refine hmove ?_
      split_ifs
      · exact hv.cutArea
      · exact hone

theorem Shifts.cutAreas (s : State) (list : List Vma) (slab : List Bool) :
    Shifts s (s.cutAreas start stop list slab) := by
  induction list generalizing s slab with
  | nil => exact .refl s
  | cons v rest ih =>
    have hgets := Shifts.foldl Shifts.get (areaFiles (v.pieces start stop)) s
    rw [← foldl_files] at hgets
    have hcut := hgets.trans (.foldl .put (areaFiles [v]) _)
    rw [← foldl_files] at hcut
    rw [State.cutAreas]
    split_ifs
    · exact .refl s
    · exact ih s slab
    · refine .trans ?_ (ih _ _)
      split_ifs
      · exact hcut
      · exact .refl s

theorem cutAreas_append {pre : List Vma} (hbelow : ∀ u ∈ pre, u.vaStart < stop)
    (rest : List Vma) (slab : List Bool) : s.cutAreas start stop (pre ++ rest) slab =
      (s.cutAreas start stop pre slab).cutAreas start stop rest
        (vmaRemoveRange start stop pre slab).2 := by
  induction pre generalizing s slab with
  | nil => rfl
  | cons u pre ih =>
    obtain ⟨hu, hpre⟩ := forall_mem_cons.mp hbelow
    rw [cons_append, cutAreas, cutAreas, vmaRemoveRange, if_neg hu.not_ge, if_neg hu.not_ge,
      if_neg hu.not_ge]
    by_cases hbefore : u.vaEnd ≤ start
    · rw [if_pos hbefore, if_pos hbefore, if_pos hbefore]
      exact ih hpre slab
    · rw [if_neg hbefore, if_neg hbefore, if_neg hbefore]
      exact ih hpre _

/-- A range is cut out of a well-formed list exactly when the pieces can be allocated, and every
reference count follows.  An area whose pieces cannot be allocated stays in its place, and its
reference with it, whatever is cut before and behind it. -/
theorem vmaRemoveRange_exact (s : State) (list : List Vma) (extra : List ℕ) (start stop : ℕ)
    (slab : List Bool) (hlist : WellFormed list) (hrange : start < stop)
    (hsound : s.Sound (areaFiles list ++ extra)) :
    WellFormed (vmaRemoveRange start stop list slab).1 ∧
    (∀ o, (s.cutAreas start stop list slab).refcount o =
      s.held o + extra.count o + (areaFiles (vmaRemoveRange start stop list slab).1).count o) ∧
    (Mmap.allNodes start stop list slab → ∀ va,
      (vmaFind (vmaRemoveRange start stop list slab).1 va).map (·.view va) =
        if start ≤ va ∧ va < stop then none else (vmaFind list va).map (·.view va)) ∧
    ∀ pre v post, list = pre ++ v :: post → v.vaStart < stop → start < v.vaEnd →
      let slab' := (vmaRemoveRange start stop pre slab).2
      (v.nodes start stop slab').1 = false →
        (vmaRemoveRange start stop list slab).1 = (vmaRemoveRange start stop pre slab).1 ++
          v :: (vmaRemoveRange start stop post (v.nodes start stop slab').2).1 ∧
        s.cutAreas start stop list slab = (s.cutAreas start stop pre slab).cutAreas start stop post
          (v.nodes start stop slab').2 := by
  have hareas := Mmap.wellFormed_iff.mp hlist
  refine ⟨Mmap.wellFormed_iff.mpr (Mmap.vmaRemoveRange_areas hareas hrange.le slab), fun o => ?_,
    fun hnodes va => ?_, ?_⟩
  · have hcount : (s.cutAreas start stop list slab).refcount o = _ :=
      (hsound.cutAreas slab).store.counts.count o
    rw [count_append, (Shifts.cutAreas s list slab).held] at hcount
    omega
  · rw [Mmap.vmaRemoveRange_eq_cut hareas hnodes]
    exact Mmap.vmaFind_cut hrange list va
  · rintro pre v post rfl hstop hstart slab' hfail
    have hbelow : ∀ u ∈ pre, u.vaStart < stop := by
      intro u hu
      exact ((List.pairwise_append.mp hlist.sorted).2.2 u hu v mem_cons_self).trans hstop
    rw [Mmap.vmaRemoveRange_append hbelow, cutAreas_append hbelow]
    constructor
    · rw [Mmap.vmaRemoveRange_met hstop.not_ge hstart.not_ge, hfail]
      rfl
    · rw [cutAreas, if_neg hstop.not_ge, if_neg hstart.not_ge]
      simp only [slab', hfail]
      rfl

/-- Two areas on the read end of a pipe. -/
def fileAreas : List Vma := [⟨4096, 12288, 3, some 0, 0, 0⟩, ⟨16384, 24576, 3, some 0, 0, 0⟩]

def mappedTwice : State := fileAreas.foldl State.retainFile (bootState.step makePipe)

/-- The first area is cut, and the second, for which there is no node, stays with its
reference. -/
theorem vmaRemoveRange_exact_files :
    (mappedTwice.cutAreas 8192 20480 fileAreas [true, false]).refcount 0 = 3 ∧
    (vmaRemoveRange 8192 20480 fileAreas [true, false]).1 =
      [⟨4096, 8192, 3, some 0, 0, 0⟩, ⟨16384, 24576, 3, some 0, 0, 0⟩] := by
  have hpipe : (bootState.step makePipe).Sound [] := (@step_keeps _ makePipe bootState_sound trivial).1
  have hsound : mappedTwice.Sound (areaFiles fileAreas ++ []) := by
    exact getAll [0, 0] hpipe (by decide +kernel)
  obtain ⟨-, hcounts, -, hfailed⟩ := vmaRemoveRange_exact mappedTwice fileAreas [] 8192 20480
    [true, false] ⟨by decide, by decide, by decide⟩ (by decide) hsound
  exact ⟨(hcounts 0).trans (by decide +kernel),
    (hfailed [⟨4096, 12288, 3, some 0, 0, 0⟩] _ [] rfl (by decide) (by decide) rfl).1⟩

end AuraLite.Descriptor

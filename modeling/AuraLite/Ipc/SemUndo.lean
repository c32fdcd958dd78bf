import AuraLite.Ipc.Semaphores
import AuraLite.Lib.Reachability

/-!
# Semaphore adjustments at exit

Sets are created in and removed from the slots of a table.  An undo record names a slot;
`sysvipc_cleanup_process` replays the records of a process, the newest first.
-/

namespace AuraLite.Semaphores

open List Reachability Function
open Function (update update_apply update_self update_eq_self)

/-- The sets by slot.  `log` is not in the source: the successful operations with `SEM_UNDO`
of each process, the newest first, on the sets that still exist. -/
structure State where
  sems : ℕ → Option (List ℕ)
  /-- `sem_undo_list`. -/
  undo : ℕ → List SemUndo
  log : ℕ → List (ℕ × Sembuf)

def State.freeSlot (s : State) : Option ℕ := (List.range 32).find? fun i => (s.sems i).isNone

/-- `sysv_semget` where it creates a set. -/
def State.semget (s : State) (nsems : ℕ) : State :=
  match s.freeSlot with
  | none => s
  | some i => { s with sems := update s.sems i (some (replicate nsems 0)) }

/-- One round of `sysv_semop`, where every undo record is allocated. -/
def State.semop (s : State) (p semid : ℕ) (ops : List Sembuf) : State :=
  match s.sems semid with
  | none => s
  | some vals =>
    match semTryApply semid vals ops (s.undo p) (replicate ops.length true) with
    | (.applied, vals', undo) =>
      { sems := update s.sems semid (some vals')
        undo := update s.undo p undo
        log := update s.log p (((ops.filter fun o => o.undo ∧ o.op ≠ 0).map
          (semid, ·)).reverse ++ s.log p) }
    | _ => s

/-- `IPC_RMID`. -/
def State.rmid (s : State) (semid : ℕ) : State :=
  { s with
    sems := update s.sems semid none
    log := fun p => (s.log p).filter (·.1 ≠ semid) }

/-- One round of the loop of `sysvipc_cleanup_process`. -/
def replay (sems : ℕ → Option (List ℕ)) (u : SemUndo) : ℕ → Option (List ℕ) :=
  match sems u.semid with
  | none => sems
  | some vals =>
    if u.semnum < vals.length then
      update sems u.semid (some (adjust vals u.semnum u.delta))
    else sems

/-- `sysvipc_cleanup_process`. -/
def State.exit (s : State) (p : ℕ) : State where
  sems := (s.undo p).foldl replay s.sems
  undo := update s.undo p []
  log := update s.log p []

inductive Event
  | semget (nsems : ℕ)
  | semop (p semid : ℕ) (ops : List Sembuf)
  | rmid (semid : ℕ)
  | exit (p : ℕ)

def State.step (s : State) : Event → State
  | .semget nsems => s.semget nsems
  | .semop p semid ops => s.semop p semid ops
  | .rmid semid => s.rmid semid
  | .exit p => s.exit p

def State.Step (s : State) (event : Event) (s' : State) : Prop := s.step event = s'

def State.start : State := ⟨fun _ => none, fun _ => [], fun _ => []⟩

def value (sems : ℕ → Option (List ℕ)) (i n : ℕ) : Option ℕ := (sems i).bind (·[n]?)

/-- What the process did with `SEM_UNDO` to a semaphore of the set in slot `i`. -/
def State.done (s : State) (p i n : ℕ) : List ℤ :=
  ((s.log p).filter fun e => e.1 = i ∧ e.2.num = n).map (·.2.op)

/-- The operations taken back one by one, where a value that would be negative is 0. -/
def undone : ℕ → List ℤ → ℕ
  | v, [] => v
  | v, op :: rest => undone (v - op).toNat rest

/-- The values that come up on the way, before negative ones are made 0. -/
def undoing : ℕ → List ℤ → List ℤ
  | _, [] => []
  | v, op :: rest => (v - op) :: undoing (v - op).toNat rest

/-- A set is not created in a slot that an undo record names, and no value rises above the
maximum at an exit. -/
def Event.Fits (s : State) : Event → Prop
  | .semget _ => ∀ i ∈ s.freeSlot, ∀ p, ∀ u ∈ s.undo p, u.semid ≠ i
  | .exit p => ∀ i n, ∀ v ∈ value s.sems i n, ∀ w ∈ undoing v (s.done p i n), w ≤ 65535
  | _ => True

/-- The process operates alone, and what passes the check can be executed in order. -/
def Event.Alone (p : ℕ) (s : State) (event : Event) : Prop :=
  ∃ semid ops, event = .semop p semid ops ∧ (∀ o ∈ ops, o.undo = true) ∧
    ∀ vals ∈ s.sems semid, Passes vals ops → Feasible vals ops

/-! ## Replaying records -/

variable {s : State} {vals vals' : List ℕ} {ops : List Sembuf} {sems : ℕ → Option (List ℕ)}
  {p v : ℕ}

open State

theorem replay_eq (sems : ℕ → Option (List ℕ)) (u : SemUndo) : replay sems u =
    update sems u.semid ((sems u.semid).map fun vals => adjust vals u.semnum u.delta) := by
  rw [replay]
  split
  · rename_i hnone
    rw [hnone, Option.map_none, ← hnone, update_eq_self]
  · rename_i vals hvals
    rw [hvals, Option.map_some]
    split_ifs with hlt
    · rfl
    · rw [adjust, modify_eq_self (Nat.le_of_not_lt hlt), ← hvals, update_eq_self]

theorem replay_value (sems : ℕ → Option (List ℕ)) (u : SemUndo) (i n : ℕ) :
    value (replay sems u) i n = (value sems i n).map fun v =>
      if u.semid = i ∧ u.semnum = n then adjusted v u.delta else v := by
  rw [value, replay_eq]
  by_cases hi : u.semid = i
  · subst hi
    cases hvals : sems u.semid <;> simp [value, hvals, adjust, getElem?_modify]
  · simp [value, hi, Ne.symm hi]

theorem foldl_replay (us : List SemUndo) (i n : ℕ) :
    value (us.foldl replay sems) i n = (value sems i n).map fun v =>
      (us.filter fun u => u.semid = i ∧ u.semnum = n).foldl (adjusted · ·.delta) v := by
  induction us generalizing sems with
  | nil => simp
  | cons u rest ih =>
    rw [foldl_cons, ih, replay_value, Option.map_map]
    by_cases hu : u.semid = i ∧ u.semnum = n <;> simp [comp_def, hu]

theorem recordUndo_eq (semid n : ℕ) (undo : List SemUndo) (hn : ops.length ≤ n) :
    recordUndo semid ops (replicate n true) undo =
      ((ops.filter fun o => o.undo ∧ o.op ≠ 0).map fun o => ⟨semid, o.num, -o.op⟩).reverse ++
        undo := by
  induction ops generalizing n undo with
  | nil => rfl
  | cons o rest ih =>
    rw [recordUndo]
    by_cases ho : o.undo ∧ o.op ≠ 0
    · obtain ⟨m, rfl⟩ := Nat.exists_eq_add_of_le' (Nat.le_trans (Nat.succ_pos _) hn)
      have hrest := ih m (⟨semid, o.num, -o.op⟩ :: undo) (Nat.le_of_succ_le_succ hn)
      simpa [ho, replicate_succ] using hrest
    · rw [if_neg ho, filter_cons, if_neg (by simpa using ho), ih n undo (Nat.le_of_succ_le hn)]

/-- Without a value above the maximum nothing is lost to the 16 bits. -/
theorem foldl_adjusted {ops : List ℤ} (hmax : ∀ w ∈ undoing v ops, w ≤ 65535) :
    ops.foldl (fun v op => adjusted v (-op)) v = undone v ops := by
  induction ops generalizing v with
  | nil => rfl
  | cons op rest ih =>
    obtain ⟨hfirst, hrest⟩ := forall_mem_cons.mp hmax
    have hfits : adjusted v (-op) = (v - op).toNat := Nat.mod_eq_of_lt (by omega)
    rw [foldl_cons, hfits, ih hrest, undone]

theorem undone_eq {ops : List ℤ} (hmin : ∀ w ∈ undoing v ops, 0 ≤ w) :
    (undone v ops : ℤ) = v - ops.sum := by
  induction ops generalizing v with
  | nil => simp [undone]
  | cons op rest ih =>
    obtain ⟨hfirst, hrest⟩ := forall_mem_cons.mp hmin
    rw [undone, ih hrest, sum_cons]
    omega

/-! ## Runs -/

def Small (vals : List ℕ) : Prop := ∀ v ∈ vals, v ≤ 65535

/-- The records that name the slot of a set stand for the operations on that set. -/
structure Recorded (s : State) : Prop where
  records : ∀ p i, (s.sems i).isSome → (s.undo p).filter (·.semid = i) =
    ((s.log p).filter (·.1 = i)).map fun e => ⟨e.1, e.2.num, -e.2.op⟩
  live : ∀ p, ∀ e ∈ s.log p, (s.sems e.1).isSome
  small : ∀ i, ∀ vals ∈ s.sems i, Small vals

theorem semop_cases (s : State) (p semid : ℕ) (ops : List Sembuf) :
    s.semop p semid ops = s ∨ ∃ vals, s.sems semid = some vals ∧ Passes vals ops ∧
      s.semop p semid ops =
        { sems := update s.sems semid (some (ops.foldl applyOp vals))
          undo := update s.undo p (((ops.filter fun o => o.undo ∧ o.op ≠ 0).map fun o =>
            ⟨semid, o.num, -o.op⟩).reverse ++ s.undo p)
          log := update s.log p (((ops.filter fun o => o.undo ∧ o.op ≠ 0).map
            (semid, ·)).reverse ++ s.log p) } := by
  rw [semop]
  cases hvals : s.sems semid with
  | none => exact .inl rfl
  | some vals =>
    cases hcheck : checkOps vals ops with
    | applied =>
      refine .inr ⟨vals, rfl, checkOps_applied.mp hcheck, ?_⟩
      simp only [semTryApply, hcheck, recordUndo_eq semid _ _ (Nat.le_refl _)]
    | _ => exact .inl (by simp only [semTryApply, hcheck])

theorem Small.adjust (hsmall : Small vals) (n : ℕ) (delta : ℤ) :
    Small (Semaphores.adjust vals n delta) := by
  intro v hv
  obtain ⟨m, hm⟩ := mem_iff_getElem?.mp hv
  rw [Semaphores.adjust, getElem?_modify] at hm
  obtain ⟨w, hw, rfl⟩ := Option.map_eq_some_iff.mp hm
  split_ifs
  · exact Nat.le_of_lt_succ (Nat.mod_lt _ (Nat.two_pow_pos 16))
  · exact hsmall w (mem_of_getElem? hw)

theorem Small.foldl (hsmall : Small vals) : Small (ops.foldl applyOp vals) :=
  foldlRecOn ops applyOp hsmall fun _ hvals o _ => hvals.adjust o.num o.op

theorem small_update {entry : Option (List ℕ)} (hsmall : ∀ i, ∀ vals ∈ sems i, Small vals)
    (hentry : ∀ vals ∈ entry, Small vals) (j : ℕ) :
    ∀ i, ∀ vals ∈ update sems j entry i, Small vals :=
  (forall_update_iff sems fun _ entry => ∀ vals ∈ entry, Small vals).mpr
    ⟨hentry, fun i _ => hsmall i⟩

theorem replay_small (hsmall : ∀ i, ∀ vals ∈ sems i, Small vals) (us : List SemUndo) :
    ∀ i, ∀ vals ∈ us.foldl replay sems i, Small vals := by
  induction us generalizing sems with
  | nil => exact hsmall
  | cons u rest ih =>
    refine ih (replay_eq sems u ▸ small_update hsmall (fun vals hvals => ?_) _)
    obtain ⟨old, hold, rfl⟩ := Option.map_eq_some_iff.mp hvals
    exact (hsmall _ old hold).adjust _ _

theorem replay_isSome (us : List SemUndo) (i : ℕ) :
    (us.foldl replay sems i).isSome = (sems i).isSome := by
  induction us generalizing sems with
  | nil => rfl
  | cons u rest ih =>
    rw [foldl_cons, ih, replay_eq, update_apply]
    split_ifs with hi
    · rw [hi, Option.isSome_map]
    · rfl

theorem Recorded.semget (hrec : Recorded s) {nsems : ℕ} (hfits : Event.Fits s (.semget nsems)) :
    Recorded (s.semget nsems) := by
  rw [State.semget]
  cases hslot : s.freeSlot with
  | none => exact hrec
  | some i =>
    have hfree : (s.sems i).isNone := by simpa using find?_some hslot
    refine ⟨fun p j hj => ?_, fun p e he => ?_, small_update hrec.small ?_ _⟩
    · by_cases hji : j = i
      · -- no record and no operation is on the slot of the new set
        subst hji
        have hrecords : (s.undo p).filter (·.semid = j) = [] := by
          simpa using hfits j hslot p
        have hlog : (s.log p).filter (·.1 = j) = [] := by
          refine filter_eq_nil_iff.mpr fun e he heq => ?_
          have hsome := hrec.live p e he
          rw [of_decide_eq_true heq, Option.isNone_iff_eq_none.mp hfree] at hsome
          cases hsome
        rw [hrecords, hlog, map_nil]
      · simp only [update_of_ne hji] at hj
        exact hrec.records p j hj
    · simp only [update_apply]
      split_ifs
      · rfl
      · exact hrec.live p e he
    · rintro _ ⟨⟩ v hv
      rw [eq_of_mem_replicate hv]
      exact Nat.zero_le _

theorem Recorded.semop (hrec : Recorded s) (p semid : ℕ) (ops : List Sembuf) :
    Recorded (s.semop p semid ops) := by
  obtain hsame | ⟨vals, hvals, -, hnew⟩ := semop_cases s p semid ops
  · rw [hsame]
    exact hrec
  have hsome : ∀ i, (update s.sems semid (some (ops.foldl applyOp vals)) i).isSome =
      (s.sems i).isSome := by
    intro i
    rw [update_apply]
    split_ifs with hi
    · rw [hi, hvals]
      rfl
    · rfl
  rw [hnew]
  refine ⟨fun q i hi => ?_, fun q e he => ?_, small_update hrec.small ?_ _⟩
  · rw [hsome] at hi
    have hold := hrec.records q i hi
    simp only [update_apply]
    split_ifs with hq
    · subst hq
      by_cases hsemid : semid = i <;> simp [hold, hsemid, filter_map, comp_def]
    · exact hold
  · rw [hsome]
    simp only [update_apply] at he
    split_ifs at he with hq
    · rcases mem_append.mp he with hnew | hold
      · obtain ⟨o, -, rfl⟩ := mem_map.mp (mem_reverse.mp hnew)
        rw [hvals]
        rfl
      · exact hrec.live p e hold
    · exact hrec.live q e he
  · rintro _ ⟨⟩
    exact (hrec.small _ vals hvals).foldl

theorem Recorded.rmid (hrec : Recorded s) (semid : ℕ) : Recorded (s.rmid semid) := by
  refine ⟨fun p i hi => ?_, fun p e he => ?_, small_update hrec.small (by rintro _ ⟨⟩) _⟩
  · by_cases hsemid : i = semid
    · simp [State.rmid, hsemid] at hi
    · have hkept : (s.sems i).isSome := by simpa [State.rmid, hsemid] using hi
      have hlog : ((s.log p).filter fun e => e.1 ≠ semid).filter (·.1 = i) =
          (s.log p).filter (·.1 = i) := by
        rw [filter_filter]
        refine filter_congr fun e _ => ?_
        by_cases he : e.1 = i <;> simp [he, hsemid]
      rw [State.rmid, hlog]
      exact hrec.records p i hkept
  · obtain ⟨hold, hne⟩ : e ∈ s.log p ∧ e.1 ≠ semid := by simpa [State.rmid] using he
    simpa [State.rmid, hne] using hrec.live p e hold

theorem Recorded.step (hrec : Recorded s) {event : Event} (hfits : event.Fits s) :
    Recorded (s.step event) := by
  cases event with
  | semget nsems => exact hrec.semget hfits
  | semop p semid ops => exact hrec.semop p semid ops
  | rmid semid => exact hrec.rmid semid
  | exit p =>
    refine ⟨fun q i hi => ?_, fun q e he => ?_, replay_small hrec.small _⟩
    · simp only [State.step, State.exit, replay_isSome, update_apply] at hi ⊢
      split_ifs
      · rfl
      · exact hrec.records q i hi
    · simp only [State.step, State.exit, replay_isSome, update_apply] at he ⊢
      split_ifs at he
      · cases he
      · exact hrec.live q e he

theorem Recorded.exit (hrec : Recorded s) (hfits : Event.Fits s (.exit p)) (i n : ℕ) :
    value (s.exit p).sems i n = (value s.sems i n).map fun v => undone v (s.done p i n) := by
  rw [State.exit, foldl_replay]
  refine Option.map_congr fun v hv => ?_
  have hsome : (s.sems i).isSome := by
    cases hsems : s.sems i with
    | none => simp [value, hsems] at hv
    | some vals => rfl
  have hrecords : (s.undo p).filter (fun u => u.semid = i ∧ u.semnum = n) =
      ((s.log p).filter fun e => e.1 = i ∧ e.2.num = n).map
        fun e => ⟨e.1, e.2.num, -e.2.op⟩ := by
    have hboth := congrArg (List.filter fun u : SemUndo => u.semnum = n) (hrec.records p i hsome)
    simpa [filter_filter, filter_map, comp_def, Bool.and_comm] using hboth
  rw [hrecords, foldl_map, ← foldl_adjusted (hfits i n v hv), State.done, foldl_map]

/-! ## One process alone -/

theorem restore (hsmall : Small vals) (hundo : ∀ o ∈ ops, o.undo = true)
    (hseq : ops.foldlM seqOp vals = some vals') (semid : ℕ) :
    ((ops.filter fun o => o.undo ∧ o.op ≠ 0).map fun o => ⟨semid, o.num, -o.op⟩).reverse.foldl
      replay (update sems semid (some (ops.foldl applyOp vals))) =
        update sems semid (some vals) := by
  induction ops generalizing vals with
  | nil => rfl
  | cons o rest ih =>
    obtain ⟨ho, hrest⟩ := forall_mem_cons.mp hundo
    rw [foldlM_cons] at hseq
    obtain ⟨_, hmid, hseq⟩ := Option.bind_eq_some_iff.mp hseq
    obtain ⟨v, hv, ⟨-, hmin, hmax⟩, rfl⟩ := seqOp_eq_some.mp hmid
    have hsame : ∀ f : ℕ → ℕ, f v = v → vals.modify o.num f = vals := by
      refine fun f hf => ext_getElem? fun m => ?_
      by_cases hm : o.num = m
      · simp [← hm, hv, hf]
      · simp [hm]
    have hstep := @ih (applyOp vals o) (hsmall.adjust o.num o.op) hrest hseq
    have hle := hsmall v (mem_of_getElem? hv)
    rw [foldl_cons, filter_cons]
    split_ifs with hop
    · rw [map_cons, reverse_cons, foldl_append, hstep, foldl_cons, foldl_nil, replay_eq]
      have hback : adjusted (adjusted v o.op) (-o.op) = v := by
        rw [adjusted, adjusted]
        omega
      have hid := hsame (fun v => adjusted (adjusted v o.op) (-o.op)) hback
      simp [applyOp, adjust, modify_modify_eq, comp_def, hid]
    · have hzero : o.op = 0 := by simpa [ho] using hop
      have hid : adjusted v o.op = v := by
        rw [adjusted]
        omega
      rw [hstep, applyOp, adjust, hsame (adjusted · o.op) hid]

theorem exit_alone {start : State} (hrec : Recorded start) (hundo : start.undo p = [])
    (hrun : Reaches (guarded (Event.Alone p) State.Step) start s) :
    (s.exit p).sems = start.sems := by
  have hboth : Recorded s ∧ (s.exit p).sems = start.sems := by
    apply hrun.invariant
    · exact ⟨hrec, by rw [exit, hundo]; rfl⟩
    · rintro before _ _ ⟨hrec, hsems⟩ ⟨⟨semid, ops, rfl, hundo, hfeasible⟩, rfl⟩
      refine ⟨hrec.step trivial, ?_⟩
      rw [step]
      obtain hsame | ⟨vals, hvals, hpasses, hnew⟩ := semop_cases before p semid ops
      · rw [hsame]
        exact hsems
      · obtain ⟨vals', hseq⟩ := Option.isSome_iff_exists.mp
          (seqOps_isSome.mpr (hfeasible vals hvals hpasses))
        rw [hnew, exit]
        simp only [update_self]
        rw [foldl_append, restore (hrec.small _ vals hvals) hundo hseq, ← hvals, update_eq_self]
        exact hsems
  exact hboth.2

/-- In every run in which no set is created in a slot that an undo record names and no value
rises above the maximum at an exit: an exit takes back, one by one and not below 0, what the
process did with `SEM_UNDO` to the sets that exist, which is the sum where no value falls
below 0; and a process that operates alone, with `SEM_UNDO`, restores all values. -/
theorem exit_takes_back (s : State) (p : ℕ)
    (hrun : Reaches (guarded (fun s event => Event.Fits s event) State.Step) State.start s) :
    (Event.Fits s (.exit p) → ∀ i n,
      value (s.exit p).sems i n = (value s.sems i n).map (undone · (s.done p i n)) ∧
      ∀ v ∈ value s.sems i n, (∀ w ∈ undoing v (s.done p i n), 0 ≤ w) →
        (undone v (s.done p i n) : ℤ) = v - (s.done p i n).sum) ∧
    (s.undo p = [] → ∀ s', Reaches (guarded (Event.Alone p) State.Step) s s' →
      (s'.exit p).sems = s.sems) := by
  have hrec : Recorded s :=
    hrun.kept ⟨fun _ _ _ => rfl, fun _ => nofun, fun _ => by rintro _ ⟨⟩⟩
      fun hbefore hfits => hbefore.step hfits
  exact ⟨fun hfits i n => ⟨hrec.exit hfits i n, fun v _ hmin => undone_eq hmin⟩,
    fun hundo s' hrun' => exit_alone hrec hundo hrun'⟩

/-- Two units, of which process 8 then takes one. -/
def twoUnits : State := (State.start.semget 1).semop 7 0 [⟨0, 2, false⟩]

theorem exit_takes_back_one : ∃ s,
    Reaches (guarded (fun s event => Event.Fits s event) State.Step) State.start twoUnits ∧
    Reaches (guarded (Event.Alone 8) State.Step) twoUnits s ∧ value s.sems 0 0 = some 1 ∧
    (s.exit 8).sems = twoUnits.sems := by
  have hcreate : guarded (fun s event => Event.Fits s event) Step start
      (.semget 1) (start.semget 1) := ⟨fun _ _ _ => nofun, rfl⟩
  have hgive : guarded (fun s event => Event.Fits s event) Step (start.semget 1)
      (.semop 7 0 [⟨0, 2, false⟩]) twoUnits := ⟨trivial, rfl⟩
  have hrun := ((Reaches.refl _ _).tail hcreate).tail hgive
  have halone : Event.Alone 8 twoUnits (.semop 8 0 [⟨0, -1, true⟩]) := by
    refine ⟨0, _, rfl, by simp, ?_⟩
    rintro _ ⟨⟩ -
    exact seqOps_isSome.mp rfl
  have hrun' := @Reaches.tail _ _ twoUnits (guarded (Event.Alone 8) Step) _ _ _
    (Reaches.refl _ _) ⟨halone, rfl⟩
  exact ⟨_, hrun, hrun', rfl, (exit_takes_back twoUnits 8 hrun).2 rfl _ hrun'⟩

/-- Process 7 adds five units, which process 8 takes. -/
def givenAway : List Event :=
  [.semget 1, .semop 7 0 [⟨0, 5, true⟩], .semop 8 0 [⟨0, -5, false⟩]]

/-- The set is removed and the slot gets a new one. -/
def recreated : List Event :=
  [.semget 1, .semop 8 0 [⟨0, 1, false⟩], .semop 7 0 [⟨0, -1, true⟩], .rmid 0, .semget 1]

/-- The exit does not take five units from a value of 0, and it changes a set on which the
process has made no operation. -/
theorem exit_not_negated_sum :
    let s := givenAway.foldl step start
    let r := recreated.foldl step start
    s.done 7 0 0 = [5] ∧ value s.sems 0 0 = some 0 ∧ value (s.exit 7).sems 0 0 = some 0 ∧
      r.done 7 0 0 = [] ∧ value r.sems 0 0 = some 0 ∧ value (r.exit 7).sems 0 0 = some 1 := by
  decide +kernel

end AuraLite.Semaphores

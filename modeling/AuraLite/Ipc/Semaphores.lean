import Mathlib.Algebra.GroupWithZero.Nat
import Mathlib.Algebra.Ring.Int.Defs

/-!
# System V semaphores

`sem_try_apply`, which checks all operations of a `semop` against the values it finds and
then applies them one by one, and the sequential execution it stands for.
-/

namespace AuraLite.Semaphores

open List

/-- `struct sysv_sembuf`; `undo` is the flag `SEM_UNDO`. -/
structure Sembuf where
  num : ℕ
  op : ℤ
  undo : Bool

/-- `struct sem_undo`. -/
structure SemUndo where
  semid : ℕ
  semnum : ℕ
  delta : ℤ
deriving DecidableEq

/-- The results `1`, `0` and `-ERANGE`. -/
inductive Verdict
  | applied
  | blocked
  | range
deriving DecidableEq

/-- The first loop of `sem_try_apply`. -/
def checkOps (vals : List ℕ) : List Sembuf → Verdict
  | [] => .applied
  | o :: rest =>
    match vals[o.num]? with
    | none => .range
    | some v =>
      if o.op = 0 ∧ v ≠ 0 ∨ o.op < 0 ∧ (v : ℤ) < -o.op then .blocked else checkOps vals rest

/-- Negative values become 0, and 16 bits are kept. -/
def adjusted (v : ℕ) (delta : ℤ) : ℕ := (v + delta).toNat % 2 ^ 16

def adjust (vals : List ℕ) (n : ℕ) (delta : ℤ) : List ℕ := vals.modify n (adjusted · delta)

/-- The store of the second loop. -/
def applyOp (vals : List ℕ) (o : Sembuf) : List ℕ := adjust vals o.num o.op

/-- The undo records of the second loop; `slab` answers its calls of `kmalloc`. -/
def recordUndo (semid : ℕ) : List Sembuf → List Bool → List SemUndo → List SemUndo
  | [], _, undo => undo
  | o :: rest, slab, undo =>
    if o.undo ∧ o.op ≠ 0 then
      recordUndo semid rest slab.tail
        (if slab.headD false then ⟨semid, o.num, -o.op⟩ :: undo else undo)
    else recordUndo semid rest slab undo

def semTryApply (semid : ℕ) (vals : List ℕ) (ops : List Sembuf) (undo : List SemUndo)
    (slab : List Bool) : Verdict × List ℕ × List SemUndo :=
  match checkOps vals ops with
  | .applied => (.applied, ops.foldl applyOp vals, recordUndo semid ops slab undo)
  | verdict => (verdict, vals, undo)

/-! ## The sequential execution -/

/-- The operation can be executed on a semaphore of the value. -/
def Sembuf.Possible (o : Sembuf) (v : ℤ) : Prop :=
  (o.op = 0 → v = 0) ∧ 0 ≤ v + o.op ∧ v + o.op ≤ 65535

instance (o : Sembuf) (v : ℤ) : Decidable (o.Possible v) :=
  inferInstanceAs (Decidable (_ ∧ _ ∧ _))

/-- One operation, if it is possible. -/
def seqOp (vals : List ℕ) (o : Sembuf) : Option (List ℕ) :=
  vals[o.num]?.bind fun v =>
    if o.Possible v then some (vals.set o.num (v + o.op).toNat) else none

/-- What the operations in front of the one at `i` add to semaphore `n`. -/
def earlier (ops : List Sembuf) (i n : ℕ) : ℤ :=
  (((ops.take i).filter (·.num = n)).map Sembuf.op).sum

/-- The operation passes the check against the values found. -/
def Sembuf.Passes (vals : List ℕ) (o : Sembuf) : Prop :=
  ∃ v ∈ vals[o.num]?, (o.op = 0 → v = 0) ∧ 0 ≤ v + o.op

def Passes (vals : List ℕ) (ops : List Sembuf) : Prop := ∀ o ∈ ops, o.Passes vals

/-- The operation at `i` is possible with the earlier ones of the call counted in. -/
def Sembuf.Follows (vals : List ℕ) (ops : List Sembuf) (i : ℕ) (o : Sembuf) : Prop :=
  ∃ v ∈ vals[o.num]?, o.Possible (v + earlier ops i o.num)

def Feasible (vals : List ℕ) (ops : List Sembuf) : Prop :=
  ∀ i : ℕ, ∀ o ∈ ops[i]?, o.Follows vals ops i

variable {vals vals' : List ℕ} {ops : List Sembuf} {o : Sembuf}

theorem seqOp_eq_some : seqOp vals o = some vals' ↔
    ∃ v, vals[o.num]? = some v ∧ o.Possible v ∧ vals' = applyOp vals o := by
  cases hv : vals[o.num]? with
  | none => simp [seqOp, hv]
  | some v =>
    have hset : o.Possible v → applyOp vals o = vals.set o.num (v + o.op).toNat := by
      rintro ⟨-, -, hmax⟩
      have hfits : adjusted v o.op = (v + o.op).toNat := Nat.mod_eq_of_lt (by omega)
      rw [applyOp, adjust, modify_eq_set, hv, Option.getD_some, hfits]
    simp only [seqOp, hv, Option.bind_some]
    split_ifs with hpossible
    · simp [hpossible, hset hpossible, eq_comm]
    · simp [hpossible]

theorem earlier_succ (ops : List Sembuf) (i n : ℕ) :
    earlier (o :: ops) (i + 1) n = (if o.num = n then o.op else 0) + earlier ops i n := by
  by_cases hn : o.num = n <;> simp [earlier, hn]

theorem seqOps_isSome : (ops.foldlM seqOp vals).isSome ↔ Feasible vals ops := by
  induction ops generalizing vals with
  | nil => simp [Feasible]
  | cons o rest ih =>
    rw [foldlM_cons]
    cases hmid : seqOp vals o with
    | none =>
      refine iff_of_false nofun fun hfeasible => ?_
      obtain ⟨v, hv, hpossible⟩ := hfeasible 0 o rfl
      rw [earlier, take_zero, filter_nil, map_nil, sum_nil, Int.add_zero] at hpossible
      rw [seqOp_eq_some.mpr ⟨v, hv, hpossible, rfl⟩] at hmid
      cases hmid
    | some mid =>
      obtain ⟨v, hv, hpossible, rfl⟩ := seqOp_eq_some.mp hmid
      have hshift : ∀ i (p : Sembuf), (∃ w ∈ (applyOp vals o)[p.num]?,
          p.Possible (w + earlier rest i p.num)) ↔
            ∃ w ∈ vals[p.num]?, p.Possible (w + earlier (o :: rest) (i + 1) p.num) := by
        intro i p
        rw [earlier_succ, applyOp, adjust]
        by_cases hnum : o.num = p.num
        · have hexact : (adjusted v o.op : ℤ) = v + o.op := by
            obtain ⟨-, hmin, hmax⟩ := hpossible
            rw [adjusted]
            omega
          simp [← hnum, hv, hexact, Int.add_assoc]
        · simp [hnum]
      change (rest.foldlM seqOp (applyOp vals o)).isSome ↔ _
      rw [ih]
      refine ⟨fun hrest i p hp => ?_, fun hall i p hp => ?_⟩
      · cases i with
        | zero =>
          cases hp
          exact ⟨v, hv, by simpa [earlier] using hpossible⟩
        | succ i => exact (hshift i p).mp (hrest i p hp)
      · exact (hshift i p).mpr (hall (i + 1) p hp)

theorem checkOps_applied : checkOps vals ops = .applied ↔ Passes vals ops := by
  induction ops with
  | nil => simp [checkOps, Passes]
  | cons o rest ih =>
    rw [checkOps, Passes, forall_mem_cons, ← Passes, ← ih, Sembuf.Passes]
    cases hv : vals[o.num]? with
    | none => simp
    | some v =>
      simp only [Option.mem_def, Option.some.injEq, exists_eq_left']
      split_ifs with hblocked
      · simp; omega
      · have hfree : (o.op = 0 → v = 0) ∧ 0 ≤ v + o.op := by omega
        exact (and_iff_right hfree).symm

end AuraLite.Semaphores

import AuraLite.Fs.FatGrowth

/-!
# Entries of FAT32 directories

Finding entries along a path, making them and deleting them, with their effect on the
owners of the chains.
-/

namespace AuraLite.FatFs

open Option List ByteMemory ClusterChain

variable {v v' : Vol} {c cl : ℕ} {nodes : List ℕ} {loose : Option (ℕ × Bool)}
  {skip : Set Place} {chain chain' : Place → List ℕ} {dir off dir₀ off₀ : ℕ} {p q p₀ : Place}
  {slot : Mem} {dflag : Bool}

/-! ## Slots -/

open Vol

theorem writeLE_short {m : Mem} (h : Short m) {addr width : ℕ} (hend : addr + width ≤ 32)
    (value : ℕ) : Short (writeLE m addr width value) := by
  intro i hi
  rw [writeLE_outside (by omega), h i hi]

theorem setFields_short (h : Short slot) (first size : ℕ) : Short (setFields slot first size) :=
  writeLE_short (writeLE_short (writeLE_short h (by decide) _) (by decide) _) (by decide) size

theorem setFields_below (slot : Mem) (first size : ℕ) {i : ℕ} (hi : i < 20) :
    setFields slot first size i = slot i := by
  rw [setFields, write32, writeLE_outside (by omega), writeLE_outside (by omega),
    writeLE_outside (by omega)]

theorem clusterOf_setFields (slot : Mem) {first : ℕ} (hfirst : first < 2 ^ 32) (size : ℕ) :
    clusterOf (setFields slot first size) = first := by
  rw [clusterOf, setFields, write32]
  rw [readLE_writeLE_disjoint (by omega), readLE_writeLE_disjoint (by omega),
    readLE_writeLE_self, readLE_writeLE_disjoint (by omega), readLE_writeLE_self]
  omega

theorem sizeOf_setFields (slot : Mem) (first : ℕ) {size : ℕ} (hsize : size < 2 ^ 32) :
    sizeOf (setFields slot first size) = size := by
  rw [sizeOf, setFields, read32_write32_self]
  exact Nat.mod_eq_of_lt hsize

theorem buildEntry_short (name : List Byte) (attr : Byte) (first size : ℕ) :
    Short (buildEntry name attr first size) := by
  apply setFields_short
  intro i hi
  dsimp only
  rw [if_neg (by omega), if_neg (by omega)]

theorem dirRead_short (h : v.dirRead dir off = some slot) : Short slot := by
  rw [dirRead] at h
  split_ifs at h
  rw [← some_inj.mp h]
  exact window_short _ _

section

variable (hshaped : v.Shaped) (h : v.Sound loose skip chain) (hdir₀ : v.DirAt loose skip dir₀ p₀)
  (haligned : off₀ % 32 = 0) (hshort : Short slot)
include hshaped h hdir₀ haligned hshort

theorem dirPut_writes :
    v.dirPut dir₀ off₀ slot = (v, false) ∨ ((v.dirPut dir₀ off₀ slot).2 = true ∧
        ∃ cl, v.Writes chain p₀ off₀ cl slot (v.dirPut dir₀ off₀ slot).1) := by
  rw [dirPut]
  have hchain := h.dir_chain hdir₀
  rw [hchain.chainAt hshaped]
  cases hnode : (chain p₀)[off₀ / v.bpc]? with
  | none => exact .inl (if_pos rfl)
  | some node =>
    right
    have hrange := hchain.range node (mem_of_getElem? hnode)
    have hpositive : node ≠ 0 := Nat.ne_of_gt (Nat.lt_of_lt_of_le (by decide) hrange.1)
    rw [getD_some, if_neg hpositive]
    exact ⟨rfl, node, rfl, hnode, haligned, hshort⟩

end

theorem dirWrite_of_read {old : Mem} (hshaped : v.Shaped) (h : v.Sound loose skip chain)
    (hdir₀ : v.DirAt loose skip dir₀ p₀) (haligned : off₀ % 32 = 0) (hshort : Short slot)
    (hread : v.dirRead dir₀ off₀ = some old) :
    (v.dirWrite dir₀ off₀ slot).2 = true ∧
      ∃ cl, v.Writes chain p₀ off₀ cl slot (v.dirWrite dir₀ off₀ slot).1 := by
  have hthere : v.chainAt dir₀ (off₀ / v.bpc) ≠ 0 := by
    intro hzero
    rw [dirRead, if_pos hzero] at hread
    cases hread
  have hwrite : v.dirWrite dir₀ off₀ slot = v.dirPut dir₀ off₀ slot := by
    rw [dirWrite, if_neg hthere]
  rw [hwrite]
  rcases dirPut_writes hshaped h hdir₀ haligned hshort with hnone | hdone
  · rw [dirPut, if_neg hthere] at hnone
    cases (Prod.mk.inj hnone).2
  · exact hdone

structure Vol.Deletes (v v' : Vol) (loose : Option (ℕ × Bool)) (skip skip' : Set Place)
    (chain : Place → List ℕ) (dir₀ : ℕ) : Prop where
  sound : v'.Sound loose skip' chain
  shape : v.SameShape v'
  dirs : ∀ dir p, v.DirAt loose skip dir p ↔ v'.DirAt loose skip' dir p
  reads : ∀ off slot, off % 32 = 0 → v.dirRead dir₀ off = some slot →
    ∃ slot', v'.dirRead dir₀ off = some slot' ∧ (¬ IsEntry slot → ¬ IsEntry slot')

theorem Vol.Deletes.trans {v'' : Vol} {skip'' : Set Place}
    (h : v.Deletes v' loose skip skip' chain dir₀)
    (h' : v'.Deletes v'' loose skip' skip'' chain dir₀) :
    v.Deletes v'' loose skip skip'' chain dir₀ where
  sound := h'.sound
  shape := h.shape.trans h'.shape
  dirs dir p := (h.dirs dir p).trans (h'.dirs dir p)
  reads off slot haligned hread := by
    obtain ⟨slot', hread', hplain⟩ := h.reads off slot haligned hread
    obtain ⟨slot'', hread'', hplain'⟩ := h'.reads off slot' haligned hread'
    exact ⟨slot'', hread'', fun hslot => hplain' (hplain hslot)⟩

/-- What a scan of a directory reports is there, with its long name before it. -/
structure Vol.Listed (v : Vol) (dir : ℕ) (found : Found) : Prop where
  aligned : found.off % 32 = 0
  read : v.dirRead dir found.off = some found.slot
  used : found.slot 0 ≠ 0
  kept : found.slot 0 ≠ 0xE5
  label : isLabel found.slot = false
  room : found.span * 32 ≤ found.off
  long : ∀ k, 1 ≤ k → k ≤ found.span →
    ∃ slot, v.dirRead dir (found.off - k * 32) = some slot ∧ isLong slot = true

/-- The slots that are pending are those before the offset. -/
structure Vol.Pending (v : Vol) (dir off length : ℕ) : Prop where
  aligned : off % 32 = 0
  room : length * 32 ≤ off
  long : ∀ k, 1 ≤ k → k ≤ length →
    ∃ slot, v.dirRead dir (off - k * 32) = some slot ∧ isLong slot = true

theorem Vol.Pending.restart {length : ℕ} (h : v.Pending dir off length) :
    v.Pending dir (off + 32) 0 where
  aligned := by rw [Nat.add_mod_right]; exact h.aligned
  room := by rw [Nat.zero_mul]; exact Nat.zero_le _
  long k hk hk' := absurd (Nat.le_trans hk hk') (by decide)

/-- One more slot of a long name; only twenty are kept. -/
theorem Vol.Pending.more {length length' : ℕ} (h : v.Pending dir off length)
    (hread : v.dirRead dir off = some slot) (hslot : isLong slot = true)
    (hlength : length' ≤ length + 1) : v.Pending dir (off + 32) length' where
  aligned := by rw [Nat.add_mod_right]; exact h.aligned
  room := by have hroom := h.room; omega
  long k hk hk' := by
    by_cases hfirst : k = 1
    · subst hfirst
      rw [Nat.one_mul, Nat.add_sub_cancel]
      exact ⟨slot, hread, hslot⟩
    · have hsame : off + 32 - k * 32 = off - (k - 1) * 32 := by omega
      rw [hsame]
      exact h.long (k - 1) (by omega) (by omega)

variable {found : Found}

/-- The way along a path finds none of the entries `.` and `..`. -/
def Vol.avoidsDots (v : Vol) (dir : ℕ) : List (List Byte) → Bool
  | [] => true
  | component :: rest =>
    (v.dirFind dir component).elim true fun found =>
      !isDot found.slot && v.avoidsDots (clusterOf found.slot) rest

/-- The components of a path lead through plain entries. -/
def Vol.plainPath (v : Vol) (path : List Byte) : Bool :=
  v.avoidsDots v.root (components (path.length + 1) path)

end AuraLite.FatFs

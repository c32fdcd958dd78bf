import Mathlib.Tactic.Ring

/-!
# Byte memory with little-endian words

A flat memory of bytes indexed by address.  Words are stored little-endian, so
a structure of the kernel that lives inside managed memory is read and written
here exactly at the byte addresses the C code uses.
-/

namespace AuraLite.ByteMemory

abbrev Byte := Fin 256

instance instNeZeroByte : NeZero 256 := ⟨by decide⟩

abbrev Mem := ℕ → Byte

/-- The little-endian value of the `width` bytes at `addr`. -/
def readLE (m : Mem) (addr : ℕ) : ℕ → ℕ
  | 0 => 0
  | width + 1 => (m addr : ℕ) + 256 * readLE m (addr + 1) width

/-- The least significant byte of a value. -/
def lowByte (value : ℕ) : Byte := ⟨value % 256, Nat.mod_lt _ (by omega)⟩

/-- Store the low `width` bytes of `value` at `addr`. -/
def writeLE (m : Mem) (addr width value : ℕ) : Mem := fun x =>
  if addr ≤ x ∧ x < addr + width then lowByte (value / 256 ^ (x - addr)) else m x

def read64 (m : Mem) (addr : ℕ) : ℕ := readLE m addr 8
def write64 (m : Mem) (addr value : ℕ) : Mem := writeLE m addr 8 value
def read32 (m : Mem) (addr : ℕ) : ℕ := readLE m addr 4
def write32 (m : Mem) (addr value : ℕ) : Mem := writeLE m addr 4 value

/-- `memset`. -/
def fill (m : Mem) (addr length : ℕ) (byte : Byte) : Mem := fun x =>
  if addr ≤ x ∧ x < addr + length then byte else m x

/-- The ascending byte loop `dst[i] = src[i]`. -/
def copyBytes (m : Mem) (dst src : ℕ) : ℕ → Mem
  | 0 => m
  | count + 1 =>
    let done := copyBytes m dst src count
    Function.update done (dst + count) (done (src + count))

variable {addr : ℕ}
variable {x width other count dst src : ℕ} {left right : Mem}

theorem readLE_congr (hagree : ∀ i < width, left (addr + i) = right (addr + i)) :
    readLE left addr width = readLE right addr width := by
  induction width generalizing addr with
  | zero => rfl
  | succ width ih =>
    have hhead : left addr = right addr := hagree 0 (by omega)
    have htail : readLE left (addr + 1) width = readLE right (addr + 1) width := ih fun i hi => by
        have := hagree (i + 1) (by omega)
        rwa [show addr + (i + 1) = addr + 1 + i by omega] at this
    simp only [readLE, hhead, htail]

theorem readLE_lt (m : Mem) (addr width : ℕ) : readLE m addr width < 256 ^ width := by
  induction width generalizing addr with
  | zero => simp [readLE]
  | succ width ih =>
    have hbyte : (m addr : ℕ) < 256 := (m addr).isLt
    have htail := ih (addr + 1)
    rw [readLE, pow_succ]
    omega

variable {m : Mem} {value : ℕ}

theorem readLE_of_bytes (hbytes : ∀ i < width, m (addr + i) = lowByte (value / 256 ^ i)) :
    readLE m addr width = value % 256 ^ width := by
  induction width generalizing addr value with
  | zero => simp [readLE, Nat.mod_one]
  | succ width ih =>
    have hhead : (m addr : ℕ) = value % 256 := by
      have := hbytes 0 (by omega)
      simpa [lowByte] using congrArg Fin.val this
    have htail : readLE m (addr + 1) width = value / 256 % 256 ^ width := ih fun i hi => by
        have := hbytes (i + 1) (by omega)
        rwa [show addr + (i + 1) = addr + 1 + i by omega, pow_succ',
          ← Nat.div_div_eq_div_mul] at this
    rw [readLE, hhead, htail, pow_succ', Nat.mod_mul]

theorem writeLE_outside (houtside : x < addr ∨ addr + width ≤ x) :
    writeLE m addr width value x = m x := by
  have hnot : ¬(addr ≤ x ∧ x < addr + width) := by omega
  simp only [writeLE, hnot, if_false]

theorem readLE_writeLE_self (m : Mem) (addr width value : ℕ) :
    readLE (writeLE m addr width value) addr width = value % 256 ^ width := by
  apply readLE_of_bytes
  intro i hi
  have hinside : addr ≤ addr + i ∧ addr + i < addr + width := by omega
  simp only [writeLE, hinside, and_self, if_true, Nat.add_sub_cancel_left]

theorem readLE_writeLE_disjoint (hdisjoint : other + count ≤ addr ∨ addr + width ≤ other) :
    readLE (writeLE m addr width value) other count = readLE m other count := by
  apply readLE_congr
  intro i hi
  exact writeLE_outside (by omega)

/-! ## Words -/

theorem read64_lt (m : Mem) (addr : ℕ) : read64 m addr < 2 ^ 64 := by
  have := readLE_lt m addr 8
  simpa [read64] using this

@[simp]
theorem read64_write64_self (m : Mem) (addr value : ℕ) :
    read64 (write64 m addr value) addr = value % 2 ^ 64 := by
  simpa [read64, write64] using readLE_writeLE_self m addr 8 value

theorem read64_write64_disjoint (hdisjoint : other + 8 ≤ addr ∨ addr + 8 ≤ other) :
    read64 (write64 m addr value) other = read64 m other :=
  readLE_writeLE_disjoint hdisjoint

theorem write64_outside (houtside : x < addr ∨ addr + 8 ≤ x) : write64 m addr value x = m x :=
  writeLE_outside houtside

theorem write64_comm {value' : ℕ} (hdisjoint : other + 8 ≤ addr ∨ addr + 8 ≤ other) :
    write64 (write64 m addr value) other value' = write64 (write64 m other value') addr value := by
  funext x
  by_cases hother : other ≤ x ∧ x < other + 8
  · have haddr : ¬(addr ≤ x ∧ x < addr + 8) := by omega
    simp only [write64, writeLE, hother, haddr, and_self, if_true, if_false]
  · simp only [write64, writeLE, hother, if_false]

theorem read64_congr (hagree : ∀ x, addr ≤ x → x < addr + 8 → left x = right x) :
    read64 left addr = read64 right addr :=
  readLE_congr fun i hi => hagree (addr + i) (by omega) (by omega)

theorem read32_lt (m : Mem) (addr : ℕ) : read32 m addr < 2 ^ 32 := by
  have := readLE_lt m addr 4
  simpa [read32] using this

@[simp]
theorem read32_write32_self (m : Mem) (addr value : ℕ) :
    read32 (write32 m addr value) addr = value % 2 ^ 32 := by
  simpa [read32, write32] using readLE_writeLE_self m addr 4 value

theorem read32_write32_disjoint (hdisjoint : other + 4 ≤ addr ∨ addr + 4 ≤ other) :
    read32 (write32 m addr value) other = read32 m other :=
  readLE_writeLE_disjoint hdisjoint

theorem write32_outside (houtside : x < addr ∨ addr + 4 ≤ x) : write32 m addr value x = m x :=
  writeLE_outside houtside

theorem read32_congr (hagree : ∀ x, addr ≤ x → x < addr + 4 → left x = right x) :
    read32 left addr = read32 right addr :=
  readLE_congr fun i hi => hagree (addr + i) (by omega) (by omega)

/-! ## Ranges -/

theorem fill_outside {length : ℕ} {byte : Byte} (houtside : x < addr ∨ addr + length ≤ x) :
    fill m addr length byte x = m x := by
  have hnot : ¬(addr ≤ x ∧ x < addr + length) := by omega
  simp only [fill, hnot, if_false]

theorem copyBytes_outside (houtside : x < dst ∨ dst + count ≤ x) :
    copyBytes m dst src count x = m x := by
  induction count with
  | zero => rfl
  | succ count ih =>
    have hne : x ≠ dst + count := by omega
    simp only [copyBytes, Function.update_of_ne hne]
    exact ih (by omega)

/-- A copy between ranges that do not meet. -/
theorem copyBytes_inside {i : ℕ} (hapart : dst + count ≤ src ∨ src + count ≤ dst) (hi : i < count) :
    copyBytes m dst src count (dst + i) = m (src + i) := by
  induction count with
  | zero => omega
  | succ count ih =>
    by_cases hlast : i = count
    · rw [hlast, copyBytes, Function.update_self]
      exact copyBytes_outside (by omega)
    · have hne : dst + i ≠ dst + count := by omega
      rw [copyBytes, Function.update_of_ne hne]
      exact ih (by omega) (by omega)

end AuraLite.ByteMemory

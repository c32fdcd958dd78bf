import Mathlib.Algebra.Group.Nat.Defs
import Mathlib.Data.Nat.Basic

/-!
# Machine arithmetic on naturals

Unsigned 64-bit quantities are modelled as naturals.  Only the operations that
can leave the range are wrapped, and the lemmas below remove the wrap where a
bound is known.
-/

namespace AuraLite.Word64

/-- Truncation of a result to `uint64_t`. -/
def wrap64 (value : ℕ) : ℕ := value % 2 ^ 64

/-- The difference of two `uint64_t` values. -/
def sub64 (left right : ℕ) : ℕ := wrap64 (left + (2 ^ 64 - right))

/-- The C idiom `(x + (a - 1)) & ~(a - 1)` for a power of two `a`: the wrapped
sum with its low bits cleared. -/
def alignUp (value align : ℕ) : ℕ := wrap64 (value + (align - 1)) / align * align

/-- The C idiom `x & ~(a - 1)` for a power of two `a`. -/
def alignDown (value align : ℕ) : ℕ := value / align * align

theorem wrap64_of_lt {value : ℕ} (hvalue : value < 2 ^ 64) : wrap64 value = value :=
  Nat.mod_eq_of_lt hvalue

theorem wrap64_lt (value : ℕ) : wrap64 value < 2 ^ 64 := Nat.mod_lt _ (by decide)

theorem sub64_of_le {left right : ℕ} (hle : right ≤ left)
    (hleft : left < 2 ^ 64) : sub64 left right = left - right := by
  rw [sub64, wrap64]
  omega

theorem alignUp_of_lt {value align : ℕ} (hfits : value + (align - 1) < 2 ^ 64) :
    alignUp value align = (value + (align - 1)) / align * align := by
  rw [alignUp, wrap64_of_lt hfits]

theorem alignUp_of_dvd {value align : ℕ} (hpos : 0 < align) (hdvd : align ∣ value)
    (hfits : value + (align - 1) < 2 ^ 64) : alignUp value align = value := by
  obtain ⟨k, rfl⟩ := hdvd
  have hlast : (align - 1) / align = 0 := Nat.div_eq_of_lt (by omega)
  rw [alignUp_of_lt hfits, Nat.mul_add_div hpos, hlast, Nat.add_zero, Nat.mul_comm]

theorem dvd_alignUp (value align : ℕ) : align ∣ alignUp value align := Nat.dvd_mul_left align _

end AuraLite.Word64

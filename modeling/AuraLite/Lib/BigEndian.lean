import Mathlib.Data.List.Induction
import Mathlib.Tactic.Ring

/-!
# Big-endian byte strings

The value of a byte string read with its most significant byte first, and the
string of a given width that stands for a number that fits it.
-/

namespace AuraLite.BigEndian

/-- The number a byte string stands for, most significant byte first. -/
def value (bytes : List UInt8) : ℕ :=
  bytes.foldl (fun high byte => high * 256 + byte.toNat) 0

/-- The low `width` bytes of a number, most significant byte first. -/
def encode : ℕ → ℕ → List UInt8
  | 0, _ => []
  | width + 1, number => encode width (number / 256) ++ [UInt8.ofNat number]

@[simp]
theorem value_nil : value [] = 0 := rfl

theorem value_concat (bytes : List UInt8) (byte : UInt8) :
    value (bytes ++ [byte]) = value bytes * 256 + byte.toNat := by
  simp only [value, List.foldl_append, List.foldl_cons, List.foldl_nil]

theorem value_lt (bytes : List UInt8) : value bytes < 256 ^ bytes.length := by
  induction bytes using List.reverseRecOn with
  | nil => exact Nat.one_pos
  | append_singleton bytes byte ih =>
    have hbyte := byte.toNat_lt
    rw [value_concat, List.length_append, List.length_singleton, pow_succ]
    omega

@[simp]
theorem length_encode (width number : ℕ) : (encode width number).length = width := by
  induction width generalizing number with
  | zero => rfl
  | succ width ih =>
    rw [encode, List.length_append, ih, List.length_singleton]

/-- The string of a number stands for that number, cut to the width. -/
theorem value_encode (width number : ℕ) : value (encode width number) = number % 256 ^ width := by
  induction width generalizing number with
  | zero => rw [encode, value_nil, pow_zero, Nat.mod_one]
  | succ width ih =>
    have hsplit : number % 256 ^ (width + 1) =
        number % 256 + 256 * (number / 256 % 256 ^ width) := by
      rw [pow_succ', Nat.mod_mul]
    rw [encode, value_concat, ih, UInt8.toNat_ofNat', hsplit]
    omega

theorem value_encode_of_lt {width number : ℕ} (hfits : number < 256 ^ width) :
    value (encode width number) = number := by
  rw [value_encode, Nat.mod_eq_of_lt hfits]

end AuraLite.BigEndian

import Mathlib.Tactic.NormNum

/-!
# Sequence arithmetic

Places of a byte stream are counted without bound; a sequence number is a place modulo
`2 ^ 32`.  Differences of sequence numbers tell places apart as long as these are less
than half the modulus from each other.
-/

namespace AuraLite.SeqArith

/-- The sequence number of a place. -/
def seq (place : ℕ) : ℕ := place % 2 ^ 32

/-- `a - b` as an unsigned number. -/
def minus (a b : ℕ) : ℕ := (a + 2 ^ 32 - b) % 2 ^ 32

/-- `a - b` as a signed number. -/
def diff (a b : ℕ) : ℤ := if minus a b < 2 ^ 31 then minus a b else minus a b - 2 ^ 32

variable {x y : ℕ}

theorem seq_add (x y : ℕ) : seq (seq x + y) = seq (x + y) := Nat.mod_add_mod x (2 ^ 32) y

theorem seq_lt (x : ℕ) : seq x < 2 ^ 32 := Nat.mod_lt x (by norm_num)

theorem seq_of_lt (h : x < 2 ^ 32) : seq x = x := Nat.mod_eq_of_lt h

/-- Within one turn, sequence numbers tell places apart. -/
theorem eq_of_seq_eq (hseq : seq x = seq y) (hx : x < y + 2 ^ 32) (hy : y < x + 2 ^ 32) :
    x = y := by
  rw [seq, seq] at hseq
  omega

theorem minus_seq (hle : y ≤ x) (hnear : x < y + 2 ^ 32) : minus (seq x) (seq y) = x - y := by
  rw [minus, seq, seq]
  omega

theorem minus_seq_behind (hlt : x < y) (hnear : y ≤ x + 2 ^ 32) :
    minus (seq x) (seq y) = x + 2 ^ 32 - y := by
  rw [minus, seq, seq]
  omega

/-- The signed difference of near places. -/
theorem diff_seq (hx : x < y + 2 ^ 31) (hy : y < x + 2 ^ 31) : diff (seq x) (seq y) = x - y := by
  rw [diff]
  rcases Nat.lt_or_ge x y with hlt | hle
  · rw [minus_seq_behind hlt (by omega), if_neg (by omega)]
    omega
  · rw [minus_seq hle (by omega), if_pos (by omega)]
    omega

end AuraLite.SeqArith

import Mathlib.Data.Nat.Bitwise
import AuraLite.Lib.ByteMemory

/-!
# The frame bitmap

The header-only bitmap of `bitmap.h`.  A set bit means that the frame is in
use.  The searches are the loops of the source: the first free bit is looked
for byte by byte with a separate pass over the tail, and a run of free bits is
found in one pass that carries the length and the start of the current run.
-/

namespace AuraLite.Bitmap

open List ByteMemory Function

def bmSet (m : Mem) (bm i : ℕ) : Mem :=
  Function.update m (bm + i / 8) (lowByte ((m (bm + i / 8) : ℕ) ||| 1 <<< (i % 8)))

def bmClear (m : Mem) (bm i : ℕ) : Mem :=
  Function.update m (bm + i / 8)
    (lowByte ((m (bm + i / 8) : ℕ) &&& (255 ^^^ 1 <<< (i % 8))))

def bmTest (m : Mem) (bm i : ℕ) : Bool :=
  Nat.testBit (m (bm + i / 8)) (i % 8)

/-- The loop over the bits of byte `b` in `bm_first_free`. -/
def firstFreeInByte (m : Mem) (bm nframes b : ℕ) : Option ℕ :=
  (range 8).findSome? fun bit =>
    if Nat.testBit (m (bm + b)) bit = false ∧ b * 8 + bit < nframes then
      some (b * 8 + bit)
    else none

/-- `bm_first_free`; `none` stands for `-1`. -/
def bmFirstFree (m : Mem) (bm nframes : ℕ) : Option ℕ :=
  let fullBytes := nframes / 8
  let found := (range fullBytes).findSome? fun b =>
    if m (bm + b) ≠ 255 then firstFreeInByte m bm nframes b else none
  match found with
  | some idx => some idx
  | none =>
    (range' (fullBytes * 8) (nframes - fullBytes * 8)).find? fun idx =>
      !bmTest m bm idx

/-- The loop of `bm_find_contiguous` over the bits from `i` on, with its two
accumulators. -/
def findRun (m : Mem) (bm count : ℕ) : ℕ → ℕ → ℕ → ℕ → Option ℕ
  | 0, _, _, _ => none
  | left + 1, i, run, runStart =>
    if bmTest m bm i = false then
      let runStart := if run = 0 then i else runStart
      if count ≤ run + 1 then some runStart
      else findRun m bm count left (i + 1) (run + 1) runStart
    else findRun m bm count left (i + 1) 0 runStart

/-- `bm_find_contiguous`; `none` stands for `-1`. -/
def bmFindContiguous (m : Mem) (bm nframes count : ℕ) : Option ℕ :=
  if count = 0 then some 0 else findRun m bm count nframes 0 0 0

/-! ## Single bits -/

theorem one_shiftLeft_lt {k : ℕ} (hk : k < 8) : 1 <<< k < 2 ^ 8 := by
  rw [Nat.one_shiftLeft]
  exact Nat.pow_lt_pow_right (by omega) hk

theorem lowByte_val {value : ℕ} (hvalue : value < 2 ^ 8) : (lowByte value : ℕ) = value :=
  Nat.mod_eq_of_lt hvalue

theorem testBit_shift (k j : ℕ) : Nat.testBit (1 <<< k) j = decide (k = j) := by
  rw [Nat.one_shiftLeft, Nat.testBit_two_pow]

theorem testBit_ones {k : ℕ} (hk : k < 8) : Nat.testBit 255 k = true := by
  rw [show 255 = 2 ^ 8 - 1 from rfl, Nat.testBit_two_pow_sub_one]
  exact decide_eq_true hk

theorem bmTest_write (m : Mem) (bm i j : ℕ) {byte : ℕ} {b : Bool} (hbyte : byte < 256)
    (hbits : ∀ k < 8, byte.testBit k = if k = i % 8 then b else (m (bm + i / 8)).val.testBit k) :
    bmTest (Function.update m (bm + i / 8) (lowByte byte)) bm j =
      if j = i then b else bmTest m bm j := by
  rw [bmTest, bmTest]
  by_cases hsame : j / 8 = i / 8
  · rw [hsame, update_self, lowByte_val hbyte, hbits _ (Nat.mod_lt _ (by omega))]
    exact if_congr (by omega) rfl rfl
  · rw [update_of_ne (by omega), if_neg (by omega)]

theorem bmTest_bmSet (m : Mem) (bm i j : ℕ) :
    bmTest (bmSet m bm i) bm j = if j = i then true else bmTest m bm j := by
  have hbit : i % 8 < 8 := Nat.mod_lt _ (by omega)
  apply bmTest_write m bm i j
    (Nat.or_lt_two_pow (m (bm + i / 8)).isLt (one_shiftLeft_lt hbit))
  intro k _
  rw [Nat.testBit_or, testBit_shift]
  split_ifs with hsame
  · simp [hsame]
  · simp [Ne.symm hsame]

theorem bmTest_bmClear (m : Mem) (bm i j : ℕ) :
    bmTest (bmClear m bm i) bm j = if j = i then false else bmTest m bm j := by
  apply bmTest_write m bm i j (lt_of_le_of_lt Nat.and_le_left (m (bm + i / 8)).isLt)
  intro k hk
  rw [Nat.testBit_and, Nat.testBit_xor, testBit_shift, testBit_ones hk]
  split_ifs with hsame
  · simp [hsame]
  · simp [Ne.symm hsame]

variable {m : Mem} {bm : ℕ}
variable {i nframes idx k x b count : ℕ}

theorem bmSet_outside (hx : x ≠ bm + i / 8) : bmSet m bm i x = m x :=
  update_of_ne hx _ _

theorem bmClear_outside (hx : x ≠ bm + i / 8) : bmClear m bm i x = m x :=
  update_of_ne hx _ _

theorem bmTest_congr {m' : Mem} (hagree : m (bm + i / 8) = m' (bm + i / 8)) :
    bmTest m bm i = bmTest m' bm i := by
  rw [bmTest, bmTest, hagree]

/-! ## The searches -/

theorem findSome?_congr {α β : Type*} {f g : α → Option β} {l : List α}
    (hagree : ∀ a ∈ l, f a = g a) : l.findSome? f = l.findSome? g := by
  induction l with
  | nil => rfl
  | cons a l ih =>
    rw [findSome?_cons, findSome?_cons, hagree a (by simp),
      ih fun b hb => hagree b (mem_cons_of_mem a hb)]

theorem find?_byte_full (hfull : m (bm + b) = 255) :
    (range' (b * 8) 8).find? (fun i => !bmTest m bm i) = none := by
  rw [find?_eq_none]
  intro i hi
  rw [mem_range'_1] at hi
  have hbyte : i / 8 = b := by omega
  have hset : bmTest m bm i = true := by
    rw [bmTest, hbyte, hfull]
    exact testBit_ones (Nat.mod_lt _ (by omega))
  simp [hset]

theorem firstFreeInByte_eq (hb : b * 8 + 8 ≤ nframes) :
    firstFreeInByte m bm nframes b = (range' (b * 8) 8).find? fun i => !bmTest m bm i := by
  rw [firstFreeInByte, range'_eq_map_range, ← findSome?_guard, findSome?_map]
  apply findSome?_congr
  intro bit hbit
  have hlt : bit < 8 := mem_range.mp hbit
  have hbyte : (b * 8 + bit) / 8 = b := by omega
  have hmod : (b * 8 + bit) % 8 = bit := by omega
  have hbound : b * 8 + bit < nframes := by omega
  simp only [comp_apply, Option.guard, bmTest, hbyte, hmod, hbound,
    and_true, Bool.not_eq_true']

/-- The byte scan is a scan of the bits of the whole bytes. -/
theorem findSome?_bytes {full : ℕ} (hfull : full * 8 ≤ nframes) :
    ((range full).findSome? fun b =>
      if m (bm + b) ≠ 255 then firstFreeInByte m bm nframes b else none) =
        (range (full * 8)).find? fun i => !bmTest m bm i := by
  induction full with
  | zero => rfl
  | succ full ih =>
    have hsplit : range ((full + 1) * 8) =
        range (full * 8) ++ range' (full * 8) 8 := by
      rw [range_eq_range', range_eq_range', Nat.succ_mul, ← range'_append_1, Nat.zero_add]
    rw [range_succ, findSome?_append, ih (by omega), hsplit, find?_append]
    congr 1
    rw [findSome?_singleton]
    by_cases hbyte : m (bm + full) = 255
    · rw [if_neg (not_not.mpr hbyte), find?_byte_full hbyte]
    · rw [if_pos hbyte, firstFreeInByte_eq (by omega)]

/-- `bm_first_free` returns the least clear bit. -/
theorem bmFirstFree_eq (m : Mem) (bm nframes : ℕ) : bmFirstFree m bm nframes =
      (range nframes).find? fun i => !bmTest m bm i := by
  have hfull : nframes / 8 * 8 ≤ nframes := Nat.div_mul_le_self nframes 8
  have hsplit : range nframes = range (nframes / 8 * 8) ++
      range' (nframes / 8 * 8) (nframes - nframes / 8 * 8) := by
    rw [range_eq_range', range_eq_range']
    have happend := @range'_append_1 0 (nframes / 8 * 8) (nframes - nframes / 8 * 8)
    rw [Nat.zero_add, Nat.add_sub_cancel' hfull] at happend
    exact happend.symm
  rw [bmFirstFree, findSome?_bytes hfull, hsplit, find?_append]
  cases (range (nframes / 8 * 8)).find? fun i => !bmTest m bm i with
  | none => rfl
  | some idx => rfl

theorem bmFirstFree_some (hfound : bmFirstFree m bm nframes = some idx) :
    idx < nframes ∧ bmTest m bm idx = false ∧ ∀ j < idx, bmTest m bm j = true := by
  rw [bmFirstFree_eq, find?_range_eq_some, mem_range] at hfound
  simp only [Bool.not_eq_true', Bool.not_not] at hfound
  exact ⟨hfound.2.1, hfound.1, hfound.2.2⟩

/-- The loop keeps a run of `run` clear bits that ends just before `i`. -/
theorem findRun_spec {left run runStart : ℕ} (hrun : run ≠ 0 → runStart + run = i)
    (hclear : ∀ j < run, bmTest m bm (runStart + j) = false) (hshort : run < count)
    (hfound : findRun m bm count left i run runStart = some idx) :
    idx + count ≤ i + left ∧ ∀ j < count, bmTest m bm (idx + j) = false := by
  induction left generalizing i run runStart with
  | zero => cases hfound
  | succ left ih =>
    rw [findRun] at hfound
    split at hfound
    · rename_i hbit
      have hstart : (if run = 0 then i else runStart) + run = i := by
        split_ifs with hzero
        · rw [hzero, Nat.add_zero]
        · exact hrun hzero
      have hclear' : ∀ j < run + 1,
          bmTest m bm ((if run = 0 then i else runStart) + j) = false := by
        intro j hj
        by_cases hlast : j = run
        · rw [hlast, hstart]
          exact hbit
        · rw [if_neg (by omega : ¬run = 0)]
          exact hclear j (by omega)
      by_cases hdone : count ≤ run + 1
      · simp only [hdone, if_true, Option.some.injEq] at hfound
        rw [← hfound]
        exact ⟨by omega, fun j hj => hclear' j (by omega)⟩
      · simp only [hdone, if_false] at hfound
        have hnext := ih (fun _ => by omega) hclear' (by omega) hfound
        exact ⟨by omega, hnext.2⟩
    · have hnext := ih (fun hne => absurd rfl hne)
        (fun j hj => absurd hj (Nat.not_lt_zero j)) (by omega) hfound
      exact ⟨by omega, hnext.2⟩

theorem bmFindContiguous_some (hcount : count ≠ 0)
    (hfound : bmFindContiguous m bm nframes count = some idx) :
    idx + count ≤ nframes ∧ ∀ j < count, bmTest m bm (idx + j) = false := by
  rw [bmFindContiguous, if_neg hcount] at hfound
  have hspec := findRun_spec (fun hne => absurd rfl hne)
    (fun j hj => absurd hj (Nat.not_lt_zero j)) (Nat.pos_of_ne_zero hcount) hfound
  rwa [Nat.zero_add] at hspec

end AuraLite.Bitmap

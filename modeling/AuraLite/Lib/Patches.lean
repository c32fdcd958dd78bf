import Mathlib.Data.Finset.Card

/-!
# Patches

A patch puts a few values at a place of a sequence.  In a list of patches the first one
that covers a position decides the value there.
-/

namespace AuraLite.Patches

variable {α : Type*}

structure Patch (α : Type*) where
  off : ℕ
  values : List α
deriving DecidableEq

/-- The value that the patch gives to a position. -/
def Patch.valueAt (p : Patch α) (i : ℕ) : Option α :=
  if p.off ≤ i then p.values[i - p.off]? else none

/-- The first position behind the patch. -/
def Patch.stop (p : Patch α) : ℕ := p.off + p.values.length

/-- The value of a position in a list of patches. -/
def first (patches : List (Patch α)) (i : ℕ) : Option α :=
  patches.findSome? fun p => p.valueAt i

variable {p : Patch α} {patches : List (Patch α)} {i : ℕ} {a : α}

theorem valueAt_isSome : (p.valueAt i).isSome ↔ p.off ≤ i ∧ i < p.stop := by
  rw [Patch.valueAt, Patch.stop]
  split_ifs with hoff
  · rw [isSome_getElem?, ← Nat.sub_lt_iff_lt_add' hoff]
    exact (and_iff_right hoff).symm
  · exact ⟨fun h => (Bool.false_ne_true h).elim, fun h => (hoff h.1).elim⟩

theorem valueAt_nil (off i : ℕ) : Patch.valueAt ⟨off, ([] : List α)⟩ i = none := by
  rw [Patch.valueAt, List.getElem?_nil, ite_self]

/-- The head of a patch and the patch behind it. -/
theorem valueAt_cons (off : ℕ) (values : List α) : Patch.valueAt ⟨off, a :: values⟩ i =
      if i = off then some a else Patch.valueAt ⟨off + 1, values⟩ i := by
  rw [Patch.valueAt, Patch.valueAt]
  by_cases hhere : i = off
  · rw [if_pos hhere, if_pos (Nat.le_of_eq hhere.symm), hhere, Nat.sub_self, List.getElem?_cons_zero]
  · rw [if_neg hhere]
    by_cases hbehind : off + 1 ≤ i
    · rw [if_pos hbehind, if_pos (Nat.le_of_succ_le hbehind), ← Nat.sub_sub,
        ← Nat.succ_pred_eq_of_pos (Nat.sub_pos_of_lt hbehind), List.getElem?_cons_succ]
      rfl
    · rw [if_neg hbehind, if_neg]
      exact fun hle => hbehind (Nat.lt_of_le_of_ne hle (Ne.symm hhere))

theorem first_append (patches : List (Patch α)) (p : Patch α) (i : ℕ) :
    first (patches ++ [p]) i = (first patches i).or (p.valueAt i) := by
  rw [first, first, List.findSome?_append, List.findSome?_cons, List.findSome?_nil]
  cases p.valueAt i with
  | none => rfl
  | some value => rfl

theorem first_isSome : (first patches i).isSome ↔ ∃ p ∈ patches, p.off ≤ i ∧ i < p.stop := by
  rw [first, List.findSome?_isSome_iff]
  constructor
  · rintro ⟨p, hp, hsome⟩
    exact ⟨p, hp, valueAt_isSome.mp hsome⟩
  · rintro ⟨p, hp, hin⟩
    exact ⟨p, hp, valueAt_isSome.mpr hin⟩

/-- A value of a list of patches is one of a patch. -/
theorem exists_of_first (h : first patches i = some a) : ∃ p ∈ patches, p.valueAt i = some a :=
  List.exists_of_findSome?_eq_some h

/-! ## Filling up -/

/-- Positions below `n` are all marked when there are `n` marks and none is at `n` or
above. -/
theorem marked_of_card {marks : Finset ℕ} {n : ℕ} (hbelow : ∀ i ∈ marks, i < n)
    (hcard : marks.card = n) : marks = Finset.range n := by
  apply Finset.eq_of_subset_of_card_le
  · exact fun i hi => Finset.mem_range.mpr (hbelow i hi)
  · rw [Finset.card_range, hcard]

end AuraLite.Patches

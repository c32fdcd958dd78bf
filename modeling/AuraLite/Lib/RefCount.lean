import Mathlib.Data.List.Count
import Mathlib.Data.Nat.Basic
import Mathlib.Data.List.Perm.Basic
import Mathlib.Order.Basic

/-!
# Reference counts and their owners

Counters over arbitrary resources, with the operations of a reference-counting
allocator.  `Covers` says that every owner is backed by a count of its own,
`Exact` that there are no other counts.  An operation on a counter keeps either
of them when the owners move along with it.
-/

namespace AuraLite.RefCount

open List Function

variable {α β : Type*} [DecidableEq α] {refs owners owners' : α → ℕ} {a x : α}

/-- Take one more reference. -/
def retain (refs : α → ℕ) (a : α) : α → ℕ := Function.update refs a (refs a + 1)

/-- Take one more reference in a counter that wraps at `bound`. -/
def retainMod (bound : ℕ) (refs : α → ℕ) (a : α) : α → ℕ :=
  Function.update refs a ((refs a + 1) % bound)

/-- Drop one reference. -/
def release (refs : α → ℕ) (a : α) : α → ℕ := Function.update refs a (refs a - 1)

/-- The first reference to a free resource. -/
def fresh (refs : α → ℕ) (a : α) : α → ℕ := Function.update refs a 1

/-- Every owner is backed by a count of its own. -/
def Covers (refs owners : α → ℕ) : Prop := ∀ x, owners x ≤ refs x

/-- The counts are the numbers of owners. -/
def Exact (refs owners : α → ℕ) : Prop := ∀ x, refs x = owners x

theorem count_single_of_ne (hne : x ≠ a) : [a].count x = 0 :=
  count_eq_zero_of_not_mem fun h => hne (List.mem_singleton.mp h)

theorem retain_apply (refs : α → ℕ) (a x : α) : retain refs a x = refs x + [a].count x := by
  by_cases hx : x = a
  · subst hx
    simp [retain]
  · simp [retain, update_of_ne hx, Ne.symm hx]

theorem retainMod_of_lt {bound : ℕ} (hroom : refs a + 1 < bound) :
    retainMod bound refs a = retain refs a := by
  rw [retainMod, Nat.mod_eq_of_lt hroom, retain]

theorem release_apply (refs : α → ℕ) (a x : α) : release refs a x = refs x - [a].count x := by
  by_cases hx : x = a
  · subst hx
    simp [release]
  · simp [release, update_of_ne hx, Ne.symm hx]

theorem fresh_apply (hfree : refs a = 0) (x : α) : fresh refs a x = refs x + [a].count x := by
  by_cases hx : x = a
  · subst hx
    simp [fresh, hfree]
  · simp [fresh, update_of_ne hx, Ne.symm hx]

/-! ## Owners that move with the counts -/

section

variable (hcovers : Covers refs owners)
include hcovers

omit [DecidableEq α] in
theorem Covers.mono (hle : ∀ x, owners' x ≤ owners x) : Covers refs owners':=
  fun x => (hle x).trans (hcovers x)

theorem Covers.retain (hadd : ∀ x, owners' x ≤ owners x + [a].count x) :
    Covers (retain refs a) owners' := by
  intro x
  rw [retain_apply]
  exact (hadd x).trans (Nat.add_le_add_right (hcovers x) _)

theorem Covers.release (hdrop : ∀ x, owners' x + [a].count x ≤ owners x) :
    Covers (release refs a) owners' := by
  intro x
  rw [release_apply]
  exact Nat.le_sub_of_add_le ((hdrop x).trans (hcovers x))

theorem Covers.fresh (hfree : refs a = 0) (hadd : ∀ x, owners' x ≤ owners x + [a].count x) :
    Covers (fresh refs a) owners' := by
  intro x
  rw [fresh_apply hfree]
  exact (hadd x).trans (Nat.add_le_add_right (hcovers x) _)

end

omit [DecidableEq α] in
theorem Exact.congr (hexact : Exact refs owners)
    (hsame : ∀ x, owners' x = owners x) : Exact refs owners' :=
  fun x => (hexact x).trans (hsame x).symm

theorem Exact.retain (hexact : Exact refs owners) (hadd : ∀ x, owners' x = owners x + [a].count x) :
    Exact (retain refs a) owners' := by
  intro x
  rw [retain_apply, hexact x, hadd x]

theorem Exact.fresh (hexact : Exact refs owners) (hfree : refs a = 0)
    (hadd : ∀ x, owners' x = owners x + [a].count x) :
    Exact (fresh refs a) owners' := by
  intro x
  rw [fresh_apply hfree, hexact x, hadd x]

/-- One reference is taken, made or dropped, or none, and the owners move with
it. -/
inductive Moves (refs refs' owners owners' : α → ℕ) : Prop
  | same (hrefs : refs' = refs) (hle : ∀ x, owners' x ≤ owners x)
  | retain (a : α) (hrefs : refs' = RefCount.retain refs a)
      (hadd : ∀ x, owners' x ≤ owners x + [a].count x)
  | fresh (a : α) (hfree : refs a = 0) (hrefs : refs' = RefCount.fresh refs a)
      (hadd : ∀ x, owners' x ≤ owners x + [a].count x)
  | release (a : α) (hrefs : refs' = RefCount.release refs a)
      (hdrop : ∀ x, owners' x + [a].count x ≤ owners x)

theorem Moves.covers {refs' : α → ℕ} (hmoves : Moves refs refs' owners owners')
    (hcovers : Covers refs owners) : Covers refs' owners' := by
  cases hmoves with
  | same hrefs hle => exact hrefs ▸ hcovers.mono hle
  | retain a hrefs hadd => exact hrefs ▸ hcovers.retain hadd
  | fresh a hfree hrefs hadd => exact hrefs ▸ hcovers.fresh hfree hadd
  | release a hrefs hdrop => exact hrefs ▸ hcovers.release hdrop

/-- Owners that a step does not touch can be left out of the account. -/
theorem Moves.cancel {refs' rest total : α → ℕ}
    (hmoves : Moves refs refs' (fun x => owners x + rest x) total)
    (htotal : ∀ x, owners' x + rest x = total x) :
    Moves refs refs' owners owners' := by
  cases hmoves with
  | same hrefs hle =>
    refine .same hrefs fun x => ?_
    have := htotal x
    have := hle x
    omega
  | retain a hrefs hadd =>
    refine .retain a hrefs fun x => ?_
    have := htotal x
    have := hadd x
    omega
  | fresh a hfree hrefs hadd =>
    refine .fresh a hfree hrefs fun x => ?_
    have := htotal x
    have := hadd x
    omega
  | release a hrefs hdrop =>
    refine .release a hrefs fun x => ?_
    have := htotal x
    have := hdrop x
    omega

/-! ## Counting owners kept in lists -/

theorem count_cons_single (a : α) (l : List α) (x : α) :
    (a :: l).count x = [a].count x + l.count x := by
  rw [← singleton_append, count_append]

/-- Drop one reference for each element of a list. -/
theorem foldl_release (l : List α) (refs : α → ℕ) (x : α) :
    l.foldl RefCount.release refs x = refs x - l.count x := by
  induction l generalizing refs with
  | nil => rfl
  | cons a l ih =>
    rw [foldl_cons, ih, release_apply, count_cons_single a l x, Nat.sub_sub]

variable {l : List α}

theorem Exact.releaseAll (hexact : Exact refs owners)
    (hdrop : ∀ x, owners' x + l.count x = owners x) :
    Exact (l.foldl RefCount.release refs) owners' := by
  intro x
  rw [foldl_release, hexact x, ← hdrop x, Nat.add_sub_cancel]

theorem Covers.releaseAll (hcovers : Covers refs owners)
    (hdrop : ∀ x, owners' x + l.count x ≤ owners x) :
    Covers (l.foldl RefCount.release refs) owners' := by
  intro x
  rw [foldl_release]
  exact Nat.le_sub_of_add_le ((hdrop x).trans (hcovers x))

/-- The first references to distinct free resources. -/
theorem Covers.freshAll (hcovers : Covers refs owners) (hnodup : l.Nodup)
    (hfree : ∀ a ∈ l, refs a = 0) (hadd : ∀ x, owners' x ≤ owners x + l.count x) :
    Covers (l.foldl RefCount.fresh refs) owners' := by
  induction l generalizing refs owners with
  | nil => exact hcovers.mono hadd
  | cons a l ih =>
    obtain ⟨hnot, hrest⟩ := List.nodup_cons.mp hnodup
    have hfirst : Covers (RefCount.fresh refs a) fun x => owners x + [a].count x :=
      hcovers.fresh (hfree a mem_cons_self) fun x => le_rfl
    refine ih hfirst hrest ?_ fun x => ?_
    · intro b hb
      have hne : b ≠ a := fun heq => hnot (heq ▸ hb)
      rw [RefCount.fresh, update_of_ne hne]
      exact hfree b (mem_cons_of_mem a hb)
    · have hcons := count_cons_single a l x
      have := hadd x
      omega

/-- One more reference for each element of a list, below the bound of the
counter. -/
theorem Covers.retainAll {bound : ℕ} (hcovers : Covers refs owners)
    (hroom : ∀ a ∈ l, refs a + l.length < bound)
    (hadd : ∀ x, owners' x ≤ owners x + l.count x) :
    Covers (l.foldl (retainMod bound) refs) owners' := by
  induction l generalizing refs owners with
  | nil => exact hcovers.mono hadd
  | cons a l ih =>
    have hlength : (a :: l).length = l.length + 1 := rfl
    have hstep : retainMod bound refs a = RefCount.retain refs a :=
      retainMod_of_lt (by have := hroom a mem_cons_self; omega)
    have hfirst : Covers (RefCount.retain refs a) fun x => owners x + [a].count x :=
      hcovers.retain fun x => le_rfl
    rw [foldl_cons, hstep]
    refine ih hfirst ?_ fun x => ?_
    · intro b hb
      have hle : [a].count b ≤ 1 := count_le_length
      have := hroom b (mem_cons_of_mem a hb)
      rw [retain_apply]
      omega
    · have hcons := count_cons_single a l x
      have := hadd x
      omega

theorem count_eraseIdx {k : ℕ} (hk : l[k]? = some a) (x : α) :
    (l.eraseIdx k).count x + [a].count x = l.count x := by
  obtain ⟨hlt, hget⟩ := List.getElem?_eq_some_iff.mp hk
  have hcount := (getElem_cons_eraseIdx_perm hlt).count_eq x
  rw [hget, count_cons_single] at hcount
  rw [← hcount, Nat.add_comm]

variable (owned : β → List α)

theorem count_flatMap_cons (b : β) (l : List β) (x : α) :
    ((b :: l).flatMap owned).count x = (owned b).count x + (l.flatMap owned).count x := by
  rw [flatMap_cons, count_append]

theorem count_flatMap_eraseIdx {l : List β} {k : ℕ} {b : β} (hk : l[k]? = some b) (x : α) :
    ((l.eraseIdx k).flatMap owned).count x + (owned b).count x = (l.flatMap owned).count x := by
  obtain ⟨hlt, hget⟩ := List.getElem?_eq_some_iff.mp hk
  have hperm := (getElem_cons_eraseIdx_perm hlt).flatMap_right owned
  rw [← hperm.count_eq x, hget, count_flatMap_cons, Nat.add_comm]

theorem count_flatMap_set {l : List β} {k : ℕ} {b c : β} (hk : l[k]? = some b) (x : α) :
    ((l.set k c).flatMap owned).count x + (owned b).count x =
      (l.flatMap owned).count x + (owned c).count x := by
  obtain ⟨hlt, hget⟩ := List.getElem?_eq_some_iff.mp hk
  have hperm := (set_perm_cons_eraseIdx hlt c).flatMap_right owned
  rw [hperm.count_eq x, count_flatMap_cons, ← count_flatMap_eraseIdx owned hk x]
  omega

end AuraLite.RefCount

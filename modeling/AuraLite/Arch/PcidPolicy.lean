import Mathlib.Algebra.Group.Nat.Defs
import Mathlib.Logic.Function.Basic
import Mathlib.Data.Nat.Basic

/-!
# The PCID policy

The slot table of one CPU: which address space owns a PCID and under which generation
it claimed it.  An address space may be entered without a flush only while its claim is
of the current generation.
-/

namespace AuraLite.Pcid

open Function (update update_self update_of_ne)

/-- `struct pcid_cpu_state`.  Address spaces are named by the address of their PML4;
`0` owns nothing. -/
structure Policy where
  owner : ℕ → ℕ
  genOf : ℕ → ℕ
  curGen : ℕ

def pcidPolicySlot (pml4 : ℕ) : ℕ := 1 + (pml4 >>> 12) % 255

/-- The slot of an address space; the kernel's is 0. -/
def slotOf (kernel pml4 : ℕ) : ℕ := if pml4 = kernel then 0 else pcidPolicySlot pml4

/-- The space owns the slot under the current generation. -/
def Policy.Right (st : Policy) (slot pml4 : ℕ) : Prop :=
  st.owner slot = pml4 ∧ st.genOf slot = st.curGen

instance (st : Policy) (slot pml4 : ℕ) : Decidable (st.Right slot pml4) :=
  inferInstanceAs (Decidable (_ ∧ _))

def Policy.claim (st : Policy) (slot pml4 : ℕ) : Policy :=
  { st with
    owner := update st.owner slot pml4
    genOf := update st.genOf slot st.curGen }

/-- `pcid_policy_enter`; the first part is `true` for `PCID_ENTRY_NOFLUSH`. -/
def Policy.enter (st : Policy) (slot pml4 : ℕ) : Bool × Policy :=
  if st.Right slot pml4 then (true, st) else (false, st.claim slot pml4)

/-- `pcid_policy_gen_bump`. -/
def Policy.genBump (st : Policy) : Policy := { st with curGen := (st.curGen + 1) % 2 ^ 32 }

/-- `pcid_policy_deown`. -/
def Policy.deown (st : Policy) (slot pml4 : ℕ) : Policy :=
  if st.owner slot = pml4 then { st with owner := update st.owner slot 0 } else st

/-- `pcid_policy_sender_skip`. -/
def Policy.senderSkip (st : Policy) (slot victim target : ℕ) : Bool :=
  if target = victim then false else decide (¬ st.Right slot victim)

variable {st : Policy} {slot slot' pml4 other : ℕ}

theorem enter_of_right (hright : st.Right slot pml4) : st.enter slot pml4 = (true, st) := by
  rw [Policy.enter, if_pos hright]

theorem enter_of_not_right (hright : ¬ st.Right slot pml4) :
    st.enter slot pml4 = (false, st.claim slot pml4) := by
  rw [Policy.enter, if_neg hright]

/-- A claim gives its slot to the new owner and leaves the others alone. -/
theorem right_claim : (st.claim slot pml4).Right slot' other ↔
    if slot' = slot then other = pml4 else st.Right slot' other := by
  rw [Policy.Right, Policy.claim]
  simp only
  split_ifs with hslot
  · rw [hslot, update_self, update_self]
    exact ⟨fun h => h.1.symm, fun h => ⟨h.symm, rfl⟩⟩
  · rw [update_of_ne hslot, update_of_ne hslot]
    exact .rfl

theorem Policy.Right.of_deown (hpml4 : other ≠ 0)
    (hright : (st.deown slot pml4).Right slot' other) : st.Right slot' other := by
  rw [Policy.deown] at hright
  split_ifs at hright with howner
  · by_cases hslot : slot' = slot
    · rw [hslot, Policy.Right] at hright
      simp only [update_self] at hright
      exact absurd hright.1.symm hpml4
    · rw [Policy.Right] at hright
      simp only [update_of_ne hslot] at hright
      exact hright
  · exact hright

/-- A space that was made to give up its slot has no right. -/
theorem not_right_deown (hpml4 : pml4 ≠ 0) : ¬ (st.deown slot pml4).Right slot pml4 := by
  intro hright
  have hold := hright.of_deown hpml4
  rw [Policy.deown, if_pos hold.1, Policy.Right] at hright
  simp only [update_self] at hright
  exact hpml4 hright.1.symm

/-- No slot carries the next generation already. -/
def Policy.Fresh (st : Policy) : Prop :=
  ∀ slot, st.owner slot ≠ 0 → st.genOf slot ≠ (st.curGen + 1) % 2 ^ 32

/-- A new generation revokes every right. -/
theorem not_right_genBump (hfresh : st.Fresh) (hpml4 : pml4 ≠ 0) :
    ¬ st.genBump.Right slot pml4 := by
  rintro ⟨howner, hgen⟩
  have howner' : st.owner slot = pml4 := howner
  exact hfresh slot (howner'.trans_ne hpml4) hgen

end AuraLite.Pcid

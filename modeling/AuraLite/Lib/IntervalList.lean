import Mathlib.Data.List.Pairwise
import Mathlib.Data.List.Sort

/-!
# Ordered lists of intervals

Lists whose elements carry a half-open interval `[lo a, hi a)`, each one ending
before the next begins.  Inserting an interval that meets none of the list and
replacing intervals by pieces of themselves keep such a list ordered.
-/

namespace AuraLite.IntervalList

open List

variable {α β : Type*} [LinearOrder β] {lo hi : α → β} {l r : List α} {a x : α}

/-- The intervals are not empty and each one ends before the next begins. -/
structure Ordered (lo hi : α → β) (l : List α) : Prop where
  apart : l.Pairwise fun a b => hi a ≤ lo b
  nonempty : ∀ a ∈ l, lo a < hi a

/-- The interval of `a` lies on one side of `[low, high)`. -/
def Clear (lo hi : α → β) (low high : β) (a : α) : Prop :=
  hi a ≤ low ∨ high ≤ lo a

/-- The interval of `x` is a part of the interval of `a`. -/
def Within (lo hi : α → β) (x a : α) : Prop := lo a ≤ lo x ∧ hi x ≤ hi a

theorem Ordered.nil : Ordered lo hi [] := ⟨List.Pairwise.nil, by simp⟩

theorem ordered_cons : Ordered lo hi (a :: l) ↔
      lo a < hi a ∧ (∀ b ∈ l, hi a ≤ lo b) ∧ Ordered lo hi l := by
  constructor
  · rintro ⟨hapart, hnonempty⟩
    obtain ⟨hhead, htail⟩ := pairwise_cons.mp hapart
    exact ⟨hnonempty a mem_cons_self, hhead, htail,
      fun b hb => hnonempty b (mem_cons_of_mem a hb)⟩
  · rintro ⟨ha, hhead, htail⟩
    exact ⟨pairwise_cons.mpr ⟨hhead, htail.apart⟩,
      forall_mem_cons.mpr ⟨ha, htail.nonempty⟩⟩

theorem Ordered.sublist (hr : Ordered lo hi r) (hsub : l.Sublist r) : Ordered lo hi l :=
  ⟨hr.apart.sublist hsub, fun a ha => hr.nonempty a (hsub.mem ha)⟩

theorem Ordered.append (hl : Ordered lo hi l) (hr : Ordered lo hi r)
    (hcross : ∀ a ∈ l, ∀ b ∈ r, hi a ≤ lo b) : Ordered lo hi (l ++ r) :=
  ⟨pairwise_append.mpr ⟨hl.apart, hr.apart, hcross⟩, fun a ha =>
    (mem_append.mp ha).elim (hl.nonempty a) (hr.nonempty a)⟩

theorem Ordered.sorted (hl : Ordered lo hi l) : l.Pairwise fun a b => lo a < lo b :=
  hl.apart.imp_of_mem fun ha _ hab => (hl.nonempty _ ha).trans_le hab

/-- An interval that meets none of the list goes before the first one that does
not begin below it. -/
theorem Ordered.insert (hl : Ordered lo hi l) (hx : lo x < hi x)
    (hclear : ∀ a ∈ l, Clear lo hi (lo x) (hi x) a) :
    Ordered lo hi (l.orderedInsert (fun b a => lo b ≤ lo a) x) := by
  induction l with
  | nil => exact ordered_cons.mpr ⟨hx, by simp, .nil⟩
  | cons a l ih =>
    obtain ⟨ha, hhead, htail⟩ := ordered_cons.mp hl
    have hside := hclear a mem_cons_self
    have hrest := ih htail fun b hb => hclear b (mem_cons_of_mem a hb)
    by_cases hbefore : lo x ≤ lo a
    · have hxa : hi x ≤ lo a := by
        refine hside.resolve_left fun hleft => ?_
        exact absurd (ha.trans_le hleft) (not_lt.mpr hbefore)
      rw [orderedInsert_cons, if_pos hbefore]
      refine ordered_cons.mpr ⟨hx, ?_, hl⟩
      intro b hb
      rcases mem_cons.mp hb with rfl | hb
      · exact hxa
      · exact hxa.trans (ha.le.trans (hhead b hb))
    · have hax : hi a ≤ lo x := by
        refine hside.resolve_right fun hright => ?_
        exact hbefore (hx.le.trans hright)
      rw [orderedInsert_cons, if_neg hbefore]
      refine ordered_cons.mpr ⟨ha, ?_, hrest⟩
      intro b hb
      rcases (mem_orderedInsert _).mp hb with rfl | hb
      · exact hax
      · exact hhead b hb

/-- Replacing the head by ordered pieces of itself. -/
theorem Ordered.pieces {parts rest : List α} (hl : Ordered lo hi (a :: l))
    (hparts : Ordered lo hi parts) (hwithin : ∀ b ∈ parts, Within lo hi b a)
    (hrest : Ordered lo hi rest)
    (hold : ∀ b ∈ rest, ∃ c ∈ l, Within lo hi b c) :
    Ordered lo hi (parts ++ rest) := by
  obtain ⟨_, hhead, _⟩ := ordered_cons.mp hl
  refine hparts.append hrest fun b hb c hc => ?_
  obtain ⟨d, hd, hwithinD⟩ := hold c hc
  calc hi b ≤ hi a := (hwithin b hb).2
    _ ≤ lo d := hhead d hd
    _ ≤ lo c := hwithinD.1

theorem Ordered.unique (hl : Ordered lo hi l) {b : α} {point : β} (ha : a ∈ l)
    (hb : b ∈ l) (hpa : lo a ≤ point ∧ point < hi a)
    (hpb : lo b ≤ point ∧ point < hi b) : a = b := by
  have hsides : l.Pairwise fun a b => hi a ≤ lo b ∨ hi b ≤ lo a := hl.apart.imp .inl
  have hsymm : Std.Symm fun a b => hi a ≤ lo b ∨ hi b ≤ lo a := ⟨fun _ _ => Or.symm⟩
  by_contra hne
  rcases hsides.forall ha hb hne with hside | hside
  · exact absurd (hpa.2.trans_le hside) (not_lt.mpr hpb.1)
  · exact absurd (hpb.2.trans_le hside) (not_lt.mpr hpa.1)

end AuraLite.IntervalList

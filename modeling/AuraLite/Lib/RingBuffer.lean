import Mathlib.Data.Nat.Basic
import Mathlib.Order.Basic

/-!
# Ring buffers

A ring of `cap` cells with a write index, a read index and a fill count, which
agree after every push and every pop.
-/

namespace AuraLite.RingBuffer

open List Function

variable {α : Type*}

structure RingQueue (α : Type*) where
  buf : ℕ → α
  /-- The next cell to write. -/
  head : ℕ
  /-- The next cell to read. -/
  tail : ℕ
  used : ℕ

def RingQueue.push (cap : ℕ) (r : RingQueue α) (a : α) : RingQueue α :=
  { r with
    buf := Function.update r.buf r.head a
    head := (r.head + 1) % cap
    used := r.used + 1 }

def RingQueue.pop (cap : ℕ) (r : RingQueue α) : RingQueue α :=
  { r with tail := (r.tail + 1) % cap, used := r.used - 1 }

/-- Push until the ring is full; the second component is what is left over. -/
def RingQueue.pushAll (cap : ℕ) (r : RingQueue α) : List α → RingQueue α × List α
  | [] => (r, [])
  | a :: rest =>
    if r.used < cap then (r.push cap a).pushAll cap rest else (r, a :: rest)

/-- Pop up to `count` elements. -/
def RingQueue.popAll (cap : ℕ) (r : RingQueue α) : ℕ → List α × RingQueue α
  | 0 => ([], r)
  | count + 1 =>
    if 0 < r.used then
      let next := (r.pop cap).popAll cap count
      (r.buf r.tail :: next.1, next.2)
    else ([], r)

/-- The used cells are those from the read index to the write index. -/
structure Valid (cap : ℕ) (r : RingQueue α) : Prop where
  bounded : r.used ≤ cap
  tail : r.tail < cap
  head : r.head = (r.tail + r.used) % cap

variable {cap : ℕ} {r : RingQueue α}

section

variable (hvalid : Valid cap r)
include hvalid

theorem Valid.push (hroom : r.used < cap) (a : α) : Valid cap (r.push cap a) := by
  refine ⟨hroom, hvalid.tail, ?_⟩
  calc (r.head + 1) % cap = ((r.tail + r.used) % cap + 1) % cap := by rw [hvalid.head]
    _ = (r.tail + r.used + 1) % cap := Nat.mod_add_mod _ _ _
    _ = (r.tail + (r.used + 1)) % cap := by rw [Nat.add_assoc]

theorem Valid.pop (hused : 0 < r.used) : Valid cap (r.pop cap) := by
  have hcap : 0 < cap := Nat.zero_lt_of_lt hvalid.tail
  have hbound := hvalid.bounded
  refine ⟨?_, Nat.mod_lt _ hcap, ?_⟩
  · exact (Nat.sub_le _ _).trans hvalid.bounded
  · calc r.head = (r.tail + r.used) % cap := hvalid.head
      _ = (r.tail + 1 + (r.used - 1)) % cap := by
          rw [Nat.add_assoc, Nat.add_sub_cancel' hused]
      _ = ((r.tail + 1) % cap + (r.used - 1)) % cap := (Nat.mod_add_mod _ _ _).symm

theorem Valid.pushAll (l : List α) : Valid cap (r.pushAll cap l).1 := by
  induction l generalizing r with
  | nil => exact hvalid
  | cons a rest ih =>
    rw [RingQueue.pushAll]
    split_ifs with hroom
    · exact ih (hvalid.push hroom a)
    · exact hvalid

theorem Valid.popAll (count : ℕ) : Valid cap (r.popAll cap count).2 := by
  induction count generalizing r with
  | zero => exact hvalid
  | succ count ih =>
    rw [RingQueue.popAll]
    split_ifs with hused
    · exact ih (hvalid.pop hused)
    · exact hvalid

end

end AuraLite.RingBuffer

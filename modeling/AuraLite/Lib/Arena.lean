import AuraLite.Lib.RefCount

/-!
# Objects in the order of their allocation

An allocator that never hands out an address twice: objects are numbered as they are
made, and `none` stands for one that was given back.  `owned` lists what the live objects
refer to, each reference as often as it is held, so that a reference count can be
compared with it.
-/

namespace AuraLite.Arena

open List RefCount

variable {α β : Type*} {arena : List (Option α)} {f : α → List β} {a : α} {i k : ℕ}

/-- The object at an address, while it is live. -/
def lookup (arena : List (Option α)) (i : ℕ) : Option α := arena[i]?.join

/-- The references held by the live objects. -/
def owned (f : α → List β) (arena : List (Option α)) : List β :=
  arena.flatMap fun x => x.elim [] f

theorem lookup_eq_some : lookup arena i = some a ↔ arena[i]? = some (some a) :=
  Option.join_eq_some_iff

theorem lookup_lt (hget : lookup arena i = some a) : i < arena.length :=
  (List.getElem?_eq_some_iff.mp (lookup_eq_some.mp hget)).1

theorem lookup_length : lookup arena arena.length = none := by
  rw [lookup, getElem?_eq_none (Nat.le_refl _)]
  rfl

theorem lookup_append_self (arena : List (Option α)) (x : Option α) :
    lookup (arena ++ [x]) arena.length = x := by
  rw [lookup, getElem?_concat_length, Option.join_some]

theorem lookup_append_of_ne (x : Option α) (hne : i ≠ arena.length) :
    lookup (arena ++ [x]) i = lookup arena i := by
  obtain hlt | hge := Nat.lt_or_gt_of_ne hne
  · rw [lookup, getElem?_append_left hlt, lookup]
  · have hold : arena[i]? = none := getElem?_eq_none hge.le
    have hnew : (arena ++ [x])[i]? = none := by
      apply getElem?_eq_none
      rw [length_append]
      exact hge
    rw [lookup, hnew, lookup, hold]

/-- An object that was given back at once leaves no trace. -/
theorem lookup_append_none (arena : List (Option α)) (i : ℕ) :
    lookup (arena ++ [none]) i = lookup arena i := by
  by_cases hi : i = arena.length
  · rw [hi, lookup_append_self, lookup_length]
  · exact lookup_append_of_ne none hi

theorem lookup_append_of_some (x : Option α) (hget : lookup arena i = some a) :
    lookup (arena ++ [x]) i = some a := by
  rw [lookup_append_of_ne x (lookup_lt hget).ne, hget]

theorem lookup_set_self (x : Option α) (hget : lookup arena k = some a) :
    lookup (arena.set k x) k = x := by
  rw [lookup, getElem?_set_self (lookup_lt hget), Option.join_some]

theorem lookup_set_of_ne (x : Option α) (hne : i ≠ k) :
    lookup (arena.set k x) i = lookup arena i := by
  rw [lookup, getElem?_set_ne hne.symm, lookup]

theorem lookup_set (hget : lookup arena k = some a) (x : Option α) (i : ℕ) :
    lookup (arena.set k x) i = if i = k then x else lookup arena i := by
  split_ifs with hi
  · rw [hi, lookup_set_self x hget]
  · exact lookup_set_of_ne x hi

theorem mem_owned {y : β} {i : ℕ} {a : α} (hget : lookup arena i = some a) (hy : y ∈ f a) :
    y ∈ owned f arena :=
  mem_flatMap.mpr ⟨some a, mem_of_getElem? (lookup_eq_some.mp hget), hy⟩

section Count

variable [DecidableEq β]

theorem count_owned_append (f : α → List β) (arena : List (Option α)) (x : Option α) (y : β) :
    (owned f (arena ++ [x])).count y = (owned f arena).count y + (x.elim [] f).count y := by
  rw [owned, flatMap_append, count_append, flatMap_singleton, owned]

/-- Replacing or removing an object. -/
theorem count_owned_set (f : α → List β) (hget : lookup arena k = some a) (x : Option α) (y : β) :
    (owned f (arena.set k x)).count y + (f a).count y =
      (owned f arena).count y + (x.elim [] f).count y := by
  exact @count_flatMap_set β (Option α) _ (fun x => x.elim [] f) arena k (some a) x
    (lookup_eq_some.mp hget) y

theorem count_le_owned (f : α → List β) (hget : lookup arena k = some a) (y : β) :
    (f a).count y ≤ (owned f arena).count y := by
  have hset := count_owned_set f hget none y
  have hnone : ((none : Option α).elim [] f).count y = 0 := count_nil
  omega

end Count

end AuraLite.Arena

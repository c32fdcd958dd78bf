import AuraLite.Lib.Reachability
import AuraLite.Lib.Word64
import Mathlib.Algebra.BigOperators.Ring.Finset
import Mathlib.Algebra.Order.BigOperators.Group.Finset

/-!
# The allocator of the C library

`malloc` searches the list that starts at `base` for a block that was freed, and else takes
new space, for which it moves the program break if the chunk at hand has no room.  No block
is ever linked to another one, so the search sees the first block only.
-/

namespace AuraLite.Malloc

open List Reachability Word64
open Function (update update_self update_of_ne)

/-- `block_meta`, with the number of the next block of the list. -/
structure Block where
  size : ℕ
  next : Option ℕ
  free : Bool

/-- The blocks in the order in which they were made, the room that is left in the chunk, and
the sizes for which the break was moved. -/
structure Heap where
  blocks : List Block
  base : Option ℕ
  room : ℕ
  growths : List ℕ

/-- What `request_space` takes for a block with its header. -/
def need (size : ℕ) : ℕ := alignUp (size + 32) 16

/-- `MALLOC_CHUNK`, or whole pages for a block that is larger. -/
def chunk (size : ℕ) : ℕ := if 2 ^ 18 < need size then alignUp (need size) 4096 else 2 ^ 18

/-- How far the break was moved. -/
def Heap.brk (h : Heap) : ℕ := (h.growths.map chunk).sum

def findFreeBlock (blocks : List Block) (size : ℕ) : ℕ → Option ℕ → Option ℕ
  | 0, _ => none
  | _, none => none
  | fuel + 1, some i =>
    blocks[i]?.bind fun b =>
      if b.free ∧ size ≤ b.size then some i else findFreeBlock blocks size fuel b.next

/-- A block at the end of the space in use. -/
def Heap.push (h : Heap) (size room : ℕ) (growths : List ℕ) : Heap × Option ℕ :=
  (⟨h.blocks ++ [⟨size, none, false⟩], h.base.or (some h.blocks.length), room - need size,
    growths⟩, some h.blocks.length)

/-- `request_space`; `grows` tells whether `sbrk` succeeds. -/
def Heap.requestSpace (h : Heap) (size : ℕ) (grows : Bool) : Heap × Option ℕ :=
  if need size ≤ h.room then h.push size h.room h.growths
  else if grows = false then (h, none)
  -- A chunk is too small only if its size wraps to zero, and then the break stays.
  else if chunk size < need size then ({ h with room := chunk size }, none)
  else h.push size (chunk size) (h.growths ++ [size])

def Heap.setFree (h : Heap) (i : ℕ) (free : Bool) : Heap :=
  { h with blocks := h.blocks.modify i fun b => { b with free := free } }

def Heap.malloc (h : Heap) (size : ℕ) (grows : Bool) : Heap × Option ℕ :=
  if size = 0 then (h, none)
  else
    match findFreeBlock h.blocks (alignUp size 8) h.blocks.length h.base with
    | some i => (h.setFree i false, some i)
    | none => h.requestSpace (alignUp size 8) grows

def Heap.free (h : Heap) : Option ℕ → Heap
  | none => h
  | some i => h.setFree i true

/-- A call, with the answer of `sbrk` if it is asked. -/
inductive Call
  | malloc (size : ℕ) (grows : Bool)
  | free (block : Option ℕ)

def Heap.call (h : Heap) : Call → Heap
  | .malloc size grows => (h.malloc size grows).1
  | .free block => h.free block

def start : Heap := ⟨[], none, 0, []⟩

/-! ## Reuse -/

/-- A freed block that is large enough. -/
def Block.Fits (b : Block) (size : ℕ) : Prop := b.free = true ∧ alignUp size 8 ≤ b.size

instance (b : Block) (size : ℕ) : Decidable (b.Fits size) :=
  inferInstanceAs (Decidable (_ ∧ _))

/-- The break is moved for a block only if no freed block is large enough. -/
def Heap.Reuses (h : Heap) (size : ℕ) (grows : Bool) : Prop :=
  (h.malloc size grows).1.brk ≠ h.brk → ∀ b ∈ h.blocks, ¬ b.Fits size

/-- If a freed block is large enough then the first block is, or the chunk has room. -/
def Heap.Served (h : Heap) (size : ℕ) : Prop :=
  (∃ b ∈ h.blocks, b.Fits size) → need (alignUp size 8) ≤ h.room ∨
    ∃ i ∈ h.base, ∃ b ∈ h.blocks[i]?, b.Fits size

instance (h : Heap) (size : ℕ) : Decidable (h.Served size) :=
  inferInstanceAs (Decidable (_ → _ ∨ ∃ i ∈ h.base, ∃ b ∈ h.blocks[i]?, b.Fits size))

theorem findFreeBlock_first {blocks : List Block} {size i fuel : ℕ} {b : Block}
    (hb : blocks[i]? = some b) (hfits : b.Fits size) :
    findFreeBlock blocks (alignUp size 8) (fuel + 1) (some i) = some i := by
  rw [findFreeBlock, hb, Option.bind_some]
  exact if_pos hfits

/-- What `malloc` does: nothing is there, a freed block is found, or a block is made. -/
inductive Outcome (h : Heap) (size : ℕ) : Heap × Option ℕ → Prop
  | failed (room : ℕ) : Outcome h size ({ h with room := room }, none)
  | found (i : ℕ) : Outcome h size (h.setFree i false, some i)
  | made (room : ℕ) : Outcome h size (h.push (alignUp size 8) room h.growths)
  | grown (room : ℕ) (hnone : ∀ b ∈ h.blocks, ¬ b.Fits size) :
      Outcome h size (h.push (alignUp size 8) room (h.growths ++ [alignUp size 8]))

variable {h : Heap} {size : ℕ}

theorem Heap.Served.outcome (hserved : h.Served size) (grows : Bool) :
    Outcome h size (h.malloc size grows) := by
  rw [Heap.malloc]
  split_ifs with hzero
  · exact .failed h.room
  · split
    · exact .found _
    · next hnone =>
      rw [requestSpace]
      split_ifs with hroom hfails hwraps
      · exact .made h.room
      · exact .failed h.room
      · exact .failed _
      · refine .grown _ fun b hb hfits => ?_
        obtain hthere | ⟨i, hi, b', hb', hfits'⟩ := hserved ⟨b, hb, hfits⟩
        · exact hroom hthere
        · obtain ⟨fuel, hfuel⟩ := Nat.exists_eq_succ_of_ne_zero (length_pos_of_mem hb).ne'
          rw [hfuel, hi, findFreeBlock_first hb' hfits'] at hnone
          cases hnone

theorem Heap.Served.reuses (hserved : h.Served size) (grows : Bool) : h.Reuses size grows := by
  have houtcome := hserved.outcome grows
  rw [Reuses]
  generalize h.malloc size grows = result at houtcome
  cases houtcome with
  | failed | found | made => exact fun hmoved => absurd rfl hmoved
  | grown room hnone => exact fun _ => hnone

/-! ## Runs -/

def Heap.used (h : Heap) : ℕ := h.blocks.countP fun b => !b.free

/-- The calls of a program with at most `live` blocks at a time and these sizes, whenever a
freed block that is large enough can be had. -/
def Allowed (live : ℕ) (sizes : List ℕ) (h : Heap) : Call → Prop
  | .malloc size _ => size ∈ sizes ∧ h.used < live ∧ h.Served size
  | .free _ => True

instance (live : ℕ) (sizes : List ℕ) (h : Heap) : ∀ call, Decidable (Allowed live sizes h call)
  | .malloc _ _ => inferInstanceAs (Decidable (_ ∧ _ ∧ _))
  | .free _ => inferInstanceAs (Decidable True)

/-- A block was made for each move of the break, and only when all of its size were in use. -/
structure Heap.Bounded (live : ℕ) (sizes : List ℕ) (h : Heap) : Prop where
  made : ∀ n, h.growths.count n ≤ (h.blocks.map Block.size).count n
  few : ∀ n, h.growths.count n ≤ live
  sizes : ∀ n ∈ h.growths, ∃ size ∈ sizes, alignUp size 8 = n

variable {live : ℕ} {sizes : List ℕ} {room n : ℕ}

theorem setFree_sizes (h : Heap) (i : ℕ) (free : Bool) :
    (h.setFree i free).blocks.map Block.size = h.blocks.map Block.size := by
  apply ext_getElem?
  intro j
  rw [getElem?_map, getElem?_map, Heap.setFree, getElem?_modify]
  cases h.blocks[j]? with
  | none => rfl
  | some b => split_ifs <;> rfl

theorem Heap.Bounded.setFree (hb : h.Bounded live sizes) (i : ℕ) (free : Bool) :
    (h.setFree i free).Bounded live sizes :=
  { hb with made := fun n => (setFree_sizes h i free).symm ▸ hb.made n }

/-- All blocks of the size are in use. -/
theorem Heap.count_le_used (hnone : ∀ b ∈ h.blocks, ¬ b.Fits size) :
    (h.blocks.map Block.size).count (alignUp size 8) ≤ h.used := by
  rw [count, countP_map]
  apply countP_mono_left
  intro b hb hsize
  by_contra hfree
  exact hnone b hb ⟨by simpa using hfree, (eq_of_beq hsize).ge⟩

theorem Heap.Bounded.malloc (hb : h.Bounded live sizes) (hsize : size ∈ sizes)
    (hused : h.used < live) (hserved : h.Served size) (grows : Bool) :
    (h.malloc size grows).1.Bounded live sizes := by
  have houtcome := hserved.outcome grows
  generalize h.malloc size grows = result at houtcome
  cases houtcome with
  | failed => exact ⟨hb.made, hb.few, hb.sizes⟩
  | found i => exact hb.setFree i false
  | made =>
    refine ⟨fun n => (hb.made n).trans ?_, hb.few, hb.sizes⟩
    exact ((sublist_append_left _ _).map _).count_le n
  | grown room hnone =>
    refine ⟨fun n => ?_, fun n => ?_, fun n hn => ?_⟩
    · have hmade := hb.made n
      simp only [push, map_append, map_cons, map_nil, count_append]
      exact Nat.add_le_add_right hmade _
    · have hmade := (hb.made (alignUp size 8)).trans (count_le_used hnone)
      simp only [push, count_append, count_singleton]
      split_ifs with hn
      · rw [← eq_of_beq hn]
        exact hmade.trans_lt hused
      · exact hb.few n
    · rcases mem_append.mp hn with hold | hnew
      · exact hb.sizes n hold
      · exact ⟨size, hsize, (mem_singleton.mp hnew).symm⟩

theorem Heap.Bounded.brk_le (hb : h.Bounded live sizes) :
    h.brk ≤ live * ∑ n ∈ (sizes.map (alignUp · 8)).toFinset, chunk n := by
  have hsubset : h.growths.toFinset ⊆ (sizes.map (alignUp · 8)).toFinset := by
    intro n hn
    exact mem_toFinset.mpr (mem_map.mpr (hb.sizes n (mem_toFinset.mp hn)))
  calc h.brk = ∑ n ∈ h.growths.toFinset, h.growths.count n * chunk n :=
        Finset.sum_list_map_count h.growths chunk
    _ ≤ ∑ n ∈ h.growths.toFinset, live * chunk n :=
        Finset.sum_le_sum fun n _ => Nat.mul_le_mul_right _ (hb.few n)
    _ ≤ ∑ n ∈ (sizes.map (alignUp · 8)).toFinset, live * chunk n :=
        Finset.sum_le_sum_of_subset hsubset
    _ = live * ∑ n ∈ (sizes.map (alignUp · 8)).toFinset, chunk n := (Finset.mul_sum _ _ _).symm

/-- As long as a freed block that is large enough can be had, the break is moved only if there
is none, and a program with finitely many sizes and live blocks has a bounded break. -/
theorem freed_blocks_reused (live : ℕ) (sizes : List ℕ) (h : Heap)
    (hrun : Reaches (guarded (Allowed live sizes) fun h call h' => h.call call = h') start h) :
    h.brk ≤ live * ∑ n ∈ (sizes.map (alignUp · 8)).toFinset, chunk n ∧
      ∀ size grows, Allowed live sizes h (.malloc size grows) → h.Reuses size grows := by
  have hstart : start.Bounded live sizes :=
    ⟨fun n => Nat.zero_le _, fun n => Nat.zero_le _, fun n hn => (not_mem_nil hn).elim⟩
  have hbounded : h.Bounded live sizes := by
    apply hrun.kept hstart
    intro before call hbefore hallowed
    cases call with
    | malloc size grows => exact hbefore.malloc hallowed.1 hallowed.2.1 hallowed.2.2 grows
    | free block =>
      cases block with
      | none => exact hbefore
      | some i => exact hbefore.setFree i true
  exact ⟨hbounded.brk_le, fun size grows hallowed => hallowed.2.2.reuses grows⟩

/-- One block is taken, given back and taken again. -/
theorem freed_blocks_reused_twice : ∃ h : Heap, h.blocks.length = 1 ∧ h.used = 1 ∧
    h.brk ≤ 1 * ∑ n ∈ ([200000].map (alignUp · 8)).toFinset, chunk n := by
  have hrun : Reaches (guarded (Allowed 1 [200000]) fun h call h' => h.call call = h') start _ :=
    @reaches_foldl _ _ _ _ [.malloc 200000 true, .free (some 0), .malloc 200000 true] Heap.call _
      (by decide +kernel)
  exact ⟨_, by decide +kernel, by decide +kernel, (freed_blocks_reused _ _ _ hrun).1⟩

/-- The second block is not linked: it is free, and the break is moved for a block of its
size. -/
theorem freed_block_missed : ∃ h : Heap,
    Reaches (fun h call h' => Heap.call h call = h') start h ∧ ¬ h.Reuses 200000 true := by
  refine ⟨_, reaches_run Heap.call [.malloc 8 true, .malloc 200000 true, .free (some 1)] start, ?_⟩
  intro hreuses
  exact hreuses (by decide +kernel) _ (mem_of_getElem? (i := 1) rfl) (by decide +kernel)

end AuraLite.Malloc

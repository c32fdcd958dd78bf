import AuraLite.Lib.NodePool
import AuraLite.Mm.Vma

/-!
# The area list in memory

`vma_insert`, `vma_remove_range` and `vma_free_all` as they walk the links of the
nodes.  Each is shown to do on the list behind its head what the list functions
of the area model do, and to write no other node.  A walk that meets a freed node
stops there.
-/

namespace AuraLite.Mmap

open NodePool

abbrev VmaPool := Pool Vma

/-- The loop of `vma_insert`: the new contents of the link it was entered by. -/
def chainLink (new : Vma) : ℕ → VmaPool → ℕ → VmaPool × ℕ
  | 0, pool, p => (pool.alloc new p, pool.fresh)
  | fuel + 1, pool, p =>
    match pool.nodes p with
    | none => (pool.alloc new p, pool.fresh)
    | some node =>
      if node.val.vaStart < new.vaStart then
        let r := chainLink new fuel pool node.next
        (r.1.setNext p r.2, p)
      else (pool.alloc new p, pool.fresh)

/-- `vma_insert`; the first component tells whether it returned `0`. -/
def chainInsert (pool : VmaPool) (head : ℕ) (new : Vma) (slab : List Bool) :
    Bool × (VmaPool × ℕ) × List Bool :=
  if hasFlag new.flags vmaFile && new.file.isNone then (false, (pool, head), slab)
  else
    let alloc := vmaAlloc slab
    (alloc.1, if alloc.1 then chainLink new pool.fresh pool head else (pool, head),
      alloc.2)

/-- The loop of `vma_remove_range`. -/
def chainCut (start stop : ℕ) :
    ℕ → VmaPool → ℕ → List Bool → (VmaPool × ℕ) × List Bool
  | 0, pool, p, slab => ((pool, p), slab)
  | fuel + 1, pool, p, slab =>
    match pool.nodes p with
    | none => ((pool, p), slab)
    | some node =>
      let keep (slab : List Bool) :=
        let r := chainCut start stop fuel pool node.next slab
        ((r.1.1.setNext p r.1.2, p), r.2)
      if stop ≤ node.val.vaStart then ((pool, p), slab)
      else if node.val.vaEnd ≤ start then keep slab
      else
        let left := if node.val.vaStart < start then vmaAlloc slab else (true, slab)
        let right :=
          if stop < node.val.vaEnd then vmaAlloc left.2 else (true, left.2)
        if left.1 && right.1 then
          let r := chainCut start stop fuel (pool.free p) node.next right.2
          (r.1.1.pushAll (node.val.pieces start stop) r.1.2, r.2)
        else keep right.2

/-- `vma_remove_range`. -/
def chainRemove (pool : VmaPool) (head start stop : ℕ) (slab : List Bool) :
    VmaPool × ℕ :=
  (chainCut start stop pool.fresh pool head slab).1

/-- `vma_free_all`. -/
def chainFree (pool : VmaPool) (head : ℕ) : VmaPool := pool.freeAll pool.fresh head

/-- The copying loop of `fork`: the areas are inserted one by one, without their
shmem object. -/
def chainCopy : List Vma → VmaPool → ℕ → List Bool → Bool × VmaPool × ℕ
  | [], pool, head, _ => (true, pool, head)
  | v :: rest, pool, head, slab =>
    let r := chainInsert pool head { v with shmid := 0 } slab
    if r.1 then chainCopy rest r.2.1.1 r.2.1.2 r.2.2 else (false, r.2.1)

variable {pool : VmaPool} {p : ℕ} {l : List (ℕ × Vma)} {fuel : ℕ}

/-- What an edit of the list behind `p` achieved: `result` is the new pool and
head, `list` the areas it holds. -/
def Gives (pool : VmaPool) (l : List (ℕ × Vma)) (result : VmaPool × ℕ)
    (list : List Vma) : Prop :=
  ∃ l', Linked result.1 result.2 l' ∧ Edited pool result.1 l l' ∧
    l'.map Prod.snd = list

theorem gives_push (htidy : Tidy pool) (hlinked : Linked pool p l)
    (hnodup : (addrs l).Nodup) (new : Vma) :
    Gives pool l (pool.alloc new p, pool.fresh) (new :: l.map Prod.snd) :=
  ⟨_, hlinked.push htidy new, (Edited.refl htidy hnodup).push hlinked new p, rfl⟩

theorem Gives.keep {q : ℕ} {v : Vma} {next : ℕ} {rest : List (ℕ × Vma)}
    {result : VmaPool × ℕ} {list : List Vma} (htidy : Tidy pool)
    (hnode : pool.nodes q = some ⟨v, next⟩) (hfirst : q ∉ addrs rest)
    (hgives : Gives pool rest result list) :
    Gives pool ((q, v) :: rest) (result.1.setNext q result.2, q) (v :: list) := by
  obtain ⟨l', hlinked, hedited, hlist⟩ := hgives
  obtain ⟨hlinked', hedited'⟩ := Edited.keep htidy hnode hfirst hedited hlinked
  exact ⟨_, hlinked', hedited', congrArg (v :: ·) hlist⟩

section

variable (htidy : Tidy pool) (hlinked : Linked pool p l) (hnodup : (addrs l).Nodup)
  (hfuel : l.length ≤ fuel)
include htidy hlinked hnodup hfuel

theorem chainLink_gives (new : Vma) :
    Gives pool l (chainLink new fuel pool p) (vmaLink (l.map Prod.snd) new) := by
  induction l generalizing p fuel with
  | nil =>
    have hzero : p = 0 := hlinked
    have hpush := gives_push htidy hlinked hnodup new
    cases fuel with
    | zero => exact hpush
    | succ fuel =>
      rw [chainLink, hzero, htidy.null, ← hzero]
      exact hpush
  | cons entry rest ih =>
    have hpush := gives_push htidy hlinked hnodup new
    obtain ⟨hp, next, hnode, hrest⟩ := hlinked
    obtain ⟨hfirst, hnodup'⟩ := List.nodup_cons.mp hnodup
    cases fuel with
    | zero => exact absurd hfuel (Nat.not_succ_le_zero _)
    | succ fuel =>
      have hnode' : pool.nodes p = some ⟨entry.2, next⟩ := by rw [hp]; exact hnode
      rw [chainLink, hnode', List.map_cons, vmaLink, List.orderedInsert_cons]
      simp only
      split
      · rename_i hbelow
        rw [if_neg (Nat.not_le_of_lt hbelow), hp]
        exact (ih hrest hnodup' (Nat.le_of_succ_le_succ hfuel)).keep htidy hnode hfirst
      · rename_i hbelow
        rw [if_pos (Nat.le_of_not_lt hbelow)]
        exact hpush

/-- `vma_remove_range` cuts the range out as the list function does. -/
theorem chainCut_gives (start stop : ℕ) (slab : List Bool) :
    Gives pool l (chainCut start stop fuel pool p slab).1
      (vmaRemoveRange start stop (l.map Prod.snd) slab).1 ∧
    (chainCut start stop fuel pool p slab).2 =
      (vmaRemoveRange start stop (l.map Prod.snd) slab).2 := by
  induction l generalizing pool p fuel slab with
  | nil =>
    have hzero : p = 0 := hlinked
    have hsame : chainCut start stop fuel pool p slab = ((pool, p), slab) := by
      cases fuel with
      | zero => rfl
      | succ fuel => rw [chainCut, hzero, htidy.null]
    rw [hsame]
    exact ⟨⟨[], hlinked, .refl htidy hnodup, rfl⟩, rfl⟩
  | cons entry rest ih =>
    obtain ⟨q, v⟩ := entry
    have hwhole : Linked pool p ((q, v) :: rest) := hlinked
    obtain ⟨hp, next, hnode, hrest⟩ := hlinked
    obtain ⟨hfirst, hnodup'⟩ := List.nodup_cons.mp hnodup
    cases fuel with
    | zero => exact absurd hfuel (Nat.not_succ_le_zero _)
    | succ fuel =>
      have hfuel' := Nat.le_of_succ_le_succ hfuel
      have hkeep : ∀ slab, Gives pool ((q, v) :: rest)
          ((chainCut start stop fuel pool next slab).1.1.setNext q
            (chainCut start stop fuel pool next slab).1.2, q)
          (v :: (vmaRemoveRange start stop (rest.map Prod.snd) slab).1) := fun slab =>
        (ih htidy hrest hnodup' hfuel' slab).1.keep htidy hnode hfirst
      have hslab := fun slab => (ih htidy hrest hnodup' hfuel' slab).2
      rw [chainCut, hp, hnode, List.map_cons, vmaRemoveRange]
      simp only
      by_cases hbeyond : stop ≤ v.vaStart
      · rw [if_pos hbeyond, if_pos hbeyond]
        exact ⟨⟨_, hp ▸ hwhole, .refl htidy hnodup, rfl⟩, rfl⟩
      rw [if_neg hbeyond, if_neg hbeyond]
      by_cases hbelow : v.vaEnd ≤ start
      · rw [if_pos hbelow, if_pos hbelow]
        exact ⟨hkeep slab, hslab slab⟩
      rw [if_neg hbelow, if_neg hbelow]
      generalize (if v.vaStart < start then vmaAlloc slab else (true, slab)) = left
      generalize (if stop < v.vaEnd then vmaAlloc left.2 else (true, left.2)) = right
      by_cases hpieces : (left.1 && right.1) = true
      · -- the node is freed and its pieces are pushed in front of the edited rest
        rw [if_pos hpieces, if_pos hpieces]
        obtain ⟨⟨l', hlinked', hedited', hlist⟩, hslab'⟩ :=
          ih (htidy.free q) (hrest.free hfirst) hnodup' hfuel' right.2
        obtain ⟨new, hnew, hedited, hvals⟩ :=
          linked_pushAll (v.pieces start stop) hedited'.drop hlinked'
        refine ⟨⟨_, hnew, hedited, ?_⟩, hslab'⟩
        rw [List.map_append, hvals, hlist]
      · rw [if_neg hpieces, if_neg hpieces]
        exact ⟨hkeep right.2, hslab right.2⟩

end

/-! ## The operations -/

section

variable (htidy : Tidy pool) (hlinked : Linked pool p l) (hnodup : (addrs l).Nodup)
include htidy hlinked hnodup

theorem chainInsert_gives (new : Vma) (slab : List Bool) :
    ∃ list, Gives pool l (chainInsert pool p new slab).2.1 list := by
  have hsame : Gives pool l (pool, p) (l.map Prod.snd) :=
    ⟨l, hlinked, .refl htidy hnodup, rfl⟩
  rw [chainInsert]
  split_ifs with hfile
  · exact ⟨_, hsame⟩
  · simp only
    split_ifs with halloc
    · exact ⟨_, chainLink_gives htidy hlinked hnodup (hlinked.length_le htidy hnodup) new⟩
    · exact ⟨_, hsame⟩

/-- `fork` copies into a list of its own, whether or not it comes to the end. -/
theorem chainCopy_gives (areas : List Vma) (slab : List Bool) :
    ∃ list, Gives pool l (chainCopy areas pool p slab).2 list := by
  induction areas generalizing pool p l slab with
  | nil => exact ⟨_, l, hlinked, .refl htidy hnodup, rfl⟩
  | cons v rest ih =>
    obtain ⟨list, hgives⟩ := chainInsert_gives htidy hlinked hnodup { v with shmid := 0 } slab
    rw [chainCopy]
    generalize chainInsert pool p { v with shmid := 0 } slab = r at hgives ⊢
    split_ifs with hok
    · obtain ⟨l', hlinked', hedited, -⟩ := hgives
      obtain ⟨list', l'', hlinked'', hedited', hlist⟩ :=
        ih hedited.tidy hlinked' hedited.nodup r.2.2
      exact ⟨list', l'', hlinked'', hedited.trans hedited', hlist⟩
    · exact ⟨list, hgives⟩

theorem chainRemove_gives (start stop : ℕ) (slab : List Bool) :
    Gives pool l (chainRemove pool p start stop slab)
      (vmaRemoveRange start stop (l.map Prod.snd) slab).1 :=
  (chainCut_gives htidy hlinked hnodup (hlinked.length_le htidy hnodup) start stop slab).1

theorem chainFree_edited : Edited pool (chainFree pool p) l [] :=
  hlinked.freeAll htidy hnodup (hlinked.length_le htidy hnodup)

end

theorem chainInsert_head {node : Node Vma} (htidy : Tidy pool) {new : Vma}
    (hnode : pool.nodes p = some node) (hbelow : node.val.vaStart < new.vaStart)
    (slab : List Bool) : (chainInsert pool p new slab).2.1.2 = p := by
  obtain ⟨fuel, hfuel⟩ := Nat.exists_eq_succ_of_ne_zero (Nat.ne_of_gt htidy.pos)
  have hlink : (chainLink new pool.fresh pool p).2 = p := by
    rw [hfuel, chainLink, hnode]
    simp only [if_pos hbelow]
  rw [chainInsert]
  split_ifs with hfile
  · rfl
  · simp only
    split_ifs
    · exact hlink
    · rfl

theorem chainRemove_head {start stop : ℕ} (slab : List Bool)
    (hbeside : ∀ node, pool.nodes p = some node →
      node.val.vaEnd ≤ start ∨ stop ≤ node.val.vaStart) :
    (chainRemove pool p start stop slab).2 = p := by
  rw [chainRemove]
  cases pool.fresh with
  | zero => rfl
  | succ fuel =>
    rw [chainCut]
    cases hnode : pool.nodes p with
    | none => rfl
    | some node =>
      simp only
      by_cases hbeyond : stop ≤ node.val.vaStart
      · rw [if_pos hbeyond]
      · rw [if_neg hbeyond, if_pos ((hbeside node hnode).resolve_right hbeyond)]

end AuraLite.Mmap

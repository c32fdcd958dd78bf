import Mathlib.Data.Nat.Basic
import Mathlib.Order.Basic
import Mathlib.Data.List.Perm.Subperm

/-!
# Linked nodes in a pool

Singly linked lists whose nodes are taken from a common pool, so that two heads
may enter the same nodes.  Addresses are never handed out twice: a pointer that
outlives its node is seen as one.  `Linked` describes the list behind a head,
`Edited` what an edit of that list leaves alone.
-/

namespace AuraLite.NodePool

open List Function

variable {α : Type*}

structure Node (α : Type*) where
  val : α
  next : ℕ
deriving DecidableEq

structure Pool (α : Type*) where
  nodes : ℕ → Option (Node α)
  /-- The address of the next node. -/
  fresh : ℕ

/-- A pool without nodes; address `0` is the null pointer. -/
def Pool.empty : Pool α := ⟨fun _ => none, 1⟩

/-- A new node at address `pool.fresh`. -/
def Pool.alloc (pool : Pool α) (val : α) (next : ℕ) : Pool α :=
  ⟨Function.update pool.nodes pool.fresh (some ⟨val, next⟩), pool.fresh + 1⟩

def Pool.free (pool : Pool α) (p : ℕ) : Pool α :=
  { pool with nodes := Function.update pool.nodes p none }

def Pool.setNext (pool : Pool α) (p next : ℕ) : Pool α :=
  { pool with nodes :=
      Function.update pool.nodes p ((pool.nodes p).map fun node => { node with next }) }

/-- New nodes in front of `p`; the second component is the new head. -/
def Pool.pushAll (pool : Pool α) : List α → ℕ → Pool α × ℕ
  | [], p => (pool, p)
  | val :: vals, p =>
    let r := pool.pushAll vals p
    (r.1.alloc val r.2, r.1.fresh)

/-- The values behind a head, at most `fuel` of them. -/
def Pool.walk (pool : Pool α) : ℕ → ℕ → List α
  | 0, _ => []
  | fuel + 1, p =>
    match pool.nodes p with
    | none => []
    | some node => node.val :: pool.walk fuel node.next

/-- Free every node behind a head. -/
def Pool.freeAll (pool : Pool α) : ℕ → ℕ → Pool α
  | 0, _ => pool
  | fuel + 1, p =>
    match pool.nodes p with
    | none => pool
    | some node => (pool.free p).freeAll fuel node.next

/-- The list entered at a head: addresses of allocated nodes and their values. -/
def Linked (pool : Pool α) : ℕ → List (ℕ × α) → Prop
  | p, [] => p = 0
  | p, (q, val) :: rest =>
    p = q ∧ ∃ next, pool.nodes q = some ⟨val, next⟩ ∧ Linked pool next rest

/-- Nothing is stored at the null pointer or at an address not yet handed out. -/
structure Tidy (pool : Pool α) : Prop where
  null : pool.nodes 0 = none
  fresh : ∀ q, pool.fresh ≤ q → pool.nodes q = none
  pos : 0 < pool.fresh

abbrev addrs (l : List (ℕ × α)) : List ℕ := l.map Prod.fst

/-- A list `l` was turned into `l'`, and no node outside of it was written. -/
structure Edited (pool pool' : Pool α) (l l' : List (ℕ × α)) : Prop where
  tidy : Tidy pool'
  grown : pool.fresh ≤ pool'.fresh
  frame : ∀ q, q ∉ addrs l → q < pool.fresh → pool'.nodes q = pool.nodes q
  source : ∀ q ∈ addrs l', q ∈ addrs l ∨ pool.fresh ≤ q
  nodup : (addrs l').Nodup

variable {pool pool' : Pool α} {p q : ℕ} {val : α} {l l' : List (ℕ × α)}
variable {rest rest' : List (ℕ × α)}

theorem alloc_nodes_self (pool : Pool α) (val : α) (next : ℕ) :
    (pool.alloc val next).nodes pool.fresh = some ⟨val, next⟩ :=
  update_self _ _ _

theorem alloc_nodes_of_ne (hne : q ≠ pool.fresh) (val : α) (next : ℕ) :
    (pool.alloc val next).nodes q = pool.nodes q :=
  update_of_ne hne _ _

theorem free_nodes_of_ne (hne : q ≠ p) : (pool.free p).nodes q = pool.nodes q :=
  update_of_ne hne _ _

theorem setNext_nodes_self (pool : Pool α) (p next : ℕ) : (pool.setNext p next).nodes p =
      (pool.nodes p).map fun node => { node with next } :=
  update_self _ _ _

theorem setNext_nodes_of_ne (hne : q ≠ p) (next : ℕ) :
    (pool.setNext p next).nodes q = pool.nodes q :=
  update_of_ne hne _ _

section

variable (hlinked : Linked pool p l)
include hlinked

theorem Linked.congr (hnodes : ∀ q ∈ addrs l, pool'.nodes q = pool.nodes q) : Linked pool' p l := by
  induction l generalizing p with
  | nil => exact hlinked
  | cons entry rest ih =>
    obtain ⟨hp, next, hnode, hrest⟩ := hlinked
    refine ⟨hp, next, ?_, ih hrest fun q hq => ?_⟩
    · rw [hnodes entry.1 mem_cons_self]
      exact hnode
    · exact hnodes q (mem_cons_of_mem _ hq)

theorem Linked.allocated (hq : q ∈ addrs l) : pool.nodes q ≠ none := by
  induction l generalizing p with
  | nil => cases hq
  | cons entry rest ih =>
    obtain ⟨-, next, hnode, hrest⟩ := hlinked
    obtain rfl | htail := mem_cons.mp hq
    · rw [hnode]
      exact Option.some_ne_none _
    · exact ih hrest htail

theorem Linked.head_eq : p = (addrs l).headD 0 := by
  cases l with
  | nil => exact hlinked
  | cons entry rest => exact hlinked.1

theorem Linked.lt_fresh (htidy : Tidy pool) (hq : q ∈ addrs l) : q < pool.fresh := by
  by_contra hge
  exact hlinked.allocated hq (htidy.fresh q (Nat.le_of_not_lt hge))

theorem Linked.length_le (htidy : Tidy pool) (hnodup : (addrs l).Nodup) :
    l.length ≤ pool.fresh := by
  have hsubset : addrs l ⊆ range pool.fresh := fun q hq =>
    mem_range.mpr (hlinked.lt_fresh htidy hq)
  have hle := (hnodup.subperm hsubset).length_le
  rwa [length_map, length_range] at hle

end

/-! ## Edits -/

theorem empty_tidy : Tidy (Pool.empty : Pool α) := ⟨rfl, fun _ _ => rfl, Nat.one_pos⟩

theorem Tidy.alloc (htidy : Tidy pool) (val : α) (next : ℕ) : Tidy (pool.alloc val next) := by
  refine ⟨?_, fun q hq => ?_, Nat.succ_pos _⟩
  · rw [alloc_nodes_of_ne (Nat.ne_of_lt htidy.pos)]
    exact htidy.null
  · have hgt : pool.fresh < q := hq
    rw [alloc_nodes_of_ne (Nat.ne_of_gt hgt)]
    exact htidy.fresh q (Nat.le_of_lt hgt)

/-- A write that leaves an empty address empty. -/
theorem Tidy.write (htidy : Tidy pool) (p : ℕ) {f : Option (Node α) → Option (Node α)}
    (hf : f none = none) :
    Tidy { pool with nodes := update pool.nodes p (f (pool.nodes p)) } := by
  have hnone : ∀ q, pool.nodes q = none → update pool.nodes p (f (pool.nodes p)) q = none := by
    intro q hq
    by_cases heq : q = p
    · rw [heq, update_self, ← heq, hq, hf]
    · rw [update_of_ne heq, hq]
  exact ⟨hnone 0 htidy.null, fun q hq => hnone q (htidy.fresh q hq), htidy.pos⟩

theorem Tidy.free (htidy : Tidy pool) (p : ℕ) : Tidy (pool.free p) :=
  htidy.write p (f := fun _ => none) rfl

theorem Edited.refl (htidy : Tidy pool) (hnodup : (addrs l).Nodup) : Edited pool pool l l :=
  ⟨htidy, le_rfl, fun _ _ _ => rfl, fun _ hq => .inl hq, hnodup⟩

/-- What holds of an edit that starts from nothing holds of one that starts from
any list. -/
theorem Edited.of_nil (hedited : Edited pool pool' [] l') : Edited pool pool' l l' :=
  { hedited with
    frame := fun q _ hlt => hedited.frame q not_mem_nil hlt
    source := fun q hq => (hedited.source q hq).imp_left nofun }

theorem Edited.trans {pool'' : Pool α} {l'' : List (ℕ × α)}
    (hfirst : Edited pool pool' l l') (hsecond : Edited pool' pool'' l' l'') :
    Edited pool pool'' l l'' := by
  refine ⟨hsecond.tidy, hfirst.grown.trans hsecond.grown, fun q hq hlt => ?_, ?_, hsecond.nodup⟩
  · have hnot : q ∉ addrs l' := by
      intro hmem
      obtain hold | hnew := hfirst.source q hmem
      · exact hq hold
      · exact absurd hlt (Nat.not_lt_of_le hnew)
    rw [hsecond.frame q hnot (hlt.trans_le hfirst.grown), hfirst.frame q hq hlt]
  · intro q hq
    obtain hold | hnew := hsecond.source q hq
    · exact hfirst.source q hold
    · exact .inr (hfirst.grown.trans hnew)

/-- A list outside of the edited one is still there. -/
theorem Edited.linked_of_disjoint (hedited : Edited pool pool' l l') (htidy : Tidy pool)
    {other : List (ℕ × α)} (hother : Linked pool p other)
    (hdisjoint : ∀ q ∈ addrs other, q ∉ addrs l) : Linked pool' p other :=
  hother.congr fun q hq => hedited.frame q (hdisjoint q hq) (hother.lt_fresh htidy hq)

theorem Linked.push (htidy : Tidy pool) (hlinked : Linked pool p l) (val : α) :
    Linked (pool.alloc val p) pool.fresh ((pool.fresh, val) :: l) := by
  refine ⟨rfl, p, alloc_nodes_self pool val p, hlinked.congr fun q hq => ?_⟩
  exact alloc_nodes_of_ne (hlinked.lt_fresh htidy hq).ne val p

theorem Edited.push (hedited : Edited pool pool' l l') (hlinked : Linked pool' q l')
    (val : α) (next : ℕ) :
    Edited pool (pool'.alloc val next) l ((pool'.fresh, val) :: l') := by
  refine ⟨hedited.tidy.alloc val next, hedited.grown.trans (Nat.le_succ _), ?_, ?_, ?_⟩
  · intro r hr hlt
    have hne : r ≠ pool'.fresh := (hlt.trans_le hedited.grown).ne
    rw [alloc_nodes_of_ne hne]
    exact hedited.frame r hr hlt
  · intro r hr
    obtain rfl | htail := mem_cons.mp hr
    · exact .inr hedited.grown
    · exact hedited.source r htail
  · refine nodup_cons.mpr ⟨fun hmem => ?_, hedited.nodup⟩
    exact (hlinked.lt_fresh hedited.tidy hmem).ne rfl

theorem linked_pushAll (vals : List α) (hedited : Edited pool pool' l l')
    (hlinked : Linked pool' p l') :
    ∃ new, Linked (pool'.pushAll vals p).1 (pool'.pushAll vals p).2 (new ++ l') ∧
      Edited pool (pool'.pushAll vals p).1 l (new ++ l') ∧ new.map Prod.snd = vals := by
  induction vals with
  | nil => exact ⟨[], hlinked, hedited, rfl⟩
  | cons val vals ih =>
    obtain ⟨new, hlinked', hedited', hvals⟩ := ih
    refine ⟨_ :: new, hlinked'.push hedited'.tidy val, hedited'.push hlinked' val _, ?_⟩
    rw [map_cons, hvals]

/-- The first node is kept and linked to the edited rest. -/
theorem Edited.keep {next : ℕ} (htidy : Tidy pool) (hnode : pool.nodes p = some ⟨val, next⟩)
    (hfresh : p ∉ addrs rest) (hedited : Edited pool pool' rest rest')
    (hlinked : Linked pool' q rest') :
    Linked (pool'.setNext p q) p ((p, val) :: rest') ∧
      Edited pool (pool'.setNext p q) ((p, val) :: rest) ((p, val) :: rest') := by
  have hlt : p < pool.fresh := by
    by_contra hge
    rw [htidy.fresh p (Nat.le_of_not_lt hge)] at hnode
    cases hnode
  have hnot : p ∉ addrs rest' := by
    intro hmem
    rcases hedited.source p hmem with hold | hnew
    · exact hfresh hold
    · exact absurd hlt (Nat.not_lt_of_le hnew)
  have hnode' : pool'.nodes p = some ⟨val, next⟩ := (hedited.frame p hfresh hlt).trans hnode
  have hother : ∀ r, r ≠ p → (pool'.setNext p q).nodes r = pool'.nodes r := fun r hr =>
    setNext_nodes_of_ne hr q
  constructor
  · refine ⟨rfl, q, ?_, hlinked.congr fun r hr => hother r fun heq => hnot (heq ▸ hr)⟩
    rw [setNext_nodes_self, hnode']
    rfl
  · refine ⟨hedited.tidy.write p rfl, hedited.grown, fun r hr hrlt => ?_, ?_, ?_⟩
    · have hmem := not_or.mp (mt mem_cons.mpr hr)
      rw [hother r hmem.1]
      exact hedited.frame r hmem.2 hrlt
    · intro r hr
      obtain rfl | htail := mem_cons.mp hr
      · exact .inl mem_cons_self
      · exact (hedited.source r htail).imp_left (mem_cons_of_mem _)
    · exact nodup_cons.mpr ⟨hnot, hedited.nodup⟩

theorem Edited.drop (hedited : Edited (pool.free p) pool' rest rest') :
    Edited pool pool' ((p, val) :: rest) rest' := by
  refine { hedited with frame := fun r hr hrlt => ?_, source := ?_ }
  · have hmem := not_or.mp (mt mem_cons.mpr hr)
    rw [hedited.frame r hmem.2 hrlt, free_nodes_of_ne hmem.1]
  · exact fun r hr => (hedited.source r hr).imp_left (mem_cons_of_mem _)

theorem Linked.free (hlinked : Linked pool q rest) (hfresh : p ∉ addrs rest) :
    Linked (pool.free p) q rest :=
  hlinked.congr fun _ hr => free_nodes_of_ne fun heq => hfresh (heq ▸ hr)

/-- All nodes of a list are freed, and no others. -/
theorem Linked.freeAll (hlinked : Linked pool p l) (htidy : Tidy pool)
    (hnodup : (addrs l).Nodup) {fuel : ℕ} (hfuel : l.length ≤ fuel) :
    Edited pool (pool.freeAll fuel p) l [] := by
  induction l generalizing pool p fuel with
  | nil =>
    have hzero : p = 0 := hlinked
    cases fuel with
    | zero => exact .refl htidy hnodup
    | succ fuel =>
      rw [Pool.freeAll, hzero, htidy.null]
      exact .refl htidy hnodup
  | cons entry rest ih =>
    obtain ⟨hp, next, hnode, hrest⟩ := hlinked
    obtain ⟨hfirst, hnodup'⟩ := nodup_cons.mp hnodup
    cases fuel with
    | zero => exact absurd hfuel (Nat.not_succ_le_zero _)
    | succ fuel =>
      rw [Pool.freeAll, hp, hnode]
      exact (ih (hrest.free hfirst) (htidy.free _) hnodup' (Nat.le_of_succ_le_succ hfuel)).drop

end AuraLite.NodePool

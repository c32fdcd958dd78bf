import AuraLite.Lib.LinkedChain
import Mathlib.Data.List.Induction

/-!
# Recency lists

A doubly linked list with a head and a tail, in which a node is moved to the front when
it is used.  `Ordered` relates the pointers to the list of nodes; the list is walked from
either end.
-/

namespace AuraLite.RecencyList

open List LinkedChain
open Function (update update_self update_apply update_of_ne)

/-- Pointers of a list; `0` is the null pointer. -/
structure Links where
  head : ℕ
  tail : ℕ
  next : ℕ → ℕ
  prev : ℕ → ℕ

/-- Take a node out. -/
def Links.remove (l : Links) (node : ℕ) : Links :=
  let before := l.prev node
  let behind := l.next node
  let next := if before ≠ 0 then update l.next before behind else l.next
  let prev := if behind ≠ 0 then update l.prev behind before else l.prev
  { head := if node = l.head then behind else l.head
    tail := if node = l.tail then before else l.tail
    next := update next node 0
    prev := update prev node 0 }

/-- Take a node out and put it in front. -/
def Links.touch (l : Links) (node : ℕ) : Links :=
  let l := l.remove node
  { head := node
    tail := if l.tail = 0 then node else l.tail
    next := update l.next node l.head
    prev := if l.head ≠ 0 then update l.prev l.head node else l.prev }

/-- The nodes from `node` on, along one of the links. -/
def walk (link : ℕ → ℕ) : ℕ → ℕ → List ℕ
  | 0, _ => []
  | fuel + 1, node => if node = 0 then [] else node :: walk link fuel (link node)

/-- The pointers make up the list of nodes. -/
structure Ordered (l : Links) (nodes : List ℕ) : Prop where
  chain : Chain l.next l.prev 0 l.head nodes
  nodup : nodes.Nodup
  tail : l.tail = nodes.getLastD 0

variable {l : Links} {nodes : List ℕ} {node : ℕ}

variable {fuel : ℕ}

theorem walk_of_chain {next prev : ℕ → ℕ} {before head : ℕ}
    (h : Chain next prev before head nodes) (hfuel : nodes.length < fuel) :
    walk next fuel head = nodes := by
  induction nodes generalizing before head fuel with
  | nil =>
    obtain ⟨fuel, rfl⟩ := Nat.exists_eq_succ_of_ne_zero (Nat.ne_of_gt hfuel)
    have hend : head = 0 := h
    rw [walk, if_pos hend]
  | cons node rest ih =>
    obtain ⟨fuel, rfl⟩ := Nat.exists_eq_succ_of_ne_zero (Nat.ne_of_gt (Nat.zero_lt_of_lt hfuel))
    obtain ⟨rfl, hnode, -, hrest⟩ := h
    rw [walk, if_neg hnode, ih hrest (Nat.lt_of_succ_lt_succ hfuel)]

theorem Ordered.forward (h : Ordered l nodes) (hfuel : nodes.length < fuel) :
    walk l.next fuel l.head = nodes :=
  walk_of_chain h.chain hfuel

/-- Backwards, each node leads to the one before it. -/
theorem walk_back {prev : ℕ → ℕ}
    (hprev : ∀ left node right, nodes = left ++ node :: right → prev node = left.getLastD 0)
    (hnull : 0 ∉ nodes) (hfuel : nodes.length < fuel) :
    walk prev fuel (nodes.getLastD 0) = nodes.reverse := by
  induction nodes using List.reverseRecOn generalizing fuel with
  | nil =>
    obtain ⟨fuel, rfl⟩ := Nat.exists_eq_succ_of_ne_zero (Nat.ne_of_gt hfuel)
    rfl
  | append_singleton left node ih =>
    obtain ⟨fuel, rfl⟩ := Nat.exists_eq_succ_of_ne_zero (Nat.ne_of_gt (Nat.zero_lt_of_lt hfuel))
    rw [mem_append, not_or, mem_singleton] at hnull
    have hshort : left.length < fuel := by
      rw [length_append, length_singleton] at hfuel
      exact Nat.lt_of_succ_lt_succ hfuel
    have hrest : ∀ left' node' right, left = left' ++ node' :: right →
        prev node' = left'.getLastD 0 := by
      rintro left' node' right rfl
      apply hprev left' node' (right ++ [node])
      rw [append_assoc, cons_append]
    have hlast : (left ++ [node]).getLastD 0 = node := by simp
    rw [hlast, walk, if_neg (Ne.symm hnull.2), hprev left node [] rfl, ih hrest hnull.1 hshort,
      reverse_append, reverse_singleton, singleton_append]

theorem Ordered.null (h : Ordered l nodes) : 0 ∉ nodes := fun hmem => h.chain.ne_zero hmem rfl

theorem Ordered.backward (h : Ordered l nodes) (hfuel : nodes.length < fuel) :
    walk l.prev fuel l.tail = nodes.reverse := by
  rw [h.tail]
  apply walk_back _ h.null hfuel
  rintro left node right rfl
  exact h.chain.prev_eq

theorem Ordered.remove {left right : List ℕ} (h : Ordered l (left ++ node :: right)) :
    Ordered (l.remove node) (left ++ right) where
  chain := by
    have hnode : ∀ other ∈ left ++ right, other ≠ node := by
      rintro other hother rfl
      exact (List.nodup_middle.mp h.nodup).notMem hother
    have hhead : (l.remove node).head = if left = [] then l.next node else l.head := by
      rw [Links.remove]
      cases left with
      | nil => rw [if_pos h.chain.1.symm, if_pos rfl]
      | cons first rest =>
        have hne : node ≠ l.head := by
          rw [h.chain.1]
          exact (hnode first mem_cons_self).symm
        rw [if_neg hne, if_neg (cons_ne_nil first rest)]
    have hnull : ∀ other ∈ left ++ right, other ≠ 0 := by
      rintro other hother rfl
      exact h.null (List.mem_append.mpr ((List.mem_append.mp hother).imp_right
        (mem_cons_of_mem node)))
    rw [hhead]
    apply h.chain.remove h.nodup h.null
    · intro other hother
      simp only [Links.remove, update_of_ne (hnode other hother)]
      by_cases hbefore : l.prev node = 0
      · rw [if_neg (not_not.mpr hbefore), hbefore, if_neg (hnull other hother)]
      · rw [if_pos hbefore, update_apply]
    · intro other hother
      simp only [Links.remove, update_of_ne (hnode other hother)]
      by_cases hbehind : l.next node = 0
      · rw [if_neg (not_not.mpr hbehind), hbehind, if_neg (hnull other hother)]
      · rw [if_pos hbehind, update_apply]
  nodup := (List.nodup_middle.mp h.nodup).of_cons
  tail := by
    have hlast : ∀ (a : ℕ) (rest : List ℕ), (left ++ a :: rest).getLastD 0 = rest.getLastD a := by
      intro a rest
      rw [getLastD_eq_getLast?, getLast?_append, getLast?_cons, Option.some_or,
        Option.getD_some, getLastD_eq_getLast?]
    rw [Links.remove, h.tail, hlast, h.chain.prev_eq]
    cases right with
    | nil => simp
    | cons first rest =>
      have hne : node ≠ (first :: rest).getLastD node := by
        intro heq
        rw [getLastD_cons] at heq
        have hmem : node ∈ first :: rest := heq ▸ getLastD_mem_cons
        exact (List.nodup_middle.mp h.nodup).notMem (mem_append_right left hmem)
      rw [if_neg hne, getLastD_cons, hlast]

/-- A node that is used comes first; the order of the others stays. -/
theorem Ordered.touch (h : Ordered l nodes) (hmem : node ∈ nodes) :
    Ordered (l.touch node) (node :: nodes.erase node) := by
  obtain ⟨left, right, hnodes⟩ := append_of_mem hmem
  subst hnodes
  have hout := List.nodup_middle.mp h.nodup
  have herase : (left ++ node :: right).erase node = left ++ right := by
    rw [erase_append_right _ fun hleft => hout.notMem (mem_append_left right hleft),
      erase_cons_head]
  have hremoved := h.remove
  have hnode : node ≠ 0 := h.chain.ne_zero hmem
  have hother : ∀ other ∈ left ++ right, other ≠ node := by
    rintro other hother rfl
    exact hout.notMem hother
  rw [herase]
  refine ⟨?_, hout, ?_⟩
  · apply hremoved.chain.insert hnode hremoved.nodup
    · simp only [Links.touch, update_self]
    · simp only [Links.touch]
      have hself : (l.remove node).prev node = 0 := by
        simp only [Links.remove, update_self]
      by_cases hempty : (l.remove node).head = 0
      · rw [if_neg (not_not.mpr hempty), hself]
      · rw [if_pos hempty, update_of_ne, hself]
        rintro heq
        rw [hremoved.chain.head_eq] at heq hempty
        cases hlist : left ++ right with
        | nil => exact hempty (by rw [hlist]; rfl)
        | cons first rest =>
          rw [hlist] at heq
          exact hother first (hlist ▸ mem_cons_self) heq.symm
    · intro other hin
      simp only [Links.touch, update_of_ne (hother other hin)]
    · intro other hin
      have hnull : other ≠ 0 := fun hzero => hremoved.null (hzero ▸ hin)
      simp only [Links.touch]
      by_cases hempty : (l.remove node).head = 0
      · rw [if_neg (not_not.mpr hempty), hempty, if_neg hnull]
      · rw [if_pos hempty, update_apply]
  · rw [Links.touch, getLastD_cons]
    simp only [hremoved.tail]
    cases hlist : left ++ right with
    | nil => simp
    | cons first rest =>
      have hne : (first :: rest).getLastD 0 ≠ 0 := by
        intro hzero
        apply hremoved.null
        rw [hlist]
        have hlast : (first :: rest).getLastD 0 ∈ first :: rest := by
          rw [getLastD_cons]
          exact getLastD_mem_cons
        rw [hzero] at hlast
        exact hlast
      rw [if_neg hne, getLastD_cons, getLastD_cons]

end AuraLite.RecencyList

import Mathlib.Data.List.Nodup

/-!
# Null-terminated linked chains

A chain is described by its link functions, not by the memory the links are
stored in: `next node` and `prev node` are whatever the component reads at that
node, and address `0` ends the chain.  `Chain` is the doubly linked list,
`Stack` the singly linked one.  Insertion at the head and removal of an inner
node are stated for any pair of link functions that change only where the code
writes.
-/

namespace AuraLite.LinkedChain

/-- The nodes of a doubly linked chain that is entered at `head` and whose
first node points back to `before`. -/
def Chain (next prev : ℕ → ℕ) : ℕ → ℕ → List ℕ → Prop
  | _, head, [] => head = 0
  | before, head, node :: rest =>
    head = node ∧ node ≠ 0 ∧ prev node = before ∧
      Chain next prev node (next node) rest

/-- The nodes of a singly linked chain entered at `head`. -/
def Stack (next : ℕ → ℕ) : ℕ → List ℕ → Prop
  | head, [] => head = 0
  | head, node :: rest => head = node ∧ node ≠ 0 ∧ Stack next (next node) rest

variable {next prev next' prev' : ℕ → ℕ}

variable {before head : ℕ} {nodes : List ℕ}

/-- A chain reads only the links of its own nodes. -/
theorem Chain.congr (hchain : Chain next prev before head nodes)
    (hnext : ∀ node ∈ nodes, next' node = next node)
    (hprev : ∀ node ∈ nodes, prev' node = prev node) :
    Chain next' prev' before head nodes := by
  induction nodes generalizing before head with
  | nil => exact hchain
  | cons node rest ih =>
    obtain ⟨hhead, hnode, hback, hrest⟩ := hchain
    refine ⟨hhead, hnode, ?_, ?_⟩
    · rw [hprev node (by simp), hback]
    · rw [hnext node (by simp)]
      exact ih hrest (fun other hother => hnext other (by simp [hother]))
        (fun other hother => hprev other (by simp [hother]))

variable {node : ℕ}

theorem Chain.ne_zero (hchain : Chain next prev before head nodes)
    (hmem : node ∈ nodes) : node ≠ 0 := by
  induction nodes generalizing before head with
  | nil => simp at hmem
  | cons first rest ih =>
    obtain ⟨_, hfirst, _, hrest⟩ := hchain
    rcases List.mem_cons.mp hmem with rfl | htail
    · exact hfirst
    · exact ih hrest htail

theorem Chain.head_eq (hchain : Chain next prev before head nodes) : head = nodes.headD 0 := by
  cases nodes with
  | nil => exact hchain
  | cons node rest => exact hchain.1

section

variable {left right : List ℕ} (hchain : Chain next prev before head (left ++ node :: right))
include hchain

theorem Chain.prev_eq : prev node = left.getLastD before := by
  induction left generalizing before head with
  | nil => exact hchain.2.2.1
  | cons first rest ih =>
    rw [ih hchain.2.2.2]
    cases rest <;> simp [List.getLastD]

theorem Chain.next_eq : next node = right.headD 0 := by
  induction left generalizing before head with
  | nil => exact hchain.2.2.2.head_eq
  | cons first rest ih => exact ih hchain.2.2.2

end

/-- The chain behind another node: only the back link of its head is written. -/
theorem Chain.rebase {before' : ℕ} (hchain : Chain next prev before head nodes)
    (hnodup : nodes.Nodup) (hnext : ∀ other ∈ nodes, next' other = next other)
    (hprev : ∀ other ∈ nodes, prev' other = if other = head then before' else prev other) :
    Chain next' prev' before' head nodes := by
  cases nodes with
  | nil => exact hchain
  | cons first rest =>
    obtain ⟨hhead, hfirst, _, hrest⟩ := hchain
    refine ⟨hhead, hfirst, ?_, ?_⟩
    · rw [hprev first (by simp), if_pos hhead.symm]
    · rw [hnext first (by simp)]
      apply hrest.congr
      · exact fun other hother => hnext other (by simp [hother])
      · intro other hother
        have hne : other ≠ head := by
          rintro rfl
          exact (List.nodup_cons.mp hnodup).1 (hhead ▸ hother)
        rw [hprev other (by simp [hother]), if_neg hne]

/-- Pushing a fresh node in front of the chain. -/
theorem Chain.insert (hchain : Chain next prev 0 head nodes) (hnode : node ≠ 0)
    (hnodup : nodes.Nodup) (hnextNode : next' node = head) (hprevNode : prev' node = 0)
    (hnext : ∀ other ∈ nodes, next' other = next other)
    (hprev : ∀ other ∈ nodes, prev' other = if other = head then node else prev other) :
    Chain next' prev' 0 node (node :: nodes) := by
  refine ⟨rfl, hnode, hprevNode, ?_⟩
  rw [hnextNode]
  exact hchain.rebase hnodup hnext hprev

/-- Unlinking an inner node.  The predecessor's forward link and the
successor's back link skip it; the links of all other nodes stay. -/
theorem Chain.remove {left right : List ℕ}
    (hchain : Chain next prev before head (left ++ node :: right))
    (hnodup : (left ++ node :: right).Nodup)
    (hbefore : before ∉ left ++ node :: right)
    (hnext : ∀ other ∈ left ++ right,
      next' other = if other = prev node then next node else next other)
    (hprev : ∀ other ∈ left ++ right,
      prev' other = if other = next node then prev node else prev other) :
    Chain next' prev' before (if left = [] then next node else head)
      (left ++ right) := by
  induction left generalizing before head with
  | nil =>
    obtain ⟨_, _, hback, hrest⟩ := hchain
    refine hrest.rebase hnodup.of_cons ?_ (hback ▸ hprev)
    intro other hother
    rw [hnext other hother, hback, if_neg]
    rintro rfl
    exact hbefore (List.mem_cons_of_mem node hother)
  | cons first rest ih =>
    obtain ⟨hhead, hfirst, hback, hrest⟩ := hchain
    have hnodupTail := (List.nodup_cons.mp hnodup).2
    have hfirstFresh := (List.nodup_cons.mp hnodup).1
    have hinner := ih hrest hnodupTail hfirstFresh
      (fun other hother => hnext other (by simp at hother ⊢; tauto))
      (fun other hother => hprev other (by simp at hother ⊢; tauto))
    refine ⟨by simpa using hhead, hfirst, ?_, ?_⟩
    · have hne : first ≠ next node := by
        rw [hrest.next_eq]
        cases right with
        | nil => simpa using hfirst
        | cons after more =>
          rintro rfl
          exact hfirstFresh (by simp)
      rw [hprev first (by simp), if_neg hne, hback]
    · rw [hnext first (by simp), hrest.prev_eq]
      cases rest with
      | nil => simpa using hinner
      | cons second more =>
        have hne : first ≠ (second :: more).getLastD first := by
          rintro heq
          apply hfirstFresh
          rw [heq, List.getLastD_cons]
          exact List.mem_append_left _ List.getLastD_mem_cons
        rw [if_neg hne]
        simpa using hinner

/-! ## Singly linked chains -/

theorem Stack.congr (hstack : Stack next head nodes)
    (hnext : ∀ node ∈ nodes, next' node = next node) :
    Stack next' head nodes := by
  induction nodes generalizing head with
  | nil => exact hstack
  | cons node rest ih =>
    obtain ⟨hhead, hnode, hrest⟩ := hstack
    refine ⟨hhead, hnode, ?_⟩
    rw [hnext node (by simp)]
    exact ih hrest fun other hother => hnext other (by simp [hother])

theorem Stack.head_eq (hstack : Stack next head nodes) : head = nodes.headD 0 := by
  cases nodes with
  | nil => exact hstack
  | cons node rest => exact hstack.1

end AuraLite.LinkedChain

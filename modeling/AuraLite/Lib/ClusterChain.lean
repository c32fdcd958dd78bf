import Mathlib.Data.List.Nodup

/-!
# Chains in a table

A table gives each node the next one.  A path is a list of nodes that is passed on the way
from one number to another; unlike the chains of a heap it need not end at zero.
-/

namespace AuraLite.ClusterChain

/-- Following `next` from `a` one passes the nodes and arrives at `b`. -/
def Path (next : ℕ → ℕ) : ℕ → List ℕ → ℕ → Prop
  | a, [], b => a = b
  | a, node :: rest, b => a = node ∧ Path next (next node) rest b

variable {next next' : ℕ → ℕ} {a b c : ℕ} {nodes more : List ℕ}

theorem Path.congr (h : Path next a nodes b) (hsame : ∀ x ∈ nodes, next' x = next x) :
    Path next' a nodes b := by
  induction nodes generalizing a with
  | nil => exact h
  | cons node rest ih =>
    refine ⟨h.1, ?_⟩
    rw [hsame node List.mem_cons_self]
    exact ih h.2 fun x hx => hsame x (List.mem_cons_of_mem node hx)

theorem Path.append (h : Path next a nodes b) (h' : Path next b more c) :
    Path next a (nodes ++ more) c := by
  induction nodes generalizing a with
  | nil =>
    rw [Path] at h
    exact h ▸ h'
  | cons node rest ih => exact ⟨h.1, ih h.2⟩

theorem Path.split (h : Path next a (nodes ++ more) c) :
    ∃ b, Path next a nodes b ∧ Path next b more c := by
  induction nodes generalizing a with
  | nil => exact ⟨a, rfl, h⟩
  | cons node rest ih =>
    obtain ⟨b, hfirst, hsecond⟩ := ih h.2
    exact ⟨b, ⟨h.1, hfirst⟩, hsecond⟩

/-- The last node is given another link. -/
theorem Path.relink {node : ℕ} (h : Path next a (nodes ++ [node]) b)
    (hsame : ∀ x ∈ nodes, next' x = next x) (hnode : next' node = c) :
    Path next' a (nodes ++ [node]) c := by
  obtain ⟨m, hfirst, hlast⟩ := h.split
  exact (hfirst.congr hsame).append ⟨hlast.1, hnode⟩

/-- Where one is after some steps on a path. -/
theorem Path.at (h : Path next a nodes b) {i node : ℕ} (hi : nodes[i]? = some node) :
    Path next node (nodes.drop i) b ∧ nodes.drop i = node :: nodes.drop (i + 1) := by
  obtain ⟨hlt, hget⟩ := List.getElem?_eq_some_iff.mp hi
  have hdrop : nodes.drop i = node :: nodes.drop (i + 1) := hget ▸ List.drop_eq_getElem_cons hlt
  rw [← List.take_append_drop i nodes] at h
  obtain ⟨m, -, hlater⟩ := h.split
  refine ⟨?_, hdrop⟩
  rw [hdrop] at hlater ⊢
  exact ⟨rfl, hlater.2⟩

end AuraLite.ClusterChain

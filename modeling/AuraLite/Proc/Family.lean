import Mathlib.Data.List.Nodup
import Mathlib.Data.Nat.Basic
import Mathlib.Order.Basic

/-!
# Parents and children

The family links of the tasks: parent pointers, child lists and the threads made
with `clone`.  `Family` says that they agree.  It is kept when a task gets a child,
when the children of an exiting task go to `init` and when a dead task is removed.
-/

namespace AuraLite.Reaping

open Option List

/-- The family links of a task.  `threads` are the tasks it made with `clone`,
which are on no list of the source. -/
structure Links where
  parent : Option ℕ
  children : List ℕ
  threads : List ℕ
  isPthread : Bool
  dead : Bool
deriving DecidableEq

/-! ## Lists and places -/

/-- The tasks that `p` made with `clone`, or its other children. -/
def kids (f : ℕ → Option Links) (p : ℕ) (thread : Bool) : List ℕ :=
  (f p).elim [] fun q => if thread then q.threads else q.children

/-- The list on which `c` belongs. -/
def place (f : ℕ → Option Links) (c : ℕ) : Option (ℕ × Bool) :=
  (f c).bind fun u => u.parent.map (·, u.isPthread)

variable {f f' : ℕ → Option Links} {p t n c : ℕ} {q u : Links} {thread : Bool}

theorem mem_kids : c ∈ kids f p thread ↔
    ∃ q, f p = some q ∧ if thread then c ∈ q.threads else c ∈ q.children := by
  cases hp : f p <;> cases thread <;> simp [kids, hp]

theorem place_eq : place f c = some (p, thread) ↔
    ∃ u, f c = some u ∧ u.parent = some p ∧ u.isPthread = thread := by
  cases hc : f c <;> simp [place, hc]

/-- Parent pointers and child lists agree, and every parent is alive. -/
structure Family (f : ℕ → Option Links) : Prop where
  init : ∃ i, f 1 = some i ∧ i.dead = false ∧ i.parent = none
  agree : ∀ p c thread, c ∈ kids f p thread ↔ place f c = some (p, thread)
  nodup : ∀ p thread, (kids f p thread).Nodup
  idle : ∀ p q, f p = some q → q.dead = true →
    q.isPthread = false ∧ ∀ thread, kids f p thread = []
  irrefl : ∀ t thread, place f t ≠ some (t, thread)

theorem Family.not_mem (hfamily : Family f) (hplace : place f c = none) :
    c ∉ kids f p thread := fun hmem =>
  nomatch hplace.symm.trans ((hfamily.agree p c thread).mp hmem)

/-! ## The operations -/

/-- A task with a new child or a new thread. -/
def Links.grow (q : Links) (n : ℕ) (thread : Bool) : Links :=
  if thread then { q with threads := n :: q.threads }
  else { q with children := n :: q.children }

theorem grow_fields (q : Links) (n : ℕ) (thread : Bool) :
    (q.grow n thread).parent = q.parent ∧ (q.grow n thread).dead = q.dead := by
  cases thread <;> exact ⟨rfl, rfl⟩

theorem Family.grow (hfamily : Family f) (hp : f p = some q) (hlive : q.dead = false)
    (hn : f n = none)
    (hf' : ∀ j, f' j = if j = p then some (q.grow n thread)
      else if j = n then some ⟨some p, [], [], thread, false⟩ else f j) :
    Family f' := by
  have hnp : n ≠ p := fun heq => by rw [heq, hp] at hn; cases hn
  have hnone : place f n = none := by rw [place, hn, bind_none]
  have hkids : ∀ r b, kids f' r b =
      if r = p ∧ b = thread then n :: kids f r b else kids f r b := by
    intro r b
    by_cases hrp : r = p
    · cases b <;> cases thread <;> simp [kids, hf', hrp, hp, Links.grow]
    · by_cases hrn : r = n <;> simp [kids, hf', hrp, hrn, hn, hnp]
  have hplace : ∀ c, place f' c = if c = n then some (p, thread) else place f c := by
    intro c
    by_cases hcp : c = p
    · cases thread <;> simp [place, hf', hcp, hp, hnp.symm, Links.grow]
    · by_cases hcn : c = n <;> simp [place, hf', hcp, hcn, hnp]
  refine ⟨?_, fun r c b => ?_, fun r b => ?_, fun r q' hq' hdead => ?_, fun c b => ?_⟩
  · obtain ⟨i, hi, hidead, hiparent⟩ := hfamily.init
    rw [hf']
    split_ifs with hone hnew
    · rw [hone, hp] at hi
      cases hi
      cases thread <;> exact ⟨_, rfl, hidead, hiparent⟩
    · rw [hnew, hn] at hi
      cases hi
    · exact ⟨i, hi, hidead, hiparent⟩
  · rw [hkids, hplace]
    by_cases hcn : c = n
    · have hnot := @Family.not_mem f r n b hfamily hnone
      split_ifs with hlist <;> grind
    · rw [if_neg hcn, ← hfamily.agree]
      split_ifs
      · exact mem_cons.trans (or_iff_right hcn)
      · rfl
  · rw [hkids]
    split_ifs
    · exact nodup_cons.mpr ⟨hfamily.not_mem hnone, hfamily.nodup r b⟩
    · exact hfamily.nodup r b
  · rw [hf'] at hq'
    split_ifs at hq' with hrp
    · cases hq'
      cases thread <;> exact absurd (hlive.symm.trans hdead) Bool.false_ne_true
    · cases hq'
      cases hdead
    · obtain ⟨hfamilyd, hidle⟩ := hfamily.idle r q' hq' hdead
      exact ⟨hfamilyd, fun b => by rw [hkids, if_neg (hrp ·.1), hidle]⟩
  · rw [hplace]
    split_ifs with hcn
    · intro heq
      cases heq
      exact hnp hcn.symm
    · exact hfamily.irrefl c b

/-- A child of an exiting task: `init` becomes its parent unless it was collected. -/
def Links.rehome (u : Links) (done : Bool) : Links :=
  { u with parent := if done then none else some 1 }

theorem Family.adopt {self init : Links} {done : ℕ → Bool} (hfamily : Family f)
    (hself : f t = some self) (ht : t ≠ 1) (hthreads : self.threads = [])
    (hpthread : self.isPthread = false) (hinit : f 1 = some init)
    (hf' : ∀ j, f' j = if j = t then some { self with children := [], dead := true }
      else if j = 1 then some { init with
        children := (self.children.filter (!done ·)).reverse ++ init.children }
      else if j ∈ self.children then
        (f j).map (·.rehome (done j))
      else f j) : Family f' := by
  obtain ⟨i, hi, hlive, hroot⟩ := hfamily.init
  cases hinit.symm.trans hi
  have hown : kids f t false = self.children := by
    rw [kids, hself]
    rfl
  have hmine : ∀ c, c ∈ self.children ↔ place f c = some (t, false) := fun c => by
    rw [← hfamily.agree, hown]
  have hnot : t ∉ self.children := fun hmem => hfamily.irrefl t false ((hmine t).mp hmem)
  have hnone : place f 1 = none := by rw [place, hi, bind_some, hroot, map_none]
  have hnotInit : 1 ∉ self.children := fun hmem => nomatch hnone.symm.trans ((hmine 1).mp hmem)
  have hkids : ∀ r b, kids f' r b = if r = t then [] else if r = 1 ∧ b = false then
      (self.children.filter (!done ·)).reverse ++ kids f r b else kids f r b := by
    intro r b
    by_cases hrt : r = t
    · cases b <;> simp [kids, hf', hrt, hthreads]
    · by_cases hone : r = 1
      · cases b <;> simp [kids, hf', hone, ht.symm, hi]
      · cases hr : f r <;> by_cases hmem : r ∈ self.children <;>
          simp [kids, hf', hrt, hone, hmem, hr, Links.rehome]
  have hplace : ∀ c, place f' c =
      if c ∈ self.children then if done c then none else some (1, false) else place f c := by
    intro c
    by_cases hct : c = t
    · rw [hct, if_neg hnot, place, place, hf', if_pos rfl, hself]
      rfl
    · by_cases hone : c = 1
      · rw [hone, if_neg hnotInit, place, place, hf', if_neg ht.symm, if_pos rfl, hi]
        rfl
      · by_cases hmem : c ∈ self.children
        · obtain ⟨u, hu, -, hfamilyd⟩ := place_eq.mp ((hmine c).mp hmem)
          cases hdone : done c <;>
            simp [place, hf', hct, hone, hmem, hu, hfamilyd, hdone, Links.rehome]
        · simp [place, hf', hct, hone, hmem]
  refine ⟨?_, fun r c b => ?_, fun r b => ?_, fun r q hq hdead => ?_, fun c b => ?_⟩
  · rw [hf', if_neg ht.symm, if_pos rfl]
    exact ⟨_, rfl, hlive, hroot⟩
  · rw [hkids, hplace]
    by_cases hmem : c ∈ self.children
    · -- a child of the exiting task was on no other list
      have hother : c ∈ kids f r b → r = t := fun hin =>
        congrArg Prod.fst (some.inj
          (((hfamily.agree r c b).mp hin).symm.trans ((hmine c).mp hmem)))
      rw [if_pos hmem]
      cases hdone : done c <;> grind
    · have hother : r = t → place f c ≠ some (r, b) := fun hrt hin => by
        rw [hrt, ← hfamily.agree, kids, hself] at hin
        cases b with
        | false => exact hmem hin
        | true => simp [hthreads] at hin
      rw [if_neg hmem]
      split_ifs with hrt hinit
      · exact iff_of_false not_mem_nil (hother hrt)
      · rw [← hfamily.agree, mem_append, mem_reverse, mem_filter]
        exact or_iff_right fun hin => hmem hin.1
      · exact hfamily.agree r c b
  · rw [hkids]
    split_ifs with hrt hinit
    · exact nodup_nil
    · refine nodup_append'.mpr ⟨nodup_reverse.mpr ?_, hfamily.nodup r b, fun c hadopted hown => ?_⟩
      · exact (hown ▸ hfamily.nodup t false).filter _
      · have hmem := (mem_filter.mp (mem_reverse.mp hadopted)).1
        cases ((hfamily.agree r c b).mp hown).symm.trans ((hmine c).mp hmem)
        exact hrt rfl
    · exact hfamily.nodup r b
  · have hidle : ∀ q₀, r ≠ t → r ≠ 1 → f r = some q₀ → q₀.dead = true →
        q₀.isPthread = false ∧ ∀ b, kids f' r b = [] := by
      intro q₀ hrt hone hq₀ hdead₀
      obtain ⟨hfamilyd, hnone⟩ := hfamily.idle r q₀ hq₀ hdead₀
      exact ⟨hfamilyd, fun b => by rw [hkids, if_neg hrt, if_neg (hone ·.1), hnone]⟩
    rw [hf'] at hq
    split_ifs at hq with hrt hone
    · cases hq
      exact ⟨hpthread, fun b => by rw [hkids, if_pos hrt]⟩
    · cases hq
      exact absurd (hlive.symm.trans hdead) Bool.false_ne_true
    · obtain ⟨q₀, hq₀, rfl⟩ := map_eq_some_iff.mp hq
      exact hidle q₀ hrt hone hq₀ hdead
    · exact hidle q hrt hone hq hdead
  · rw [hplace]
    split_ifs with hmem
    · exact (some_ne_none _).symm
    · intro heq
      cases heq
      exact hnotInit hmem
    · exact hfamily.irrefl c b

theorem Family.remove {z : Links} (hfamily : Family f) (hz : f t = some z) (hdead : z.dead = true)
    (hf' : ∀ j, f' j = if j = t then none
      else if z.parent = some j then
        (f j).map fun q => { q with children := q.children.erase t }
      else f j) : Family f' := by
  obtain ⟨hfamilyd, hidle⟩ := hfamily.idle t z hz hdead
  have hkids : ∀ r b, kids f' r b = (kids f r b).erase t := by
    intro r b
    by_cases hrt : r = t
    · rw [hrt, hidle, kids, hf', if_pos rfl]
      rfl
    · by_cases hlist : z.parent = some r ∧ b = false
      · rw [kids, kids, hf', if_neg hrt, if_pos hlist.1, elim_map, hlist.2]
        cases f r <;> rfl
      · have hnot : t ∉ kids f r b := fun hmem => by
          obtain ⟨z', hz', hparent, hfamilyd'⟩ := place_eq.mp ((hfamily.agree r t b).mp hmem)
          cases hz.symm.trans hz'
          exact hlist ⟨hparent, hfamilyd'.symm.trans hfamilyd⟩
        rw [erase_of_not_mem hnot]
        by_cases hparent : z.parent = some r
        · have hb : b = true := eq_true_of_ne_false fun hb => hlist ⟨hparent, hb⟩
          cases hr : f r <;> simp [kids, hf', hrt, hparent, hr, hb]
        · simp [kids, hf', hrt, hparent]
  have hplace : ∀ c, place f' c = if c = t then none else place f c := by
    intro c
    rw [place, hf']
    split_ifs
    · rfl
    · cases hc : f c <;> simp [place, hc]
    · rfl
  have hback : ∀ r q, f' r = some q → ∃ q₀, f r = some q₀ ∧ q₀.dead = q.dead ∧
      q₀.isPthread = q.isPthread := by
    intro r q hq
    rw [hf'] at hq
    split_ifs at hq
    · obtain ⟨q₀, hq₀, rfl⟩ := map_eq_some_iff.mp hq
      exact ⟨q₀, hq₀, rfl, rfl⟩
    · exact ⟨q, hq, rfl, rfl⟩
  refine ⟨?_, fun r c b => ?_, fun r b => ?_, fun r q hq hqdead => ?_, fun c b => ?_⟩
  · obtain ⟨i, hi, hlive, hroot⟩ := hfamily.init
    have hone : 1 ≠ t := fun heq => by
      rw [heq, hz] at hi
      cases hi
      exact absurd (hlive.symm.trans hdead) Bool.false_ne_true
    rw [hf', if_neg hone, hi]
    split_ifs <;> exact ⟨_, rfl, hlive, hroot⟩
  · rw [hkids, hplace, (hfamily.nodup r b).mem_erase_iff, hfamily.agree]
    split_ifs with hct <;> simp [hct]
  · rw [hkids]
    exact (hfamily.nodup r b).erase t
  · obtain ⟨q₀, hq₀, hdead', hfamilyd'⟩ := hback r q hq
    obtain ⟨hthread, hnone⟩ := hfamily.idle r q₀ hq₀ (hdead'.trans hqdead)
    exact ⟨hfamilyd'.symm.trans hthread, fun b => by rw [hkids, hnone]; rfl⟩
  · rw [hplace]
    split_ifs
    · exact (some_ne_none _).symm
    · exact hfamily.irrefl c b

end AuraLite.Reaping

import Mathlib.Data.List.TakeWhile
import AuraLite.Lib.IntervalList
import AuraLite.Mm.Pmm

/-!
# Virtual memory areas

The list of areas of a process: `vma_find`, `vma_insert`, `vma_insert_shmem`,
`vma_remove_range` and the walk of `mprotect`.  The slab allocator is seen only
through the outcomes of the successive `vma_alloc` calls.
-/

namespace AuraLite.Mmap

open Option List IntervalList Pmm Word64

structure Vma where
  vaStart : ℕ
  vaEnd : ℕ
  flags : ℕ
  /-- The open file description behind the area. -/
  file : Option ℕ
  fileOff : ℕ
  shmid : ℕ
deriving DecidableEq

def vmaAnon : ℕ := 1
def vmaFile : ℕ := 2
def vmaShared : ℕ := 4
def vmaRead : ℕ := 8
def vmaWrite : ℕ := 16
def vmaExec : ℕ := 32
def vmaShmem : ℕ := 64

/-- The C test `flags & bit`. -/
def hasFlag (flags bit : ℕ) : Bool := flags &&& bit != 0

def Vma.contains (v : Vma) (va : ℕ) : Bool := decide (v.vaStart ≤ va ∧ va < v.vaEnd)

def vmaFind (list : List Vma) (va : ℕ) : Option Vma := list.find? (·.contains va)

/-- The next outcome of `vma_alloc`. -/
def vmaAlloc : List Bool → Bool × List Bool
  | [] => (false, [])
  | ok :: slab => (ok, slab)

/-- The loop that links a new area in front of the first one that does not start
below it. -/
def vmaLink (list : List Vma) (new : Vma) : List Vma :=
  list.orderedInsert (fun v w => v.vaStart ≤ w.vaStart) new

/-- `vma_insert`; `none` stands for the return value `-1`. -/
def vmaInsert (list : List Vma) (new : Vma) (slab : List Bool) :
    Option (List Vma) × List Bool :=
  if hasFlag new.flags vmaFile && new.file.isNone then (none, slab)
  else
    let alloc := vmaAlloc slab
    (if alloc.1 then some (vmaLink list new) else none, alloc.2)

/-- `vma_insert_shmem` for a valid object. -/
def vmaInsertShmem (list : List Vma) (start stop flags shmid : ℕ)
    (slab : List Bool) : Option (List Vma) × List Bool :=
  let alloc := vmaAlloc slab
  (if alloc.1 then
      some (vmaLink list ⟨start, stop, flags ||| vmaShmem, none, 0, shmid⟩)
    else none, alloc.2)

/-- What is left of an area when `[start, stop)` is cut out of it. -/
def Vma.pieces (v : Vma) (start stop : ℕ) : List Vma :=
  (if v.vaStart < start then [{ v with vaEnd := start }] else []) ++
    if stop < v.vaEnd then
      [{ v with
          vaStart := stop
          fileOff := wrap64 (v.fileOff + (stop - v.vaStart)) }]
    else []

/-- `vma_remove_range`.  An area stays whole when a piece cannot be allocated. -/
def vmaRemoveRange (start stop : ℕ) : List Vma → List Bool → List Vma × List Bool
  | [], slab => ([], slab)
  | v :: rest, slab =>
    if stop ≤ v.vaStart then (v :: rest, slab)
    else if v.vaEnd ≤ start then
      let r := vmaRemoveRange start stop rest slab
      (v :: r.1, r.2)
    else
      let left := if v.vaStart < start then vmaAlloc slab else (true, slab)
      let right := if stop < v.vaEnd then vmaAlloc left.2 else (true, left.2)
      let r := vmaRemoveRange start stop rest right.2
      ((if left.1 && right.1 then v.pieces start stop else [v]) ++ r.1, r.2)

def mprotectBuildVmaFlags (flags prot : ℕ) : ℕ :=
  let kept := flags &&& (2 ^ 32 - 1 - (vmaRead ||| vmaWrite ||| vmaExec))
  let read := if hasFlag prot 1 then kept ||| vmaRead else kept
  let write := if hasFlag prot 2 then read ||| vmaWrite else read
  if hasFlag prot 4 then write ||| vmaExec else write

/-- The first loop of `mprotect_update_vma_range`: the areas from the first one
on cover everything up to `stop`. -/
def mprotectCovered (stop : ℕ) : ℕ → List Vma → Bool
  | covered, [] => decide (stop ≤ covered)
  | covered, v :: rest =>
    if covered < stop then
      if covered < v.vaStart then false else mprotectCovered stop v.vaEnd rest
    else true

/-- The second loop: new flags for the areas that start below `stop`. -/
def mprotectApply (stop prot : ℕ) : List Vma → List Vma
  | [] => []
  | v :: rest =>
    if v.vaStart < stop then
      { v with flags := mprotectBuildVmaFlags v.flags prot } ::
        mprotectApply stop prot rest
    else v :: rest

def mprotectUpdateVmaRange (list : List Vma) (addr len prot : ℕ) :
    Option (List Vma) :=
  let stop := wrap64 (addr + len)
  let before := list.takeWhile (!·.contains addr)
  let from_ := list.dropWhile (!·.contains addr)
  if mprotectCovered stop addr from_ then
    some (before ++ mprotectApply stop prot from_)
  else none

/-! ## Well-formed lists -/

/-- The areas of a process: sorted by start, pairwise disjoint, not empty. -/
structure WellFormed (list : List Vma) : Prop where
  sorted : list.Pairwise fun v w => v.vaStart < w.vaStart
  disjoint : list.Pairwise fun v w => v.vaEnd ≤ w.vaStart ∨ w.vaEnd ≤ v.vaStart
  nonempty : ∀ v ∈ list, v.vaStart < v.vaEnd

abbrev Areas (list : List Vma) : Prop := Ordered Vma.vaStart Vma.vaEnd list

theorem wellFormed_iff : WellFormed list ↔ Areas list := by
  constructor
  · rintro ⟨hsorted, hdisjoint, hnonempty⟩
    refine ⟨(hsorted.and hdisjoint).imp_of_mem ?_, hnonempty⟩
    rintro v w _ hw ⟨hvw, happart⟩
    have hlast := hnonempty w hw
    omega
  · intro hareas
    exact ⟨hareas.sorted, hareas.apart.imp fun hvw => .inl hvw, hareas.nonempty⟩

/-- The bounds of an area are page boundaries. -/
def Vma.Aligned (v : Vma) : Prop := pageSize ∣ v.vaStart ∧ pageSize ∣ v.vaEnd

variable {list list' : List Vma} {v w new : Vma} {start stop : ℕ}
variable {slab slab' : List Bool}

theorem mem_vmaLink : v ∈ vmaLink list new ↔ v = new ∨ v ∈ list := mem_orderedInsert _

theorem vmaInsert_some (hinsert : (vmaInsert list new slab).1 = some list') :
    list' = vmaLink list new := by
  simp only [vmaInsert] at hinsert
  split_ifs at hinsert
  exact (some.inj hinsert).symm

theorem vmaInsertShmem_some {flags shmid : ℕ}
    (hinsert : (vmaInsertShmem list start stop flags shmid slab).1 = some list') :
    list' = vmaLink list ⟨start, stop, flags ||| vmaShmem, none, 0, shmid⟩ := by
  simp only [vmaInsertShmem] at hinsert
  split_ifs at hinsert
  exact (some.inj hinsert).symm

/-! ## Cutting a range out -/

abbrev Part (w v : Vma) : Prop := Within Vma.vaStart Vma.vaEnd w v

abbrev Outside (start stop : ℕ) (v : Vma) : Prop :=
  Clear Vma.vaStart Vma.vaEnd start stop v

theorem mem_pieces (hw : w ∈ v.pieces start stop) :
    (v.vaStart < start ∧ w.vaStart = v.vaStart ∧ w.vaEnd = start) ∨
      (stop < v.vaEnd ∧ w.vaStart = stop ∧ w.vaEnd = v.vaEnd) := by
  rw [Vma.pieces, mem_append] at hw
  rcases hw with hleft | hright
  · split_ifs at hleft with hbelow
    · rw [List.mem_singleton.mp hleft]
      exact .inl ⟨hbelow, rfl, rfl⟩
    · simp at hleft
  · split_ifs at hright with habove
    · rw [List.mem_singleton.mp hright]
      exact .inr ⟨habove, rfl, rfl⟩
    · simp at hright

theorem pieces_areas (hrange : start ≤ stop) (v : Vma) : Areas (v.pieces start stop) := by
  have hnonempty : ∀ w ∈ v.pieces start stop, w.vaStart < w.vaEnd := by
    intro w hw
    rcases mem_pieces hw with ⟨hbelow, hstart, hstop⟩ | ⟨habove, hstart, hstop⟩ <;> omega
  refine ⟨?_, hnonempty⟩
  rw [Vma.pieces]
  split_ifs <;> simp [hrange]

theorem pieces_part (hstart : start < v.vaEnd) (hstop : v.vaStart < stop) :
    ∀ w ∈ v.pieces start stop, Part w v := by
  intro w hw
  rcases mem_pieces hw with ⟨_, hlow, hhigh⟩ | ⟨_, hlow, hhigh⟩
  · exact ⟨hlow.ge, hhigh ▸ hstart.le⟩
  · exact ⟨hlow ▸ hstop.le, hhigh.le⟩

theorem pieces_outside : ∀ w ∈ v.pieces start stop, Outside start stop w := by
  intro w hw
  rcases mem_pieces hw with ⟨_, _, hhigh⟩ | ⟨_, hlow, _⟩
  · exact .inl hhigh.le
  · exact .inr hlow.ge

theorem pieces_aligned (hv : v.Aligned) (hstart : pageSize ∣ start)
    (hstop : pageSize ∣ stop) : ∀ w ∈ v.pieces start stop, w.Aligned := by
  intro w hw
  rcases mem_pieces hw with ⟨_, hlow, hhigh⟩ | ⟨_, hlow, hhigh⟩
  · exact ⟨hlow ▸ hv.1, hhigh ▸ hstart⟩
  · exact ⟨hlow ▸ hstop, hhigh ▸ hv.2⟩

/-- Whether the pieces of `v` can be allocated. -/
def Vma.nodes (start stop : ℕ) (v : Vma) (slab : List Bool) : Bool × List Bool :=
  let left := if v.vaStart < start then vmaAlloc slab else (true, slab)
  let right := if stop < v.vaEnd then vmaAlloc left.2 else (true, left.2)
  (left.1 && right.1, right.2)

theorem vmaRemoveRange_met (hstop : ¬ stop ≤ v.vaStart) (hstart : ¬ v.vaEnd ≤ start) :
    (vmaRemoveRange start stop (v :: list) slab).1 =
      (if (v.nodes start stop slab).1 then v.pieces start stop else [v]) ++
        (vmaRemoveRange start stop list (v.nodes start stop slab).2).1 := by
  rw [vmaRemoveRange, if_neg hstop, if_neg hstart]
  rfl

/-- The walk over areas that start below the end goes on behind them. -/
theorem vmaRemoveRange_append {pre : List Vma} (hbelow : ∀ u ∈ pre, u.vaStart < stop)
    (rest : List Vma) (slab : List Bool) : vmaRemoveRange start stop (pre ++ rest) slab =
      ((vmaRemoveRange start stop pre slab).1 ++
        (vmaRemoveRange start stop rest (vmaRemoveRange start stop pre slab).2).1,
      (vmaRemoveRange start stop rest (vmaRemoveRange start stop pre slab).2).2) := by
  induction pre generalizing slab with
  | nil => rfl
  | cons u pre ih =>
    obtain ⟨hu, hpre⟩ := forall_mem_cons.mp hbelow
    simp only [cons_append, vmaRemoveRange, if_neg hu.not_ge, ih hpre]
    split_ifs <;> simp

/-- The three ways in which one area is handled. -/
theorem vmaRemoveRange_cons (start stop : ℕ) (v : Vma) (rest : List Vma) (slab : List Bool) :
    (stop ≤ v.vaStart ∧ (vmaRemoveRange start stop (v :: rest) slab).1 = v :: rest) ∨
    ∃ slab' parts, (vmaRemoveRange start stop (v :: rest) slab).1 =
        parts ++ (vmaRemoveRange start stop rest slab').1 ∧
      (parts = [v] ∨ parts = v.pieces start stop ∧ start < v.vaEnd ∧ v.vaStart < stop) := by
  by_cases hafter : stop ≤ v.vaStart
  · rw [vmaRemoveRange, if_pos hafter]
    exact .inl ⟨hafter, rfl⟩
  · right
    by_cases hbefore : v.vaEnd ≤ start
    · rw [vmaRemoveRange, if_neg hafter, if_pos hbefore]
      exact ⟨slab, [v], rfl, .inl rfl⟩
    · refine ⟨_, _, vmaRemoveRange_met hafter hbefore, ?_⟩
      split_ifs
      · exact .inr ⟨rfl, not_le.mp hbefore, not_le.mp hafter⟩
      · exact .inl rfl

theorem mem_vmaRemoveRange (hw : w ∈ (vmaRemoveRange start stop list slab).1) :
    w ∈ list ∨ ∃ v ∈ list, start < v.vaEnd ∧ v.vaStart < stop ∧ w ∈ v.pieces start stop := by
  induction list generalizing slab with
  | nil => exact .inl hw
  | cons v rest ih =>
    rcases vmaRemoveRange_cons start stop v rest slab with
      ⟨_, hsame⟩ | ⟨slab', parts, hcons, hparts⟩
    · exact .inl (hsame ▸ hw)
    · rw [hcons, mem_append] at hw
      rcases hw with hw | hw
      · rcases hparts with rfl | ⟨rfl, hstart, hstop⟩
        · exact .inl (mem_cons.mpr (.inl (mem_singleton.mp hw)))
        · exact .inr ⟨v, mem_cons_self, hstart, hstop, hw⟩
      · rcases ih hw with hw | ⟨u, hu, hcut⟩
        · exact .inl (mem_cons_of_mem v hw)
        · exact .inr ⟨u, mem_cons_of_mem v hu, hcut⟩

theorem vmaRemoveRange_part (start stop : ℕ) (list : List Vma) (slab : List Bool) :
    ∀ w ∈ (vmaRemoveRange start stop list slab).1, ∃ v ∈ list, Part w v := by
  intro w hw
  rcases mem_vmaRemoveRange hw with hw | ⟨v, hv, hstart, hstop, hw⟩
  · exact ⟨w, hw, le_rfl, le_rfl⟩
  · exact ⟨v, hv, pieces_part hstart hstop w hw⟩

/-- Cutting keeps the list well formed, whatever could be allocated. -/
theorem vmaRemoveRange_areas (hareas : Areas list) (hrange : start ≤ stop)
    (slab : List Bool) : Areas (vmaRemoveRange start stop list slab).1 := by
  induction list generalizing slab with
  | nil => exact .nil
  | cons v rest ih =>
    obtain ⟨hv, _, hrest⟩ := ordered_cons.mp hareas
    rcases vmaRemoveRange_cons start stop v rest slab with
      ⟨_, hsame⟩ | ⟨slab', parts, hcons, hparts⟩
    · rw [hsame]
      exact hareas
    · rw [hcons]
      have htail := vmaRemoveRange_part start stop rest slab'
      rcases hparts with rfl | ⟨rfl, hstart, hstop⟩
      · refine hareas.pieces ?_ ?_ (ih hrest slab') htail
        · exact ordered_cons.mpr ⟨hv, by simp, .nil⟩
        · intro w hw
          rw [List.mem_singleton.mp hw]
          exact ⟨le_rfl, le_rfl⟩
      · exact hareas.pieces (pieces_areas hrange v) (pieces_part hstart hstop)
          (ih hrest slab') htail

theorem vmaRemoveRange_aligned (haligned : ∀ v ∈ list, v.Aligned)
    (hstart : pageSize ∣ start) (hstop : pageSize ∣ stop) (slab : List Bool) :
    ∀ w ∈ (vmaRemoveRange start stop list slab).1, w.Aligned := by
  intro w hw
  rcases mem_vmaRemoveRange hw with hw | ⟨v, hv, -, -, hw⟩
  · exact haligned w hw
  · exact pieces_aligned (haligned v hv) hstart hstop w hw

/-! ## Cutting with enough nodes -/

/-- An area with `[start, stop)` cut out of it. -/
def Vma.cut (start stop : ℕ) (v : Vma) : List Vma :=
  if stop ≤ v.vaStart ∨ v.vaEnd ≤ start then [v] else v.pieces start stop

/-- Every allocation of the walk succeeds. -/
def allNodes (start stop : ℕ) : List Vma → List Bool → Prop
  | [], _ => True
  | v :: rest, slab =>
    if stop ≤ v.vaStart then True
    else if v.vaEnd ≤ start then allNodes start stop rest slab
    else (v.nodes start stop slab).1 = true ∧ allNodes start stop rest (v.nodes start stop slab).2

theorem cut_above (habove : ∀ v ∈ list, stop ≤ v.vaStart) (start : ℕ) :
    list.flatMap (·.cut start stop) = list :=
  (flatMap_congr fun v hv => if_pos (.inl (habove v hv))).trans (flatMap_singleton' list)

theorem vmaRemoveRange_eq_cut (hareas : Areas list) (hnodes : allNodes start stop list slab) :
    (vmaRemoveRange start stop list slab).1 = list.flatMap (·.cut start stop) := by
  induction list generalizing slab with
  | nil => rfl
  | cons v rest ih =>
    obtain ⟨hv, hhead, hrest⟩ := ordered_cons.mp hareas
    rw [allNodes] at hnodes
    split_ifs at hnodes with hafter hbefore
    · rw [vmaRemoveRange, if_pos hafter, cut_above (forall_mem_cons.mpr ⟨hafter, fun u hu => ?_⟩)]
      exact hafter.trans (hv.le.trans (hhead u hu))
    · rw [vmaRemoveRange, if_neg hafter, if_pos hbefore, flatMap_cons, ← ih hrest hnodes, Vma.cut,
        if_pos (.inr hbefore)]
      rfl
    · rw [vmaRemoveRange_met hafter hbefore, if_pos hnodes.1, ih hrest hnodes.2, flatMap_cons,
        Vma.cut, if_neg (not_or.mpr ⟨hafter, hbefore⟩)]

theorem allNodes_above (habove : ∀ v ∈ list, stop ≤ v.vaStart) : allNodes start stop list slab := by
  cases list with
  | nil => trivial
  | cons v rest => rw [allNodes, if_pos (habove v mem_cons_self)]; trivial

/-- The areas after the first one need at most the piece above the range. -/
theorem allNodes_after (hareas : Areas list) (hlow : ∀ v ∈ list, start ≤ v.vaStart) :
    allNodes start stop list (true :: slab) := by
  induction list with
  | nil => trivial
  | cons v rest ih =>
    obtain ⟨-, hhead, hrest⟩ := ordered_cons.mp hareas
    obtain ⟨hstart, hlow⟩ := forall_mem_cons.mp hlow
    rw [allNodes, Vma.nodes, if_neg hstart.not_gt]
    split_ifs with _ _ hright
    · exact ih hrest hlow
    · exact ⟨rfl, allNodes_above fun u hu => hright.le.trans (hhead u hu)⟩
    · exact ⟨rfl, ih hrest hlow⟩

/-- Two nodes are enough to cut any range out of a well-formed list. -/
theorem allNodes_two (hareas : Areas list) :
    allNodes start stop list (true :: true :: slab) := by
  induction list with
  | nil => trivial
  | cons v rest ih =>
    obtain ⟨hv, hhead, hrest⟩ := ordered_cons.mp hareas
    by_cases hleft : v.vaStart < start
    · rw [allNodes, Vma.nodes, if_pos hleft]
      split_ifs with _ hbefore hright
      · exact ih hrest
      · exact ⟨rfl, allNodes_above fun u hu => hright.le.trans (hhead u hu)⟩
      · refine ⟨rfl, allNodes_after hrest fun u hu => ?_⟩
        exact (not_le.mp hbefore).le.trans (hhead u hu)
    · refine allNodes_after hareas (forall_mem_cons.mpr ⟨not_lt.mp hleft, fun u hu => ?_⟩)
      exact (not_lt.mp hleft).trans (hv.le.trans (hhead u hu))

theorem vmaRemoveRange_outside (hareas : Areas list) :
    ∀ w ∈ (vmaRemoveRange start stop list (true :: true :: slab)).1, Outside start stop w := by
  intro w hw
  rw [vmaRemoveRange_eq_cut hareas (allNodes_two hareas), mem_flatMap] at hw
  obtain ⟨v, -, hw⟩ := hw
  rw [Vma.cut] at hw
  split_ifs at hw with hout
  · rw [mem_singleton.mp hw]
    exact hout.symm
  · exact pieces_outside w hw

/-- What is seen of an area at `va`. -/
def Vma.view (va : ℕ) (v : Vma) : ℕ × Option ℕ × ℕ × ℕ :=
  (v.flags, v.file, v.shmid, wrap64 (v.fileOff + (va - v.vaStart)))

theorem find_cut {va : ℕ} (hrange : start < stop) (v : Vma) :
    ((v.cut start stop).find? (·.contains va)).map (Vma.view va) =
      if (start ≤ va ∧ va < stop) ∨ v.contains va = false then none else some (v.view va) := by
  simp only [Vma.cut, Vma.pieces, Vma.contains, decide_eq_false_iff_not]
  split_ifs <;> simp only [find?_cons, find?_nil, nil_append, append_nil, singleton_append]
  all_goals grind [Vma.view, wrap64]

theorem vmaFind_cut (hrange : start < stop) (list : List Vma) (va : ℕ) :
    (vmaFind (list.flatMap (·.cut start stop)) va).map (Vma.view va) =
      if start ≤ va ∧ va < stop then none else (vmaFind list va).map (Vma.view va) := by
  induction list with
  | nil => simp [vmaFind]
  | cons v rest ih =>
    simp only [vmaFind, flatMap_cons, find?_append, map_or, find?_cons] at ih ⊢
    rw [find_cut hrange, ih]
    by_cases hin : start ≤ va ∧ va < stop <;> cases v.contains va <;> simp [hin]

/-! ## Protection changes -/

theorem mprotectApply_bounds (stop prot : ℕ) (list : List Vma) :
    (mprotectApply stop prot list).map (fun v => (v.vaStart, v.vaEnd)) =
      list.map fun v => (v.vaStart, v.vaEnd) := by
  induction list with
  | nil => rfl
  | cons v rest ih =>
    rw [mprotectApply]
    split_ifs
    · rw [map_cons, map_cons, ih]
    · rfl

theorem mprotectUpdateVmaRange_bounds {addr len prot : ℕ}
    (hupdate : mprotectUpdateVmaRange list addr len prot = some list') :
    list'.map (fun v => (v.vaStart, v.vaEnd)) = list.map fun v => (v.vaStart, v.vaEnd) := by
  rw [mprotectUpdateVmaRange] at hupdate
  split_ifs at hupdate
  rw [← some.inj hupdate, map_append, mprotectApply_bounds,
    ← map_append, takeWhile_append_dropWhile]

theorem areas_of_bounds (hbounds : list'.map (fun v => (v.vaStart, v.vaEnd)) =
      list.map fun v => (v.vaStart, v.vaEnd))
    (hareas : Areas list) (haligned : ∀ v ∈ list, v.Aligned) :
    Areas list' ∧ ∀ v ∈ list', v.Aligned := by
  have hall (P : ℕ × ℕ → Prop) (h : ∀ v ∈ list, P (v.vaStart, v.vaEnd)) :
      ∀ v ∈ list', P (v.vaStart, v.vaEnd) := by
    rwa [← List.forall_mem_map, hbounds, List.forall_mem_map]
  have hpairs : (list'.map fun v => (v.vaStart, v.vaEnd)).Pairwise fun a b => a.2 ≤ b.1 := by
    rw [hbounds, pairwise_map]
    exact hareas.apart
  exact ⟨⟨pairwise_map.mp hpairs, hall (fun b => b.1 < b.2) hareas.nonempty⟩,
    hall (fun b => pageSize ∣ b.1 ∧ pageSize ∣ b.2) haligned⟩

/-! ## What `mprotect` covers and changes -/

/-- The first loop succeeds when every address up to `stop` has an area. -/
theorem mprotectCovered_iff {covered : ℕ} (hareas : Areas list)
    (habove : ∀ v ∈ list, covered < v.vaEnd) : mprotectCovered stop covered list = true ↔
      ∀ va, covered ≤ va → va < stop → ∃ v ∈ list, v.contains va = true := by
  induction list generalizing covered with
  | nil =>
    simp only [mprotectCovered, decide_eq_true_eq, not_mem_nil, false_and, exists_false]
    exact ⟨fun hle va hlow hva => by omega, fun hall => Nat.le_of_not_lt (hall covered le_rfl)⟩
  | cons v rest ih =>
    obtain ⟨hv, hhead, hrest⟩ := ordered_cons.mp hareas
    have hend := habove v mem_cons_self
    have hstart : ∀ w ∈ rest, v.vaEnd < w.vaEnd :=
      fun w hw => (hhead w hw).trans_lt (hrest.nonempty w hw)
    simp only [mem_cons, exists_eq_or_imp]
    rw [mprotectCovered]
    simp only [Vma.contains, decide_eq_true_eq] at ih ⊢
    split_ifs with hmore hgap
    · refine iff_of_false not_false fun hall => ?_
      rcases hall covered le_rfl hmore with hin | ⟨w, hw, hin⟩
      · omega
      · have := hhead w hw
        omega
    · rw [ih hrest hstart]
      refine forall_congr' fun va => ⟨fun hall hlow hva => ?_, fun hall hlow hva => ?_⟩
      · by_cases hin : va < v.vaEnd
        · exact .inl (by omega)
        · exact .inr (hall (by omega) hva)
      · exact (hall (by omega) hva).resolve_left (by omega)
    · exact iff_of_true rfl fun va hlow hva => by omega

/-- The second loop on a sorted list. -/
theorem mprotectApply_eq_map (hareas : Areas list) (prot : ℕ) : mprotectApply stop prot list =
    list.map fun v => if v.vaStart < stop then
      { v with flags := mprotectBuildVmaFlags v.flags prot } else v := by
  induction list with
  | nil => rfl
  | cons v rest ih =>
    obtain ⟨hv, hhead, hrest⟩ := ordered_cons.mp hareas
    rw [mprotectApply, map_cons, ← ih hrest]
    split_ifs with hstart
    · rfl
    · have hsame : mprotectApply stop prot rest = rest := by
        cases rest with
        | nil => rfl
        | cons w rest =>
          have := hhead w mem_cons_self
          rw [mprotectApply, if_neg (by omega)]
      rw [hsame]

/-- The areas in front of the first one that contains `addr` end there or below. -/
theorem before_or_from (hareas : Areas list) (addr : ℕ) :
    list.dropWhile (!·.contains addr) = [] ∧ (∀ v ∈ list, v.contains addr = false) ∨
      (∀ v ∈ list.takeWhile (!·.contains addr), v.vaEnd ≤ addr) ∧
        ∀ v ∈ list.dropWhile (!·.contains addr), addr < v.vaEnd := by
  cases hfrom : list.dropWhile (!·.contains addr) with
  | nil => exact .inl ⟨rfl, by simpa using List.dropWhile_eq_nil_iff.mp hfrom⟩
  | cons v rest =>
    have hin : v.contains addr = true := by
      simpa [hfrom] using head_dropWhile_not (fun v : Vma => !v.contains addr)
        (l := list) (by simp [hfrom])
    rw [Vma.contains, decide_eq_true_eq] at hin
    rw [← takeWhile_append_dropWhile (p := (!·.contains addr)) (l := list), hfrom] at hareas
    obtain ⟨-, hrest, hacross⟩ := List.pairwise_append.mp hareas.apart
    refine .inr ⟨fun w hw => (hacross w hw v mem_cons_self).trans hin.1, fun w hw => ?_⟩
    rcases List.mem_cons.mp hw with rfl | hw
    · exact hin.2
    · have := (List.pairwise_cons.mp hrest).1 w hw
      have := hareas.nonempty w (by simp [hw])
      omega

/-- An area after `mprotect` of `[addr, stop)`. -/
def reflag (addr stop prot : ℕ) (v : Vma) : Vma :=
  if v.vaStart < stop ∧ addr < v.vaEnd then
    { v with flags := mprotectBuildVmaFlags v.flags prot } else v

section

variable {addr len prot : ℕ} (hareas : Areas list) (hlen : 0 < len) (hwrap : addr + len < 2 ^ 64)
include hareas hlen hwrap

theorem mprotectUpdateVmaRange_isSome : (mprotectUpdateVmaRange list addr len prot).isSome = true ↔
      ∀ va, addr ≤ va → va < addr + len → ∃ v ∈ list, v.contains va = true := by
  rw [mprotectUpdateVmaRange, wrap64_of_lt hwrap]
  simp only [apply_ite isSome, isSome_some, isSome_none,
    Bool.if_false_right, Bool.and_true]
  rcases before_or_from hareas addr with ⟨hnil, hnone⟩ | ⟨hbefore, hfrom⟩
  · refine iff_of_false (by simp [hnil, mprotectCovered, hlen.ne']) fun hall => ?_
    obtain ⟨v, hv, hin⟩ := hall addr le_rfl (by omega)
    simp [hnone v hv] at hin
  · rw [decide_eq_true_eq, mprotectCovered_iff (hareas.sublist (dropWhile_sublist _)) hfrom]
    refine forall₃_congr fun va hlow hva => exists_congr fun v => ?_
    refine and_congr_left fun hin => ⟨(dropWhile_sublist _).mem, fun hv => ?_⟩
    rw [← takeWhile_append_dropWhile (p := (!·.contains addr)) (l := list)] at hv
    refine (List.mem_append.mp hv).resolve_left fun hv => ?_
    have := hbefore v hv
    rw [Vma.contains, decide_eq_true_eq] at hin
    omega

theorem mprotectUpdateVmaRange_eq_map
    (hupdate : mprotectUpdateVmaRange list addr len prot = some list') :
    list' = list.map (reflag addr (addr + len) prot) := by
  rw [mprotectUpdateVmaRange, wrap64_of_lt hwrap] at hupdate
  obtain ⟨hcovered, hlist⟩ := ite_none_right_eq_some.mp hupdate
  rcases before_or_from hareas addr with ⟨hnil, -⟩ | ⟨hbefore, hfrom⟩
  · simp [hnil, mprotectCovered, hlen.ne'] at hcovered
  · rw [← some.inj hlist, mprotectApply_eq_map (hareas.sublist (dropWhile_sublist _))]
    nth_rewrite 3 [← takeWhile_append_dropWhile (p := (!·.contains addr)) (l := list)]
    rw [map_append]
    refine congrArg₂ (· ++ ·) ?_ (map_congr_left fun v hv => ?_)
    · refine ((map_congr_left (g := id) fun v hv => ?_).trans (map_id _)).symm
      exact if_neg fun h => (hbefore v hv).not_gt h.2
    · simp only [reflag, hfrom v hv, and_true]

end

theorem hasFlag_two_pow (flags k : ℕ) : hasFlag flags (2 ^ k) = flags.testBit k := by
  rw [hasFlag, Nat.and_two_pow]
  cases flags.testBit k <;> simp

theorem testBit_mprotectBuildVmaFlags (flags prot : ℕ) {i : ℕ} (hi : i < 32) :
    (mprotectBuildVmaFlags flags prot).testBit i =
      if 3 ≤ i ∧ i ≤ 5 then prot.testBit (i - 3) else flags.testBit i := by
  have hbits : ∀ i < 32,
      (2 ^ 32 - 1 - (vmaRead ||| vmaWrite ||| vmaExec)).testBit i = !decide (3 ≤ i ∧ i ≤ 5) ∧
        vmaRead.testBit i = decide (i = 3) ∧ vmaWrite.testBit i = decide (i = 4) ∧
        vmaExec.testBit i = decide (i = 5) := by decide
  obtain ⟨hkept, hread, hwrite, hexec⟩ := hbits i hi
  have h0 : hasFlag prot 1 = _ := hasFlag_two_pow prot 0
  have h1 : hasFlag prot 2 = _ := hasFlag_two_pow prot 1
  have h2 : hasFlag prot 4 = _ := hasFlag_two_pow prot 2
  rw [mprotectBuildVmaFlags, h0, h1, h2]
  simp only [apply_ite (Nat.testBit · i), Nat.testBit_or, Nat.testBit_and, hkept, hread, hwrite,
    hexec]
  grind

theorem vmaFind_of_mem {va : ℕ} (hareas : Areas list) (hv : v ∈ list)
    (hin : v.contains va = true) : vmaFind list va = some v := by
  have hfound : (list.find? (·.contains va)).isSome = true := find?_isSome.mpr ⟨v, hv, hin⟩
  obtain ⟨w, hfind⟩ := isSome_iff_exists.mp hfound
  have hw := find?_some hfind
  rw [Vma.contains, decide_eq_true_eq] at hin hw
  rw [vmaFind, hfind, hareas.unique hv (mem_of_find?_eq_some hfind) hin hw]

theorem vmaFind_reflag {addr prot : ℕ} (list : List Vma) (va : ℕ) :
    vmaFind (list.map (reflag addr stop prot)) va =
      (vmaFind list va).map (reflag addr stop prot) := by
  rw [vmaFind, find?_map]
  congr 2
  funext v
  rw [Function.comp_apply, reflag]
  split_ifs <;> rfl

/-- Exactly the range gets the new protection if and only if some address of it has no area,
so that nothing is changed, or every area that straddles an end of it has that protection
already. -/
theorem mprotectUpdateVmaRange_exact (list : List Vma) (addr len prot : ℕ)
    (hlist : WellFormed list) (hlen : 0 < len) (hwrap : addr + len < 2 ^ 64) :
    (((mprotectUpdateVmaRange list addr len prot).isSome = true ↔
        ∀ va, addr ≤ va → va < addr + len → (vmaFind list va).isSome = true) ∧
      ∀ list', mprotectUpdateVmaRange list addr len prot = some list' → ∀ va,
        if addr ≤ va ∧ va < addr + len then
          ∃ v flags, vmaFind list va = some v ∧ vmaFind list' va = some { v with flags } ∧
            ∀ i < 32, flags.testBit i =
              if 3 ≤ i ∧ i ≤ 5 then prot.testBit (i - 3) else v.flags.testBit i
        else vmaFind list' va = vmaFind list va) ↔
    (∃ va, addr ≤ va ∧ va < addr + len ∧ vmaFind list va = none) ∨
      ∀ v ∈ list, v.vaStart < addr + len → addr < v.vaEnd →
        addr ≤ v.vaStart ∧ v.vaEnd ≤ addr + len ∨
          mprotectBuildVmaFlags v.flags prot = v.flags := by
  have hareas := wellFormed_iff.mp hlist
  have hsome := @mprotectUpdateVmaRange_isSome list addr len prot hareas hlen hwrap
  simp only [← find?_isSome, ← vmaFind.eq_1] at hsome
  have hfind : ∀ {list'}, mprotectUpdateVmaRange list addr len prot = some list' →
      ∀ va, vmaFind list' va = (vmaFind list va).map (reflag addr (addr + len) prot) := by
    intro list' hupdate va
    rw [mprotectUpdateVmaRange_eq_map hareas hlen hwrap hupdate, vmaFind_reflag]
  constructor
  · rintro ⟨-, hranges⟩
    by_cases hall : ∀ va, addr ≤ va → va < addr + len → (vmaFind list va).isSome = true
    · refine .inr fun v hv hlow hhigh => or_iff_not_imp_left.mpr fun hstraddle => ?_
      obtain ⟨list', hupdate⟩ := isSome_iff_exists.mp (hsome.mpr hall)
      -- the area has an address beside the range, where its flags are the old ones
      have hv' := hareas.nonempty v hv
      obtain ⟨va, hin, hout⟩ : ∃ va, (v.vaStart ≤ va ∧ va < v.vaEnd) ∧
          ¬ (addr ≤ va ∧ va < addr + len) := by
        by_cases hleft : v.vaStart < addr
        · exact ⟨v.vaStart, ⟨le_rfl, hv'⟩, by omega⟩
        · exact ⟨v.vaEnd - 1, by omega, by omega⟩
      have hsame := hranges list' hupdate va
      rw [if_neg hout, hfind hupdate, vmaFind_of_mem hareas hv (decide_eq_true hin), map_some,
        reflag, if_pos ⟨hlow, hhigh⟩] at hsame
      exact congrArg Vma.flags (some.inj hsame)
    · left
      simpa using hall
  · refine fun hcond => ⟨hsome, fun list' hupdate va => ?_⟩
    have hall := hsome.mp (by simp [hupdate])
    rw [hfind hupdate]
    split_ifs with hin
    · obtain ⟨v, hv⟩ := isSome_iff_exists.mp (hall va hin.1 hin.2)
      have hmeets := find?_some hv
      rw [Vma.contains, decide_eq_true_eq] at hmeets
      refine ⟨v, _, hv, ?_, fun i => testBit_mprotectBuildVmaFlags v.flags prot⟩
      rw [hv, map_some, reflag, if_pos (by omega)]
    · cases hv : vmaFind list va with
      | none => rfl
      | some v =>
        have hwhole := hcond.resolve_left (by
          rintro ⟨va', hlow, hhigh, hnone⟩
          have hfound := hall va' hlow hhigh
          simp [hnone] at hfound) v (mem_of_find?_eq_some hv)
        have hmeets := find?_some hv
        rw [Vma.contains, decide_eq_true_eq] at hmeets
        rw [map_some, reflag]
        split_ifs with hreach
        · rw [(hwhole hreach.1 hreach.2).resolve_left (by omega)]
        · rfl

theorem mprotectUpdateVmaRange_exact_two :
    let list : List Vma := [⟨0, 4096, 25, none, 0, 0⟩, ⟨4096, 8192, 25, none, 0, 0⟩]
    ∃ list', mprotectUpdateVmaRange list 4096 4096 1 = some list' ∧
      vmaFind list' 0 = vmaFind list 0 := by
  refine ⟨_, rfl, (if_neg ?_).mp (((mprotectUpdateVmaRange_exact _ 4096 4096 1
    ⟨?_, ?_, ?_⟩ ?_ ?_).mpr (.inr ?_)).2 _ rfl 0)⟩ <;> decide

/-- Taking write permission from the second of three pages takes it from the
first one too. -/
theorem mprotectUpdateVmaRange_whole_area : ∃ list',
    mprotectUpdateVmaRange [⟨0, 12288, 25, none, 0, 0⟩] 4096 4096 1 = some list' ∧
      vmaFind list' 0 ≠ vmaFind [⟨0, 12288, 25, none, 0, 0⟩] 0 :=
  ⟨_, rfl, by decide⟩

end AuraLite.Mmap

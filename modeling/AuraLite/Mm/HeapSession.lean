import AuraLite.Lib.Reachability
import AuraLite.Mm.HeapGrow

/-!
# Runs of the heap

A session is a heap together with the pointers its callers hold.  Callers
allocate, free and reallocate live pointers and store bytes into the part of a
payload they asked for; every page request of every expansion may succeed or
fail.  The invariant of a run says that the used blocks of the arena are
exactly the blocks behind the live pointers.
-/

namespace AuraLite.BoundaryTagHeap

open Prod List AuraLite.ByteMemory AuraLite.Word64 AuraLite.LinkedChain
open AuraLite.Reachability

/-- A page-aligned region of the upper half of the address space. -/
structure Region where
  base : ℕ
  limit : ℕ
  base_page : pageSize ∣ base
  upper_half : 2 ^ 63 ≤ base
  top : base + limit < 2 ^ 64

/-- `KHEAP_BASE` and `KHEAP_LIMIT`. -/
def kernelRegion : Region where
  base := 0xFFFFFFFF88000000
  limit := 0x04000000
  base_page := by decide
  upper_half := by decide
  top := by decide

/-- A heap and the live pointers with the sizes they were requested with. -/
structure Session where
  heap : Heap
  live : List (ℕ × ℕ)

inductive Call where
  | alloc (size : ℕ) (supply : ℕ → PageSupply)
  | free (ptr : ℕ)
  | realloc (ptr size : ℕ) (supply : ℕ → PageSupply)
  | store (ptr offset : ℕ) (byte : Byte)

/-- The pointer a call gives back to the allocator, if any. -/
def Call.target : Call → Option ℕ
  | .alloc _ _ => none
  | .free ptr => some ptr
  | .realloc ptr _ _ => some ptr
  | .store ptr _ _ => some ptr

def Session.start (region : Region) (mem : Mem) : Session :=
  ⟨heapInit region.base region.limit mem, []⟩

/-- The entries of other pointers. -/
def dropPtr (live : List (ℕ × ℕ)) (ptr : ℕ) : List (ℕ × ℕ) :=
  live.filter fun entry => entry.1 ≠ ptr

/-- The session after a call.  `none` means that the caller does not hold the
pointer it passes, stores outside the bytes it asked for, or that the call does
not return. -/
def Session.step (s : Session) : Call → Option Session
  | .alloc size supply =>
    match heapAlloc (kheapExpand supply) s.heap size with
    | none => none
    | some (h, 0) => some { s with heap := h }
    | some (h, p + 1) => some ⟨h, (p + 1, size) :: s.live⟩
  | .free ptr =>
    if ptr ∈ s.live.map fst then
      some ⟨heapFree s.heap ptr, dropPtr s.live ptr⟩
    else none
  | .realloc ptr size supply =>
    if ptr ∈ s.live.map fst then
      match heapRealloc (kheapExpand supply) s.heap ptr size with
      | none => none
      | some (h, 0) => some ⟨h, if size = 0 then dropPtr s.live ptr else s.live⟩
      | some (h, p + 1) => some ⟨h, (p + 1, size) :: dropPtr s.live ptr⟩
    else none
  | .store ptr offset byte =>
    if ∃ entry ∈ s.live, entry.1 = ptr ∧ offset < entry.2 then
      some { s with heap := { s.heap with
        mem := Function.update s.heap.mem (ptr + offset) byte } }
    else none

/-- The sizes a call passes do not wrap when tags and page rounding are added to
the committed region. -/
def Call.Fits (s : Session) : Call → Prop
  | .alloc size _ => RequestFits s.heap size
  | .free _ => True
  | .realloc _ size _ => RequestFits s.heap size
  | .store _ _ _ => True

def Session.Step (s : Session) (call : Call) (s' : Session) : Prop :=
  s.step call = some s'

variable {h h' : Heap} {blocks left right : List Block} {nodes : List ℕ}
variable {b c : Block} {m m' : Mem} {s s' : Session}
variable {p : ℕ} {blocks' grown : List Block}

/-! ## Used blocks -/

def UsedIn (blocks : List Block) (c : Block) : Prop :=
  c ∈ blocks ∧ c.free = false

/-- The block `heap_alloc` hands out of the free block `b`. -/
def takenBlock (b : Block) (need : ℕ) : Block :=
  ⟨b.addr, if b.size < need + 64 then b.size else need, false, false⟩

open Session

theorem usedIn_append : UsedIn (left ++ right) c ↔ UsedIn left c ∨ UsedIn right c := by
  rw [UsedIn, mem_append, or_and_right, UsedIn, UsedIn]

theorem usedIn_cons : UsedIn (b :: right) c ↔ c = b ∧ b.free = false ∨ UsedIn right c := by
  rw [UsedIn, mem_cons, or_and_right, UsedIn]
  exact or_congr_left (and_congr_right fun heq => heq ▸ .rfl)

theorem usedIn_cons_free (hfree : b.free = true) : UsedIn (b :: right) c ↔ UsedIn right c := by
  rw [usedIn_cons, hfree]
  simp

theorem usedIn_grown (hfree : ∀ g ∈ grown, g.free = true) :
    UsedIn (blocks ++ grown) c ↔ UsedIn blocks c := by
  rw [usedIn_append, or_iff_left]
  rintro ⟨hc, hused⟩
  simp [hfree c hc] at hused

variable {need : ℕ}

theorem usedIn_taken (hfree : b.free = true) : UsedIn (left ++ (taken b need ++ right)) c ↔
      UsedIn (left ++ b :: right) c ∨ c = takenBlock b need := by
  have hnil : ¬UsedIn [] c := fun h => absurd h.1 not_mem_nil
  have hmem : UsedIn (taken b need) c ↔ c = takenBlock b need := by
    simp only [taken, takenBlock]
    split_ifs <;> simp [usedIn_cons, hnil]
  rw [usedIn_append, usedIn_append, usedIn_append, usedIn_cons_free hfree, hmem, or_assoc,
    or_comm (a := c = _)]

theorem usedIn_joinPrev (hfree : b.free = true)
    (htag : ∀ p ∈ left, p.tagFree = true → p.free = true) :
    UsedIn (joinPrev left b right) c ↔ UsedIn (left ++ right) c := by
  have hplain : UsedIn (left ++ b :: right) c ↔ UsedIn (left ++ right) c := by
    rw [usedIn_append, usedIn_cons_free hfree, usedIn_append]
  rcases eq_nil_or_concat' left with rfl | ⟨front, prev, rfl⟩
  · exact hplain
  · simp only [joinPrev, getLast?_concat, dropLast_concat]
    split_ifs with hprevTag
    · have hprevFree := htag prev (by simp) hprevTag
      rw [usedIn_append, usedIn_cons_free rfl, append_assoc, usedIn_append,
        singleton_append, usedIn_cons_free hprevFree]
    · exact hplain

theorem usedIn_absorbNext : UsedIn (absorbNext b right).2 c ↔ UsedIn right c := by
  cases right with
  | nil => exact .rfl
  | cons next rest =>
    rw [absorbNext]
    split_ifs with hfree
    · exact (usedIn_cons_free hfree).symm
    · exact .rfl

theorem usedIn_release (htag : ∀ p ∈ left, p.tagFree = true → p.free = true) :
    UsedIn (release left b right) c ↔ UsedIn (left ++ right) c := by
  rw [release, usedIn_joinPrev (absorbNext_addr b right).2 htag, usedIn_append,
    usedIn_absorbNext, usedIn_append]

/-! ## The invariant of a run -/

/-- Bytes strictly inside a payload are no part of the representation. -/
theorem Rep.write_payload (hrep : Rep h blocks nodes) (hb : b ∈ blocks)
    (hmem : ∀ x, x < b.addr + 32 ∨ b.addr + b.size ≤ x + 16 → m' x = h.mem x) :
    Rep { h with mem := m' } blocks nodes := by
  obtain ⟨left, right, rfl⟩ := append_of_mem hb
  have hblock := hrep.block hb
  have hword : ∀ x, x + 8 ≤ b.addr + 32 ∨ b.addr + b.size ≤ x + 16 →
      read64 m' x = read64 h.mem x := fun x hx =>
    read64_congr fun y _ _ => hmem y (by omega)
  refine ⟨?_, hrep.consistent⟩
  refine @Core.rewrite h left right nodes b m' hrep.toCore [b]
    ⟨rfl, hblock.2.2.1, hblock.2.2.2.2, rfl⟩ (fun x hx => hmem x (by omega)) ?_
    ⟨b, by simp, rfl⟩ (hword _ (by omega)) (hword _ (by omega))
  intro d hd
  rw [List.mem_singleton.mp hd]
  refine (hrep.image b hb).of_words fun x hx => hword x ?_
  rw [Block.stop] at hx
  omega

/-- The live pointers are the payloads of the used blocks, each long enough for
its request. -/
structure Owned (live : List (ℕ × ℕ)) (blocks : List Block) : Prop where
  nodup : (live.map fst).Nodup
  backed : ∀ entry ∈ live, ∃ b, UsedIn blocks b ∧
    entry.1 = b.addr + headerSize ∧ entry.2 + 48 ≤ b.size
  held : ∀ b, UsedIn blocks b → b.addr + headerSize ∈ live.map fst

/-- What every session reached by fitting calls satisfies. -/
structure Good (s : Session) (blocks : List Block) : Prop where
  rep : ∃ nodes, Rep s.heap blocks nodes
  roomy : Roomy s.heap
  owned : Owned s.live blocks

theorem good_start (region : Region) (mem : Mem) : Good (Session.start region mem) [] := by
  have hhalf := region.upper_half
  have htop := region.top
  refine ⟨⟨[], ?_, by simp⟩, ?_, ⟨by simp [start],
    by simp [start], by simp [UsedIn]⟩⟩
  · refine ⟨?_, ?_, ?_, rfl, by simp, rfl, by simp, by simp⟩
    · exact Dvd.dvd.trans (by decide) region.base_page
    · show 0 < region.base
      omega
    · show region.base + 0 < 2 ^ 64
      omega
  · refine ⟨region.base_page, dvd_zero _, Nat.zero_le _, ?_, htop⟩
    show region.limit < 2 ^ 63
    omega

/-- The session after an allocating call returned `p`. -/
def Session.allocated (s : Session) (h : Heap) (p size : ℕ) : Session :=
  if p = 0 then { s with heap := h } else ⟨h, (p, size) :: s.live⟩

variable {size : ℕ}

theorem Session.step_alloc {supply : ℕ → PageSupply}
    (hcall : heapAlloc (kheapExpand supply) s.heap size = some (h, p)) :
    s.step (.alloc size supply) = some (s.allocated h p size) := by
  cases p with
  | zero => simp only [step, hcall, allocated, if_true]
  | succ p =>
    simp only [step, hcall, allocated, Nat.succ_ne_zero, if_false]

theorem taken_eq (b : Block) (need : ℕ) : ∃ rest, taken b need = takenBlock b need :: rest := by
  simp only [taken, takenBlock]
  split_ifs <;> exact ⟨_, rfl⟩

theorem taken_addr_ne (hcore : Core h (left ++ (taken b need ++ right)) nodes)
    (hc : c ∈ left ++ b :: right) (hne : c ≠ b) : c.addr ≠ b.addr := by
  obtain ⟨rest, hrest⟩ := taken_eq b need
  rw [hrest] at hcore
  exact hcore.addr_ne (mem_beside hc hne rest)

variable {live : List (ℕ × ℕ)}

theorem Owned.congr (howned : Owned live blocks) (hused : ∀ c, UsedIn blocks' c ↔ UsedIn blocks c) :
    Owned live blocks' := by
  refine ⟨howned.nodup, fun entry hentry => ?_, fun b hb => ?_⟩
  · obtain ⟨b, hb, hrest⟩ := howned.backed entry hentry
    exact ⟨b, (hused b).mpr hb, hrest⟩
  · exact howned.held b ((hused b).mp hb)

theorem Owned.take (howned : Owned live (left ++ b :: right))
    (haddr : ∀ c ∈ left ++ b :: right, c.addr = b.addr → c = b)
    (hfree : b.free = true) (hfit : need ≤ b.size) (hsize : size + 48 ≤ need) :
    Owned ((b.addr + headerSize, size) :: live) (left ++ (taken b need ++ right)) := by
  have hfresh : b.addr + headerSize ∉ live.map fst := by
    intro hmem
    obtain ⟨entry, hentry, hptr⟩ := List.mem_map.mp hmem
    obtain ⟨c, ⟨hc, hused⟩, hcPtr, _⟩ := howned.backed entry hentry
    have heq := haddr c hc (by omega)
    rw [heq, hfree] at hused
    cases hused
  have hlong : size + 48 ≤ (takenBlock b need).size := by
    simp only [takenBlock]
    split_ifs <;> omega
  refine ⟨?_, ?_, ?_⟩
  · rw [map_cons, nodup_cons]
    exact ⟨hfresh, howned.nodup⟩
  · intro entry hentry
    rcases List.mem_cons.mp hentry with rfl | hentry
    · exact ⟨takenBlock b need, (usedIn_taken hfree).mpr (.inr rfl), rfl, hlong⟩
    · obtain ⟨c, hc, hrest⟩ := howned.backed entry hentry
      exact ⟨c, (usedIn_taken hfree).mpr (.inl hc), hrest⟩
  · intro c hc
    rw [map_cons]
    rcases (usedIn_taken hfree).mp hc with hc | rfl
    · exact mem_cons_of_mem _ (howned.held c hc)
    · exact mem_cons_self

theorem Good.of_takes (hgood : Good s blocks) (hgrown : ∀ g ∈ grown, g.free = true)
    (htakes : Takes (blocks ++ grown) need p blocks') (hrep : Rep h' blocks' nodes)
    (hroomy : Roomy h') (hsize : size + 48 ≤ need) : Good (s.allocated h' p size) blocks' := by
  have howned : Owned s.live (blocks ++ grown) := hgood.owned.congr fun c => usedIn_grown hgrown
  cases htakes with
  | none =>
    simp only [allocated, if_true]
    exact ⟨⟨_, hrep⟩, hroomy, howned⟩
  | @took left right b hblocks hfree hfit =>
    have hpos : b.addr + headerSize ≠ 0 := by
      simp only [headerSize]
      omega
    simp only [allocated, hpos, if_false]
    refine ⟨⟨nodes, hrep⟩, hroomy, ?_⟩
    rw [hblocks] at howned
    refine howned.take (fun c hc haddr => ?_) hfree hfit hsize
    by_contra hne
    exact taken_addr_ne hrep.toCore hc hne haddr

/-- `heap_alloc` of a fitting size returns and keeps the invariant and every
live payload. -/
theorem Good.alloc (supply : ℕ → PageSupply) (hgood : Good s blocks)
    (hfits : RequestFits s.heap size) :
    ∃ h' p grown blocks', heapAlloc (kheapExpand supply) s.heap size = some (h', p) ∧
        (∀ g ∈ grown, g.free = true) ∧
        Takes (blocks ++ grown) (requiredBlockSize size) p blocks' ∧
        Good (s.allocated h' p size) blocks' ∧
        ∀ c, UsedIn blocks c → KeepsPayload c s.heap.mem h'.mem := by
  obtain ⟨nodes, hrep⟩ := hgood.rep
  obtain ⟨hneed, hsize⟩ := hgood.roomy.need hfits
  obtain ⟨h', p, grown, blocks', nodes', hcall, hgrown, htakes, hrep', hroomy, hkept⟩ :=
    @heapAllocLoop_spec s.heap blocks nodes supply (requiredBlockSize size) 0
      (s.heap.limit + 1) hrep hgood.roomy hneed (by omega)
  exact ⟨h', p, grown, blocks', hcall, hgrown, htakes,
    hgood.of_takes hgrown htakes hrep' hroomy hsize, fun c hc => hkept c hc.1 hc.2⟩

variable {ptr : ℕ}

theorem Good.backed (hgood : Good s blocks) (hlive : ptr ∈ s.live.map fst) :
    ∃ left b right, blocks = left ++ b :: right ∧ b.free = false ∧ ptr = b.addr + headerSize := by
  obtain ⟨entry, hentry, rfl⟩ := List.mem_map.mp hlive
  obtain ⟨b, hb, hptr, _⟩ := hgood.owned.backed entry hentry
  obtain ⟨left, right, hblocks⟩ := append_of_mem hb.1
  exact ⟨left, b, right, hblocks, hb.2, hptr⟩

theorem dropPtr_map (live : List (ℕ × ℕ)) (ptr : ℕ) : (dropPtr live ptr).map fst =
      (live.map fst).filter fun other => other ≠ ptr := by
  rw [dropPtr, filter_map]
  rfl

theorem mem_dropPtr {entry : ℕ × ℕ} : entry ∈ dropPtr live ptr ↔ entry ∈ live ∧ entry.1 ≠ ptr := by
  simp [dropPtr, mem_filter]

/-- The frame of a call on `ptr`: every other used block stays as it is, with
its payload. -/
def FrameOff (blocks blocks' : List Block) (ptr : ℕ) (m m' : Mem) : Prop :=
  ∀ c, UsedIn blocks c → c.addr + headerSize ≠ ptr →
    UsedIn blocks' c ∧ KeepsPayload c m m'

/-- `heap_free` of a live pointer releases its block. -/
theorem Good.free (hgood : Good s (left ++ b :: right)) (hused : b.free = false) :
    Good ⟨heapFree s.heap (b.addr + headerSize),
        dropPtr s.live (b.addr + headerSize)⟩ (release left b right) ∧
      FrameOff (left ++ b :: right) (release left b right) (b.addr + headerSize) s.heap.mem
        (heapFree s.heap (b.addr + headerSize)).mem := by
  obtain ⟨nodes, hrep⟩ := hgood.rep
  obtain ⟨hrep', hkept, -⟩ := heapFree_spec hrep hused
  have htag : ∀ p ∈ left, p.tagFree = true → p.free = true := fun p hp =>
    (hrep.consistent p (mem_append_left _ hp)).tag_free
  have hroomy : Roomy (heapFree s.heap (b.addr + headerSize)) :=
    hgood.roomy.of_region (heapFree_region s.heap (b.addr + headerSize))
  have hbeside : ∀ c, UsedIn (left ++ b :: right) c →
      c.addr + headerSize ≠ b.addr + headerSize → c ∈ left ++ right := by
    intro c hc hne
    refine mem_beside hc.1 ?_ []
    rintro rfl
    exact hne rfl
  generalize heapFree s.heap (b.addr + headerSize) = freed at *
  refine ⟨⟨hrep', hroomy, ?_, ?_, ?_⟩,
    fun c hc hne => ⟨(usedIn_release htag).mpr ⟨hbeside c hc hne, hc.2⟩,
      hkept c (hbeside c hc hne) hc.2⟩⟩
  · rw [dropPtr_map]
    exact hgood.owned.nodup.filter _
  · intro entry hentry
    obtain ⟨hentry, hne⟩ := mem_dropPtr.mp hentry
    obtain ⟨c, hc, hptr, hlong⟩ := hgood.owned.backed entry hentry
    exact ⟨c, (usedIn_release htag).mpr ⟨hbeside c hc (hptr ▸ hne), hc.2⟩, hptr, hlong⟩
  · intro c hc
    have hother := (usedIn_release htag).mp hc
    have hheld := hgood.owned.held c ⟨mem_around hother.1, hother.2⟩
    have hne := hrep.addr_ne hother.1
    rw [dropPtr_map, mem_filter]
    refine ⟨hheld, ?_⟩
    simp only [decide_eq_true_eq, ne_eq]
    omega

theorem Good.write_payload (hgood : Good s blocks) (hb : b ∈ blocks)
    (hmem : ∀ x, x < b.addr + 32 ∨ b.addr + b.size ≤ x + 16 → m' x = s.heap.mem x) :
    Good { s with heap := { s.heap with mem := m' } } blocks := by
  obtain ⟨nodes, hrep⟩ := hgood.rep
  exact ⟨⟨nodes, hrep.write_payload hb hmem⟩, hgood.roomy.of_region rfl, hgood.owned⟩

theorem Takes.usedIn (htakes : Takes blocks need p blocks') (hc : UsedIn blocks c) :
    UsedIn blocks' c := by
  cases htakes with
  | none => exact hc
  | took hblocks hfree hfit =>
    rw [hblocks] at hc
    exact (usedIn_taken hfree).mpr (.inl hc)

/-- A live pointer may be recorded with another size its block can hold. -/
theorem Good.resize (hgood : Good s blocks) (hb : UsedIn blocks b)
    (hptr : ptr = b.addr + headerSize) (hsize : size + 48 ≤ b.size) :
    Good { s with live := (ptr, size) :: dropPtr s.live ptr } blocks := by
  refine ⟨hgood.rep, hgood.roomy, ?_, ?_, ?_⟩
  · rw [map_cons, nodup_cons, dropPtr_map]
    exact ⟨by simp, hgood.owned.nodup.filter _⟩
  · intro entry hentry
    rcases List.mem_cons.mp hentry with rfl | hentry
    · exact ⟨b, hb, hptr, hsize⟩
    · exact hgood.owned.backed entry (mem_dropPtr.mp hentry).1
  · intro c hc
    have hheld := hgood.owned.held c hc
    rw [map_cons, dropPtr_map, mem_cons, mem_filter]
    by_cases heq : c.addr + headerSize = ptr
    · exact .inl heq
    · exact .inr ⟨hheld, by simpa using heq⟩

/-- The moving path of `heap_realloc`: copy into the block just allocated and
free the old one. -/
theorem Good.move {count : ℕ} (hgood : Good s blocks) (hlive : ptr ∈ s.live.map fst) (hp : p ≠ 0)
    (hgrown : ∀ g ∈ grown, g.free = true) (htakes : Takes (blocks ++ grown) need p blocks')
    (hgood' : Good (s.allocated h' p size) blocks')
    (hkept : ∀ c, UsedIn blocks c → KeepsPayload c s.heap.mem h'.mem) (hcount : count ≤ size) :
    let moved := { h' with mem := copyBytes h'.mem p ptr count }
    ∃ left b right, blocks' = left ++ b :: right ∧ b.free = false ∧ ptr = b.addr + headerSize ∧
      Good ⟨heapFree moved ptr, (p, size) :: dropPtr s.live ptr⟩ (release left b right) ∧
      FrameOff blocks (release left b right) ptr s.heap.mem (heapFree moved ptr).mem := by
  intro moved
  simp only [allocated, hp, if_false] at hgood'
  obtain ⟨target, htarget, htargetPtr, htargetSize⟩ := hgood'.owned.backed (p, size) mem_cons_self
  have hfresh : p ∉ s.live.map fst := by
    have hnodup := hgood'.owned.nodup
    rw [map_cons, nodup_cons] at hnodup
    exact hnodup.1
  simp only [headerSize] at htargetPtr htargetSize
  have houtside : ∀ x, x < target.addr + 32 ∨
      target.addr + target.size ≤ x + 16 → moved.mem x = h'.mem x :=
    fun x hx => copyBytes_outside (by omega)
  let copied : Session := ⟨moved, (p, size) :: s.live⟩
  have hcopied : Good copied blocks' := hgood'.write_payload htarget.1 houtside
  have hlive' : ptr ∈ copied.live.map fst := mem_cons_of_mem _ hlive
  have hne : p ≠ ptr := fun heq => hfresh (heq ▸ hlive)
  have hdrop : dropPtr copied.live ptr = (p, size) :: dropPtr s.live ptr := by
    simp [copied, dropPtr, hne]
  obtain ⟨left, b, right, hblocks', hused, hptr⟩ := hcopied.backed hlive'
  rw [hblocks'] at hcopied
  obtain ⟨hfreed, hfreedKept⟩ := hcopied.free hused
  rw [← hptr, hdrop] at hfreed
  rw [← hptr] at hfreedKept
  refine ⟨left, b, right, hblocks', hused, hptr, hfreed, fun c hc hcPtr => ?_⟩
  have hc' := htakes.usedIn ((usedIn_grown hgrown).mpr hc)
  obtain ⟨nodes, hrep⟩ := hgood'.rep
  have hcNe : c ≠ target := by
    rintro rfl
    apply hfresh
    rw [htargetPtr]
    exact hgood.owned.held c hc
  have hcopyKept : KeepsPayload c h'.mem moved.mem := by
    intro x hlo hhi
    apply houtside
    have hapart := (hrep.separate hc'.1 htarget.1).resolve_left hcNe
    omega
  obtain ⟨hstays, hlast⟩ := hfreedKept c (hblocks' ▸ hc') hcPtr
  exact ⟨hstays, ((hkept c hc).trans hcopyKept).trans hlast⟩

/-- The number of payload bytes `heap_realloc` copies. -/
def copyCount (oldSize size : ℕ) : ℕ :=
  if oldSize - headerSize - footerSize < size then
    oldSize - headerSize - footerSize
  else size

theorem copyCount_le (oldSize size : ℕ) : copyCount oldSize size ≤ size := by
  simp only [copyCount]
  split_ifs with hless
  · exact hless.le
  · exact le_rfl

section Realloc

variable {ptr size : ℕ} {supply : ℕ → PageSupply}
variable (hrep : Rep s.heap blocks nodes) (hb : UsedIn blocks b)
  (hptr : ptr = b.addr + headerSize) (hlive : ptr ∈ s.live.map fst)

include hptr in
theorem ptr_ne_zero : ptr ≠ 0 := by
  simp only [headerSize] at hptr
  omega

include hptr hlive in
theorem Session.step_realloc_zero : s.step (.realloc ptr 0 supply) =
      some ⟨heapFree s.heap ptr, dropPtr s.live ptr⟩ := by
  have hcall : heapRealloc (kheapExpand supply) s.heap ptr 0 = some (heapFree s.heap ptr, 0) := by
    rw [heapRealloc, if_neg (ptr_ne_zero hptr), if_pos rfl]
  simp only [step, if_pos hlive, hcall, if_true]

include hrep hb hptr in
theorem header_at_ptr : ptr - headerSize = b.addr ∧ blockMagic s.heap.mem b.addr = heapMagicUsed ∧
    blockSize s.heap.mem b.addr = b.size := by
  have himage := hrep.image b hb.1
  refine ⟨by omega, ?_, himage.size⟩
  rw [himage.magic, hb.2]
  rfl

include hrep hb hptr hlive in
theorem Session.step_realloc_inPlace (hsize : size ≠ 0) (hfits : requiredBlockSize size ≤ b.size) :
    s.step (.realloc ptr size supply) =
      some { s with live := (ptr, size) :: dropPtr s.live ptr } := by
  obtain ⟨hsub, hmagic, hblock⟩ := header_at_ptr hrep hb hptr
  have hpos := ptr_ne_zero hptr
  have hcall : heapRealloc (kheapExpand supply) s.heap ptr size = some (s.heap, ptr) := by
    rw [heapRealloc, if_neg hpos, if_neg hsize]
    simp only [hsub, hmagic, hblock, hfits, if_true, ne_eq, not_true_eq_false, if_false]
  obtain ⟨p, hp⟩ := Nat.exists_eq_succ_of_ne_zero hpos
  rw [hp] at hcall hlive ⊢
  simp only [step, if_pos hlive, hcall]

include hrep hb hptr hlive in
theorem Session.step_realloc_moves (hsize : size ≠ 0) (hgrows : ¬requiredBlockSize size ≤ b.size)
    (halloc : heapAlloc (kheapExpand supply) s.heap size = some (h', p)) :
    s.step (.realloc ptr size supply) =
      if p = 0 then some { s with heap := h' }
      else
        let moved := { h' with mem := copyBytes h'.mem p ptr (copyCount b.size size) }
        some ⟨heapFree moved ptr, (p, size) :: dropPtr s.live ptr⟩ := by
  obtain ⟨hsub, hmagic, hblock⟩ := header_at_ptr hrep hb hptr
  have hcall : heapRealloc (kheapExpand supply) s.heap ptr size =
      if p = 0 then some (h', 0)
      else some (heapFree { h' with mem := copyBytes h'.mem p ptr (copyCount b.size size) } ptr,
          p) := by
    rw [heapRealloc, if_neg (ptr_ne_zero hptr), if_neg hsize]
    simp only [hsub, hmagic, hblock, hgrows, if_false, ne_eq, not_true_eq_false, halloc]
    cases p <;> rfl
  cases p with
  | zero => simp only [step, if_pos hlive, hcall, if_true, hsize, if_false]
  | succ p => simp only [step, if_pos hlive, hcall, Nat.succ_ne_zero, if_false]

end Realloc

/-- `heap_realloc` of a live pointer returns and keeps the invariant and every
other live payload. -/
theorem Good.realloc (supply : ℕ → PageSupply)
    (hgood : Good s blocks) (hlive : ptr ∈ s.live.map fst)
    (hfits : RequestFits s.heap size) :
    ∃ s' blocks', s.step (.realloc ptr size supply) = some s' ∧
      Good s' blocks' ∧ FrameOff blocks blocks' ptr s.heap.mem s'.heap.mem := by
  obtain ⟨left, b, right, hblocks, hused, hptr⟩ := hgood.backed hlive
  have hb : UsedIn blocks b := ⟨by simp [hblocks], hused⟩
  obtain ⟨nodes, hrep⟩ := hgood.rep
  by_cases hzero : size = 0
  · subst hzero
    rw [hblocks] at hgood
    obtain ⟨hfreed, hkept⟩ := hgood.free hused
    rw [← hptr] at hfreed hkept
    exact ⟨_, _, step_realloc_zero hptr hlive, hfreed, hblocks ▸ hkept⟩
  · by_cases hinPlace : requiredBlockSize size ≤ b.size
    · have hroom := (hgood.roomy.need hfits).2
      exact ⟨_, blocks, step_realloc_inPlace hrep hb hptr hlive hzero hinPlace,
        hgood.resize hb hptr (by omega), fun c hc _ => ⟨hc, fun _ _ _ => rfl⟩⟩
    · obtain ⟨h', p, grown, blocks', halloc, hgrown, htakes, hgood', hkept⟩ :=
        hgood.alloc supply hfits
      have hcall := step_realloc_moves hrep hb hptr hlive hzero hinPlace halloc
      split_ifs at hcall with hp
      · simp only [allocated, hp, if_true] at hgood'
        exact ⟨_, blocks', hcall, hgood', fun c hc _ =>
          ⟨htakes.usedIn ((usedIn_grown hgrown).mpr hc), hkept c hc⟩⟩
      · obtain ⟨_, _, _, _, _, _, hmoved, hframe⟩ := hgood.move hlive hp hgrown
          htakes hgood' hkept (copyCount_le b.size size)
        exact ⟨_, _, hcall, hmoved, hframe⟩

end AuraLite.BoundaryTagHeap

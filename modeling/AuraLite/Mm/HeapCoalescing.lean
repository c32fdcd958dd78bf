import Mathlib.Data.List.Chain
import AuraLite.Mm.HeapInvariant

/-!
# Coalescing

`heap_free` refreshes a boundary tag only when it merges, and `kheap_expand`
never merges with the block before `brk`.  Coalescing is complete along
the runs in which every released block has a free neighbour and no span that is
too small is committed behind a free block; one release without a free neighbour already
leaves a stale tag.
-/

namespace AuraLite.BoundaryTagHeap

open List AuraLite.ByteMemory AuraLite.Word64 AuraLite.LinkedChain
open AuraLite.Reachability

/-- The block addresses of the committed region, or none if the headers do not
tile it. -/
def Heap.addrs (h : Heap) : List ℕ := h.headers.getD []

def isFree (m : Mem) (b : ℕ) : Prop := blockMagic m b = heapMagicFree

/-- Every tag agrees with its header, no two neighbours are free, and once
nothing is live the committed region is one free block. -/
structure Coalesced (s : Session) : Prop where
  tiles : s.heap.headers = some s.heap.addrs
  tags : ∀ b ∈ s.heap.addrs,
    read64 s.heap.mem (blockFooter s.heap.mem b) = blockMagic s.heap.mem b
  apart : s.heap.addrs.IsChain fun b c =>
    ¬(isFree s.heap.mem b ∧ isFree s.heap.mem c)
  single : s.live = [] → s.heap.brk ≠ 0 →
    s.heap.addrs = [s.heap.base] ∧ isFree s.heap.mem s.heap.base ∧
      blockSize s.heap.mem s.heap.base = s.heap.brk

/-! ## The condition on calls -/

/-- A block next to `b` in address order is free. -/
def HasFreeNeighbour (h : Heap) (b : ℕ) : Prop :=
  ∃ c ∈ h.addrs, isFree h.mem c ∧
    (c = b + blockSize h.mem b ∨ c + blockSize h.mem c = b)

def TailUsed (h : Heap) : Prop :=
  ∀ c ∈ h.addrs, c + blockSize h.mem c = h.base + h.brk → ¬isFree h.mem c

/-- A free block is large enough for a request of `size` bytes. -/
def HasFit (h : Heap) (size : ℕ) : Prop :=
  ∃ b ∈ h.addrs, isFree h.mem b ∧ requiredBlockSize size ≤ blockSize h.mem b

/-- A request of `size` bytes finds a free block, or there is no span to commit, or one
that is enough, or a single one behind a used block. -/
def GrowsCleanly (h : Heap) (size : ℕ) (supply : ℕ → PageSupply) : Prop :=
  let need := requiredBlockSize size
  let span := spanAt h supply 0 h.brk need
  HasFit h size ∨ span = 0 ∨ need ≤ span ∨
    TailUsed h ∧ spanAt h supply 1 (h.brk + span) need = 0

/-- A free neighbour of the block at `b` that a request of `size` bytes leaves
there: another block is the first fit, or the neighbour lies below `b` and is
split, so that its upper part stays free. -/
def KeepsFreeNeighbour (h : Heap) (b size : ℕ) : Prop :=
  ∃ c ∈ h.addrs, isFree h.mem c ∧
    (c = b + blockSize h.mem b ∨ c + blockSize h.mem c = b) ∧
    (firstFit h.mem (requiredBlockSize size) (h.brk + 1) h.freeList ≠ some c ∨
      c + blockSize h.mem c = b ∧
        requiredBlockSize size + minBlock ≤ blockSize h.mem c)

/-- The calls for which coalescing is complete.  A reallocation that has to move
allocates before it releases its old block, so the neighbour has to outlast the
allocation. -/
def Call.Merges (s : Session) : Call → Prop
  | .alloc size supply =>
    RequestFits s.heap size ∧ GrowsCleanly s.heap size supply
  | .free ptr => HasFreeNeighbour s.heap (ptr - headerSize)
  | .realloc ptr size supply =>
    RequestFits s.heap size ∧
      (if size = 0 then HasFreeNeighbour s.heap (ptr - headerSize)
      else if requiredBlockSize size ≤
          blockSize s.heap.mem (ptr - headerSize) then True
      else GrowsCleanly s.heap size supply ∧
        (HasFit s.heap size ∨ requiredBlockSize size ≤
            spanAt s.heap supply 0 s.heap.brk (requiredBlockSize size) →
          KeepsFreeNeighbour s.heap (ptr - headerSize) size))
  | .store _ _ _ => True

variable {h h' : Heap} {blocks left right : List Block} {nodes : List ℕ}
variable {p : ℕ} {blocks' : List Block}
variable {b c : Block} {s s' : Session} {m m' : Mem}

/-! ## Coalesced arenas -/

/-- Neighbouring blocks that are not both free. -/
def Apart (b c : Block) : Prop := b.free = false ∨ c.free = false

theorem Apart.not_both (hapart : Apart b c) : ¬(b.free = true ∧ c.free = true) := by
  rintro ⟨hb, hc⟩
  rcases hapart with hused | hused
  · simp [hb] at hused
  · simp [hc] at hused

structure Merged (blocks : List Block) : Prop where
  tags : ∀ b ∈ blocks, b.tagFree = b.free
  apart : blocks.IsChain Apart

open Session

theorem Merged.around (hmerged : Merged (left ++ b :: right)) (hfree : b.free = true) :
    Merged left ∧ Merged right ∧ ∀ n ∈ right.head?, n.free = false := by
  obtain ⟨hleft, hrest, -⟩ := isChain_append.mp hmerged.apart
  obtain ⟨hnext, hright⟩ := isChain_cons.mp hrest
  have htags := hmerged.tags
  simp only [forall_mem_append, forall_mem_cons] at htags
  exact ⟨⟨htags.1, hleft⟩, ⟨htags.2.2, hright⟩,
    fun n hn => (hnext n hn).resolve_left (by simp [hfree])⟩

/-- Between used neighbours one block may be replaced by a free one. -/
theorem isChain_between (hleft : left.IsChain Apart) (hright : right.IsChain Apart)
    (hprev : ∀ p ∈ left.getLast?, p.free = false)
    (hnext : ∀ n ∈ right.head?, n.free = false) (b : Block) :
    (left ++ b :: right).IsChain Apart := by
  refine hleft.append (hright.cons fun n hn => .inr (hnext n hn)) ?_
  exact fun p hp _ _ => .inl (hprev p hp)

variable {need : ℕ}

/-- The block that is taken is used, whatever is in front of it. -/
theorem Merged.take (hleft : Merged left) (hright : Merged right)
    (hnext : ∀ n ∈ right.head?, n.free = false) (b : Block) (need : ℕ) :
    Merged (left ++ (taken b need ++ right)) := by
  simp only [taken]
  split_ifs
  · refine ⟨?_, hleft.apart.append (hright.apart.cons fun _ _ => .inl rfl) ?_⟩
    · simp only [forall_mem_append, forall_mem_singleton, true_and]
      exact ⟨hleft.tags, hright.tags⟩
    · rintro _ - _ ⟨⟩
      exact .inr rfl
  · have hrem : (⟨b.addr + need, b.size - need, true, true⟩ :: right : List Block).IsChain Apart :=
      hright.apart.cons fun n hn => .inr (hnext n hn)
    refine ⟨?_, hleft.apart.append (hrem.cons fun _ _ => .inl rfl) ?_⟩
    · simp only [forall_mem_append, forall_mem_cons, true_and]
      exact ⟨hleft.tags, by simp, hright.tags⟩
    · rintro _ - _ ⟨⟩
      exact .inr rfl

theorem Merged.grow (hmerged : Merged blocks)
    (htail : ∀ p ∈ blocks.getLast?, p.free = false) (lo size : ℕ) :
    Merged (blocks ++ [⟨lo, size, true, true⟩]) := by
  refine ⟨?_, ?_⟩
  · simp only [forall_mem_append, forall_mem_singleton, and_true]
    exact hmerged.tags
  · exact hmerged.apart.append (isChain_singleton _) fun p hp _ _ => .inl (htail p hp)

/-- What absorbing the successor leaves to the right of a released block. -/
theorem Merged.absorb (hmerged : Merged (left ++ b :: right)) :
    (absorbNext b right).2.IsChain Apart ∧ (∀ n ∈ (absorbNext b right).2.head?, n.free = false) ∧
      (∀ c ∈ (absorbNext b right).2, c.tagFree = c.free) ∧
      ((∃ n ∈ right.head?, n.free = true) → (absorbNext b right).1.tagFree = true) := by
  obtain ⟨_, hrest, _⟩ := isChain_append.mp hmerged.apart
  obtain ⟨_, hright⟩ := isChain_cons.mp hrest
  have htags := hmerged.tags
  simp only [forall_mem_append, forall_mem_cons] at htags
  cases right with
  | nil => exact ⟨isChain_nil, by simp [absorbNext], by simp [absorbNext], by simp⟩
  | cons next rest =>
    obtain ⟨hafter, hrestChain⟩ := isChain_cons.mp hright
    simp only [absorbNext]
    split_ifs with hnextFree
    · refine ⟨hrestChain, fun n hn => ?_, ?_, fun _ => rfl⟩
      · exact (hafter n hn).resolve_left (by simp [hnextFree])
      · exact fun c hc => htags.2.2 c (mem_cons_of_mem _ hc)
    · refine ⟨hright, ?_, htags.2.2, ?_⟩
      · simpa using hnextFree
      · rintro ⟨n, hn, hfree⟩
        have : next = n := by simpa using hn
        exact absurd (this ▸ hfree) hnextFree

/-- Releasing a block that has a free neighbour keeps the arena coalesced. -/
theorem Merged.release (hmerged : Merged (left ++ b :: right))
    (hneighbour : (∃ n ∈ right.head?, n.free = true) ∨ ∃ p ∈ left.getLast?, p.free = true) :
    Merged (release left b right) := by
  obtain ⟨hchain, hhead, htags, habsorbed⟩ := hmerged.absorb
  obtain ⟨hleft, _, _⟩ := isChain_append.mp hmerged.apart
  have hleftTags := hmerged.tags
  simp only [forall_mem_append] at hleftTags
  have hfree := (absorbNext_addr b right).2
  simp only [BoundaryTagHeap.release]
  rcases eq_nil_or_concat' left with rfl | ⟨front, prev, rfl⟩
  · have htag := habsorbed (by simpa using hneighbour)
    refine ⟨?_, hchain.cons fun n hn => .inr (hhead n hn)⟩
    simp only [joinPrev, getLast?_nil, nil_append, forall_mem_cons]
    exact ⟨htag.trans hfree.symm, htags⟩
  · have hprevTag : prev.tagFree = prev.free := hleftTags.1 prev (by simp)
    obtain ⟨hfront, _, hbefore⟩ := isChain_append.mp hleft
    simp only [joinPrev, getLast?_concat, dropLast_concat]
    split_ifs with hprev
    · have hprevFree : prev.free = true := hprevTag ▸ hprev
      refine ⟨?_, isChain_between hfront hchain (fun p hp => ?_) hhead _⟩
      · simp only [forall_mem_append, forall_mem_cons, true_and]
        exact ⟨fun c hc => hleftTags.1 c (mem_append_left _ hc), htags⟩
      · exact (hbefore p hp prev (by simp)).resolve_right (by simp [hprevFree])
    · have hprevUsed : prev.free = false := by
        rw [← hprevTag]
        simpa using hprev
      have hnext : ∃ n ∈ right.head?, n.free = true := by
        rcases hneighbour with hnext | ⟨p, hp, hpFree⟩
        · exact hnext
        · have : prev = p := by simpa using hp
          rw [← this, hprevUsed] at hpFree
          cases hpFree
      refine ⟨?_, isChain_between hleft hchain (fun p hp => ?_) hhead _⟩
      · simp only [forall_mem_append, forall_mem_cons]
        exact ⟨⟨fun c hc => hleftTags.1 c (mem_append_left _ hc), hprevTag,
          by simp⟩, (habsorbed hnext).trans hfree.symm,
          htags⟩
      · have : prev = p := by simpa using hp
        exact this ▸ hprevUsed

/-! ## Reading the condition off the arena -/

section

variable (hcore : Core h blocks nodes)
include hcore

theorem Core.addrs_eq : h.addrs = blocks.map Block.addr := by
  rw [Heap.addrs, hcore.headers_eq, Option.getD_some]

theorem Core.isFree_iff (hb : b ∈ blocks) : isFree h.mem b.addr ↔ b.free = true := by
  rw [isFree, (hcore.image b hb).magic, magicOf_eq_free_iff]

theorem Core.exists_free (P : ℕ → ℕ → Prop) :
    (∃ a ∈ h.addrs, isFree h.mem a ∧ P a (blockSize h.mem a)) ↔
      ∃ c ∈ blocks, c.free = true ∧ P c.addr c.size := by
  simp only [hcore.addrs_eq, mem_map, exists_exists_and_eq_and]
  refine exists_congr fun c => and_congr_right fun hc => ?_
  rw [hcore.isFree_iff hc, (hcore.image c hc).size]

theorem hasFreeNeighbour_iff (hb : b ∈ blocks) :
    HasFreeNeighbour h b.addr ↔ ∃ c ∈ blocks, c.free = true ∧
      (c.addr = b.addr + b.size ∨ c.addr + c.size = b.addr) := by
  rw [← (hcore.image b hb).size]
  exact hcore.exists_free fun a n => a = b.addr + blockSize h.mem b.addr ∨ a + n = b.addr

end

/-- The blocks that touch `b` are its neighbours in the list. -/
theorem Core.neighbour (hcore : Core h (left ++ b :: right) nodes) (hc : c ∈ left ++ b :: right) :
    (c.addr = b.addr + b.size → c ∈ right.head?) ∧
      (c.addr + c.size = b.addr → c ∈ left.getLast?) := by
  obtain ⟨hleft, hright⟩ := hcore.around
  have hcBlock := hcore.block hc
  constructor
  · intro haddr
    cases right with
    | nil =>
      have hend : b.addr + b.size = h.base + h.brk := hright
      omega
    | cons next rest =>
      have hnext : next ∈ left ++ b :: next :: rest := by simp
      have heq := hcore.eq_of_addr hnext hc (hright.1.trans haddr.symm)
      simp [heq]
  · intro hstop
    rcases eq_nil_or_concat' left with rfl | ⟨front, prev, rfl⟩
    · have hstart : h.base = b.addr := hleft
      omega
    · have hprev : prev ∈ front ++ [prev] ++ b :: right := by simp
      have hprevBlock := hcore.block hprev
      obtain ⟨mid, _, haddr, _, _, hend⟩ := tiled_append.mp hleft
      have hprevStop : mid + prev.size = b.addr := hend
      have heq : prev = c := (hcore.separate hprev hc).resolve_right (by omega)
      simp [heq]

theorem HasFreeNeighbour.arena (hcore : Core h (left ++ b :: right) nodes)
    (hneighbour : HasFreeNeighbour h b.addr) :
    (∃ n ∈ right.head?, n.free = true) ∨ ∃ p ∈ left.getLast?, p.free = true := by
  obtain ⟨c, hc, hfree, hside⟩ := (hasFreeNeighbour_iff hcore (by simp)).mp hneighbour
  obtain ⟨hnext, hprev⟩ := hcore.neighbour hc
  rcases hside with hside | hside
  · exact .inl ⟨c, hnext hside, hfree⟩
  · exact .inr ⟨c, hprev hside, hfree⟩

theorem TailUsed.arena (hcore : Core h blocks nodes) (htail : TailUsed h) :
    ∀ p ∈ blocks.getLast?, p.free = false := by
  intro p hp
  rcases eq_nil_or_concat' blocks with rfl | ⟨front, last, rfl⟩
  · simp at hp
  · have hlast : last = p := by simpa using hp
    have hmem : last ∈ front ++ [last] := by simp
    obtain ⟨_, hend⟩ := @Core.around h front [] nodes last hcore
    have hnot := htail last.addr (by
      rw [hcore.addrs_eq]
      exact mem_map_of_mem hmem) (by
      rw [(hcore.image last hmem).size]
      exact hend)
    rw [hcore.isFree_iff hmem, hlast] at hnot
    simpa using hnot

theorem Good.coalesced (hgood : Good s blocks) (hmerged : Merged blocks) : Coalesced s := by
  obtain ⟨nodes, hrep⟩ := hgood.rep
  have haddrs := hrep.addrs_eq
  constructor
  · rw [haddrs, hrep.headers_eq]
  · intro a ha
    rw [haddrs] at ha
    obtain ⟨b, hb, rfl⟩ := mem_map.mp ha
    rw [((hrep.image b hb).footer_eq (hrep.block hb).2.2.1).2.2,
      (hrep.image b hb).magic, hmerged.tags b hb]
  · rw [haddrs, isChain_map]
    refine hmerged.apart.imp_of_mem_imp fun b c hb hc hapart => ?_
    rw [hrep.isFree_iff hb, hrep.isFree_iff hc]
    exact hapart.not_both
  · intro hlive hbrk
    have hallFree : ∀ b ∈ blocks, b.free = true := by
      intro b hb
      by_contra hused
      have hheld := hgood.owned.held b ⟨hb, by simpa using hused⟩
      simp [hlive] at hheld
    match blocks, hmerged.apart with
    | [], _ =>
      have hend : s.heap.base = s.heap.base + s.heap.brk := hrep.tiled
      omega
    | [b], _ =>
      obtain ⟨haddr, _, _, hend⟩ := hrep.tiled
      have hb : b ∈ [b] := by simp
      have hstop : s.heap.base + b.size = s.heap.base + s.heap.brk := hend
      refine ⟨by rw [haddrs, map_singleton, haddr], ?_, ?_⟩
      · rw [← haddr, hrep.isFree_iff hb]
        exact hallFree b hb
      · rw [← haddr, (hrep.image b hb).size]
        omega
    | b :: c :: rest, hapart =>
      have hnot := (isChain_cons_cons.mp hapart).1.not_both
      exact absurd ⟨hallFree b (by simp), hallFree c (by simp)⟩ hnot

/-! ## Steps and runs -/

theorem Takes.merged (htakes : Takes blocks need p blocks') (hmerged : Merged blocks) :
    Merged blocks' := by
  cases htakes with
  | none => exact hmerged
  | took hblocks hfree hfit =>
    rw [hblocks] at hmerged
    obtain ⟨hleft, hright, hnext⟩ := hmerged.around hfree
    exact hleft.take hright hnext _ _

/-- The block an allocation took: the request could be served, and if the block
is one of the old ones it was the first fit. -/
structure Served (h : Heap) (blocks : List Block) (size p : ℕ)
    (supply : ℕ → PageSupply) : Prop where
  serves : HasFit h size ∨ requiredBlockSize size ≤
    spanAt h supply 0 h.brk (requiredBlockSize size)
  first : ∀ c ∈ blocks, c.addr + headerSize = p →
    firstFit h.mem (requiredBlockSize size) (h.brk + 1) h.freeList = some c.addr

variable {size : ℕ}

theorem hasFit_iff (hcore : Core h blocks nodes) : HasFit h size ↔
      ∃ b ∈ blocks, b.free = true ∧ requiredBlockSize size ≤ b.size :=
  hcore.exists_free fun _ n => requiredBlockSize size ≤ n

variable {supply : ℕ → PageSupply}

/-- Where no old block fits, the one behind them is taken or is too small as well. -/
theorem Takes.last {g : Block} (hnone : ∀ b ∈ blocks, b.free = true → b.size < need)
    (hfree : g.free = true) (htakes : Takes (blocks ++ [g]) need p blocks') :
    p = 0 ∧ g.size < need ∨
      p = g.addr + headerSize ∧ need ≤ g.size ∧ blocks' = blocks ++ (taken g need ++ []) := by
  cases htakes with
  | none hsmall => exact .inl ⟨rfl, hsmall g (by simp) hfree⟩
  | @took left right b hblocks hb hfit =>
    have hold : b ∉ blocks := fun hmem => absurd hfit (Nat.not_le.mpr (hnone b hmem hb))
    rcases eq_nil_or_concat' right with rfl | ⟨front, last, rfl⟩
    · obtain ⟨rfl, hsame⟩ := append_inj' hblocks rfl
      cases hsame
      exact .inr ⟨rfl, hfit, rfl⟩
    · rw [← cons_append, ← append_assoc] at hblocks
      obtain ⟨rfl, -⟩ := append_inj' hblocks rfl
      exact absurd (by simp) hold

/-- A block taken from a freshly committed span is none of the old ones. -/
theorem served_of_span {mapped : ℕ}
    (hrep : Rep h (blocks ++ [⟨h'.base + h'.brk, mapped, true, true⟩]) nodes)
    (hnone : ∀ b ∈ blocks, b.free = true → b.size < requiredBlockSize size)
    (hspan : spanAt h' supply 0 h'.brk (requiredBlockSize size) = mapped)
    (hfit : requiredBlockSize size ≤ mapped) :
    Served h' blocks size (h'.base + h'.brk + headerSize) supply := by
  refine ⟨.inr (by rwa [hspan]), fun c hc haddr => ?_⟩
  have heq := hrep.eq_of_addr (mem_append_left _ hc) (mem_append_right _ mem_cons_self)
    (Nat.add_right_cancel haddr)
  rw [heq] at hc
  exact absurd hfit (Nat.not_le.mpr (hnone _ hc rfl))

/-- An allocation that grows cleanly keeps the arena coalesced. -/
theorem Good.alloc_merged {supply : ℕ → PageSupply}
    (hgood : Good s blocks) (hmerged : Merged blocks)
    (hfits : RequestFits s.heap size)
    (hclean : GrowsCleanly s.heap size supply) :
    ∃ h' p grown blocks', heapAlloc (kheapExpand supply) s.heap size = some (h', p) ∧
        (∀ g ∈ grown, g.free = true) ∧
        Takes (blocks ++ grown) (requiredBlockSize size) p blocks' ∧
        (p ≠ 0 → Served s.heap blocks size p supply) ∧
        Good (s.allocated h' p size) blocks' ∧ Merged blocks' := by
  obtain ⟨nodes, hrep⟩ := hgood.rep
  obtain ⟨hneed, hsize⟩ := hgood.roomy.need hfits
  have hround : Round supply (requiredBlockSize size) s.heap.limit 0 s.heap blocks :=
    heapAllocLoop_round hrep hgood.roomy hneed
  cases hround with
  | @ends h' p blocks' _ hcall htakes hrep' hroomy hfirst _ =>
    have hnil : ∀ g ∈ ([] : List Block), g.free = true := by simp
    rw [← append_nil blocks] at htakes
    refine ⟨h', p, [], blocks', hcall, hnil, htakes, fun hp => ⟨?_, ?_⟩,
      hgood.of_takes hnil htakes hrep' hroomy hsize, htakes.merged (by simpa using hmerged)⟩
    · exact .inl ((hasFit_iff hrep.toCore).mpr (hfirst hp).1)
    · rintro c _ rfl
      rw [(hfirst hp).2, Nat.add_sub_cancel]
  | @grows mapped _ hnone hspan hmin hlimit hcall hrep' hroomy' hneed' _ =>
    have hunfit : ¬HasFit s.heap size := by
      rw [hasFit_iff hrep.toCore]
      rintro ⟨b, hb, hfree, hlarge⟩
      exact absurd hlarge (Nat.not_le.mpr (hnone b hb hfree))
    have honce : mapped < requiredBlockSize size → TailUsed s.heap ∧
        spanAt s.heap supply 1 (s.heap.brk + mapped) (requiredBlockSize size) = 0 := by
      intro hshort
      have hgrows := hclean.resolve_left hunfit
      rw [hspan] at hgrows
      exact (hgrows.resolve_left (by omega)).resolve_left (by omega)
    have hfree : ∀ g ∈ [(⟨s.heap.base + s.heap.brk, mapped, true, true⟩ : Block)],
        g.free = true := by simp
    obtain ⟨fuel, hfuel⟩ := Nat.exists_eq_succ_of_ne_zero (by omega : s.heap.limit ≠ 0)
    have hfirst : heapAlloc (kheapExpand supply) s.heap size = _ := hcall
    rw [hfuel] at hfirst
    have hagain : Round supply (requiredBlockSize size) fuel 1 (commitSpan s.heap mapped)
        (blocks ++ [⟨s.heap.base + s.heap.brk, mapped, true, true⟩]) :=
      heapAllocLoop_round hrep' hroomy' hneed'
    cases hagain with
    | ends hcall' htakes hrep'' hroomy'' _ _ =>
      refine ⟨_, _, _, _, hfirst.trans hcall', hfree, htakes, ?_,
        hgood.of_takes hfree htakes hrep'' hroomy'' hsize, ?_⟩
      · rcases htakes.last hnone rfl with ⟨rfl, -⟩ | ⟨rfl, hfit, -⟩
        · exact fun hp => absurd rfl hp
        · exact fun _ => served_of_span hrep' hnone hspan hfit
      · rcases htakes.last hnone rfl with ⟨-, hshort⟩ | ⟨-, -, rfl⟩
        · exact htakes.merged (hmerged.grow ((honce hshort).1.arena hrep.toCore) _ _)
        · exact hmerged.take ⟨by simp, isChain_nil⟩ (by simp) _ _
    | @grows more _ hnone' hmore hpos =>
      -- the condition leaves no second span
      have hshort : mapped < requiredBlockSize size :=
        hnone' ⟨s.heap.base + s.heap.brk, mapped, true, true⟩ (by simp) rfl
      have hzero : spanAt s.heap supply 1 (s.heap.brk + mapped) (requiredBlockSize size) =
        more := hmore
      have hnoMore := (honce hshort).2
      omega

/-- The allocation of a moving `realloc` leaves the neighbour it has to. -/
theorem KeepsFreeNeighbour.outlasts {grown : List Block} {nodes' : List ℕ}
    (hkeeps : KeepsFreeNeighbour h b.addr size) (hcore : Core h blocks nodes)
    (hb : UsedIn blocks b) (hgrown : ∀ g ∈ grown, g.free = true)
    (htakes : Takes (blocks ++ grown) (requiredBlockSize size) p blocks')
    (hserved : Served h blocks size p supply) (hcore' : Core h' blocks' nodes') :
    HasFreeNeighbour h' b.addr := by
  have hb' := (htakes.usedIn ((usedIn_grown hgrown).mpr hb)).1
  obtain ⟨c, hc, hfree, hside, hstays⟩ := (hcore.exists_free fun a n =>
    (a = b.addr + blockSize h.mem b.addr ∨ a + n = b.addr) ∧
    (firstFit h.mem (requiredBlockSize size) (h.brk + 1) h.freeList ≠ some a ∨
      a + n = b.addr ∧ requiredBlockSize size + minBlock ≤ n)).mp hkeeps
  rw [(hcore.image b hb.1).size] at hside
  rw [hasFreeNeighbour_iff hcore' hb']
  have hcAll : c ∈ blocks ++ grown := mem_append_left _ hc
  cases htakes with
  | none => exact ⟨c, hcAll, hfree, hside⟩
  | @took left right f hblocks _ _ =>
    by_cases hcf : c = f
    · have hfirst := hserved.first c hc (by rw [hcf])
      obtain ⟨hbelow, hlarge⟩ := hstays.resolve_left fun hne => hne hfirst
      have hupper : ⟨f.addr + requiredBlockSize size, f.size - requiredBlockSize size, true, true⟩ ∈
            left ++ (taken f (requiredBlockSize size) ++ right) := by
        have hsplit : ¬f.size < requiredBlockSize size + 64 := by
          rw [← hcf]
          exact Nat.not_lt.mpr hlarge
        simp [taken, hsplit]
      refine ⟨_, hupper, rfl, .inr ?_⟩
      rw [← hcf]
      have hneed : requiredBlockSize size ≤ c.size := (Nat.le_add_right _ _).trans hlarge
      show c.addr + requiredBlockSize size + (c.size - requiredBlockSize size) = b.addr
      omega
    · exact ⟨c, mem_beside (hblocks ▸ hcAll) hcf _, hfree, hside⟩

section

variable {ptr : ℕ} (hgood : Good s blocks) (hmerged : Merged blocks)
  (hlive : ptr ∈ s.live.map Prod.fst)
include hgood hmerged hlive

theorem Good.free_merged (hneighbour : HasFreeNeighbour s.heap (ptr - headerSize)) :
    ∃ blocks', Good ⟨heapFree s.heap ptr, dropPtr s.live ptr⟩ blocks' ∧ Merged blocks' := by
  obtain ⟨left, b, right, rfl, hused, rfl⟩ := hgood.backed hlive
  obtain ⟨nodes, hrep⟩ := hgood.rep
  rw [Nat.add_sub_cancel] at hneighbour
  exact ⟨release left b right, (hgood.free hused).1, hmerged.release (hneighbour.arena hrep.toCore)⟩

theorem Good.realloc_merged (hmerges : Call.Merges s (.realloc ptr size supply))
    (hstep : s.step (.realloc ptr size supply) = some s') :
    ∃ blocks', Good s' blocks' ∧ Merged blocks' := by
  obtain ⟨hfits, hrest⟩ := hmerges
  obtain ⟨left, b, right, hblocks, hused, hptr⟩ := hgood.backed hlive
  have hb : UsedIn blocks b := ⟨by simp [hblocks], hused⟩
  obtain ⟨nodes, hrep⟩ := hgood.rep
  obtain ⟨hsub, _, hblock⟩ := header_at_ptr hrep hb hptr
  by_cases hzero : size = 0
  · subst hzero
    rw [if_pos rfl] at hrest
    rw [step_realloc_zero hptr hlive, Option.some.injEq] at hstep
    exact hstep ▸ hgood.free_merged hmerged hlive hrest
  · rw [if_neg hzero, hsub, hblock] at hrest
    by_cases hinPlace : requiredBlockSize size ≤ b.size
    · have hroom := (hgood.roomy.need hfits).2
      rw [step_realloc_inPlace hrep hb hptr hlive hzero hinPlace,
        Option.some.injEq] at hstep
      exact ⟨blocks, hstep ▸ hgood.resize hb hptr (by omega), hmerged⟩
    · rw [if_neg hinPlace] at hrest
      obtain ⟨h', p, grown, blocks', halloc, hgrown, htakes, hserved, hgood',
        hmerged'⟩ := hgood.alloc_merged hmerged hfits hrest.1
      obtain ⟨_, _, _, _, halloc₂, _, _, _, hkept⟩ := hgood.alloc supply hfits
      rw [halloc, Option.some.injEq, Prod.mk.injEq] at halloc₂
      rw [step_realloc_moves hrep hb hptr hlive hzero hinPlace halloc] at hstep
      split_ifs at hstep with hp
      · rw [Option.some.injEq] at hstep
        simp only [allocated, hp, if_true] at hgood'
        exact ⟨blocks', hstep ▸ hgood', hmerged'⟩
      · rw [Option.some.injEq] at hstep
        obtain ⟨nodes', hrep'⟩ := hgood'.rep
        have hheap : (s.allocated h' p size).heap = h' := by
          simp only [allocated, hp, if_false]
        rw [hheap] at hrep'
        have hneighbour := (hrest.2 (hserved hp).serves).outlasts hrep.toCore hb
          hgrown htakes (hserved hp) hrep'.toCore
        obtain ⟨left', b', right', rfl, _, hptr', hmoved, _⟩ :=
          hgood.move hlive hp hgrown htakes hgood' (halloc₂.1 ▸ hkept) (copyCount_le b.size size)
        have haddr : b.addr = b'.addr := by omega
        rw [haddr] at hneighbour
        exact ⟨_, hstep ▸ hmoved, hmerged'.release (hneighbour.arena hrep'.toCore)⟩

end

theorem Good.step_merged {call : Call} (hgood : Good s blocks)
    (hmerged : Merged blocks) (hmerges : call.Merges s)
    (hstep : s.step call = some s') :
    ∃ blocks', Good s' blocks' ∧ Merged blocks' := by
  have hheld := held_of_step hstep
  cases call with
  | alloc size supply =>
    obtain ⟨h', p, _, blocks', halloc, _, _, _, hgood', hmerged'⟩ :=
      hgood.alloc_merged hmerged hmerges.1 hmerges.2
    rw [step_alloc halloc, Option.some.injEq] at hstep
    exact ⟨blocks', hstep ▸ hgood', hmerged'⟩
  | free ptr =>
    rw [Session.step, if_pos (show ptr ∈ s.live.map Prod.fst from hheld),
      Option.some.injEq] at hstep
    exact hstep ▸ hgood.free_merged hmerged hheld hmerges
  | realloc ptr size supply =>
    exact hgood.realloc_merged hmerged hheld hmerges hstep
  | store ptr offset byte =>
    obtain ⟨after, hafter, hgood', _⟩ := hgood.store byte hheld
    rw [hafter, Option.some.injEq] at hstep
    exact ⟨blocks, hstep ▸ hgood', hmerged⟩

/-- Along every run whose releases have a free neighbour and whose spans are
enough or committed behind a used block, the heap is completely coalesced. -/
theorem heap_coalesced_of_merges (region : Region) (mem : Mem) (s : Session)
    (hrun : Reaches (guarded (fun s call => call.Merges s) Session.Step)
      (Session.start region mem) s) :
    Coalesced s := by
  have hinv : ∃ blocks, Good s blocks ∧ Merged blocks := by
    refine @Reaches.invariant _ _ _ _ _ (fun s => ∃ blocks, Good s blocks ∧ Merged blocks) hrun
      ⟨[], good_start region mem, by simp, isChain_nil⟩ ?_
    rintro before call after ⟨blocks, hgood, hmerged⟩ ⟨hmerges, hstep⟩
    exact hgood.step_merged hmerged hmerges hstep
  obtain ⟨blocks, hgood, hmerged⟩ := hinv
  exact hgood.coalesced hmerged

instance (m : Mem) (b : ℕ) : Decidable (isFree m b) :=
  inferInstanceAs (Decidable (blockMagic m b = heapMagicFree))

instance (h : Heap) (b : ℕ) : Decidable (HasFreeNeighbour h b) :=
  inferInstanceAs (Decidable (∃ c ∈ h.addrs, _))

instance (h : Heap) : Decidable (TailUsed h) :=
  inferInstanceAs (Decidable (∀ c ∈ h.addrs, _))

instance (h : Heap) (size : ℕ) : Decidable (HasFit h size) :=
  inferInstanceAs (Decidable (∃ b ∈ h.addrs, _))

instance (h : Heap) (size : ℕ) (supply : ℕ → PageSupply) :
    Decidable (GrowsCleanly h size supply) := by
  unfold GrowsCleanly
  infer_instance

instance (h : Heap) (b size : ℕ) : Decidable (KeepsFreeNeighbour h b size) := by
  unfold KeepsFreeNeighbour
  infer_instance

instance (s : Session) : (call : Call) → Decidable (call.Merges s)
  | .alloc .. | .free _ | .realloc .. | .store .. => by
    unfold Call.Merges
    infer_instance

/-- The first block is allocated and released again. -/
theorem heap_coalesced_after_release :
    ∃ s, Reaches (guarded (fun s call => call.Merges s) Session.Step)
        (Session.start kernelRegion fun _ => 0) s ∧
      s.live = [] ∧ s.heap.brk = expandMin ∧ Coalesced s := by
  have hrun : (runChecked step (fun s call => decide (call.Merges s))
      (start kernelRegion fun _ => 0)
      [.alloc 16 plentiful, .free (kernelRegion.base + headerSize)]).map
        (fun s => (s.live, s.heap.brk)) = some ([], expandMin) := by
    decide +kernel
  obtain ⟨s, hreaches, hfields⟩ := reaches_of_runChecked hrun
  rw [Prod.mk.injEq] at hfields
  exact ⟨s, hreaches, hfields.1, hfields.2,
    heap_coalesced_of_merges kernelRegion (fun _ => 0) s hreaches⟩

/-- Two blocks are allocated and released in the order of their allocation.  The
first release has no free neighbour and leaves its tag stale, so the second does
not see the block before it. -/
theorem heap_free_misses_neighbour : ∃ s, Reaches (guarded (fun s call => call.Fits s) Session.Step)
        (Session.start kernelRegion fun _ => 0) s ∧
      s.live = [] ∧ s.heap.addrs.length = 2 ∧
      (∀ b ∈ s.heap.addrs, isFree s.heap.mem b) ∧ ¬Coalesced s := by
  have hrun : (runChecked step (fun s call => decide (call.Fits s))
      (start kernelRegion fun _ => 0)
      [.alloc 16 plentiful, .alloc 16 plentiful, .free (kernelRegion.base + headerSize),
        .free (kernelRegion.base + 64 + headerSize)]).map
        (fun s => (s.live, s.heap.brk, s.heap.addrs.length,
          decide (∀ b ∈ s.heap.addrs, isFree s.heap.mem b))) =
      some ([], expandMin, 2, true) := by
    decide +kernel
  obtain ⟨s, hreaches, hfields⟩ := reaches_of_runChecked hrun
  simp only [Prod.mk.injEq, decide_eq_true_eq] at hfields
  obtain ⟨hlive, hbrk, hlength, hfree⟩ := hfields
  refine ⟨s, hreaches, hlive, hlength, hfree, ?_⟩
  intro hcoalesced
  have hsingle := (hcoalesced.single hlive (by rw [hbrk]; decide)).1
  rw [hsingle] at hlength
  cases hlength

end AuraLite.BoundaryTagHeap

import AuraLite.Mm.HeapInvariant

/-!
# Requests that wrap

`required_block_size` and `kheap_expand` add before they compare.  A request near `2 ^ 64`
asks for a block of 48 bytes or less, or for an expansion by no bytes, or for one whose end
wraps.  The results of this file tell the requests that are honoured from the others.
-/

namespace AuraLite.BoundaryTagHeap

open List AuraLite.ByteMemory AuraLite.Word64 AuraLite.LinkedChain

/-- The first expansion of a request is refused: the region ends before it, or there is no
frame for its first page. -/
def Refused (h : Heap) (supply : ℕ → PageSupply) (size : ℕ) : Prop :=
  h.limit < wrap64 (h.brk + expandWant (requiredBlockSize size)) ∨
    mapSpan (supply 0) (wrap64 (h.base + h.brk)) (expandWant (requiredBlockSize size)) = 0 ∧
      expandWant (requiredBlockSize size) ≠ 0

/-- The expansion of the request does not wrap, but its end does. -/
def Overruns (h : Heap) (size : ℕ) : Prop :=
  (headerSize + footerSize + max size minPayload + (pageSize - 1)) / pageSize * pageSize < 2 ^ 64 ∧
    ¬ RequestFits h size

/-- `heap_alloc` returns `NULL` with at most some free blocks more, or a block with room for the
request, and `heap_realloc` never a shorter block. -/
structure Honours (s : Session) (blocks : List Block) (supply : ℕ → PageSupply) (size : ℕ) :
    Prop where
  alloc : ∃ h p, heapAlloc (kheapExpand supply) s.heap size = some (h, p) ∧
    if p = 0 then ∃ grown nodes, (∀ g ∈ grown, g.free = true) ∧ Rep h (blocks ++ grown) nodes
    else size ≤ blockSize h.mem (p - headerSize) - 48
  realloc : ∀ ptr ∈ s.live.map Prod.fst, ∃ h p,
    heapRealloc (kheapExpand supply) s.heap ptr size = some (h, p) ∧
      (p ≠ 0 → size ≤ blockSize h.mem (p - headerSize) - 48)

variable {s : Session} {blocks : List Block} {nodes : List ℕ} {h : Heap} {b : Block} {m m' : Mem}
variable {size need : ℕ} {supply : ℕ → PageSupply}

/-! ## Requests that are honoured -/

open Session

theorem Good.long (hgood : Good s blocks) {p size : ℕ} (hentry : (p, size) ∈ s.live) :
    size ≤ blockSize s.heap.mem (p - headerSize) - 48 := by
  obtain ⟨_, _, hwf⟩ := hgood.wellFormed
  have hlong := hwf.live_long _ hentry
  simp only [headerSize, footerSize] at hlong ⊢
  omega

theorem Good.honours (hgood : Good s blocks) (hfits : RequestFits s.heap size) :
    Honours s blocks supply size := by
  constructor
  · obtain ⟨h, p, grown, blocks', hcall, hgrown, htakes, hgood', _⟩ := hgood.alloc supply hfits
    refine ⟨h, p, hcall, ?_⟩
    rw [allocated] at hgood'
    split_ifs at hgood' ⊢ with hp
    · obtain ⟨nodes, hrep⟩ := hgood'.rep
      cases htakes with
      | none => exact ⟨grown, nodes, hgrown, hrep⟩
      | took => simp [headerSize] at hp
    · exact hgood'.long mem_cons_self
  · intro ptr hlive
    obtain ⟨s', blocks', hstep, hgood', _⟩ := hgood.realloc supply hlive hfits
    simp only [Session.step, if_pos hlive] at hstep
    split at hstep
    · cases hstep
    · exact ⟨_, 0, ‹_›, fun h => absurd rfl h⟩
    · cases hstep
      exact ⟨_, _, ‹_›, fun _ => hgood'.long mem_cons_self⟩

theorem kheapExpand_eq (call : ℕ) : kheapExpand supply call h need =
    if h.limit < wrap64 (h.brk + expandWant need) then none
    else if mapSpan (supply call) (wrap64 (h.base + h.brk)) (expandWant need) = 0 ∧
        expandWant need ≠ 0 then none
    else some (commitSpan h
      (mapSpan (supply call) (wrap64 (h.base + h.brk)) (expandWant need))) :=
  rfl

theorem kheapExpand_eq_none :
    kheapExpand supply 0 h (requiredBlockSize size) = none ↔ Refused h supply size := by
  rw [kheapExpand_eq, Refused]
  split_ifs with hlimit hmapped
  · exact iff_of_true rfl (.inl hlimit)
  · exact iff_of_true rfl (.inr hmapped)
  · exact iff_of_false nofun (not_or.mpr ⟨hlimit, hmapped⟩)

theorem Good.used (hgood : Good s blocks) {ptr : ℕ} (hlive : ptr ∈ s.live.map Prod.fst) :
    ∃ b ∈ blocks, ptr = b.addr + headerSize ∧ blockMagic s.heap.mem b.addr = heapMagicUsed ∧
      blockSize s.heap.mem b.addr = b.size := by
  obtain ⟨entry, hentry, rfl⟩ := List.mem_map.mp hlive
  obtain ⟨b, ⟨hb, hused⟩, hptr, -⟩ := hgood.owned.backed entry hentry
  obtain ⟨nodes, hrep⟩ := hgood.rep
  have himage := hrep.image b hb
  refine ⟨b, hb, hptr, ?_, himage.size⟩
  rw [himage.magic, hused]
  rfl

/-- Without a block that is large enough, a refused expansion ends the request. -/
theorem Good.honours_refused (hgood : Good s blocks) (hrefused : Refused s.heap supply size)
    (hsmall : ∀ b ∈ blocks, b.size < requiredBlockSize size) : Honours s blocks supply size := by
  obtain ⟨nodes, hrep⟩ := hgood.rep
  have halloc : heapAlloc (kheapExpand supply) s.heap size = some (s.heap, 0) := by
    rcases firstFit_spec hrep (requiredBlockSize size) with ⟨hzero, -⟩ | ⟨b, hb, -, hlarge, -⟩
    · simp only [heapAlloc, heapAllocLoop, hzero, kheapExpand_eq_none.mpr hrefused]
    · exact absurd (hsmall b hb) (Nat.not_lt_of_le hlarge)
  refine ⟨⟨s.heap, 0, halloc, ?_⟩, fun ptr hlive => ?_⟩
  · rw [if_pos rfl]
    refine ⟨[], nodes, by simp, ?_⟩
    rw [append_nil]
    exact hrep
  · obtain ⟨b, hb, rfl, hmagic, hsize⟩ := hgood.used hlive
    by_cases hzero : size = 0
    · refine ⟨heapFree s.heap (b.addr + headerSize), 0, ?_, fun hne => absurd rfl hne⟩
      rw [heapRealloc, if_neg (by simp [headerSize]), if_pos hzero]
    · refine ⟨s.heap, 0, ?_, fun hne => absurd rfl hne⟩
      have hgrows : ¬ requiredBlockSize size ≤ blockSize s.heap.mem b.addr := by
        rw [hsize]
        exact Nat.not_le_of_lt (hsmall b hb)
      rw [heapRealloc, if_neg (by simp [headerSize]), if_neg hzero]
      simp only [Nat.add_sub_cancel, hmagic, ne_eq, not_true_eq_false, if_false, hgrows, halloc]

/-! ## What wraps -/

/-- The size with its tags wraps: at most 48 bytes are asked for, and none if it is the rounding
that wraps. -/
structure Wraps (size : ℕ) : Prop where
  large : 2 ^ 64 ≤ size + 63
  need : requiredBlockSize size ≤ 48
  none : size + 48 < 2 ^ 64 → requiredBlockSize size = 0

theorem requiredBlockSize_wrapped (hlarge : 16 ≤ size) :
    requiredBlockSize size = ((48 + size) % 2 ^ 64 + 15) % 2 ^ 64 / 16 * 16 := by
  have hpayload : (if size < minPayload then minPayload else size) = size :=
    if_neg (Nat.not_lt_of_le hlarge)
  simp only [requiredBlockSize, hpayload]
  rfl

/-- A request that neither fits nor overruns: its block size wraps, or the size of its expansion
does. -/
theorem Roomy.wraps (hroomy : Roomy h) (hsize : size < 2 ^ 64) (hfits : ¬ RequestFits h size)
    (hover : ¬ Overruns h size) :
    Wraps size ∨ h.brk < requiredBlockSize size ∧ expandWant (requiredBlockSize size) = 0 := by
  have hbrk := hroomy.brk_le
  have hhalf := hroomy.half
  rw [Overruns, not_and_not_right] at hover
  have hpages : ¬ (headerSize + footerSize + max size minPayload + (pageSize - 1)) /
      pageSize * pageSize < 2 ^ 64 := fun h => hfits (hover h)
  simp only [headerSize, footerSize, minPayload, pageSize] at hpages
  have hneed : requiredBlockSize size = ((48 + size) % 2 ^ 64 + 15) % 2 ^ 64 / 16 * 16 :=
    requiredBlockSize_wrapped (by omega)
  by_cases hlarge : 2 ^ 64 ≤ size + 63
  · exact .inl ⟨hlarge, by omega, by omega⟩
  · refine .inr ⟨by omega, ?_⟩
    rw [hneed, expandWant, if_neg (by simp only [expandMin]; omega), alignUp, wrap64]
    simp only [pageSize]
    omega

/-! ## Short blocks -/

/-- A boundary tag in front of a block of no bytes is off its header. -/
theorem read64_setFooter_empty {a x : ℕ} (hempty : blockSize m a = 0) (ha : 16 ≤ a)
    (hx : a ≤ x) : read64 (setFooter m a) x = read64 m x := by
  simp only [setFooter, blockFooter, hempty, footerSize]
  rw [read64_write64_disjoint (by omega), read64_write64_disjoint (by omega)]

/-- Unlinking a block whose neighbours are itself or away from it leaves its size. -/
theorem blockSize_flRemove {a : ℕ} (hprev : blockPrev h.mem a = 0 ∨ blockPrev h.mem a = a)
    (hnext : blockNext h.mem a ≠ 0 → blockNext h.mem a = a ∨ blockNext h.mem a + 64 ≤ a ∨
      a + 64 ≤ blockNext h.mem a) :
    blockSize (flRemove h a).mem a = blockSize h.mem a := by
  have hself : blockNext (setNext h.mem a (blockNext h.mem a)) a = blockNext h.mem a :=
    (read64_write64_self _ _ _).trans (Nat.mod_eq_of_lt (read64_lt _ _))
  have hkept : ∀ m value, blockSize (setNext m a value) a = blockSize m a := fun _ _ =>
    read64_write64_disjoint (by omega)
  have hunlinked : ∀ m, blockNext m a = blockNext h.mem a → blockSize (setPrev (setNext
      (if blockNext m a ≠ 0 then setPrev m (blockNext m a) (blockPrev m a) else m) a 0) a 0) a =
        blockSize m a := by
    intro m hsame
    rw [hsame, show ∀ m', blockSize (setPrev m' a 0) a = blockSize m' a from fun _ =>
      read64_write64_disjoint (by omega), hkept]
    split_ifs with hne
    · have haway := hnext hne
      exact read64_write64_disjoint (by omega)
    · rfl
  by_cases hback : blockPrev h.mem a ≠ 0
  · have hrest := (hunlinked _ hself).trans (hkept _ _)
    have hsame := hprev.resolve_left hback
    rw [hsame] at hback
    simp only [flRemove, hsame, if_pos hback]
    exact hrest
  · have hrest := hunlinked h.mem rfl
    simp only [flRemove, if_neg hback]
    exact hrest

/-- Taking no bytes of a block leaves it with a header that says so. -/
theorem takeBlock_zero (hcore : Core h blocks nodes) (hb : b ∈ blocks) :
    blockSize (takeBlock h b.addr 0).mem b.addr = 0 := by
  obtain ⟨hbase, hend, hsize, halign, -⟩ := hcore.block hb
  have hpos := hcore.base_pos
  have hbound := hcore.bound
  obtain ⟨hhead, hheadLt⟩ := hcore.freeList_bounds
  have haddr : 16 ≤ b.addr := Nat.le_of_dvd (by omega) halign
  have hsplit : ¬ blockSize h.mem b.addr < wrap64 (0 + minBlock) := by
    rw [(hcore.image b hb).size]
    exact Nat.not_lt_of_le hsize
  -- the head of the free list is the block itself or another one
  have hapart : h.freeList ≠ 0 → h.freeList = b.addr ∨ h.freeList + 64 ≤ b.addr ∨
      b.addr + 64 ≤ h.freeList := by
    intro hne
    obtain ⟨c, hc, hcaddr⟩ := hcore.listed _ (hcore.freeList_mem hne)
    have hcsize := (hcore.block hc).2.2.1
    rw [← hcaddr]
    rcases hcore.separate hc hb with rfl | hbefore | hbehind
    · exact .inl rfl
    · exact .inr (.inl (by omega))
    · exact .inr (.inr (by omega))
  simp only [takeBlock, splitBlock, if_neg hsplit, Nat.add_zero, Nat.sub_zero]
  generalize setFooter (setSize (setMagic h.mem b.addr heapMagicFree) b.addr _) b.addr = m₁
  obtain ⟨hnext, hprev⟩ := @flInsert_links b.addr ⟨h.base, h.limit, h.brk, h.freeList, m₁⟩ b.addr
    halign hhead halign (by omega) hheadLt
  generalize flInsert ⟨h.base, h.limit, h.brk, h.freeList, m₁⟩ b.addr = h₂ at hnext hprev ⊢
  -- the two footers and the magic are off the size and the links
  have hempty : blockSize (setSize h₂.mem b.addr 0) b.addr = 0 := blockSize_setSize (by decide)
  have hempty' : blockSize (setMagic (setFooter (setSize h₂.mem b.addr 0) b.addr) b.addr
      heapMagicUsed) b.addr = 0 :=
    (read64_write64_disjoint (by omega)).trans
      ((read64_setFooter_empty hempty haddr (by omega)).trans hempty)
  have hoff : ∀ x, b.addr + 8 ≤ x → read64 (setFooter (setMagic (setFooter (setSize h₂.mem b.addr 0)
      b.addr) b.addr heapMagicUsed) b.addr) x = read64 (setSize h₂.mem b.addr 0) x := by
    intro x hx
    rw [read64_setFooter_empty hempty' haddr (by omega)]
    exact (read64_write64_disjoint (by omega)).trans
      (read64_setFooter_empty hempty haddr (by omega))
  have hlinks : ∀ x, b.addr + 16 ≤ x → read64 (setFooter (setMagic (setFooter (setSize h₂.mem b.addr 0)
      b.addr) b.addr heapMagicUsed) b.addr) x = read64 h₂.mem x := fun x hx =>
    (hoff x (by omega)).trans (read64_write64_disjoint (by omega))
  rw [if_pos rfl] at hnext hprev
  rw [blockSize_flRemove]
  · exact (hoff _ le_rfl).trans hempty
  · have hback := (hlinks (b.addr + 24) (by omega)).trans hprev
    split_ifs at hback
    · exact .inr hback
    · exact .inl hback
  · have hforth := (hlinks (b.addr + 16) le_rfl).trans hnext
    intro hne
    have haway := hapart fun hzero => hne (hforth.trans hzero)
    rw [← hforth] at haway
    exact haway

/-- A request that wraps and finds a free block returns one that is too short. -/
theorem heapAllocLoop_short (hrep : Rep h blocks nodes) (hwraps : Wraps size) (hb : b ∈ blocks)
    (hfree : b.free = true) (fuel call : ℕ) {h' : Heap} {p : ℕ}
    (hcall : heapAllocLoop (kheapExpand supply) (requiredBlockSize size) (fuel + 1) call h =
      some (h', p)) : p ≠ 0 ∧ ¬ size ≤ blockSize h'.mem (p - headerSize) - 48 := by
  have hlarge := hwraps.large
  have hneed := hwraps.need
  rcases firstFit_spec hrep (requiredBlockSize size) with ⟨-, hnone⟩ | ⟨c, hc, -, -, hfound⟩
  · have hsmall := hnone b hb hfree
    have hblock := (hrep.block hb).2.2.1
    omega
  · have hblock := hrep.block hc
    have hpos := hrep.base_pos
    obtain ⟨k, hk⟩ := Nat.exists_eq_succ_of_ne_zero (by omega : c.addr ≠ 0)
    rw [hk] at hfound
    simp only [heapAllocLoop, hfound, Option.some.injEq, Prod.mk.injEq] at hcall
    obtain ⟨rfl, rfl⟩ := hcall
    rw [← Nat.succ_eq_add_one k, ← hk, Nat.add_sub_cancel]
    refine ⟨by simp [headerSize], fun hlong => ?_⟩
    by_cases hround : size + 48 < 2 ^ 64
    · rw [hwraps.none hround, takeBlock_zero hrep.toCore hc] at hlong
      omega
    · have hword := read64_lt (takeBlock h c.addr (requiredBlockSize size)).mem (c.addr + 8)
      rw [blockSize] at hlong
      omega

/-! ## Requests that are not honoured -/

theorem Roomy.granted (hroomy : Roomy h) (hneed : requiredBlockSize size < expandMin)
    (hgranted : ¬ Refused h supply size) :
    ∃ mapped, kheapExpand supply 0 h (requiredBlockSize size) = some (commitSpan h mapped) ∧
      pageSize ∣ mapped ∧ 64 ≤ mapped ∧ h.brk + mapped ≤ h.limit := by
  have hbrk := hroomy.brk_le
  have hhalf := hroomy.half
  have htop := hroomy.top
  have hwant : wrap64 (h.brk + expandMin) = h.brk + expandMin :=
    wrap64_of_lt (by simp only [expandMin]; omega)
  have hva : wrap64 (h.base + h.brk) = h.base + h.brk := wrap64_of_lt (by omega)
  obtain ⟨hpage, hle⟩ := @mapSpan_bounds (supply 0) (h.base + h.brk) expandMin
    (Nat.dvd_add hroomy.base_page hroomy.brk_page) (by decide)
  rw [Refused, expandWant_small hneed, hwant, hva, not_or, not_and_not_right] at hgranted
  obtain ⟨hlimit, hmapped⟩ := hgranted
  have hne : mapSpan (supply 0) (h.base + h.brk) expandMin ≠ 0 := fun hzero =>
    absurd (hmapped hzero) (by decide)
  have hmin := Nat.le_of_dvd (Nat.pos_of_ne_zero hne) hpage
  refine ⟨_, ?_, hpage, Nat.le_trans (by decide) hmin, by omega⟩
  rw [kheapExpand_eq, expandWant_small hneed, hwant, hva, if_neg hlimit, if_neg fun h => hne h.1]

theorem Good.not_honours_wraps (hgood : Good s blocks) (hwraps : Wraps size)
    (hcond : ¬ (Refused s.heap supply size ∧ ∀ b ∈ blocks, b.size < requiredBlockSize size)) :
    ¬ Honours s blocks supply size := by
  obtain ⟨nodes, hrep⟩ := hgood.rep
  have hlarge := hwraps.large
  have hneed := hwraps.need
  rintro ⟨⟨h, p, hcall, hresult⟩, hrealloc⟩
  cases hblocks : blocks with
  | cons b rest =>
    have hb : b ∈ blocks := hblocks ▸ mem_cons_self
    have hblock := hrep.block hb
    cases hfree : b.free with
    | true =>
      obtain ⟨hp, hshort⟩ := heapAllocLoop_short hrep hwraps hb hfree _ _ hcall
      rw [if_neg hp] at hresult
      exact hshort hresult
    | false =>
      -- a live block is kept in place
      obtain ⟨h, p, hcall, hlong⟩ := hrealloc _ (hgood.owned.held b ⟨hb, hfree⟩)
      have himage := hrep.image b hb
      have hused : blockMagic s.heap.mem b.addr = heapMagicUsed := by
        rw [himage.magic, hfree]
        rfl
      have hinPlace : requiredBlockSize size ≤ blockSize s.heap.mem b.addr := by
        rw [himage.size]
        omega
      rw [heapRealloc, if_neg (by simp [headerSize]), if_neg (by omega)] at hcall
      simp only [Nat.add_sub_cancel, hused, ne_eq, not_true_eq_false, if_false, hinPlace, if_true,
        Option.some.injEq, Prod.mk.injEq] at hcall
      obtain ⟨rfl, rfl⟩ := hcall
      have hbrk := hgood.roomy.brk_le
      have hhalf := hgood.roomy.half
      have hroom := hlong (by simp [headerSize])
      rw [Nat.add_sub_cancel, himage.size] at hroom
      omega
  | nil =>
    subst hblocks
    have hgranted : ¬ Refused s.heap supply size := fun hrefused => hcond ⟨hrefused, by simp⟩
    obtain ⟨mapped, hexpand, hpage, hmin, hlimit⟩ := hgood.roomy.granted
      (Nat.lt_of_le_of_lt hneed (by decide)) hgranted
    have hbound : s.heap.base + (s.heap.brk + mapped) < 2 ^ 64 := by
      have htop := hgood.roomy.top
      omega
    obtain ⟨hspan, -⟩ := commitSpan_spec hbound hmin hrep (Dvd.dvd.trans (by decide) hpage)
    obtain ⟨fuel, hfuel⟩ := Nat.exists_eq_succ_of_ne_zero (by omega : s.heap.limit ≠ 0)
    rw [heapAlloc, hfuel, heapAllocLoop] at hcall
    rcases firstFit_spec hrep (requiredBlockSize size) with ⟨hzero, -⟩ | ⟨c, hc, -⟩
    · simp only [hzero, hexpand] at hcall
      obtain ⟨hp, hshort⟩ := heapAllocLoop_short hspan hwraps mem_cons_self rfl _ _ hcall
      rw [if_neg hp] at hresult
      exact hshort hresult
    · cases hc

/-- The walk over the free list stays in `area`, where no block is large enough.  The blocks of
`area` lie in front of the end of the region or at it. -/
structure Stuck (h : Heap) (need : ℕ) (area : List ℕ) : Prop where
  head : h.freeList ≠ 0 → h.freeList ∈ area
  small : ∀ a ∈ area, blockSize h.mem a < need
  next : ∀ a ∈ area, blockNext h.mem a ≠ 0 → blockNext h.mem a ∈ area
  below : ∀ a ∈ area, a = h.base + h.brk ∨ a + 64 ≤ h.base + h.brk
  apart : ∀ a ∈ area, ∀ b ∈ area, a = b ∨ a + 64 ≤ b ∨ b + 64 ≤ a
  room : 32 ≤ h.base + h.brk ∧ h.base + h.brk < 2 ^ 64 ∧ 0 < need

section

variable {area : List ℕ} (hstuck : Stuck h need area)
include hstuck

theorem Stuck.firstFit (fuel : ℕ) {a : ℕ} (ha : a ≠ 0 → a ∈ area) :
    firstFit h.mem need fuel a = none ∨ firstFit h.mem need fuel a = some 0 := by
  induction fuel generalizing a with
  | zero => exact .inl rfl
  | succ fuel ih =>
    rw [BoundaryTagHeap.firstFit]
    split_ifs with hzero hlarge
    · exact .inr rfl
    · exact absurd hlarge (Nat.not_le_of_lt (hstuck.small a (ha hzero)))
    · exact ih (hstuck.next a (ha hzero))

/-- A block of no bytes at the end of the region joins the area. -/
theorem Stuck.commit : Stuck (commitSpan h 0) need ((h.base + h.brk) :: area) := by
  obtain ⟨h32, hbound, hneed⟩ := id hstuck.room
  have hlt : h.freeList < 2 ^ 64 := by
    by_cases hne : h.freeList = 0
    · omega
    · have := hstuck.below _ (hstuck.head hne)
      omega
  -- what is read of a block of the area is off the back link of the head
  have hback : ∀ a, (a = h.base + h.brk ∨ a ∈ area) → ∀ m x, x = a + 8 ∨ x = a + 16 →
      read64 (if h.freeList ≠ 0 then write64 m (h.freeList + 24) (h.base + h.brk) else m) x =
        read64 m x := by
    intro a ha m x hx
    split_ifs with hne
    · have hbelow := hstuck.below _ (hstuck.head hne)
      have hoff := fun ha => hstuck.apart a ha _ (hstuck.head hne)
      exact read64_write64_disjoint (by grind)
    · rfl
  have hlast : blockSize (commitSpan h 0).mem (h.base + h.brk) = 0 ∧
      blockNext (commitSpan h 0).mem (h.base + h.brk) = h.freeList := by
    simp only [commitSpan, Nat.add_zero, blockSize, blockNext, setMagic, setSize, setNext, setPrev]
    rw [hback _ (.inl rfl) _ _ (.inl rfl), hback _ (.inl rfl) _ _ (.inr rfl)]
    constructor
    · repeat rw [read64_write64_disjoint (by omega)]
      rw [read64_write64_self, Nat.zero_mod]
    · rw [read64_write64_disjoint (by omega), read64_write64_self, Nat.mod_eq_of_lt hlt]
  have hkept : ∀ a ∈ area, a ≠ h.base + h.brk →
      blockSize (commitSpan h 0).mem a = blockSize h.mem a ∧
        blockNext (commitSpan h 0).mem a = blockNext h.mem a := by
    intro a ha hne
    have hbefore := (hstuck.below a ha).resolve_left hne
    simp only [commitSpan, Nat.add_zero, blockSize, blockNext, setMagic, setSize, setNext, setPrev]
    rw [hback a (.inr ha) _ _ (.inl rfl), hback a (.inr ha) _ _ (.inr rfl)]
    repeat rw [read64_write64_disjoint (by omega)]
    exact ⟨rfl, rfl⟩
  have hsplit : ∀ a ∈ (h.base + h.brk) :: area,
      a = h.base + h.brk ∨ a ∈ area ∧ a + 64 ≤ h.base + h.brk := by
    intro a ha
    rcases mem_cons.mp ha with rfl | ha
    · exact .inl rfl
    · exact (hstuck.below a ha).imp_right fun hbefore => ⟨ha, hbefore⟩
  refine ⟨fun _ => mem_cons_self, fun a ha => ?_, fun a ha hne => mem_cons_of_mem _ ?_, ?_,
    fun a ha b hb => ?_, hstuck.room⟩
  · rcases hsplit a ha with rfl | ⟨ha, hbefore⟩
    · rw [hlast.1]
      exact hneed
    · rw [(hkept a ha (by omega)).1]
      exact hstuck.small a ha
  · rcases hsplit a ha with rfl | ⟨ha, hbefore⟩
    · rw [hlast.2] at hne ⊢
      exact hstuck.head hne
    · rw [(hkept a ha (by omega)).2] at hne ⊢
      exact hstuck.next a ha hne
  · exact fun a ha => (hsplit a ha).imp_right And.right
  · have hapart := hstuck.apart a
    grind

/-- An expansion by no bytes is made over and over. -/
theorem Stuck.heapAllocLoop (hroomy : Roomy h) (hwant : expandWant need = 0) (fuel call : ℕ) :
    heapAllocLoop (kheapExpand supply) need fuel call h = none := by
  induction fuel generalizing h area call with
  | zero => rfl
  | succ fuel ih =>
    have hbrk := hroomy.brk_le
    have hhalf := hroomy.half
    have hspan : ∀ va, mapSpan (supply call) va 0 = 0 := by
      intro va
      simp [mapSpan, mapFrames, mapHuge, pageSize]
    have hexpand : kheapExpand supply call h need = some (commitSpan h 0) := by
      rw [kheapExpand_eq, hwant, hspan, Nat.add_zero, wrap64_of_lt (by omega),
        if_neg (Nat.not_lt_of_le hbrk), if_neg fun h => h.2 rfl]
    have hrest := ih hstuck.commit (hroomy.commit (dvd_zero _) hbrk) (call + 1)
    rcases hstuck.firstFit (h.brk + 1) hstuck.head with hnone | hzero
    · rw [BoundaryTagHeap.heapAllocLoop, hnone]
    · simp only [BoundaryTagHeap.heapAllocLoop, hzero, hexpand, hrest]

end

/-- A request for more than the whole region finds no block. -/
theorem Rep.stuck (hrep : Rep h blocks nodes) (hroomy : Roomy h) (hneed : h.brk < need) :
    Stuck h need nodes := by
  have hpage := Nat.le_of_dvd hrep.base_pos hroomy.base_page
  refine ⟨hrep.freeList_mem, fun a ha => ?_, fun a ha hne => ?_, fun a ha => ?_,
    fun a ha b hb => ?_, Nat.le_add_right_of_le (Nat.le_trans (by decide) hpage), hrep.bound, by omega⟩
  · obtain ⟨b, hb, rfl⟩ := hrep.listed a ha
    have hblock := hrep.block hb
    rw [(hrep.image b hb).size]
    omega
  · obtain ⟨left, right, rfl⟩ := append_of_mem ha
    exact mem_append_right _ (mem_cons_of_mem a (hrep.neighbours.2.2 hne))
  · obtain ⟨b, hb, rfl⟩ := hrep.listed a ha
    have hblock := hrep.block hb
    omega
  · obtain ⟨c, hc, rfl⟩ := hrep.listed a ha
    obtain ⟨d, hd, rfl⟩ := hrep.listed b hb
    have hblock := hrep.block hc
    have hother := hrep.block hd
    rcases hrep.separate hc hd with rfl | hbefore | hbehind <;> omega

/-- A request is honoured when it survives the roundings, and when there is no block that is large
enough for what is left of it and the first expansion is refused; and apart from requests whose
expansion ends behind `2 ^ 64`, only then. -/
theorem heap_sizes_honoured (s : Session) (blocks : List Block) (hgood : Good s blocks)
    (size : ℕ) (hsize : size < 2 ^ 64) (supply : ℕ → PageSupply) :
    (RequestFits s.heap size ∨
      Refused s.heap supply size ∧ (∀ b ∈ blocks, b.size < requiredBlockSize size) →
        Honours s blocks supply size) ∧
    (Honours s blocks supply size → RequestFits s.heap size ∨
      Refused s.heap supply size ∧ (∀ b ∈ blocks, b.size < requiredBlockSize size) ∨
      Overruns s.heap size) := by
  constructor
  · rintro (hfits | ⟨hrefused, hsmall⟩)
    · exact hgood.honours hfits
    · exact hgood.honours_refused hrefused hsmall
  · intro hhonours
    by_contra hcond
    obtain ⟨hfits, hcond⟩ := not_or.mp hcond
    obtain ⟨hcond, hover⟩ := not_or.mp hcond
    rcases hgood.roomy.wraps hsize hfits hover with hwraps | ⟨hneed, hwant⟩
    · exact hgood.not_honours_wraps hwraps hcond hhonours
    · obtain ⟨nodes, hrep⟩ := hgood.rep
      obtain ⟨h, p, hcall, -⟩ := hhonours.alloc
      rw [heapAlloc, (hrep.stuck hgood.roomy hneed).heapAllocLoop hgood.roomy hwant] at hcall
      cases hcall

instance (h : Heap) (supply : ℕ → PageSupply) (size : ℕ) : Decidable (Refused h supply size) :=
  inferInstanceAs (Decidable (_ ∨ _ ∧ _))

instance (h : Heap) (size : ℕ) : Decidable (Overruns h size) :=
  inferInstanceAs (Decidable (_ ∧ ¬ RequestFits h size))

/-- The page allocator is empty. -/
def exhausted : ℕ → PageSupply := fun _ => ⟨fun _ => false, fun _ => false⟩

/-- On the fresh kernel heap 16 bytes are honoured, and `2 ^ 64 - 49` bytes only without pages. -/
theorem heap_sizes_honoured_start :
    Honours (Session.start kernelRegion fun _ => 0) [] plentiful 16 ∧
      Honours (Session.start kernelRegion fun _ => 0) [] exhausted (2 ^ 64 - 49) ∧
      ¬ Honours (Session.start kernelRegion fun _ => 0) [] plentiful (2 ^ 64 - 49) := by
  have hgood := good_start kernelRegion fun _ => 0
  refine ⟨(heap_sizes_honoured _ [] hgood 16 (by decide) plentiful).1 (.inl (by decide)),
    (heap_sizes_honoured _ [] hgood _ (by decide) exhausted).1 (.inr ⟨by decide +kernel, nofun⟩),
    fun hhonours => ?_⟩
  rcases (heap_sizes_honoured _ [] hgood _ (by decide) plentiful).2 hhonours with
    hfits | ⟨hrefused, -⟩ | hover
  · exact absurd hfits (by decide +kernel)
  · exact absurd hrefused (by decide +kernel)
  · exact absurd hover (by decide +kernel)

/-- The required size of a request just below `2 ^ 64` is zero: the block that is returned is
shorter than the request. -/
theorem heap_alloc_short_block :
    (heapAlloc (kheapExpand plentiful) (Session.start kernelRegion fun _ => 0).heap (2 ^ 64 - 49)).map
      (fun r => decide (r.2 ≠ 0 ∧ blockSize r.1.mem (r.2 - headerSize) - 48 < 2 ^ 64 - 49)) =
        some true := by
  decide +kernel

end AuraLite.BoundaryTagHeap

import Mathlib.Data.List.Perm.Subperm
import AuraLite.Mm.HeapCalls

/-!
# Searching and growing the arena

First fit over the represented free list, the span `kheap_expand` commits at
the end of the arena, and the retry loop of `heap_alloc`.  The loop returns
because every successful expansion moves `brk` towards the limit.
-/

namespace AuraLite.BoundaryTagHeap

open List AuraLite.ByteMemory AuraLite.Word64 AuraLite.LinkedChain

variable {h h' : Heap} {blocks left right : List Block} {nodes : List ℕ}
variable {b c : Block} {m m' : Mem}
variable {mapped size : ℕ}

/-! ## First fit -/

theorem Tiled.length_le {lo hi : ℕ} (htiled : Tiled lo hi blocks) :
    lo + 64 * blocks.length ≤ hi := by
  induction blocks generalizing lo with
  | nil => exact le_of_eq htiled
  | cons first rest ih =>
    obtain ⟨_, hmin, _, hrest⟩ := htiled
    have hfirst : 64 ≤ first.size := hmin
    have htail := ih hrest
    simp only [length_cons]
    omega

theorem Core.nodes_length (hcore : Core h blocks nodes) : nodes.length ≤ h.brk := by
  have hsubset : nodes ⊆ blocks.map Block.addr := by
    intro node hnode
    obtain ⟨b, hb, rfl⟩ := hcore.listed node hnode
    exact mem_map_of_mem hb
  have hcard := (subperm_of_subset hcore.nodup hsubset).length_le
  have htiled := hcore.tiled.length_le
  rw [length_map] at hcard
  omega

/-- The walk over a chain stops at the first node that is large enough. -/
theorem firstFit_chain {need fuel before head : ℕ}
    (hchain : Chain (blockNext m) (blockPrev m) before head nodes)
    (hfuel : nodes.length < fuel) :
    ∃ found, firstFit m need fuel head = some found ∧
      (found = 0 ∧ (∀ node ∈ nodes, blockSize m node < need) ∨
        found ∈ nodes ∧ need ≤ blockSize m found) := by
  induction nodes generalizing before head fuel with
  | nil =>
    obtain ⟨fuel, rfl⟩ := Nat.exists_eq_succ_of_ne_zero (by omega : fuel ≠ 0)
    have hhead : head = 0 := hchain
    exact ⟨0, by simp [firstFit, hhead], .inl ⟨rfl, by simp⟩⟩
  | cons node rest ih =>
    obtain ⟨fuel, rfl⟩ := Nat.exists_eq_succ_of_ne_zero (by omega : fuel ≠ 0)
    obtain ⟨rfl, hpos, _, hrest⟩ := hchain
    by_cases hfit : need ≤ blockSize m head
    · exact ⟨head, by simp [firstFit, hpos, hfit], .inr ⟨by simp, hfit⟩⟩
    · obtain ⟨found, hfound, hcases⟩ := ih hrest (Nat.lt_of_succ_lt_succ hfuel)
      refine ⟨found, by simp [firstFit, hpos, hfit, hfound], ?_⟩
      rcases hcases with ⟨hzero, hnone⟩ | ⟨hmem, hlarge⟩
      · refine .inl ⟨hzero, ?_⟩
        simp only [forall_mem_cons]
        exact ⟨by omega, hnone⟩
      · exact .inr ⟨mem_cons_of_mem _ hmem, hlarge⟩

/-- `heap_alloc`'s walk finds a free block that fits, or there is none. -/
theorem firstFit_spec (hrep : Rep h blocks nodes) (need : ℕ) :
    (firstFit h.mem need (h.brk + 1) h.freeList = some 0 ∧
        ∀ b ∈ blocks, b.free = true → b.size < need) ∨
      ∃ b ∈ blocks, b.free = true ∧ need ≤ b.size ∧
        firstFit h.mem need (h.brk + 1) h.freeList = some b.addr := by
  have hfuel : nodes.length < h.brk + 1 := by
    have := hrep.nodes_length
    omega
  obtain ⟨found, hfound, hcases⟩ := @firstFit_chain nodes h.mem need _ _ _ hrep.chain hfuel
  rcases hcases with ⟨rfl, hnone⟩ | ⟨hnode, hlarge⟩
  · refine .inl ⟨hfound, fun b hb hfree => ?_⟩
    rw [← (hrep.image b hb).size]
    exact hnone _ ((hrep.consistent b hb).listed_iff.mpr hfree)
  · obtain ⟨b, hb, rfl⟩ := hrep.listed found hnode
    rw [(hrep.image b hb).size] at hlarge
    exact .inr ⟨b, hb, (hrep.consistent b hb).listed_iff.mp hnode, hlarge, hfound⟩

/-! ## Committing a span -/

section

variable (hbound : h.base + (h.brk + mapped) < 2 ^ 64) (hmin : 64 ≤ mapped)
include hbound hmin

/-- The arena grows at its end by a block outside the old committed region. -/
theorem Core.extend (hcore : Core h blocks nodes) (halign : 16 ∣ mapped)
    (hmem : ∀ x < h.base + h.brk, m' x = h.mem x)
    (himage : Image m' ⟨h.base + h.brk, mapped, true, true⟩) :
    Core { h with mem := m', brk := h.brk + mapped }
      (blocks ++ [⟨h.base + h.brk, mapped, true, true⟩]) nodes := by
  have hlink : ∀ node ∈ nodes, ∀ x, node ≤ x → x + 8 ≤ node + 32 →
      read64 m' x = read64 h.mem x := by
    intro node hnode x hlo hhi
    obtain ⟨b, hb, rfl⟩ := hcore.listed node hnode
    have hblock := hcore.block hb
    exact read64_congr fun y hxy hyx => hmem y (by omega)
  refine ⟨hcore.aligned, hcore.base_pos, hbound, ?_, ?_, ?_, hcore.nodup, ?_⟩
  · refine tiled_append.mpr ⟨h.base + h.brk, hcore.tiled, rfl, hmin, halign, ?_⟩
    show h.base + h.brk + mapped = h.base + (h.brk + mapped)
    omega
  · simp only [forall_mem_append, forall_mem_singleton]
    refine ⟨fun b hb => ?_, himage⟩
    have hblock := hcore.block hb
    exact (hcore.image b hb).congr (by omega) fun x _ hhi => hmem x (by omega)
  · exact hcore.chain.congr (fun node hnode => hlink node hnode _ (by omega) (by omega))
      (fun node hnode => hlink node hnode _ (by omega) (by omega))
  · intro node hnode
    obtain ⟨b, hb, haddr⟩ := hcore.listed node hnode
    exact ⟨b, mem_append_left _ hb, haddr⟩

/-- `commitSpan` writes a tagged block at `brk` and pushes it. -/
theorem commitSpan_eq : commitSpan h mapped = flInsert { h with
        mem := setFooter (setSize (setMagic h.mem (h.base + h.brk)
          heapMagicFree) (h.base + h.brk) mapped) (h.base + h.brk)
        brk := h.brk + mapped } (h.base + h.brk) := by
  have hmagic : blockMagic (setMagic h.mem (h.base + h.brk) heapMagicFree)
      (h.base + h.brk) = heapMagicFree := read64_write64_self _ _ _
  have hfoot : h.base + h.brk + mapped - 16 + 8 = h.base + h.brk + mapped - 8 := by omega
  rw [resize_eq hmagic (by omega) (by omega)]
  simp only [commitSpan, flInsert, hfoot, setSize]
  have hswap : ∀ m : Mem, setPrev (setNext m (h.base + h.brk) h.freeList) (h.base + h.brk) 0 =
        setNext (setPrev m (h.base + h.brk) 0) (h.base + h.brk) h.freeList :=
    fun m => write64_comm (by omega)
  rw [hswap]

theorem commitSpan_spec (hrep : Rep h blocks nodes) (halign : 16 ∣ mapped) :
    Rep (commitSpan h mapped) (blocks ++ [⟨h.base + h.brk, mapped, true, true⟩])
        ((h.base + h.brk) :: nodes) ∧
      ∀ c ∈ blocks, KeepsPayload c h.mem (commitSpan h mapped).mem := by
  let span : Block := ⟨h.base + h.brk, mapped, true, true⟩
  let m₁ := setMagic h.mem (h.base + h.brk) heapMagicFree
  have hmagic : blockMagic m₁ (h.base + h.brk) = magicOf true := read64_write64_self _ _ _
  have hbelow : ∀ x < h.base + h.brk,
      setFooter (setSize m₁ (h.base + h.brk) mapped) (h.base + h.brk) x = h.mem x := fun x hx =>
    (resize_outside (by omega) (by omega) (.inl hx)).trans (write64_outside (.inl hx))
  have hgrown := hrep.extend hbound hmin halign hbelow
    (image_resize (by omega) (by omega) hmagic)
  have hspan : span ∈ blocks ++ [span] := by simp
  have hfresh : span.addr ∉ nodes := by
    intro hnode
    obtain ⟨b, hb, haddr⟩ := hrep.listed _ hnode
    have hblock := hrep.block hb
    have : b.addr = h.base + h.brk := haddr
    omega
  have hinserted := flInsert_spec hgrown hspan hfresh
  rw [commitSpan_eq hbound hmin]
  refine ⟨⟨hinserted, ?_⟩, ?_⟩
  · simp only [forall_mem_append, forall_mem_singleton]
    refine ⟨fun b hb => (hrep.consistent b hb).congr ?_, by simp, by simp⟩
    have hblock := hrep.block hb
    have hne : b.addr ≠ h.base + h.brk := by omega
    simp [hne]
  · intro c hc
    have hblock := hrep.block hc
    have hstored : KeepsPayload c h.mem
        (setFooter (setSize m₁ (h.base + h.brk) mapped) (h.base + h.brk)) :=
      fun x _ hhi => hbelow x (by omega)
    exact hstored.trans (hgrown.keeps_links (flInsert_agree hgrown _)
      hinserted.listed (mem_append_left _ hc))

end

/-! ## Mapping pages -/

theorem mapFrames_bounds (frame : ℕ → Bool) (count mapped : ℕ) (halign : pageSize ∣ mapped) :
    pageSize ∣ (mapFrames frame count mapped).1 ∧
      (mapFrames frame count mapped).1 ≤ mapped + pageSize * count := by
  induction count generalizing mapped with
  | zero => exact ⟨halign, by simp [mapFrames]⟩
  | succ count ih =>
    simp only [mapFrames]
    split_ifs
    · obtain ⟨hdvd, hle⟩ := ih (mapped + pageSize) (Nat.dvd_add halign (dvd_refl _))
      exact ⟨hdvd, by rw [Nat.mul_succ]; omega⟩
    · exact ⟨halign, by omega⟩

theorem mapHuge_bounds (huge : ℕ → Bool) (count mapped : ℕ) (halign : pageSize ∣ mapped) :
    pageSize ∣ mapHuge huge count mapped ∧
      mapHuge huge count mapped ≤ mapped + kheapP2m * count := by
  induction count generalizing mapped with
  | zero => exact ⟨halign, by simp [mapHuge]⟩
  | succ count ih =>
    simp only [mapHuge]
    split_ifs
    · obtain ⟨hdvd, hle⟩ := ih (mapped + kheapP2m) (Nat.dvd_add halign (by decide))
      exact ⟨hdvd, by rw [Nat.mul_succ]; omega⟩
    · exact ⟨halign, by omega⟩

/-- An expansion commits whole pages and never more than it was asked for. -/
theorem mapSpan_bounds (supply : PageSupply) {va want : ℕ}
    (hva : pageSize ∣ va) (hwant : pageSize ∣ want) :
    pageSize ∣ mapSpan supply va want ∧ mapSpan supply va want ≤ want := by
  let head := min ((kheapP2m - va % kheapP2m) % kheapP2m) want
  have hhead : pageSize ∣ head := by
    have hgap : pageSize ∣ (kheapP2m - va % kheapP2m) % kheapP2m := by
      simp only [pageSize, kheapP2m] at hva ⊢
      omega
    simp only [head]
    rcases Nat.le_total ((kheapP2m - va % kheapP2m) % kheapP2m) want with hle | hle
    · rwa [Nat.min_eq_left hle]
    · rwa [Nat.min_eq_right hle]
  have hheadLe : head ≤ want := Nat.min_le_right _ _
  obtain ⟨hfirst, hfirstLe⟩ := mapFrames_bounds supply.frame
    ((head + pageSize - 1) / pageSize) 0 (dvd_zero _)
  have hcount : pageSize * ((head + pageSize - 1) / pageSize) = head := by
    simp only [pageSize] at hhead ⊢
    omega
  rw [hcount] at hfirstLe
  simp only [mapSpan]
  cases hmap : mapFrames supply.frame ((head + pageSize - 1) / pageSize) 0 with
  | mk mapped full =>
    rw [hmap] at hfirst hfirstLe
    simp only at hfirst hfirstLe
    cases full with
    | false => exact ⟨hfirst, hfirstLe.trans (by omega)⟩
    | true =>
      obtain ⟨hbulk, hbulkLe⟩ := mapHuge_bounds supply.huge
        ((want - mapped) / kheapP2m) mapped hfirst
      have hbulkFits : mapHuge supply.huge ((want - mapped) / kheapP2m) mapped ≤ want := by
        have hfits := Nat.mul_div_le (want - mapped) kheapP2m
        omega
      obtain ⟨htail, htailLe⟩ := mapFrames_bounds supply.frame
        ((want - mapHuge supply.huge ((want - mapped) / kheapP2m) mapped +
          pageSize - 1) / pageSize) _ hbulk
      refine ⟨htail, htailLe.trans ?_⟩
      have hrest : pageSize ∣ want - mapHuge supply.huge ((want - mapped) / kheapP2m) mapped :=
        Nat.dvd_sub hwant hbulk
      generalize mapHuge supply.huge ((want - mapped) / kheapP2m) mapped = bulk at hrest hbulkFits ⊢
      simp only [pageSize] at hrest ⊢
      omega

/-! ## Expansion and the allocation loop -/

/-- The number of bytes `kheap_expand` asks for. -/
def expandWant (need : ℕ) : ℕ :=
  alignUp (if need < expandMin then expandMin else need) pageSize

/-- The region of the heap lies in the upper half of the address space and
grows by whole pages. -/
structure Roomy (h : Heap) : Prop where
  base_page : pageSize ∣ h.base
  brk_page : pageSize ∣ h.brk
  brk_le : h.brk ≤ h.limit
  half : h.limit < 2 ^ 63
  top : h.base + h.limit < 2 ^ 64

/-- A request that, with its tags and rounded up to whole pages, does not wrap
when it is added to `brk`. -/
def RequestFits (h : Heap) (size : ℕ) : Prop :=
  h.brk + (headerSize + footerSize + max size minPayload + (pageSize - 1)) /
    pageSize * pageSize < 2 ^ 64

/-- What a fitting request asks of the heap. -/
structure Need (h : Heap) (need : ℕ) : Prop where
  min : 64 ≤ need
  align : 16 ∣ need
  wrap : need + pageSize ≤ 2 ^ 64
  want : h.brk + expandWant need < 2 ^ 64

theorem expandWant_small {need : ℕ} (hsmall : need < expandMin) : expandWant need = expandMin := by
  rw [expandWant, if_pos hsmall]
  decide

theorem expandWant_pos {need : ℕ} (hwrap : need + pageSize ≤ 2 ^ 64) : 0 < expandWant need := by
  by_cases hsmall : need < expandMin
  · rw [expandWant_small hsmall]
    decide
  · have hfits : need + (pageSize - 1) < 2 ^ 64 := by
      simp only [pageSize] at hwrap ⊢
      omega
    rw [expandWant, if_neg hsmall, alignUp_of_lt hfits]
    simp only [expandMin, pageSize] at hsmall ⊢
    omega

theorem requiredBlockSize_eq (hfits : RequestFits h size) :
    requiredBlockSize size = (48 + max size 16 + 15) / 16 * 16 := by
  have hpayload : (if size < minPayload then minPayload else size) =
      max size 16 := by
    split_ifs with hsmall
    · exact (max_eq_right hsmall.le).symm
    · exact (max_eq_left (Nat.le_of_not_lt hsmall)).symm
  simp only [RequestFits, headerSize, footerSize, minPayload, pageSize] at hfits
  have hsum : headerSize + footerSize + max size 16 = 48 + max size 16 := rfl
  have hwrap : 48 + max size 16 < 2 ^ 64 := by omega
  rw [requiredBlockSize]
  simp only [hpayload, hsum]
  rw [wrap64_of_lt hwrap, alignUp_of_lt (by simp only [heapAlign]; omega)]
  rfl

theorem Roomy.need (hroomy : Roomy h) (hfits : RequestFits h size) :
    Need h (requiredBlockSize size) ∧ size + 48 ≤ requiredBlockSize size := by
  have hbrk := hroomy.brk_le
  have hhalf := hroomy.half
  rw [requiredBlockSize_eq hfits]
  simp only [RequestFits, headerSize, footerSize, minPayload, pageSize] at hfits
  generalize hneed : (48 + max size 16 + 15) / 16 * 16 = need
  have hle : need ≤ (48 + max size 16 + 4095) / 4096 * 4096 := by omega
  refine ⟨⟨by omega, ⟨(48 + max size 16 + 15) / 16, by omega⟩,
    by simp only [pageSize]; omega, ?_⟩, by omega⟩
  have hround : need + (pageSize - 1) < 2 ^ 64 := by
    simp only [pageSize]
    omega
  have hpages : h.brk + (need + 4095) / 4096 * 4096 < 2 ^ 64 := by
    generalize (48 + max size 16 + 4095) / 4096 = pages at hfits hle
    have hdiv : (need + 4095) / 4096 < pages + 1 := Nat.div_lt_of_lt_mul (by omega)
    have hrounded : (need + 4095) / 4096 * 4096 ≤ pages * 4096 :=
      Nat.mul_le_mul_right _ (Nat.le_of_lt_succ hdiv)
    exact lt_of_le_of_lt (Nat.add_le_add_left hrounded _) hfits
  by_cases hsmall : need < expandMin
  · have hmin : expandMin < 2 ^ 63 := by decide
    rw [expandWant_small hsmall]
    omega
  · rw [expandWant, if_neg hsmall, alignUp_of_lt hround]
    exact hpages

/-- The bytes that expansion number `call` of an allocation can commit behind
the first `brk` bytes of the region: none if the request passes the limit, and
otherwise what the page supply gives. -/
def spanAt (h : Heap) (supply : ℕ → PageSupply) (call brk need : ℕ) : ℕ :=
  if h.limit < brk + expandWant need then 0
  else mapSpan (supply call) (h.base + brk) (expandWant need)

theorem kheapExpand_spec {supply : ℕ → PageSupply} {call need : ℕ}
    (hroomy : Roomy h) (hneed : Need h need) :
    spanAt h supply call h.brk need = 0 ∧ kheapExpand supply call h need = none ∨
      ∃ mapped, spanAt h supply call h.brk need = mapped ∧
        kheapExpand supply call h need = some (commitSpan h mapped) ∧
        64 ≤ mapped ∧ pageSize ∣ mapped ∧ h.brk + mapped ≤ h.limit ∧
        h.brk + expandWant need ≤ h.limit := by
  have hwant := hneed.want
  have hpos := expandWant_pos hneed.wrap
  have hbrk := hroomy.brk_le
  have htop := hroomy.top
  have hva : pageSize ∣ h.base + h.brk := Nat.dvd_add hroomy.base_page hroomy.brk_page
  obtain ⟨hdvd, hle⟩ := mapSpan_bounds (supply call) hva
    (dvd_alignUp (if need < expandMin then expandMin else need) pageSize)
  simp only [kheapExpand, spanAt]
  rw [show alignUp (if need < expandMin then expandMin else need) pageSize =
    expandWant need from rfl] at hdvd hle ⊢
  rw [wrap64_of_lt hwant, wrap64_of_lt (by omega : h.base + h.brk < 2 ^ 64)]
  split_ifs with hlimit hmapped
  · exact .inl ⟨rfl, rfl⟩
  · exact .inl ⟨hmapped.1, rfl⟩
  · refine .inr ⟨_, rfl, rfl, ?_, hdvd, by omega, by omega⟩
    have hne : mapSpan (supply call) (h.base + h.brk) (expandWant need) ≠ 0 :=
      fun hzero => hmapped ⟨hzero, by omega⟩
    have hpage := Nat.le_of_dvd (Nat.pos_of_ne_zero hne) hdvd
    simp only [pageSize] at hpage
    omega

theorem Roomy.commit (hroomy : Roomy h) (hpage : pageSize ∣ mapped)
    (hlimit : h.brk + mapped ≤ h.limit) : Roomy (commitSpan h mapped) :=
  { hroomy with brk_page := Nat.dvd_add hroomy.brk_page hpage, brk_le := hlimit }

theorem Roomy.of_region (hroomy : Roomy h) (hregion : h'.region = h.region) : Roomy h' := by
  cases h
  cases h'
  obtain ⟨rfl, rfl, rfl⟩ : _ ∧ _ ∧ _ := by simpa [Heap.region] using hregion
  exact ⟨hroomy.base_page, hroomy.brk_page, hroomy.brk_le, hroomy.half, hroomy.top⟩

/-- After an expansion that stayed below the limit the same request still
cannot wrap. -/
theorem Need.commit {need : ℕ} (hroomy : Roomy h) (hneed : Need h need)
    (hlimit : h.brk + mapped ≤ h.limit) (hwant : h.brk + expandWant need ≤ h.limit) :
    Need (commitSpan h mapped) need := by
  have hhalf := hroomy.half
  refine { hneed with want := ?_ }
  show h.brk + mapped + expandWant need < 2 ^ 64
  omega

/-- The arena after an allocating call searched `blocks`: unchanged, or with one
of its free blocks taken. -/
inductive Takes (blocks : List Block) (need : ℕ) : ℕ → List Block → Prop
  | none (hnone : ∀ b ∈ blocks, b.free = true → b.size < need) : Takes blocks need 0 blocks
  | took {left right : List Block} {b : Block}
      (hblocks : blocks = left ++ b :: right) (hfree : b.free = true)
      (hfit : need ≤ b.size) :
      Takes blocks need (b.addr + headerSize) (left ++ (taken b need ++ right))

variable {supply : ℕ → PageSupply} {need call fuel : ℕ}

/-- One round of `heap_alloc`: it ends the call with the first fit or without a block, or it
commits a span behind blocks none of which fits. -/
inductive Round (supply : ℕ → PageSupply) (need fuel call : ℕ) (h : Heap)
    (blocks : List Block) : Prop
  | ends {h' : Heap} {p : ℕ} {blocks' : List Block} {nodes' : List ℕ}
      (hcall : heapAllocLoop (kheapExpand supply) need (fuel + 1) call h = some (h', p))
      (htakes : Takes blocks need p blocks') (hrep : Rep h' blocks' nodes') (hroomy : Roomy h')
      (hfirst : p ≠ 0 → (∃ b ∈ blocks, b.free = true ∧ need ≤ b.size) ∧
        firstFit h.mem need (h.brk + 1) h.freeList = some (p - headerSize))
      (hkept : ∀ c ∈ blocks, c.free = false → KeepsPayload c h.mem h'.mem)
  | grows {mapped : ℕ} {nodes : List ℕ}
      (hnone : ∀ b ∈ blocks, b.free = true → b.size < need)
      (hspan : spanAt h supply call h.brk need = mapped) (hmin : 64 ≤ mapped)
      (hlimit : h.brk + mapped ≤ h.limit)
      (hcall : heapAllocLoop (kheapExpand supply) need (fuel + 1) call h =
        heapAllocLoop (kheapExpand supply) need fuel (call + 1) (commitSpan h mapped))
      (hrep : Rep (commitSpan h mapped)
        (blocks ++ [⟨h.base + h.brk, mapped, true, true⟩]) nodes)
      (hroomy : Roomy (commitSpan h mapped)) (hneed : Need (commitSpan h mapped) need)
      (hkept : ∀ c ∈ blocks, KeepsPayload c h.mem (commitSpan h mapped).mem)

theorem heapAllocLoop_round (hrep : Rep h blocks nodes) (hroomy : Roomy h) (hneed : Need h need) :
    Round supply need fuel call h blocks := by
  rcases firstFit_spec hrep need with ⟨hzero, hnone⟩ | ⟨b, hb, hfree, hlarge, hfound⟩
  · rcases @kheapExpand_spec h supply call need hroomy hneed with
      ⟨_, hrefused⟩ | ⟨mapped, hspan, hgrown, hmin, hpage, hlimit, hwant⟩
    · exact .ends (by simp only [heapAllocLoop, hzero, hrefused]) (.none hnone) hrep hroomy
        (absurd rfl) fun _ _ _ _ _ _ => rfl
    · have htop := hroomy.top
      have halign : 16 ∣ mapped := Dvd.dvd.trans (by decide) hpage
      obtain ⟨hrep', hkept⟩ := commitSpan_spec (by omega) hmin hrep halign
      exact .grows hnone hspan hmin hlimit (by simp only [heapAllocLoop, hzero, hgrown]) hrep'
        (hroomy.commit hpage hlimit) (hneed.commit hroomy hlimit hwant) hkept
  · have hblock := hrep.block hb
    have hpos := hrep.base_pos
    obtain ⟨a, ha⟩ := Nat.exists_eq_succ_of_ne_zero (by omega : b.addr ≠ 0)
    obtain ⟨left, right, rfl⟩ := append_of_mem hb
    have hwrap : need + 64 < 2 ^ 64 := by
      have := hneed.wrap
      simp only [pageSize] at this
      omega
    obtain ⟨⟨nodes', hrep'⟩, hkept⟩ := takeBlock_spec hrep hfree hneed.min hneed.align hlarge hwrap
    refine .ends ?_ (.took rfl hfree hlarge) hrep'
      (hroomy.of_region (takeBlock_region h b.addr need))
      (fun _ => ⟨⟨b, hb, hfree, hlarge⟩, ?_⟩) ?_
    · rw [ha] at hfound ⊢
      simp only [heapAllocLoop, hfound]
    · rw [Nat.add_sub_cancel]
      exact hfound
    · intro c hc hused
      refine hkept c (mem_beside hc ?_ [])
      rintro rfl
      simp [hfree] at hused

/-- The retry loop returns: every expansion brings `brk` closer to the limit,
and the arena it searched is the old one with free blocks appended. -/
theorem heapAllocLoop_spec (hrep : Rep h blocks nodes)
    (hroomy : Roomy h) (hneed : Need h need) (hfuel : h.limit - h.brk < fuel) :
    ∃ h' p grown blocks' nodes', heapAllocLoop (kheapExpand supply) need fuel call h =
          some (h', p) ∧ (∀ g ∈ grown, g.free = true) ∧
        Takes (blocks ++ grown) need p blocks' ∧ Rep h' blocks' nodes' ∧ Roomy h' ∧
        ∀ c ∈ blocks, c.free = false → KeepsPayload c h.mem h'.mem := by
  induction fuel generalizing h blocks nodes call with
  | zero => omega
  | succ fuel ih =>
    have hround : Round supply need fuel call h blocks := heapAllocLoop_round hrep hroomy hneed
    cases hround with
    | ends hcall htakes hrep' hroomy' _ hkept =>
      exact ⟨_, _, [], _, _, hcall, by simp, by simpa using htakes, hrep', hroomy', hkept⟩
    | @grows mapped _ _ _ hmin hlimit hcall hrep' hroomy' hneed' hkept' =>
      have hbrk : (commitSpan h mapped).brk = h.brk + mapped := rfl
      have hsameLimit : (commitSpan h mapped).limit = h.limit := rfl
      obtain ⟨h', p, grown, blocks', nodes', hend, hfree, htakes, hrep'', hroomy'', hkept⟩ :=
        @ih (commitSpan h mapped) _ _ (call + 1) hrep' hroomy' hneed' (by omega)
      refine ⟨h', p, ⟨h.base + h.brk, mapped, true, true⟩ :: grown, blocks', nodes',
        hcall.trans hend, ?_, by simpa using htakes, hrep'', hroomy'', ?_⟩
      · simp only [forall_mem_cons, true_and]
        exact hfree
      · intro c hc hused
        exact (hkept' c hc).trans (hkept c (mem_append_left _ hc) hused)

end AuraLite.BoundaryTagHeap

import AuraLite.Lib.LinkedChain
import AuraLite.Mm.Heap

/-!
# The arena behind the heap

The abstract state of the allocator is a list of blocks in address order and
the order of its free list.  `Core` ties both to the bytes of a heap: the blocks
tile the committed region, every header and boundary tag in memory says what
its block says, and the links in memory thread the listed nodes.  The lemmas of
this file are the edits from which every allocator call is composed: linking a
block in, unlinking one, and rewriting a contiguous run of blocks in place.
-/

namespace AuraLite.BoundaryTagHeap

open List AuraLite.ByteMemory AuraLite.Word64 AuraLite.LinkedChain

/-- A block of the arena.  `free` is what its header says, `tagFree` what the
boundary tag at its end says. -/
structure Block where
  addr : ℕ
  size : ℕ
  free : Bool
  tagFree : Bool
  deriving DecidableEq, Repr

def Block.stop (b : Block) : ℕ := b.addr + b.size

def magicOf (free : Bool) : ℕ := if free then heapMagicFree else heapMagicUsed

theorem magicOf_lt (free : Bool) : magicOf free < 2 ^ 64 := by
  cases free <;> decide

theorem magicOf_eq_free_iff (free : Bool) : magicOf free = heapMagicFree ↔ free = true := by
  cases free <;> decide

theorem magicOf_eq_used_iff (free : Bool) : magicOf free = heapMagicUsed ↔ free = false := by
  cases free <;> decide

/-- The blocks follow one another from `lo` and end exactly at `hi`. -/
def Tiled : ℕ → ℕ → List Block → Prop
  | lo, hi, [] => lo = hi
  | lo, hi, b :: rest =>
    b.addr = lo ∧ minBlock ≤ b.size ∧ heapAlign ∣ b.size ∧
      Tiled (lo + b.size) hi rest

/-- The four tag words of a block hold what the block says. -/
structure Image (m : Mem) (b : Block) : Prop where
  magic : blockMagic m b.addr = magicOf b.free
  size : blockSize m b.addr = b.size
  tagMagic : read64 m (b.stop - 16) = magicOf b.tagFree
  tagSize : read64 m (b.stop - 8) = b.size

theorem Image.of_words {m m' : Mem} {b : Block} (himage : Image m b)
    (hread : ∀ x, x = b.addr ∨ x = b.addr + 8 ∨ x = b.stop - 16 ∨ x = b.stop - 8 →
      read64 m' x = read64 m x) : Image m' b :=
  ⟨(hread _ (by simp)).trans himage.magic, (hread _ (by simp)).trans himage.size,
    (hread _ (by simp)).trans himage.tagMagic, (hread _ (by simp)).trans himage.tagSize⟩

/-! ## Geometry of a tiling -/

theorem tiled_append {lo hi : ℕ} {left right : List Block} : Tiled lo hi (left ++ right) ↔
      ∃ mid, Tiled lo mid left ∧ Tiled mid hi right := by
  induction left generalizing lo with
  | nil => simp [Tiled]
  | cons b rest ih =>
    simp only [cons_append, Tiled, ih]
    constructor
    · rintro ⟨haddr, hmin, halign, mid, hleft, hright⟩
      exact ⟨mid, ⟨haddr, hmin, halign, hleft⟩, hright⟩
    · rintro ⟨mid, ⟨haddr, hmin, halign, hleft⟩, hright⟩
      exact ⟨haddr, hmin, halign, mid, hleft, hright⟩

theorem Tiled.le {lo hi : ℕ} (htiled : Tiled lo hi blocks) : lo ≤ hi := by
  induction blocks generalizing lo with
  | nil => exact le_of_eq htiled
  | cons b rest ih =>
    have := ih htiled.2.2.2
    omega

variable {b : Block}
variable {c : Block} {node : ℕ}

section

variable {lo hi : ℕ} (htiled : Tiled lo hi blocks) (halign : heapAlign ∣ lo)
include htiled halign

theorem Tiled.block (hmem : b ∈ blocks) :
    lo ≤ b.addr ∧ b.addr + b.size ≤ hi ∧ minBlock ≤ b.size ∧
      heapAlign ∣ b.addr ∧ heapAlign ∣ b.size := by
  induction blocks generalizing lo with
  | nil => simp at hmem
  | cons first rest ih =>
    obtain ⟨haddr, hmin, hsize, hrest⟩ := htiled
    rcases List.mem_cons.mp hmem with rfl | htail
    · have := hrest.le
      subst haddr
      exact ⟨le_rfl, this, hmin, halign, hsize⟩
    · have := ih hrest (Nat.dvd_add halign hsize) htail
      exact ⟨by omega, this.2⟩

theorem Tiled.separate (hb : b ∈ blocks) (hc : c ∈ blocks) :
    b = c ∨ b.addr + b.size ≤ c.addr ∨ c.addr + c.size ≤ b.addr := by
  induction blocks generalizing lo with
  | nil => simp at hb
  | cons first rest ih =>
    obtain ⟨haddr, _, hsize, hrest⟩ := htiled
    have hnext : heapAlign ∣ lo + first.size := Nat.dvd_add halign hsize
    rcases List.mem_cons.mp hb with hbFirst | hbRest
    · rcases List.mem_cons.mp hc with hcFirst | hcRest
      · exact .inl (hbFirst.trans hcFirst.symm)
      · have := (hrest.block hnext hcRest).1
        rw [hbFirst]
        exact .inr (.inl (by omega))
    · rcases List.mem_cons.mp hc with hcFirst | hcRest
      · have := (hrest.block hnext hbRest).1
        rw [hcFirst]
        exact .inr (.inr (by omega))
      · exact ih hrest hnext hbRest hcRest

theorem Tiled.eq_of_addr (hb : b ∈ blocks) (hc : c ∈ blocks) (haddr : b.addr = c.addr) : b = c := by
  have hbBlock := htiled.block halign hb
  have hcBlock := htiled.block halign hc
  simp only [minBlock, headerSize, footerSize, minPayload] at hbBlock hcBlock
  exact (htiled.separate halign hb hc).resolve_right (by omega)

end

/-! ## Words of aligned blocks -/

variable {m : Mem} {value : ℕ}

section

variable {a b : ℕ} (ha : 16 ∣ a) (hb : 16 ∣ b)
include ha hb

@[simp]
theorem blockNext_setNext : blockNext (setNext m a value) b =
      if b = a then value % 2 ^ 64 else blockNext m b := by
  unfold blockNext setNext
  split_ifs with heq
  · rw [heq, read64_write64_self]
  · exact read64_write64_disjoint (by omega)

@[simp]
theorem blockPrev_setPrev : blockPrev (setPrev m a value) b =
      if b = a then value % 2 ^ 64 else blockPrev m b := by
  unfold blockPrev setPrev
  split_ifs with heq
  · rw [heq, read64_write64_self]
  · exact read64_write64_disjoint (by omega)

@[simp]
theorem blockNext_setPrev : blockNext (setPrev m a value) b = blockNext m b :=
  read64_write64_disjoint (by omega)

@[simp]
theorem blockPrev_setNext : blockPrev (setNext m a value) b = blockPrev m b :=
  read64_write64_disjoint (by omega)

end

/-- The memories agree outside the link words of the nodes in `nodes`. -/
def AgreeOffLinks (nodes : List ℕ) (m m' : Mem) : Prop :=
  ∀ x, (∀ node ∈ nodes, x < node + 16 ∨ node + 32 ≤ x) → m' x = m x

theorem mem_around {α : Type*} {b c : α} {left right : List α} (hc : c ∈ left ++ right) :
    c ∈ left ++ b :: right := by
  rcases List.mem_append.mp hc with hc | hc
  · exact mem_append_left _ hc
  · exact mem_append_right _ (mem_cons_of_mem _ hc)

theorem AgreeOffLinks.refl (nodes : List ℕ) (m : Mem) : AgreeOffLinks nodes m m := fun _ _ => rfl

theorem AgreeOffLinks.trans {m₁ m₂ m₃ : Mem}
    (hfirst : AgreeOffLinks nodes m₁ m₂) (hsecond : AgreeOffLinks nodes m₂ m₃) :
    AgreeOffLinks nodes m₁ m₃ :=
  fun x hx => (hsecond x hx).trans (hfirst x hx)

theorem agreeOffLinks_setNext {a : ℕ}
    (ha : a ∈ nodes) : AgreeOffLinks nodes m (setNext m a value) :=
  fun x hx => write64_outside (by have := hx a ha; omega)

theorem agreeOffLinks_setPrev {a : ℕ}
    (ha : a ∈ nodes) : AgreeOffLinks nodes m (setPrev m a value) :=
  fun x hx => write64_outside (by have := hx a ha; omega)

/-! ## The representation -/

/-- The bytes of `h` hold the arena `blocks` with the free-list order `nodes`.
Which nodes are listed is left open, so that the predicate also holds in the
middle of an allocator call. -/
structure Core (h : Heap) (blocks : List Block) (nodes : List ℕ) : Prop where
  aligned : heapAlign ∣ h.base
  base_pos : 0 < h.base
  bound : h.base + h.brk < 2 ^ 64
  tiled : Tiled h.base (h.base + h.brk) blocks
  image : ∀ b ∈ blocks, Image h.mem b
  chain : Chain (blockNext h.mem) (blockPrev h.mem) 0 h.freeList nodes
  nodup : nodes.Nodup
  listed : ∀ node ∈ nodes, ∃ b ∈ blocks, b.addr = node

/-- What no operation on the blocks changes. -/
def Heap.region (h : Heap) : ℕ × ℕ × ℕ := (h.base, h.brk, h.limit)

variable {h h' : Heap} {blocks : List Block} {nodes : List ℕ}

section

variable (hcore : Core h blocks nodes)
include hcore

theorem Core.block (hb : b ∈ blocks) :
    h.base ≤ b.addr ∧ b.addr + b.size ≤ h.base + h.brk ∧ 64 ≤ b.size ∧
      16 ∣ b.addr ∧ 16 ∣ b.size := by
  simpa [minBlock, headerSize, footerSize, minPayload, heapAlign] using
    hcore.tiled.block hcore.aligned hb

theorem Core.separate (hb : b ∈ blocks) (hc : c ∈ blocks) :
    b = c ∨ b.addr + b.size ≤ c.addr ∨ c.addr + c.size ≤ b.addr :=
  hcore.tiled.separate hcore.aligned hb hc

theorem Core.node_aligned (hnode : node ∈ nodes) : 16 ∣ node := by
  obtain ⟨b, hb, rfl⟩ := hcore.listed node hnode
  exact (hcore.block hb).2.2.2.1

/-- Link words lie only in the last half of a header, so every other byte of a
block is off the links of any listed block. -/
theorem Core.off_link (hb : b ∈ blocks) (hc : c ∈ blocks) {x : ℕ} (hlo : c.addr ≤ x)
    (hhi : x < c.addr + c.size) (hout : x < c.addr + 16 ∨ c.addr + 32 ≤ x) :
    x < b.addr + 16 ∨ b.addr + 32 ≤ x := by
  have hbBlock := hcore.block hb
  rcases hcore.separate hb hc with rfl | hlt | hlt
  · exact hout
  · omega
  · omega

omit hcore in
/-- Relinking keeps the representation: only link words of blocks change. -/
theorem Core.relink {touched nodes' : List ℕ} (hcore : Core h blocks nodes)
    (hregion : h'.region = h.region)
    (hagree : AgreeOffLinks touched h.mem h'.mem)
    (htouched : ∀ node ∈ touched, ∃ b ∈ blocks, b.addr = node)
    (hchain : Chain (blockNext h'.mem) (blockPrev h'.mem) 0 h'.freeList nodes')
    (hnodup : nodes'.Nodup)
    (hlisted : ∀ node ∈ nodes', ∃ b ∈ blocks, b.addr = node) :
    Core h' blocks nodes' := by
  cases h
  cases h'
  obtain ⟨rfl, rfl, rfl⟩ : _ ∧ _ ∧ _ := by simpa [Heap.region] using hregion
  refine ⟨hcore.aligned, hcore.base_pos, hcore.bound, hcore.tiled, fun c hc => ?_, hchain, hnodup,
    hlisted⟩
  have hblock := hcore.block hc
  refine (hcore.image c hc).of_words fun x hx => read64_congr fun y hxy hyx => ?_
  rw [Block.stop] at hx
  apply hagree
  intro node hnode
  obtain ⟨b, hb, rfl⟩ := htouched node hnode
  exact hcore.off_link hb hc (by omega) (by omega) (by omega)

/-! ## Free-list edits -/

omit hcore in
/-- The links after pushing `b`, read at any aligned node. -/
theorem flInsert_links {b : ℕ} (hb : 16 ∣ b) (hhead : 16 ∣ h.freeList) (hnode : 16 ∣ node)
    (hbLt : b < 2 ^ 64) (hheadLt : h.freeList < 2 ^ 64) :
    blockNext (flInsert h b).mem node = (if node = b then h.freeList else blockNext h.mem node) ∧
      blockPrev (flInsert h b).mem node = (if h.freeList ≠ 0 ∧ node = h.freeList then b
          else if node = b then 0 else blockPrev h.mem node) := by
  simp only [flInsert]
  by_cases hne : h.freeList = 0
  · simp [hne, hb, hnode]
  · simp [-Nat.reducePow, hne, hb, hhead, hnode, Nat.mod_eq_of_lt hbLt, Nat.mod_eq_of_lt hheadLt]

theorem Core.freeList_mem (hne : h.freeList ≠ 0) : h.freeList ∈ nodes := by
  have hhead := hcore.chain.head_eq
  cases nodes with
  | nil => exact absurd hhead hne
  | cons first rest => simp [hhead]

theorem Core.node_lt (hnode : node ∈ nodes) : node < 2 ^ 64 := by
  obtain ⟨b, hb, rfl⟩ := hcore.listed node hnode
  have := hcore.block hb
  have := hcore.bound
  omega

theorem Core.freeList_bounds : 16 ∣ h.freeList ∧ h.freeList < 2 ^ 64 := by
  by_cases hzero : h.freeList = 0
  · simp [hzero]
  · have hmem := hcore.freeList_mem hzero
    exact ⟨hcore.node_aligned hmem, hcore.node_lt hmem⟩

theorem flInsert_agree (b : ℕ) : AgreeOffLinks (b :: nodes) h.mem (flInsert h b).mem := by
  have hself : b ∈ b :: nodes := mem_cons_self
  have hprev : AgreeOffLinks (b :: nodes) h.mem (setPrev h.mem b 0) := agreeOffLinks_setPrev hself
  have hnext : AgreeOffLinks (b :: nodes) h.mem (setNext (setPrev h.mem b 0) b h.freeList) :=
    hprev.trans (agreeOffLinks_setNext hself)
  simp only [flInsert]
  split_ifs with hne
  · exact hnext.trans (agreeOffLinks_setPrev (mem_cons_of_mem _ (hcore.freeList_mem hne)))
  · exact hnext

theorem Core.chain_push {b : ℕ} {m' : Mem} (hb : b ≠ 0) (hbAligned : 16 ∣ b) (hfresh : b ∉ nodes)
    (hlinks : ∀ node, 16 ∣ node → blockNext m' node =
          (if node = b then h.freeList else blockNext h.mem node) ∧
        blockPrev m' node = (if h.freeList ≠ 0 ∧ node = h.freeList then b
            else if node = b then 0 else blockPrev h.mem node)) :
    Chain (blockNext m') (blockPrev m') 0 b (b :: nodes) := by
  have hheadNe : h.freeList ≠ 0 → b ≠ h.freeList := by
    rintro hne rfl
    exact hfresh (hcore.freeList_mem hne)
  refine hcore.chain.insert hb hcore.nodup ?_ ?_ ?_ ?_
  · rw [(hlinks b hbAligned).1, if_pos rfl]
  · rw [(hlinks b hbAligned).2, if_neg, if_pos rfl]
    rintro ⟨hne, heq⟩
    exact hheadNe hne heq
  · intro other hother
    have hne : other ≠ b := fun heq => hfresh (heq ▸ hother)
    rw [(hlinks other (hcore.node_aligned hother)).1, if_neg hne]
  · intro other hother
    have hne : other ≠ b := fun heq => hfresh (heq ▸ hother)
    have hpos := hcore.chain.ne_zero hother
    rw [(hlinks other (hcore.node_aligned hother)).2]
    by_cases heq : other = h.freeList
    · rw [if_pos heq, if_pos ⟨heq ▸ hpos, heq⟩]
    · rw [if_neg heq, if_neg (fun hboth => heq hboth.2), if_neg hne]

theorem flInsert_spec (hb : b ∈ blocks) (hfresh : b.addr ∉ nodes) :
    Core (flInsert h b.addr) blocks (b.addr :: nodes) := by
  have hblock := hcore.block hb
  have hbound := hcore.bound
  have hpos := hcore.base_pos
  have hne : b.addr ≠ 0 := by omega
  have hlisted : ∀ node ∈ b.addr :: nodes, ∃ c ∈ blocks, c.addr = node := by
    intro node hnode
    rcases List.mem_cons.mp hnode with rfl | htail
    · exact ⟨b, hb, rfl⟩
    · exact hcore.listed node htail
  refine hcore.relink rfl (flInsert_agree hcore b.addr) hlisted ?_
    (by simp [hfresh, hcore.nodup]) hlisted
  exact hcore.chain_push hne hblock.2.2.2.1 hfresh fun node hnode =>
    flInsert_links hblock.2.2.2.1 hcore.freeList_bounds.1 hnode (by omega) hcore.freeList_bounds.2

end

/-- The links after unlinking `b`, read at any other aligned node. -/
theorem flRemove_links {b : ℕ} (hb : 16 ∣ b) (hnode : 16 ∣ node) (hnext : 16 ∣ blockNext h.mem b)
    (hprev : 16 ∣ blockPrev h.mem b) (hprevNe : blockPrev h.mem b ≠ b) (hnodeNe : node ≠ b)
    (hnodePos : node ≠ 0) :
    blockNext (flRemove h b).mem node = (if node = blockPrev h.mem b then blockNext h.mem b
          else blockNext h.mem node) ∧
      blockPrev (flRemove h b).mem node = (if node = blockNext h.mem b then blockPrev h.mem b
          else blockPrev h.mem node) := by
  have hnextMod : blockNext h.mem b % 2 ^ 64 = blockNext h.mem b := Nat.mod_eq_of_lt (read64_lt _ _)
  have hprevMod : blockPrev h.mem b % 2 ^ 64 = blockPrev h.mem b := Nat.mod_eq_of_lt (read64_lt _ _)
  simp only [flRemove]
  by_cases hprevZero : blockPrev h.mem b = 0
  · by_cases hnextZero : blockNext h.mem b = 0
    · simp [hprevZero, hnextZero, hnodeNe, hnodePos, hb, hnode]
    · simp [hprevZero, hnextZero, hnodeNe, hnodePos, hb, hnode, hnext]
  · by_cases hnextZero : blockNext h.mem b = 0
    · simp [hprevZero, hnextZero, hnodeNe, hnodePos, hb, hnode, hprev, hprevNe.symm]
    · simp [-Nat.reducePow, hprevZero, hnextZero, hnodeNe, hb, hnode, hnext, hprev, hprevNe.symm,
        hnextMod, hprevMod]

theorem flRemove_agree {b : ℕ} {touched : List ℕ} (hb : 16 ∣ b)
    (hprev : 16 ∣ blockPrev h.mem b) (hprevNe : blockPrev h.mem b ≠ b)
    (hself : b ∈ touched)
    (hnextMem : blockNext h.mem b ≠ 0 → blockNext h.mem b ∈ touched)
    (hprevMem : blockPrev h.mem b ≠ 0 → blockPrev h.mem b ∈ touched) :
    AgreeOffLinks touched h.mem (flRemove h b).mem := by
  have hnextKept : blockNext (setNext h.mem (blockPrev h.mem b)
      (blockNext h.mem b)) b = blockNext h.mem b := by
    simp [hprev, hb, hprevNe.symm]
  have hclear : ∀ m, AgreeOffLinks touched h.mem m →
      AgreeOffLinks touched h.mem (setPrev (setNext m b 0) b 0) := fun m hm =>
    (hm.trans (agreeOffLinks_setNext hself)).trans (agreeOffLinks_setPrev hself)
  simp only [flRemove]
  apply hclear
  by_cases hprevZero : blockPrev h.mem b = 0
  · simp only [hprevZero, ne_eq, not_true_eq_false, if_false]
    split_ifs with hnextZero
    · exact .refl _ _
    · exact agreeOffLinks_setPrev (hnextMem hnextZero)
  · simp only [hprevZero, ne_eq, not_false_eq_true, if_true, hnextKept]
    have hstep : AgreeOffLinks touched h.mem
        (setNext h.mem (blockPrev h.mem b) (blockNext h.mem b)) :=
      agreeOffLinks_setNext (hprevMem hprevZero)
    split_ifs with hnextZero
    · exact hstep
    · exact hstep.trans (agreeOffLinks_setPrev (hnextMem hnextZero))

theorem flRemove_freeList (h : Heap) (b : ℕ) : (flRemove h b).freeList =
      if blockPrev h.mem b ≠ 0 then h.freeList else blockNext h.mem b := by
  simp only [flRemove]
  split_ifs <;> rfl

theorem flRemove_region (h : Heap) (b : ℕ) : (flRemove h b).region = h.region := by
  simp only [flRemove]
  split_ifs <;> rfl

section

variable {node : ℕ} {left right : List ℕ} (hcore : Core h blocks (left ++ node :: right))
include hcore

/-- The neighbours a listed node links to: `NULL` or another listed node. -/
theorem Core.neighbours :
    (blockPrev h.mem node = 0 ↔ left = []) ∧
      (blockPrev h.mem node ≠ 0 → blockPrev h.mem node ∈ left) ∧
      (blockNext h.mem node ≠ 0 → blockNext h.mem node ∈ right) := by
  rw [show blockPrev h.mem node = left.getLastD 0 from hcore.chain.prev_eq,
    show blockNext h.mem node = right.headD 0 from hcore.chain.next_eq]
  refine ⟨?_, (mem_cons.mp getLastD_mem_cons).resolve_left, ?_⟩
  · cases left with
    | nil => simp
    | cons first rest =>
      have hlast : (first :: rest).getLastD 0 ∈ first :: rest := by
        rw [getLastD_cons]
        exact getLastD_mem_cons
      simpa using hcore.chain.ne_zero (mem_append_left _ hlast)
  · cases right with
    | nil => exact fun hne => absurd rfl hne
    | cons first rest => exact fun _ => mem_cons_self

theorem flRemove_spec :
    Core (flRemove h node) blocks (left ++ right) ∧
      AgreeOffLinks (left ++ node :: right) h.mem (flRemove h node).mem := by
  obtain ⟨hfirst, hprevLeft, hnextRight⟩ := hcore.neighbours
  obtain ⟨hfresh, hnodup⟩ := List.nodup_cons.mp (nodup_middle.mp hcore.nodup)
  have hself : node ∈ left ++ node :: right := by simp
  have hprevMem : blockPrev h.mem node ≠ 0 → blockPrev h.mem node ∈ left ++ node :: right :=
    fun hne => mem_append_left _ (hprevLeft hne)
  have hnextMem : blockNext h.mem node ≠ 0 → blockNext h.mem node ∈ left ++ node :: right :=
    fun hne => by simp [hnextRight hne]
  have haligned : ∀ a, (a ≠ 0 → a ∈ left ++ node :: right) → 16 ∣ a := by
    intro a ha
    by_cases hzero : a = 0
    · simp [hzero]
    · exact hcore.node_aligned (ha hzero)
  have hprevNe : blockPrev h.mem node ≠ node := by
    intro heq
    rw [heq] at hprevLeft
    exact hfresh (mem_append_left _ (hprevLeft (hcore.chain.ne_zero hself)))
  have hagree := flRemove_agree (haligned node fun _ => hself) (haligned _ hprevMem) hprevNe hself
    hnextMem hprevMem
  have hlinks := fun other (hother : other ∈ left ++ right) =>
    have hne : other ≠ node := fun heq => hfresh (heq ▸ hother)
    @flRemove_links other h node (haligned node fun _ => hself)
      (hcore.node_aligned (mem_around hother)) (haligned _ hnextMem) (haligned _ hprevMem) hprevNe
      hne (hcore.chain.ne_zero (mem_around hother))
  have hchain : Chain (blockNext (flRemove h node).mem) (blockPrev (flRemove h node).mem) 0
      (if left = [] then blockNext h.mem node else h.freeList)
      (left ++ right) :=
    hcore.chain.remove hcore.nodup (fun hzero => hcore.chain.ne_zero hzero rfl)
      (fun other hother => (hlinks other hother).1)
      (fun other hother => (hlinks other hother).2)
  refine ⟨hcore.relink (flRemove_region h node) hagree hcore.listed ?_ hnodup ?_, hagree⟩
  · simpa only [flRemove_freeList, ne_eq, ite_not, hfirst] using hchain
  · exact fun other hother => hcore.listed other (mem_around hother)

end

end AuraLite.BoundaryTagHeap

import AuraLite.Mm.HeapArena

/-!
# In-place edits of the arena

The allocator rewrites a contiguous run of blocks by storing tag words inside
that run.  Each edit is stated as a step from one represented arena to the next
together with its frame: which payload bytes it leaves alone.
-/

namespace AuraLite.BoundaryTagHeap

open List AuraLite.ByteMemory AuraLite.Word64 AuraLite.LinkedChain

variable {h h' : Heap} {blocks left right : List Block} {nodes : List ℕ}
variable {b c : Block} {m m' : Mem}
variable {a size x head rem magic lo : ℕ} {free : Bool}

/-- The payload bytes of `c` are the same in both memories. -/
def KeepsPayload (c : Block) (m m' : Mem) : Prop :=
  ∀ x, c.addr + 32 ≤ x → x + 16 < c.addr + c.size → m' x = m x

theorem KeepsPayload.trans {m₁ m₂ m₃ : Mem} (hfirst : KeepsPayload c m₁ m₂)
    (hsecond : KeepsPayload c m₂ m₃) : KeepsPayload c m₁ m₃ :=
  fun x hlo hhi => (hsecond x hlo hhi).trans (hfirst x hlo hhi)

/-! ## Boundary tags -/

section

variable (hsize : blockSize m a = size) (hroom : 48 ≤ size)
include hsize hroom

theorem setFooter_eq (hmagic : blockMagic m a = magic) :
    setFooter m a = write64 (write64 m (a + size - 16) magic) (a + size - 8) size := by
  have hkept : blockSize (write64 m (a + size - 16) magic) a = size := by
    rw [← hsize]
    exact read64_write64_disjoint (by omega)
  have hsecond : a + size - 16 + 8 = a + size - 8 := by omega
  simp only [setFooter, blockFooter, hsize, hmagic, footerSize, hkept, hsecond]

theorem setFooter_outside (hx : x < a + size - 16 ∨ a + size ≤ x) :
    setFooter m a x = m x := by
  rw [setFooter_eq hsize hroom rfl]
  rw [write64_outside (by omega), write64_outside (by omega)]

theorem read64_setFooter (hx : x + 24 ≤ a + size ∨ a + size ≤ x) :
    read64 (setFooter m a) x = read64 m x :=
  read64_congr fun _ _ _ => setFooter_outside hsize hroom (by omega)

/-- A header mirrored into its boundary tag represents a block whose tag agrees
with its header. -/
theorem image_setFooter (hmagic : blockMagic m a = magicOf free) :
    Image (setFooter m a) ⟨a, size, free, free⟩ := by
  have hmagicMod := Nat.mod_eq_of_lt (magicOf_lt free)
  have hsizeMod : size % 2 ^ 64 = size := Nat.mod_eq_of_lt (hsize ▸ read64_lt m (a + 8))
  have hheader : read64 (setFooter m a) a = magicOf free :=
    (read64_setFooter hsize hroom (by omega)).trans hmagic
  have hlength : read64 (setFooter m a) (a + 8) = size :=
    (read64_setFooter hsize hroom (by omega)).trans hsize
  refine ⟨hheader, hlength, ?_, ?_⟩
  · show read64 (setFooter m a) (a + size - 16) = magicOf free
    rw [setFooter_eq hsize hroom hmagic, read64_write64_disjoint (by omega),
      read64_write64_self, hmagicMod]
  · show read64 (setFooter m a) (a + size - 8) = size
    rw [setFooter_eq hsize hroom hmagic, read64_write64_self, hsizeMod]

end

theorem Image.congr (himage : Image m b) (hsize : 16 ≤ b.size)
    (hagree : ∀ x, b.addr ≤ x → x < b.addr + b.size → m' x = m x) :
    Image m' b := by
  refine himage.of_words fun x hx => read64_congr fun y hlo hhi => ?_
  rw [Block.stop] at hx
  exact hagree y (by omega) (by omega)

/-! ## Rewriting a run of blocks -/

theorem Tiled.aligned {hi : ℕ} (htiled : Tiled lo hi blocks) (halign : heapAlign ∣ lo) :
    heapAlign ∣ hi := by
  induction blocks generalizing lo with
  | nil => exact htiled ▸ halign
  | cons first rest ih => exact ih htiled.2.2.2 (Nat.dvd_add halign htiled.2.2.1)

/-- Replacing the run `mid` that tiles `[lo, hi)` by `mid'`, when only bytes of
that range change and the links of the nodes in it are kept. -/
theorem Core.replace {hi : ℕ} {mid mid' : List Block}
    (hcore : Core h (left ++ (mid ++ right)) nodes) (hleft : Tiled h.base lo left)
    (hmid : Tiled lo hi mid) (hright : Tiled hi (h.base + h.brk) right) (hmid' : Tiled lo hi mid')
    (hmem : ∀ x, x < lo ∨ hi ≤ x → m' x = h.mem x) (himage : ∀ b ∈ mid', Image m' b)
    (hlinks : ∀ b ∈ mid, b.addr ∈ nodes → (∃ c ∈ mid', c.addr = b.addr) ∧
      blockNext m' b.addr = blockNext h.mem b.addr ∧
      blockPrev m' b.addr = blockPrev h.mem b.addr) :
    Core { h with mem := m' } (left ++ (mid' ++ right)) nodes := by
  have hloAligned := hleft.aligned hcore.aligned
  have hhiAligned := hmid.aligned hloAligned
  have houtside : ∀ c, c ∈ left ∨ c ∈ right → ∀ x, c.addr ≤ x →
      x < c.addr + c.size → m' x = h.mem x := by
    intro c hc x hlo hhi
    apply hmem
    rcases hc with hc | hc
    · have := hleft.block hcore.aligned hc
      omega
    · have := hright.block hhiAligned hc
      omega
  have hnode : ∀ node ∈ nodes, (∃ c ∈ left ++ (mid' ++ right), c.addr = node) ∧
        blockNext m' node = blockNext h.mem node ∧
        blockPrev m' node = blockPrev h.mem node := by
    intro node hnode
    obtain ⟨c, hc, rfl⟩ := hcore.listed node hnode
    have hsize := (hcore.block hc).2.2.1
    simp only [mem_append] at hc
    by_cases hcMid : c ∈ mid
    · obtain ⟨⟨d, hd, hdAddr⟩, hkept⟩ := hlinks c hcMid hnode
      exact ⟨⟨d, by simp [hd], hdAddr⟩, hkept⟩
    · have hside : c ∈ left ∨ c ∈ right := by tauto
      refine ⟨⟨c, by simp only [mem_append]; tauto, rfl⟩, ?_, ?_⟩
      · exact read64_congr fun x hlo hhi =>
          houtside c hside x (by omega) (by omega)
      · exact read64_congr fun x hlo hhi =>
          houtside c hside x (by omega) (by omega)
  refine { hcore with tiled := ?_, image := ?_, chain := ?_
                      listed := fun node hmemNode => (hnode node hmemNode).1 }
  · exact tiled_append.mpr ⟨lo, hleft, tiled_append.mpr ⟨hi, hmid', hright⟩⟩
  · intro c hc
    by_cases hcMid : c ∈ mid'
    · exact himage c hcMid
    · have hside : c ∈ left ∨ c ∈ right := by
        simp only [mem_append] at hc
        tauto
      have hwas : c ∈ left ++ (mid ++ right) := by
        simp only [mem_append]
        tauto
      have hsize := (hcore.block hwas).2.2.1
      exact (hcore.image c hwas).congr (by omega) (houtside c hside)
  · exact hcore.chain.congr (fun node hmemNode => (hnode node hmemNode).2.1)
      (fun node hmemNode => (hnode node hmemNode).2.2)

section

variable (hcore : Core h (left ++ b :: right) nodes)
include hcore

theorem Core.around : Tiled h.base b.addr left ∧
      Tiled (b.addr + b.size) (h.base + h.brk) right := by
  obtain ⟨mid, hleft, hright⟩ := tiled_append.mp hcore.tiled
  obtain ⟨haddr, _, _, hrest⟩ := hright
  subst haddr
  exact ⟨hleft, hrest⟩

theorem Core.rewrite {mid' : List Block} (hmid' : Tiled b.addr (b.addr + b.size) mid')
    (hmem : ∀ x, x < b.addr ∨ b.addr + b.size ≤ x → m' x = h.mem x)
    (himage : ∀ c ∈ mid', Image m' c)
    (hfirst : ∃ c ∈ mid', c.addr = b.addr)
    (hnext : blockNext m' b.addr = blockNext h.mem b.addr)
    (hprev : blockPrev m' b.addr = blockPrev h.mem b.addr) :
    Core { h with mem := m' } (left ++ (mid' ++ right)) nodes := by
  obtain ⟨hleft, hright⟩ := hcore.around
  have hblock := hcore.block (mem_append_right left mem_cons_self)
  have hmid : Tiled b.addr (b.addr + b.size) [b] := ⟨rfl, hblock.2.2.1, hblock.2.2.2.2, rfl⟩
  refine @Core.replace h left right nodes m' b.addr (b.addr + b.size) [b] mid'
    hcore hleft hmid hright hmid' hmem himage ?_
  intro c hc _
  rw [mem_singleton.mp hc]
  exact ⟨hfirst, hnext, hprev⟩

theorem setMagic_spec (free : Bool) : Core { h with mem := setMagic h.mem b.addr (magicOf free) }
      (left ++ { b with free } :: right) nodes := by
  have hmem : b ∈ left ++ b :: right := by simp
  obtain ⟨_, _, hsize, _, halign⟩ := hcore.block hmem
  obtain ⟨_, hlength, htag, htagSize⟩ := hcore.image b hmem
  refine @Core.rewrite h left right nodes b _ hcore [{ b with free }]
    ⟨rfl, hsize, halign, rfl⟩ (fun x hx => write64_outside (by omega)) ?_
    ⟨_, mem_singleton.mpr rfl, rfl⟩
    (read64_write64_disjoint (by omega)) (read64_write64_disjoint (by omega))
  intro c hc
  rw [mem_singleton.mp hc]
  rw [Block.stop] at htag htagSize
  refine ⟨?_, (read64_write64_disjoint ?_).trans hlength, (read64_write64_disjoint ?_).trans htag,
    (read64_write64_disjoint ?_).trans htagSize⟩
  · exact (read64_write64_self _ _ _).trans (Nat.mod_eq_of_lt (magicOf_lt free))
  · show b.addr + 8 + 8 ≤ b.addr ∨ b.addr + 8 ≤ b.addr + 8
    omega
  · show b.addr + b.size - 16 + 8 ≤ b.addr ∨ b.addr + 8 ≤ b.addr + b.size - 16
    omega
  · show b.addr + b.size - 8 + 8 ≤ b.addr ∨ b.addr + 8 ≤ b.addr + b.size - 8
    omega

theorem setFooter_spec : Core { h with mem := setFooter h.mem b.addr }
      (left ++ { b with tagFree := b.free } :: right) nodes := by
  have hmem : b ∈ left ++ b :: right := by simp
  obtain ⟨_, _, hsize, _, halign⟩ := hcore.block hmem
  obtain ⟨hmagic, hlength, _, _⟩ := hcore.image b hmem
  refine @Core.rewrite h left right nodes b _ hcore [{ b with tagFree := b.free }]
    ⟨rfl, hsize, halign, rfl⟩
    (fun x hx => setFooter_outside hlength (by omega) (by omega)) ?_
    ⟨_, mem_singleton.mpr rfl, rfl⟩
    (read64_setFooter hlength (by omega) (by omega))
    (read64_setFooter hlength (by omega) (by omega))
  intro c hc
  rw [mem_singleton.mp hc]
  exact image_setFooter hlength (by omega) hmagic

end

section Resize

variable {a size x : ℕ} (hsize : 48 ≤ size) (hfits : size < 2 ^ 64)
include hfits

theorem blockSize_setSize : blockSize (setSize m a size) a = size :=
  (read64_write64_self _ _ _).trans (Nat.mod_eq_of_lt hfits)

include hsize

theorem resize_outside (hx : x < a ∨ a + size ≤ x) : setFooter (setSize m a size) a x = m x := by
  rw [setFooter_outside (blockSize_setSize hfits) hsize (by omega)]
  exact write64_outside (by omega)

theorem read64_resize
    (hx : x + 8 ≤ a + 8 ∨ a + 16 ≤ x ∧ x + 24 ≤ a + size ∨ a + size ≤ x) :
    read64 (setFooter (setSize m a size) a) x = read64 m x := by
  rw [read64_setFooter (blockSize_setSize hfits) hsize (by omega)]
  exact read64_write64_disjoint (by omega)

theorem image_resize (hmagic : blockMagic m a = magicOf free) :
    Image (setFooter (setSize m a size) a) ⟨a, size, free, free⟩ := by
  refine image_setFooter (blockSize_setSize hfits) hsize ?_
  exact (read64_write64_disjoint (by omega)).trans hmagic

end Resize

/-- Growing a block over its successor.  The successor must have left the free
list; its header and the old boundary tag become payload. -/
theorem absorb_spec (hcore : Core h (left ++ b :: c :: right) nodes) (hunlisted : c.addr ∉ nodes) :
    Core { h with
        mem := setFooter (setSize h.mem b.addr (b.size + c.size)) b.addr }
      (left ++ ⟨b.addr, b.size + c.size, b.free, b.free⟩ :: right) nodes := by
  have hbMem : b ∈ left ++ b :: c :: right := by simp
  have hcMem : c ∈ left ++ b :: c :: right := by simp
  obtain ⟨hleft, hrest⟩ := hcore.around
  obtain ⟨hcAddr, _, _, hright⟩ := hrest
  have hbBlock := hcore.block hbMem
  have hcBlock := hcore.block hcMem
  have hbound := hcore.bound
  have hmid : Tiled b.addr (b.addr + b.size + c.size) [b, c] :=
    ⟨rfl, hbBlock.2.2.1, hbBlock.2.2.2.2, hcAddr, hcBlock.2.2.1, hcBlock.2.2.2.2, rfl⟩
  have hmid' : Tiled b.addr (b.addr + b.size + c.size)
      [⟨b.addr, b.size + c.size, b.free, b.free⟩] :=
    ⟨rfl, le_add_right hbBlock.2.2.1,
      Nat.dvd_add hbBlock.2.2.2.2 hcBlock.2.2.2.2, by simp only [Tiled]; omega⟩
  refine @Core.replace h left right nodes _ b.addr _ [b, c] _ hcore hleft hmid hright hmid' ?_ ?_ ?_
  · exact fun x hx => resize_outside (by omega) (by omega) (by omega)
  · intro d hd
    rw [mem_singleton.mp hd]
    exact image_resize (by omega) (by omega) (hcore.image b hbMem).magic
  · intro d hd hlisted
    rcases mem_cons.mp hd with rfl | hd
    · exact ⟨⟨_, mem_singleton.mpr rfl, rfl⟩, read64_resize (by omega) (by omega) (by omega),
        read64_resize (by omega) (by omega) (by omega)⟩
    · rw [mem_singleton.mp hd] at hlisted
      exact absurd hlisted hunlisted

/-! ## Cutting a block and appending one -/

def pushLinks (m : Mem) (head b : ℕ) : Mem :=
  let m := setNext (setPrev m b 0) b head
  if head ≠ 0 then setPrev m head b else m

theorem flInsert_eq (h : Heap) (b : ℕ) : flInsert h b =
      { h with mem := pushLinks h.mem h.freeList b, freeList := b } :=
  rfl

/-- The word at `x` is none of the link words written by a push. -/
def OffPush (head b x : ℕ) : Prop :=
  (x + 8 ≤ b + 16 ∨ b + 32 ≤ x) ∧
    (head ≠ 0 → x + 8 ≤ head + 16 ∨ head + 32 ≤ x)

theorem pushLinks_write64 {value : ℕ} (hoff : OffPush head rem x) :
    pushLinks (write64 m x value) head rem = write64 (pushLinks m head rem) x value := by
  obtain ⟨hrem, hhead⟩ := hoff
  have hprev : setPrev (write64 m x value) rem 0 =
      write64 (setPrev m rem 0) x value := write64_comm (by omega)
  have hnext : setNext (write64 (setPrev m rem 0) x value) rem head =
      write64 (setNext (setPrev m rem 0) rem head) x value :=
    write64_comm (by omega)
  simp only [pushLinks, hprev, hnext]
  split_ifs with hne
  · have haway := hhead hne
    exact write64_comm (by omega)
  · rfl

theorem read64_pushLinks (hoff : OffPush head rem x) :
    read64 (pushLinks m head rem) x = read64 m x := by
  obtain ⟨hrem, hhead⟩ := hoff
  have hlinks : read64 (setNext (setPrev m rem 0) rem head) x = read64 m x :=
    (read64_write64_disjoint (by omega)).trans (read64_write64_disjoint (by omega))
  simp only [pushLinks]
  split_ifs with hne
  · have haway := hhead hne
    exact (read64_write64_disjoint (by omega)).trans hlinks
  · exact hlinks

/-- The stores of `splitBlock`, with the push of the remainder done last. -/
def carve (m : Mem) (b size need : ℕ) : Mem :=
  let rem := b + need
  let m := setMagic m rem heapMagicFree
  let m := setSize m rem (size - need)
  let m := setFooter m rem
  setFooter (setSize m b need) b

variable {need : ℕ}

theorem resize_eq (hmagic : blockMagic m a = magic) (hneed : 48 ≤ need) (hfits : need < 2 ^ 64) :
    setFooter (setSize m a need) a =
      write64 (write64 (write64 m (a + 8) need) (a + need - 16) magic) (a + need - 8) need := by
  have hmagic' : blockMagic (setSize m a need) a = magic :=
    (read64_write64_disjoint (by omega)).trans hmagic
  exact setFooter_eq (blockSize_setSize hfits) hneed hmagic'

/-- Shrinking a block before or after the remainder is pushed is the same. -/
theorem pushLinks_resize (hneed : 64 ≤ need) (hfits : need < 2 ^ 64) (hrem : a + need ≤ rem)
    (hhead : head ≠ 0 → head = a ∨ head + 32 ≤ a ∨ a + need ≤ head) :
    pushLinks (setFooter (setSize m a need) a) head rem =
      setFooter (setSize (pushLinks m head rem) a need) a := by
  have hoff : ∀ x, x = a ∨ x = a + 8 ∨ x = a + need - 16 ∨ x = a + need - 8 →
      OffPush head rem x := by
    intro x hx
    refine ⟨by omega, fun hne => ?_⟩
    have := hhead hne
    omega
  have hmagic : blockMagic (pushLinks m head rem) a = blockMagic m a :=
    read64_pushLinks (hoff a (by omega))
  rw [resize_eq hmagic (by omega) hfits, resize_eq rfl (by omega) hfits,
    pushLinks_write64 (hoff _ (by omega)), pushLinks_write64 (hoff _ (by omega)),
    pushLinks_write64 (hoff _ (by omega))]

theorem splitBlock_small (hcore : Core h (left ++ b :: right) nodes)
    (hfits : need + 64 < 2 ^ 64) (hsmall : b.size < need + 64) :
    splitBlock h b.addr need = h := by
  have hsize := (hcore.image b (by simp)).size
  have hmin : wrap64 (need + minBlock) = need + 64 := wrap64_of_lt hfits
  rw [splitBlock, hsize, hmin, if_pos hsmall]

theorem splitBlock_eq (hcore : Core h (left ++ b :: right) nodes)
    (hneed : 64 ≤ need) (hroom : need + 64 ≤ b.size) :
    splitBlock h b.addr need = flInsert { h with mem := carve h.mem b.addr b.size need }
        (b.addr + need) := by
  have hmem : b ∈ left ++ b :: right := by simp
  obtain ⟨_, hstop, _, _, _⟩ := hcore.block hmem
  have hsize := (hcore.image b hmem).size
  have hbound := hcore.bound
  have hmin : wrap64 (need + minBlock) = need + 64 :=
    wrap64_of_lt (by show need + 64 < 2 ^ 64; omega)
  have hsize₁ : blockSize (setMagic h.mem (b.addr + need) heapMagicFree) b.addr = b.size :=
    (read64_write64_disjoint (by omega)).trans hsize
  have hhead : h.freeList ≠ 0 → h.freeList = b.addr ∨
      h.freeList + 32 ≤ b.addr ∨ b.addr + need ≤ h.freeList := by
    intro hne
    obtain ⟨c, hc, hcAddr⟩ := hcore.listed _ (hcore.freeList_mem hne)
    have hcBlock := hcore.block hc
    rcases hcore.separate hmem hc with rfl | hlt | hlt
    · exact .inl hcAddr.symm
    · exact .inr (.inr (by omega))
    · exact .inr (.inl (by omega))
  simp only [splitBlock, hsize, hmin, hsize₁, flInsert_eq, carve]
  rw [if_neg (by omega), pushLinks_resize hneed (by omega) le_rfl hhead]

theorem carve_outside (hneed : 64 ≤ need) (hroom : need + 64 ≤ size) (hfits : size < 2 ^ 64)
    (hx : x < a ∨ a + size ≤ x) : carve m a size need x = m x := by
  let m₁ := setMagic m (a + need) heapMagicFree
  calc carve m a size need x
      = setFooter (setSize m₁ (a + need) (size - need)) (a + need) x :=
        resize_outside (by omega) (by omega) (by omega)
    _ = m₁ x := resize_outside (by omega) (by omega) (by omega)
    _ = m x := write64_outside (by omega)

theorem carve_spec (hcore : Core h (left ++ b :: right) nodes)
    (hfree : b.free = true) (hneed : 64 ≤ need) (halign : 16 ∣ need)
    (hroom : need + 64 ≤ b.size) :
    Core { h with mem := carve h.mem b.addr b.size need } (left ++ ⟨b.addr, need, true, true⟩ ::
        ⟨b.addr + need, b.size - need, true, true⟩ :: right) nodes := by
  have hmem : b ∈ left ++ b :: right := by simp
  obtain ⟨_, hstop, _, _, hsizeAlign⟩ := hcore.block hmem
  have hmagic := (hcore.image b hmem).magic
  have hbound := hcore.bound
  rw [hfree] at hmagic
  let m₁ := setMagic h.mem (b.addr + need) heapMagicFree
  let m₂ := setFooter (setSize m₁ (b.addr + need) (b.size - need)) (b.addr + need)
  have hbefore : ∀ x, x + 8 ≤ b.addr + need → read64 m₂ x = read64 h.mem x := fun x hx =>
    (read64_resize (by omega) (by omega) (by omega)).trans (read64_write64_disjoint (by omega))
  have himageRem : Image m₂ ⟨b.addr + need, b.size - need, true, true⟩ :=
    image_resize (by omega) (by omega) (read64_write64_self _ _ _)
  have hlink : ∀ x, b.addr + 16 ≤ x → x + 8 ≤ b.addr + 32 →
      read64 (carve h.mem b.addr b.size need) x = read64 h.mem x := fun x hlo hhi =>
    (read64_resize (by omega) (by omega) (by omega)).trans (hbefore x (by omega))
  refine @Core.rewrite h left right nodes b _ hcore
    [⟨b.addr, need, true, true⟩, ⟨b.addr + need, b.size - need, true, true⟩]
    ?_ ?_ ?_ ⟨_, mem_cons_self, rfl⟩
    (hlink _ (by omega) (by omega)) (hlink _ (by omega) (by omega))
  · have hrest : 16 ∣ b.size - need := Nat.dvd_sub hsizeAlign halign
    have hremMin : minBlock ≤ b.size - need := by
      show 64 ≤ b.size - need
      omega
    refine ⟨rfl, hneed, halign, rfl, hremMin, hrest, ?_⟩
    simp only [Tiled]
    omega
  · exact fun x hx => carve_outside hneed hroom (by omega) hx
  · intro c hc
    simp only [mem_cons, not_mem_nil, or_false] at hc
    rcases hc with rfl | rfl
    · exact image_resize (by omega) (by omega) ((hbefore _ (by omega)).trans hmagic)
    · refine himageRem.congr ?_ ?_
      · show 16 ≤ b.size - need
        omega
      · intro x hlo hhi
        exact resize_outside (by omega) (by omega) (.inr hlo)

end AuraLite.BoundaryTagHeap

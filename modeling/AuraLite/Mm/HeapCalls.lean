import AuraLite.Mm.HeapEdits

/-!
# Allocator calls on the arena

`taken` and `release` say what `heap_alloc` and `heap_free` do to the list of
blocks.  Each lemma of this file takes a heap that represents an arena and
shows that the call leaves a heap representing the edited arena, with the
payload of every block it did not touch unchanged.
-/

namespace AuraLite.BoundaryTagHeap

open List AuraLite.ByteMemory AuraLite.Word64 AuraLite.LinkedChain

variable {h h' : Heap} {blocks left right : List Block} {nodes : List ℕ}
variable {b c : Block} {m m' : Mem}

/-- Between calls a block is listed exactly when its header says free, and a
boundary tag that says free is right. -/
structure Consistent (nodes : List ℕ) (b : Block) : Prop where
  listed_iff : b.addr ∈ nodes ↔ b.free = true
  tag_free : b.tagFree = true → b.free = true

/-- A heap at rest represents the arena `blocks`. -/
structure Rep (h : Heap) (blocks : List Block) (nodes : List ℕ) : Prop
    extends Core h blocks nodes where
  consistent : ∀ b ∈ blocks, Consistent nodes b

theorem Consistent.congr {nodes' : List ℕ} (hcons : Consistent nodes b)
    (hmem : b.addr ∈ nodes' ↔ b.addr ∈ nodes) : Consistent nodes' b :=
  ⟨hmem.trans hcons.listed_iff, hcons.tag_free⟩

theorem Core.eq_of_addr (hcore : Core h blocks nodes) (hb : b ∈ blocks)
    (hc : c ∈ blocks) (haddr : b.addr = c.addr) : b = c :=
  hcore.tiled.eq_of_addr hcore.aligned hb hc haddr

theorem mem_beside (hc : c ∈ left ++ b :: right) (hne : c ≠ b) (mid : List Block) :
    c ∈ left ++ (mid ++ right) := by
  simp only [List.mem_append, List.mem_cons] at hc ⊢
  rcases hc with hc | hc | hc
  · exact .inl hc
  · exact absurd hc hne
  · exact .inr (.inr hc)

theorem Core.beside (hcore : Core h (left ++ b :: right) nodes) (hc : c ∈ left ++ right) :
    c.addr + c.size ≤ b.addr ∨ b.addr + b.size ≤ c.addr := by
  obtain ⟨hleft, hright⟩ := hcore.around
  have hblock := hcore.block (mem_append_right left mem_cons_self)
  rcases List.mem_append.mp hc with hc | hc
  · exact .inl (hleft.block hcore.aligned hc).2.1
  · have hstop : heapAlign ∣ b.addr + b.size := Nat.dvd_add hblock.2.2.2.1 hblock.2.2.2.2
    exact .inr (hright.block hstop hc).1

/-! ## Frames -/

theorem Core.keeps_links (hcore : Core h blocks nodes) {touched : List ℕ}
    (hagree : AgreeOffLinks touched h.mem m')
    (htouched : ∀ node ∈ touched, ∃ b ∈ blocks, b.addr = node)
    (hc : c ∈ blocks) : KeepsPayload c h.mem m' := by
  intro x hlo hhi
  apply hagree
  intro node hnode
  obtain ⟨b, hb, rfl⟩ := htouched node hnode
  exact hcore.off_link hb hc (by omega) (by omega) (by omega)

theorem keeps_outside {lo hi : ℕ} (hmem : ∀ x, x < lo ∨ hi ≤ x → m' x = m x)
    (hside : c.addr + c.size ≤ lo ∨ hi ≤ c.addr) : KeepsPayload c m m' :=
  fun x _ _ => hmem x (by omega)

/-! ## Taking a block -/

/-- The blocks `heap_alloc` leaves in the place of the block it takes. -/
def taken (b : Block) (need : ℕ) : List Block :=
  if b.size < need + 64 then [{ b with free := false, tagFree := false }]
  else
    [⟨b.addr, need, false, false⟩, ⟨b.addr + need, b.size - need, true, true⟩]

/-- Marking a listed block used, refreshing its tag and unlinking it. -/
theorem claim_spec {before after : List ℕ}
    (hcore : Core h (left ++ b :: right) (before ++ b.addr :: after)) :
    let marked : Heap := { h with mem := setFooter (setMagic h.mem b.addr heapMagicUsed) b.addr }
    Core (flRemove marked b.addr) (left ++ { b with free := false, tagFree := false } :: right)
        (before ++ after) ∧
      ∀ c ∈ left ++ right, KeepsPayload c h.mem (flRemove marked b.addr).mem := by
  intro marked
  let used : Heap := { h with mem := setMagic h.mem b.addr heapMagicUsed }
  have hused : Core used (left ++ { b with free := false } :: right) (before ++ b.addr :: after) :=
    setMagic_spec hcore false
  have hmarked : Core marked (left ++ { b with free := false, tagFree := false } :: right)
      (before ++ b.addr :: after) :=
    @setFooter_spec used left right _ { b with free := false } hused
  obtain ⟨hremoved, hagree⟩ := flRemove_spec hmarked
  refine ⟨hremoved, fun c hc => ?_⟩
  have hself : b ∈ left ++ b :: right := by simp
  have hblock := hcore.block hself
  have hsize : blockSize used.mem b.addr = b.size :=
    (hused.image { b with free := false } (by simp)).size
  have hside := hcore.beside hc
  have hmark : KeepsPayload c h.mem marked.mem := by
    refine keeps_outside (fun x hx => ?_) hside
    calc marked.mem x
        = used.mem x := setFooter_outside hsize (by omega) (by omega)
      _ = h.mem x := write64_outside (by omega)
  have hcMem : c ∈ left ++ { b with free := false, tagFree := false } :: right := mem_around hc
  exact hmark.trans (hmarked.keeps_links hagree hmarked.listed hcMem)

theorem splitBlock_spec {need : ℕ} (hcore : Core h (left ++ b :: right) nodes)
    (hfree : b.free = true) (hneed : 64 ≤ need) (halign : 16 ∣ need)
    (hroom : need + 64 ≤ b.size) :
    Core (splitBlock h b.addr need) (left ++ ⟨b.addr, need, true, true⟩ ::
          ⟨b.addr + need, b.size - need, true, true⟩ :: right)
        ((b.addr + need) :: nodes) ∧
      ∀ c ∈ left ++ right, KeepsPayload c h.mem (splitBlock h b.addr need).mem := by
  have hcarved := carve_spec hcore hfree hneed halign hroom
  have hself : b ∈ left ++ b :: right := by simp
  have hblock := hcore.block hself
  have hbound := hcore.bound
  have hfresh : b.addr + need ∉ nodes := by
    intro hnode
    obtain ⟨d, hd, hdAddr⟩ := hcore.listed _ hnode
    have hdBlock := hcore.block hd
    rcases hcore.separate hself hd with rfl | hlt | hlt <;> omega
  let rem : Block := ⟨b.addr + need, b.size - need, true, true⟩
  have hrem : rem ∈ left ++ ⟨b.addr, need, true, true⟩ :: rem :: right := by simp
  have hinserted := flInsert_spec hcarved hrem hfresh
  rw [splitBlock_eq hcore hneed hroom]
  refine ⟨hinserted, fun c hc => ?_⟩
  have hside := hcore.beside hc
  have hcarve : KeepsPayload c h.mem (carve h.mem b.addr b.size need) :=
    keeps_outside (fun x hx => carve_outside hneed hroom (by omega) hx) hside
  have hcMem : c ∈ left ++ ⟨b.addr, need, true, true⟩ :: rem :: right := mem_around (mem_around hc)
  exact hcarve.trans (hcarved.keeps_links (flInsert_agree hcarved _) hinserted.listed hcMem)

theorem splitBlock_region (h : Heap) (a need : ℕ) : (splitBlock h a need).region = h.region := by
  simp only [splitBlock]
  split_ifs <;> rfl

theorem takeBlock_region (h : Heap) (a need : ℕ) : (takeBlock h a need).region = h.region :=
  (flRemove_region _ _).trans (splitBlock_region h a need)

theorem Core.addr_ne (hcore : Core h (left ++ b :: right) nodes)
    (hc : c ∈ left ++ right) : c.addr ≠ b.addr := by
  have hself : b ∈ left ++ b :: right := by simp
  have hcMem : c ∈ left ++ b :: right := mem_around hc
  have hside := hcore.beside hc
  have hbBlock := hcore.block hself
  have hcBlock := hcore.block hcMem
  omega

/-- The blocks around `b` stay consistent when the list changes only at
addresses inside `b`. -/
theorem Rep.consistent_beside {nodes' : List ℕ} (hrep : Rep h (left ++ b :: right) nodes)
    (hnodes : ∀ node, node < b.addr ∨ b.addr + b.size ≤ node → (node ∈ nodes' ↔ node ∈ nodes)) :
    ∀ c ∈ left ++ right, Consistent nodes' c := by
  intro c hc
  have hcMem : c ∈ left ++ b :: right := mem_around hc
  have hside := hrep.beside hc
  have hcBlock := hrep.block hcMem
  exact (hrep.consistent c hcMem).congr (hnodes c.addr (by omega))

theorem takeBlock_spec {need : ℕ} (hrep : Rep h (left ++ b :: right) nodes)
    (hfree : b.free = true) (hneed : 64 ≤ need) (halign : 16 ∣ need)
    (hfit : need ≤ b.size) (hwrap : need + 64 < 2 ^ 64) :
    (∃ nodes', Rep (takeBlock h b.addr need) (left ++ (taken b need ++ right)) nodes') ∧
      ∀ c ∈ left ++ right, KeepsPayload c h.mem (takeBlock h b.addr need).mem := by
  have hself : b ∈ left ++ b :: right := by simp
  have hnode : b.addr ∈ nodes := (hrep.consistent b hself).listed_iff.mpr hfree
  obtain ⟨before, after, hnodes⟩ := append_of_mem hnode
  have hcore := hrep.toCore
  have hfresh : b.addr ∉ before ++ after := by
    have hnodup := hcore.nodup
    rw [hnodes, nodup_middle] at hnodup
    exact (List.nodup_cons.mp hnodup).1
  by_cases hsmall : b.size < need + 64
  · have hsame := splitBlock_small hcore hwrap hsmall
    rw [hnodes] at hcore
    obtain ⟨hclaimed, hkept⟩ := claim_spec hcore
    simp only [takeBlock, hsame, taken, hsmall, if_true]
    refine ⟨⟨before ++ after, hclaimed, ?_⟩, hkept⟩
    have hbeside : ∀ c ∈ left ++ right, Consistent (before ++ after) c := by
      refine hrep.consistent_beside fun node hout => ?_
      have hne : node ≠ b.addr := by have := hcore.block hself; omega
      simp [hnodes, hne]
    simp only [forall_mem_append, forall_mem_singleton] at hbeside ⊢
    exact ⟨hbeside.1, ⟨by simpa using hfresh, by simp⟩, hbeside.2⟩
  · obtain ⟨hsplit, hsplitKept⟩ :=
      splitBlock_spec hcore hfree hneed halign (by omega)
    rw [hnodes] at hsplit
    obtain ⟨hclaimed, hkept⟩ := @claim_spec (splitBlock h b.addr need) left
      (⟨b.addr + need, b.size - need, true, true⟩ :: right)
      ⟨b.addr, need, true, true⟩ ((b.addr + need) :: before) after hsplit
    simp only [takeBlock, taken, hsmall, if_false]
    refine ⟨⟨(b.addr + need) :: (before ++ after), hclaimed, ?_⟩, ?_⟩
    · have hbeside : ∀ c ∈ left ++ right, Consistent ((b.addr + need) :: (before ++ after)) c := by
        refine hrep.consistent_beside fun node hout => ?_
        have hblock := hcore.block hself
        have hne : node ≠ b.addr := by omega
        have hneRem : node ≠ b.addr + need := by omega
        simp [hnodes, hne, hneRem]
      have hused : Consistent ((b.addr + need) :: (before ++ after))
          ⟨b.addr, need, false, false⟩ := by
        refine ⟨?_, by simp⟩
        have hne : need ≠ 0 := by omega
        simpa [hne] using hfresh
      have hrem : Consistent ((b.addr + need) :: (before ++ after))
          ⟨b.addr + need, b.size - need, true, true⟩ := ⟨by simp, by simp⟩
      simp only [forall_mem_append, forall_mem_cons] at hbeside ⊢
      exact ⟨hbeside.1, ⟨hused, hrem, by simp⟩, hbeside.2⟩
    · intro c hc
      refine (hsplitKept c hc).trans (hkept c ?_)
      rcases List.mem_append.mp hc with hc | hc <;> simp [hc]

/-! ## Releasing a block -/

/-- The block being released after it absorbed a free successor, and the blocks
after it. -/
def absorbNext (b : Block) : List Block → Block × List Block
  | [] => ({ b with free := true }, [])
  | c :: right =>
    if c.free then (⟨b.addr, b.size + c.size, true, true⟩, right)
    else ({ b with free := true }, c :: right)

/-- Join a released block to a predecessor whose boundary tag says free. -/
def joinPrev (left : List Block) (b : Block) (right : List Block) :
    List Block :=
  match left.getLast? with
  | some p =>
    if p.tagFree then
      left.dropLast ++ ⟨p.addr, p.size + b.size, true, true⟩ :: right
    else left ++ b :: right
  | none => left ++ b :: right

/-- What `heap_free` does to the arena. -/
def release (left : List Block) (b : Block) (right : List Block) : List Block :=
  joinPrev left (absorbNext b right).1 (absorbNext b right).2

section

variable (hcore : Core h (left ++ b :: right) nodes) (hfree : b.free = true)
  (hunlisted : b.addr ∉ nodes) (hcons : ∀ c ∈ left ++ right, Consistent nodes c)
include hcore hfree hunlisted hcons

theorem mergeNext_spec :
    ∃ nodes', Core (mergeNext h b.addr)
          (left ++ (absorbNext b right).1 :: (absorbNext b right).2) nodes' ∧
        b.addr ∉ nodes' ∧
        (∀ c ∈ left ++ (absorbNext b right).2, Consistent nodes' c) ∧
        ∀ c ∈ left ++ right, c.free = false → KeepsPayload c h.mem (mergeNext h b.addr).mem := by
  have hself : b ∈ left ++ b :: right := by simp
  have hsize := (hcore.image b hself).size
  have hmarked : { b with free := true } = b := by rw [← hfree]
  obtain ⟨_, hright⟩ := hcore.around
  cases right with
  | nil =>
    have hlast : ¬b.addr + b.size < h.base + h.brk := by
      rw [show b.addr + b.size = h.base + h.brk from hright]
      omega
    simp only [mergeNext, hsize, hlast, if_false, absorbNext, hmarked]
    exact ⟨nodes, hcore, hunlisted, hcons, fun _ _ _ _ _ _ => rfl⟩
  | cons next rest =>
    have hnext : next ∈ left ++ b :: next :: rest := by simp
    obtain ⟨haddr, _, _, hrest⟩ := hright
    have hnextBlock := hcore.block hnext
    have hinside : b.addr + b.size < h.base + h.brk := by omega
    have hmagic := (hcore.image next hnext).magic
    rw [haddr] at hmagic
    cases hnextFree : next.free with
    | false =>
      have hnot : ¬blockMagic h.mem (b.addr + b.size) = heapMagicFree := by
        rw [hmagic, magicOf_eq_free_iff, hnextFree]
        simp
      simp only [mergeNext, hsize, hinside, if_true, hnot, if_false, absorbNext, hnextFree, hmarked]
      exact ⟨nodes, hcore, hunlisted, hcons, fun _ _ _ _ _ _ => rfl⟩
    | true =>
      have hyes : blockMagic h.mem (b.addr + b.size) = heapMagicFree := by
        rw [hmagic, magicOf_eq_free_iff, hnextFree]
      have hnextNode : next.addr ∈ nodes := (hcons next (by simp)).listed_iff.mpr hnextFree
      obtain ⟨before, after, hnodes⟩ := append_of_mem hnextNode
      have hnodup := hcore.nodup
      rw [hnodes, nodup_middle, nodup_cons] at hnodup
      rw [hnodes] at hcore
      obtain ⟨hremoved, hagree⟩ := flRemove_spec hcore
      have hbSize := (hremoved.image b hself).size
      have hnextSize := (hremoved.image next hnext).size
      have habsorbed := absorb_spec hremoved hnodup.1
      rw [hfree] at habsorbed
      rw [haddr] at hbSize hnextSize habsorbed hagree
      simp only [mergeNext, hsize, hinside, if_true, hyes, absorbNext, hnextFree, hbSize, hnextSize]
      refine ⟨before ++ after, habsorbed, ?_, ?_, ?_⟩
      · intro hmem
        apply hunlisted
        rw [hnodes]
        rcases List.mem_append.mp hmem with hmem | hmem <;> simp [hmem]
      · intro c hc
        have hside : c.addr + c.size ≤ b.addr ∨ b.addr + (b.size + next.size) ≤ c.addr :=
          habsorbed.beside hc
        have hcBlock := hcore.block (mem_around (mem_around hc))
        have hne : c.addr ≠ next.addr := by omega
        exact (hcons c (mem_around hc)).congr (by simp [hnodes, hne])
      · intro c hc hused
        have hcNe : c ≠ next := by
          rintro rfl
          simp [hnextFree] at hused
        have hunlink := hcore.keeps_links hagree (haddr ▸ hcore.listed) (mem_around hc)
        have hbound := hcore.bound
        refine hunlink.trans (keeps_outside (fun x hx => resize_outside ?_ ?_ hx)
          (habsorbed.beside (mem_beside hc hcNe [])))
        · omega
        · omega

theorem mergePrev_spec :
    (∃ nodes', Rep (mergePrev h b.addr) (joinPrev left b right) nodes') ∧
      (∀ c ∈ left ++ right, c.free = false → KeepsPayload c h.mem (mergePrev h b.addr).mem) ∧
      blockMagic (mergePrev h b.addr).mem b.addr = heapMagicFree := by
  have hself : b ∈ left ++ b :: right := by simp
  have hsize := (hcore.image b hself).size
  have hbBlock := hcore.block hself
  have hpush : (∃ nodes', Rep (flInsert h b.addr) (left ++ b :: right) nodes') ∧
      (∀ c ∈ left ++ right, c.free = false → KeepsPayload c h.mem (flInsert h b.addr).mem) ∧
      blockMagic (flInsert h b.addr).mem b.addr = heapMagicFree := by
    have hinserted := flInsert_spec hcore hself hunlisted
    refine ⟨⟨b.addr :: nodes, hinserted, ?_⟩, ?_, ?_⟩
    · have hbeside : ∀ c ∈ left ++ right, Consistent (b.addr :: nodes) c :=
        fun c hc => (hcons c hc).congr (by simp [hcore.addr_ne hc])
      have hb : Consistent (b.addr :: nodes) b := ⟨by simp [hfree], fun _ => hfree⟩
      simp only [forall_mem_append, forall_mem_cons] at hbeside ⊢
      exact ⟨hbeside.1, hb, hbeside.2⟩
    · intro c hc _
      have hcMem : c ∈ left ++ b :: right := mem_around hc
      exact hcore.keeps_links (flInsert_agree hcore b.addr) hinserted.listed hcMem
    · rw [(hinserted.image b hself).magic, hfree]
      rfl
  obtain ⟨hleft, _⟩ := hcore.around
  rcases eq_nil_or_concat' left with rfl | ⟨front, prev, rfl⟩
  · have hfirst : ¬h.base < b.addr := by
      rw [show h.base = b.addr from hleft]
      omega
    simp only [mergePrev, hfirst, false_and, if_false]
    exact hpush
  · have hprevMem : prev ∈ front ++ [prev] ++ b :: right := by simp
    have himage := hcore.image prev hprevMem
    have hprevBlock := hcore.block hprevMem
    obtain ⟨mid, _, haddr, _, _, hstop⟩ := tiled_append.mp hleft
    have hstop' : prev.stop = b.addr := by
      rw [← show mid + prev.size = b.addr from hstop, Block.stop, haddr]
    have htag := himage.tagMagic
    have htagSize := himage.tagSize
    rw [hstop'] at htag htagSize
    have htagSize' : read64 h.mem (b.addr - footerSize + 8) = prev.size := by
      have hword : b.addr - footerSize + 8 = b.addr - 8 := by
        rw [Block.stop] at hstop'
        simp only [footerSize]
        omega
      rw [hword, htagSize]
    have hafter : h.base < b.addr := by
      rw [← hstop', Block.stop]
      omega
    have hprevAddr : b.addr - prev.size = prev.addr := by
      rw [← hstop', Block.stop]
      omega
    cases hprevTag : prev.tagFree with
    | false =>
      have hnot : ¬read64 h.mem (b.addr - footerSize) = heapMagicFree := by
        rw [show footerSize = 16 from rfl, htag, hprevTag]
        decide
      simp only [mergePrev, hafter, hnot, and_false, if_false, joinPrev,
        getLast?_concat, hprevTag, Bool.false_eq_true]
      exact hpush
    | true =>
      have hyes : read64 h.mem (b.addr - footerSize) = heapMagicFree := by
        rw [show footerSize = 16 from rfl, htag, hprevTag]
        rfl
      have hprevCons := hcons prev (by simp)
      have hprevFree := hprevCons.tag_free hprevTag
      have hcore' : Core h (front ++ prev :: b :: right) nodes := by
        simpa using hcore
      have habsorbed := absorb_spec hcore' hunlisted
      rw [hprevFree] at habsorbed
      simp only [mergePrev, hafter, hyes, and_self, if_true, htagSize',
        hprevAddr, himage.size, hsize, joinPrev, getLast?_concat,
        hprevTag, dropLast_concat]
      have hbound := hcore.bound
      rw [Block.stop] at hstop'
      refine ⟨⟨nodes, habsorbed, ?_⟩, ?_, ?_⟩
      · have hgrown : Consistent nodes ⟨prev.addr, prev.size + b.size, true, true⟩ :=
          ⟨by simpa [hprevFree] using hprevCons.listed_iff, by simp⟩
        simp only [forall_mem_append, forall_mem_cons] at hcons ⊢
        exact ⟨hcons.1.1, hgrown, hcons.2⟩
      · intro c hc hused
        have hcNe : c ≠ prev := by
          rintro rfl
          simp [hprevFree] at hused
        have hother : c ∈ front ++ right := mem_beside (by simpa using hc) hcNe []
        exact keeps_outside (fun x hx => resize_outside (by omega) (by omega) hx)
          (habsorbed.beside hother)
      · -- the header of `b` is payload now, and nothing is stored there
        have hmagic := (hcore.image b hself).magic
        rw [hfree] at hmagic
        exact (read64_resize (by omega) (by omega) (by omega)).trans hmagic

end

theorem mergeNext_region (h : Heap) (a : ℕ) : (mergeNext h a).region = h.region := by
  simp only [mergeNext]
  split_ifs
  · simpa only [Heap.region] using flRemove_region h _
  · rfl
  · rfl

theorem mergePrev_region (h : Heap) (a : ℕ) : (mergePrev h a).region = h.region := by
  simp only [mergePrev]
  split_ifs <;> rfl

theorem heapFree_region (h : Heap) (ptr : ℕ) : (heapFree h ptr).region = h.region := by
  simp only [heapFree]
  split_ifs
  · rfl
  · rfl
  · exact (mergePrev_region _ _).trans (mergeNext_region _ _)

theorem absorbNext_marked (b : Block) (right : List Block) :
    absorbNext { b with free := true } right = absorbNext b right := by
  cases right <;> rfl

theorem absorbNext_addr (b : Block) (right : List Block) : (absorbNext b right).1.addr = b.addr ∧
      (absorbNext b right).1.free = true := by
  cases right with
  | nil => exact ⟨rfl, rfl⟩
  | cons next rest =>
    simp only [absorbNext]
    split_ifs <;> exact ⟨rfl, rfl⟩

theorem mem_absorbNext_of_used (hc : c ∈ right) (hused : c.free = false) :
    c ∈ (absorbNext b right).2 := by
  cases right with
  | nil => exact hc
  | cons next rest =>
    simp only [absorbNext]
    split_ifs with hfree
    · rcases List.mem_cons.mp hc with rfl | hc
      · simp [hused] at hfree
      · exact hc
    · exact hc

/-- `heap_free` of a used block releases it in the arena and leaves the payload
of every other used block alone. -/
theorem heapFree_spec (hrep : Rep h (left ++ b :: right) nodes) (hused : b.free = false) :
    (∃ nodes', Rep (heapFree h (b.addr + headerSize)) (release left b right) nodes') ∧
      (∀ c ∈ left ++ right, c.free = false →
        KeepsPayload c h.mem (heapFree h (b.addr + headerSize)).mem) ∧
      blockMagic (heapFree h (b.addr + headerSize)).mem b.addr = heapMagicFree := by
  have hself : b ∈ left ++ b :: right := by simp
  have hmagic := (hrep.image b hself).magic
  have hunlisted : b.addr ∉ nodes := by
    rw [(hrep.consistent b hself).listed_iff, hused]
    simp
  have hcons : ∀ c ∈ left ++ right, Consistent nodes c := by
    intro c hc
    exact hrep.consistent c (mem_around hc)
  let marked : Heap := { h with mem := setMagic h.mem b.addr heapMagicFree }
  have hmarked : Core marked (left ++ { b with free := true } :: right) nodes :=
    setMagic_spec hrep.toCore true
  obtain ⟨nodes₁, hnext, hunlisted₁, hcons₁, hkeptNext⟩ :=
    mergeNext_spec hmarked rfl hunlisted hcons
  rw [absorbNext_marked] at hnext hcons₁
  obtain ⟨haddr, hfree⟩ := absorbNext_addr b right
  obtain ⟨hprev, hkeptPrev, hfreed⟩ := mergePrev_spec hnext hfree (haddr ▸ hunlisted₁) hcons₁
  have hbBlock := hrep.block hself
  have hpos := hrep.base_pos
  have hsub : b.addr + headerSize - headerSize = b.addr := by omega
  have hmagicUsed : ¬blockMagic h.mem b.addr ≠ heapMagicUsed := by
    rw [hmagic, hused]
    decide
  have hptr : b.addr + headerSize ≠ 0 := by
    simp only [headerSize]
    omega
  have hcall : heapFree h (b.addr + headerSize) = mergePrev (mergeNext marked b.addr) b.addr := by
    simp only [heapFree, hptr, if_false, hsub, hmagicUsed, marked]
  rw [haddr] at hprev hkeptPrev hfreed
  rw [hcall]
  refine ⟨hprev, fun c hc hcUsed => ?_, hfreed⟩
  have hmark : KeepsPayload c h.mem marked.mem :=
    keeps_outside (fun x hx => write64_outside (by omega)) (hrep.beside hc)
  have hcMem : c ∈ left ++ (absorbNext b right).2 := by
    rcases List.mem_append.mp hc with hc | hc
    · exact mem_append_left _ hc
    · exact mem_append_right _ (mem_absorbNext_of_used hc hcUsed)
  exact (hmark.trans (hkeptNext c hc hcUsed)).trans (hkeptPrev c hcMem hcUsed)


end AuraLite.BoundaryTagHeap

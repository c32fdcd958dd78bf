import AuraLite.Mm.SizeClassInvariant

/-!
# Runs of the kernel heap

What callers of `kmalloc` may rely on, read off the bytes of the heap: live
allocations are distinct, long enough and do not overlap, the class lists hold
used blocks of their class only, and draining gives every block back.  This
holds along every run whose sizes survive the rounding of the heap; without that
condition one call returns a block without payload.
-/

namespace AuraLite.SizeClass

open AuraLite.ByteMemory AuraLite.BoundaryTagHeap AuraLite.LinkedChain
open AuraLite.Reachability

/-- The front as its bytes show it, with the class lists `lists` and the heap
free list `nodes`. -/
structure TransparentAs (s : KSession) (lists : ClassIndex → List ℕ)
    (nodes : List ℕ) : Prop where
  free_list : Chain (blockNext s.kheap.heap.mem) (blockPrev s.kheap.heap.mem) 0
    s.kheap.heap.freeList nodes
  live_long : ∀ entry ∈ s.live, headerSize + entry.2 + footerSize ≤
    blockSize s.kheap.heap.mem (entry.1 - headerSize)
  live_apart : s.live.Pairwise fun p q => p.1 ≠ q.1 ∧
    (payloadEnd s.kheap.heap.mem p.1 ≤ q.1 ∨
      payloadEnd s.kheap.heap.mem q.1 ≤ p.1)
  stack : ∀ ci, Stack (read64 s.kheap.heap.mem) (s.kheap.cache.head ci) (lists ci)
  counted : ∀ ci, (lists ci).length = s.kheap.cache.count ci
  capped : ∀ ci, s.kheap.cache.count ci ≤ sizeclassCap
  cached_used : ∀ ci, ∀ p ∈ lists ci,
    blockMagic s.kheap.heap.mem (p - headerSize) = heapMagicUsed ∧
      p - headerSize ∉ nodes
  cached_payload : ∀ ci, ∀ p ∈ lists ci,
    headerSize + sizeclassBytes ci + footerSize ≤
        blockSize s.kheap.heap.mem (p - headerSize) ∧
      blockSize s.kheap.heap.mem (p - headerSize) <
        headerSize + 2 * sizeclassBytes ci + footerSize

def Transparent (s : KSession) : Prop :=
  ∃ lists nodes, TransparentAs s lists nodes

/-- The headers tile the committed region and none is marked used. -/
def NothingUsed (h : Heap) : Prop :=
  ∃ headers, h.headers = some headers ∧
    ∀ b ∈ headers, blockMagic h.mem b ≠ heapMagicUsed

variable {s s' : KSession} {blocks : List Block}
variable {lists : ClassIndex → List ℕ}

open KSession

theorem Fronted.transparent (hfront : Fronted s blocks lists) : Transparent s := by
  obtain ⟨nodes, hrep⟩ := hfront.good.rep
  have hbacked : ∀ entry ∈ s.live ++ cachedEntries lists, ∃ b,
      UsedIn blocks b ∧ entry.1 - headerSize = b.addr ∧
        entry.1 = b.addr + 32 ∧ entry.2 + 48 ≤ b.size := by
    intro entry hentry
    obtain ⟨b, hb, hptr, hlong⟩ := hfront.good.owned.backed entry hentry
    exact ⟨b, hb, by omega, hptr, hlong⟩
  have hcached : ∀ ci, ∀ p ∈ lists ci, ∃ b, UsedIn blocks b ∧
      p - headerSize = b.addr ∧ sizeclassBytes ci + 48 ≤ b.size ∧
        b.size < 48 + 2 * sizeclassBytes ci := by
    intro ci p hp
    obtain ⟨b, hb, hptr, hlow⟩ := hfront.cached_mem hp
    exact ⟨b, hb, by omega, hlow, (hfront.cached ci).narrow p hp b hb hptr⟩
  refine ⟨lists, nodes, hrep.chain, ?_, ?_, fun ci => (hfront.cached ci).stack,
    fun ci => (hfront.cached ci).count.symm, ?_, ?_, ?_⟩
  · intro entry hentry
    obtain ⟨b, hb, hsub, _, hlong⟩ := hbacked entry (List.mem_append_left _ hentry)
    rw [hsub, (hrep.image b hb.1).size]
    simp only [headerSize, footerSize]
    omega
  · obtain ⟨_, _, hwf⟩ := hfront.good.wellFormed
    have hapart := (List.pairwise_append.mp hwf.live_disjoint).1
    have hnodup := hfront.good.owned.nodup
    rw [List.map_append] at hnodup
    exact (List.pairwise_map.mp (List.nodup_append.mp hnodup).1).and hapart
  · intro ci
    rw [(hfront.cached ci).count]
    exact (hfront.cached ci).cap
  · intro ci p hp
    obtain ⟨b, hb, hsub, _⟩ := hcached ci p hp
    rw [hsub, (hrep.image b hb.1).magic, magicOf_eq_used_iff,
      (hrep.consistent b hb.1).listed_iff, hb.2]
    exact ⟨rfl, by simp⟩
  · intro ci p hp
    obtain ⟨b, hb, hsub, hlow, hhigh⟩ := hcached ci p hp
    rw [hsub, (hrep.image b hb.1).size]
    simp only [headerSize, footerSize]
    omega

theorem Fronted.nothingUsed (hfront : Fronted s blocks fun _ => [])
    (hlive : s.live = []) : NothingUsed s.kheap.heap := by
  obtain ⟨nodes, hrep⟩ := hfront.good.rep
  refine ⟨_, hrep.headers_eq, fun a ha => ?_⟩
  obtain ⟨b, hb, rfl⟩ := List.mem_map.mp ha
  rw [(hrep.image b hb).magic, Ne, magicOf_eq_used_iff]
  intro hused
  have hheld := hfront.good.owned.held b ⟨hb, hused⟩
  simp [hlive, cachedEntries] at hheld

theorem cachedEntries_nil : cachedEntries (fun _ => []) = [] :=
  List.flatMap_eq_nil_iff.mpr fun _ _ => rfl

theorem fronted_start (region : Region) (mem : Mem) :
    Fronted (KSession.start region mem) [] fun _ => [] := by
  have hgood := good_start region mem
  refine ⟨?_, fun _ => ⟨rfl, rfl, Nat.zero_le _, nofun⟩⟩
  rw [cachedEntries_nil]
  exact hgood

theorem reaches_fronted {region : Region} {mem : Mem}
    (hrun : Reaches (guarded (fun s call => call.Fits s) KSession.Step)
      (KSession.start region mem) s) :
    ∃ blocks lists, Fronted s blocks lists := by
  refine @Reaches.invariant _ _ _ _ _ (fun s => ∃ blocks lists, Fronted s blocks lists)
    hrun ⟨_, _, fronted_start region mem⟩ ?_
  rintro before call after ⟨blocks, lists, hfront⟩ ⟨hfits, hstep⟩
  obtain ⟨s', blocks', lists', hs', hfront'⟩ := hfront.step hfits (held_of_step hstep)
  rw [Step, hs', Option.some.injEq] at hstep
  exact hstep ▸ ⟨blocks', lists', hfront'⟩

/-- Along every run of fitting calls the front is transparent, and draining it
returns, leaving nothing used once nothing is live. -/
theorem front_transparent_of_fits (region : Region) (mem : Mem) (s : KSession)
    (hrun : Reaches (guarded (fun s call => call.Fits s) KSession.Step)
      (KSession.start region mem) s) :
    Transparent s ∧ ∃ s', s.Step .drain s' ∧ (s.live = [] → NothingUsed s'.kheap.heap) := by
  obtain ⟨blocks, lists, hfront⟩ := reaches_fronted hrun
  obtain ⟨k, blocks', hcall, hdrained⟩ := hfront.drain
  refine ⟨hfront.transparent, ⟨k, s.live⟩, ?_, hdrained.nothingUsed⟩
  simp only [Step, step, hcall, Option.map_some]

/-- A block that `heap_free` took back is no longer marked used. -/
theorem Fronted.freed_magic (hfront : Fronted s blocks lists) {b : Block} (hb : UsedIn blocks b) :
    blockMagic (kheapFree s.kheap (b.addr + headerSize)).heap.mem b.addr = heapMagicFree := by
  obtain ⟨nodes, hrep⟩ := hfront.good.rep
  obtain ⟨left, right, rfl⟩ := List.append_of_mem hb.1
  exact (heapFree_spec hrep hb.2).2.2

/-- A second `kfree` of a block that the cache does not take changes nothing, and in no later
run is an address handed out twice. -/
theorem double_kfree_refused (region : Region) (mem : Mem) (s : KSession)
    (hrun : Reaches (guarded (fun s call => call.Fits s) KSession.Step)
      (KSession.start region mem) s) (ptr : ℕ) (hlive : ptr ∈ s.live.map Prod.fst)
    (hfull : ∀ ci, sizeclassForPayload (blockSize s.kheap.heap.mem (ptr - headerSize) -
      headerSize - footerSize) = some ci → sizeclassCap ≤ s.kheap.cache.count ci) :
    kfree (kfree s.kheap ptr) ptr = kfree s.kheap ptr ∧
      ∀ s', Reaches (guarded (fun s call => call.Fits s) KSession.Step)
          ⟨kfree (kfree s.kheap ptr) ptr, dropPtr s.live ptr⟩ s' →
        (s'.live.map Prod.fst).Nodup := by
  obtain ⟨blocks, lists, hfront⟩ := reaches_fronted hrun
  obtain ⟨b, hb, rfl⟩ := hfront.backed hlive
  have hsub : b.addr + headerSize - headerSize = b.addr := Nat.add_sub_cancel _ _
  have htwice : kfree (kfree s.kheap (b.addr + headerSize)) (b.addr + headerSize) =
      kfree s.kheap (b.addr + headerSize) := by
    obtain ⟨k, hscrub, hfreed | ⟨ci, hclass, hcap, -⟩⟩ := hfront.kfree_eq hlive hb
    · have hmagic : blockMagic (kheapFree k (b.addr + headerSize)).heap.mem b.addr ≠
          heapMagicUsed := by
        rw [hscrub.freed_magic hb]
        decide
      rw [hfreed]
      generalize kheapFree k (b.addr + headerSize) = freed at hmagic
      simp only [kfree, kheapFree, heapFree, hsub, hmagic, ne_eq, not_false_eq_true, false_and,
        and_false, if_true, if_false, ite_self]
    · obtain ⟨nodes, hrep⟩ := hfront.good.rep
      rw [hsub, (hrep.image b hb.1).size] at hfull
      exact absurd hcap (hfull ci hclass).not_gt
  refine ⟨htwice, fun s' hafter => ?_⟩
  have hstep : guarded (fun s call => call.Fits s) Step s (.kfree (b.addr + headerSize))
      ⟨kfree s.kheap (b.addr + headerSize), dropPtr s.live (b.addr + headerSize)⟩ :=
    ⟨trivial, if_pos hlive⟩
  rw [htwice] at hafter
  obtain ⟨blocks', lists', hfront'⟩ := reaches_fronted ((hrun.tail hstep).trans hafter)
  exact (List.nodup_append.mp (List.map_append ▸ hfront'.good.owned.nodup)).1

instance (s : KSession) (call : KCall) : Decidable (call.Fits s) := by
  cases call <;> unfold KCall.Fits <;> infer_instance

/-- Two objects of one class are freed into the cache and one is served again. -/
theorem front_transparent_after_recycling :
    ∃ s, Reaches (guarded (fun s call => call.Fits s) KSession.Step)
        (KSession.start kernelRegion fun _ => 0) s ∧
      (s.live.map Prod.snd, s.kheap.cache.count ⟨1, by decide⟩) = ([20], 1) ∧
      Transparent s := by
  have hrun : (runChecked step (fun s call => decide (call.Fits s))
      (start kernelRegion fun _ => 0)
      [.kmalloc 32 plentiful, .kmalloc 30 plentiful, .kfree (kernelRegion.base + headerSize),
        .kfree (kernelRegion.base + 80 + headerSize),
        .kmalloc 20 plentiful]).map
      (fun s => (s.live.map Prod.snd, s.kheap.cache.count ⟨1, by decide⟩)) = some ([20], 1) := by
    decide +kernel
  obtain ⟨s, hreaches, hfields⟩ := reaches_of_runChecked hrun
  exact ⟨s, hreaches, hfields, (front_transparent_of_fits kernelRegion (fun _ => 0) s hreaches).1⟩

/-- A block of two pages goes back to the heap at once. -/
theorem double_kfree_refused_page : ∃ s, Reaches (guarded (fun s call => call.Fits s) KSession.Step)
      (KSession.start kernelRegion fun _ => 0) s ∧
    kfree (kfree s.kheap (kernelRegion.base + headerSize)) (kernelRegion.base + headerSize) =
      kfree s.kheap (kernelRegion.base + headerSize) := by
  have hrun : (runChecked step (fun s call => decide (call.Fits s))
      (start kernelRegion fun _ => 0) [.kmalloc 8192 plentiful]).map (fun s =>
        (s.live.map Prod.fst, blockSize s.kheap.heap.mem kernelRegion.base)) =
      some ([kernelRegion.base + headerSize], 8240) := by
    decide +kernel
  obtain ⟨s, hreaches, hfields⟩ := reaches_of_runChecked hrun
  obtain ⟨hlive, hsize⟩ := Prod.mk.injEq .. ▸ hfields
  refine ⟨s, hreaches, (double_kfree_refused kernelRegion (fun _ => 0) s hreaches _
    (hlive ▸ List.mem_singleton_self _) ?_).1⟩
  rw [Nat.add_sub_cancel, hsize]
  intro ci hclass
  cases hclass.symm.trans (by decide : _ = none)

/-- An object of 32 bytes is parked twice and then handed out twice. -/
theorem double_kfree_serves_twice : ((KSession.start kernelRegion fun _ => 0).step
      (.kmalloc 32 plentiful)).bind (fun s =>
        let ptr := kernelRegion.base + headerSize
        (kmalloc (kheapExpand plentiful) (kfree (kfree s.kheap ptr) ptr) 32).bind fun first =>
          (kmalloc (kheapExpand plentiful) first.1 32).map fun second =>
            (s.live.map Prod.fst, first.2, second.2)) =
    some ([kernelRegion.base + headerSize], kernelRegion.base + headerSize,
      kernelRegion.base + headerSize) := by
  decide +kernel

/-- A request of all address space wraps to a block that holds its tags and no
payload, and is handed out. -/
theorem kmalloc_huge_wraps : ∃ s, Reaches KSession.Step (KSession.start kernelRegion fun _ => 0) s ∧
      ¬Transparent s := by
  have hrun : ((start kernelRegion fun _ => 0).step
      (.kmalloc (2 ^ 64 - 1) plentiful)).map (fun s =>
        decide (∀ entry ∈ s.live, headerSize + entry.2 + footerSize ≤
          blockSize s.kheap.heap.mem (entry.1 - headerSize))) = some false := by
    decide +kernel
  obtain ⟨s, hstep, hshort⟩ := Option.map_eq_some_iff.mp hrun
  refine ⟨s, (Reaches.refl _ _).tail hstep, ?_⟩
  rintro ⟨lists, nodes, hfront⟩
  exact of_decide_eq_false hshort hfront.live_long

end AuraLite.SizeClass

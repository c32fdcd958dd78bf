import AuraLite.Mm.HeapSession

/-!
# The heap representation invariant

`WellFormed` reads the heap back from its bytes: the headers walked from the
base, the boundary tags, the free list and the live payloads.  It holds along
every run whose request sizes survive the rounding of `required_block_size` and
`kheap_expand`, and a run with a single larger size breaks it.
-/

namespace AuraLite.BoundaryTagHeap

open List AuraLite.ByteMemory AuraLite.Word64 AuraLite.LinkedChain
open AuraLite.Reachability

/-- The block addresses from `addr` to `stop`, following the sizes in the
headers; `none` when the walk does not meet `stop` exactly. -/
def walkBlocks (m : Mem) (stop : ℕ) : ℕ → ℕ → Option (List ℕ)
  | 0, _ => none
  | fuel + 1, addr =>
    if addr = stop then some []
    else if stop < addr then none
    else (walkBlocks m stop fuel (addr + blockSize m addr)).map (addr :: ·)

/-- The blocks of the committed region. -/
def Heap.headers (h : Heap) : Option (List ℕ) :=
  walkBlocks h.mem (h.base + h.brk) (h.brk + 1) h.base

/-- One past the last payload byte of the block behind `ptr`. -/
def payloadEnd (m : Mem) (ptr : ℕ) : ℕ :=
  blockFooter m (ptr - headerSize)

/-- The heap as its bytes show it, with the walked blocks `headers` and the
free list `nodes`. -/
structure WellFormedAs (s : Session) (headers nodes : List ℕ) : Prop where
  tiles : s.heap.headers = some headers
  footer_size : ∀ b ∈ headers,
    read64 s.heap.mem (blockFooter s.heap.mem b + 8) = blockSize s.heap.mem b
  chain : Chain (blockNext s.heap.mem) (blockPrev s.heap.mem) 0 s.heap.freeList
    nodes
  acyclic : nodes.Nodup
  listed_iff : ∀ b, b ∈ nodes ↔
    b ∈ headers ∧ blockMagic s.heap.mem b = heapMagicFree
  live_used : ∀ entry ∈ s.live, entry.1 - headerSize ∈ headers ∧
    blockMagic s.heap.mem (entry.1 - headerSize) = heapMagicUsed
  live_aligned : ∀ entry ∈ s.live, heapAlign ∣ entry.1
  live_long : ∀ entry ∈ s.live, headerSize + entry.2 + footerSize ≤
    blockSize s.heap.mem (entry.1 - headerSize)
  live_disjoint : s.live.Pairwise fun p q =>
    payloadEnd s.heap.mem p.1 ≤ q.1 ∨ payloadEnd s.heap.mem q.1 ≤ p.1

def WellFormed (s : Session) : Prop :=
  ∃ headers nodes, WellFormedAs s headers nodes

/-- Live payloads the call was not given are the same before and after. -/
def PayloadsKept (s : Session) (call : Call) (s' : Session) : Prop :=
  ∀ entry ∈ s.live, call.target ≠ some entry.1 →
    ∀ x, entry.1 ≤ x → x < payloadEnd s.heap.mem entry.1 →
      s'.heap.mem x = s.heap.mem x

/-- `HEADER + FOOTER + size` does not wrap. -/
def Call.TagsFit (_ : Session) : Call → Prop
  | .alloc size _ => headerSize + footerSize + size < 2 ^ 64
  | .free _ => True
  | .realloc _ size _ => headerSize + footerSize + size < 2 ^ 64
  | .store _ _ _ => True

variable {h : Heap} {blocks : List Block} {nodes : List ℕ} {b : Block}
variable {s s' : Session} {call : Call} {m : Mem}

/-! ## From the arena to the bytes -/

open Session

theorem walkBlocks_tiled {lo hi fuel : ℕ} (htiled : Tiled lo hi blocks)
    (himage : ∀ b ∈ blocks, Image m b) (hfuel : blocks.length < fuel) :
    walkBlocks m hi fuel lo = some (blocks.map Block.addr) := by
  induction blocks generalizing lo fuel with
  | nil =>
    obtain ⟨fuel, rfl⟩ := Nat.exists_eq_succ_of_ne_zero (by omega : fuel ≠ 0)
    simp only [walkBlocks, map_nil]
    rw [if_pos (show lo = hi from htiled)]
  | cons first rest ih =>
    obtain ⟨fuel, rfl⟩ := Nat.exists_eq_succ_of_ne_zero (by omega : fuel ≠ 0)
    obtain ⟨rfl, hmin, _, hrest⟩ := htiled
    have hsize : 64 ≤ first.size := hmin
    have hle := hrest.le
    have hhead := (himage first mem_cons_self).size
    have htail := ih hrest (fun b hb => himage b (mem_cons_of_mem _ hb))
      (Nat.lt_of_succ_lt_succ hfuel)
    simp only [walkBlocks, hhead, htail, Option.map_some, map_cons]
    rw [if_neg (by omega), if_neg (by omega)]

theorem Core.headers_eq (hcore : Core h blocks nodes) :
    h.headers = some (blocks.map Block.addr) := by
  have hlength := hcore.tiled.length_le
  exact walkBlocks_tiled hcore.tiled hcore.image (by omega)

theorem Image.footer_eq (himage : Image m b) (hsize : 64 ≤ b.size) :
    blockFooter m b.addr = b.addr + b.size - 16 ∧ read64 m (blockFooter m b.addr + 8) = b.size ∧
      read64 m (blockFooter m b.addr) = magicOf b.tagFree := by
  have hfooter : blockFooter m b.addr = b.addr + b.size - 16 := by
    rw [blockFooter, himage.size]
    rfl
  have htag := himage.tagMagic
  have htagSize := himage.tagSize
  rw [Block.stop] at htag htagSize
  refine ⟨hfooter, ?_, hfooter ▸ htag⟩
  rw [hfooter, show b.addr + b.size - 16 + 8 = b.addr + b.size - 8 by omega, htagSize]

theorem Good.wellFormed (hgood : Good s blocks) : WellFormed s := by
  obtain ⟨nodes, hrep⟩ := hgood.rep
  have hbacked : ∀ entry ∈ s.live, ∃ b, UsedIn blocks b ∧
      entry.1 - headerSize = b.addr ∧ entry.1 = b.addr + 32 ∧
      entry.2 + 48 ≤ b.size := by
    intro entry hentry
    obtain ⟨b, hb, hptr, hlong⟩ := hgood.owned.backed entry hentry
    exact ⟨b, hb, by omega, hptr, hlong⟩
  refine ⟨blocks.map Block.addr, nodes, hrep.headers_eq, ?_, hrep.chain,
    hrep.nodup, ?_, ?_, ?_, ?_, ?_⟩
  · intro a ha
    obtain ⟨b, hb, rfl⟩ := mem_map.mp ha
    rw [((hrep.image b hb).footer_eq (hrep.block hb).2.2.1).2.1, (hrep.image b hb).size]
  · intro a
    constructor
    · intro ha
      obtain ⟨b, hb, rfl⟩ := hrep.listed a ha
      refine ⟨mem_map_of_mem hb, ?_⟩
      rw [(hrep.image b hb).magic, magicOf_eq_free_iff]
      exact (hrep.consistent b hb).listed_iff.mp ha
    · rintro ⟨ha, hmagic⟩
      obtain ⟨b, hb, rfl⟩ := mem_map.mp ha
      rw [(hrep.image b hb).magic, magicOf_eq_free_iff] at hmagic
      exact (hrep.consistent b hb).listed_iff.mpr hmagic
  · intro entry hentry
    obtain ⟨b, hb, hsub, _⟩ := hbacked entry hentry
    rw [hsub, (hrep.image b hb.1).magic, magicOf_eq_used_iff]
    exact ⟨mem_map_of_mem hb.1, hb.2⟩
  · intro entry hentry
    obtain ⟨b, hb, _, hptr, _⟩ := hbacked entry hentry
    rw [hptr]
    exact Nat.dvd_add (hrep.block hb.1).2.2.2.1 (by decide)
  · intro entry hentry
    obtain ⟨b, hb, hsub, _, hlong⟩ := hbacked entry hentry
    rw [hsub, (hrep.image b hb.1).size]
    simp only [headerSize, footerSize]
    omega
  · have hnodup := pairwise_map.mp hgood.owned.nodup
    refine hnodup.imp_of_mem fun {p q} hp hq hne => ?_
    obtain ⟨b, hb, hsubB, hptrB, _⟩ := hbacked p hp
    obtain ⟨c, hc, hsubC, hptrC, _⟩ := hbacked q hq
    have hbBlock := hrep.block hb.1
    have hcBlock := hrep.block hc.1
    have hbFooter := ((hrep.image b hb.1).footer_eq hbBlock.2.2.1).1
    have hcFooter := ((hrep.image c hc.1).footer_eq hcBlock.2.2.1).1
    rw [payloadEnd, payloadEnd, hsubB, hsubC, hbFooter, hcFooter]
    rcases hrep.separate hb.1 hc.1 with heq | hlt | hlt
    · rw [heq] at hptrB
      exact absurd (hptrB.trans hptrC.symm) hne
    · exact .inl (by omega)
    · exact .inr (by omega)

/-! ## Steps and runs -/

/-- The caller holds the pointer it passes and stores inside its request. -/
def Call.Held (s : Session) : Call → Prop
  | .alloc _ _ => True
  | .free ptr => ptr ∈ s.live.map Prod.fst
  | .realloc ptr _ _ => ptr ∈ s.live.map Prod.fst
  | .store ptr offset _ => ∃ entry ∈ s.live, entry.1 = ptr ∧ offset < entry.2

theorem Session.held_of_step (hstep : s.step call = some s') : call.Held s := by
  cases call with
  | alloc size supply => exact trivial
  | _ =>
    by_contra hheld
    rw [Call.Held] at hheld
    rw [step, if_neg hheld] at hstep
    cases hstep

/-- The frame of a call in terms of the arena. -/
def Kept (blocks : List Block) (call : Call) (m m' : Mem) : Prop :=
  ∀ c, UsedIn blocks c → call.target ≠ some (c.addr + headerSize) →
    KeepsPayload c m m'

/-- A store inside a request changes no block and no other payload. -/
theorem Good.store {ptr offset : ℕ} (byte : Byte) (hgood : Good s blocks)
    (hheld : Call.Held s (.store ptr offset byte)) :
    ∃ s', s.step (.store ptr offset byte) = some s' ∧ Good s' blocks ∧
      Kept blocks (.store ptr offset byte) s.heap.mem s'.heap.mem := by
  obtain ⟨entry, hentry, hptr, hoffset⟩ := hheld
  obtain ⟨b, hb, hbPtr, hlong⟩ := hgood.owned.backed entry hentry
  obtain ⟨nodes, hrep⟩ := hgood.rep
  simp only [headerSize] at hbPtr
  have houtside : ∀ x, x < b.addr + 32 ∨ b.addr + b.size ≤ x + 16 →
      Function.update s.heap.mem (ptr + offset) byte x = s.heap.mem x :=
    fun x hx => Function.update_of_ne (by omega) _ _
  refine ⟨_, if_pos ⟨entry, hentry, hptr, hoffset⟩,
    hgood.write_payload hb.1 houtside, fun c hc htarget => ?_⟩
  have hne : c ≠ b := by
    rintro rfl
    apply htarget
    rw [← hptr, hbPtr]
    rfl
  intro x hlo hhi
  apply houtside
  have hapart := (hrep.separate hc.1 hb.1).resolve_left hne
  omega

/-- Every fitting call of a holder returns, keeps the invariant and keeps the
payloads it was not given. -/
theorem Good.step (hgood : Good s blocks) (hfits : call.Fits s) (hheld : call.Held s) :
    ∃ s', s.step call = some s' ∧ (∃ blocks', Good s' blocks') ∧
      Kept blocks call s.heap.mem s'.heap.mem := by
  cases call with
  | alloc size supply =>
    obtain ⟨h', p, _, blocks', hcall, _, _, hgood', hkept⟩ := hgood.alloc supply hfits
    refine ⟨_, step_alloc hcall, ⟨blocks', hgood'⟩, fun c hc _ => ?_⟩
    have hheap : (s.allocated h' p size).heap = h' := by
      simp only [allocated]
      split_ifs <;> rfl
    rw [hheap]
    exact hkept c hc
  | free ptr =>
    obtain ⟨left, b, right, rfl, hused, rfl⟩ := hgood.backed hheld
    obtain ⟨hfreed, hkept⟩ := hgood.free hused
    refine ⟨_, if_pos hheld, ⟨_, hfreed⟩, fun c hc htarget => ?_⟩
    refine (hkept c hc fun heq => htarget ?_).2
    rw [heq]
    rfl
  | realloc ptr size supply =>
    obtain ⟨s', blocks', hcall, hgood', hkept⟩ := hgood.realloc supply hheld hfits
    refine ⟨s', hcall, ⟨blocks', hgood'⟩, fun c hc htarget => ?_⟩
    refine (hkept c hc fun heq => htarget ?_).2
    rw [heq]
    rfl
  | store ptr offset byte =>
    obtain ⟨s', hcall, hgood', hkept⟩ := hgood.store byte hheld
    exact ⟨s', hcall, ⟨blocks, hgood'⟩, hkept⟩

theorem Kept.payloadsKept (hgood : Good s blocks)
    (hkept : Kept blocks call s.heap.mem s'.heap.mem) :
    PayloadsKept s call s' := by
  intro entry hentry htarget x hlo hhi
  obtain ⟨nodes, hrep⟩ := hgood.rep
  obtain ⟨b, hb, hptr, _⟩ := hgood.owned.backed entry hentry
  have hblock := hrep.block hb.1
  have hfooter := ((hrep.image b hb.1).footer_eq hblock.2.2.1).1
  have hsub : entry.1 - headerSize = b.addr := by omega
  rw [payloadEnd, hsub, hfooter] at hhi
  simp only [headerSize] at hptr
  exact hkept b hb (fun heq => htarget (by rw [heq, hptr]; rfl)) x (by omega) (by omega)

theorem reaches_good {region : Region} {mem : Mem}
    (hrun : Reaches (guarded (fun s call => call.Fits s) Session.Step)
      (Session.start region mem) s) : ∃ blocks, Good s blocks := by
  refine @Reaches.invariant _ _ _ _ _ (fun s => ∃ blocks, Good s blocks) hrun
    ⟨[], good_start region mem⟩ ?_
  rintro before call after ⟨blocks, hgood⟩ ⟨hfits, hstep⟩
  obtain ⟨s', hs', hgood', _⟩ := hgood.step hfits (held_of_step hstep)
  rw [Step, hs', Option.some.injEq] at hstep
  exact hstep ▸ hgood'

/-- Along every run of fitting calls the heap is well formed, and each call
leaves the live payloads it was not given alone. -/
theorem heap_wellFormed_of_fits (region : Region) (mem : Mem) (s : Session)
    (hrun : Reaches (guarded (fun s call => call.Fits s) Session.Step)
      (Session.start region mem) s) :
    WellFormed s ∧ ∀ call s', call.Fits s → s.Step call s' → PayloadsKept s call s' := by
  obtain ⟨blocks, hgood⟩ := reaches_good hrun
  refine ⟨hgood.wellFormed, fun call s' hfits hstep => ?_⟩
  obtain ⟨after, hafter, _, hkept⟩ := hgood.step hfits (held_of_step hstep)
  rw [Step, hafter, Option.some.injEq] at hstep
  exact (hstep ▸ hkept).payloadsKept hgood

/-- Every page request is served. -/
def plentiful : ℕ → PageSupply := fun _ => ⟨fun _ => true, fun _ => true⟩

instance (h : Heap) (size : ℕ) : Decidable (RequestFits h size) :=
  inferInstanceAs (Decidable (_ < _))

instance (s : Session) (call : Call) : Decidable (call.Fits s) := by
  cases call <;> unfold Call.Fits <;> infer_instance

instance (s : Session) (call : Call) : Decidable (call.TagsFit s) := by
  cases call <;> unfold Call.TagsFit <;> infer_instance

theorem heap_wellFormed_after_alloc :
    ∃ s, Reaches (guarded (fun s call => call.Fits s) Session.Step)
        (Session.start kernelRegion fun _ => 0) s ∧
      s.live.map Prod.snd = [100] ∧ WellFormed s := by
  have hrun : (runChecked step (fun s call => decide (call.Fits s))
      (start kernelRegion fun _ => 0) [.alloc 16 plentiful, .alloc 100 plentiful,
        .free (kernelRegion.base + headerSize)]).map (fun s => s.live.map Prod.snd) =
      some [100] := by
    decide +kernel
  obtain ⟨s, hreaches, hlive⟩ := reaches_of_runChecked hrun
  exact ⟨s, hreaches, hlive, (heap_wellFormed_of_fits kernelRegion (fun _ => 0) s hreaches).1⟩

/-- A size that fits with its tags but not with the rounding to 16 bytes: the
block size wraps to zero and the block handed out has no room for its tags. -/
theorem heap_alloc_rounding_wraps :
    ∃ s, Reaches (guarded (fun s call => call.TagsFit s) Session.Step)
        (Session.start kernelRegion fun _ => 0) s ∧
      ¬WellFormed s := by
  have hrun : (runChecked step (fun s call => decide (call.TagsFit s))
      (start kernelRegion fun _ => 0)
      [.alloc 16 plentiful, .alloc (2 ^ 64 - 49) plentiful]).map (fun s =>
        decide (∀ entry ∈ s.live, headerSize + entry.2 + footerSize ≤
          blockSize s.heap.mem (entry.1 - headerSize))) = some false := by
    decide +kernel
  obtain ⟨s, hreaches, hshort⟩ := reaches_of_runChecked hrun
  refine ⟨s, hreaches, ?_⟩
  rintro ⟨headers, nodes, hwf⟩
  exact of_decide_eq_false hshort hwf.live_long

end AuraLite.BoundaryTagHeap

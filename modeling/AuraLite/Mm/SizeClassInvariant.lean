import Mathlib.Data.List.FinRange
import Mathlib.Data.List.TakeWhile
import AuraLite.Mm.SizeClass

/-!
# Transparency of the size-class front

To the heap a cached object is one more live pointer of its class size.  The
invariant of the front therefore is the heap invariant for the callers' pointers
together with the cached ones, plus the shape of the class lists.
-/

namespace AuraLite.SizeClass

open List AuraLite.ByteMemory AuraLite.BoundaryTagHeap AuraLite.LinkedChain Prod
open AuraLite.Reachability
open Function (update update_self update_of_ne)

/-! ## Classes -/

open KSession

theorem request_le_class {ci : ClassIndex} (hclass : sizeclassForRequest size = some ci) :
    size ≤ sizeclassBytes ci := by
  rw [sizeclassForRequest] at hclass
  split_ifs at hclass
  simpa using find?_some hclass

theorem class_le_payload {payload : ℕ} (hclass : sizeclassForPayload payload = some ci) :
    sizeclassBytes ci ≤ payload ∧ payload < 2 * sizeclassBytes ci := by
  rw [sizeclassForPayload] at hclass
  split at hclass
  · cases hclass
  · rename_i best hbest
    split_ifs at hclass with hcut
    rw [Option.some.injEq] at hclass
    subst hclass
    have hmem := mem_of_mem_getLast? hbest
    exact ⟨by simpa using mem_takeWhile_imp hmem, by omega⟩

theorem sixteen_le_class (ci : ClassIndex) : 16 ≤ sizeclassBytes ci := by
  have hpow : 2 ^ 4 ≤ 2 ^ (sizeclassMinShift + ci.val) :=
    Nat.pow_le_pow_right (by omega) (by simp [sizeclassMinShift])
  simpa [sizeclassBytes] using hpow

/-! ## Cached entries -/

/-- The cached objects as live entries of their class size. -/
def cachedEntries (lists : ClassIndex → List ℕ) : List (ℕ × ℕ) :=
  (List.finRange sizeclassCount).flatMap fun ci =>
    (lists ci).map fun p => (p, sizeclassBytes ci)

theorem mem_cachedEntries {entry : ℕ × ℕ} :
    entry ∈ cachedEntries lists ↔ ∃ ci, entry.1 ∈ lists ci ∧ entry.2 = sizeclassBytes ci := by
  simp only [cachedEntries, mem_flatMap, mem_finRange, true_and, mem_map]
  constructor
  · rintro ⟨ci, p, hp, rfl⟩
    exact ⟨ci, hp, rfl⟩
  · rintro ⟨ci, hp, hbytes⟩
    exact ⟨ci, entry.1, hp, Prod.ext rfl hbytes.symm⟩

/-- Adding an element in one summand of a concatenation over distinct keys. -/
theorem flatMap_perm_cons {α β : Type*} [DecidableEq α] {keys : List α}
    {parts parts' : α → List β} {key : α} {x : β} (hnodup : keys.Nodup)
    (hkey : key ∈ keys) (hpart : parts key = x :: parts' key)
    (hother : ∀ other, other ≠ key → parts other = parts' other) :
    (keys.flatMap parts).Perm (x :: keys.flatMap parts') := by
  have hsplit := perm_cons_erase hkey
  have hrest : (keys.erase key).flatMap parts = (keys.erase key).flatMap parts' :=
    flatMap_congr fun other hmem => hother other fun heq => hnodup.not_mem_erase (heq ▸ hmem)
  calc keys.flatMap parts
    _ ~ (key :: keys.erase key).flatMap parts := hsplit.flatMap_right parts
    _ = x :: (key :: keys.erase key).flatMap parts' := by
      rw [flatMap_cons, flatMap_cons, hpart, hrest, cons_append]
    _ ~ x :: keys.flatMap parts' := (hsplit.symm.flatMap_right parts').cons x

theorem cachedEntries_push {ci : ClassIndex} {rest : List ℕ} (hlist : lists ci = p :: rest) :
    (cachedEntries lists).Perm ((p, sizeclassBytes ci) ::
      cachedEntries (update lists ci rest)) := by
  refine flatMap_perm_cons (nodup_finRange _) (mem_finRange ci) ?_ ?_
  · simp [hlist]
  · intro other hne
    simp [hne]

/-! ## The invariant -/

/-- The list of a class is threaded through its objects, is counted, stays under the
cap, and holds blocks of the class only. -/
structure Cached (m : Mem) (blocks : List Block) (ci : ClassIndex) (head count : ℕ)
    (list : List ℕ) : Prop where
  stack : Stack (read64 m) head list
  count : count = list.length
  cap : list.length ≤ sizeclassCap
  narrow : ∀ p ∈ list, ∀ b, UsedIn blocks b →
    p = b.addr + headerSize → b.size < 48 + 2 * sizeclassBytes ci

/-- The callers' pointers and the cached objects own the used blocks of the arena. -/
structure Fronted (s : KSession) (blocks : List Block)
    (lists : ClassIndex → List ℕ) : Prop where
  good : Good ⟨s.kheap.heap, s.live ++ cachedEntries lists⟩ blocks
  cached : ∀ ci, Cached s.kheap.heap.mem blocks ci (s.kheap.cache.head ci)
    (s.kheap.cache.count ci) (lists ci)

variable {s s' : KSession} {blocks blocks' : List Block}
variable {lists : ClassIndex → List ℕ} {b : Block} {ci : ClassIndex}
variable {live live' : List (ℕ × ℕ)} {h h' : Heap} {m' : Mem} {p ptr size : ℕ}

theorem owned_perm (howned : Owned live blocks) (hperm : live.Perm live') : Owned live' blocks := by
  refine ⟨(hperm.map _).nodup_iff.mp howned.nodup, fun entry hentry => ?_, fun b hb => ?_⟩
  · exact howned.backed entry (hperm.mem_iff.mpr hentry)
  · exact (hperm.map _).mem_iff.mp (howned.held b hb)

theorem good_perm (hgood : Good ⟨h, live⟩ blocks) (hperm : live.Perm live') :
    Good ⟨h, live'⟩ blocks :=
  ⟨hgood.rep, hgood.roomy, owned_perm hgood.owned hperm⟩

/-- The first entry may be recorded with any size its block can hold. -/
theorem good_relabel {n n' : ℕ} (hgood : Good ⟨h, (p, n) :: live⟩ blocks)
    (hb : UsedIn blocks b) (hptr : p = b.addr + headerSize)
    (hsize : n' + 48 ≤ b.size) : Good ⟨h, (p, n') :: live⟩ blocks := by
  refine ⟨hgood.rep, hgood.roomy, hgood.owned.nodup, fun entry hentry => ?_, hgood.owned.held⟩
  rcases List.mem_cons.mp hentry with rfl | hentry
  · exact ⟨b, hb, hptr, hsize⟩
  · exact hgood.owned.backed entry (mem_cons_of_mem _ hentry)

section

variable (hfront : Fronted s blocks lists)
include hfront

theorem Fronted.cached_mem (hp : p ∈ lists ci) : ∃ b, UsedIn blocks b ∧ p = b.addr + headerSize ∧
      sizeclassBytes ci + 48 ≤ b.size := by
  have hentry : (p, sizeclassBytes ci) ∈ s.live ++ cachedEntries lists :=
    mem_append_right _ (mem_cachedEntries.mpr ⟨ci, hp, rfl⟩)
  exact hfront.good.owned.backed _ hentry

theorem Fronted.not_live (hp : p ∈ lists ci) : p ∉ s.live.map fst := by
  have hnodup := hfront.good.owned.nodup
  rw [map_append, nodup_append] at hnodup
  intro hlive
  have hcached : p ∈ (cachedEntries lists).map fst := List.mem_map.mpr ⟨(p, sizeclassBytes ci),
      mem_cachedEntries.mpr ⟨ci, hp, rfl⟩, rfl⟩
  exact hnodup.2.2 p hlive p hcached rfl

/-- Links survive any change that keeps the payloads of the cached blocks. -/
theorem Fronted.stack_kept (hkept : ∀ b, UsedIn blocks b → (b.addr + headerSize ∈ lists ci) →
      KeepsPayload b s.kheap.heap.mem m') :
    Stack (read64 m') (s.kheap.cache.head ci) (lists ci) := by
  refine (hfront.cached ci).stack.congr fun p hp => ?_
  obtain ⟨b, hb, hptr, hsize⟩ := hfront.cached_mem hp
  have hmin := sixteen_le_class ci
  simp only [headerSize] at hptr
  refine read64_congr fun x hlo hhi => ?_
  exact hkept b hb (by rw [headerSize, ← hptr]; exact hp) x (by omega) (by omega)

omit hfront in
/-- Stores into one owned payload leave the first word of every other. -/
theorem good_read_link {q : ℕ} (hgood : Good ⟨h, live⟩ blocks)
    (hb : UsedIn blocks b) (hq : q ∈ live.map fst)
    (hne : q ≠ b.addr + headerSize)
    (hmem : ∀ x, x < b.addr + 32 ∨ b.addr + b.size ≤ x + 16 → m' x = h.mem x) :
    read64 m' q = read64 h.mem q := by
  obtain ⟨nodes, hrep⟩ := hgood.rep
  obtain ⟨left, c, right, hblocks, hused, hptr⟩ := hgood.backed hq
  have hc : c ∈ blocks := by simp [hblocks]
  have hcBlock := hrep.block hc
  simp only [headerSize] at hptr hne
  refine read64_congr fun x hlo hhi => hmem x ?_
  rcases hrep.separate hb.1 hc with heq | hlt | hlt
  · rw [heq] at hne
    exact absurd hptr hne
  · omega
  · omega

omit hfront in
theorem mem_map_cachedEntries : p ∈ (cachedEntries lists).map fst ↔ ∃ ci, p ∈ lists ci := by
  simp only [mem_map, mem_cachedEntries]
  constructor
  · rintro ⟨entry, ⟨ci, hp, _⟩, rfl⟩
    exact ⟨ci, hp⟩
  · rintro ⟨ci, hp⟩
    exact ⟨(p, sizeclassBytes ci), ⟨ci, hp, rfl⟩, rfl⟩

omit hfront in
theorem Fronted.owned_mem (hp : p ∈ lists ci) :
    p ∈ (s.live ++ cachedEntries lists).map fst := by
  rw [map_append]
  exact mem_append_right _ (mem_map_cachedEntries.mpr ⟨ci, hp⟩)

/-! ## Cache operations -/

theorem Fronted.pop_nil (hlist : lists ci = []) : sizeclassPop s.kheap ci = (s.kheap, 0) := by
  have hhead : s.kheap.cache.head ci = 0 := by
    rw [(hfront.cached ci).stack.head_eq, hlist]
    rfl
  simp only [sizeclassPop, hhead, if_true]

omit hfront in
theorem Fronted.pop {rest : List ℕ} (hfront : Fronted s blocks lists)
    (hlist : lists ci = p :: rest) (hsize : size ≤ sizeclassBytes ci) :
    p ≠ 0 ∧ (sizeclassPop s.kheap ci).2 = p ∧
      Fronted ⟨(sizeclassPop s.kheap ci).1, (p, size) :: s.live⟩ blocks (update lists ci rest) := by
  have hp : p ∈ lists ci := by simp [hlist]
  obtain ⟨b, hb, hptr, hroom⟩ := hfront.cached_mem hp
  obtain ⟨hstack, hcount, hcap, hnarrow⟩ := hfront.cached ci
  rw [hlist] at hstack hcount hcap hnarrow
  obtain ⟨hhead, hpos, hrest⟩ := hstack
  have hmin := sixteen_le_class ci
  have houtside : ∀ x, x < b.addr + 32 ∨ b.addr + b.size ≤ x + 16 →
      write64 s.kheap.heap.mem p 0 x = s.kheap.heap.mem x := by
    intro x hx
    simp only [headerSize] at hptr
    exact write64_outside (by omega)
  have hperm : (s.live ++ cachedEntries lists).Perm ((p, sizeclassBytes ci) ::
      (s.live ++ cachedEntries (update lists ci rest))) :=
    ((cachedEntries_push hlist).append_left _).trans perm_middle
  have hgood := good_perm hfront.good hperm
  have hfresh : ∀ cj, p ∉ update lists ci rest cj := by
    intro cj hmem
    have hnodup := hgood.owned.nodup
    rw [map_cons, nodup_cons, map_append] at hnodup
    exact hnodup.1 (mem_append_right _ (mem_map_cachedEntries.mpr ⟨cj, hmem⟩))
  have hkeeps : ∀ cj, ∀ q ∈ lists cj, q ≠ p →
      read64 (write64 s.kheap.heap.mem p 0) q = read64 s.kheap.heap.mem q := fun cj q hq hne =>
    good_read_link hfront.good hb (Fronted.owned_mem hq) (hptr ▸ hne) houtside
  refine ⟨hpos, ?_, ?_, fun cj => ?_⟩
  · simp only [sizeclassPop, hhead, hpos, if_false]
  · simp only [sizeclassPop, hhead, hpos, if_false]
    have hwritten := hgood.write_payload hb.1 houtside
    exact good_relabel hwritten hb hptr (by omega)
  · have hne := hfresh cj
    simp only [sizeclassPop, hhead, hpos, if_false]
    by_cases heq : cj = ci
    · subst heq
      simp only [update_self] at hne ⊢
      refine ⟨hrest.congr fun q hq => ?_, ?_, (Nat.le_succ _).trans hcap, fun q hq =>
        hnarrow q (mem_cons_of_mem _ hq)⟩
      · exact hkeeps cj q (hlist ▸ mem_cons_of_mem _ hq) fun h => hne (h ▸ hq)
      · rw [hcount, length_cons, Nat.add_sub_cancel]
    · simp only [update_of_ne heq] at hne ⊢
      refine { hfront.cached cj with stack := ?_ }
      exact (hfront.cached cj).stack.congr fun q hq => hkeeps cj q hq fun h => hne (h ▸ hq)

omit hfront in
theorem perm_dropPtr {n : ℕ} (hnodup : (live.map fst).Nodup) (hentry : (ptr, n) ∈ live) :
    live.Perm ((ptr, n) :: dropPtr live ptr) := by
  have herase : live.erase (ptr, n) = dropPtr live ptr := by
    rw [(Nodup.of_map _ hnodup).erase_eq_filter, dropPtr]
    refine filter_congr fun entry hmem => ?_
    have hsame : entry = (ptr, n) ↔ entry.1 = ptr :=
      ⟨congrArg fst, fun heq => inj_on_of_nodup_map hnodup hmem hentry heq⟩
    rw [Bool.eq_iff_iff, bne_iff_ne, decide_eq_true_eq, Ne, hsame]
  rw [← herase]
  exact perm_cons_erase hentry

omit hfront in
theorem dropPtr_append (hfresh : ptr ∉ live'.map fst) :
    dropPtr (live ++ live') ptr = dropPtr live ptr ++ live' := by
  rw [dropPtr, filter_append]
  congr 1
  rw [filter_eq_self]
  intro entry hmem
  have hne : entry.1 ≠ ptr := by
    rintro rfl
    exact hfresh (mem_map_of_mem hmem)
  simpa using hne

theorem Fronted.not_cached (hlive : ptr ∈ s.live.map fst) :
    ptr ∉ (cachedEntries lists).map fst := by
  intro hcached
  obtain ⟨ci, hp⟩ := mem_map_cachedEntries.mp hcached
  exact hfront.not_live hp hlive

theorem Fronted.backed (hlive : ptr ∈ s.live.map fst) :
    ∃ b, UsedIn blocks b ∧ ptr = b.addr + headerSize := by
  obtain ⟨entry, hentry, rfl⟩ := List.mem_map.mp hlive
  obtain ⟨b, hb, hptr, _⟩ := hfront.good.owned.backed entry (mem_append_left _ hentry)
  exact ⟨b, hb, hptr⟩

theorem Fronted.write_live
    (hlive : b.addr + headerSize ∈ s.live.map fst) (hb : UsedIn blocks b)
    (hmem : ∀ x, x < b.addr + 32 ∨ b.addr + b.size ≤ x + 16 → m' x = s.kheap.heap.mem x) :
    Fronted { s with kheap := { s.kheap with
      heap := { s.kheap.heap with mem := m' } } } blocks lists := by
  refine ⟨hfront.good.write_payload hb.1 hmem, fun ci => { hfront.cached ci with stack := ?_ }⟩
  refine (hfront.cached ci).stack.congr fun q hq => ?_
  refine good_read_link hfront.good hb (Fronted.owned_mem hq) ?_ hmem
  rintro rfl
  exact hfront.not_live hq hlive

theorem Fronted.push (hlive : b.addr + headerSize ∈ s.live.map fst) (hb : UsedIn blocks b)
    (hlow : sizeclassBytes ci + 48 ≤ b.size)
    (hhigh : b.size < 48 + 2 * sizeclassBytes ci)
    (hcap : s.kheap.cache.count ci < sizeclassCap) :
    Fronted ⟨sizeclassPush s.kheap ci (b.addr + headerSize),
        dropPtr s.live (b.addr + headerSize)⟩ blocks
      (update lists ci ((b.addr + headerSize) :: lists ci)) := by
  obtain ⟨nodes, hrep⟩ := hfront.good.rep
  have hblock := hrep.block hb.1
  have hbound := hrep.bound
  have hmin := sixteen_le_class ci
  let lists' := update lists ci ((b.addr + headerSize) :: lists ci)
  have hlist : lists' ci = (b.addr + headerSize) :: lists ci := update_self _ _ _
  have hback : update lists' ci (lists ci) = lists := by
    funext cj
    by_cases heq : cj = ci
    · subst heq
      simp
    · simp [lists', heq]
  have houtside : ∀ x, x < b.addr + 32 ∨ b.addr + b.size ≤ x + 16 →
      write64 s.kheap.heap.mem (b.addr + headerSize) (s.kheap.cache.head ci) x =
        s.kheap.heap.mem x := by
    intro x hx
    simp only [headerSize]
    exact write64_outside (by omega)
  have hwritten := hfront.write_live hlive hb houtside
  obtain ⟨⟨q, n⟩, hentry, hq⟩ := List.mem_map.mp hlive
  have hqPtr : q = b.addr + headerSize := hq
  subst hqPtr
  have hnodup : (s.live.map fst).Nodup := by
    have hall := hfront.good.owned.nodup
    rw [map_append] at hall
    exact (List.nodup_append.mp hall).1
  refine ⟨?_, fun cj => ?_⟩
  · have hperm : (s.live ++ cachedEntries lists).Perm ((_, n) ::
        (dropPtr s.live (b.addr + headerSize) ++ cachedEntries lists)) :=
      (perm_dropPtr hnodup hentry).append_right _
    have hlabelled := good_relabel (good_perm hwritten.good hperm) hb rfl hlow
    refine good_perm hlabelled ?_
    have hpush := cachedEntries_push hlist
    rw [hback] at hpush
    exact (List.perm_middle.symm).trans (hpush.symm.append_left _)
  · by_cases heq : cj = ci
    · subst heq
      obtain ⟨hstack, hcount, -, hnarrow⟩ := hwritten.cached cj
      have hhead : s.kheap.cache.head cj < 2 ^ 64 := by
        rw [hstack.head_eq]
        cases hcases : lists cj with
        | nil => simp
        | cons first rest =>
          obtain ⟨c, hc, hptr, _⟩ := hfront.cached_mem (show first ∈ lists cj by simp [hcases])
          have hcBlock := hrep.block hc.1
          simp only [headerSize, headD_cons] at hptr ⊢
          omega
      simp only [sizeclassPush, update_self]
      refine ⟨⟨rfl, by simp only [headerSize]; omega, ?_⟩, ?_, ?_,
        forall_mem_cons.mpr ⟨fun c hc hptr => ?_, hnarrow⟩⟩
      · rw [read64_write64_self, Nat.mod_eq_of_lt hhead]
        exact hstack
      · rw [length_cons, ← hcount]
      · rw [length_cons, ← hcount]
        exact hcap
      · have heq := hrep.eq_of_addr hc.1 hb.1 (by omega)
        rw [heq]
        exact hhigh
    · simp only [sizeclassPush, update_of_ne heq]
      exact hwritten.cached cj

/-! ## Heap operations behind the front -/

/-- A heap call that leaves the cached blocks and their payloads alone. -/
theorem Fronted.transfer (hgood : Good ⟨h', live' ++ cachedEntries lists⟩ blocks')
    (hkept : ∀ b, UsedIn blocks b → ∀ ci, b.addr + headerSize ∈ lists ci →
      UsedIn blocks' b ∧ KeepsPayload b s.kheap.heap.mem h'.mem) :
    Fronted ⟨{ s.kheap with heap := h' }, live'⟩ blocks' lists := by
  refine ⟨hgood, fun ci => { hfront.cached ci with
    stack := hfront.stack_kept fun b hb hlisted => (hkept b hb ci hlisted).2
    narrow := fun p hp c hc hptr => ?_ }⟩
  obtain ⟨b, hb, hbPtr, _⟩ := hfront.cached_mem hp
  obtain ⟨nodes, hrep⟩ := hgood.rep
  have hstays := (hkept b hb ci (hbPtr ▸ hp)).1
  have heq := hrep.eq_of_addr hc.1 hstays.1 (by omega)
  rw [heq]
  exact (hfront.cached ci).narrow p hp b hb hbPtr

/-- Counters play no part in the invariant. -/
theorem Fronted.congr_cache {cache : SizeclassCache} (hhead : cache.head = s.kheap.cache.head)
    (hcount : cache.count = s.kheap.cache.count) :
    Fronted ⟨{ s.kheap with cache }, s.live⟩ blocks lists := by
  refine { hfront with cached := ?_ }
  simpa only [hhead, hcount] using hfront.cached

theorem Fronted.heapFree (hlive : ptr ∈ s.live.map fst) :
    ∃ blocks', Fronted ⟨kheapFree s.kheap ptr, dropPtr s.live ptr⟩ blocks'
      lists := by
  have howned : ptr ∈ (s.live ++ cachedEntries lists).map fst := by
    rw [map_append]
    exact mem_append_left _ hlive
  obtain ⟨left, b, right, rfl, hused, hptr⟩ := hfront.good.backed howned
  obtain ⟨hfreed, hframe⟩ := hfront.good.free hused
  rw [← hptr] at hfreed hframe
  rw [dropPtr_append (hfront.not_cached hlive)] at hfreed
  refine ⟨_, hfront.transfer hfreed fun c hc ci hlisted => hframe c hc ?_⟩
  rintro rfl
  exact hfront.not_live hlisted hlive

end

theorem Fronted.heapAlloc (supply : ℕ → PageSupply) (hfront : Fronted s blocks lists)
    (hfits : RequestFits s.kheap.heap size) :
    ∃ h' p blocks', BoundaryTagHeap.heapAlloc (kheapExpand supply) s.kheap.heap
        size = some (h', p) ∧
      Fronted ⟨{ s.kheap with heap := h' },
        if p = 0 then s.live else (p, size) :: s.live⟩ blocks' lists := by
  obtain ⟨h', p, grown, blocks', hcall, hgrown, htakes, hgood, hkept⟩ :=
    hfront.good.alloc supply hfits
  refine ⟨h', p, blocks', hcall, hfront.transfer ?_ fun b hb ci _ =>
    ⟨htakes.usedIn ((usedIn_grown hgrown).mpr hb), hkept b hb⟩⟩
  simp only [Session.allocated] at hgood
  split_ifs at hgood ⊢ with hp <;> exact hgood

/-! ## Calls -/

/-- The session after an allocation returned `p`. -/
def KSession.allocated (s : KSession) (k : Kheap) (p size : ℕ) : KSession :=
  if p = 0 then { s with kheap := k } else ⟨k, (p, size) :: s.live⟩

section

variable (supply : ℕ → PageSupply) (hfront : Fronted s blocks lists)
  (hfits : RequestFits s.kheap.heap size)
include supply hfront hfits

theorem Fronted.kmallocHeap :
    ∃ k p blocks', SizeClass.kmallocHeap (kheapExpand supply) s.kheap size = some (k, p) ∧
      Fronted (s.allocated k p size) blocks' lists := by
  obtain ⟨h', p, blocks', hcall, hfront'⟩ := hfront.heapAlloc supply hfits
  refine ⟨{ s.kheap with heap := h' }, p, blocks', ?_, ?_⟩
  · simp only [SizeClass.kmallocHeap, hcall, Option.map_some]
  · simp only [allocated]
    split_ifs at hfront' ⊢ with hp <;> exact hfront'

theorem Fronted.kmalloc :
    ∃ k p blocks' lists', SizeClass.kmalloc (kheapExpand supply) s.kheap size = some (k, p) ∧
      Fronted (s.allocated k p size) blocks' lists' := by
  rw [SizeClass.kmalloc]
  cases hclass : sizeclassForRequest size with
  | none =>
    obtain ⟨k, p, blocks', hcall, hfront'⟩ := hfront.kmallocHeap supply hfits
    exact ⟨k, p, blocks', lists, hcall, hfront'⟩
  | some ci =>
    cases hlist : lists ci with
    | nil =>
      let counted : SizeclassCache := { s.kheap.cache with misses := s.kheap.cache.misses + 1 }
      have hcounted : Fronted ⟨{ s.kheap with cache := counted }, s.live⟩
          blocks lists := hfront.congr_cache rfl rfl
      obtain ⟨k, p, blocks', hcall, hfront'⟩ := hcounted.kmallocHeap supply hfits
      refine ⟨k, p, blocks', lists, ?_, hfront'⟩
      simp only [hfront.pop_nil hlist]
      exact hcall
    | cons p rest =>
      obtain ⟨hpos, hobj, hpopped⟩ := hfront.pop hlist (request_le_class hclass)
      obtain ⟨q, rfl⟩ := Nat.exists_eq_succ_of_ne_zero hpos
      cases hpop : sizeclassPop s.kheap ci with
      | mk k obj =>
        rw [hpop] at hobj hpopped
        have hobj' : obj = q + 1 := hobj
        subst hobj'
        let counted : SizeclassCache := { k.cache with hits := k.cache.hits + 1 }
        refine ⟨{ k with cache := counted }, q + 1, blocks,
          update lists ci rest, by simp only [hpop, counted], ?_⟩
        simp only [allocated, Nat.succ_ne_zero, if_false]
        exact hpopped.congr_cache rfl rfl

end

section

variable (hfront : Fronted s blocks lists)
include hfront

/-- `kfree` scrubs the payload, then it parks the block or gives it back. -/
theorem Fronted.kfree_eq
    (hlive : b.addr + headerSize ∈ s.live.map fst) (hb : UsedIn blocks b) :
    ∃ k, Fronted ⟨k, s.live⟩ blocks lists ∧
      (SizeClass.kfree s.kheap (b.addr + headerSize) = kheapFree k (b.addr + headerSize) ∨
        ∃ ci, sizeclassForPayload (b.size - headerSize - footerSize) = some ci ∧
          s.kheap.cache.count ci < sizeclassCap ∧ k.cache = s.kheap.cache ∧
          SizeClass.kfree s.kheap (b.addr + headerSize) =
            sizeclassPush k ci (b.addr + headerSize)) := by
  obtain ⟨nodes, hrep⟩ := hfront.good.rep
  have himage := hrep.image b hb.1
  have hblock := hrep.block hb.1
  have hmagic : blockMagic s.kheap.heap.mem b.addr = heapMagicUsed := by
    rw [himage.magic, hb.2]
    rfl
  have hsub : b.addr + headerSize - headerSize = b.addr := by omega
  have hguard : b.addr + headerSize ≠ 0 ∧ blockMagic s.kheap.heap.mem b.addr = heapMagicUsed ∧
      headerSize + footerSize < b.size := by
    simp only [headerSize, footerSize]
    exact ⟨by omega, hmagic, by omega⟩
  have hscrub : Fronted ⟨scrub s.kheap (b.addr + headerSize)
      (b.size - headerSize - footerSize), s.live⟩ blocks lists := by
    refine hfront.write_live hlive hb fun x hx => fill_outside ?_
    simp only [headerSize, footerSize]
    omega
  simp only [SizeClass.kfree, hsub, himage.size]
  rw [if_pos hguard]
  cases hclass : sizeclassForPayload (b.size - headerSize - footerSize) with
  | none => exact ⟨_, hscrub, .inl rfl⟩
  | some ci =>
    simp only
    split_ifs with hcap
    · exact ⟨_, hscrub, .inr ⟨ci, rfl, hcap, rfl, rfl⟩⟩
    · refine ⟨_, ?_, .inl rfl⟩
      exact hscrub.congr_cache rfl rfl

theorem Fronted.kfree (hlive : ptr ∈ s.live.map fst) :
    ∃ blocks' lists', Fronted ⟨SizeClass.kfree s.kheap ptr, dropPtr s.live ptr⟩ blocks' lists' := by
  obtain ⟨b, hb, rfl⟩ := hfront.backed hlive
  obtain ⟨k, hscrub, hfreed | ⟨ci, hclass, hcap, hcache, hparked⟩⟩ := hfront.kfree_eq hlive hb
  · obtain ⟨blocks', hback⟩ := hscrub.heapFree hlive
    exact ⟨blocks', lists, hfreed ▸ hback⟩
  · obtain ⟨hlow, hhigh⟩ := class_le_payload hclass
    have hmin := sixteen_le_class ci
    simp only [headerSize, footerSize] at hlow hhigh
    rw [← hcache] at hcap
    exact ⟨blocks, _, hparked ▸ hscrub.push hlive hb (by omega) (by omega) hcap⟩

theorem Fronted.drainClass {fuel : ℕ} (hfuel : (lists ci).length < fuel) :
    ∃ k blocks', SizeClass.drainClass ci fuel s.kheap = some k ∧
      Fronted ⟨k, s.live⟩ blocks' (update lists ci []) := by
  induction fuel generalizing s blocks lists with
  | zero => omega
  | succ fuel ih =>
    cases hlist : lists ci with
    | nil =>
      refine ⟨s.kheap, blocks, ?_, ?_⟩
      · simp only [SizeClass.drainClass, hfront.pop_nil hlist]
      · rwa [← hlist, Function.update_eq_self]
    | cons p rest =>
      obtain ⟨hpos, hobj, hpopped⟩ := hfront.pop hlist le_rfl
      have hheld := hfront.not_live (show p ∈ lists ci by simp [hlist])
      have hdrop : dropPtr ((p, sizeclassBytes ci) :: s.live) p = s.live := by
        have hsplit : dropPtr ([(p, sizeclassBytes ci)] ++ s.live) p =
            dropPtr [(p, sizeclassBytes ci)] p ++ s.live :=
          dropPtr_append hheld
        simpa [dropPtr] using hsplit
      have hpopHeld : p ∈ ((p, sizeclassBytes ci) :: s.live).map fst := mem_cons_self
      obtain ⟨blocks₁, hfreed⟩ := hpopped.heapFree hpopHeld
      rw [hdrop] at hfreed
      obtain ⟨q, rfl⟩ := Nat.exists_eq_succ_of_ne_zero hpos
      cases hpop : sizeclassPop s.kheap ci with
      | mk k obj =>
        rw [hpop] at hobj hfreed
        have hobj' : obj = q + 1 := hobj
        subst hobj'
        have hshorter : (update lists ci rest ci).length < fuel := by
          rw [update_self]
          rw [hlist, length_cons] at hfuel
          omega
        obtain ⟨k', blocks', hcall, hdrained⟩ := ih hfreed hshorter
        rw [Function.update_idem] at hdrained
        refine ⟨k', blocks', ?_, hdrained⟩
        simp only [SizeClass.drainClass, hpop]
        exact hcall

theorem Fronted.drainClasses (classes : List ClassIndex) :
    ∃ k blocks', classes.foldlM (fun k ci => SizeClass.drainClass ci (sizeclassCap + 1) k) s.kheap =
          some k ∧
      Fronted ⟨k, s.live⟩ blocks' (fun ci => if ci ∈ classes then [] else lists ci) := by
  induction classes generalizing s blocks lists with
  | nil => exact ⟨s.kheap, blocks, rfl, by simpa using hfront⟩
  | cons ci rest ih =>
    have hcap : (lists ci).length < sizeclassCap + 1 := Nat.lt_succ_of_le (hfront.cached ci).cap
    obtain ⟨k₁, blocks₁, hcall, hdrained⟩ := hfront.drainClass hcap
    obtain ⟨k, blocks', hrest, hfront'⟩ := ih hdrained
    refine ⟨k, blocks', ?_, ?_⟩
    · rw [foldlM_cons, hcall]
      exact hrest
    · convert hfront' using 1
      funext cj
      by_cases heq : cj = ci
      · subst heq
        simp
      · simp [heq]

/-- `kheap_class_drain` ends and leaves every class empty. -/
theorem Fronted.drain :
    ∃ k blocks', kheapClassDrain s.kheap = some k ∧ Fronted ⟨k, s.live⟩ blocks' fun _ => [] := by
  obtain ⟨k, blocks', hcall, hfront'⟩ := hfront.drainClasses (List.finRange sizeclassCount)
  exact ⟨k, blocks', hcall, by simpa using hfront'⟩

theorem Fronted.krealloc (supply : ℕ → PageSupply) (hlive : ptr ∈ s.live.map fst)
    (hfits : RequestFits s.kheap.heap size) :
    ∃ s' blocks', s.step (.krealloc ptr size supply) = some s' ∧ Fronted s' blocks' lists := by
  have howned : ptr ∈ (s.live ++ cachedEntries lists).map fst := by
    rw [map_append]
    exact mem_append_left _ hlive
  have hdrop : dropPtr (s.live ++ cachedEntries lists) ptr =
      dropPtr s.live ptr ++ cachedEntries lists :=
    dropPtr_append (hfront.not_cached hlive)
  obtain ⟨after, blocks', hcall, hgood, hframe⟩ := hfront.good.realloc supply howned hfits
  have hkept : ∀ b, UsedIn blocks b → ∀ ci, b.addr + headerSize ∈ lists ci →
      UsedIn blocks' b ∧ KeepsPayload b s.kheap.heap.mem after.heap.mem := by
    intro b hb ci hlisted
    refine hframe b hb ?_
    rintro rfl
    exact hfront.not_live hlisted hlive
  simp only [Session.step, if_pos howned] at hcall
  simp only [step, if_pos hlive, SizeClass.krealloc]
  rcases hresult : heapRealloc (kheapExpand supply) s.kheap.heap ptr size with
    _ | ⟨h', _ | p⟩
  · rw [hresult] at hcall
    cases hcall
  · rw [hresult] at hcall
    simp only [Option.some.injEq] at hcall
    subst hcall
    refine ⟨_, blocks', rfl, ?_⟩
    simp only [if_true]
    refine hfront.transfer ?_ hkept
    split_ifs at hgood ⊢
    · rwa [hdrop] at hgood
    · exact hgood
  · rw [hresult] at hcall
    simp only [Option.some.injEq] at hcall
    subst hcall
    refine ⟨_, blocks', rfl, ?_⟩
    simp only [Nat.succ_ne_zero, if_false]
    refine hfront.transfer ?_ hkept
    rwa [hdrop] at hgood

theorem Fronted.store {offset : ℕ} {entry : ℕ × ℕ} (byte : Byte) (hentry : entry ∈ s.live)
    (hoffset : offset < entry.2) :
    Fronted { s with kheap := { s.kheap with heap := { s.kheap.heap with
      mem := update s.kheap.heap.mem (entry.1 + offset) byte } } }
      blocks lists := by
  obtain ⟨b, hb, hptr, hlong⟩ := hfront.good.owned.backed entry (mem_append_left _ hentry)
  have hheld : b.addr + headerSize ∈ s.live.map fst := hptr ▸ mem_map_of_mem hentry
  refine hfront.write_live hheld hb fun x hx => ?_
  simp only [headerSize] at hptr
  exact update_of_ne (by omega) _ _

end

/-- The caller holds what it passes. -/
def KCall.Held (s : KSession) : KCall → Prop
  | .kmalloc _ _ => True
  | .kfree ptr => ptr ∈ s.live.map fst
  | .krealloc ptr _ _ => ptr ∈ s.live.map fst
  | .drain => True
  | .store ptr offset _ => ∃ entry ∈ s.live, entry.1 = ptr ∧ offset < entry.2

theorem KSession.held_of_step {call : KCall} (hstep : s.step call = some s') : call.Held s := by
  cases call with
  | kmalloc size supply => exact trivial
  | drain => exact trivial
  | _ =>
    by_contra hheld
    rw [KCall.Held] at hheld
    rw [step, if_neg hheld] at hstep
    cases hstep

/-- Every fitting call of a holder returns and keeps the front. -/
theorem Fronted.step {call : KCall} (hfront : Fronted s blocks lists)
    (hfits : call.Fits s) (hheld : call.Held s) :
    ∃ s' blocks' lists', s.step call = some s' ∧ Fronted s' blocks' lists' := by
  cases call with
  | kmalloc size supply =>
    obtain ⟨k, p, blocks', lists', hcall, hfront'⟩ := hfront.kmalloc supply hfits
    refine ⟨_, blocks', lists', ?_, hfront'⟩
    simp only [KSession.step, hcall, KSession.allocated]
  | kfree ptr =>
    obtain ⟨blocks', lists', hfront'⟩ := hfront.kfree hheld
    exact ⟨_, blocks', lists', if_pos hheld, hfront'⟩
  | krealloc ptr size supply =>
    obtain ⟨s', blocks', hcall, hfront'⟩ := hfront.krealloc supply hheld hfits
    exact ⟨s', blocks', lists, hcall, hfront'⟩
  | drain =>
    obtain ⟨k, blocks', hcall, hfront'⟩ := hfront.drain
    refine ⟨⟨k, s.live⟩, blocks', _, ?_, hfront'⟩
    simp only [KSession.step, hcall, Option.map_some]
  | store ptr offset byte =>
    obtain ⟨entry, hentry, rfl, hoffset⟩ := hheld
    exact ⟨_, blocks, lists, if_pos ⟨entry, hentry, rfl, hoffset⟩, hfront.store byte hentry hoffset⟩

end AuraLite.SizeClass

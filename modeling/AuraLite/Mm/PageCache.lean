import AuraLite.Lib.RefCount
import AuraLite.Mm.Mmap

/-!
# Page cache references

Shared file mappings take their frames from the page cache.  The model has the
cache, the areas and leaves of every process and the reference counts of the
frame allocator, and the calls that move references between them: page faults,
`munmap`, `mmap` with `MAP_FIXED`, `page_cache_put`, `page_cache_invalidate` and
`page_cache_flush`.  Entries are filled as soon as they are inserted.
-/

namespace AuraLite.PageCache

open List Mmap Pmm Reachability RefCount Word64

structure CacheEntry where
  file : ℕ
  offset : ℕ
  frame : ℕ
  dirty : Bool
deriving DecidableEq

/-- A present leaf of some process. -/
structure Leaf where
  proc : ℕ
  page : ℕ
  frame : ℕ
  writable : Bool
  exec : Bool
deriving DecidableEq

structure State where
  refs : ℕ → ℕ
  cache : List CacheEntry
  vmas : ℕ → List Vma
  leaves : List Leaf

/-- What a call gets from the rest of the kernel. -/
structure Env where
  /-- The frame `pmm_alloc_frame` would hand out. -/
  frame : Option ℕ
  kmalloc : Bool
  /-- Whether `paging_map` finds or makes the page table. -/
  table : Bool

/-! ## The cache -/

def State.lookup (s : State) (file offset : ℕ) : Option CacheEntry :=
  s.cache.find? fun e => e.file == file && e.offset == offset

/-- `page_cache_get_or_alloc`: one reference for the cache and one for the
caller. -/
def State.getOrAlloc (s : State) (env : Env) (file offset : ℕ) : State × Option ℕ :=
  match s.lookup file offset with
  | some e =>
    if s.refs e.frame = 0 then (s, none)
    else ({ s with refs := retainMod (2 ^ 32) s.refs e.frame }, some e.frame)
  | none =>
    match (if env.kmalloc then env.frame else none) with
    | none => (s, none)
    | some frame =>
      if s.refs frame ≠ 0 then (s, none)
      else
        ({ s with
            refs := retainMod (2 ^ 32) (fresh s.refs frame) frame
            cache := ⟨file, offset, frame, false⟩ :: s.cache }, some frame)

def CacheEntry.is (e : CacheEntry) (file offset : ℕ) : Bool :=
  e.file == file && e.offset == offset

/-- `page_cache_mark_dirty`. -/
def State.markDirty (s : State) (file offset : ℕ) : State :=
  { s with cache := s.cache.map fun e =>
      if e.is file (alignDown offset pageSize) then { e with dirty := true } else e }

/-- `page_cache_put`: the frame of an entry is replaced, or an entry is made,
with no reference taken or dropped. -/
def State.put (s : State) (file offset frame : ℕ) (kmalloc : Bool) : State :=
  match s.lookup file offset with
  | some _ =>
    { s with cache := s.cache.map fun e =>
        if e.is file offset then { e with frame := frame } else e }
  | none =>
    if kmalloc then { s with cache := ⟨file, offset, frame, false⟩ :: s.cache } else s

/-- `page_cache_invalidate`: the entries of a file are freed, not their
frames. -/
def State.invalidate (s : State) (file : ℕ) : State :=
  { s with cache := s.cache.filter (·.file != file) }

/-- `page_cache_flush`; `written` tells which offsets the file took. -/
def State.flush (s : State) (file : ℕ) (written : ℕ → Bool) : State :=
  { s with cache := s.cache.map fun e =>
      if e.file == file && written e.offset then { e with dirty := false } else e }

/-! ## Mappings -/

/-- `paging_map`: the leaf of the page is overwritten. -/
def State.mapLeaf (s : State) (env : Env) (leaf : Leaf) : State :=
  if env.table then
    { s with leaves := leaf ::
        s.leaves.filter fun l => !(l.proc == leaf.proc && l.page == leaf.page) }
  else s

def State.leaf (s : State) (proc page : ℕ) : Option Leaf :=
  s.leaves.find? fun l => l.proc == proc && l.page == page

/-- The leaf lets the access through, so that the fault was resolved already. -/
def Leaf.permits (l : Leaf) (write exec : Bool) : Bool :=
  (!write || l.writable) && (!exec || l.exec)

def isSharedFile (v : Vma) : Bool :=
  hasFlag v.flags vmaShared && hasFlag v.flags vmaFile && !hasFlag v.flags vmaShmem

/-- The leaf of a resolved fault.  A read fault maps a shared file page
read-only, so that the first store is seen. -/
def faultLeaf (v : Vma) (proc page frame : ℕ) (write : Bool) : Leaf :=
  ⟨proc, page, frame,
    hasFlag v.flags vmaWrite && !(isSharedFile v && !write), hasFlag v.flags vmaExec⟩

/-- A fault on a shared file page takes its frame from the cache. -/
def State.faultShared (s : State) (env : Env) (v : Vma) (file proc cr2 : ℕ)
    (write : Bool) : State :=
  let offset := wrap64 (v.fileOff + (alignDown cr2 pageSize - v.vaStart))
  match s.getOrAlloc env file offset with
  | (s, none) => s
  | (s, some frame) =>
    (if write then s.markDirty file offset else s).mapLeaf env
      (faultLeaf v proc (cr2 / pageSize) frame write)

/-- A fault on a private page takes a new frame. -/
def State.faultPrivate (s : State) (env : Env) (v : Vma) (proc cr2 : ℕ)
    (write : Bool) : State :=
  match env.frame with
  | none => s
  | some frame =>
    if s.refs frame ≠ 0 then s
    else { s with refs := fresh s.refs frame }.mapLeaf env
      (faultLeaf v proc (cr2 / pageSize) frame write)

/-- `handle_user_page_fault` for shared file areas and for private ones. -/
def State.fault (s : State) (env : Env) (proc cr2 : ℕ) (write exec : Bool) : State :=
  if (s.leaf proc (cr2 / pageSize)).any (·.permits write exec) then s
  else
    match faultVma (s.vmas proc) cr2 write exec with
    | none => s
    | some v =>
      if hasFlag v.flags vmaShmem then s
      else if hasFlag v.flags vmaShared then
        match v.file with
        | none => s
        | some file => s.faultShared env v file proc cr2 write
      else s.faultPrivate env v proc cr2 write

def Leaf.inRange (proc addr len : ℕ) (l : Leaf) : Bool :=
  l.proc == proc && decide (addr / pageSize ≤ l.page) &&
    decide (l.page < addr / pageSize + len / pageSize)

/-- The common part of `munmap` and `MAP_FIXED`: whether the frames are freed is
decided by the area at the start of the range alone. -/
def State.discard (s : State) (proc addr len : ℕ) (slab : List Bool) :
    State × List Bool :=
  let removed := vmaRemoveRange addr (addr + len) (s.vmas proc) slab
  let freed :=
    if sharedFileAt (s.vmas proc) addr then []
    else (s.leaves.filter (Leaf.inRange proc addr len)).map (·.frame)
  ({ s with
      refs := freed.foldl release s.refs
      vmas := Function.update s.vmas proc removed.1
      leaves := s.leaves.filter fun l => !l.inRange proc addr len }, removed.2)

/-- A new area in the list of a process. -/
def State.insert (s : State) (proc : ℕ) (new : Vma) (slab : List Bool) : State :=
  match (vmaInsert (s.vmas proc) new slab).1 with
  | none => s
  | some vmas => { s with vmas := Function.update s.vmas proc vmas }

inductive Event
  | fault (env : Env) (proc cr2 : ℕ) (write exec : Bool)
  | munmap (proc addr len : ℕ) (slab : List Bool)
  | mapFixed (proc addr len flags : ℕ) (file : Option ℕ) (off : ℕ) (slab : List Bool)
  /-- An `mmap` that found room. -/
  | mmap (proc : ℕ) (new : Vma) (slab : List Bool)
  /-- With `handover` the caller has just allocated the frame and leaves its
  reference to the cache. -/
  | put (file offset frame : ℕ) (handover kmalloc : Bool)
  | invalidate (file : ℕ)
  | flush (file : ℕ) (written : ℕ → Bool)

def State.step (s : State) : Event → State
  | .fault env proc cr2 write exec => s.fault env proc cr2 write exec
  | .munmap proc addr len slab =>
    if userMmapRangeOk addr len then (s.discard proc addr len slab).1 else s
  | .mapFixed proc addr len flags file off slab =>
    if userMmapRangeOk addr len then
      let cut := s.discard proc addr len slab
      cut.1.insert proc ⟨addr, addr + len, flags, file, off, 0⟩ cut.2
    else s
  | .mmap proc new slab => s.insert proc new slab
  | .put file offset frame handover kmalloc =>
    if handover then
      if s.refs frame ≠ 0 then s
      else { s with refs := fresh s.refs frame }.put file offset frame kmalloc
    else s.put file offset frame kmalloc
  | .invalidate file => s.invalidate file
  | .flush file written => s.flush file written

def State.Step (s : State) (event : Event) (s' : State) : Prop := s.step event = s'

def State.start : State where
  refs _ := 0
  cache := []
  vmas _ := []
  leaves := []

/-! ## The account -/

def State.cached (s : State) (f : ℕ) : ℕ := (s.cache.map (·.frame)).count f

def State.mapped (s : State) (f : ℕ) : ℕ := (s.leaves.map (·.frame)).count f

/-- Every frame has one reference for the cache and one for each leaf. -/
structure Accounts (s : State) : Prop where
  exact : Exact s.refs fun f => s.cached f + s.mapped f
  single : (s.cache.map (·.frame)).Nodup

/-- The condition on the calls.  A fault finds no leaf that forbids the access,
gets its page table and takes no count to `2 ^ 32`; a range that starts with a
shared file mapping holds no leaf; a frame is put only with its first reference
and for a new key; no file is invalidated while it has entries. -/
def Event.Fits (s : State) : Event → Prop
  | .fault env proc cr2 write exec =>
    (∀ l ∈ s.leaf proc (cr2 / pageSize), l.permits write exec = true) ∧
      env.table = true ∧ ∀ e ∈ s.cache, s.refs e.frame + 1 < 2 ^ 32
  | .munmap proc addr len _ | .mapFixed proc addr len _ _ _ _ =>
    sharedFileAt (s.vmas proc) addr = true →
      ∀ l ∈ s.leaves, l.inRange proc addr len = false
  | .put file offset _ handover kmalloc =>
    handover = true ∧ kmalloc = true ∧ s.lookup file offset = none
  | .invalidate file => ∀ e ∈ s.cache, e.file ≠ file
  | _ => True

/-! ## Each call keeps the account -/

variable {s s' : State} {env : Env} {file offset proc addr len frame : ℕ}

open State

theorem Accounts.congr (hacc : Accounts s) (hrefs : s'.refs = s.refs)
    (hcache : s'.cache.map (·.frame) = s.cache.map (·.frame))
    (hleaves : s'.leaves = s.leaves) : Accounts s' := by
  refine ⟨?_, hcache ▸ hacc.single⟩
  rw [hrefs]
  refine hacc.exact.congr fun x => ?_
  rw [cached, cached, mapped, mapped, hcache, hleaves]

theorem map_frame_congr {change : CacheEntry → CacheEntry}
    (hframe : ∀ e, (change e).frame = e.frame) (cache : List CacheEntry) :
    (cache.map change).map (·.frame) = cache.map (·.frame) := by
  rw [map_map]
  exact map_congr_left fun e _ => hframe e

theorem markDirty_cache (s : State) (file offset : ℕ) :
    (s.markDirty file offset).cache.map (·.frame) = s.cache.map (·.frame) := by
  refine map_frame_congr (fun e => ?_) s.cache
  split_ifs <;> rfl

theorem flush_cache (s : State) (file : ℕ) (written : ℕ → Bool) :
    (s.flush file written).cache.map (·.frame) = s.cache.map (·.frame) := by
  refine map_frame_congr (fun e => ?_) s.cache
  split_ifs <;> rfl

theorem Accounts.fresh_not_cached (hacc : Accounts s) (hfree : s.refs frame = 0) :
    frame ∉ s.cache.map (·.frame) := by
  have hcount : s.refs frame = s.cached frame + s.mapped frame := hacc.exact frame
  have hzero : s.cached frame = 0 := by omega
  exact List.count_eq_zero.mp hzero

/-- `page_cache_get_or_alloc` gives its caller a reference besides the account. -/
structure Handed (s s' : State) (frame : ℕ) : Prop where
  exact : Exact s'.refs fun x => s'.cached x + s'.mapped x + [frame].count x
  single : (s'.cache.map (·.frame)).Nodup
  leaves : s'.leaves = s.leaves

section

variable (hacc : Accounts s)
include hacc

theorem Accounts.getOrAlloc (hroom : ∀ e ∈ s.cache, s.refs e.frame + 1 < 2 ^ 32) :
    (∃ frame, (s.getOrAlloc env file offset).2 = some frame ∧
      Handed s (s.getOrAlloc env file offset).1 frame) ∨
    s.getOrAlloc env file offset = (s, none) := by
  rw [State.getOrAlloc]
  cases hlookup : s.lookup file offset with
  | some e =>
    have hroomE := hroom e (mem_of_find?_eq_some hlookup)
    simp only
    split_ifs
    · exact .inr rfl
    · refine .inl ⟨e.frame, rfl, ?_, hacc.single, rfl⟩
      simp only [retainMod_of_lt hroomE]
      exact hacc.exact.retain fun x => rfl
  | none =>
    simp only
    cases hframe : (if env.kmalloc then env.frame else none) with
    | none => exact .inr rfl
    | some frame =>
      simp only
      split_ifs with hused
      · exact .inr rfl
      · have hfree := not_not.mp hused
        refine .inl ⟨frame, rfl, ?_, ?_, rfl⟩
        · have hone : fresh s.refs frame frame + 1 < 2 ^ 32 := by
            rw [RefCount.fresh, Function.update_self]
            decide
          simp only [retainMod_of_lt hone]
          refine (hacc.exact.fresh hfree fun x => ?_).retain fun x => rfl
          simp only [cached, mapped, map_cons,
            count_cons_single frame (s.cache.map (·.frame)) x]
          omega
        · exact List.nodup_cons.mpr ⟨hacc.fresh_not_cached hfree, hacc.single⟩

omit hacc in
/-- Mapping a page that has no leaf uses up the reference of the caller. -/
theorem Handed.mapLeaf {before : State} {leaf : Leaf} (hhanded : Handed before s leaf.frame)
    (hnone : s.leaf leaf.proc leaf.page = none) (htable : env.table = true) :
    Accounts (s.mapLeaf env leaf) := by
  have hkept : (s.leaves.filter fun l =>
      !(l.proc == leaf.proc && l.page == leaf.page)) = s.leaves := by
    rw [filter_eq_self]
    intro l hl
    have hother := List.find?_eq_none.mp hnone l hl
    rwa [Bool.not_eq_true, ← Bool.not_eq_true'] at hother
  rw [State.mapLeaf, if_pos htable, hkept]
  refine ⟨hhanded.exact.congr fun x => ?_, hhanded.single⟩
  simp only [cached, mapped, map_cons,
    count_cons_single leaf.frame (s.leaves.map (·.frame)) x]
  omega

section

variable {v : Vma} {cr2 : ℕ} {write : Bool} (hnone : s.leaf proc (cr2 / pageSize) = none)
  (htable : env.table = true)
include hnone htable

theorem Accounts.faultShared (hroom : ∀ e ∈ s.cache, s.refs e.frame + 1 < 2 ^ 32) :
    Accounts (s.faultShared env v file proc cr2 write) := by
  rw [State.faultShared]
  generalize wrap64 (v.fileOff + (alignDown cr2 pageSize - v.vaStart)) = offset
  rcases @Accounts.getOrAlloc s env file offset hacc hroom with
    ⟨frame, hframe, hhanded⟩ | hfailed
  · generalize s.getOrAlloc env file offset = r at hframe hhanded
    obtain ⟨s', given⟩ := r
    simp only at hframe hhanded
    subst hframe
    have hdirty : Handed s (if write then s'.markDirty file offset else s') frame := by
      split_ifs
      · have hcache := markDirty_cache s' file offset
        refine ⟨hhanded.exact.congr fun x => ?_, hcache ▸ hhanded.single, hhanded.leaves⟩
        rw [cached, hcache]
        rfl
      · exact hhanded
    refine @Handed.mapLeaf _ env s (faultLeaf v proc (cr2 / pageSize) frame write) hdirty ?_ htable
    rw [leaf, hdirty.leaves]
    exact hnone
  · rw [hfailed]
    exact hacc

theorem Accounts.faultPrivate : Accounts (s.faultPrivate env v proc cr2 write) := by
  rw [State.faultPrivate]
  cases hframe : env.frame with
  | none => exact hacc
  | some frame =>
    simp only
    split_ifs with hused
    · exact hacc
    · have hhanded : Handed s { s with refs := fresh s.refs frame } frame :=
        ⟨hacc.exact.fresh (not_not.mp hused) fun x => rfl, hacc.single, rfl⟩
      exact @Handed.mapLeaf _ env s (faultLeaf v proc (cr2 / pageSize) frame write)
        hhanded hnone htable

end

theorem Accounts.fault {cr2 : ℕ} {write exec : Bool}
    (hfits : Event.Fits s (.fault env proc cr2 write exec)) :
    Accounts (s.fault env proc cr2 write exec) := by
  obtain ⟨hpermits, htable, hroom⟩ := hfits
  rw [State.fault]
  by_cases hresolved : (s.leaf proc (cr2 / pageSize)).any (·.permits write exec) = true
  · rw [if_pos hresolved]
    exact hacc
  · have hnone : s.leaf proc (cr2 / pageSize) = none := by
      cases hleaf : s.leaf proc (cr2 / pageSize) with
      | none => rfl
      | some l =>
        have hl := hpermits l hleaf
        simp [hleaf, hl] at hresolved
    rw [if_neg hresolved]
    cases hvma : faultVma (s.vmas proc) cr2 write exec with
    | none => exact hacc
    | some v =>
      simp only
      split_ifs with hshmem hshared
      · exact hacc
      · cases hfile : v.file with
        | none => exact hacc
        | some file => exact hacc.faultShared hnone htable hroom
      · exact hacc.faultPrivate hnone htable

theorem Accounts.discard (slab : List Bool) (hfits : sharedFileAt (s.vmas proc) addr = true →
      ∀ l ∈ s.leaves, l.inRange proc addr len = false) :
    Accounts (s.discard proc addr len slab).1 := by
  have hsplit : ∀ x, ((s.leaves.filter fun l => !l.inRange proc addr len).map (·.frame)).count x +
        ((s.leaves.filter (Leaf.inRange proc addr len)).map (·.frame)).count x =
      s.mapped x := by
    intro x
    have hperm := (filter_append_perm (Leaf.inRange proc addr len) s.leaves).map (·.frame)
    have hcount := hperm.count_eq x
    rw [map_append, count_append] at hcount
    rw [State.mapped]
    omega
  refine ⟨hacc.exact.releaseAll fun x => ?_, hacc.single⟩
  have hx := hsplit x
  simp only [State.cached, State.mapped, State.discard] at hx ⊢
  split_ifs with hshared
  · have hempty : s.leaves.filter (Leaf.inRange proc addr len) = [] := by
      rw [filter_eq_nil_iff]
      intro l hl
      simp [hfits hshared l hl]
    rw [hempty, map_nil] at hx
    omega
  · omega

theorem Accounts.insert (new : Vma) (slab : List Bool) : Accounts (s.insert proc new slab) := by
  rw [State.insert]
  split
  · exact hacc
  · exact hacc.congr rfl rfl rfl

theorem Accounts.put (hnone : s.lookup file offset = none) (hfree : s.refs frame = 0) :
    Accounts ({ s with refs := fresh s.refs frame }.put file offset frame true) := by
  have hput : { s with refs := fresh s.refs frame }.put file offset frame true = { s with
        refs := fresh s.refs frame
        cache := ⟨file, offset, frame, false⟩ :: s.cache } := by
    have hlookup : { s with refs := fresh s.refs frame }.lookup file offset = none := hnone
    rw [State.put, hlookup]
    rfl
  rw [hput]
  refine ⟨hacc.exact.fresh hfree fun x => ?_,
    List.nodup_cons.mpr ⟨hacc.fresh_not_cached hfree, hacc.single⟩⟩
  simp only [cached, mapped, map_cons,
    count_cons_single frame (s.cache.map (·.frame)) x]
  omega

theorem Accounts.step {event : Event} (hfits : event.Fits s) : Accounts (s.step event) := by
  cases event with
  | fault env proc cr2 write exec => exact hacc.fault hfits
  | munmap proc addr len slab =>
    simp only [State.step]
    split_ifs
    · exact hacc.discard slab hfits
    · exact hacc
  | mapFixed proc addr len flags file off slab =>
    simp only [State.step]
    split_ifs
    · exact (hacc.discard slab hfits).insert _ _
    · exact hacc
  | mmap proc new slab => exact hacc.insert new slab
  | put file offset frame handover kmalloc =>
    obtain ⟨rfl, rfl, hnone⟩ := hfits
    simp only [State.step, if_true]
    split_ifs with hused
    · exact hacc
    · exact hacc.put hnone (not_not.mp hused)
  | invalidate file =>
    have hkept : s.cache.filter (·.file != file) = s.cache := by
      rw [filter_eq_self]
      intro e he
      simpa using hfits e he
    exact hacc.congr rfl (by rw [State.step, State.invalidate, hkept]) rfl
  | flush file written => exact hacc.congr rfl (flush_cache s file written) rfl

end

/-- In every run whose calls meet the condition each frame has one reference if
it is in the cache and one for each leaf that maps it; without leaves and
entries it is free. -/
theorem page_cache_accounts {s₀ : State} (hstart : Accounts s₀)
    (hrun : Reaches (guarded (fun s event => Event.Fits s event) State.Step) s₀ s) :
    (∀ f, s.refs f = (if f ∈ s.cache.map (·.frame) then 1 else 0) + s.mapped f) ∧
    (s.leaves = [] → s.cache = [] → ∀ f, s.refs f = 0) := by
  have hacc : Accounts s :=
    hrun.kept hstart fun hacc hfits => hacc.step hfits
  have hexact : ∀ f, s.refs f = (if f ∈ s.cache.map (·.frame) then 1 else 0) + s.mapped f := by
    intro f
    have hf : s.refs f = s.cached f + s.mapped f := hacc.exact f
    rw [hf, cached, hacc.single.count]
  refine ⟨hexact, fun hleaves hcache f => ?_⟩
  rw [hexact f, mapped, hleaves, hcache]
  rfl

/-! ## One shared file page -/

/-- A kernel that hands out frame `9`. -/
def frameNine : Env := ⟨some 9, true, true⟩

/-- Process `0` maps one page of file `3`, shared and writable. -/
def mapFile (proc : ℕ) : Event :=
  .mmap proc ⟨userMmapBase, userMmapBase + pageSize, mmapVmaFlags 3 mapShared, some 3, 0, 0⟩
    [true]

def touchFile (proc : ℕ) (write : Bool) : Event :=
  .fault frameNine proc userMmapBase write false

def storeRun : List Event := [mapFile 0, touchFile 0 true, mapFile 1, touchFile 1 true]

instance (s : State) (event : Event) : Decidable (event.Fits s) := by
  cases event <;> unfold Event.Fits <;> infer_instance

theorem start_accounts : Accounts State.start := ⟨fun _ => rfl, nodup_nil⟩

/-- A page that two processes touch by a store: one reference for the cache, one for
each leaf. -/
theorem page_cache_accounts_store : Accounts State.start ∧
      Reaches (guarded (fun s event => Event.Fits s event) State.Step) State.start
        (storeRun.foldl State.step State.start) ∧
      (storeRun.foldl State.step State.start).refs 9 = 3 ∧
      (storeRun.foldl State.step State.start).refs 9 =
        (if 9 ∈ (storeRun.foldl State.step State.start).cache.map (·.frame) then 1
          else 0) + (storeRun.foldl State.step State.start).mapped 9 := by
  have hrun : Reaches (guarded (fun s event => Event.Fits s event) Step)
      start (storeRun.foldl step start) := reaches_foldl (by decide +kernel)
  exact ⟨start_accounts, hrun, by decide +kernel, (page_cache_accounts start_accounts hrun).1 9⟩

/-- A load, then a store to the same page, then `munmap` and the invalidation of
the file. -/
def leakRun : List Event :=
  [mapFile 0, touchFile 0 false, touchFile 0 true,
    .munmap 0 userMmapBase pageSize [true, true], .invalidate 3]

/-- The store takes a second reference for the same leaf; `munmap` drops none,
and neither does the invalidation: the frame is lost with three references, no
leaf and no cache entry. -/
theorem page_cache_leaks : ((leakRun.take 3).foldl State.step State.start).refs 9 = 3 ∧
      ((leakRun.take 3).foldl State.step State.start).cached 9 = 1 ∧
      ((leakRun.take 3).foldl State.step State.start).mapped 9 = 1 ∧
      ((leakRun.take 4).foldl State.step State.start).refs 9 = 3 ∧
      ((leakRun.take 4).foldl State.step State.start).mapped 9 = 0 ∧
      (leakRun.foldl State.step State.start).refs 9 = 3 ∧
      (leakRun.foldl State.step State.start).cache = [] ∧
      (leakRun.foldl State.step State.start).leaves = [] := by
  refine ⟨?_, ?_, ?_, ?_, ?_, ?_, ?_, ?_⟩
  all_goals decide +kernel

end AuraLite.PageCache

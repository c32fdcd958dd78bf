import AuraLite.Lib.Reachability
import AuraLite.Lib.RecencyList
import Mathlib.Algebra.BigOperators.Group.Finset.Basic
import Mathlib.Order.Interval.Finset.Nat

/-!
# The buffer cache

`buffer_cache.c`: a pool of sector buffers on a recency list, with write-back.  A store
marks a buffer dirty; a dirty buffer is written to the device when it is evicted, by the
tick of the timer, or by a sync.  Every access to the device may fail, and a failed one
may leave anything in its target.
-/

namespace AuraLite.BufferCache

open List RecencyList Reachability
open Function (update update_self update_of_ne)

/-- A device and a sector of it. -/
abbrev Key := ℕ × ℕ

/-- The mark of an empty buffer, `(uint64_t)-1`. -/
def noBlock : ℕ := 2 ^ 64 - 1

structure Buffer (Data : Type) where
  device : ℕ
  block : ℕ
  data : Data
  dirty : Bool
  lockCount : ℕ

variable {Data : Type}

def Buffer.key (b : Buffer Data) : Key := (b.device, b.block)

/-- Buffers are named by their pointers, from one on. -/
structure State (Data : Type) where
  size : ℕ
  pool : ℕ → Buffer Data
  lru : Links
  hits : ℕ
  misses : ℕ
  deferred : ℕ
  flushed : ℕ
  coalesced : ℕ
  disk : Key → Data
  /-- The number of accesses to the device. -/
  io : ℕ
  /-- What was last stored in a sector, for the statements only. -/
  stored : Key → Option Data

/-- The accesses that fail, with what they leave behind. -/
abbrev Faults (Data : Type) := ℕ → Option Data

/-- `bc_init`, over a device with the given content. -/
def bcInit (size : ℕ) (zero : Data) (disk : Key → Data) : State Data where
  size := size
  pool := fun _ => ⟨0, noBlock, zero, false, 0⟩
  lru :=
    { head := 1
      tail := size
      next := fun b => if b < size then b + 1 else 0
      prev := fun b => b - 1 }
  hits := 0
  misses := 0
  deferred := 0
  flushed := 0
  coalesced := 0
  disk := disk
  io := 0
  stored := fun _ => none

/-! ## The code -/

def State.setBuffer (s : State Data) (b : ℕ) (buf : Buffer Data) : State Data :=
  { s with pool := update s.pool b buf }

/-- The buffers from the head of the list on. -/
def State.forward (s : State Data) : List ℕ := walk s.lru.next (s.size + 1) s.lru.head

/-- The buffers from the tail of the list on. -/
def State.backward (s : State Data) : List ℕ := walk s.lru.prev (s.size + 1) s.lru.tail

def lruTouch (s : State Data) (b : ℕ) : State Data := { s with lru := s.lru.touch b }

/-- `bc_sync`: whether the buffer is clean then. -/
def bcSync (faults : Faults Data) (b : ℕ) (s : State Data) : Bool × State Data :=
  let buf := s.pool b
  if buf.dirty = false then (true, s)
  else
    match faults s.io with
    | some junk =>
      (false, { s with io := s.io + 1, disk := update s.disk buf.key junk })
    | none =>
      (true, { s.setBuffer b { buf with dirty := false } with
        io := s.io + 1
        disk := update s.disk buf.key buf.data
        flushed := s.flushed + 1 })

/-- The loop of `bc_evict`. -/
def evictFrom (faults : Faults Data) : List ℕ → State Data → Bool × State Data
  | [], s => (false, s)
  | b :: rest, s =>
    if (s.pool b).lockCount = 0 then
      let synced := bcSync faults b s
      if synced.1 then
        (true, synced.2.setBuffer b
          { synced.2.pool b with block := noBlock, dirty := false })
      else evictFrom faults rest synced.2
    else evictFrom faults rest s

def bcEvict (faults : Faults Data) (s : State Data) : Bool × State Data :=
  evictFrom faults s.backward s

def State.findEmpty (s : State Data) : Option ℕ :=
  s.backward.find? fun b => (s.pool b).block == noBlock

/-- The buffer to fill: an empty one, or one that is evicted. -/
def candidate (faults : Faults Data) (s : State Data) : Option ℕ × State Data :=
  match s.findEmpty with
  | some b => (some b, s)
  | none =>
    let evicted := bcEvict faults s
    if evicted.1 then (evicted.2.findEmpty, evicted.2) else (none, evicted.2)

/-- The read from the device into a buffer. -/
def fill (faults : Faults Data) (key : Key) (b : ℕ) (s : State Data) :
    Option ℕ × State Data :=
  match faults s.io with
  | some junk => (none, { s.setBuffer b { s.pool b with data := junk } with io := s.io + 1 })
  | none =>
    (some b, lruTouch { s.setBuffer b ⟨key.1, key.2, s.disk key, false, 1⟩ with
      io := s.io + 1 } b)

def bcGet (faults : Faults Data) (key : Key) (s : State Data) : Option ℕ × State Data :=
  match s.forward.find? fun b => (s.pool b).key == key with
  | some b =>
    (some b, lruTouch { s.setBuffer b
      { s.pool b with lockCount := (s.pool b).lockCount + 1 } with
      hits := s.hits + 1 } b)
  | none =>
    let found := candidate faults { s with misses := s.misses + 1 }
    match found.1 with
    | none => (none, found.2)
    | some b => fill faults key b found.2

def bcRelease (b : ℕ) (s : State Data) : State Data :=
  s.setBuffer b { s.pool b with lockCount := (s.pool b).lockCount - 1 }

/-- The sectors of a transfer, in 64-bit arithmetic. -/
def sectors (lba count : ℕ) : List ℕ := (List.range count).map fun i => (lba + i) % 2 ^ 64

/-- The loop of `fs_read_block`. -/
def readSectors (faults : Faults Data) (dev : ℕ) :
    List ℕ → State Data → Option (List Data) × State Data
  | [], s => (some [], s)
  | sector :: rest, s =>
    let got := bcGet faults (dev, sector) s
    match got.1 with
    | none => (none, got.2)
    | some b =>
      let data := (got.2.pool b).data
      let more := readSectors faults dev rest (bcRelease b got.2)
      (more.1.map (data :: ·), more.2)

def fsReadBlock (faults : Faults Data) (dev lba count : ℕ) (s : State Data) :
    Option (List Data) × State Data :=
  readSectors faults dev (sectors lba count) s

/-- The copy for a sector into its buffer, with the marks and the counters. -/
def store (key : Key) (b : ℕ) (data : Data) (s : State Data) : State Data :=
  { s.setBuffer b { s.pool b with data := data, dirty := true } with
    coalesced := if (s.pool b).dirty then s.coalesced + 1 else s.coalesced
    deferred := s.deferred + 1
    stored := update s.stored key (some data) }

/-- The loop of `fs_write_block`. -/
def writeSectors (faults : Faults Data) (dev : ℕ) :
    List (ℕ × Data) → State Data → Bool × State Data
  | [], s => (true, s)
  | (sector, data) :: rest, s =>
    let got := bcGet faults (dev, sector) s
    match got.1 with
    | none => (false, got.2)
    | some b => writeSectors faults dev rest (bcRelease b (store (dev, sector) b data got.2))

def fsWriteBlock (faults : Faults Data) (dev lba : ℕ) (buf : List Data) (s : State Data) :
    Bool × State Data :=
  writeSectors faults dev ((sectors lba buf.length).zip buf) s

/-- `bc_flush_all`, which is all that `fs_cache_sync` does to the cache. -/
def bcFlushAll (faults : Faults Data) (s : State Data) : State Data :=
  s.forward.foldl (fun s b => (bcSync faults b s).2) s

/-- `BC_TICK_FLUSH_BUDGET`. -/
def tickBudget : ℕ := 256

/-- The loop of `bc_tick`. -/
def tickFrom (faults : Faults Data) : List ℕ → ℕ → State Data → State Data
  | [], _, s => s
  | b :: rest, budget, s =>
    if budget = 0 then s
    else if (s.pool b).dirty = true ∧ (s.pool b).lockCount = 0 then
      let synced := bcSync faults b s
      if synced.1 then tickFrom faults rest (budget - 1) synced.2 else synced.2
    else tickFrom faults rest budget s

/-- `bc_tick`, when it gets the lock. -/
def bcTick (faults : Faults Data) (s : State Data) : State Data :=
  tickFrom faults s.backward tickBudget s

/-! ## The invariant -/

def pointers (size : ℕ) : Finset ℕ := Finset.Icc 1 size

/-- What a sector is meant to hold. -/
def State.expected (s : State Data) (original : Key → Data) (key : Key) : Data :=
  (s.stored key).getD (original key)

def dirtyMark (buf : Buffer Data) : ℕ := if buf.dirty then 1 else 0

def State.dirtyCount (s : State Data) : ℕ := ∑ b ∈ pointers s.size, dirtyMark (s.pool b)

/-- The recency list holds every buffer, and none twice. -/
def State.Listed (s : State Data) : Prop :=
  ∃ nodes, Ordered s.lru nodes ∧ ∀ b, b ∈ nodes ↔ b ∈ pointers s.size

structure Sound (original : Key → Data) (s : State Data) : Prop where
  listed : s.Listed
  unique : ∀ b ∈ pointers s.size, ∀ b' ∈ pointers s.size, (s.pool b).key = (s.pool b').key →
    (s.pool b).block ≠ noBlock → b = b'
  empty : ∀ b ∈ pointers s.size, (s.pool b).block = noBlock → (s.pool b).dirty = false
  cached : ∀ b ∈ pointers s.size, (s.pool b).block ≠ noBlock →
    (s.pool b).data = s.expected original (s.pool b).key
  clean : ∀ key, (∀ b ∈ pointers s.size, (s.pool b).key = key → (s.pool b).dirty = false) →
    s.disk key = s.expected original key
  counters : s.deferred = s.flushed + s.coalesced + s.dirtyCount

variable {original : Key → Data} {s s' : State Data} {b : ℕ} {key : Key} {faults : Faults Data}

open State

/-- The walks see the whole list, in the two directions. -/
theorem State.Listed.walks (h : s.Listed) :
    ∃ nodes, s.forward = nodes ∧ s.backward = nodes.reverse ∧
      ∀ b, b ∈ nodes ↔ b ∈ pointers s.size := by
  obtain ⟨nodes, hordered, hmem⟩ := h
  have hlength : nodes.length < s.size + 1 := by
    have hsubset : nodes.toFinset ⊆ pointers s.size := by
      intro b hb
      exact (hmem b).mp (List.mem_toFinset.mp hb)
    have hcard := Finset.card_le_card hsubset
    rw [toFinset_card_of_nodup hordered.nodup, pointers, Nat.card_Icc] at hcard
    exact Nat.lt_succ_of_le hcard
  exact ⟨nodes, hordered.forward hlength, hordered.backward hlength, hmem⟩

theorem State.Listed.mem_forward (h : s.Listed) : b ∈ s.forward ↔ b ∈ pointers s.size := by
  obtain ⟨nodes, hforward, -, hmem⟩ := h.walks
  rw [hforward, hmem]

theorem State.Listed.mem_backward (h : s.Listed) : b ∈ s.backward ↔ b ∈ pointers s.size := by
  obtain ⟨nodes, -, hbackward, hmem⟩ := h.walks
  rw [hbackward, mem_reverse, hmem]

theorem State.Listed.touch (h : s.Listed) (hb : b ∈ pointers s.size) : (lruTouch s b).Listed := by
  obtain ⟨nodes, hordered, hmem⟩ := h
  have hin : b ∈ nodes := (hmem b).mpr hb
  refine ⟨_, hordered.touch hin, fun c => ?_⟩
  rw [← (perm_cons_erase hin).mem_iff]
  exact hmem c

theorem sum_change {f g : ℕ → ℕ} {t : Finset ℕ} (hb : b ∈ t)
    (hsame : ∀ c ∈ t, c ≠ b → g c = f c) : ∑ c ∈ t, g c + f b = ∑ c ∈ t, f c + g b := by
  have hrest : ∑ c ∈ t.erase b, g c = ∑ c ∈ t.erase b, f c := by
    apply Finset.sum_congr rfl
    intro c hc
    rw [Finset.mem_erase] at hc
    exact hsame c hc.2 hc.1
  rw [← Finset.add_sum_erase t g hb, ← Finset.add_sum_erase t f hb, hrest]
  omega

/-- A sector is on the device if neither `b` nor another buffer holds changes to it. -/
theorem Sound.clean_of (h : Sound original s)
    (hself : (s.pool b).key = key → (s.pool b).dirty = false)
    (hall : ∀ c ∈ pointers s.size, c ≠ b → (s.pool c).key = key → (s.pool c).dirty = false) :
    s.disk key = s.expected original key := by
  apply h.clean key
  intro c hc hkey
  by_cases hcb : c = b
  · rw [hcb] at hkey ⊢
    exact hself hkey
  · exact hall c hc hcb hkey

/-- No other buffer holds the sector of a buffer that is in use. -/
theorem Sound.key_ne (h : Sound original s) (hb : b ∈ pointers s.size)
    (hblock : (s.pool b).block ≠ noBlock) :
    ∀ c ∈ pointers s.size, c ≠ b → (s.pool c).key ≠ (s.pool b).key := by
  intro c hc hcb hkey
  have hsome : (s.pool c).block = (s.pool b).block := congrArg Prod.snd hkey
  exact hcb (h.unique c hc b hb hkey (hsome ▸ hblock))

/-- One buffer changes, and with it the device, what is expected, and the counters. -/
theorem Sound.edit (h : Sound original s) (hb : b ∈ pointers s.size) (buf : Buffer Data)
    (hlru : s'.lru = s.lru) (hsize : s'.size = s.size)
    (hpool : s'.pool = update s.pool b buf)
    (hunique : buf.block ≠ noBlock → ∀ c ∈ pointers s.size, c ≠ b → (s.pool c).key ≠ buf.key)
    (hempty : buf.block = noBlock → buf.dirty = false)
    (hcached : buf.block ≠ noBlock → buf.data = s'.expected original buf.key)
    (hothers : ∀ c ∈ pointers s.size, c ≠ b → (s.pool c).block ≠ noBlock →
      s'.expected original (s.pool c).key = s.expected original (s.pool c).key)
    (hclean : ∀ key, (buf.key = key → buf.dirty = false) →
      (∀ c ∈ pointers s.size, c ≠ b → (s.pool c).key = key → (s.pool c).dirty = false) →
      s'.disk key = s'.expected original key)
    (hcounters : s'.deferred + s.flushed + s.coalesced + dirtyMark (s.pool b) =
      s.deferred + s'.flushed + s'.coalesced + dirtyMark buf) : Sound original s' := by
  have hself : s'.pool b = buf := by rw [hpool, update_self]
  have hne : ∀ c, c ≠ b → s'.pool c = s.pool c := fun c hc => by
    rw [hpool, update_of_ne hc]
  refine ⟨?_, ?_, ?_, ?_, ?_, ?_⟩
  · obtain ⟨nodes, hordered, hmem⟩ := h.listed
    exact ⟨nodes, hlru ▸ hordered, fun c => hsize ▸ hmem c⟩
  · rw [hsize]
    intro c hc c' hc' hkey hblock
    by_contra hcc
    by_cases hcb : c = b
    · have hcb' : c' ≠ b := fun heq => hcc (hcb.trans heq.symm)
      rw [hcb, hself] at hkey hblock
      rw [hne c' hcb'] at hkey
      exact hunique hblock c' hc' hcb' hkey.symm
    · rw [hne c hcb] at hkey hblock
      by_cases hcb' : c' = b
      · rw [hcb', hself] at hkey
        have hsome : (s.pool c).block = buf.block := congrArg Prod.snd hkey
        exact hunique (hsome ▸ hblock) c hc hcb hkey
      · rw [hne c' hcb'] at hkey
        exact hcc (h.unique c hc c' hc' hkey hblock)
  · rw [hsize]
    intro c hc
    by_cases hcb : c = b
    · rw [hcb, hself]
      exact hempty
    · rw [hne c hcb]
      exact h.empty c hc
  · rw [hsize]
    intro c hc hblock
    by_cases hcb : c = b
    · rw [hcb, hself] at hblock ⊢
      exact hcached hblock
    · rw [hne c hcb] at hblock ⊢
      rw [hothers c hc hcb hblock]
      exact h.cached c hc hblock
  · rw [hsize]
    intro key hall
    apply hclean key
    · have hb' := hall b hb
      rw [hself] at hb'
      exact hb'
    · intro c hc hcb
      have hc' := hall c hc
      rw [hne c hcb] at hc'
      exact hc'
  · have hsum : s'.dirtyCount + dirtyMark (s.pool b) = s.dirtyCount + dirtyMark buf := by
      rw [dirtyCount, dirtyCount, hsize]
      have hchange := @sum_change b (fun c => dirtyMark (s.pool c)) (fun c => dirtyMark (s'.pool c))
        (pointers s.size) hb fun c _ hcb => by rw [hne c hcb]
      rw [hself] at hchange
      exact hchange
    have hbefore := h.counters
    omega

/-! ## Writing back -/

/-- What writing back leaves alone. -/
structure Flushes (s s' : State Data) : Prop where
  size : s'.size = s.size
  stored : s'.stored = s.stored
  key : ∀ b, (s'.pool b).key = (s.pool b).key

theorem Flushes.refl (s : State Data) : Flushes s s := ⟨rfl, rfl, fun _ => rfl⟩

/-- A dirty buffer is on the device when it gets clean; a failed write spoils only a
sector that a dirty buffer holds. -/
theorem bcSync_sound (h : Sound original s) (hb : b ∈ pointers s.size) :
    Sound original (bcSync faults b s).2 ∧ Flushes s (bcSync faults b s).2 ∧
      ((bcSync faults b s).1 = true → ((bcSync faults b s).2.pool b).dirty = false) := by
  rw [bcSync]
  by_cases hdirty : (s.pool b).dirty = false
  · rw [if_pos hdirty]
    exact ⟨h, .refl s, fun _ => hdirty⟩
  rw [if_neg hdirty]
  have hset : (s.pool b).dirty = true := Bool.eq_true_of_not_eq_false hdirty
  have hblock : (s.pool b).block ≠ noBlock := fun hnone => hdirty (h.empty b hb hnone)
  have hunique := h.key_ne hb hblock
  cases hfault : faults s.io with
  | some junk =>
    refine ⟨?_, ⟨rfl, rfl, fun _ => rfl⟩, nofun⟩
    refine h.edit hb (s.pool b) rfl rfl (Function.update_eq_self b s.pool).symm
      (fun _ => hunique) (h.empty b hb) (h.cached b hb) (fun _ _ _ _ => rfl) ?_ rfl
    intro key hself hall
    have hkey : key ≠ (s.pool b).key := fun heq => hdirty (hself heq.symm)
    exact (update_of_ne hkey junk s.disk).trans
      (h.clean_of (fun heq => absurd heq.symm hkey) hall)
  | none =>
    refine ⟨?_, ⟨rfl, rfl, ?_⟩, fun _ => ?_⟩
    · refine h.edit hb { s.pool b with dirty := false } rfl rfl rfl (fun _ => hunique)
        (fun _ => rfl) (h.cached b hb) (fun _ _ _ _ => rfl) ?_ ?_
      · intro key _ hall
        by_cases hkey : key = (s.pool b).key
        · rw [hkey]
          exact (update_self (s.pool b).key (s.pool b).data s.disk).trans (h.cached b hb hblock)
        · exact (update_of_ne hkey (s.pool b).data s.disk).trans
            (h.clean_of (fun heq => absurd heq.symm hkey) hall)
      · simp only [dirtyMark, hset, if_true]
        exact Nat.add_right_comm _ _ _
    · intro c
      by_cases hcb : c = b
      · rw [hcb]
        simp only [setBuffer, update_self]
        rfl
      · simp only [setBuffer, update_of_ne hcb]
    · simp only [setBuffer, update_self]

theorem Sound.drop (h : Sound original s) (hb : b ∈ pointers s.size)
    (hdirty : (s.pool b).dirty = false) :
    Sound original (s.setBuffer b { s.pool b with block := noBlock, dirty := false }) := by
  refine h.edit hb { s.pool b with block := noBlock, dirty := false } rfl rfl rfl
    (fun hsome => absurd rfl hsome) (fun _ => rfl) (fun hsome => absurd rfl hsome)
    (fun _ _ _ _ => rfl) (fun _ _ => h.clean_of fun _ => hdirty) ?_
  simp only [dirtyMark, hdirty]
  rfl

/-- What eviction leaves alone: every buffer that it does not empty keeps its sector. -/
structure Evicts (s s' : State Data) : Prop where
  size : s'.size = s.size
  stored : s'.stored = s.stored
  key : ∀ b, (s'.pool b).key = (s.pool b).key ∨ (s'.pool b).block = noBlock

theorem Flushes.evicts (h : Flushes s s') : Evicts s s' := ⟨h.size, h.stored, fun b => .inl (h.key b)⟩

section

variable (h : Sound original s)
include h

theorem evictFrom_sound (nodes : List ℕ) (hnodes : ∀ b ∈ nodes, b ∈ pointers s.size) :
    Sound original (evictFrom faults nodes s).2 ∧ Evicts s (evictFrom faults nodes s).2 := by
  induction nodes generalizing s with
  | nil => exact ⟨h, (Flushes.refl s).evicts⟩
  | cons b rest ih =>
    have hb := hnodes b mem_cons_self
    have hrest : ∀ c ∈ rest, c ∈ pointers s.size := fun c hc =>
      hnodes c (mem_cons_of_mem b hc)
    obtain ⟨hsound, hflushes, hclean⟩ := @bcSync_sound Data original s b faults h hb
    rw [evictFrom]
    split_ifs with hlock
    · by_cases hsynced : (bcSync faults b s).1 = true
      · rw [if_pos hsynced]
        refine ⟨hsound.drop (hflushes.size ▸ hb) (hclean hsynced), hflushes.size,
          hflushes.stored, fun c => ?_⟩
        by_cases hcb : c = b
        · right
          simp only [setBuffer, hcb, update_self]
        · left
          simp only [setBuffer, update_of_ne hcb]
          exact hflushes.key c
      · rw [if_neg hsynced]
        obtain ⟨hsound', hevicts⟩ := ih hsound (hflushes.size ▸ hrest)
        refine ⟨hsound', hevicts.size.trans hflushes.size,
          hevicts.stored.trans hflushes.stored, fun c => ?_⟩
        rw [← hflushes.key c]
        exact hevicts.key c
    · exact ih h hrest

theorem bcEvict_sound : Sound original (bcEvict faults s).2 ∧ Evicts s (bcEvict faults s).2 :=
  evictFrom_sound h s.backward fun _ hb => h.listed.mem_backward.mp hb

/-! ## `bc_get` -/

theorem findEmpty_spec (hfound : s.findEmpty = some b) :
    b ∈ pointers s.size ∧ (s.pool b).block = noBlock := by
  refine ⟨h.listed.mem_backward.mp (mem_of_find?_eq_some hfound), ?_⟩
  simpa using find?_some hfound

/-- The buffer to fill is empty, and no buffer got a sector in the search. -/
theorem candidate_spec :
    Sound original (candidate faults s).2 ∧ Evicts s (candidate faults s).2 ∧
      ∀ b, (candidate faults s).1 = some b → b ∈ pointers (candidate faults s).2.size ∧
        ((candidate faults s).2.pool b).block = noBlock := by
  rw [candidate]
  cases hempty : s.findEmpty with
  | some b =>
    refine ⟨h, (Flushes.refl s).evicts, fun c hc => ?_⟩
    cases hc
    exact findEmpty_spec h hempty
  | none =>
    obtain ⟨hsound, hevicts⟩ := @bcEvict_sound Data original s faults h
    simp only
    split_ifs with hevicted
    · exact ⟨hsound, hevicts, fun c hc => findEmpty_spec hsound hc⟩
    · exact ⟨hsound, hevicts, nofun⟩

/-- An empty buffer is filled with a sector that no buffer holds. -/
theorem fill_spec (hb : b ∈ pointers s.size) (hempty : (s.pool b).block = noBlock)
    (hmissing : ∀ c ∈ pointers s.size, (s.pool c).key ≠ key) :
    Sound original (fill faults key b s).2 ∧ (fill faults key b s).2.stored = s.stored ∧
      ∀ c, (fill faults key b s).1 = some c → c ∈ pointers (fill faults key b s).2.size ∧
        ((fill faults key b s).2.pool c).key = key := by
  have hclean := h.empty b hb hempty
  rw [fill]
  cases hfault : faults s.io with
  | some junk =>
    refine ⟨?_, rfl, nofun⟩
    exact h.edit hb { s.pool b with data := junk } rfl rfl rfl
      (fun hsome => absurd hempty hsome) (fun _ => hclean) (fun hsome => absurd hempty hsome)
      (fun _ _ _ _ => rfl) (fun _ _ => h.clean_of fun _ => hclean) rfl
  | none =>
    refine ⟨?_, rfl, ?_⟩
    · have hfilled : Sound original { s.setBuffer b ⟨key.1, key.2, s.disk key, false, 1⟩ with
          io := s.io + 1 } := by
        refine h.edit hb ⟨key.1, key.2, s.disk key, false, 1⟩ rfl rfl rfl
          (fun _ c hc _ => hmissing c hc) (fun _ => rfl) (fun _ => ?_)
          (fun _ _ _ _ => rfl) (fun _ _ => h.clean_of fun _ => hclean) ?_
        · exact h.clean key fun c hc hheld => absurd hheld (hmissing c hc)
        · simp only [dirtyMark, hclean]
          rfl
      exact { hfilled with listed := hfilled.listed.touch hb }
    · intro c hc
      cases hc
      refine ⟨hb, ?_⟩
      simp only [lruTouch, setBuffer, update_self]
      rfl

end

/-- A buffer that `bc_get` returns holds the sector. -/
structure Gets (original : Key → Data) (s : State Data) (key : Key)
    (got : Option ℕ × State Data) : Prop where
  sound : Sound original got.2
  stored : got.2.stored = s.stored
  holds : ∀ b, got.1 = some b → b ∈ pointers got.2.size ∧ (got.2.pool b).key = key

theorem Gets.block {got : Option ℕ × State Data} (h : Gets original s key got)
    (hkey : key.2 ≠ noBlock) (hgot : got.1 = some b) : (got.2.pool b).block ≠ noBlock :=
  fun hnone => hkey ((congrArg Prod.snd (h.holds b hgot).2).symm.trans hnone)

section

variable (h : Sound original s)
include h

theorem Sound.lock (hb : b ∈ pointers s.size) (lockCount : ℕ) :
    Sound original (s.setBuffer b { s.pool b with lockCount := lockCount }) := by
  exact h.edit hb { s.pool b with lockCount := lockCount } rfl rfl rfl (h.key_ne hb)
    (h.empty b hb) (h.cached b hb) (fun _ _ _ _ => rfl) (fun _ => h.clean_of) rfl

theorem bcGet_gets (hkey : key.2 ≠ noBlock) : Gets original s key (bcGet faults key s) := by
  rw [bcGet]
  cases hfound : s.forward.find? fun b => (s.pool b).key == key with
  | some b =>
    have hb := h.listed.mem_forward.mp (mem_of_find?_eq_some hfound)
    have hheld : (s.pool b).key = key := by simpa using find?_some hfound
    have hlocked := h.lock hb ((s.pool b).lockCount + 1)
    refine ⟨?_, rfl, ?_⟩
    · exact { hlocked with listed := hlocked.listed.touch hb }
    · intro c hc
      cases hc
      refine ⟨hb, ?_⟩
      simp only [lruTouch, setBuffer, update_self]
      exact hheld
  | none =>
    have hmiss : Sound original { s with misses := s.misses + 1 } := { h with }
    obtain ⟨hsound, hevicts, hempty⟩ :=
      @candidate_spec Data original { s with misses := s.misses + 1 } faults hmiss
    simp only
    generalize candidate faults { s with misses := s.misses + 1 } = got at hsound hevicts hempty
    have hmissing : ∀ c ∈ pointers got.2.size, (got.2.pool c).key ≠ key := by
      intro c hc heq
      rcases hevicts.key c with hsame | hnone
      · rw [hevicts.size] at hc
        apply List.find?_eq_none.mp hfound c (h.listed.mem_forward.mpr hc)
        rw [hsame] at heq
        exact beq_iff_eq.mpr heq
      · exact hkey ((congrArg Prod.snd heq).symm.trans hnone)
    cases hcandidate : got.1 with
    | none => exact ⟨hsound, hevicts.stored, nofun⟩
    | some b =>
      obtain ⟨hb, hblock⟩ := hempty b hcandidate
      obtain ⟨hfilled, hstored, hholds⟩ :=
        @fill_spec Data original _ b key faults hsound hb hblock hmissing
      exact ⟨hfilled, hstored.trans hevicts.stored, hholds⟩

/-! ## Transfers -/

theorem bcRelease_sound (hb : b ∈ pointers s.size) : Sound original (bcRelease b s) := h.lock hb _

/-- Every sector that is read holds what is expected of it. -/
theorem readSectors_sound {dev : ℕ} (list : List ℕ) (hsectors : ∀ sector ∈ list, sector ≠ noBlock) :
    Sound original (readSectors faults dev list s).2 ∧
      ∀ data, (readSectors faults dev list s).1 = some data →
        data = list.map fun sector => s.expected original (dev, sector) := by
  induction list generalizing s with
  | nil =>
    refine ⟨h, fun data hdata => ?_⟩
    cases hdata
    rfl
  | cons sector rest ih =>
    have hgets := @bcGet_gets Data original s (dev, sector) faults h (hsectors sector mem_cons_self)
    rw [readSectors]
    cases hgot : (bcGet faults (dev, sector) s).1 with
    | none => exact ⟨hgets.sound, nofun⟩
    | some b =>
      obtain ⟨hb, hkey⟩ := hgets.holds b hgot
      obtain ⟨hsound, hresult⟩ := ih (bcRelease_sound hgets.sound hb)
        fun other hother => hsectors other (mem_cons_of_mem sector hother)
      have hexpected : ∀ key, (bcRelease b (bcGet faults (dev, sector) s).2).expected original
          key = s.expected original key := by
        intro key
        rw [expected, expected, ← hgets.stored]
        rfl
      have hfirst : ((bcGet faults (dev, sector) s).2.pool b).data =
          s.expected original (dev, sector) := by
        have hblock := hgets.block (hsectors sector mem_cons_self) hgot
        rw [hgets.sound.cached b hb hblock, hkey, ← hexpected]
        rfl
      refine ⟨hsound, fun data hdata => ?_⟩
      obtain ⟨more, hmore, rfl⟩ := Option.map_eq_some_iff.mp hdata
      rw [hresult more hmore, hfirst, map_cons]
      simp only [hexpected]

/-- A store makes its buffer the only one with what is expected of the sector. -/
theorem store_sound (hb : b ∈ pointers s.size)
    (hkey : (s.pool b).key = key) (hblock : (s.pool b).block ≠ noBlock) (data : Data) :
    Sound original (store key b data s) := by
  subst hkey
  have hunique := h.key_ne hb hblock
  have hother : ∀ key, key ≠ (s.pool b).key →
      (store (s.pool b).key b data s).expected original key = s.expected original key := by
    intro key hkey
    simp only [expected, store, update_of_ne hkey]
  refine h.edit hb { s.pool b with data := data, dirty := true } rfl rfl rfl (fun _ => hunique)
    (fun hnone => absurd hnone hblock) ?_ ?_ ?_ ?_
  · intro _
    have hself : (store (s.pool b).key b data s).stored (s.pool b).key = some data := by
      simp only [store, update_self]
    have hkey : ({ s.pool b with data := data, dirty := true } : Buffer Data).key =
        (s.pool b).key := rfl
    rw [expected, hkey, hself, Option.getD_some]
  · exact fun c hc hcb _ => hother _ (hunique c hc hcb)
  · intro key hself hall
    have hkey : key ≠ (s.pool b).key := fun heq => nomatch hself heq.symm
    rw [hother key hkey]
    exact h.clean_of (fun heq => absurd heq.symm hkey) hall
  · cases hdirty : (s.pool b).dirty with
    | true =>
      simp only [store, setBuffer, dirtyMark, hdirty, if_true]
      omega
    | false =>
      simp only [store, setBuffer, dirtyMark, hdirty, if_true, Bool.false_eq_true, if_false]
      omega

theorem writeSectors_sound {dev : ℕ} (list : List (ℕ × Data))
    (hsectors : ∀ item ∈ list, item.1 ≠ noBlock) :
    Sound original (writeSectors faults dev list s).2 := by
  induction list generalizing s with
  | nil => exact h
  | cons item rest ih =>
    have hsector := hsectors item mem_cons_self
    have hgets := @bcGet_gets Data original s (dev, item.1) faults h hsector
    rw [writeSectors]
    cases hgot : (bcGet faults (dev, item.1) s).1 with
    | none => exact hgets.sound
    | some b =>
      obtain ⟨hb, hkey⟩ := hgets.holds b hgot
      have hstored := store_sound hgets.sound hb hkey (hgets.block hsector hgot) item.2
      exact ih (bcRelease_sound hstored hb) fun other hother =>
        hsectors other (mem_cons_of_mem item hother)

/-! ## Flushing -/

theorem bcFlushAll_sound : Sound original (bcFlushAll faults s) := by
  refine (foldlRecOn (motive := fun t => Sound original t ∧ t.size = s.size) s.forward _ ⟨h, rfl⟩
    fun t ht b hb => ?_).1
  have hmem : b ∈ pointers t.size := ht.2 ▸ h.listed.mem_forward.mp hb
  obtain ⟨hsound, hflushes, -⟩ := @bcSync_sound Data original t b faults ht.1 hmem
  exact ⟨hsound, hflushes.size.trans ht.2⟩

theorem tickFrom_sound (nodes : List ℕ) (budget : ℕ) (hnodes : ∀ b ∈ nodes, b ∈ pointers s.size) :
    Sound original (tickFrom faults nodes budget s) := by
  induction nodes generalizing s budget with
  | nil => exact h
  | cons b rest ih =>
    have hrest : ∀ c ∈ rest, c ∈ pointers s.size := fun c hc =>
      hnodes c (mem_cons_of_mem b hc)
    obtain ⟨hsound, hflushes, -⟩ :=
      @bcSync_sound Data original s b faults h (hnodes b mem_cons_self)
    rw [tickFrom]
    by_cases hbudget : budget = 0
    · rw [if_pos hbudget]
      exact h
    rw [if_neg hbudget]
    split_ifs with hdirty
    · by_cases hsynced : (bcSync faults b s).1 = true
      · rw [if_pos hsynced]
        exact ih hsound (budget - 1) (hflushes.size ▸ hrest)
      · rw [if_neg hsynced]
        exact hsound
    · exact ih h budget hrest

end

/-! ## The start -/

theorem init_chain (size : ℕ) {next prev : ℕ → ℕ}
    (hnext : ∀ b, next b = if b < size then b + 1 else 0) (hprev : ∀ b, prev b = b - 1)
    (count before : ℕ) (hcount : before + count = size) :
    LinkedChain.Chain next prev before (if before < size then before + 1 else 0)
      (List.range' (before + 1) count) := by
  induction count generalizing before with
  | zero => exact if_neg (Nat.not_lt_of_le (Nat.le_of_eq hcount.symm))
  | succ count ih =>
    have hlt : before < size := by omega
    rw [if_pos hlt]
    refine ⟨rfl, Nat.succ_ne_zero before, ?_, ?_⟩
    · rw [hprev, Nat.add_sub_cancel]
    · rw [hnext]
      exact ih (before + 1) (by omega)

theorem bcInit_sound {size : ℕ} (hsize : 0 < size) (zero : Data) (original : Key → Data) :
    Sound original (bcInit size zero original) where
  listed := by
    refine ⟨List.range' 1 size, ⟨?_, nodup_range', ?_⟩, fun b => ?_⟩
    · have hchain := init_chain size (fun _ => rfl) (fun _ => rfl) size 0 (Nat.zero_add size)
      rw [if_pos hsize] at hchain
      exact hchain
    · obtain ⟨count, rfl⟩ := Nat.exists_eq_succ_of_ne_zero (Nat.ne_of_gt hsize)
      rw [getLastD_eq_getLast?, getLast?_range']
      simp [bcInit]
    · have hsame : (bcInit size zero original).size = size := rfl
      rw [mem_range'_1, hsame, pointers, Finset.mem_Icc]
      omega
  unique _ _ _ _ _ hsome := absurd rfl hsome
  empty _ _ _ := rfl
  cached _ _ hsome := absurd rfl hsome
  clean _ _ := rfl
  counters := by
    have hnone : (bcInit size zero original).dirtyCount = 0 := Finset.sum_eq_zero fun _ _ => rfl
    rw [hnone]
    rfl

/-! ## Runs -/

inductive Call (Data : Type)
  | read (dev lba count : ℕ)
  | write (dev lba : ℕ) (buf : List Data)
  | tick
  | sync
  | evict

def State.call (faults : Faults Data) (s : State Data) : Call Data → State Data
  | .read dev lba count => (fsReadBlock faults dev lba count s).2
  | .write dev lba buf => (fsWriteBlock faults dev lba buf s).2
  | .tick => bcTick faults s
  | .sync => bcFlushAll faults s
  | .evict => (bcEvict faults s).2

def State.Step (faults : Faults Data) (s : State Data) (call : Call Data) (s' : State Data) :
    Prop :=
  s.call faults call = s'

/-- No sector of the transfer has the number that marks empty buffers. -/
def Proper (lba count : ℕ) : Prop := ∀ sector ∈ sectors lba count, sector ≠ noBlock

instance (lba count : ℕ) : Decidable (Proper lba count) :=
  inferInstanceAs (Decidable (∀ sector ∈ sectors lba count, sector ≠ noBlock))

def Call.Fits : Call Data → Prop
  | .read _ lba count => Proper lba count
  | .write _ lba buf => Proper lba buf.length
  | _ => True

instance (call : Call Data) : Decidable call.Fits := by
  cases call <;> unfold Call.Fits <;> infer_instance

theorem Sound.call (h : Sound original s) (call : Call Data) (hfits : call.Fits) :
    Sound original (s.call faults call) := by
  cases call with
  | read dev lba count => exact (readSectors_sound h _ hfits).1
  | write dev lba buf =>
    apply writeSectors_sound h
    intro item hitem
    exact hfits item.1 (of_mem_zip hitem).1
  | tick => exact tickFrom_sound h _ _ fun _ hb => h.listed.mem_backward.mp hb
  | sync => exact bcFlushAll_sound h
  | evict => exact (bcEvict_sound h).1

/-- As long as no transfer touches sector `2 ^ 64 - 1`, the cache does not show: reads
return what was last stored, a sector is in one buffer at most, the device holds every
sector that is not in a dirty buffer, the list holds every buffer, and the counters
account for every store. -/
theorem cache_transparent (size : ℕ) (hsize : 0 < size) (zero : Data) (original : Key → Data)
    (faults : Faults Data) (s : State Data)
    (hrun : Reaches (guarded (fun _ call => Call.Fits call) (State.Step faults))
      (bcInit size zero original) s) :
    (∀ dev lba count data, Proper lba count → (fsReadBlock faults dev lba count s).1 = some data →
      data = (sectors lba count).map fun sector => s.expected original (dev, sector)) ∧
    (∀ b ∈ pointers s.size, ∀ b' ∈ pointers s.size, (s.pool b).key = (s.pool b').key →
      (s.pool b).block ≠ noBlock → b = b') ∧
    (∀ key, (∃ b ∈ pointers s.size, (s.pool b).key = key ∧ (s.pool b).dirty = true) ∨
      s.disk key = s.expected original key) ∧
    s.Listed ∧
    s.deferred = s.flushed + s.coalesced + s.dirtyCount := by
  have hsound : Sound original s :=
    hrun.kept (bcInit_sound hsize zero original) fun hbefore hfits => hbefore.call _ hfits
  refine ⟨?_, hsound.unique, ?_, hsound.listed, hsound.counters⟩
  · intro dev lba count data hproper hread
    exact (readSectors_sound hsound _ hproper).2 data hread
  · intro key
    by_cases hdirty : ∃ b ∈ pointers s.size, (s.pool b).key = key ∧ (s.pool b).dirty = true
    · exact .inl hdirty
    · right
      apply hsound.clean key
      intro b hb hkey
      exact Bool.eq_false_of_not_eq_true fun hset => hdirty ⟨b, hb, hkey, hset⟩

def secondFails : Faults ℕ := fun access => if access = 1 then some 99 else none

/-- A pool of one buffer: a store, a read that cannot evict it, a tick, and the read. -/
def crowded : List (Call ℕ) := [.write 0 5 [7], .read 0 6 1, .tick, .read 0 6 1]

def afterCrowd : State ℕ := crowded.foldl (State.call secondFails) (bcInit 1 0 fun _ => 0)

theorem cache_transparent_crowded : (fsReadBlock secondFails 0 5 1 afterCrowd).1 = some [7] ∧
      [7] = (sectors 5 1).map (fun sector => afterCrowd.expected (fun _ => 0) (0, sector)) ∧
      afterCrowd.deferred = afterCrowd.flushed + afterCrowd.coalesced + afterCrowd.dirtyCount := by
  have hread : (fsReadBlock secondFails 0 5 1 afterCrowd).1 = some [7] := by decide +kernel
  obtain ⟨hreads, -, -, -, hcounters⟩ :=
    cache_transparent 1 Nat.one_pos 0 (fun _ => 0) secondFails afterCrowd
      (reaches_foldl (by decide +kernel))
  exact ⟨hread, hreads 0 5 1 [7] (by decide +kernel) hread, hcounters⟩

/-- Nothing fails, and the sector number marks empty buffers: a read finds an empty
buffer and returns what is in it instead of what the device holds; and what was stored
is dropped with the next fill. -/
theorem cache_shows_empty_buffers :
    let start : State ℕ := bcInit 1 0 fun _ => 9
    (fsReadBlock (fun _ => none) 0 noBlock 1 start).1 = some [0] ∧
    let s := [.write 0 noBlock [7], .read 0 5 1].foldl (call fun _ => none) start
    (s.deferred, s.flushed, s.coalesced, s.dirtyCount) = (1, 0, 0, 0) ∧
      s.expected (fun _ => 9) (0, noBlock) = 7 ∧
      (fsReadBlock (fun _ => none) 0 noBlock 1 s).1 = some [9] := by
  decide +kernel

/-! ## A sync -/

/-- A write-back that does not fail leaves its buffer clean, and no other one dirty. -/
theorem bcSync_cleans (hsync : (bcSync (fun _ => none) b s).2 = s') : Flushes s s' ∧
    ∀ c, c = b ∨ (s.pool c).dirty = false → (s'.pool c).dirty = false := by
  subst hsync
  rw [bcSync]
  split_ifs with hdirty
  · exact ⟨.refl s, fun c hc => hc.elim (fun heq => heq ▸ hdirty) id⟩
  · refine ⟨⟨rfl, rfl, fun c => ?_⟩, fun c hc => ?_⟩
    all_goals
      by_cases hcb : c = b
      · simp [setBuffer, hcb, Buffer.key]
      · simp_all [setBuffer]

/-- Every turn of the loop takes its buffer out of the dirty ones. -/
theorem flush_cleans (nodes : List ℕ)
    (hflush : nodes.foldl (fun s b => (bcSync (fun _ => none) b s).2) s = s') : Flushes s s' ∧
    ∀ c, c ∈ nodes ∨ (s.pool c).dirty = false → (s'.pool c).dirty = false := by
  induction nodes generalizing s with
  | nil => exact ⟨hflush ▸ .refl s, fun c hc => hflush ▸ hc.resolve_left not_mem_nil⟩
  | cons b rest ih =>
    obtain ⟨hrest, hothers⟩ := ih hflush
    obtain ⟨hfirst, hclean⟩ := @bcSync_cleans _ s _ b rfl
    refine ⟨⟨hrest.size.trans hfirst.size, hrest.stored.trans hfirst.stored,
      fun c => (hrest.key c).trans (hfirst.key c)⟩, fun c hc => hothers c ?_⟩
    rcases hc with hc | hc
    · exact (mem_cons.mp hc).symm.imp_right fun heq => hclean c (.inl heq)
    · exact .inr (hclean c (.inr hc))

/-- However the accesses before it failed, a sync without a failure puts every sector on the
device as it was last stored. -/
theorem sync_durable (size : ℕ) (hsize : 0 < size) (zero : Data) (original : Key → Data)
    (faults : Faults Data) (s : State Data)
    (hrun : Reaches (guarded (fun _ call => Call.Fits call) (State.Step faults))
      (bcInit size zero original) s) (key : Key) :
    (bcFlushAll (fun _ => none) s).disk key = s.expected original key := by
  have hsound : Sound original s :=
    hrun.kept (bcInit_sound hsize zero original) fun hbefore hfits => hbefore.call _ hfits
  obtain ⟨hflushes, hclean⟩ : Flushes s (bcFlushAll (fun _ => none) s) ∧ _ :=
    flush_cleans s.forward rfl
  rw [expected, ← hflushes.stored]
  apply (bcFlushAll_sound hsound).clean key
  intro b hb _
  rw [hflushes.size] at hb
  exact hclean b (.inl (hsound.listed.mem_forward.mpr hb))

/-- The write of a first sync fails. -/
theorem sync_durable_retried : (bcFlushAll (fun _ => none) ([.write 0 5 [7], .sync].foldl
    (State.call secondFails) (bcInit 1 0 fun _ => 0))).disk (0, 5) = 7 :=
  sync_durable 1 Nat.one_pos 0 (fun _ => 0) secondFails _ (reaches_foldl (by decide +kernel)) (0, 5)

end AuraLite.BufferCache

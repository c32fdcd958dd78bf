import AuraLite.Lib.Reachability
import Mathlib.Data.Set.Card

/-!
# Futexes

`futex_wait_bitset`, `futex_wake_bitset` and `futex_requeue` over the table of 64 hash
buckets, one step for each critical section.  `futex_requeue` is two steps, since it
spins for the lock of the second bucket while it holds the first one.  Signals make a
waiter runnable with its node still linked; the waiter then reads the bucket of its node
and unlinks it in a critical section of its own.
-/

namespace AuraLite.Futex

open List Reachability
open Function (update update_apply update_self update_of_ne)

def futexHash (uaddr : ℕ) : ℕ := (uaddr >>> 3 ^^^ uaddr >>> 13) % 64

/-- A `struct futex_waiter` on a list. -/
structure Node where
  tid : ℕ
  bitset : ℕ
deriving DecidableEq

structure Thread where
  /-- The address space. -/
  mm : ℕ
  /-- `THREAD_BLOCKED`. -/
  blocked : Bool
  /-- Behind the enqueue of `futex_wait_bitset`. -/
  inside : Bool
  /-- The bucket the thread read before it unlinks itself. -/
  glance : Option ℕ
  /-- The field `bucket` of the node. -/
  bucket : ℕ
  /-- What the thread waits on: the address of its call or of the last requeue.  The
  node does not record it. -/
  uaddr : ℕ
  bitset : ℕ
deriving DecidableEq

/-- A CPU in `futex_requeue` that holds the lock of bucket `a` and spins for the one of
bucket `b`. -/
structure Mid where
  cpu : ℕ
  a : ℕ
  b : ℕ
  mm : ℕ
  uaddr : ℕ
  uaddr2 : ℕ
deriving DecidableEq

structure State where
  threads : ℕ → Thread
  table : ℕ → List Node
  mids : List Mid

/-- No CPU holds the lock of the bucket between two steps. -/
def State.free (s : State) (b : ℕ) : Bool := s.mids.all (·.a != b)

/-- The loop that wakes up to `n` blocked waiters: the threads, the list and the woken
threads behind it. -/
def wakeLoop (fits : ℕ → Bool) :
    ℕ → List Node → (ℕ → Thread) → (ℕ → Thread) × List Node × List ℕ
  | _, [], threads => (threads, [], [])
  | 0, w :: rest, threads => (threads, w :: rest, [])
  | n + 1, w :: rest, threads =>
    if (threads w.tid).blocked && fits w.bitset then
      let r := wakeLoop fits n rest
        (update threads w.tid { threads w.tid with blocked := false })
      (r.1, r.2.1, w.tid :: r.2.2)
    else
      let r := wakeLoop fits (n + 1) rest threads
      (r.1, w :: r.2.1, r.2.2)

/-- The test of `futex_wake_bitset`. -/
def meets (bitset : ℕ) (own : ℕ) : Bool := own &&& bitset != 0

/-- `futex_wait_bitset` up to the release of the lock, where the value is `current`. -/
def State.wait (s : State) (t uaddr bitset current val : ℕ) : State :=
  let b := futexHash uaddr
  if !(s.threads t).inside && !(s.threads t).blocked && s.free b && current == val then
    { s with
      threads := update s.threads t
        { s.threads t with
          blocked := true
          inside := true
          glance := none
          bucket := b
          uaddr := uaddr
          bitset := bitset }
      table := update s.table b (⟨t, bitset⟩ :: s.table b) }
  else s

/-- What a wake loop on bucket `b` leaves. -/
def State.woken (s : State) (b : ℕ) (fits : ℕ → Bool) (n : ℕ) : State :=
  let r := wakeLoop fits n (s.table b) s.threads
  { s with
    threads := r.1
    table := update s.table b r.2.1 }

/-- `futex_wake_bitset`; the address space of the caller plays no part in it. -/
def State.wake (s : State) (uaddr n bitset : ℕ) : State :=
  if s.free (futexHash uaddr) then s.woken (futexHash uaddr) (meets bitset) n else s

/-- The waiters on `l` that wait on `uaddr` now wait on `uaddr2`. -/
def rekey (l : List Node) (mm uaddr uaddr2 : ℕ) (threads : ℕ → Thread) : ℕ → Thread :=
  fun t =>
    if t ∈ l.map (·.tid) ∧ (threads t).mm = mm ∧ (threads t).uaddr = uaddr then
      { threads t with uaddr := uaddr2 }
    else threads t

/-- The bucket `bb` of `futex_requeue`. -/
def secondBucket (uaddr uaddr2 : ℕ) : ℕ :=
  if uaddr2 = 0 then futexHash uaddr else futexHash uaddr2

/-- `futex_requeue` up to the second lock, or to its end if it takes no second lock. -/
def State.requeue (s : State) (cpu mm uaddr nrWake uaddr2 : ℕ) (cmpOk : Bool) : State :=
  let a := futexHash uaddr
  let b := secondBucket uaddr uaddr2
  if s.mids.all (·.cpu != cpu) && s.free a && cmpOk then
    let s' := s.woken a (fun _ => true) nrWake
    if b ≠ a ∧ s'.table a ≠ [] then { s' with mids := ⟨cpu, a, b, mm, uaddr, uaddr2⟩ :: s'.mids }
    else if uaddr2 ≠ 0 then
      { s' with threads := rekey (s'.table a) mm uaddr uaddr2 s'.threads }
    else s'
  else s

/-- The loop that stores the new bucket in the nodes. -/
def rebucket (l : List Node) (b : ℕ) (threads : ℕ → Thread) : ℕ → Thread := fun t =>
  if t ∈ l.map (·.tid) then { threads t with bucket := b } else threads t

/-- The rest of `futex_requeue` with both locks. -/
def State.spliced (s : State) (m : Mid) : State where
  threads := rebucket (s.table m.a ++ s.table m.b) m.b
    (rekey (s.table m.a) m.mm m.uaddr m.uaddr2 s.threads)
  table := update (update s.table m.b (s.table m.a ++ s.table m.b)) m.a []
  mids := s.mids.filter (·.cpu != m.cpu)

def State.splice (s : State) (cpu : ℕ) : State :=
  match s.mids.find? (·.cpu == cpu) with
  | some m => if s.free m.b then s.spliced m else s
  | none => s

/-- A signal to a blocked thread. -/
def State.signal (s : State) (t : ℕ) : State :=
  { s with threads := update s.threads t { s.threads t with blocked := false } }

/-- The resumed waiter reads the bucket of its node. -/
def State.glance (s : State) (t : ℕ) : State :=
  if (s.threads t).inside && !(s.threads t).blocked && (s.threads t).glance == none then
    { s with
      threads := update s.threads t
        { s.threads t with glance := some (s.threads t).bucket } }
  else s

/-- The resumed waiter unlinks its node from the bucket it read, if it is there, and
returns. -/
def State.unlink (s : State) (t : ℕ) : State :=
  match (s.threads t).glance with
  | some b =>
    if s.free b then
      { s with
        threads := update s.threads t
          { s.threads t with inside := false, glance := none }
        table := update s.table b ((s.table b).eraseP (·.tid == t)) }
    else s
  | none => s

inductive Event
  | wait (t uaddr bitset current val : ℕ)
  | wake (mm uaddr n bitset : ℕ)
  | requeue (cpu mm uaddr nrWake uaddr2 : ℕ) (cmpOk : Bool)
  | splice (cpu : ℕ)
  | signal (t : ℕ)
  | glance (t : ℕ)
  | unlink (t : ℕ)

def State.step (s : State) : Event → State
  | .wait t uaddr bitset current val => s.wait t uaddr bitset current val
  | .wake _ uaddr n bitset => s.wake uaddr n bitset
  | .requeue cpu mm uaddr nrWake uaddr2 cmpOk => s.requeue cpu mm uaddr nrWake uaddr2 cmpOk
  | .splice cpu => s.splice cpu
  | .signal t => s.signal t
  | .glance t => s.glance t
  | .unlink t => s.unlink t

def State.Step (s : State) (event : Event) (s' : State) : Prop := s.step event = s'

def State.start (mm : ℕ → ℕ) : State where
  threads := fun t => ⟨mm t, false, false, none, 0, 0, 0⟩
  table := fun _ => []
  mids := []

/-! ## Waiting -/

/-- The thread is blocked on the address. -/
def State.Waits (s : State) (mm uaddr t : ℕ) : Prop :=
  (s.threads t).blocked = true ∧ (s.threads t).mm = mm ∧ (s.threads t).uaddr = uaddr

instance (s : State) (mm uaddr t : ℕ) : Decidable (s.Waits mm uaddr t) :=
  inferInstanceAs (Decidable (_ ∧ _ ∧ _))

/-- The threads a wake is for. -/
def State.waiters (s : State) (mm uaddr bitset : ℕ) : Set ℕ :=
  { t | s.Waits mm uaddr t ∧ meets bitset (s.threads t).bitset = true }

/-- A wake finds no blocked waiter of another address in its bucket, nor does a requeue,
which also finds none that a signal made runnable if it moves them and no CPU that
requeues the other way; and a signal does not come between the two locks of a requeue. -/
def Event.Fits (s : State) : Event → Prop
  | .wake mm uaddr _ bitset =>
    ∀ w ∈ s.table (futexHash uaddr), (s.threads w.tid).blocked = true →
      meets bitset w.bitset = true → s.Waits mm uaddr w.tid
  | .requeue _ mm uaddr _ uaddr2 _ =>
    (∀ w ∈ s.table (futexHash uaddr), (s.threads w.tid).blocked = true →
      s.Waits mm uaddr w.tid) ∧
    (secondBucket uaddr uaddr2 ≠ futexHash uaddr →
      ∀ w ∈ s.table (futexHash uaddr), (s.threads w.tid).blocked = true) ∧
    ∀ m ∈ s.mids, ¬ (m.a = secondBucket uaddr uaddr2 ∧ m.b = futexHash uaddr)
  | .signal t => ∀ m ∈ s.mids, t ∉ (s.table m.a).map (·.tid)
  | _ => True

/-! ## The wake loop -/

variable {s s' : State} {b t n mm uaddr : ℕ} {fits : ℕ → Bool} {l : List Node}
variable {cpu nrWake : ℕ} {cmpOk : Bool}
  {threads : ℕ → Thread}

/-- The threads with those on `l` made runnable. -/
def roused (l : List ℕ) (threads : ℕ → Thread) : ℕ → Thread := fun t =>
  if t ∈ l then { threads t with blocked := false } else threads t

open State

theorem roused_nil : threads = roused [] threads := by
  funext t
  rw [roused, if_neg not_mem_nil]

theorem roused_cons {ts : List ℕ} (hnot : t ∉ ts) : roused (t :: ts) threads =
    roused ts (update threads t { threads t with blocked := false }) := by
  funext u
  rw [roused, roused]
  by_cases hu : u = t
  · rw [hu, if_pos mem_cons_self, if_neg hnot, update_self]
  · simp only [mem_cons, hu, false_or, update_of_ne hu]

/-- The waiters on `l` that pass the test of a wake loop. -/
def passing (fits : ℕ → Bool) (threads : ℕ → Thread) (l : List Node) : List ℕ :=
  (l.filter fun w => (threads w.tid).blocked && fits w.bitset).map (·.tid)

theorem passing_sublist : (passing fits threads l).Sublist (l.map (·.tid)) := filter_sublist.map _

theorem passing_cons (w : Node) : passing fits threads (w :: l) =
    if (threads w.tid).blocked && fits w.bitset then w.tid :: passing fits threads l
    else passing fits threads l := by
  rw [passing, filter_cons]
  split_ifs <;> rfl

/-- The loop wakes the first `n` waiters that pass its test and unlinks them. -/
theorem wakeLoop_eq (hnodup : (l.map (·.tid)).Nodup) : wakeLoop fits n l threads =
    let woken := (passing fits threads l).take n
    (roused woken threads, l.filter fun w => w.tid ∉ woken, woken) := by
  induction l generalizing n threads with
  | nil => simp [wakeLoop, passing, ← roused_nil]
  | cons w rest ih =>
    rw [map_cons, nodup_cons] at hnodup
    obtain ⟨hfresh, hrest⟩ := hnodup
    have hother : ∀ v ∈ rest, v.tid ≠ w.tid := fun v hv heq =>
      hfresh (heq ▸ mem_map_of_mem hv)
    have hnot : ∀ n, w.tid ∉ (passing fits threads rest).take n := fun n hmem =>
      hfresh (((take_sublist n _).trans passing_sublist).subset hmem)
    have hdrop : ∀ ts : List ℕ, ((w :: rest).filter fun v => v.tid ∉ w.tid :: ts) =
        rest.filter fun v => v.tid ∉ ts := by
      intro ts
      rw [filter_cons, if_neg (by simp)]
      exact filter_congr fun v hv => by simp [hother v hv]
    have hkeep : ∀ ts : List ℕ, w.tid ∉ ts → ((w :: rest).filter fun v => v.tid ∉ ts) =
        w :: rest.filter fun v => v.tid ∉ ts :=
      fun ts h => filter_cons_of_pos (decide_eq_true h)
    cases n with
    | zero => simp [wakeLoop, ← roused_nil]
    | succ n =>
      rw [wakeLoop, passing_cons]
      split_ifs with hwake
      · have hsame : passing fits (update threads w.tid { threads w.tid with
            blocked := false }) rest = passing fits threads rest :=
          congrArg (map _) (filter_congr fun v hv => by rw [update_of_ne (hother v hv)])
        rw [ih hrest, hsame, take_succ_cons]
        simp only [roused_cons (hnot n), hdrop]
      · rw [ih hrest]
        simp only [hkeep _ (hnot (n + 1))]

/-- The threads that a wake loop on bucket `b` wakes. -/
def State.chosen (s : State) (b : ℕ) (fits : ℕ → Bool) (n : ℕ) : List ℕ :=
  (passing fits s.threads (s.table b)).take n

theorem mem_passing (ht : t ∈ passing fits s.threads (s.table b)) :
    ∃ w ∈ s.table b, w.tid = t ∧ (s.threads t).blocked = true ∧ fits w.bitset = true := by
  obtain ⟨w, hw, rfl⟩ := mem_map.mp ht
  obtain ⟨hw, hwake⟩ := mem_filter.mp hw
  exact ⟨w, hw, rfl, Bool.and_eq_true_iff.mp hwake⟩

/-! ## The invariant -/

def State.tids (s : State) (b : ℕ) : List ℕ := (s.table b).map (·.tid)

/-- Every node stands in the bucket it names, every blocked thread has one in the bucket
of its address, a requeue between its two locks holds only waiters of its own address,
and no two requeues cross. -/
structure Tidy (s : State) : Prop where
  linked : ∀ b, ∀ w ∈ s.table b, (s.threads w.tid).inside = true ∧
    (s.threads w.tid).bucket = b ∧ (s.threads w.tid).bitset = w.bitset
  nodup : ∀ b, (s.tids b).Nodup
  asleep : ∀ t, (s.threads t).blocked = true → (s.threads t).glance = none ∧
    t ∈ s.tids (s.threads t).bucket ∧ (s.threads t).bucket = futexHash (s.threads t).uaddr
  glanced : ∀ t b, (s.threads t).glance = some b → (s.threads t).bucket = b
  cpus : (s.mids.map (·.cpu)).Nodup
  locks : (s.mids.map (·.a)).Nodup
  held : ∀ m ∈ s.mids, m.a ≠ m.b ∧ m.b = futexHash m.uaddr2 ∧
    ∀ w ∈ s.table m.a, s.Waits m.mm m.uaddr w.tid
  straight : ∀ m ∈ s.mids, ∀ m' ∈ s.mids, ¬ (m.a = m'.b ∧ m.b = m'.a)

theorem tidy_start (mm : ℕ → ℕ) : Tidy (State.start mm) where
  linked := nofun
  nodup := fun _ => nodup_nil
  asleep := nofun
  glanced := nofun
  cpus := nodup_nil
  locks := nodup_nil
  held := nofun
  straight := nofun

theorem free_iff : s.free b = true ↔ ∀ m ∈ s.mids, m.a ≠ b := by
  rw [free, all_eq_true]
  exact forall₂_congr fun m _ => bne_iff_ne

theorem mem_tids : t ∈ s.tids b ↔ ∃ w ∈ s.table b, w.tid = t := by
  rw [tids, mem_map]

theorem rekey_nil (mm uaddr uaddr2 : ℕ) (threads : ℕ → Thread) :
    rekey [] mm uaddr uaddr2 threads = threads := by
  funext t
  rw [rekey, if_neg fun h => not_mem_nil h.1]

theorem rekey_eq (l : List Node) (mm uaddr uaddr2 : ℕ) (threads : ℕ → Thread) (t : ℕ) :
    rekey l mm uaddr uaddr2 threads t =
      { threads t with uaddr := (rekey l mm uaddr uaddr2 threads t).uaddr } := by
  rw [rekey]
  split_ifs <;> rfl

variable {uaddr2 bitset : ℕ} {m : Mid}

theorem rekey_of_not_mem (ht : t ∉ l.map (·.tid)) :
    rekey l mm uaddr uaddr2 threads t = threads t := by
  rw [rekey, if_neg fun h => ht h.1]

section

variable (htidy : Tidy s)
include htidy

theorem Tidy.bucket (ht : t ∈ s.tids b) : (s.threads t).bucket = b := by
  obtain ⟨w, hw, rfl⟩ := mem_tids.mp ht
  exact (htidy.linked b w hw).2.1

theorem Tidy.inside (ht : t ∈ s.tids b) : (s.threads t).inside = true := by
  obtain ⟨w, hw, rfl⟩ := mem_tids.mp ht
  exact (htidy.linked b w hw).1

theorem Tidy.glanced_update {th : Thread}
    (hglance : ∀ b, th.glance = some b → th.bucket = b) :
    ∀ u c, (update s.threads t th u).glance = some c → (update s.threads t th u).bucket = c :=
  (Function.forall_update_iff s.threads fun _ th => ∀ c, th.glance = some c → th.bucket = c).mpr
    ⟨hglance, fun u _ => htidy.glanced u⟩

theorem Tidy.touch {th : Thread} (hinside : th.inside = (s.threads t).inside)
    (hbucket : th.bucket = (s.threads t).bucket) (hbitset : th.bitset = (s.threads t).bitset)
    (hblocked : th.blocked = false) (hglance : ∀ b, th.glance = some b → th.bucket = b)
    (hfree : ∀ m ∈ s.mids, t ∉ s.tids m.a) :
    Tidy { s with threads := update s.threads t th } := by
  have hother : ∀ u, u ≠ t → update s.threads t th u = s.threads u :=
    fun u hu => update_of_ne hu _ _
  have hself : update s.threads t th t = th := update_self _ _ _
  refine { htidy with
    linked := fun b w hw => ?_, asleep := fun u hu => ?_, held := fun m hm => ?_
    glanced := htidy.glanced_update hglance }
  · simp only
    by_cases hwt : w.tid = t
    · rw [hwt, hself, hinside, hbucket, hbitset, ← hwt]
      exact htidy.linked b w hw
    · rw [hother w.tid hwt]
      exact htidy.linked b w hw
  · simp only at hu ⊢
    by_cases hut : u = t
    · rw [hut, hself, hblocked] at hu
      cases hu
    · rw [hother u hut] at hu ⊢
      exact htidy.asleep u hu
  · obtain ⟨hne, hhash, hwaits⟩ := htidy.held m hm
    refine ⟨hne, hhash, fun w hw => ?_⟩
    have hwt : w.tid ≠ t := fun h => hfree m hm (mem_tids.mpr ⟨w, hw, h⟩)
    simp only [Waits, hother w.tid hwt]
    exact hwaits w hw

theorem Tidy.signal (hfits : Event.Fits s (.signal t)) : Tidy (s.signal t) :=
  htidy.touch rfl rfl rfl rfl (fun b hb => htidy.glanced t b hb) hfits

/-- The threads a requeue holds between its locks are blocked. -/
theorem Tidy.held_blocked (hm : m ∈ s.mids) (ht : t ∈ s.tids m.a) :
    (s.threads t).blocked = true := by
  obtain ⟨w, hw, rfl⟩ := mem_tids.mp ht
  exact ((htidy.held m hm).2.2 w hw).1

theorem Tidy.glance : Tidy (s.glance t) := by
  rw [State.glance]
  split_ifs with h
  · simp only [Bool.and_eq_true, Bool.not_eq_true'] at h
    refine htidy.touch rfl rfl rfl h.1.2 (fun b hb => Option.some.inj hb) fun m hm ht => ?_
    rw [htidy.held_blocked hm ht] at h
    exact absurd h.1.2 Bool.noConfusion
  · exact htidy

/-- A change of one bucket that no requeue holds, and of threads that are not in one. -/
theorem Tidy.edit (hfree : s.free b = true)
    (hthreads : ∀ c, c ≠ b → ∀ u ∈ s.tids c, threads u = s.threads u)
    (hlinked : ∀ w ∈ l, (threads w.tid).inside = true ∧ (threads w.tid).bucket = b ∧
      (threads w.tid).bitset = w.bitset)
    (hnodup : (l.map (·.tid)).Nodup)
    (hasleep : ∀ u, (threads u).blocked = true →
      threads u = s.threads u ∧ (u ∈ s.tids b → u ∈ l.map (·.tid)) ∨
      (threads u).glance = none ∧ u ∈ l.map (·.tid) ∧ b = futexHash (threads u).uaddr)
    (hglanced : ∀ u c, (threads u).glance = some c → (threads u).bucket = c) :
    Tidy { s with threads := threads, table := update s.table b l } := by
  have hself : update s.table b l b = l := update_self _ _ _
  have hother : ∀ c, c ≠ b → update s.table b l c = s.table c := fun c hc => update_of_ne hc _ _
  refine ⟨?_, ?_, fun u hu => ?_, hglanced, htidy.cpus, htidy.locks, fun m hm => ?_,
    htidy.straight⟩
  · refine (Function.forall_update_iff s.table fun c l => ∀ w ∈ l, (threads w.tid).inside = true ∧
      (threads w.tid).bucket = c ∧ (threads w.tid).bitset = w.bitset).mpr
        ⟨hlinked, fun c hc w hw => ?_⟩
    rw [hthreads c hc w.tid (mem_tids.mpr ⟨w, hw, rfl⟩)]
    exact htidy.linked c w hw
  · exact (Function.forall_update_iff s.table fun _ l => (l.map Node.tid).Nodup).mpr
      ⟨hnodup, fun c _ => htidy.nodup c⟩
  · simp only at hu ⊢
    rcases hasleep u hu with ⟨hsame, hkept⟩ | ⟨hglance, hin, hhash⟩
    · rw [hsame] at hu ⊢
      obtain ⟨hglance, hin, hhash⟩ := htidy.asleep u hu
      refine ⟨hglance, ?_, hhash⟩
      rw [tids]
      by_cases hc : (s.threads u).bucket = b
      · simp only [hc, hself]
        exact hkept (hc ▸ hin)
      · simp only [hother _ hc]
        exact hin
    · obtain ⟨w, hw, rfl⟩ := mem_map.mp hin
      have hbucket := (hlinked w hw).2.1
      refine ⟨hglance, ?_, hbucket.trans hhash⟩
      rw [tids, hbucket]
      simp only [hself]
      exact hin
  · obtain ⟨hne, hhash, hwaits⟩ := htidy.held m hm
    have hma := free_iff.mp hfree m hm
    refine ⟨hne, hhash, fun w hw => ?_⟩
    simp only [hother m.a hma] at hw
    have hsame := hthreads m.a hma w.tid (mem_tids.mpr ⟨w, hw, rfl⟩)
    simp only [Waits, hsame]
    exact hwaits w hw

/-! ## The steps -/

/-- A thread that is blocked and not in a bucket is untouched by edits of the bucket. -/
theorem Tidy.asleep_elsewhere {c u : ℕ} (hc : c ≠ b) (hu : u ∈ s.tids c) :
    u ∉ s.tids b := by
  intro hb
  exact hc ((htidy.bucket hu).symm.trans (htidy.bucket hb))

theorem Tidy.wait {current val : ℕ} :
    Tidy (s.wait t uaddr bitset current val) := by
  simp only [State.wait]
  split_ifs with h
  swap
  · exact htidy
  simp only [Bool.and_eq_true, Bool.not_eq_true', beq_iff_eq] at h
  obtain ⟨⟨⟨hout, hrunning⟩, hfree⟩, -⟩ := h
  -- the thread is linked nowhere
  have hnew : ∀ c u, u ∈ s.tids c → u ≠ t := by
    rintro c u hu rfl
    rw [htidy.inside hu] at hout
    cases hout
  refine htidy.edit hfree (fun c _ u hu => ?_) (fun w hw => ?_) ?_ (fun u hu => ?_)
    (htidy.glanced_update nofun)
  · rw [update_of_ne (hnew c u hu)]
  · rcases mem_cons.mp hw with rfl | hw
    · rw [update_self]
      exact ⟨rfl, rfl, rfl⟩
    · rw [update_of_ne (hnew _ w.tid (mem_tids.mpr ⟨w, hw, rfl⟩))]
      exact htidy.linked _ w hw
  · rw [map_cons, nodup_cons]
    exact ⟨fun hmem => hnew _ t hmem rfl, htidy.nodup _⟩
  · by_cases hut : u = t
    · rw [hut, update_self]
      exact .inr ⟨rfl, mem_cons_self, rfl⟩
    · exact .inl ⟨update_of_ne hut _ _, mem_cons_of_mem _⟩

theorem Tidy.unlink : Tidy (s.unlink t) := by
  rw [State.unlink]
  cases hglance : (s.threads t).glance with
  | none => exact htidy
  | some b =>
    simp only
    split_ifs with hfree
    swap
    · exact htidy
    have hbucket := htidy.glanced t b hglance
    have herased : ∀ w ∈ (s.table b).eraseP (·.tid == t), w.tid ≠ t := by
      intro w hw heq
      have hsub : ((s.table b).map (·.tid)).erase t =
          ((s.table b).eraseP (·.tid == t)).map (·.tid) := by
        rw [erase_eq_eraseP', eraseP_map]
        rfl
      have hgone := (htidy.nodup b).not_mem_erase (a := t)
      rw [tids, hsub] at hgone
      exact hgone (mem_map.mpr ⟨w, hw, heq⟩)
    have hsub : ((s.table b).eraseP (·.tid == t)).Sublist (s.table b) := eraseP_sublist
    refine htidy.edit hfree (fun c hc u hu => ?_) (fun w hw => ?_) ?_ (fun u hu => ?_)
      (htidy.glanced_update nofun)
    · have hut : u ≠ t := by
        rintro rfl
        exact hc ((htidy.bucket hu).symm.trans hbucket)
      rw [update_of_ne hut]
    · rw [update_of_ne (herased w hw)]
      exact htidy.linked b w (hsub.subset hw)
    · exact (htidy.nodup b).sublist (hsub.map _)
    · by_cases hut : u = t
      · rw [hut, update_self] at hu
        -- a blocked thread has not read its bucket
        have hnone := (htidy.asleep t hu).1
        rw [hglance] at hnone
        cases hnone
      · refine .inl ⟨update_of_ne hut _ _, fun hb => ?_⟩
        obtain ⟨w, hw, rfl⟩ := mem_tids.mp hb
        refine mem_map_of_mem ((mem_eraseP_of_neg ?_).mpr hw)
        exact fun h => hut (beq_iff_eq.mp h)

theorem Tidy.woken_eq : s.woken b fits n =
    { s with
      threads := roused (s.chosen b fits n) s.threads
      table := update s.table b ((s.table b).filter fun w => w.tid ∉ s.chosen b fits n) } := by
  rw [State.woken, wakeLoop_eq (htidy.nodup b)]
  rfl

theorem Tidy.woken (hfree : s.free b = true) : Tidy (s.woken b fits n) := by
  have hsame : ∀ u, u ∉ s.chosen b fits n →
      roused (s.chosen b fits n) s.threads u = s.threads u := fun u hu => if_neg hu
  rw [htidy.woken_eq]
  refine htidy.edit hfree (fun c hc u hu => ?_) (fun w hw => ?_) ?_ (fun u hu => ?_)
    fun u c hu => ?_
  · refine hsame u fun h => htidy.asleep_elsewhere hc hu ?_
    obtain ⟨w, hw, heq, -⟩ := mem_passing (mem_of_mem_take h)
    exact mem_tids.mpr ⟨w, hw, heq⟩
  · obtain ⟨hin, hout⟩ := mem_filter.mp hw
    rw [hsame w.tid (of_decide_eq_true hout)]
    exact htidy.linked b w hin
  · exact (htidy.nodup b).sublist (filter_sublist.map _)
  · by_cases hmem : u ∈ s.chosen b fits n
    · rw [roused, if_pos hmem] at hu
      cases hu
    · refine .inl ⟨hsame u hmem, fun hb => ?_⟩
      obtain ⟨w, hw, rfl⟩ := mem_tids.mp hb
      exact mem_map_of_mem (mem_filter.mpr ⟨hw, decide_eq_true hmem⟩)
  · rw [roused] at hu ⊢
    split_ifs at hu ⊢ with hmem <;> exact htidy.glanced u c hu

theorem Tidy.wake : Tidy (s.wake uaddr n bitset) := by
  rw [State.wake]
  split_ifs with hfree
  · exact htidy.woken hfree
  · exact htidy

theorem Tidy.rekey (hfree : s.free b = true) (hhash : b = futexHash uaddr2) :
    Tidy { s with threads := rekey (s.table b) mm uaddr uaddr2 s.threads } := by
  have hfields := rekey_eq (s.table b) mm uaddr uaddr2 s.threads
  have hedit : Tidy { s with
      threads := Futex.rekey (s.table b) mm uaddr uaddr2 s.threads
      table := update s.table b (s.table b) } := by
    refine htidy.edit hfree (fun c hc u hu => ?_) (fun w hw => ?_) (htidy.nodup b)
      (fun u hu => ?_) fun u c hu => ?_
    · exact rekey_of_not_mem (htidy.asleep_elsewhere hc hu)
    · rw [hfields w.tid]
      exact htidy.linked b w hw
    · by_cases hb : u ∈ s.tids b
      · have hu' : (s.threads u).blocked = true := by
          rw [hfields u] at hu
          exact hu
        obtain ⟨hnone, -, hown⟩ := htidy.asleep u hu'
        refine .inr ⟨?_, hb, ?_⟩
        · rw [hfields u]
          exact hnone
        · rw [Futex.rekey]
          split_ifs
          · exact hhash
          · rw [← hown, htidy.bucket hb]
      · exact .inl ⟨rekey_of_not_mem hb, fun h => absurd h hb⟩
    · rw [hfields u] at hu ⊢
      exact htidy.glanced u c hu
  rw [Function.update_eq_self] at hedit
  exact hedit

/-- A requeue takes its first lock and spins for the second. -/
theorem Tidy.push (hcpu : ∀ m' ∈ s.mids, m'.cpu ≠ m.cpu)
    (hfree : s.free m.a = true) (hne : m.a ≠ m.b) (hhash : m.b = futexHash m.uaddr2)
    (hwaits : ∀ w ∈ s.table m.a, s.Waits m.mm m.uaddr w.tid)
    (hstraight : ∀ m' ∈ s.mids, ¬ (m'.a = m.b ∧ m'.b = m.a)) :
    Tidy { s with mids := m :: s.mids } where
  __ := htidy
  cpus := by
    rw [map_cons, nodup_cons]
    refine ⟨fun hmem => ?_, htidy.cpus⟩
    obtain ⟨m', hm', heq⟩ := mem_map.mp hmem
    exact hcpu m' hm' heq
  locks := by
    rw [map_cons, nodup_cons]
    refine ⟨fun hmem => ?_, htidy.locks⟩
    obtain ⟨m', hm', heq⟩ := mem_map.mp hmem
    exact free_iff.mp hfree m' hm' heq
  held := fun m' hm' => by
    rcases mem_cons.mp hm' with rfl | hm'
    · exact ⟨hne, hhash, hwaits⟩
    · exact htidy.held m' hm'
  straight := fun m₁ h₁ m₂ h₂ => by
    rcases mem_cons.mp h₁ with rfl | hold₁
    · rcases mem_cons.mp h₂ with rfl | hold₂
      · exact fun h => hne h.1
      · exact fun h => hstraight m₂ hold₂ ⟨h.2.symm, h.1.symm⟩
    · rcases mem_cons.mp h₂ with rfl | hold₂
      · exact fun h => hstraight m₁ hold₁ h
      · exact htidy.straight m₁ hold₁ m₂ hold₂

theorem Tidy.woken_left {w : Node} (hw : w ∈ (s.woken b fits n).table b) :
    w ∈ s.table b ∧ (s.woken b fits n).threads w.tid = s.threads w.tid := by
  rw [htidy.woken_eq] at hw ⊢
  simp only [update_self] at hw
  obtain ⟨hin, hout⟩ := mem_filter.mp hw
  exact ⟨hin, if_neg (of_decide_eq_true hout)⟩

theorem Tidy.requeue (hfits : Event.Fits s (.requeue cpu mm uaddr nrWake uaddr2 cmpOk)) :
    Tidy (s.requeue cpu mm uaddr nrWake uaddr2 cmpOk) := by
  obtain ⟨hown, hblocked, hstraight⟩ := hfits
  rw [State.requeue]
  by_cases h : (s.mids.all (·.cpu != cpu) && s.free (futexHash uaddr) && cmpOk) = true
  swap
  · simp only
    rw [if_neg h]
    exact htidy
  simp only
  rw [if_pos h]
  simp only [Bool.and_eq_true, all_eq_true, bne_iff_ne] at h
  obtain ⟨⟨hcpu, hfree⟩, -⟩ := h
  have hwoken : Tidy (s.woken (futexHash uaddr) (fun _ => true) nrWake) := htidy.woken hfree
  split
  · rename_i hmid
    refine hwoken.push hcpu hfree hmid.1.symm ?_ (fun w hw => ?_) hstraight
    · rw [secondBucket] at hmid ⊢
      split_ifs at hmid ⊢ with hnull
      · exact absurd rfl hmid.1
      · rfl
    · obtain ⟨hin, hsame⟩ := htidy.woken_left hw
      simp only [Waits, hsame]
      exact hown w hin (hblocked hmid.1 w hin)
  · rename_i hmid
    by_cases hnull : uaddr2 ≠ 0
    swap
    · rw [if_neg hnull]
      exact hwoken
    rw [if_pos hnull]
    by_cases hsecond : secondBucket uaddr uaddr2 = futexHash uaddr
    · rw [secondBucket, if_neg hnull] at hsecond
      exact hwoken.rekey hfree hsecond.symm
    · have hempty := not_not.mp fun h => hmid ⟨hsecond, h⟩
      rw [hempty, rekey_nil]
      exact hwoken

theorem Tidy.spliced_moved (hm : m ∈ s.mids) (ht : t ∈ s.tids m.a) :
    (s.spliced m).threads t = { s.threads t with uaddr := m.uaddr2, bucket := m.b } := by
  obtain ⟨w, hw, rfl⟩ := mem_tids.mp ht
  obtain ⟨-, hmm, huaddr⟩ := (htidy.held m hm).2.2 w hw
  have hmem : w.tid ∈ (s.table m.a ++ s.table m.b).map (·.tid) :=
    mem_map_of_mem (mem_append_left _ hw)
  change rebucket _ _ _ w.tid = _
  rw [rebucket, if_pos hmem, Futex.rekey, if_pos ⟨mem_map_of_mem hw, hmm, huaddr⟩]

theorem Tidy.spliced_other (ht : t ∉ s.tids m.a) :
    (s.spliced m).threads t = s.threads t := by
  change rebucket _ _ _ t = _
  rw [rebucket, rekey_of_not_mem ht]
  split_ifs with hmem
  · have hb : t ∈ s.tids m.b := by
      rw [map_append, mem_append] at hmem
      exact hmem.resolve_left ht
    rw [← htidy.bucket hb]
  · rfl

theorem Tidy.spliced (hm : m ∈ s.mids)
    (hfree : s.free m.b = true) : Tidy (s.spliced m) := by
  obtain ⟨hne, hhash, hwaits⟩ := htidy.held m hm
  have hmem : ∀ c w, w ∈ (s.spliced m).table c ↔
      c ≠ m.a ∧ (w ∈ s.table c ∨ c = m.b ∧ w ∈ s.table m.a) := by
    intro c w
    change w ∈ update (update s.table m.b _) m.a [] c ↔ _
    rw [update_apply, update_apply]
    split_ifs with hca hcb
    · simp [hca]
    · simp [hcb, hne.symm, or_comm]
    · simp [hca, hcb]
  have hout : ∀ c, c ≠ m.a → ∀ w ∈ s.table c, (s.spliced m).threads w.tid = s.threads w.tid :=
    fun c hc w hw => htidy.spliced_other (htidy.asleep_elsewhere hc (mem_tids.mpr ⟨w, hw, rfl⟩))
  have hsub : (s.spliced m).mids.Sublist s.mids := filter_sublist
  refine ⟨fun c w hw => ?_, fun c => ?_, fun u hu => ?_, fun u c hu => ?_,
    htidy.cpus.sublist (hsub.map _), htidy.locks.sublist (hsub.map _), fun m' hm' => ?_,
    fun m₁ h₁ m₂ h₂ => htidy.straight m₁ (hsub.subset h₁) m₂ (hsub.subset h₂)⟩
  · obtain ⟨hca, hold | ⟨hcb, hold⟩⟩ := (hmem c w).mp hw
    · rw [hout c hca w hold]
      exact htidy.linked c w hold
    · obtain ⟨hinside, -, hbitset⟩ := htidy.linked m.a w hold
      rw [htidy.spliced_moved hm (mem_tids.mpr ⟨w, hold, rfl⟩)]
      exact ⟨hinside, hcb.symm, hbitset⟩
  · change ((update (update s.table m.b _) m.a [] c).map (·.tid)).Nodup
    rw [update_apply, update_apply]
    split_ifs with hca hcb
    · exact nodup_nil
    · rw [map_append]
      refine (htidy.nodup m.a).append (htidy.nodup m.b) fun u hu hu' => ?_
      exact htidy.asleep_elsewhere hne hu hu'
    · exact htidy.nodup c
  · by_cases hmoved : u ∈ s.tids m.a
    · have hblocked := htidy.held_blocked hm hmoved
      rw [htidy.spliced_moved hm hmoved]
      obtain ⟨w, hw, rfl⟩ := mem_tids.mp hmoved
      refine ⟨(htidy.asleep w.tid hblocked).1, mem_tids.mpr ⟨w, ?_, rfl⟩, hhash⟩
      exact (hmem m.b w).mpr ⟨hne.symm, .inr ⟨rfl, hw⟩⟩
    · rw [htidy.spliced_other hmoved] at hu ⊢
      obtain ⟨hnone, hin, hown⟩ := htidy.asleep u hu
      have hca : (s.threads u).bucket ≠ m.a := fun h => hmoved (h ▸ hin)
      obtain ⟨w, hw, heq⟩ := mem_tids.mp hin
      exact ⟨hnone, mem_tids.mpr ⟨w, (hmem _ w).mpr ⟨hca, .inl hw⟩, heq⟩, hown⟩
  · by_cases hmoved : u ∈ s.tids m.a
    · -- a waiter that is moved is blocked and has read nothing
      have hnone := (htidy.asleep u (htidy.held_blocked hm hmoved)).1
      rw [htidy.spliced_moved hm hmoved] at hu
      rw [hnone] at hu
      cases hu
    · rw [htidy.spliced_other hmoved] at hu ⊢
      exact htidy.glanced u c hu
  · have hold := hsub.subset hm'
    have hcpu : m'.cpu ≠ m.cpu := bne_iff_ne.mp (mem_filter.mp hm').2
    have hca : m'.a ≠ m.a := fun h =>
      hcpu (congrArg Mid.cpu (inj_on_of_nodup_map htidy.locks hold hm h))
    obtain ⟨hne', hhash', hwaits'⟩ := htidy.held m' hold
    refine ⟨hne', hhash', fun w hw => ?_⟩
    have hw := ((hmem m'.a w).mp hw).2.resolve_right fun h => free_iff.mp hfree m' hold h.1
    rw [Waits, hout m'.a hca w hw]
    exact hwaits' w hw

theorem Tidy.splice : Tidy (s.splice cpu) := by
  rw [State.splice]
  cases hfind : s.mids.find? (·.cpu == cpu) with
  | none => exact htidy
  | some m =>
    simp only
    split_ifs with hfree
    · exact htidy.spliced (mem_of_find?_eq_some hfind) hfree
    · exact htidy

theorem Tidy.step {event : Event} (hfits : event.Fits s) :
    Tidy (s.step event) := by
  cases event with
  | wait t uaddr bitset current val => exact htidy.wait
  | wake mm uaddr n bitset => exact htidy.wake
  | requeue cpu mm uaddr nrWake uaddr2 cmpOk => exact htidy.requeue hfits
  | splice cpu => exact htidy.splice
  | signal t => exact htidy.signal hfits
  | glance t => exact htidy.glance
  | unlink t => exact htidy.unlink

end

/-! ## Whole runs -/

/-- The threads a step wakes. -/
def Woken (s s' : State) : Set ℕ :=
  { t | (s.threads t).blocked = true ∧ (s'.threads t).blocked = false }

/-- The threads whose node a step moves to another bucket. -/
def Moved (s s' : State) : Set ℕ := { t | (s'.threads t).bucket ≠ (s.threads t).bucket }

theorem not_changed (hsame : s'.threads t = s.threads t) : t ∉ Woken s s' ∪ Moved s s' := by
  rintro (⟨hblocked, hawake⟩ | hmoved)
  · rw [hsame, hblocked] at hawake
    cases hawake
  · exact hmoved (congrArg Thread.bucket hsame)

theorem ncard_mem {l : List ℕ} (hnodup : l.Nodup) : { t | t ∈ l }.ncard = l.length := by
  have hset : { t | t ∈ l } = (l.toFinset : Set ℕ) := by
    ext t
    simp
  rw [hset, Set.ncard_coe_finset, toFinset_card_of_nodup hnodup]

/-- The first part of a requeue changes threads as its wake loop does, apart from the
address they wait on. -/
theorem requeue_threads (s : State) (mm uaddr t : ℕ) :
    (s.requeue cpu mm uaddr nrWake uaddr2 cmpOk).threads t = s.threads t ∨
      ∃ address, (s.requeue cpu mm uaddr nrWake uaddr2 cmpOk).threads t =
        { (s.woken (futexHash uaddr) (fun _ => true) nrWake).threads t with
          uaddr := address } := by
  rw [requeue]
  simp only
  split_ifs
  · exact .inr ⟨_, rfl⟩
  · exact .inr ⟨_, rekey_eq _ _ _ _ _ _⟩
  · exact .inr ⟨_, rfl⟩
  · exact .inl rfl

section

variable (htidy : Tidy s)
include htidy

theorem Tidy.chosen_eq :
    Woken s (s.woken b fits n) = { t | t ∈ s.chosen b fits n } := by
  ext t
  constructor
  · intro hwoken
    by_contra hout
    refine not_changed ?_ (.inl hwoken)
    rw [htidy.woken_eq]
    exact if_neg hout
  · intro hmem
    obtain ⟨w, -, rfl, hblocked, -⟩ := mem_passing (mem_of_mem_take hmem)
    refine ⟨hblocked, ?_⟩
    rw [htidy.woken_eq]
    exact congrArg Thread.blocked (if_pos hmem)

/-- A thread that waits on an address has its node in the bucket of the address. -/
theorem Tidy.waiter_node (hwaits : s.Waits mm uaddr t) :
    ∃ w ∈ s.table (futexHash uaddr), w.tid = t ∧ w.bitset = (s.threads t).bitset := by
  obtain ⟨hblocked, -, huaddr⟩ := hwaits
  obtain ⟨-, hin, hhash⟩ := htidy.asleep t hblocked
  rw [hhash, huaddr] at hin
  obtain ⟨w, hw, rfl⟩ := mem_tids.mp hin
  exact ⟨w, hw, rfl, (htidy.linked _ w hw).2.2.symm⟩

/-- A wake that meets no foreign waiter is for those that pass its test. -/
theorem Tidy.waiters_eq (hfits : Event.Fits s (.wake mm uaddr n bitset)) :
    s.waiters mm uaddr bitset =
      { t | t ∈ passing (meets bitset) s.threads (s.table (futexHash uaddr)) } := by
  ext t
  constructor
  · rintro ⟨hwaits, hmeets⟩
    obtain ⟨w, hw, rfl, hbitset⟩ := htidy.waiter_node hwaits
    refine mem_map_of_mem (mem_filter.mpr ⟨hw, ?_⟩)
    rw [hwaits.1, hbitset, hmeets]
    rfl
  · intro ht
    obtain ⟨w, hw, rfl, hblocked, hmeets⟩ := mem_passing ht
    refine ⟨hfits w hw hblocked hmeets, ?_⟩
    rw [(htidy.linked _ w hw).2.2]
    exact hmeets

theorem Tidy.wake_exact
    (hfits : Event.Fits s (.wake mm uaddr n bitset)) (hfree : s.free (futexHash uaddr) = true) :
    Woken s (s.wake uaddr n bitset) ⊆ s.waiters mm uaddr bitset ∧
      (Woken s (s.wake uaddr n bitset)).ncard = min n (s.waiters mm uaddr bitset).ncard := by
  rw [State.wake, if_pos hfree, htidy.chosen_eq, htidy.waiters_eq hfits]
  refine ⟨fun t ht => mem_of_mem_take ht, ?_⟩
  have hnodup := (htidy.nodup (futexHash uaddr)).sublist
    (@passing_sublist (meets bitset) _ s.threads)
  rw [chosen, ncard_mem hnodup, ncard_mem (hnodup.sublist (take_sublist n _)), length_take]

/-- The threads that wait after a wake waited before it and were not woken. -/
theorem wake_waiters : (s.wake uaddr n bitset).waiters mm uaddr bitset ⊆
      s.waiters mm uaddr bitset \ Woken s (s.wake uaddr n bitset) := by
  rintro t ⟨⟨hblocked, hmm, huaddr⟩, hmeets⟩
  have hsame : (s.wake uaddr n bitset).threads t = s.threads t := by
    rw [wake] at hblocked ⊢
    split_ifs at hblocked ⊢ with hfree
    · rw [htidy.woken_eq] at hblocked ⊢
      simp only [roused] at hblocked ⊢
      split_ifs at hblocked ⊢ with hmem
      rfl
    · rfl
  rw [hsame] at hblocked hmm huaddr hmeets
  exact ⟨⟨⟨hblocked, hmm, huaddr⟩, hmeets⟩, fun hwoken => not_changed hsame (.inl hwoken)⟩

/-- With budget for all waiters a wake leaves none. -/
theorem Tidy.wake_all
    (hfits : Event.Fits s (.wake mm uaddr n bitset)) (hfree : s.free (futexHash uaddr) = true)
    (hbudget : (s.waiters mm uaddr bitset).ncard ≤ n) :
    (s.wake uaddr n bitset).waiters mm uaddr bitset = ∅ := by
  obtain ⟨hsub, hcard⟩ := htidy.wake_exact hfits hfree
  rw [Nat.min_eq_right hbudget] at hcard
  have hfinite : (s.waiters mm uaddr bitset).Finite := by
    rw [htidy.waiters_eq hfits]
    exact finite_toSet _
  have heq := Set.eq_of_subset_of_ncard_le hsub hcard.ge hfinite
  apply Set.subset_empty_iff.mp
  calc (s.wake uaddr n bitset).waiters mm uaddr bitset
      ⊆ s.waiters mm uaddr bitset \ Woken s (s.wake uaddr n bitset) := wake_waiters htidy
    _ = ∅ := by rw [heq, Set.sdiff_self]

theorem Tidy.requeue_exact (hfits : Event.Fits s (.requeue cpu mm uaddr nrWake uaddr2 cmpOk)) :
    Woken s (s.requeue cpu mm uaddr nrWake uaddr2 cmpOk) ∪
        Moved s (s.requeue cpu mm uaddr nrWake uaddr2 cmpOk) ⊆
      { t | s.Waits mm uaddr t } := by
  intro t ht
  rcases requeue_threads s mm uaddr t with hsame | ⟨address, hchanged⟩
  · exact absurd ht (not_changed hsame)
  · rcases ht with ⟨hblocked, hawake⟩ | hmoved
    · rw [hchanged] at hawake
      have hwoken : t ∈ Woken s (s.woken (futexHash uaddr) (fun _ => true) nrWake) :=
        ⟨hblocked, hawake⟩
      rw [htidy.chosen_eq] at hwoken
      obtain ⟨w, hw, rfl, hblocked, -⟩ := mem_passing (mem_of_mem_take hwoken)
      exact hfits.1 w hw hblocked
    · refine absurd ?_ hmoved
      rw [hchanged, htidy.woken_eq]
      simp only [roused]
      split_ifs <;> rfl

theorem Tidy.splice_exact (hm : m ∈ s.mids) :
    Woken s (s.splice m.cpu) ∪ Moved s (s.splice m.cpu) ⊆ { t | s.Waits m.mm m.uaddr t } := by
  have hfind : s.mids.find? (·.cpu == m.cpu) = some m := by
    have hsome : (s.mids.find? (·.cpu == m.cpu)).isSome = true :=
      find?_isSome.mpr ⟨m, hm, beq_self_eq_true m.cpu⟩
    obtain ⟨m', hm'⟩ := Option.isSome_iff_exists.mp hsome
    have hcpu : m'.cpu = m.cpu := by simpa using find?_some hm'
    have heq := inj_on_of_nodup_map htidy.cpus (mem_of_find?_eq_some hm') hm hcpu
    rw [hm', heq]
  intro t ht
  rw [State.splice, hfind] at ht
  simp only at ht
  by_cases hmoved : t ∈ s.tids m.a
  · obtain ⟨w, hw, rfl⟩ := mem_tids.mp hmoved
    exact (htidy.held m hm).2.2 w hw
  · refine absurd ht (not_changed ?_)
    split_ifs
    · exact htidy.spliced_other hmoved
    · rfl

end

/-- In every run whose wakes and requeues find no waiters of another address in their
bucket, whose requeues do not cross and whose signals do not hit a requeue in progress:
a wake wakes exactly as many of the threads it is for as its budget allows, a requeue
wakes and moves waiters of its own address only, and no two CPUs spin for each other's
bucket lock. -/
theorem futex_wakes_right_waiters (space : ℕ → ℕ) (s : State)
    (hrun : Reaches (guarded (fun s event => Event.Fits s event) State.Step)
      (State.start space) s) :
    (∀ mm uaddr n bitset, Event.Fits s (.wake mm uaddr n bitset) → s.free (futexHash uaddr) = true →
      Woken s (s.wake uaddr n bitset) ⊆ s.waiters mm uaddr bitset ∧
        (Woken s (s.wake uaddr n bitset)).ncard = min n (s.waiters mm uaddr bitset).ncard ∧
        ((s.waiters mm uaddr bitset).ncard ≤ n →
          (s.wake uaddr n bitset).waiters mm uaddr bitset = ∅)) ∧
    (∀ cpu mm uaddr nrWake uaddr2 cmpOk, Event.Fits s (.requeue cpu mm uaddr nrWake uaddr2 cmpOk) →
      Woken s (s.requeue cpu mm uaddr nrWake uaddr2 cmpOk) ∪
          Moved s (s.requeue cpu mm uaddr nrWake uaddr2 cmpOk) ⊆
        { t | s.Waits mm uaddr t }) ∧
    (∀ m ∈ s.mids, Woken s (s.splice m.cpu) ∪ Moved s (s.splice m.cpu) ⊆
      { t | s.Waits m.mm m.uaddr t }) ∧
    ∀ m ∈ s.mids, ∀ m' ∈ s.mids, ¬ (m.a = m'.b ∧ m.b = m'.a) := by
  have htidy : Tidy s :=
    hrun.kept (tidy_start space) fun hbefore hfits => hbefore.step hfits
  refine ⟨fun mm uaddr n bitset hfits hfree => ?_,
    fun cpu mm uaddr nrWake uaddr2 cmpOk hfits => htidy.requeue_exact hfits,
    fun m hm => htidy.splice_exact hm, htidy.straight⟩
  obtain ⟨hsub, hcard⟩ := htidy.wake_exact hfits hfree
  exact ⟨hsub, hcard, htidy.wake_all hfits hfree⟩

/-- Two threads of one process wait on one address. -/
def twoWaiters : List Event := [.wait 1 0x1000 1 0 0, .wait 2 0x1000 1 0 0]

theorem futex_wakes_one_of_two :
    ∃ s, Reaches (guarded (fun s event => Event.Fits s event) State.Step)
        (State.start fun _ => 0) s ∧
      s.Waits 0 0x1000 1 ∧ s.Waits 0 0x1000 2 ∧
      Woken s (s.wake 0x1000 1 1) ⊆ s.waiters 0 0x1000 1 ∧
      (Woken s (s.wake 0x1000 1 1)).ncard = min 1 (s.waiters 0 0x1000 1).ncard := by
  have hrun : Reaches (guarded (fun s event => Event.Fits s event) Step)
      (start fun _ => 0) (twoWaiters.foldl step (start fun _ => 0)) := by
    have hfirst := @Reaches.tail _ _ (start fun _ => 0)
      (guarded (fun s event => Event.Fits s event) Step) _ _ (.wait 1 0x1000 1 0 0) (Reaches.refl _ _) ⟨trivial, rfl⟩
    exact @Reaches.tail _ _ _ _ _ _ (.wait 2 0x1000 1 0 0) hfirst ⟨trivial, rfl⟩
  have hall := futex_wakes_right_waiters (fun _ => 0) _ hrun
  have hfits : Event.Fits (twoWaiters.foldl step (start fun _ => 0))
      (.wake 0 0x1000 1 1) := by
    change ∀ w ∈ _, _
    decide +kernel
  have hfree : (twoWaiters.foldl step (start fun _ => 0)).free
      (futexHash 0x1000) = true := by
    decide +kernel
  obtain ⟨hsub, hcard, -⟩ := hall.1 0 0x1000 1 1 hfits hfree
  exact ⟨_, hrun, by decide +kernel, by decide +kernel, hsub, hcard⟩

/-- Threads 1 and 2 of two processes wait on the same virtual address. -/
def sameAddress : State :=
  [Event.wait 1 0x1000 1 0 0, .wait 2 0x1000 1 0 0].foldl State.step (State.start id)

/-- Two requeues between the buckets of `0x1000` and `0x1008`, one each way. -/
def crossing : State :=
  [Event.wait 1 0x1000 1 0 0, .wait 2 0x1008 1 0 0, .requeue 0 1 0x1000 0 0x1008 true,
    .requeue 1 2 0x1008 0 0x1000 true].foldl State.step (State.start id)

/-- A wake and a requeue in process 1 wake the waiter of process 2 while the one they are
for stays blocked, and two CPUs spin for each other's bucket lock. -/
theorem futex_wakes_foreign_waiter : (Reaches State.Step (State.start id) sameAddress ∧
      sameAddress.Waits 1 0x1000 1 ∧
      2 ∈ Woken sameAddress (sameAddress.wake 0x1000 1 1) ∧
      (sameAddress.threads 2).mm ≠ 1 ∧ (sameAddress.wake 0x1000 1 1).Waits 1 0x1000 1 ∧
      2 ∈ Woken sameAddress (sameAddress.requeue 0 1 0x1000 1 0 true)) ∧
    Reaches State.Step (State.start id) crossing ∧
      ∃ m ∈ crossing.mids, ∃ m' ∈ crossing.mids, m.a = m'.b ∧ m.b = m'.a := by
  refine ⟨⟨reaches_run step _ _, by decide +kernel, ?_, by decide +kernel,
    by decide +kernel, ?_⟩, reaches_run step _ _, by decide +kernel⟩
  · exact ⟨by decide +kernel, by decide +kernel⟩
  · exact ⟨by decide +kernel, by decide +kernel⟩

end AuraLite.Futex

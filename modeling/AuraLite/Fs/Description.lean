import AuraLite.Lib.Arena

/-!
# Open file descriptions

The objects behind a file descriptor: the open file description with its reference count,
the vnode it refers to, the ring of a pipe or a named FIFO, and the registry of named
FIFOs.  Objects are numbered in the order of their allocation.  Vnodes and rings stay in
the model after they were freed and count how often that happened, so that a pointer that
outlives its object and a second `kfree` are both visible.
-/

namespace AuraLite.Descriptor

open Option Arena RefCount Function
open List hiding lookup

abbrev Path := List Char

structure Ofd where
  vn : ℕ
  refcount : ℕ
deriving DecidableEq

inductive PipeEnd
  | read
  | write
deriving DecidableEq

def PipeEnd.other : PipeEnd → PipeEnd
  | .read => .write
  | .write => .read

/-- `ops` and `fs_data` of a vnode. -/
inductive Backing
  /-- `pipe_read_ops` or `pipe_write_ops`. -/
  | pipe (side : PipeEnd) (ring : ℕ)
  | fifo (ring : ℕ)
  /-- The vnode belongs to a mounted file system. -/
  | file
deriving DecidableEq

def Backing.ring : Backing → Option ℕ
  | .pipe _ r => some r
  | .fifo r => some r
  | .file => none

structure Vnode where
  backing : Backing
  /-- How often the vnode was freed. -/
  frees : ℕ
deriving DecidableEq

/-- The two vnodes that `vfs_pipe2` allocates. -/
structure Ends where
  rvn : ℕ
  wvn : ℕ
deriving DecidableEq

def Ends.vn (ends : Ends) : PipeEnd → ℕ
  | .read => ends.rvn
  | .write => ends.wvn

/-- What a ring was allocated for; no function of the kernel reads it. -/
inductive Owner
  | pipe (ends : Ends)
  | fifo (vn : ℕ)
  | nobody
deriving DecidableEq

structure Ring where
  readers : ℕ
  writers : ℕ
  owner : Owner
  /-- How often the ring was given to `kfree`. -/
  frees : ℕ
deriving DecidableEq

def Ring.count (ring : Ring) : PipeEnd → ℕ
  | .read => ring.readers
  | .write => ring.writers

/-- `readers--` or `writers--`. -/
def Ring.drop : PipeEnd → Ring → Ring
  | .read, ring => { ring with readers := ring.readers - 1 }
  | .write, ring => { ring with writers := ring.writers - 1 }

/-- The value of `kill`. -/
def Ring.dead (ring : Ring) : Bool := ring.readers == 0 && ring.writers == 0

structure NamedFifo where
  path : Path
  ring : ℕ
  vn : ℕ
deriving DecidableEq

structure Store where
  ofds : List (Option Ofd)
  vnodes : List Vnode
  rings : List Ring
  /-- `named_fifos`; `none` is a slot with `in_use == 0`. -/
  namedFifos : List (Option NamedFifo)
  /-- The names of the mounted file systems. -/
  files : Path → Option ℕ

/-! ## The functions of the source -/

def Store.kfree (st : Store) (r : ℕ) : Store :=
  { st with rings := st.rings.modify r fun ring => { ring with frees := ring.frees + 1 } }

def Store.slabFree (st : Store) (v : ℕ) : Store :=
  { st with vnodes := st.vnodes.modify v fun vn => { vn with frees := vn.frees + 1 } }

def Store.dropEnd (st : Store) (side : PipeEnd) (r : ℕ) : Store :=
  { st with rings := st.rings.modify r (Ring.drop side) }

/-- `ofd_release_backing`.  The ring goes with the last description of either end, and so
does the vnode of that end. -/
def Store.releaseBacking (st : Store) (v : ℕ) : Store :=
  match st.vnodes[v]?.map Vnode.backing with
  | some (.pipe side r) =>
    if (st.dropEnd side r).rings[r]?.any Ring.dead then
      ((st.dropEnd side r).kfree r).slabFree v
    else st.dropEnd side r
  | _ => st

/-- `ofd_alloc`; the new description is number `st.ofds.length`. -/
def Store.ofdAlloc (st : Store) (vn : ℕ) : Store :=
  { st with ofds := st.ofds ++ [some ⟨vn, 1⟩] }

/-- `vfs_ofd_get`. -/
def Store.ofdGet (st : Store) (o : ℕ) : Store :=
  match lookup st.ofds o with
  | none => st
  | some d => { st with ofds := st.ofds.set o (some { d with refcount := d.refcount + 1 }) }

def Store.ofdPut (st : Store) (o : ℕ) : Store :=
  match lookup st.ofds o with
  | none => st
  | some d =>
    if d.refcount ≤ 1 then { st.releaseBacking d.vn with ofds := st.ofds.set o none }
    else { st with ofds := st.ofds.set o (some { d with refcount := d.refcount - 1 }) }

/-- `named_fifo_lookup`: the first slot in use with that path. -/
def Store.fifoSlot (st : Store) (path : Path) : Option ℕ :=
  st.namedFifos.findIdx? fun slot => slot.any fun f => f.path == path

/-- The last part of `resolve_path`: named FIFOs come before the mounted file systems. -/
def Store.resolve (st : Store) (path : Path) : Option ℕ :=
  match (st.fifoSlot path).bind (lookup st.namedFifos) with
  | some f => some f.vn
  | none => st.files path

/-- The objects of a successful `vfs_pipe2`: one ring, two vnodes, two descriptions. -/
def Store.pipeObjects (st : Store) : Store :=
  { st with
    rings := st.rings ++ [⟨1, 1, .pipe ⟨st.vnodes.length, st.vnodes.length + 1⟩, 0⟩]
    vnodes := st.vnodes ++ [⟨.pipe .read st.rings.length, 0⟩] ++
      [⟨.pipe .write st.rings.length, 0⟩]
    ofds := st.ofds ++ [some ⟨st.vnodes.length, 1⟩] ++ [some ⟨st.vnodes.length + 1, 1⟩] }

/-- A ring that a failing call allocates and gives back. -/
def Store.wasteRing (st : Store) : Store :=
  { st with rings := st.rings ++ [⟨1, 1, .nobody, 1⟩] }

/-- A vnode that a failing call allocates and gives back. -/
def Store.wasteVnode (st : Store) : Store :=
  { st with vnodes := st.vnodes ++ [⟨.file, 1⟩] }

/-- A description that a failing call allocates and gives back. -/
def Store.wasteOfd (st : Store) : Store := { st with ofds := st.ofds ++ [none] }

/-- The new ring and vnode of `vfs_mkfifo`, entered in slot `i`. -/
def Store.addFifo (st : Store) (i : ℕ) (path : Path) : Store :=
  { st with
    rings := st.rings ++ [⟨1, 1, .fifo st.vnodes.length, 0⟩]
    vnodes := st.vnodes ++ [⟨.fifo st.rings.length, 0⟩]
    namedFifos := st.namedFifos.set i (some ⟨path, st.rings.length, st.vnodes.length⟩) }

/-- The branch of `vfs_unlink` for a named FIFO. -/
def Store.removeFifo (st : Store) (i : ℕ) (f : NamedFifo) : Store :=
  { (st.kfree f.ring).slabFree f.vn with namedFifos := st.namedFifos.set i none }

def Store.addFile (st : Store) (path : Path) : Store :=
  { st with
    vnodes := st.vnodes ++ [⟨.file, 0⟩]
    files := Function.update st.files path (some st.vnodes.length) }

/-- `tmpfs_unlink`: the slot with its vnode is cleared for the next file. -/
def Store.removeFile (st : Store) (path : Path) (v : ℕ) : Store :=
  { st.slabFree v with files := Function.update st.files path none }

/-! ## What holds of the objects -/

/-- The live descriptions on a vnode. -/
def Store.opens (st : Store) (v : ℕ) : ℕ := (owned (fun d => [d.vn]) st.ofds).count v

/-- Neither the vnode nor its ring was freed. -/
def Store.Live (st : Store) (v : ℕ) : Prop :=
  ∃ b, st.vnodes[v]? = some ⟨b, 0⟩ ∧
    ∀ r, b.ring = some r → ∃ ring, st.rings[r]? = some ring ∧ ring.frees = 0

/-- The ring of a vnode was allocated together with it. -/
def Store.Owned (st : Store) (v : ℕ) : Backing → Prop
  | .pipe side r => ∃ ring ends, st.rings[r]? = some ring ∧ ring.owner = .pipe ends ∧
      ends.vn side = v
  | .fifo r => ∃ ring, st.rings[r]? = some ring ∧ ring.owner = .fifo v
  | .file => True

/-- A pipe has an open end and all of its objects, or no open end, no ring and one of its
two vnodes. -/
inductive PipeOk (opens : ℕ → ℕ) (vnodes : List Vnode) (r : ℕ) (ring : Ring) (ends : Ends) : Prop
  | live (side : PipeEnd) (hopen : 0 < opens (ends.vn side))
      (hcount : ∀ side, ring.count side = opens (ends.vn side)) (hring : ring.frees = 0)
      (hvn : ∀ side, vnodes[ends.vn side]? = some ⟨.pipe side r, 0⟩)
  | gone (side : PipeEnd) (hclosed : ∀ side, opens (ends.vn side) = 0)
      (hcount : ∀ side, ring.count side = 0) (hring : ring.frees = 1)
      (hfreed : vnodes[ends.vn side]? = some ⟨.pipe side r, 1⟩)
      (hleft : vnodes[ends.vn side.other]? = some ⟨.pipe side.other r, 0⟩)

/-- The vnodes and rings fit the descriptions on them. -/
structure Backs (opens : ℕ → ℕ) (st : Store) : Prop where
  live : ∀ v, 0 < opens v → st.Live v
  owned : ∀ v x, st.vnodes[v]? = some x → st.Owned v x.backing
  pipe : ∀ r ring ends, st.rings[r]? = some ring → ring.owner = .pipe ends →
    PipeOk opens st.vnodes r ring ends
  fifo : ∀ i f, lookup st.namedFifos i = some f →
    st.vnodes[f.vn]? = some ⟨.fifo f.ring, 0⟩ ∧ st.Live f.vn
  fifoApart : ∀ i j f g, lookup st.namedFifos i = some f → lookup st.namedFifos j = some g →
    f.vn = g.vn → i = j
  file : ∀ path v, st.files path = some v → st.vnodes[v]? = some ⟨.file, 0⟩
  fileApart : ∀ p q v, st.files p = some v → st.files q = some v → p = q

/-- The counts of the descriptions are `held`. -/
structure Counts (ofds : List (Option Ofd)) (held : ℕ → ℕ) : Prop where
  count : ∀ o, (lookup ofds o).elim 0 Ofd.refcount = held o
  positive : ∀ o d, lookup ofds o = some d → 0 < d.refcount

structure Store.Sound (st : Store) (held : ℕ → ℕ) : Prop where
  counts : Counts st.ofds held
  backs : Backs st.opens st

section

variable {α : Type*} {l : List α} {i : ℕ} {a b x : α}

theorem modify_self (f : α → α) (hget : l[i]? = some a) :
    (l.modify i f)[i]? = some (f a) := by
  rw [getElem?_modify_eq, hget]
  rfl

theorem append_of_some (l' : List α) (hget : l[i]? = some x) : (l ++ l')[i]? = some x := by
  rw [getElem?_append_left (List.getElem?_eq_some_iff.mp hget).1, hget]

theorem concat_new (hnew : l[i]? = none) (hget : (l ++ [a])[i]? = some x) : i = l.length ∧ x = a := by
  have hle : l.length ≤ i := List.getElem?_eq_none_iff.mp hnew
  have hlt : i < l.length + 1 := by
    have h := (List.getElem?_eq_some_iff.mp hget).1
    rw [length_append] at h
    exact h
  have hi : i = l.length := by omega
  rw [hi, getElem?_concat_length] at hget
  cases hget
  exact ⟨hi, rfl⟩

theorem concat_concat_new (hnew : l[i]? = none)
    (hget : (l ++ [a] ++ [b])[i]? = some x) :
    i = l.length ∧ x = a ∨ i = l.length + 1 ∧ x = b := by
  cases hfirst : (l ++ [a])[i]? with
  | some y =>
    rw [append_of_some [b] hfirst] at hget
    cases hget
    exact .inl (concat_new hnew hfirst)
  | none =>
    obtain ⟨hi, hx⟩ := concat_new hfirst hget
    rw [length_append] at hi
    exact .inr ⟨hi, hx⟩

end

variable {st st' : Store} {opens opens' held : ℕ → ℕ} {v o r : ℕ}

/-! ## Descriptions on a vnode -/

section

variable {d : Ofd} (hget : lookup st.ofds o = some d)
include hget

theorem opens_of_lookup : 0 < st.opens d.vn :=
  count_pos_iff.mpr (mem_owned hget (mem_singleton_self _))

theorem opens_set_refcount (n : ℕ) :
    { st with ofds := st.ofds.set o (some { d with refcount := n }) }.opens = st.opens := by
  funext v
  have hset := count_owned_set (fun d : Ofd => [d.vn]) hget (some { d with refcount := n }) v
  exact Nat.add_right_cancel hset

theorem opens_set_none (v : ℕ) :
    { st with ofds := st.ofds.set o none }.opens v + [d.vn].count v = st.opens v :=
  count_owned_set (fun d : Ofd => [d.vn]) hget none v

end

theorem opens_alloc (st : Store) (vn v : ℕ) :
    (st.ofdAlloc vn).opens v = st.opens v + [vn].count v :=
  count_owned_append (fun d : Ofd => [d.vn]) st.ofds (some ⟨vn, 1⟩) v

/-! ## Pipes and their rings -/

theorem Ring.count_drop (ring : Ring) (side side' : PipeEnd) :
    (ring.drop side).count side' = ring.count side' - if side' = side then 1 else 0 := by
  cases side <;> cases side' <;> rfl

theorem Ring.drop_owner (ring : Ring) (side : PipeEnd) : (ring.drop side).owner = ring.owner := by
  cases side <;> rfl

theorem Ring.drop_frees (ring : Ring) (side : PipeEnd) : (ring.drop side).frees = ring.frees := by
  cases side <;> rfl

theorem Ring.dead_iff (ring : Ring) : ring.dead = true ↔ ∀ side, ring.count side = 0 := by
  rw [Ring.dead, Bool.and_eq_true, beq_iff_eq, beq_iff_eq]
  constructor
  · rintro ⟨hreaders, hwriters⟩ side
    cases side with
    | read => exact hreaders
    | write => exact hwriters
  · intro hcount
    exact ⟨hcount .read, hcount .write⟩

theorem PipeEnd.eq_other {side side' : PipeEnd} (hne : side ≠ side') : side = side'.other := by
  cases side <;> cases side' <;> first | rfl | exact absurd rfl hne

section

variable {vnodes vnodes' : List Vnode} {ring : Ring} {ends : Ends}
  (hok : PipeOk opens vnodes r ring ends)
include hok

theorem PipeOk.vnode (side : PipeEnd) :
    ∃ n, vnodes[ends.vn side]? = some ⟨.pipe side r, n⟩ := by
  cases hok with
  | live _ _ _ _ hvn => exact ⟨0, hvn side⟩
  | gone freed _ _ _ hfreed hleft =>
    by_cases hside : side = freed
    · exact ⟨1, hside ▸ hfreed⟩
    · exact ⟨0, PipeEnd.eq_other hside ▸ hleft⟩

theorem PipeOk.congr (hopens : ∀ side, opens' (ends.vn side) = opens (ends.vn side))
    (hvnodes : ∀ side, vnodes'[ends.vn side]? = vnodes[ends.vn side]?) :
    PipeOk opens' vnodes' r ring ends := by
  cases hok with
  | live side hopen hcount hring hvn =>
    refine .live side ?_ ?_ hring ?_
    · rw [hopens]
      exact hopen
    · intro side
      rw [hopens, hcount]
    · intro side
      rw [hvnodes, hvn]
  | gone side hclosed hcount hring hfreed hleft =>
    refine .gone side ?_ hcount hring ?_ ?_
    · intro side
      rw [hopens, hclosed]
    · rw [hvnodes, hfreed]
    · rw [hvnodes, hleft]

end

variable {b : Backing}

/-- The owners of the rings are never changed. -/
theorem Store.Owned.mono (howned : st.Owned v b)
    (howners : ∀ (r : ℕ) (ring : Ring), st.rings[r]? = some ring →
      ∃ ring', st'.rings[r]? = some ring' ∧ ring'.owner = ring.owner) : st'.Owned v b := by
  cases b with
  | pipe side r =>
    obtain ⟨ring, ends, hring, howner, hvn⟩ := howned
    obtain ⟨ring', hring', howner'⟩ := howners r ring hring
    exact ⟨ring', ends, hring', howner'.trans howner, hvn⟩
  | fifo r =>
    obtain ⟨ring, hring, howner⟩ := howned
    obtain ⟨ring', hring', howner'⟩ := howners r ring hring
    exact ⟨ring', hring', howner'.trans howner⟩
  | file => trivial

/-- A vnode is the owner of the ring it uses. -/
theorem Backs.owner_of_ring (hbacks : Backs opens st) {n : ℕ} {ring : Ring}
    (hring : st.rings[r]? = some ring) (hvn : st.vnodes[v]? = some ⟨b, n⟩)
    (hb : b.ring = some r) : b = .fifo r ∧ ring.owner = .fifo v ∨
      ∃ side ends, b = .pipe side r ∧ ring.owner = .pipe ends ∧ ends.vn side = v := by
  have howned := hbacks.owned v _ hvn
  cases b with
  | pipe side r' =>
    cases hb
    obtain ⟨ring', ends, hring', howner, hend⟩ := howned
    cases hring.symm.trans hring'
    exact .inr ⟨side, ends, rfl, howner, hend⟩
  | fifo r' =>
    cases hb
    obtain ⟨ring', hring', howner⟩ := howned
    cases hring.symm.trans hring'
    exact .inl ⟨rfl, howner⟩
  | file => cases hb

/-- Vnodes with a common ring are the two ends of a pipe. -/
theorem Backs.end_of_ring (hbacks : Backs opens st) {n : ℕ} {ring : Ring}
    {ends : Ends} (hring : st.rings[r]? = some ring) (howner : ring.owner = .pipe ends)
    (hvn : st.vnodes[v]? = some ⟨b, n⟩) (hb : b.ring = some r) :
    ∃ side, b = .pipe side r ∧ ends.vn side = v := by
  obtain ⟨-, hfifo⟩ | ⟨side, ends', rfl, hpipe, hend⟩ := hbacks.owner_of_ring hring hvn hb
  · cases howner.symm.trans hfifo
  · cases howner.symm.trans hpipe
    exact ⟨side, rfl, hend⟩

/-- The ring of a named FIFO is the ring of no other vnode. -/
theorem Backs.fifo_of_ring (hbacks : Backs opens st) {n : ℕ} {w m : ℕ}
    (hvn : st.vnodes[v]? = some ⟨.fifo r, n⟩) (hw : st.vnodes[w]? = some ⟨b, m⟩)
    (hb : b.ring = some r) : w = v := by
  obtain ⟨ring, hring, howner⟩ := hbacks.owned v _ hvn
  obtain ⟨-, hfifo⟩ | ⟨side, ends, rfl, hpipe, hend⟩ := hbacks.owner_of_ring hring hw hb
  · cases howner.symm.trans hfifo
    rfl
  · cases howner.symm.trans hpipe

/-! ## Changes at one vnode -/

/-- Only the vnode `v` and its ring were written, and they keep their backing and their
owner. -/
structure Touches (st st' : Store) (v : ℕ) (b : Backing) : Prop where
  before : st.vnodes[v]? = some ⟨b, 0⟩
  after : ∃ n, st'.vnodes[v]? = some ⟨b, n⟩
  vnodes : ∀ w, w ≠ v → st'.vnodes[w]? = st.vnodes[w]?
  rings : ∀ j, b.ring ≠ some j → st'.rings[j]? = st.rings[j]?
  owners : ∀ (j : ℕ) (x : Ring), st.rings[j]? = some x →
    ∃ x', st'.rings[j]? = some x' ∧ x'.owner = x.owner

section Touches

variable {b : Backing} {w : ℕ}

section

variable (htouches : Touches st st' v b)
include htouches

theorem Touches.ne {b' : Backing} {n : ℕ} (hw : st.vnodes[w]? = some ⟨b', n⟩) (hb : b' ≠ b) :
    w ≠ v := by
  rintro rfl
  rw [htouches.before] at hw
  cases hw
  exact hb rfl

theorem Touches.live (hlive : st.Live w) (hne : w ≠ v)
    (hapart : ∀ c n j, st.vnodes[w]? = some ⟨c, n⟩ → c.ring = some j → b.ring ≠ some j) :
    st'.Live w := by
  obtain ⟨c, hc, hrings⟩ := hlive
  refine ⟨c, by rw [htouches.vnodes w hne, hc], ?_⟩
  intro j hj
  rw [htouches.rings j (hapart c 0 j hc hj)]
  exact hrings j hj

theorem Touches.owned (hbacks : Backs opens st) (w : ℕ)
    (x : Vnode) (hx : st'.vnodes[w]? = some x) : st'.Owned w x.backing := by
  by_cases hw : w = v
  · subst hw
    obtain ⟨n, hafter⟩ := htouches.after
    rw [hafter] at hx
    cases hx
    exact (hbacks.owned w _ htouches.before).mono htouches.owners
  · rw [htouches.vnodes w hw] at hx
    exact (hbacks.owned w x hx).mono htouches.owners

theorem Touches.pipe (hbacks : Backs opens st)
    (hopens : ∀ w, w ≠ v → opens' w = opens w) {j : ℕ} {x : Ring} {ends : Ends}
    (hj : b.ring ≠ some j) (hx : st'.rings[j]? = some x) (howner : x.owner = .pipe ends) :
    PipeOk opens' st'.vnodes j x ends := by
  rw [htouches.rings j hj] at hx
  have hok := hbacks.pipe j x ends hx howner
  have hne : ∀ side, ends.vn side ≠ v := by
    intro side
    obtain ⟨m, hm⟩ := hok.vnode side
    exact htouches.ne hm fun hb => hj (hb ▸ rfl)
  exact hok.congr (fun side => hopens _ (hne side)) fun side => htouches.vnodes _ (hne side)

theorem Touches.backs (hbacks : Backs opens st) (hopens : ∀ w, w ≠ v → opens' w = opens w)
    (hlive : ∀ w, 0 < opens' w → st'.Live w)
    (hpipe : ∀ j x ends, b.ring = some j → st'.rings[j]? = some x → x.owner = .pipe ends →
      PipeOk opens' st'.vnodes j x ends)
    (hfifos : ∀ i f, lookup st'.namedFifos i = some f →
      f.vn ≠ v ∧ lookup st.namedFifos i = some f)
    (hfiles : ∀ p w, st'.files p = some w → w ≠ v ∧ st.files p = some w) : Backs opens' st' where
  live := hlive
  owned := htouches.owned hbacks
  pipe j x ends hx howner := by
    by_cases hj : b.ring = some j
    · exact hpipe j x ends hj hx howner
    · exact htouches.pipe hbacks hopens hj hx howner
  fifo i f hf := by
    obtain ⟨hne, hold⟩ := hfifos i f hf
    obtain ⟨hvn, hlive⟩ := hbacks.fifo i f hold
    refine ⟨by rw [htouches.vnodes _ hne, hvn], htouches.live hlive hne ?_⟩
    intro c n j hc hj hb
    rw [hvn] at hc
    cases hc
    cases hj
    exact hne (hbacks.fifo_of_ring hvn htouches.before hb).symm
  fifoApart i j f g hf hg := hbacks.fifoApart i j f g (hfifos i f hf).2 (hfifos j g hg).2
  file p w hw := by
    rw [htouches.vnodes w (hfiles p w hw).1, hbacks.file p w (hfiles p w hw).2]
  fileApart p q w hp hq := hbacks.fileApart p q w (hfiles p w hp).2 (hfiles q w hq).2

end

end Touches

/-! ## The last description on an end -/

section Release

variable {side : PipeEnd} {ring ring' : Ring} {ends : Ends} {n : ℕ}

theorem touches_of_modify {b : Backing} {g : Ring → Ring} (hvn : st.vnodes[v]? = some ⟨b, 0⟩)
    (hb : b.ring = some r) (hrings : st'.rings = st.rings.modify r g)
    (howner : ∀ x, (g x).owner = x.owner) (hafter : ∃ n, st'.vnodes[v]? = some ⟨b, n⟩)
    (hvnodes : ∀ w, w ≠ v → st'.vnodes[w]? = st.vnodes[w]?) : Touches st st' v b := by
  have hother : ∀ j, r ≠ j → st'.rings[j]? = st.rings[j]? := by
    intro j hj
    rw [hrings, getElem?_modify_ne _ _ hj]
  refine ⟨hvn, hafter, hvnodes, ?_, ?_⟩
  · intro j hj
    exact hother j fun heq => hj (hb.trans (congrArg some heq))
  · intro j x hx
    by_cases hj : r = j
    · subst hj
      exact ⟨g x, by rw [hrings, modify_self g hx], howner x⟩
    · exact ⟨x, by rw [hother j hj, hx], rfl⟩

theorem touches_dropEnd (hvn : st.vnodes[v]? = some ⟨.pipe side r, 0⟩) :
    Touches st (st.dropEnd side r) v (.pipe side r) :=
  touches_of_modify hvn rfl rfl (Ring.drop_owner · side) ⟨0, hvn⟩ fun _ _ => rfl

theorem touches_free {b : Backing} (hvn : st.vnodes[v]? = some ⟨b, 0⟩) (hb : b.ring = some r) :
    Touches st ((st.kfree r).slabFree v) v b :=
  touches_of_modify hvn hb rfl (fun _ => rfl) ⟨1, modify_self _ hvn⟩
    fun _ hne => getElem?_modify_ne _ _ hne.symm

theorem Touches.trans {st'' : Store} {b : Backing} (hfirst : Touches st st' v b)
    (hsecond : Touches st' st'' v b) : Touches st st'' v b := by
  refine ⟨hfirst.before, hsecond.after, ?_, ?_, ?_⟩
  · intro w hw
    rw [hsecond.vnodes w hw, hfirst.vnodes w hw]
  · intro j hj
    rw [hsecond.rings j hj, hfirst.rings j hj]
  · intro j x hx
    obtain ⟨x', hx', hsame⟩ := hfirst.owners j x hx
    obtain ⟨x'', hx'', hsame'⟩ := hsecond.owners j x' hx'
    exact ⟨x'', hx'', hsame'.trans hsame⟩

theorem Backs.reopen (hbacks : Backs opens st) (hopens : ∀ w, w ≠ v → opens' w = opens w)
    (hlive : st.Live v) (hnot : ∀ side r n, st.vnodes[v]? ≠ some ⟨.pipe side r, n⟩) :
    Backs opens' st := by
  refine { hbacks with live := ?_, pipe := ?_ }
  · intro w hopen
    by_cases hw : w = v
    · exact hw ▸ hlive
    · rw [hopens w hw] at hopen
      exact hbacks.live w hopen
  · intro j x ends hx howner
    have hok := hbacks.pipe j x ends hx howner
    refine hok.congr (fun side => hopens _ ?_) fun _ => rfl
    intro heq
    obtain ⟨m, hm⟩ := hok.vnode side
    exact hnot side j m (heq ▸ hm)

section

variable (hfewer : ∀ w, opens' w + [v].count w = opens w)
include hfewer

theorem opens_of_ne {w : ℕ} (hne : w ≠ v) : opens' w = opens w := by
  have hw := hfewer w
  rw [count_single_of_ne hne] at hw
  exact hw

theorem le_opens (w : ℕ) : opens' w ≤ opens w :=
  hfewer w ▸ Nat.le_add_right _ _

/-- One end of a pipe loses a description.  Its objects are freed only when neither end has
one left. -/
theorem Backs.replaceEnd (hbacks : Backs opens st) (htouches : Touches st st' v (.pipe side r))
    (hring : st.rings[r]? = some ring) (howner : ring.owner = .pipe ends)
    (hring' : st'.rings[r]? = some ring')
    (hfifos : st'.namedFifos = st.namedFifos) (hfiles : st'.files = st.files)
    (hpipe : PipeOk opens' st'.vnodes r ring' ends) : Backs opens' st' := by
  have howner' : ring'.owner = .pipe ends := by
    obtain ⟨x, hx, hsame⟩ := htouches.owners r ring hring
    rw [hring'] at hx
    cases hx
    exact hsame.trans howner
  refine htouches.backs hbacks (fun w => opens_of_ne hfewer) ?_ ?_ ?_ ?_
  · intro w hopen
    obtain ⟨c, hc, hrings⟩ := hbacks.live w (Nat.lt_of_lt_of_le hopen (le_opens hfewer w))
    by_cases hcr : c.ring = some r
    · -- An open end of this pipe: the pipe is live.
      obtain ⟨side', rfl, hw⟩ := hbacks.end_of_ring hring howner hc hcr
      cases hpipe with
      | live _ _ _ hzero hvn =>
        refine ⟨_, hw ▸ hvn side', ?_⟩
        intro j hj
        cases hj
        exact ⟨ring', hring', hzero⟩
      | gone _ hclosed =>
        rw [← hw, hclosed side'] at hopen
        exact absurd hopen (Nat.lt_irrefl 0)
    · refine htouches.live ⟨c, hc, hrings⟩ (htouches.ne hc fun hb => hcr (hb ▸ rfl)) ?_
      intro c' m j hc' hj hb
      rw [hc] at hc'
      cases hc'
      cases hb
      exact hcr hj
  · rintro j x ends' ⟨⟩ hx howner''
    rw [hring'] at hx
    cases hx
    rw [howner'] at howner''
    cases howner''
    exact hpipe
  · intro i f hf
    rw [hfifos] at hf
    exact ⟨htouches.ne (hbacks.fifo i f hf).1 nofun, hf⟩
  · intro path w hw
    rw [hfiles] at hw
    exact ⟨htouches.ne (hbacks.file path w hw) nofun, hw⟩

/-- The counts of a pipe after one of its ends lost a description. -/
theorem count_dropped (hcount : ∀ side, ring.count side = opens (ends.vn side))
    (hend : ends.vn side = v) (hapart : ends.vn side.other ≠ v) (side' : PipeEnd) :
    (ring.drop side).count side' = opens' (ends.vn side') := by
  rw [Ring.count_drop, hcount]
  by_cases hside : side' = side
  · have hv := hfewer v
    rw [count_singleton_self] at hv
    rw [if_pos hside, hside, hend]
    omega
  · rw [if_neg hside, Nat.sub_zero, PipeEnd.eq_other hside, opens_of_ne hfewer hapart]

theorem Backs.release (hbacks : Backs opens st) (hopen : 0 < opens v) :
    Backs opens' (st.releaseBacking v) := by
  obtain ⟨b, hvn, -⟩ := hbacks.live v hopen
  have hmap : st.vnodes[v]?.map Vnode.backing = some b := by rw [hvn, map_some]
  cases b with
  | file | fifo =>
    rw [Store.releaseBacking, hmap]
    apply hbacks.reopen (fun w => opens_of_ne hfewer) (hbacks.live v hopen)
    intro side r n h
    rw [hvn] at h
    cases h
  | pipe side r =>
    obtain ⟨ring, ends, hring, howner, hend⟩ := hbacks.owned v _ hvn
    have hok := hbacks.pipe r ring ends hring howner
    have hdrop : (st.dropEnd side r).rings[r]? = some (ring.drop side) := modify_self _ hring
    have hapart : ends.vn side.other ≠ v := by
      intro heq
      obtain ⟨m, hm⟩ := hok.vnode side.other
      rw [heq, hvn] at hm
      cases side <;> cases hm
    cases hok with
    | gone _ hclosed =>
      rw [← hend, hclosed side] at hopen
      exact absurd hopen (Nat.lt_irrefl 0)
    | live _ _ hcount hzero hvns =>
      have hcount' := count_dropped hfewer hcount hend hapart
      have htouches := touches_dropEnd hvn
      simp only [Store.releaseBacking, hmap]
      rw [hdrop, any_some]
      by_cases hdead : (ring.drop side).dead = true
      · -- The last description of either end.
        rw [if_pos hdead]
        have hfree := htouches.trans (touches_free hvn rfl)
        have hall := (Ring.dead_iff _).mp hdead
        apply hbacks.replaceEnd hfewer hfree hring howner (modify_self _ hdrop) rfl rfl
        refine .gone side ?_ ?_ ?_ ?_ ?_
        · intro side'
          rw [← hcount' side', hall side']
        · exact hall
        · change (ring.drop side).frees + 1 = 1
          rw [Ring.drop_frees, hzero]
        · rw [hend]
          exact modify_self _ hvn
        · rw [hfree.vnodes _ hapart]
          exact hvns side.other
      · rw [if_neg hdead]
        apply hbacks.replaceEnd hfewer htouches hring howner hdrop rfl rfl
        rw [Ring.dead_iff, not_forall] at hdead
        obtain ⟨side', hside'⟩ := hdead
        refine .live side' ?_ hcount' ?_ hvns
        · rw [← hcount' side']
          exact Nat.pos_of_ne_zero hside'
        · rw [Ring.drop_frees, hzero]

end

end Release

/-! ## Descriptions taken and dropped -/

section Counts

variable {ofds : List (Option Ofd)} {held' : ℕ → ℕ} {d : Ofd}

theorem Counts.set (hcounts : Counts ofds held) (hget : lookup ofds o = some d)
    {x : Option Ofd} (hpositive : ∀ d', x = some d' → 0 < d'.refcount)
    (hself : x.elim 0 Ofd.refcount = held' o) (hheld : ∀ w, w ≠ o → held' w = held w) :
    Counts (ofds.set o x) held' := by
  refine ⟨?_, ?_⟩
  · intro w
    rw [lookup_set hget]
    split_ifs with hw
    · rw [hw, hself]
    · rw [hcounts.count w, hheld w hw]
  · intro w d' hd'
    rw [lookup_set hget] at hd'
    split_ifs at hd'
    · exact hpositive d' hd'
    · exact hcounts.positive w d' hd'

theorem Counts.alloc (hcounts : Counts ofds held) (vn : ℕ) :
    Counts (ofds ++ [some ⟨vn, 1⟩]) fun w => held w + [ofds.length].count w := by
  refine ⟨?_, ?_⟩
  · intro w
    by_cases hw : w = ofds.length
    · have hfree := hcounts.count ofds.length
      rw [lookup_length, elim_none] at hfree
      rw [hw, lookup_append_self, count_singleton_self, ← hfree]
      rfl
    · rw [lookup_append_of_ne _ hw, hcounts.count w, count_single_of_ne hw, Nat.add_zero]
  · intro w d' hd'
    by_cases hw : w = ofds.length
    · rw [hw, lookup_append_self] at hd'
      cases hd'
      exact Nat.one_pos
    · rw [lookup_append_of_ne _ hw] at hd'
      exact hcounts.positive w d' hd'

theorem Counts.exists (hcounts : Counts ofds held) (hheld : 0 < held o) :
    ∃ d, lookup ofds o = some d := by
  cases hget : lookup ofds o with
  | some d => exact ⟨d, rfl⟩
  | none =>
    have hzero := hcounts.count o
    rw [hget, elim_none] at hzero
    rw [← hzero] at hheld
    exact absurd hheld (Nat.lt_irrefl 0)

theorem Backs.withOfds (hbacks : Backs opens st) (ofds : List (Option Ofd)) :
    Backs opens { st with ofds := ofds } :=
  { hbacks with }

theorem Store.Sound.congr (hsound : st.Sound held) (hheld : ∀ w, held' w = held w) :
    st.Sound held' :=
  ⟨⟨fun w => (hsound.counts.count w).trans (hheld w).symm, hsound.counts.positive⟩, hsound.backs⟩

theorem Store.Sound.get (hsound : st.Sound held) (hpos : 0 < held o) :
    (st.ofdGet o).Sound fun w => held w + [o].count w := by
  obtain ⟨d, hd⟩ := hsound.counts.exists hpos
  have hcount := hsound.counts.count o
  rw [hd, elim_some] at hcount
  have hget : st.ofdGet o =
      { st with ofds := st.ofds.set o (some { d with refcount := d.refcount + 1 }) } := by
    rw [Store.ofdGet, hd]
  rw [hget]
  refine ⟨?_, ?_⟩
  · refine hsound.counts.set hd ?_ ?_ ?_
    · rintro d' ⟨⟩
      exact Nat.succ_pos _
    · rw [count_singleton_self, ← hcount]
      rfl
    · intro w hw
      rw [count_single_of_ne hw, Nat.add_zero]
  · rw [opens_set_refcount hd]
    exact hsound.backs.withOfds _

theorem Store.Sound.put (hsound : st.Sound held)
    (hdrop : ∀ w, held' w + [o].count w = held w) : (st.ofdPut o).Sound held' := by
  have hself := hdrop o
  rw [count_singleton_self] at hself
  have hothers : ∀ w, w ≠ o → held' w = held w := fun w hw => opens_of_ne hdrop hw
  have hpos : 0 < held o := Nat.lt_of_lt_of_eq (Nat.succ_pos (held' o)) hself
  obtain ⟨d, hd⟩ := hsound.counts.exists hpos
  have hcount := hsound.counts.count o
  rw [hd, elim_some] at hcount
  simp only [Store.ofdPut, hd]
  split_ifs with hlast
  · refine ⟨?_, ?_⟩
    · refine hsound.counts.set hd ?_ ?_ hothers
      · rintro d' ⟨⟩
      · rw [elim_none]
        omega
    · apply Backs.withOfds
      exact hsound.backs.release (opens_set_none hd) (opens_of_lookup hd)
  · refine ⟨?_, ?_⟩
    · refine hsound.counts.set hd ?_ ?_ hothers
      · rintro d' ⟨⟩
        change 0 < d.refcount - 1
        omega
      · change d.refcount - 1 = held' o
        omega
    · rw [opens_set_refcount hd]
      exact hsound.backs.withOfds _

theorem Store.Sound.alloc (hsound : st.Sound held) (hlive : st.Live v)
    (hnot : ∀ side r n, st.vnodes[v]? ≠ some ⟨.pipe side r, n⟩) :
    (st.ofdAlloc v).Sound fun w => held w + [st.ofds.length].count w := by
  refine ⟨hsound.counts.alloc v, ?_⟩
  apply Backs.withOfds
  refine hsound.backs.reopen (fun w hw => ?_) hlive hnot
  rw [opens_alloc, count_single_of_ne hw, Nat.add_zero]

end Counts

/-! ## New objects -/

section Extends

/-- Vnodes and rings were added, and none was written. -/
structure Extends (st st' : Store) : Prop where
  vnodes : ∀ (v : ℕ) (x : Vnode), st.vnodes[v]? = some x → st'.vnodes[v]? = some x
  rings : ∀ (r : ℕ) (x : Ring), st.rings[r]? = some x → st'.rings[r]? = some x
  fifos : st'.namedFifos = st.namedFifos
  files : st'.files = st.files

theorem Extends.live (hext : Extends st st') (hlive : st.Live v) : st'.Live v := by
  obtain ⟨b, hb, hrings⟩ := hlive
  refine ⟨b, hext.vnodes v _ hb, ?_⟩
  intro r hr
  obtain ⟨ring, hring, hfrees⟩ := hrings r hr
  exact ⟨ring, hext.rings r ring hring, hfrees⟩

theorem Backs.extend (hbacks : Backs opens st) (hext : Extends st st')
    (hopens : ∀ (v : ℕ) (x : Vnode), st.vnodes[v]? = some x → opens' v = opens v)
    (hlive : ∀ v, st.vnodes[v]? = none → 0 < opens' v → st'.Live v)
    (howned : ∀ v x, st.vnodes[v]? = none → st'.vnodes[v]? = some x → st'.Owned v x.backing)
    (hpipe : ∀ r ring ends, st.rings[r]? = none → st'.rings[r]? = some ring →
      ring.owner = .pipe ends → PipeOk opens' st'.vnodes r ring ends) : Backs opens' st' := by
  refine ⟨?_, ?_, ?_, ?_, ?_, ?_, ?_⟩
  · intro v hopen
    cases hv : st.vnodes[v]? with
    | none => exact hlive v hv hopen
    | some x =>
      rw [hopens v x hv] at hopen
      exact hext.live (hbacks.live v hopen)
  · intro v x hx
    cases hv : st.vnodes[v]? with
    | none => exact howned v x hv hx
    | some y =>
      rw [hext.vnodes v y hv] at hx
      cases hx
      exact (hbacks.owned v x hv).mono fun r ring hring => ⟨ring, hext.rings r ring hring, rfl⟩
  · intro r ring ends hring howner
    cases hr : st.rings[r]? with
    | none => exact hpipe r ring ends hr hring howner
    | some ring' =>
      rw [hext.rings r ring' hr] at hring
      cases hring
      have hok := hbacks.pipe r ring ends hr howner
      refine hok.congr ?_ ?_
      · intro side
        obtain ⟨n, hn⟩ := hok.vnode side
        exact hopens _ _ hn
      · intro side
        obtain ⟨n, hn⟩ := hok.vnode side
        rw [hn]
        exact hext.vnodes _ _ hn
  · intro i f hf
    rw [hext.fifos] at hf
    obtain ⟨hvn, hf'⟩ := hbacks.fifo i f hf
    exact ⟨hext.vnodes _ _ hvn, hext.live hf'⟩
  · rw [hext.fifos]
    exact hbacks.fifoApart
  · intro path v hv
    rw [hext.files] at hv
    exact hext.vnodes v _ (hbacks.file path v hv)
  · rw [hext.files]
    exact hbacks.fileApart

theorem Backs.opens_new (hbacks : Backs opens st) (hnew : st.vnodes[v]? = none) :
    opens v = 0 := by
  apply Nat.eq_zero_of_not_pos
  intro hopen
  obtain ⟨b, hb, -⟩ := hbacks.live v hopen
  rw [hnew] at hb
  cases hb

theorem Backs.extendClosed (hbacks : Backs opens st) (hext : Extends st st')
    (howned : ∀ v x, st.vnodes[v]? = none → st'.vnodes[v]? = some x → st'.Owned v x.backing)
    (hpipe : ∀ (r : ℕ) ring ends, st.rings[r]? = none → st'.rings[r]? = some ring →
      ring.owner ≠ Owner.pipe ends) : Backs opens st' := by
  refine hbacks.extend hext (fun _ _ _ => rfl) ?_ howned fun r ring ends hnew hring howner =>
    absurd howner (hpipe r ring ends hnew hring)
  intro v hnew hopen
  rw [hbacks.opens_new hnew] at hopen
  exact absurd hopen (Nat.lt_irrefl 0)

theorem Store.Sound.wasteRing (hsound : st.Sound held) : st.wasteRing.Sound held := by
  refine ⟨hsound.counts, hsound.backs.extendClosed ?_ ?_ ?_⟩
  · exact ⟨fun _ _ h => h, fun _ _ h => append_of_some _ h, rfl, rfl⟩
  · intro v x hnew hx
    cases hnew.symm.trans hx
  · intro r ring ends hnew hring howner
    obtain ⟨-, rfl⟩ := concat_new hnew hring
    cases howner

theorem Backs.addVnode (hbacks : Backs opens st) (n : ℕ) :
    Backs opens { st with vnodes := st.vnodes ++ [⟨.file, n⟩] } := by
  refine hbacks.extendClosed ?_ ?_ ?_
  · exact ⟨fun _ _ h => append_of_some _ h, fun _ _ h => h, rfl, rfl⟩
  · intro v x hnew hx
    obtain ⟨-, rfl⟩ := concat_new hnew hx
    exact trivial
  · intro r ring ends hnew hring
    cases hnew.symm.trans hring

theorem Store.Sound.wasteVnode (hsound : st.Sound held) : st.wasteVnode.Sound held :=
  ⟨hsound.counts, hsound.backs.addVnode 1⟩

theorem Store.Sound.wasteOfd (hsound : st.Sound held) : st.wasteOfd.Sound held := by
  have hopens : st.wasteOfd.opens = st.opens := by
    funext v
    exact count_owned_append (fun d : Ofd => [d.vn]) st.ofds none v
  refine ⟨⟨?_, ?_⟩, ?_⟩
  · intro o
    rw [Store.wasteOfd, lookup_append_none]
    exact hsound.counts.count o
  · intro o d hd
    rw [Store.wasteOfd, lookup_append_none] at hd
    exact hsound.counts.positive o d hd
  · rw [hopens]
    exact hsound.backs.withOfds _

/-- The objects of a new pipe; both descriptions are in the hands of the caller. -/
theorem Store.Sound.pipeObjects (hsound : st.Sound held) : st.pipeObjects.Sound fun w =>
      held w + [st.ofds.length].count w + [st.ofds.length + 1].count w := by
  let ends : Ends := ⟨st.vnodes.length, st.vnodes.length + 1⟩
  have hvn : ∀ side,
      st.pipeObjects.vnodes[ends.vn side]? = some ⟨.pipe side st.rings.length, 0⟩ := by
    intro side
    cases side with
    | read => exact append_of_some _ getElem?_concat_length
    | write =>
      have hlast := @getElem?_concat_length Vnode
        (st.vnodes ++ [⟨.pipe .read st.rings.length, 0⟩]) ⟨.pipe .write st.rings.length, 0⟩
      rw [length_append] at hlast
      exact hlast
  have hring : st.pipeObjects.rings[st.rings.length]? = some ⟨1, 1, .pipe ends, 0⟩ :=
    getElem?_concat_length
  have hopens : ∀ w, st.pipeObjects.opens w =
      st.opens w + [st.vnodes.length].count w + [st.vnodes.length + 1].count w := by
    intro w
    calc st.pipeObjects.opens w
        = ((st.ofdAlloc st.vnodes.length).ofdAlloc (st.vnodes.length + 1)).opens w := rfl
      _ = _ := by rw [opens_alloc, opens_alloc]
  have hfree : ∀ n, st.opens (st.vnodes.length + n) = 0 := fun n =>
    hsound.backs.opens_new (getElem?_eq_none (Nat.le_add_right _ _))
  have hone : ∀ side, st.pipeObjects.opens (ends.vn side) = 1 := by
    intro side
    cases side with
    | read =>
      have hzero : st.opens st.vnodes.length = 0 := hfree 0
      rw [hopens, Ends.vn, hzero, count_singleton_self, count_single_of_ne (Nat.ne_add_one _)]
    | write =>
      rw [hopens, Ends.vn, hfree 1, count_singleton_self,
        count_single_of_ne (Nat.add_one_ne_self _)]
  refine ⟨?_, hsound.backs.extend ?_ ?_ ?_ ?_ ?_⟩
  · have hcounts := (hsound.counts.alloc st.vnodes.length).alloc (st.vnodes.length + 1)
    rw [length_append] at hcounts
    exact hcounts
  · refine ⟨?_, ?_, rfl, rfl⟩
    · intro v x hx
      exact append_of_some _ (append_of_some _ hx)
    · intro r x hx
      exact append_of_some _ hx
  · intro v x hx
    have hlt := (List.getElem?_eq_some_iff.mp hx).1
    rw [hopens, count_single_of_ne hlt.ne, count_single_of_ne (Nat.lt_succ_of_lt hlt).ne,
      Nat.add_zero]
  · intro v hnew hopen
    have hlive : ∀ side, st.pipeObjects.Live (ends.vn side) := by
      intro side
      refine ⟨_, hvn side, ?_⟩
      intro r hr
      cases hr
      exact ⟨_, hring, rfl⟩
    by_cases hv : v = st.vnodes.length
    · exact hv ▸ hlive .read
    · by_cases hv' : v = st.vnodes.length + 1
      · exact hv' ▸ hlive .write
      · rw [hopens, hsound.backs.opens_new hnew, count_single_of_ne hv,
          count_single_of_ne hv'] at hopen
        exact absurd hopen (Nat.lt_irrefl 0)
  · intro v x hnew hx
    obtain ⟨rfl, rfl⟩ | ⟨rfl, rfl⟩ := concat_concat_new hnew hx <;> exact ⟨_, _, hring, rfl, rfl⟩
  · intro r ring ends hnew hr howner
    obtain ⟨rfl, rfl⟩ := concat_new hnew hr
    cases howner
    refine .live .read ?_ ?_ rfl hvn
    · rw [hone]
      exact Nat.one_pos
    · intro side
      rw [hone]
      cases side <;> rfl

end Extends

/-! ## Names -/

section Names

variable {path : Path} {i : ℕ} {f : NamedFifo}

theorem lookup_set_free {α : Type*} {arena : List (Option α)} {j : ℕ} {a b : α}
    (hget : lookup (arena.set i (some a)) j = some b) :
    j = i ∧ b = a ∨ lookup arena j = some b := by
  by_cases hj : j = i
  · subst hj
    rw [lookup, getElem?_set_self'] at hget
    cases harena : arena[j]? with
    | none =>
      rw [harena] at hget
      cases hget
    | some x =>
      rw [harena] at hget
      cases hget
      exact .inl ⟨rfl, rfl⟩
  · rw [lookup_set_of_ne _ hj] at hget
    exact .inr hget

section

variable (hsound : st.Sound held)
include hsound

theorem Store.Sound.addFifo (i : ℕ) (path : Path) : (st.addFifo i path).Sound held := by
  have hvn : (st.addFifo i path).vnodes[st.vnodes.length]? =
      some ⟨.fifo st.rings.length, 0⟩ := getElem?_concat_length
  have hring : (st.addFifo i path).rings[st.rings.length]? =
      some ⟨1, 1, .fifo st.vnodes.length, 0⟩ := getElem?_concat_length
  -- The objects first, then the slot of the registry.
  have hobjects : Backs st.opens { st.addFifo i path with namedFifos := st.namedFifos } := by
    refine hsound.backs.extendClosed ?_ ?_ ?_
    · exact ⟨fun _ _ h => append_of_some _ h, fun _ _ h => append_of_some _ h, rfl, rfl⟩
    · intro v x hnew hx
      obtain ⟨rfl, rfl⟩ := concat_new hnew hx
      exact ⟨_, hring, rfl⟩
    · intro r ring ends hnew hr howner
      obtain ⟨-, rfl⟩ := concat_new hnew hr
      cases howner
  have hlive : (st.addFifo i path).Live st.vnodes.length := by
    refine ⟨_, hvn, ?_⟩
    intro r hr
    cases hr
    exact ⟨_, hring, rfl⟩
  have hapart : ∀ j g, lookup st.namedFifos j = some g → g.vn ≠ st.vnodes.length := by
    intro j g hg
    exact ((List.getElem?_eq_some_iff.mp (hsound.backs.fifo j g hg).1).1).ne
  refine ⟨hsound.counts, { hobjects with fifo := ?_, fifoApart := ?_ }⟩
  · intro j g hg
    obtain ⟨rfl, rfl⟩ | hold := lookup_set_free hg
    · exact ⟨hvn, hlive⟩
    · exact hobjects.fifo j g hold
  · intro j k g g' hg hg' heq
    obtain ⟨rfl, rfl⟩ | hold := lookup_set_free hg
    · obtain ⟨rfl, rfl⟩ | hold' := lookup_set_free hg'
      · rfl
      · exact absurd heq.symm (hapart k g' hold')
    · obtain ⟨rfl, rfl⟩ | hold' := lookup_set_free hg'
      · exact absurd heq (hapart j g hold)
      · exact hobjects.fifoApart j k g g' hold hold' heq

theorem Store.Sound.removeFifo (hf : lookup st.namedFifos i = some f)
    (hclosed : st.opens f.vn = 0) : (st.removeFifo i f).Sound held := by
  obtain ⟨hvn, -⟩ := hsound.backs.fifo i f hf
  have htouches : Touches st (st.removeFifo i f) f.vn (.fifo f.ring) := by
    have hfree := touches_free hvn rfl
    exact { hfree with }
  refine ⟨hsound.counts, htouches.backs hsound.backs (fun _ _ => rfl) ?_ ?_ ?_ ?_⟩
  · intro w hopen
    have hne : w ≠ f.vn := fun heq => hopen.ne' (heq ▸ hclosed)
    refine htouches.live (hsound.backs.live w hopen) hne ?_
    intro c n j hc hj hb
    cases hb
    exact hne (hsound.backs.fifo_of_ring hvn hc hj)
  · -- A ring of a named FIFO is no ring of a pipe.
    rintro r ring ends ⟨⟩ hr howner
    obtain ⟨x, hx, hxowner⟩ := hsound.backs.owned f.vn _ hvn
    obtain ⟨x', hx', hsame⟩ := htouches.owners _ x hx
    rw [hx'] at hr
    cases hr
    rw [hsame, hxowner] at howner
    cases howner
  · intro j g hg
    rw [Store.removeFifo, lookup_set hf] at hg
    split_ifs at hg with hj
    exact ⟨fun heq => hj (hsound.backs.fifoApart j i g f hg hf heq), hg⟩
  · intro p w hw
    exact ⟨htouches.ne (hsound.backs.file p w hw) nofun, hw⟩

theorem Store.Sound.addFile (path : Path) : (st.addFile path).Sound held := by
  have hobjects := hsound.backs.addVnode 0
  have hcases : ∀ p v, (st.addFile path).files p = some v →
      p = path ∧ v = st.vnodes.length ∨ p ≠ path ∧ st.files p = some v := by
    intro p v hv
    by_cases hp : p = path
    · have hself : (st.addFile path).files p = some st.vnodes.length :=
        hp ▸ update_self path _ st.files
      rw [hself] at hv
      cases hv
      exact .inl ⟨hp, rfl⟩
    · have hother : (st.addFile path).files p = st.files p := update_of_ne hp _ _
      exact .inr ⟨hp, hother ▸ hv⟩
  have hapart : ∀ p v, st.files p = some v → v ≠ st.vnodes.length := by
    intro p v hv
    exact ((List.getElem?_eq_some_iff.mp (hsound.backs.file p v hv)).1).ne
  refine ⟨hsound.counts, { hobjects with file := ?_, fileApart := ?_ }⟩
  · intro p v hv
    obtain ⟨-, rfl⟩ | ⟨-, hold⟩ := hcases p v hv
    · exact getElem?_concat_length
    · exact hobjects.file p v hold
  · intro p q v hp hq
    obtain ⟨rfl, rfl⟩ | ⟨-, hold⟩ := hcases p v hp
    · obtain ⟨rfl, -⟩ | ⟨-, hold'⟩ := hcases q _ hq
      · rfl
      · exact absurd rfl (hapart q _ hold')
    · obtain ⟨rfl, rfl⟩ | ⟨-, hold'⟩ := hcases q _ hq
      · exact absurd rfl (hapart p _ hold)
      · exact hsound.backs.fileApart p q v hold hold'

theorem Store.Sound.removeFile (hfile : st.files path = some v) (hclosed : st.opens v = 0) :
    (st.removeFile path v).Sound held := by
  have hvn := hsound.backs.file path v hfile
  have htouches : Touches st (st.removeFile path v) v .file := by
    refine ⟨hvn, ⟨1, modify_self _ hvn⟩, ?_, fun _ _ => rfl, fun _ x hx => ⟨x, hx, rfl⟩⟩
    intro w hne
    exact getElem?_modify_ne _ _ hne.symm
  refine ⟨hsound.counts, htouches.backs hsound.backs (fun _ _ => rfl) ?_ nofun ?_ ?_⟩
  · intro w hopen
    have hne : w ≠ v := fun heq => hopen.ne' (heq ▸ hclosed)
    exact htouches.live (hsound.backs.live w hopen) hne nofun
  · intro i f hf
    exact ⟨htouches.ne (hsound.backs.fifo i f hf).1 nofun, hf⟩
  · intro p w hw
    have hp : p ≠ path := by
      rintro rfl
      have hself : (st.removeFile p v).files p = none := update_self p _ st.files
      rw [hself] at hw
      cases hw
    have hother : (st.removeFile path v).files p = st.files p := update_of_ne hp _ _
    rw [hother] at hw
    refine ⟨?_, hw⟩
    rintro rfl
    exact hp (hsound.backs.fileApart p path w hw hfile)

/-- What `resolve_path` returns is live and no end of a pipe. -/
theorem Store.Sound.resolve (hresolve : st.resolve path = some v) :
    st.Live v ∧ ∀ side r n, st.vnodes[v]? ≠ some ⟨.pipe side r, n⟩ := by
  rw [Store.resolve] at hresolve
  cases hslot : (st.fifoSlot path).bind (lookup st.namedFifos) with
  | some f =>
    rw [hslot] at hresolve
    cases hresolve
    obtain ⟨i, -, hf⟩ := bind_eq_some_iff.mp hslot
    obtain ⟨hvn, hlive⟩ := hsound.backs.fifo i f hf
    refine ⟨hlive, ?_⟩
    intro side r n h
    rw [hvn] at h
    cases h
  | none =>
    rw [hslot] at hresolve
    have hvn := hsound.backs.file path v hresolve
    refine ⟨⟨.file, hvn, nofun⟩, ?_⟩
    intro side r n h
    rw [hvn] at h
    cases h

end

end Names

end AuraLite.Descriptor

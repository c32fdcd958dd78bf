import AuraLite.Fs.FatFiles
import AuraLite.Lib.ClusterChain

/-!
# Who owns the clusters of a FAT32 volume

Every directory entry that can be reached owns the chain of its first cluster, and no two
entries share a cluster.  While an operation is under way one chain may be loose, with no
entry, and the entries at some places may be out of date; the operations take an entry's
chain loose, work on it and put it back.
-/

namespace AuraLite.FatFs

open Option List ByteMemory ClusterChain
open Function (update update_self update_of_ne)

/-! ## Chains -/

/-- The nodes of the chain that starts at `c`; the chain of an empty file starts at `0`. -/
structure Vol.Chain (v : Vol) (c : ℕ) (nodes : List ℕ) : Prop where
  nodup : nodes.Nodup
  range : ∀ x ∈ nodes, v.InRange x
  path : ∃ stop, Path v.fat c nodes stop ∧ (nodes = [] → c = 0) ∧ (nodes ≠ [] → bad ≤ stop)

/-- Cluster numbers fit, and a cluster is made of slots. -/
structure Vol.Shaped (v : Vol) : Prop where
  count : v.count + 2 ≤ bad
  positive : 0 < v.bpc
  slots : v.bpc % 32 = 0

structure Vol.SameShape (v v' : Vol) : Prop where
  count : v'.count = v.count
  bpc : v'.bpc = v.bpc
  root : v'.root = v.root

variable {v v' : Vol} {c cl : ℕ} {nodes : List ℕ}

open Vol

theorem Vol.SameShape.refl (v : Vol) : v.SameShape v := ⟨rfl, rfl, rfl⟩

theorem Vol.SameShape.trans {v'' : Vol} (h : v.SameShape v') (h' : v'.SameShape v'') :
    v.SameShape v'' :=
  ⟨h'.count.trans h.count, h'.bpc.trans h.bpc, h'.root.trans h.root⟩

theorem Vol.SameShape.shaped (h : v.SameShape v') (hshaped : v.Shaped) : v'.Shaped where
  count := h.count ▸ hshaped.count
  positive := h.bpc ▸ hshaped.positive
  slots := h.bpc ▸ hshaped.slots

variable {x : ℕ}

theorem Vol.SameShape.inRange (h : v.SameShape v') : v'.InRange x ↔ v.InRange x := by
  rw [InRange, InRange, h.count]

theorem Vol.Shaped.live (h : v.Shaped) (hx : v.InRange x) : FatFs.Live x :=
  ⟨hx.1, Nat.lt_of_lt_of_le hx.2 h.count⟩

theorem path_fat_ne_zero {stop : ℕ} (h : Path v.fat c nodes stop)
    (hrange : ∀ y ∈ nodes, v.InRange y) (hbad : bad ≤ stop) (hx : x ∈ nodes) : v.fat x ≠ 0 := by
  induction nodes generalizing c with
  | nil => exact (not_mem_nil hx).elim
  | cons node rest ih =>
    rcases List.mem_cons.mp hx with rfl | hlater
    · cases rest with
      | nil =>
        have hstop : v.fat x = stop := h.2
        rw [hstop]
        exact Nat.ne_of_gt (Nat.lt_of_lt_of_le (by decide) hbad)
      | cons other rest =>
        have hnext : v.fat x = other := h.2.1
        have hother := hrange other (mem_cons_of_mem _ mem_cons_self)
        rw [hnext]
        exact Nat.ne_of_gt (Nat.lt_of_lt_of_le (by decide) hother.1)
    · exact ih h.2 (fun y hy => hrange y (mem_cons_of_mem node hy)) hlater

section

variable (h : v.Chain c nodes)
include h

theorem Vol.Chain.congr (hshape : v.SameShape v')
    (hfat : ∀ x ∈ nodes, v'.fat x = v.fat x) : v'.Chain c nodes where
  nodup := h.nodup
  range x hx := hshape.inRange.mpr (h.range x hx)
  path := by
    obtain ⟨stop, hpath, hend⟩ := h.path
    exact ⟨stop, hpath.congr hfat, hend⟩

theorem Vol.Chain.ne_nil (hc : c ≠ 0) : nodes ≠ [] := by
  obtain ⟨stop, -, hempty, -⟩ := h.path
  exact fun hnil => hc (hempty hnil)

theorem Vol.Chain.head (hc : c ≠ 0) : ∃ rest, nodes = c :: rest := by
  obtain ⟨stop, hpath, -⟩ := h.path
  cases nodes with
  | nil => exact absurd rfl (h.ne_nil hc)
  | cons node rest => exact ⟨rest, by rw [hpath.1]⟩

theorem Vol.Chain.stop_not_live : ∃ stop, Path v.fat c nodes stop ∧ ¬ FatFs.Live stop := by
  obtain ⟨stop, hpath, hempty, hbad⟩ := h.path
  refine ⟨stop, hpath, fun hlive => ?_⟩
  by_cases hnil : nodes = []
  · rw [hnil] at hpath
    rw [← hpath, hempty hnil] at hlive
    exact absurd hlive.1 (by decide)
  · exact Nat.not_lt_of_le (hbad hnil) hlive.2

theorem Vol.Chain.fat_ne_zero (hx : x ∈ nodes) : v.fat x ≠ 0 := by
  obtain ⟨stop, hpath, -, hbad⟩ := h.path
  exact path_fat_ne_zero hpath h.range (hbad (ne_nil_of_mem hx)) hx

theorem Vol.Chain.fatGet (hx : x ∈ nodes) : v.fatGet x = v.fat x := if_pos (h.range x hx)

end

theorem walk_path {stop : ℕ} (hshaped : v.Shaped) (h : Path v.fat c nodes stop)
    (hrange : ∀ x ∈ nodes, v.InRange x) (hstop : ¬ FatFs.Live stop) (idx : ℕ) :
    v.walk idx c = nodes.getD idx stop := by
  induction nodes generalizing c idx with
  | nil =>
    rw [ClusterChain.Path] at h
    subst h
    cases idx with
    | zero => rfl
    | succ idx =>
      rw [walk, if_neg hstop]
      rfl
  | cons node rest ih =>
    have hnode : v.InRange node := hrange node mem_cons_self
    cases idx with
    | zero => exact h.1
    | succ idx =>
      rw [walk, h.1, if_pos (hshaped.live hnode), fatGet, if_pos hnode,
        ih h.2 fun x hx => hrange x (mem_cons_of_mem node hx)]
      rfl

section

variable (hshaped : v.Shaped) (h : v.Chain c nodes)
include hshaped h

theorem Vol.Chain.chainAt (idx : ℕ) : v.chainAt c idx = (nodes[idx]?).getD 0 := by
  obtain ⟨stop, hpath, hstop⟩ := h.stop_not_live
  rw [Vol.chainAt, walk_path hshaped hpath h.range hstop, getD_eq_getElem?_getD]
  cases hnode : nodes[idx]? with
  | none => exact if_neg hstop
  | some node => exact if_pos (hshaped.live (h.range node (mem_of_getElem? hnode)))

theorem Vol.Chain.dirRead (off : ℕ) : v.dirRead c off =
      (nodes[off / v.bpc]?).map fun x => window (v.content x) (off % v.bpc) := by
  rw [Vol.dirRead, h.chainAt hshaped]
  cases hnode : nodes[off / v.bpc]? with
  | none => exact if_pos rfl
  | some node =>
    have hrange := h.range node (mem_of_getElem? hnode)
    exact if_neg (Nat.ne_of_gt (Nat.lt_of_lt_of_le (by decide) hrange.1))

theorem Vol.Chain.dirRead_congr (hshape : v.SameShape v')
    (hsame : ∀ x ∈ nodes, v'.content x = v.content x ∧ v'.fat x = v.fat x) (off : ℕ) :
    v'.dirRead c off = v.dirRead c off := by
  have h' := h.congr hshape fun x hx => (hsame x hx).2
  rw [h.dirRead hshaped, h'.dirRead (hshape.shaped hshaped), hshape.bpc]
  cases hnode : nodes[off / v.bpc]? with
  | none => rfl
  | some node =>
    rw [map_some, map_some, (hsame node (mem_of_getElem? hnode)).1]

end

/-! ## Entries -/

/-- The root directory, the loose chain, or the slot of a directory. -/
inductive Place
  | root
  | loose
  | slot (dir off : ℕ)
deriving DecidableEq

/-- The entries of a directory for itself and for its parent. -/
def isDot (slot : Mem) : Bool :=
  name83 slot == pad 11 [46] || name83 slot == pad 11 [46, 46]

/-- A slot with a file or a directory. -/
structure IsEntry (slot : Mem) : Prop where
  used : slot 0 ≠ 0
  kept : slot 0 ≠ 0xE5
  label : isLabel slot = false
  dot : isDot slot = false

instance (slot : Mem) : Decidable (IsEntry slot) :=
  decidable_of_iff (slot 0 ≠ 0 ∧ slot 0 ≠ 0xE5 ∧ isLabel slot = false ∧ isDot slot = false)
    ⟨fun h => ⟨h.1, h.2.1, h.2.2.1, h.2.2.2⟩, fun h => ⟨h.1, h.2, h.3, h.4⟩⟩

structure Vol.HasEntry (v : Vol) (skip : Set Place) (dir off : ℕ) (slot : Mem) : Prop where
  aligned : off % 32 = 0
  counts : Place.slot dir off ∉ skip
  read : v.dirRead dir off = some slot
  entry : IsEntry slot

/-- The directories that can be reached, and the place of each. -/
inductive Vol.DirAt (v : Vol) (loose : Option (ℕ × Bool)) (skip : Set Place) : ℕ → Place → Prop
  | root : DirAt v loose skip v.root .root
  | loose {c : ℕ} : loose = some (c, true) → DirAt v loose skip c .loose
  | sub {dir off : ℕ} {p : Place} {slot : Mem} :
      DirAt v loose skip dir p → v.HasEntry skip dir off slot →
      isDirectory (slot 11) = true → DirAt v loose skip (clusterOf slot) (.slot dir off)

/-- The first clusters of the chains that can be reached. -/
inductive Vol.Head (v : Vol) (loose : Option (ℕ × Bool)) (skip : Set Place) : Place → ℕ → Prop
  | root : Head v loose skip .root v.root
  | loose {c : ℕ} {dir : Bool} : loose = some (c, dir) → Head v loose skip .loose c
  | slot {dir off : ℕ} {p : Place} {slot : Mem} :
      v.DirAt loose skip dir p → v.HasEntry skip dir off slot →
      Head v loose skip (.slot dir off) (clusterOf slot)

/-- The chains are chains, share no cluster and are long enough for the sizes. -/
structure Vol.Sound (v : Vol) (loose : Option (ℕ × Bool)) (skip : Set Place)
    (chain : Place → List ℕ) : Prop where
  chains : ∀ p c, v.Head loose skip p c → v.Chain c (chain p)
  apart : ∀ p q c d, v.Head loose skip p c → v.Head loose skip q d → p ≠ q →
    List.Disjoint (chain p) (chain q)
  dirs : ∀ dir p, v.DirAt loose skip dir p → dir ≠ 0
  size : ∀ dir p off slot, v.DirAt loose skip dir p → v.HasEntry skip dir off slot →
    isDirectory (slot 11) = false → sizeOf slot ≤ (chain (.slot dir off)).length * v.bpc

variable {loose loose' : Option (ℕ × Bool)} {skip skip' : Set Place}
  {chain chain' : Place → List ℕ} {dir off : ℕ} {p q : Place} {slot : Mem}

theorem Vol.DirAt.head (h : v.DirAt loose skip dir p) : v.Head loose skip p dir := by
  cases h with
  | root => exact .root
  | loose hloose => exact .loose hloose
  | sub hdir hentry _ => exact .slot hdir hentry

theorem Vol.HasEntry.unique {slot' : Mem} (h : v.HasEntry skip dir off slot)
    (h' : v.HasEntry skip dir off slot') : slot = slot' := by
  have hsame := h.read
  rw [h'.read] at hsame
  exact (some_inj.mp hsame).symm

theorem Vol.Head.unique {d : ℕ} (h : v.Head loose skip p c) (h' : v.Head loose skip p d) :
    c = d := by
  cases h with
  | root => cases h'; rfl
  | loose hloose =>
    cases h' with
    | loose hloose' =>
      rw [hloose] at hloose'
      cases hloose'
      rfl
  | slot hdir hentry =>
    cases h' with
    | slot hdir' hentry' => rw [hentry.unique hentry']

theorem Vol.Sound.place_eq {d : ℕ} (h : v.Sound loose skip chain)
    (hp : v.Head loose skip p c) (hq : v.Head loose skip q d) (hx : x ∈ chain p)
    (hx' : x ∈ chain q) : p = q := by
  by_contra hne
  exact h.apart p q c d hp hq hne hx hx'

theorem Vol.Sound.dir_chain (h : v.Sound loose skip chain) (hdir : v.DirAt loose skip dir p) :
    v.Chain dir (chain p) :=
  h.chains p dir hdir.head

theorem Vol.Sound.dirAt_unique (h : v.Sound loose skip chain) (hp : v.DirAt loose skip dir p)
    (hq : v.DirAt loose skip dir q) : p = q := by
  obtain ⟨rest, hrest⟩ := (h.dir_chain hp).head (h.dirs dir p hp)
  obtain ⟨rest', hrest'⟩ := (h.dir_chain hq).head (h.dirs dir q hq)
  exact h.place_eq hp.head hq.head (hrest ▸ mem_cons_self) (hrest' ▸ mem_cons_self)

theorem Vol.HasEntry.skipped (h : v.HasEntry skip dir off slot)
    (hskip : Place.slot dir off ∉ skip') : v.HasEntry skip' dir off slot :=
  { h with counts := hskip }

/-! ## Changes of the tree -/

/-- The chain of a place, which for a directory can be searched. -/
def Vol.Owns (v : Vol) (loose : Option (ℕ × Bool)) (skip : Set Place) (p : Place) (c : ℕ)
    (dflag : Bool) : Prop :=
  v.Head loose skip p c ∧ (dflag = true → v.DirAt loose skip c p)

theorem Vol.Owns.atLoose {dflag : Bool} (h : loose = some (c, dflag)) :
    v.Owns loose skip .loose c dflag :=
  ⟨.loose h, fun hflag => .loose (hflag ▸ h)⟩

theorem Vol.Owns.atSlot (hdir : v.DirAt loose skip dir p) (hentry : v.HasEntry skip dir off slot) :
    v.Owns loose skip (.slot dir off) (clusterOf slot) (isDirectory (slot 11)) :=
  ⟨.slot hdir hentry, .sub hdir hentry⟩

/-- What can be reached in `v'` could be reached in `v`, at the place that `f` gives. -/
structure Vol.Back (v v' : Vol) (loose loose' : Option (ℕ × Bool)) (skip skip' : Set Place)
    (f : Place → Place) : Prop where
  root : v.DirAt loose skip v'.root (f .root)
  free : ∀ c dflag, loose' = some (c, dflag) → v.Owns loose skip (f .loose) c dflag
  entry : ∀ dir p off slot, v.DirAt loose skip dir p → v'.HasEntry skip' dir off slot →
    v.Owns loose skip (f (.slot dir off)) (clusterOf slot) (isDirectory (slot 11))

theorem Vol.Back.dirAt {f : Place → Place} (h : v.Back v' loose loose' skip skip' f)
    (hdir : v'.DirAt loose' skip' dir p) : v.DirAt loose skip dir (f p) := by
  induction hdir with
  | root => exact h.root
  | loose hloose => exact (h.free _ _ hloose).2 rfl
  | sub _ hentry hflag ih => exact (h.entry _ _ _ _ ih hentry).2 hflag

theorem Vol.Back.head {f : Place → Place} (h : v.Back v' loose loose' skip skip' f)
    (hhead : v'.Head loose' skip' p c) : v.Head loose skip (f p) c := by
  cases hhead with
  | root => exact h.root.head
  | loose hloose => exact (h.free _ _ hloose).1
  | slot hdir hentry => exact (h.entry _ _ _ _ (h.dirAt hdir) hentry).1

/-- Every entry that counts in `v'` counted in `v`. -/
structure Vol.Fewer (v v' : Vol) (loose loose' : Option (ℕ × Bool)) (skip skip' : Set Place) :
    Prop where
  root : v'.root = v.root
  free : ∀ x, loose' = some x → loose = some x
  entry : ∀ dir p off slot, v.DirAt loose skip dir p → v'.HasEntry skip' dir off slot →
    v.HasEntry skip dir off slot

theorem Vol.Fewer.back (h : v.Fewer v' loose loose' skip skip') :
    v.Back v' loose loose' skip skip' id where
  root := h.root ▸ .root
  free _ _ hloose := .atLoose (h.free _ hloose)
  entry dir p off slot hdir hentry := .atSlot hdir (h.entry dir p off slot hdir hentry)

/-- Both volumes have the same entries in the directories that can be reached. -/
structure Vol.SameTree (v v' : Vol) (loose : Option (ℕ × Bool)) (skip : Set Place) : Prop where
  root : v'.root = v.root
  entries : ∀ dir p, v.DirAt loose skip dir p → ∀ off slot,
    v'.HasEntry skip dir off slot ↔ v.HasEntry skip dir off slot
  reads : ∀ dir p, v.DirAt loose skip dir p → ∀ off slot,
    v.dirRead dir off = some slot → v'.dirRead dir off = some slot

section

variable (h : v.SameTree v' loose skip)
include h

theorem Vol.SameTree.fewer : v.Fewer v' loose loose skip skip where
  root := h.root
  free _ hloose := hloose
  entry dir p off slot hdir hentry := (h.entries dir p hdir off slot).mp hentry

theorem Vol.SameTree.back (hdir : v'.DirAt loose skip dir p) : v.DirAt loose skip dir p :=
  h.fewer.back.dirAt hdir

theorem Vol.SameTree.head (hhead : v'.Head loose skip p c) : v.Head loose skip p c :=
  h.fewer.back.head hhead

theorem Vol.SameTree.more : v'.Fewer v loose loose skip skip where
  root := h.root.symm
  free _ hloose := hloose
  entry dir p off slot hdir hentry := (h.entries dir p (h.back hdir) off slot).mpr hentry

theorem Vol.SameTree.forth (hdir : v.DirAt loose skip dir p) : v'.DirAt loose skip dir p :=
  h.more.back.dirAt hdir

theorem Vol.SameTree.entry (hdir : v'.DirAt loose skip dir p)
    (hentry : v'.HasEntry skip dir off slot) : v.HasEntry skip dir off slot :=
  h.fewer.entry dir p off slot (h.back hdir) hentry

end

theorem Vol.SameTree.refl (v : Vol) : v.SameTree v loose skip :=
  ⟨rfl, fun _ _ _ _ _ => .rfl, fun _ _ _ _ _ hread => hread⟩

theorem hasEntry_congr (h : v'.dirRead dir off = v.dirRead dir off) :
    v'.HasEntry skip dir off slot ↔ v.HasEntry skip dir off slot := by
  constructor
  · rintro ⟨haligned, hcounts, hslot, hentry⟩
    exact ⟨haligned, hcounts, h.symm.trans hslot, hentry⟩
  · rintro ⟨haligned, hcounts, hslot, hentry⟩
    exact ⟨haligned, hcounts, h.trans hslot, hentry⟩

theorem sameTree_of_read (hroot : v'.root = v.root)
    (hread : ∀ dir p, v.DirAt loose skip dir p → ∀ off, v'.dirRead dir off = v.dirRead dir off) :
    v.SameTree v' loose skip where
  root := hroot
  entries dir p hdir off _ := hasEntry_congr (hread dir p hdir off)
  reads dir p hdir off _ hslot := (hread dir p hdir off).trans hslot

section

variable (h : v.Sound loose skip chain) (hshape : v.SameShape v')
include h hshape

section

variable (hfat : ∀ p c, v.Head loose skip p c → ∀ x ∈ chain p, v'.fat x = v.fat x)
include hfat

theorem Vol.Sound.transfer {f : Place → Place} (hback : v.Back v' loose loose' skip skip' f)
    (hchain : ∀ p c, v'.Head loose' skip' p c → chain' p = chain (f p))
    (hinj : ∀ p q c d, v'.Head loose' skip' p c → v'.Head loose' skip' q d → f p = f q → p = q)
    (hsize : ∀ dir p off slot, v.DirAt loose skip dir p → v'.HasEntry skip' dir off slot →
      isDirectory (slot 11) = false → sizeOf slot ≤ (chain' (.slot dir off)).length * v.bpc) :
    v'.Sound loose' skip' chain' where
  chains p c hp := by
    rw [hchain p c hp]
    exact (h.chains (f p) c (hback.head hp)).congr hshape (hfat (f p) c (hback.head hp))
  apart p q c d hp hq hne := by
    rw [hchain p c hp, hchain q d hq]
    exact h.apart (f p) (f q) c d (hback.head hp) (hback.head hq)
      fun hsame => hne (hinj p q c d hp hq hsame)
  dirs dir p hdir := h.dirs dir (f p) (hback.dirAt hdir)
  size dir p off slot hdir hentry hfile := by
    rw [hshape.bpc]
    exact hsize dir (f p) off slot (hback.dirAt hdir) hentry hfile

theorem Vol.Sound.fewer (hfewer : v.Fewer v' loose loose' skip skip') :
    v'.Sound loose' skip' chain := by
  apply h.transfer hshape hfat hfewer.back (fun _ _ _ => rfl) fun _ _ _ _ _ _ hsame => hsame
  exact fun dir p off slot hdir hentry =>
    h.size dir p off slot hdir (hfewer.entry dir p off slot hdir hentry)

theorem Vol.Sound.frame (hshaped : v.Shaped)
    (hcontent : ∀ dir p, v.DirAt loose skip dir p → ∀ x ∈ chain p, v'.content x = v.content x) :
    v'.Sound loose skip chain ∧ v.SameTree v' loose skip := by
  have htree : v.SameTree v' loose skip := by
    apply sameTree_of_read hshape.root
    exact fun dir p hdir => (h.dir_chain hdir).dirRead_congr hshaped hshape fun x hx =>
      ⟨hcontent dir p hdir x hx, hfat p dir hdir.head x hx⟩
  exact ⟨h.fewer hshape hfat htree.fewer, htree⟩

end

/-- One chain is replaced by another that shares no cluster with the rest. -/
theorem Vol.Sound.replace (hhead : ∀ q d, v'.Head loose' skip q d → q ≠ p → v.Head loose skip q d)
    (hp : ∀ c, v'.Head loose' skip p c → v'.Chain c nodes)
    (hfat : ∀ q d, v.Head loose skip q d → q ≠ p → ∀ x ∈ chain q, v'.fat x = v.fat x)
    (hapart : ∀ q d, v.Head loose skip q d → q ≠ p → List.Disjoint nodes (chain q))
    (hdirs : ∀ dir p, v'.DirAt loose' skip dir p → dir ≠ 0)
    (hsize : ∀ dir p' off slot, v'.DirAt loose' skip dir p' → v'.HasEntry skip dir off slot →
      isDirectory (slot 11) = false →
      sizeOf slot ≤ (update chain p nodes (.slot dir off)).length * v.bpc) :
    v'.Sound loose' skip (update chain p nodes) where
  chains q c hq := by
    by_cases hhere : q = p
    · subst hhere
      rw [update_self]
      exact hp c hq
    · rw [update_of_ne hhere]
      exact (h.chains q c (hhead q c hq hhere)).congr hshape (hfat q c (hhead q c hq hhere) hhere)
  apart q r c d hq hr hne := by
    by_cases hqp : q = p
    · have hrp : r ≠ p := fun hrp => hne (hqp.trans hrp.symm)
      rw [hqp, update_self, update_of_ne hrp]
      exact hapart r d (hhead r d hr hrp) hrp
    · rw [update_of_ne hqp]
      by_cases hrp : r = p
      · rw [hrp, update_self]
        exact fun x hx hx' => hapart q c (hhead q c hq hqp) hqp hx' hx
      · rw [update_of_ne hrp]
        exact h.apart q r c d (hhead q c hq hqp) (hhead r d hr hrp) hne
  dirs := hdirs
  size dir p' off slot hdir hentry hfile := by
    rw [hshape.bpc]
    exact hsize dir p' off slot hdir hentry hfile

end

/-! ## Leaving places out -/

theorem Vol.Fewer.of_subset (v : Vol) (hsubset : skip ⊆ skip') :
    v.Fewer v loose loose skip skip' where
  root := rfl
  free _ hloose := hloose
  entry _ _ _ _ _ hentry := hentry.skipped fun hin => hentry.counts (hsubset hin)

theorem Vol.Fewer.drop (v : Vol) : v.Fewer v loose none skip skip :=
  ⟨rfl, nofun, fun _ _ _ _ _ hentry => hentry⟩

theorem Vol.Sound.drop (h : v.Sound loose skip chain) : v.Sound none skip chain :=
  h.fewer (.refl v) (fun _ _ _ _ _ => rfl) (.drop v)

/-- A loose chain without directories does not matter for them. -/
theorem Vol.DirAt.plain (h : v.DirAt loose skip dir p) (hplain : ∀ c, loose ≠ some (c, true)) :
    v.DirAt loose' skip dir p := by
  induction h with
  | root => exact .root
  | loose hloose => exact absurd hloose (hplain _)
  | sub _ hentry hflag ih => exact .sub ih hentry hflag

/-! ## Taking a chain loose -/

/-- The place that a chain had before it came to the place `a`. -/
def Place.before (a b p : Place) : Place := if p = a then b else p

theorem update_eq_before (chain : Place → List ℕ) (a b p : Place) :
    update chain a (chain b) p = chain (Place.before a b p) := by
  rw [Place.before, Function.update_apply]
  split_ifs <;> rfl

theorem Place.before_inj {a b : Place} (hp : p ≠ b) (hq : q ≠ b)
    (hsame : Place.before a b p = Place.before a b q) : p = q := by
  rw [Place.before, Place.before] at hsame
  split_ifs at hsame with hp' hq' hq'
  · rw [hp', hq']
  · exact absurd hsame.symm hq
  · exact absurd hsame hp
  · exact hsame

theorem update_loose_slot (chain : Place → List ℕ) (nodes : List ℕ) (dir off : ℕ) :
    update chain .loose nodes (.slot dir off) = chain (.slot dir off) := by
  have hne : Place.slot dir off ≠ .loose := nofun
  exact update_of_ne hne nodes chain

section

variable (hentry₀ : v.HasEntry ∅ dir₀ off₀ slot)
include hentry₀

theorem Vol.Back.detach (hdir₀ : v.DirAt none ∅ dir₀ p₀) :
    v.Back v none (some (clusterOf slot, isDirectory (slot 11))) ∅ {.slot dir₀ off₀}
      (Place.before .loose (.slot dir₀ off₀)) where
  root := .root
  free c dflag hloose := by
    cases hloose
    exact .atSlot hdir₀ hentry₀
  entry _ _ _ _ hdir hentry := .atSlot hdir (hentry.skipped (Set.notMem_empty _))

/-- The entry of a place is out of date from now on, and its chain is loose. -/
theorem Vol.Sound.detach (h : v.Sound none ∅ chain) (hdir₀ : v.DirAt none ∅ dir₀ p₀) :
    v.Sound (some (clusterOf slot, isDirectory (slot 11))) {.slot dir₀ off₀}
      (update chain .loose (chain (.slot dir₀ off₀))) := by
  have hother : ∀ p c, v.Head (some (clusterOf slot, isDirectory (slot 11)))
      {.slot dir₀ off₀} p c → p ≠ .slot dir₀ off₀ := by
    rintro p c hp rfl
    cases hp with
    | slot hdir hentry => exact hentry.counts (Set.mem_singleton _)
  apply h.transfer (.refl v) (fun _ _ _ _ _ => rfl) (.detach hentry₀ hdir₀)
  · exact fun p _ _ => update_eq_before chain .loose _ p
  · exact fun p q c d hp hq => Place.before_inj (hother p c hp) (hother q d hq)
  · intro dir p off slot' hdir hentry hfile
    rw [update_loose_slot]
    exact h.size dir p off slot' hdir (hentry.skipped (Set.notMem_empty _)) hfile

/-- Every directory can still be reached, if need be through the loose chain. -/
theorem Vol.DirAt.detached (h : v.DirAt none ∅ dir p) :
    ∃ q, v.DirAt (some (clusterOf slot, isDirectory (slot 11))) {.slot dir₀ off₀} dir q := by
  induction h with
  | root => exact ⟨_, .root⟩
  | loose hloose => cases hloose
  | sub _ hentry hflag ih =>
    rename_i d' off' q' slot' _
    obtain ⟨q, hq⟩ := ih
    by_cases hown : Place.slot d' off' = .slot dir₀ off₀
    · cases hown
      cases hentry.unique hentry₀
      exact ⟨.loose, .loose (by rw [hflag])⟩
    · exact ⟨_, .sub hq (hentry.skipped (fun hin => hown (Set.mem_singleton_iff.mp hin))) hflag⟩

end

/-! ## Writing a slot -/

def Short (slot : Mem) : Prop := ∀ i, 32 ≤ i → slot i = 0

theorem window_short (m : Mem) (off : ℕ) : Short (window m off) := by
  intro i hi
  exact if_neg (Nat.not_lt_of_le hi)

theorem window_splice_self (m : Mem) (off : ℕ) (hshort : Short slot) :
    window (splice m off slot) off = slot := by
  funext i
  rw [window]
  split_ifs with hi
  · rw [splice, if_pos ⟨Nat.le_add_right off i, Nat.add_lt_add_left hi off⟩, Nat.add_sub_cancel_left]
  · rw [hshort i (Nat.le_of_not_lt hi)]

theorem window_splice_other (m : Mem) {off' : ℕ} (h : off' + 32 ≤ off ∨ off + 32 ≤ off') :
    window (splice m off slot) off' = window m off' := by
  funext i
  rw [window, window]
  split_ifs with hi
  · rw [splice, if_neg]
    omega
  · rfl

theorem putSlot_chain (h : v.Chain c nodes) (cl off : ℕ) (slot : Mem) :
    (v.putSlot cl off slot).Chain c nodes :=
  h.congr ⟨rfl, rfl, rfl⟩ fun _ _ => rfl

theorem putSlot_content_self (v : Vol) (cl off : ℕ) (slot : Mem) :
    (v.putSlot cl off slot).content cl = splice (v.content cl) off slot :=
  update_self cl _ v.content

theorem putSlot_content_other (hx : x ≠ cl) (off : ℕ) (slot : Mem) :
    (v.putSlot cl off slot).content x = v.content x :=
  update_of_ne hx _ v.content

/-- A slot of a directory is written. -/
structure Vol.Writes (v : Vol) (chain : Place → List ℕ) (p₀ : Place) (off₀ cl : ℕ) (slot : Mem)
    (v' : Vol) : Prop where
  eq : v' = v.putSlot cl (off₀ % v.bpc) slot
  cluster : (chain p₀)[off₀ / v.bpc]? = some cl
  aligned : off₀ % 32 = 0
  short : Short slot

variable {dir₀ off₀ : ℕ} {p₀ : Place}

section

variable (hw : v.Writes chain p₀ off₀ cl slot v')
include hw

theorem Vol.Writes.sameShape : v.SameShape v' := by
  rw [hw.eq]
  exact ⟨rfl, rfl, rfl⟩

/-- The slot that was written is read back, and all others are as before. -/
theorem Vol.Writes.read (hshaped : v.Shaped) (h : v.Sound loose skip chain)
    (hdir₀ : v.DirAt loose skip dir₀ p₀) (hdir : v.DirAt loose skip dir p)
    (haligned : off % 32 = 0) :
    v'.dirRead dir off =
      if dir = dir₀ ∧ off = off₀ then some slot else v.dirRead dir off := by
  have hchain := h.dir_chain hdir
  have hshaped' := hw.sameShape.shaped hshaped
  have hchain' : v'.Chain dir (chain p) := by
    rw [hw.eq]
    exact putSlot_chain hchain _ _ _
  rw [hchain'.dirRead hshaped', hchain.dirRead hshaped, hw.sameShape.bpc]
  have hmem₀ : cl ∈ chain p₀ := mem_of_getElem? hw.cluster
  cases hnode : (chain p)[off / v.bpc]? with
  | none =>
    rw [if_neg]
    · rfl
    · rintro ⟨rfl, rfl⟩
      rw [h.dirAt_unique hdir hdir₀, hw.cluster] at hnode
      cases hnode
  | some node =>
    rw [map_some, map_some]
    by_cases hcl : node = cl
    · -- The same cluster is the same index of the same chain.
      have hmem : cl ∈ chain p := hcl ▸ mem_of_getElem? hnode
      have hplace : p = p₀ := h.place_eq hdir.head hdir₀.head hmem hmem₀
      subst hplace
      have hdirs : dir = dir₀ := hdir.head.unique hdir₀.head
      have hindex : off / v.bpc = off₀ / v.bpc := by
        obtain ⟨hlt, hget⟩ := List.getElem?_eq_some_iff.mp hnode
        obtain ⟨hlt₀, hget₀⟩ := List.getElem?_eq_some_iff.mp hw.cluster
        exact (List.Nodup.getElem_inj_iff hchain.nodup).mp (hget.trans (hcl.trans hget₀.symm))
      rw [hw.eq, hcl, putSlot_content_self]
      by_cases hoff : off = off₀
      · rw [if_pos ⟨hdirs, hoff⟩, hoff, window_splice_self _ _ hw.short]
      · rw [if_neg fun hboth => hoff hboth.2, window_splice_other]
        have hdiv := Nat.div_add_mod off v.bpc
        have hdiv₀ := Nat.div_add_mod off₀ v.bpc
        rw [hindex] at hdiv
        have hne : off % v.bpc ≠ off₀ % v.bpc := by
          intro hsame
          rw [hsame] at hdiv
          exact hoff (hdiv.symm.trans hdiv₀)
        have hmod : off % v.bpc % 32 = 0 := by
          rw [Nat.mod_mod_of_dvd off (Nat.dvd_of_mod_eq_zero hshaped.slots), haligned]
        have hmod₀ : off₀ % v.bpc % 32 = 0 := by
          rw [Nat.mod_mod_of_dvd off₀ (Nat.dvd_of_mod_eq_zero hshaped.slots), hw.aligned]
        omega
    · rw [if_neg, hw.eq, putSlot_content_other hcl]
      rintro ⟨rfl, rfl⟩
      rw [h.dirAt_unique hdir hdir₀, hw.cluster] at hnode
      exact hcl (some_inj.mp hnode).symm

/-- A slot that is no entry takes the place of one that was left out. -/
theorem Vol.Writes.kill (hshaped : v.Shaped)
    (h : v.Sound loose (insert (.slot dir₀ off₀) skip) chain)
    (hdir₀ : v.DirAt loose (insert (.slot dir₀ off₀) skip) dir₀ p₀) (hslot : ¬ IsEntry slot) :
    v'.Sound loose skip chain ∧
      ∀ dir p, v.DirAt loose (insert (.slot dir₀ off₀) skip) dir p ↔ v'.DirAt loose skip dir p := by
  have hentry : ∀ dir p, v.DirAt loose (insert (.slot dir₀ off₀) skip) dir p → ∀ off slot',
      v.HasEntry (insert (.slot dir₀ off₀) skip) dir off slot' ↔
        v'.HasEntry skip dir off slot' := by
    intro dir p hdir off slot'
    constructor
    · rintro ⟨haligned, hcounts, hread, hvalid⟩
      refine ⟨haligned, fun hin => hcounts (Set.mem_insert_of_mem _ hin), ?_, hvalid⟩
      rw [hw.read hshaped h hdir₀ hdir haligned, if_neg, hread]
      rintro ⟨rfl, rfl⟩
      exact hcounts (Set.mem_insert _ _)
    · rintro ⟨haligned, hcounts, hread, hvalid⟩
      rw [hw.read hshaped h hdir₀ hdir haligned] at hread
      split_ifs at hread with hhere
      · rw [← some_inj.mp hread] at hvalid
        exact absurd hvalid hslot
      · refine ⟨haligned, fun hin => hin.elim (fun hsame => ?_) hcounts, hread, hvalid⟩
        cases hsame
        exact hhere ⟨rfl, rfl⟩
  have hfewer : v.Fewer v' loose loose (insert (.slot dir₀ off₀) skip) skip :=
    ⟨hw.sameShape.root, fun _ hloose => hloose,
      fun dir p off slot' hdir => (hentry dir p hdir off slot').mpr⟩
  have hmore : v'.Fewer v loose loose skip (insert (.slot dir₀ off₀) skip) :=
    ⟨hw.sameShape.root.symm, fun _ hloose => hloose,
      fun dir p off slot' hdir => (hentry dir p (hfewer.back.dirAt hdir) off slot').mp⟩
  refine ⟨h.fewer hw.sameShape (fun p c _ x _ => ?_) hfewer,
    fun dir p => ⟨hmore.back.dirAt, hfewer.back.dirAt⟩⟩
  rw [hw.eq]
  rfl

end

theorem Vol.Writes.attach {dflag : Bool} (hw : v.Writes chain p₀ off₀ cl slot v')
    (hshaped : v.Shaped) (h : v.Sound (some (c, dflag)) {.slot dir₀ off₀} chain)
    (hdir₀ : v.DirAt (some (c, dflag)) {.slot dir₀ off₀} dir₀ p₀)
    (hcluster : clusterOf slot = c) (hflag : isDirectory (slot 11) = dflag)
    (hsize : dflag = false → sizeOf slot ≤ (chain .loose).length * v.bpc) :
    v'.Sound none ∅ (update chain (.slot dir₀ off₀) (chain .loose)) := by
  -- What is read in the new volume, in the directories of the old one.
  have hread : ∀ dir p, v.DirAt (some (c, dflag)) {.slot dir₀ off₀} dir p → ∀ off slot',
      v'.HasEntry ∅ dir off slot' → (dir = dir₀ ∧ off = off₀ ∧ slot' = slot) ∨
          v.HasEntry {.slot dir₀ off₀} dir off slot' := by
    rintro dir p hdir off slot' ⟨haligned, -, hread, hvalid⟩
    rw [hw.read hshaped h hdir₀ hdir haligned] at hread
    split_ifs at hread with hhere
    · exact .inl ⟨hhere.1, hhere.2, (some_inj.mp hread).symm⟩
    · refine .inr ⟨haligned, fun hin => ?_, hread, hvalid⟩
      cases Set.mem_singleton_iff.mp hin
      exact hhere ⟨rfl, rfl⟩
  have hplace : ∀ {dir off slot'}, v.HasEntry {.slot dir₀ off₀} dir off slot' →
      Place.before (.slot dir₀ off₀) .loose (.slot dir off) = .slot dir off :=
    fun hold => if_neg fun hsame => hold.counts (Set.mem_singleton_iff.mpr hsame)
  have hback : v.Back v' (some (c, dflag)) none {.slot dir₀ off₀} ∅
      (Place.before (.slot dir₀ off₀) .loose) := by
    refine ⟨hw.sameShape.root ▸ .root, nofun, fun dir p off slot' hdir hentry => ?_⟩
    rcases hread dir p hdir off slot' hentry with ⟨rfl, rfl, rfl⟩ | hold
    · rw [Place.before, if_pos rfl, hcluster, hflag]
      exact .atLoose rfl
    · rw [hplace hold]
      exact .atSlot hdir hold
  have hother : ∀ p c', v'.Head none ∅ p c' → p ≠ .loose := by
    rintro p c' hp rfl
    cases hp with
    | loose hloose => cases hloose
  apply h.transfer hw.sameShape (fun p c' _ x _ => hw.eq ▸ rfl) hback
    (fun p _ _ => update_eq_before chain _ .loose p)
  · exact fun p q c' d hp hq => Place.before_inj (hother p c' hp) (hother q d hq)
  · intro dir p off slot' hdir hentry hfile
    rw [update_eq_before]
    rcases hread dir p hdir off slot' hentry with ⟨rfl, rfl, rfl⟩ | hold
    · rw [Place.before, if_pos rfl]
      exact hsize (hflag.symm.trans hfile)
    · rw [hplace hold]
      exact h.size dir p off slot' hdir hold hfile

end AuraLite.FatFs

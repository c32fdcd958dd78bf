import AuraLite.Fs.FatOwners

/-!
# Chains that grow and shrink

What the allocator, `ensure_chain`, `truncate_chain` and `free_chain` do to the chains of a
volume: a chain is extended by clusters that were free, shortened, or given up, and all the
others stay.
-/

namespace AuraLite.FatFs

open List ByteMemory ClusterChain
open Function (update update_self update_of_ne)

variable {v v' : Vol} {c cl link : ℕ} {nodes : List ℕ} {loose : Option (ℕ × Bool)}
  {skip : Set Place} {chain : Place → List ℕ} {dir off : ℕ} {p q : Place} {slot : Mem}

/-! ## The allocator -/

/-- The cursor of a vnode is a cluster of this chain. -/
def Vinfo.PointsInto (x : Vinfo) (nodes : List ℕ) : Prop :=
  x.hintCluster = 0 ∨ nodes[x.hintIdx]? = some x.hintCluster

/-- The allocator forgets cursors, and makes none. -/
def Vol.KeepsCursors (v v' : Vol) : Prop :=
  ∀ (i : ℕ) (x : Vinfo) (nodes : List ℕ), v.pool[i]? = some x → x.PointsInto nodes →
    ∃ x', v'.pool[i]? = some x' ∧ x'.PointsInto nodes

/-- A free cluster has been taken and linked. -/
structure Vol.Allocated (v : Vol) (cl link : ℕ) (v' : Vol) : Prop where
  range : v.InRange cl
  free : v.fat cl = 0
  shape : v.SameShape v'
  fat_new : v'.fat cl = eoc
  fat_link : link ≠ 0 → v'.fat link = cl
  fat_other : ∀ x, x ≠ cl → link = 0 ∨ x ≠ link → v'.fat x = v.fat x
  content_new : v'.content cl = zeroCluster
  content_other : ∀ x, x ≠ cl → v'.content x = v.content x
  cursors : v.KeepsCursors v'

open Vol

theorem Vol.KeepsCursors.refl (v : Vol) : v.KeepsCursors v :=
  fun _ x _ hx hpoints => ⟨x, hx, hpoints⟩

theorem Vol.KeepsCursors.trans {v'' : Vol} (h : v.KeepsCursors v') (h' : v'.KeepsCursors v'') :
    v.KeepsCursors v'' := by
  intro i x nodes hx hpoints
  obtain ⟨x', hx', hpoints'⟩ := h i x nodes hx hpoints
  exact h' i x' nodes hx' hpoints'

theorem fatSet_of_range (hcl : v.InRange cl) (value : ℕ) : v.fatSet cl value = { v with
      fat := update v.fat cl (value % 2 ^ 28)
      pool := v.pool.map Vinfo.clearHint } :=
  if_pos hcl

theorem fatSet_self (hcl : v.InRange cl) {value : ℕ} (hvalue : value < 2 ^ 28) :
    (v.fatSet cl value).fat cl = value := by
  have hfat : (v.fatSet cl value).fat = update v.fat cl (value % 2 ^ 28) := by
    rw [fatSet_of_range hcl]
  rw [hfat, update_self, Nat.mod_eq_of_lt hvalue]

theorem fatSet_other {x : ℕ} (hx : x ≠ cl) (value : ℕ) : (v.fatSet cl value).fat x = v.fat x := by
  rw [fatSet]
  split_ifs
  · exact update_of_ne hx _ v.fat
  · rfl

theorem fatSet_shape (v : Vol) (cl value : ℕ) : v.SameShape (v.fatSet cl value) := by
  rw [fatSet]
  split_ifs <;> exact ⟨rfl, rfl, rfl⟩

theorem Vol.Shaped.lt (h : v.Shaped) (hcl : v.InRange cl) : cl < 2 ^ 28 :=
  Nat.lt_of_lt_of_le hcl.2 (Nat.le_trans h.count (by decide))

theorem Vol.Allocated.not_mem (h : v.Allocated cl link v') (hchain : v.Chain c nodes) :
    cl ∉ nodes := fun hmem => hchain.fat_ne_zero hmem h.free

theorem Vol.Allocated.single (h : v.Allocated cl 0 v') : v'.Chain cl [cl] := by
  refine ⟨nodup_singleton cl, fun x hx => ?_, eoc, ⟨rfl, h.fat_new⟩, nofun, fun _ => by decide⟩
  rw [mem_singleton.mp hx, h.shape.inRange]
  exact h.range

theorem Vol.Chain.head_lt (h : v.Chain c nodes) (hshaped : v.Shaped) : c < 2 ^ 32 := by
  by_cases hzero : c = 0
  · rw [hzero]
    decide
  · obtain ⟨rest, hrest⟩ := h.head hzero
    exact Nat.lt_trans (hshaped.lt (h.range c (hrest ▸ mem_cons_self))) (by decide)

/-! ## Chains that are reworked -/

/-- The chain `own` has become another one that starts at `head`; no other cluster that is in
use has changed. -/
structure Vol.Reworked (v v' : Vol) (own : List ℕ) (head : ℕ) (nodes : List ℕ) : Prop where
  shape : v.SameShape v'
  keeps : ∀ x, v.fat x ≠ 0 → x ∉ own → v'.content x = v.content x ∧ v'.fat x = v.fat x
  fresh : ∀ x ∈ nodes, v.fat x = 0 ∨ x ∈ own
  chain : v'.Chain head nodes

variable {own more more' : List ℕ} {head head' first k : ℕ} {v'' : Vol}

theorem Vol.Reworked.refl (h : v.Chain c nodes) : v.Reworked v nodes c nodes :=
  ⟨.refl v, fun _ _ _ => ⟨rfl, rfl⟩, fun _ hx => .inr hx, h⟩

theorem Vol.Reworked.trans {nodes' : List ℕ} (h : v.Reworked v' own head nodes)
    (h' : v'.Reworked v'' nodes head' nodes') : v.Reworked v'' own head' nodes' where
  shape := h.shape.trans h'.shape
  keeps x hx hout := by
    obtain ⟨hcontent, hfat⟩ := h.keeps x hx hout
    have hout' : x ∉ nodes := fun hin => (h.fresh x hin).elim hx hout
    obtain ⟨hcontent', hfat'⟩ := h'.keeps x (hfat ▸ hx) hout'
    exact ⟨hcontent'.trans hcontent, hfat'.trans hfat⟩
  fresh x hx := by
    rcases h'.fresh x hx with hfree | hin
    · by_cases hown : x ∈ own
      · exact .inr hown
      · left
        by_contra hused
        exact hused ((h.keeps x hused hown).2.symm.trans hfree)
    · exact h.fresh x hin
  chain := h'.chain

theorem Vol.Reworked.apart (hwork : v.Reworked v' (chain p) head nodes)
    (h : v.Sound loose skip chain) (hp : v.Head loose skip p c) {d : ℕ}
    (hq : v.Head loose skip q d) (hne : q ≠ p) :
    ∀ x ∈ chain q, v'.content x = v.content x ∧ v'.fat x = v.fat x := fun x hx =>
  hwork.keeps x ((h.chains q d hq).fat_ne_zero hx) fun hin => hne (h.place_eq hq hp hx hin)

/-- The chain has got more clusters, which are full of zeros. -/
structure Vol.Extended (v v' : Vol) (head : ℕ) (nodes more : List ℕ) : Prop
    extends v.Reworked v' nodes head (nodes ++ more) where
  same : ∀ x ∈ nodes, v'.content x = v.content x
  zero : ∀ x ∈ more, v'.content x = zeroCluster
  cursors : v.KeepsCursors v'

theorem Vol.Extended.refl (h : v.Chain c nodes) : v.Extended v c nodes [] where
  toReworked := by
    rw [append_nil]
    exact .refl h
  same _ _ := rfl
  zero _ hx := (not_mem_nil hx).elim
  cursors := .refl v

theorem Vol.Extended.trans (h : v.Extended v' head nodes more)
    (h' : v'.Extended v'' head' (nodes ++ more) more') :
    v.Extended v'' head' nodes (more ++ more') where
  toReworked := by
    rw [← append_assoc]
    exact h.toReworked.trans h'.toReworked
  same x hx := (h'.same x (mem_append_left _ hx)).trans (h.same x hx)
  zero x hx := by
    rcases mem_append.mp hx with hold | hnew
    · exact (h'.same x (mem_append_right _ hold)).trans (h.zero x hold)
    · exact h'.zero x hnew
  cursors := h.cursors.trans h'.cursors

theorem Vol.Allocated.extended (h : v.Allocated cl link v') (hold : v.Chain c nodes)
    (hlink : link = 0 ∨ link ∈ nodes) (hnew : v'.Chain head (nodes ++ [cl])) : v.Extended v' head nodes [cl] where
  shape := h.shape
  keeps x hx hout := by
    have hne : x ≠ cl := by
      rintro rfl
      exact hx h.free
    refine ⟨h.content_other x hne, h.fat_other x hne (hlink.imp_right fun hin => ?_)⟩
    rintro rfl
    exact hout hin
  fresh x hx := by
    rcases mem_append.mp hx with hin | htaken
    · exact .inr hin
    · exact .inl (mem_singleton.mp htaken ▸ h.free)
  chain := hnew
  same x hx := by
    apply h.content_other
    rintro rfl
    exact h.not_mem hold hx
  zero x hx := mem_singleton.mp hx ▸ h.content_new
  cursors := h.cursors

/-! ## `ensure_chain` -/

theorem Vol.Chain.next (h : v.Chain c nodes) (hk : nodes[k]? = some cl) :
    (∃ next, nodes[k + 1]? = some next ∧ v.fat cl = next) ∨
      (nodes.length = k + 1 ∧ bad ≤ v.fat cl) := by
  obtain ⟨stop, hpath, -, hbad⟩ := h.path
  obtain ⟨hlater, hdrop⟩ := hpath.at hk
  rw [hdrop] at hlater
  cases hrest : nodes.drop (k + 1) with
  | nil =>
    right
    rw [hrest] at hlater
    have hstop : v.fat cl = stop := hlater.2
    refine ⟨Nat.le_antisymm (drop_eq_nil_iff.mp hrest) (List.getElem?_eq_some_iff.mp hk).1, ?_⟩
    rw [hstop]
    exact hbad (ne_nil_of_mem (mem_of_getElem? hk))
  | cons next rest =>
    left
    rw [hrest] at hlater
    refine ⟨next, ?_, hlater.2.1⟩
    have hhead : (nodes.drop (k + 1))[0]? = some next := by rw [hrest]; rfl
    rwa [getElem?_drop, Nat.add_zero] at hhead

section

variable (h : v.Chain c nodes)
include h

theorem Vol.Chain.cut (hk : nodes[k]? = some cl) :
    (v.fatSet cl eoc).Chain c (nodes.take (k + 1)) := by
  have hmem := mem_of_getElem? hk
  obtain ⟨hlt, hget⟩ := List.getElem?_eq_some_iff.mp hk
  have hsplit : nodes.take (k + 1) = nodes.take k ++ [cl] := by
    rw [take_add_one, hk]
    rfl
  obtain ⟨stop, hpath, -⟩ := h.path
  have hnodup : (nodes.take k ++ [cl]).Nodup := hsplit ▸ h.nodup.sublist (take_sublist _ _)
  rw [← take_append_drop (k + 1) nodes, hsplit] at hpath
  obtain ⟨m, hfirst, -⟩ := hpath.split
  rw [hsplit]
  refine ⟨hnodup, fun x hx => ?_, eoc, ?_, fun hnil => ?_, fun _ => by decide⟩
  · rw [(fatSet_shape v cl eoc).inRange]
    exact h.range x (mem_of_mem_take (hsplit ▸ hx))
  · apply hfirst.relink
    · intro x hx
      apply fatSet_other
      rintro rfl
      exact (nodup_append.mp hnodup).2.2 x hx x (mem_singleton.mpr rfl) rfl
    · exact fatSet_self (h.range cl hmem) (by decide)
  · exact absurd hnil (append_ne_nil_of_right_ne_nil _ (cons_ne_nil cl []))

theorem Vol.Chain.tail (hk : nodes[k]? = some cl) (hmore : k + 1 < nodes.length) :
    (v.fatSet cl eoc).Chain (v.fat cl) (nodes.drop (k + 1)) := by
  obtain ⟨stop, hpath, -, hbad⟩ := h.path
  obtain ⟨hlater, hdrop⟩ := hpath.at hk
  rw [hdrop] at hlater
  have hnodup := h.nodup.sublist (drop_sublist k nodes)
  rw [hdrop, nodup_cons] at hnodup
  refine ⟨hnodup.2, fun x hx => ?_, stop, ?_, fun hnil => ?_, fun _ => ?_⟩
  · rw [(fatSet_shape v cl eoc).inRange]
    exact h.range x (mem_of_mem_drop hx)
  · apply hlater.2.congr
    intro x hx
    apply fatSet_other
    rintro rfl
    exact hnodup.1 hx
  · exact absurd (drop_eq_nil_iff.mp hnil) (Nat.not_le_of_lt hmore)
  · exact hbad (ne_nil_of_mem (mem_of_getElem? hk))

end

theorem not_entry_zero (off : ℕ) : ¬ IsEntry (window zeroCluster off) :=
  fun hentry => hentry.used rfl

/-- The chain of one place has grown, and nothing else has changed. -/
structure Vol.Grown (v v' : Vol) (loose : Option (ℕ × Bool)) (skip : Set Place)
    (chain : Place → List ℕ) (p : Place) (chain' : Place → List ℕ) : Prop where
  sound : v'.Sound loose skip chain'
  shape : v.SameShape v'
  tree : v.SameTree v' loose skip
  others : ∀ q, q ≠ p → chain' q = chain q

theorem Vol.Grown.refl (h : v.Sound loose skip chain) (p : Place) :
    v.Grown v loose skip chain p chain :=
  ⟨h, .refl v, .refl v, fun _ _ => rfl⟩

theorem Vol.Sound.extended (hshaped : v.Shaped) (h : v.Sound loose skip chain)
    (hp : v.Head loose skip p c) (hext : v.Extended v' c (chain p) more) :
    v.Grown v' loose skip chain p (update chain p (chain p ++ more)) := by
  -- A directory reads as before, but for zeros in a new cluster.
  have hread : ∀ dir q, v.DirAt loose skip dir q → ∀ off, v'.dirRead dir off = v.dirRead dir off ∨
        (v.dirRead dir off = none ∧
          v'.dirRead dir off = some (window zeroCluster (off % v.bpc))) := by
    intro dir q hdir off
    have hold := h.dir_chain hdir
    by_cases hq : q = p
    · subst hq
      cases hdir.head.unique hp
      rw [hext.chain.dirRead (hext.shape.shaped hshaped), hold.dirRead hshaped, hext.shape.bpc]
      rcases Nat.lt_or_ge (off / v.bpc) (chain q).length with hlt | hge
      · left
        rw [getElem?_append_left hlt, getElem?_eq_getElem hlt, Option.map_some, Option.map_some,
          hext.same _ (getElem_mem hlt)]
      · rw [getElem?_append_right hge, getElem?_eq_none hge]
        cases hnode : more[off / v.bpc - (chain q).length]? with
        | none => exact .inl rfl
        | some node =>
          right
          rw [Option.map_some, hext.zero node (mem_of_getElem? hnode)]
          exact ⟨rfl, rfl⟩
    · exact .inl (hold.dirRead_congr hshaped hext.shape (hext.apart h hp hdir.head hq) off)
  have htree : v.SameTree v' loose skip := by
    refine ⟨hext.shape.root, fun dir q hdir off slot => ?_, fun dir q hdir off slot hslot => ?_⟩
    · rcases hread dir q hdir off with hsame | ⟨hnone, hzero⟩
      · exact hasEntry_congr hsame
      · constructor
        · rintro ⟨-, -, hslot, hentry⟩
          rw [hzero] at hslot
          rw [← Option.some_inj.mp hslot] at hentry
          exact absurd hentry (not_entry_zero _)
        · rintro ⟨-, -, hslot, -⟩
          rw [hnone] at hslot
          cases hslot
    · rcases hread dir q hdir off with hsame | ⟨hnone, -⟩
      · exact hsame.trans hslot
      · rw [hnone] at hslot
        cases hslot
  refine ⟨h.replace hext.shape ?_ ?_ ?_ ?_ ?_ ?_, hext.shape, htree,
    fun q hq => update_of_ne hq _ chain⟩
  · exact fun q d hq _ => htree.head hq
  · intro d hd
    cases (htree.head hd).unique hp
    exact hext.chain
  · exact fun q d hq hne x hx => (hext.apart h hp hq hne x hx).2
  · intro q d hq hne x hx hx'
    rcases hext.fresh x hx with hfree | hin
    · exact (h.chains q d hq).fat_ne_zero hx' hfree
    · exact hne (h.place_eq hq hp hx' hin)
  · exact fun dir q hdir => h.dirs dir q (htree.back hdir)
  · intro dir q off slot hdir hentry hfile
    have hold := h.size dir q off slot (htree.back hdir) (htree.entry hdir hentry) hfile
    by_cases hhere : .slot dir off = p
    · rw [hhere, update_self, length_append, Nat.add_mul]
      rw [hhere] at hold
      exact Nat.le_add_right_of_le hold
    · rw [update_of_ne hhere]
      exact hold

theorem dirAt_file {a b : ℕ} (h : v.DirAt (some (a, false)) skip dir p) :
    v.DirAt (some (b, false)) skip dir p :=
  h.plain nofun

/-- A directory has another place only if its chain is loose. -/
theorem Vol.DirAt.ne_loose (h : v.DirAt (some (c, false)) skip dir p) : p ≠ .loose := by
  rintro rfl
  cases h with
  | loose hloose => cases hloose

theorem Vol.Sound.reworked (hshaped : v.Shaped) (h : v.Sound (some (first, false)) skip chain)
    (hwork : v.Reworked v' (chain .loose) head nodes) :
    v'.Sound (some (head, false)) skip (update chain .loose nodes) ∧
      v.SameTree v' (some (first, false)) skip := by
  have hloose : v.Head (some (first, false)) skip .loose first := .loose rfl
  have htree : v.SameTree v' (some (first, false)) skip := by
    apply sameTree_of_read hwork.shape.root
    exact fun dir q hdir => (h.dir_chain hdir).dirRead_congr hshaped hwork.shape
      (hwork.apart h hloose hdir.head hdir.ne_loose)
  refine ⟨h.replace hwork.shape ?_ ?_ ?_ ?_ ?_ ?_, htree⟩
  · intro q d hq hne
    cases hq with
    | root => exact hwork.shape.root ▸ .root
    | loose _ => exact absurd rfl hne
    | slot hdir hentry =>
      have hback := htree.back (dirAt_file hdir)
      exact .slot hback ((htree.entries _ _ hback _ _).mp hentry)
  · intro d hd
    cases hd with
    | loose hhead =>
      cases hhead
      exact hwork.chain
  · exact fun q d hq hne x hx => (hwork.apart h hloose hq hne x hx).2
  · intro q d hq hne x hx hx'
    rcases hwork.fresh x hx with hfree | hin
    · exact (h.chains q d hq).fat_ne_zero hx' hfree
    · exact hne (h.place_eq hq hloose hx' hin)
  · exact fun dir q hdir => h.dirs dir q (htree.back (dirAt_file hdir))
  · intro dir q off slot hdir hentry hfile
    rw [update_loose_slot]
    have hback := htree.back (dirAt_file hdir)
    exact h.size dir q off slot hback ((htree.entries dir q hback off slot).mp hentry) hfile

end AuraLite.FatFs

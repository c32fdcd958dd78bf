import AuraLite.Fs.FatEntries

/-!
# The FAT32 calls that take a path

Finding, making, removing and renaming keep the owners of the chains apart, on paths that
lead through plain entries; the root of the volume can be neither removed nor renamed.
-/

namespace AuraLite.FatFs

open ByteMemory Function

variable {v v' : Vol} {c cl : ℕ} {nodes : List ℕ} {loose : Option (ℕ × Bool)}
  {skip : Set Place} {chain chain' : Place → List ℕ} {dir off dir₀ off₀ : ℕ} {p q p₀ : Place}
  {slot : Mem} {dflag : Bool}

/-- A volume on which every chain has one owner. -/
structure Vol.Consistent (v : Vol) : Prop where
  shaped : v.Shaped
  owners : ∃ chain, v.Sound none ∅ chain

/-! ## Vnodes -/

/-- The volumes differ in their vnodes only. -/
structure Vol.SameDisk (v v' : Vol) : Prop where
  shape : v.SameShape v'
  fat : v'.fat = v.fat
  content : v'.content = v.content

open Vol

theorem Vol.SameDisk.consistent (hsame : v.SameDisk v') (h : v.Consistent) : v'.Consistent := by
  obtain ⟨hshaped, chain, hsound⟩ := h
  obtain ⟨hsound', -⟩ := hsound.frame hsame.shape
    (fun _ _ _ x _ => congrFun hsame.fat x) hshaped fun _ _ _ x _ => congrFun hsame.content x
  exact ⟨hsame.shape.shaped hshaped, chain, hsound'⟩

theorem Vol.Sound.addLoose (h : v.Sound none skip chain) (hchain : v.Chain c nodes)
    (hfresh : ∀ p d, v.Head none skip p d → List.Disjoint nodes (chain p))
    (hnone : dflag = true → c ≠ 0 ∧ ∀ off slot, ¬ v.HasEntry skip c off slot) :
    v.Sound (some (c, dflag)) skip (update chain .loose nodes) := by
  have hdirs : ∀ dir p, v.DirAt (some (c, dflag)) skip dir p →
      dflag = true ∧ dir = c ∨ v.DirAt none skip dir p := by
    intro dir p hdir
    induction hdir with
    | root => exact .inr .root
    | loose hloose =>
      cases hloose
      exact .inl ⟨rfl, rfl⟩
    | sub _ hentry hflag ih =>
      right
      rcases ih with ⟨hloose, rfl⟩ | hdir
      · exact absurd hentry ((hnone hloose).2 _ _)
      · exact .sub hdir hentry hflag
  apply h.replace (.refl v)
  · intro q d hq hne
    cases hq with
    | root => exact .root
    | loose _ => exact absurd rfl hne
    | slot hdir hentry =>
      rcases hdirs _ _ hdir with ⟨hloose, rfl⟩ | hdir
      · exact absurd hentry ((hnone hloose).2 _ _)
      · exact .slot hdir hentry
  · intro d hd
    cases hd with
    | loose hloose =>
      cases hloose
      exact hchain
  · exact fun _ _ _ _ _ _ => rfl
  · exact fun q d hq _ => hfresh q d hq
  · intro dir p hdir
    rcases hdirs dir p hdir with ⟨hloose, rfl⟩ | hdir
    · exact (hnone hloose).1
    · exact h.dirs dir p hdir
  · intro dir p off slot hdir hentry hfile
    rw [update_loose_slot]
    rcases hdirs dir p hdir with ⟨hloose, rfl⟩ | hdir
    · exact absurd hentry ((hnone hloose).2 _ _)
    · exact h.size dir p off slot hdir hentry hfile

variable {path : List Byte}

theorem name83_buildEntry {name : List Byte} {attr : Byte} {first size : ℕ} :
    name83 (buildEntry name attr first size) = (List.range 11).map (name.getD · 32) := by
  apply List.map_congr_left
  intro i hi
  have hi := List.mem_range.mp hi
  rw [buildEntry, setFields_below _ _ _ (Nat.lt_trans hi (by decide))]
  exact if_pos hi

theorem newDirectory_slots (dot dotdot : Mem) (hdot : Short dot) (hdotdot : Short dotdot)
    (haligned : off % 32 = 0) :
    window (splice (splice zeroCluster 0 dot) 32 dotdot) off = dot ∨
      window (splice (splice zeroCluster 0 dot) 32 dotdot) off = dotdot ∨
        window (splice (splice zeroCluster 0 dot) 32 dotdot) off = window zeroCluster off := by
  by_cases hfirst : off = 0
  · subst hfirst
    left
    rw [window_splice_other _ (by omega), window_splice_self _ _ hdot]
  · right
    by_cases hsecond : off = 32
    · subst hsecond
      left
      exact window_splice_self _ _ hdotdot
    · right
      rw [window_splice_other _ (by omega), window_splice_other _ (by omega)]

theorem newDirectory_plain {parent : ℕ} (hcontent : v'.content cl =
    splice (splice zeroCluster 0 (buildEntry (pad 11 [46]) 0x10 cl 0)) 32
      (buildEntry (pad 11 [46, 46]) 0x10 parent 0)) (haligned : off % 32 = 0) :
    ¬ IsEntry (window (v'.content cl) off) := by
  have hdots : ∀ first, isDot (buildEntry (pad 11 [46]) 0x10 first 0) = true ∧
      isDot (buildEntry (pad 11 [46, 46]) 0x10 first 0) = true := by
    intro first
    rw [isDot, isDot, name83_buildEntry, name83_buildEntry]
    decide
  rw [hcontent]
  intro hentry
  rcases newDirectory_slots (buildEntry (pad 11 [46]) 0x10 cl 0)
    (buildEntry (pad 11 [46, 46]) 0x10 parent 0) (buildEntry_short _ _ _ _)
    (buildEntry_short _ _ _ _) haligned with hslot | hslot | hslot
  · rw [hslot] at hentry
    exact Bool.false_ne_true (hentry.dot.symm.trans (hdots cl).1)
  · rw [hslot] at hentry
    exact Bool.false_ne_true (hentry.dot.symm.trans (hdots parent).2)
  · rw [hslot] at hentry
    exact not_entry_zero off hentry

theorem Vol.Sound.emptyDirectory (hshaped : v.Shaped) (h : v.Sound none ∅ chain)
    (hchain : v.Chain cl [cl]) (hfresh : ∀ p c, v.Head none ∅ p c → cl ∉ chain p)
    (hplain : ∀ off, off % 32 = 0 → ¬ IsEntry (window (v.content cl) off)) :
    v.Sound (some (cl, true)) ∅ (Function.update chain .loose [cl]) := by
  have hnone : ∀ off slot, ¬ v.HasEntry ∅ cl off slot := by
    intro off slot hentry
    have hread := hentry.read
    rw [hchain.dirRead hshaped] at hread
    obtain ⟨node, hnode, hslot⟩ := Option.map_eq_some_iff.mp hread
    rw [List.mem_singleton.mp (List.mem_of_getElem? hnode)] at hslot
    apply hplain (off % v.bpc)
    · rw [Nat.mod_mod_of_dvd off (Nat.dvd_of_mod_eq_zero hshaped.slots)]
      exact hentry.aligned
    · rw [hslot]
      exact hentry.entry
  apply h.addLoose hchain
  · intro q d hq x hx
    rw [List.mem_singleton.mp hx]
    exact hfresh q d hq
  · intro _
    exact ⟨Nat.ne_of_gt (Nat.lt_of_lt_of_le (by decide) (hchain.range cl List.mem_cons_self).1),
      hnone⟩

theorem Vol.Allocated.directory (halloc : v.Allocated cl 0 v') (hshaped : v.Shaped)
    (h : v.Sound none ∅ chain) (parent : ℕ) :
    (v'.newDirectory cl parent).Sound (some (cl, true)) ∅ (Function.update chain .loose [cl]) ∧
      v.SameTree (v'.newDirectory cl parent) none ∅ ∧ v.SameShape (v'.newDirectory cl parent) := by
  have hshape : v.SameShape (v'.newDirectory cl parent) := halloc.shape.trans ⟨rfl, rfl, rfl⟩
  have hfresh : ∀ p c, v.Head none ∅ p c → cl ∉ chain p := fun p c hp =>
    halloc.not_mem (h.chains p c hp)
  have hne : ∀ p c, v.Head none ∅ p c → ∀ x ∈ chain p, x ≠ cl := by
    rintro p c hp x hx rfl
    exact hfresh p c hp hx
  have hcontent : ∀ x, x ≠ cl → (v'.newDirectory cl parent).content x = v.content x := by
    intro x hx
    exact (update_of_ne hx _ v'.content).trans (halloc.content_other x hx)
  obtain ⟨hsound, htree⟩ := h.frame hshape
    (fun p c hp x hx => halloc.fat_other x (hne p c hp x hx) (.inl rfl)) hshaped
    (fun dir p hdir x hx => hcontent x (hne p dir hdir.head x hx))
  have hchain : (v'.newDirectory cl parent).Chain cl [cl] :=
    halloc.single.congr ⟨rfl, rfl, rfl⟩ fun _ _ => rfl
  refine ⟨?_, htree, hshape⟩
  apply hsound.emptyDirectory (hshape.shaped hshaped) hchain
  · exact fun p c hp => hfresh p c (htree.head hp)
  · exact fun off haligned => newDirectory_plain (update_self cl _ v'.content) haligned

variable {found : Found}

theorem Vol.Listed.congr (h : v.Listed dir found)
    (hreads : ∀ off slot, v.dirRead dir off = some slot → v'.dirRead dir off = some slot) :
    v'.Listed dir found where
  __ := h
  read := hreads _ _ h.read
  long k hk hk' := by
    obtain ⟨slot, hread, hlong⟩ := h.long k hk hk'
    exact ⟨slot, hreads _ _ hread, hlong⟩

end AuraLite.FatFs

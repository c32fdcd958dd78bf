import AuraLite.Fs.FatCalls
import AuraLite.Lib.Reachability

/-!
# The FAT32 calls on a vnode

Writing and truncating work on the chain that the vnode remembers.  If the vnode agrees with
its entry, the chain is taken loose, worked on and given back to the entry, and no other file
notices.  A vnode that is used after an unlink, or next to another spelling of the same name,
need not agree, and then chains come to be shared.
-/

namespace AuraLite.FatFs

open List Option ByteMemory ClusterChain Reachability
open Function (update update_self update_of_ne)

variable {v v' : Vol} {c cl : ℕ} {nodes : List ℕ} {loose : Option (ℕ × Bool)}
  {skip : Set Place} {chain chain' : Place → List ℕ} {dir off dir₀ off₀ : ℕ} {p q p₀ : Place}
  {slot : Mem} {first head : ℕ}
variable {i pos size : ℕ} {slot' : Mem}

/-! ## Files -/

/-- A file that can be reached. -/
structure Vol.File (v : Vol) (dir off : ℕ) (slot : Mem) : Prop where
  reached : ∃ p, v.DirAt none ∅ dir p
  entry : v.HasEntry ∅ dir off slot
  plain : isDirectory (slot 11) = false

def Vol.fileByte (v : Vol) (slot : Mem) (k : ℕ) : Byte :=
  v.content (v.chainAt (clusterOf slot) (k / v.bpc)) (k % v.bpc)

structure Vol.TouchesOnly (v v' : Vol) (dir₀ off₀ : ℕ) : Prop where
  consistent : v'.Consistent
  others : ∀ dir off slot, v.File dir off slot → Place.slot dir off ≠ .slot dir₀ off₀ →
    v'.File dir off slot ∧ ∀ k < sizeOf slot, v'.fileByte slot k = v.fileByte slot k

open Vol

theorem Vol.TouchesOnly.refl (h : v.Consistent) (dir₀ off₀ : ℕ) : v.TouchesOnly v dir₀ off₀ :=
  ⟨h, fun _ _ _ hfile _ => ⟨hfile, fun _ _ => rfl⟩⟩

section

variable (hw : v.Writes chain p₀ off₀ cl slot v') (hshaped : v.Shaped)
  (h : v.Sound (some (c, false)) {.slot dir₀ off₀} chain)
  (hdir₀ : v.DirAt (some (c, false)) {.slot dir₀ off₀} dir₀ p₀)
include hw hshaped h hdir₀

/-- What was read elsewhere in the directories is still there once a file has its entry. -/
theorem Vol.Writes.entry (hdir : v.DirAt (some (c, false)) {.slot dir₀ off₀} dir p)
    (hentry : v.HasEntry {.slot dir₀ off₀} dir off slot') : v'.HasEntry ∅ dir off slot' := by
  refine ⟨hentry.aligned, Set.notMem_empty _, ?_, hentry.entry⟩
  rw [hw.read hshaped h hdir₀ hdir hentry.aligned, if_neg, hentry.read]
  rintro ⟨rfl, rfl⟩
  exact hentry.counts (Set.mem_singleton _)

theorem Vol.Writes.dirAt (hdir : v.DirAt (some (c, false)) {.slot dir₀ off₀} dir p) :
    v'.DirAt none ∅ dir p := by
  induction hdir with
  | root =>
    rw [← hw.sameShape.root]
    exact .root
  | loose hloose => cases hloose
  | sub hdir hentry hflag ih => exact .sub ih (hw.entry hshaped h hdir₀ hdir hentry) hflag

end

theorem Vol.DirAt.ne_file (h : v.DirAt loose skip dir₀ p₀)
    (hentry : v.HasEntry skip dir off slot') (hplain : isDirectory (slot' 11) = false) :
    p₀ ≠ .slot dir off := by
  rintro rfl
  cases h with
  | sub _ hentry' hflag =>
    rw [hentry.unique hentry', hflag] at hplain
    cases hplain

variable {v'' : Vol}

theorem Vol.File.detach (hfile : v.File dir₀ off₀ slot) (h : v.Sound none ∅ chain) :
    v.Sound (some (clusterOf slot, false)) {.slot dir₀ off₀}
      (update chain .loose (chain (.slot dir₀ off₀))) := by
  obtain ⟨p, hdir⟩ := hfile.reached
  have hloose := h.detach hfile.entry hdir
  rwa [hfile.plain] at hloose

section Session

variable (hshaped : v.Shaped) (h : v.Sound none ∅ chain) (hfile : v.File dir₀ off₀ slot)
  (hwork : v.Reworked v' (chain (.slot dir₀ off₀)) head nodes)

include hshaped h hfile hwork

theorem Vol.Reworked.free :
    v'.Sound (some (head, false)) {.slot dir₀ off₀} (update chain .loose nodes) ∧
      v.SameTree v' (some (clusterOf slot, false)) {.slot dir₀ off₀} := by
  rw [← update_self .loose (chain (.slot dir₀ off₀)) chain] at hwork
  have hloose := (hfile.detach h).reworked hshaped hwork
  rwa [Function.update_idem] at hloose

/-- The file's chain has been reworked and its entry written: all other files are as before. -/
theorem Vol.Reworked.finish (hdir₀ : v'.DirAt (some (head, false)) {.slot dir₀ off₀} dir₀ p₀)
    (hw : v'.Writes (update chain .loose nodes) p₀ off₀ cl slot' v'')
    (hcluster : clusterOf slot' = head) (hplain : isDirectory (slot' 11) = false)
    (hsize : sizeOf slot' ≤ nodes.length * v.bpc) : v.TouchesOnly v'' dir₀ off₀ := by
  obtain ⟨hsound, htree⟩ := hwork.free hshaped h hfile
  have hshaped' := hwork.shape.shaped hshaped
  have hattach := hw.attach hshaped' hsound hdir₀ hcluster hplain
    (fun _ => by rw [hwork.shape.bpc, update_self]; exact hsize)
  refine ⟨⟨hw.sameShape.shaped hshaped', _, hattach⟩, fun dir off other hother hne => ?_⟩
  obtain ⟨⟨p, hdir⟩, hentry, hothers⟩ := hother
  obtain ⟨p', hp'⟩ := hdir.detached hfile.entry
  rw [hfile.plain] at hp'
  have hentry' : v.HasEntry {.slot dir₀ off₀} dir off other :=
    hentry.skipped fun hin => hne (Set.mem_singleton_iff.mp hin)
  have hlater : v'.DirAt (some (head, false)) {.slot dir₀ off₀} dir p' :=
    dirAt_file (htree.forth (dirAt_file hp'))
  have hentry'' : v'.HasEntry {.slot dir₀ off₀} dir off other :=
    (htree.entries dir p' (dirAt_file hp') off other).mpr hentry'
  refine ⟨⟨⟨p', hw.dirAt hshaped' hsound hdir₀ hlater⟩,
    hw.entry hshaped' hsound hdir₀ hlater hentry'', hothers⟩, fun k hk => ?_⟩
  -- The chain of the other file is the same list of clusters all along.
  obtain ⟨q, hq⟩ := hfile.reached
  have hold : v.Chain (clusterOf other) (chain (.slot dir off)) := h.chains _ _ (.slot hdir hentry)
  have hkeeps := hwork.apart h (.slot hq hfile.entry) (.slot hdir hentry) hne
  have hnew : v''.Chain (clusterOf other) (chain (.slot dir off)) := by
    rw [hw.eq]
    exact putSlot_chain (hold.congr hwork.shape fun x hx => (hkeeps x hx).2) _ _ _
  have hbpc : v''.bpc = v.bpc := (hwork.shape.trans hw.sameShape).bpc
  rw [fileByte, fileByte, hbpc, hold.chainAt hshaped,
    hnew.chainAt ((hwork.shape.trans hw.sameShape).shaped hshaped)]
  have hlong := h.size dir p off other hdir hentry hothers
  have hindex : k / v.bpc < (chain (.slot dir off)).length :=
    (Nat.div_lt_iff_lt_mul hshaped.positive).mpr (Nat.lt_of_lt_of_le hk hlong)
  rw [getElem?_eq_getElem hindex, getD_some]
  have hmem : (chain (.slot dir off))[k / v.bpc] ∈ chain (.slot dir off) := getElem_mem hindex
  have hcl : (chain (.slot dir off))[k / v.bpc] ≠ cl := by
    intro hsameCl
    apply hdir₀.ne_file hentry'' hothers
    apply hsound.place_eq hdir₀.head (.slot hlater hentry'') (mem_of_getElem? hw.cluster)
    rw [update_loose_slot, ← hsameCl]
    exact hmem
  rw [hw.eq, putSlot_content_other hcl, (hkeeps _ hmem).1]

end Session

/-! ## Entries of a loose file -/

section

variable (hshaped : v.Shaped) (h : v.Sound loose skip chain) (hdir₀ : v.DirAt loose skip dir₀ p₀)
  (haligned : off₀ % 32 = 0) (hread : v.dirRead dir₀ off₀ = some slot)
include hshaped h hdir₀ haligned hread

theorem updateEntry_writes (first size : ℕ) :
    ∃ cl, v.Writes chain p₀ off₀ cl (setFields slot first size)
      (v.updateEntry dir₀ off₀ first size) := by
  have hupdate : v.updateEntry dir₀ off₀ first size =
      (v.dirWrite dir₀ off₀ (setFields slot first size)).1 := by
    rw [updateEntry, hread]
  rw [hupdate]
  exact (dirWrite_of_read hshaped h hdir₀ haligned (setFields_short (dirRead_short hread) _ _)
    hread).2

end

section Session

variable (hshaped : v.Shaped) (h : v.Sound none ∅ chain) (hfile : v.File dir₀ off₀ slot)
  (hwork : v.Reworked v' (chain (.slot dir₀ off₀)) head nodes)

include hshaped h hfile hwork

theorem Vol.Reworked.entry :
    ∃ p₀, v'.DirAt (some (head, false)) {.slot dir₀ off₀} dir₀ p₀ ∧
      v'.dirRead dir₀ off₀ = some slot := by
  obtain ⟨-, htree⟩ := hwork.free hshaped h hfile
  obtain ⟨p, hdir⟩ := hfile.reached
  obtain ⟨p₀, hp₀⟩ := hdir.detached hfile.entry
  rw [hfile.plain] at hp₀
  exact ⟨p₀, dirAt_file (htree.forth hp₀), htree.reads dir₀ p₀ hp₀ off₀ slot hfile.entry.read⟩

theorem Vol.Reworked.update (hsize32 : size < 2 ^ 32) (hsize : size ≤ nodes.length * v.bpc) :
    v.TouchesOnly (v'.updateEntry dir₀ off₀ head size) dir₀ off₀ := by
  obtain ⟨p₀, hp₀, hread⟩ := hwork.entry hshaped h hfile
  obtain ⟨cl, hwrites⟩ := updateEntry_writes (hwork.shape.shaped hshaped)
    (hwork.free hshaped h hfile).1 hp₀ hfile.entry.aligned hread head size
  have hhead : head < 2 ^ 32 := hwork.chain.head_lt (hwork.shape.shaped hshaped)
  apply hwork.finish hshaped h hfile hp₀ hwrites (clusterOf_setFields slot hhead size)
  · rw [setFields_below _ _ _ (by decide)]
    exact hfile.plain
  · rw [sizeOf_setFields _ _ hsize32]
    exact hsize

omit hwork

end Session

/-! ## Writing into a chain -/

/-- Only bytes in these clusters have changed. -/
structure Vol.WritesInto (v v' : Vol) (nodes : List ℕ) : Prop where
  shape : v.SameShape v'
  fat : v'.fat = v.fat
  content : ∀ x, x ∉ nodes → v'.content x = v.content x

theorem Vol.WritesInto.trans (h : v.WritesInto v' nodes)
    (h' : v'.WritesInto v'' nodes) : v.WritesInto v'' nodes :=
  ⟨h.shape.trans h'.shape, h'.fat.trans h.fat, fun x hx => (h'.content x hx).trans (h.content x hx)⟩

/-- What a vnode remembers is what the entry of its file says. -/
structure Vol.Agrees (v : Vol) (x : Vinfo) (slot : Mem) : Prop where
  file : v.File x.parent x.off slot
  first : clusterOf slot = x.first
  size : sizeOf slot = x.size
  hint : x.hintCluster = 0 ∨ v.chainAt x.first x.hintIdx = x.hintCluster

variable {x : Vinfo}

/-- From a cluster in the middle one walks along the rest of the chain. -/
theorem Vol.Chain.walk_from (hshaped : v.Shaped) (h : v.Chain c nodes) {k : ℕ}
    (hk : nodes[k]? = some cl) (idx : ℕ) :
    ∃ stop, v.walk idx cl = nodes.getD (k + idx) stop := by
  obtain ⟨stop, hpath, hstop⟩ := h.stop_not_live
  refine ⟨stop, ?_⟩
  rw [walk_path hshaped (hpath.at hk).1 (fun x hx => h.range x (mem_of_mem_drop hx)) hstop,
    getD_eq_getElem?_getD, getD_eq_getElem?_getD, getElem?_drop]

theorem Vol.Chain.chainAtHinted (hshaped : v.Shaped) (h : v.Chain x.first nodes)
    (hpoints : x.PointsInto nodes) {idx : ℕ} (hidx : nodes[idx]? = some cl) :
    v.chainAtHinted x idx = cl := by
  have hlive : FatFs.Live cl := hshaped.live (h.range cl (mem_of_getElem? hidx))
  rw [Vol.chainAtHinted]
  split
  · rename_i hhinted
    have hhint := hpoints.resolve_left hhinted.1
    obtain ⟨stop, hwalk⟩ := h.walk_from hshaped hhint (idx - x.hintIdx)
    rw [hwalk, Nat.add_sub_cancel' hhinted.2, getD_eq_getElem?_getD, hidx, getD_some]
    exact if_pos hlive
  · obtain ⟨stop, hpath, hstop⟩ := h.stop_not_live
    rw [walk_path hshaped hpath h.range hstop, getD_eq_getElem?_getD, hidx, getD_some]
    exact if_pos hlive

/-! ## `fat32_write` -/

/-- The cluster behind one of the chain is the next of the chain, or there is none. -/
theorem Vol.Chain.nextCluster (h : v.Chain c nodes) (hcl : cl ∈ nodes) :
    v.nextCluster cl = 0 ∨ v.nextCluster cl ∈ nodes := by
  rw [Vol.nextCluster, h.fatGet hcl]
  obtain ⟨k, hk⟩ := mem_iff_getElem?.mp hcl
  rcases h.next hk with ⟨next, hnext, hfat⟩ | ⟨-, hbad⟩
  · split_ifs
    · exact .inr (hfat ▸ mem_of_getElem? hnext)
    · exact .inl rfl
  · left
    exact if_neg fun hlive => Nat.not_le_of_lt hlive.2 hbad

variable {bytes : List Byte}

/-- The call is one that the driver is right about: paths lead through plain entries and not
to the root itself, files stay below four gibibytes, and the vnode agrees with its entry. -/
def Vol.Fits (v : Vol) : Call → Prop
  | .lookup _ => True
  | .create path => v.plainPath path = true
  | .write i pos bytes => ∀ x, v.pool[i]? = some x → x.valid = true → x.isDir = false →
      (∃ slot, v.Agrees x slot) ∧ pos + bytes.length < 2 ^ 32
  | .truncate i _ => ∀ x, v.pool[i]? = some x → x.valid = true → x.isDir = false →
      ∃ slot, v.Agrees x slot
  | .unlink path => v.plainPath path = true
  | .mkdir path => v.plainPath path = true
  | .rmdir path => isRoot path = false ∧ v.plainPath path = true
  | .rename source target =>
    isRoot source = false ∧ v.plainPath source = true ∧ v.plainPath target = true

variable {start state : Vol} {dir : ℕ} {p : Place}

def Step (before : Vol) (call : Call) (after : Vol) : Prop := before.step call = after

/-- A volume of three clusters with an empty root. -/
def blank : Vol where
  count := 3
  bpc := 512
  root := 2
  fat := fun cl => if cl = 2 then eoc else 0
  content := fun _ => zeroCluster
  nextFree := 3
  pool := List.replicate 3 ⟨false, [], 0, 0, 0, 0, false, 0, 0, false⟩

/-- Two files are made, and written one after the other. -/
def made : Vol := (blank.step (.create [65])).step (.create [66])
def half : Vol := made.step (.write 0 0 [7])
def written : Vol := half.step (.write 1 0 [9])

end AuraLite.FatFs

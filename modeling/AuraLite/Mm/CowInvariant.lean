import AuraLite.Mm.Cow

/-!
# References and exclusive frames are kept

Each event keeps the reference counts exact and keeps a writable frame from
being reached through a second leaf outside shared areas.
-/

namespace AuraLite.Paging

open List Option ByteMemory Pmm Function

variable {s s' : System} {kept : ℕ → Prop} {i j page page' f idx : ℕ}
variable {e e' : Pte} {p : Proc} {pmm : PmmState} {mem : Mem}

/-! ## Leaves of a system -/

open AuraLite.Paging.System

theorem userPages_lt : userPages ≤ rootLevel.span := by
  decide

theorem userPte_eq_some : s.userPte i page = some e ↔
      page < userPages ∧ s.pte i page = some e ∧ e.user = true := by
  rw [userPte]
  by_cases hpage : page < userPages
  · rw [if_pos hpage, filter_eq_some_iff]
    simp [hpage]
  · simp [hpage]

theorem leaves_le (hproc : s.proc i = some p) (f : ℕ) :
    (rootLevel.leaves p.root).count f ≤ s.userPtes f :=
  @count_le_collect Proc (fun p => rootLevel.leaves p.root) _ _ _ f hproc

section

variable (hpte : s.userPte i page = some e)
include hpte

theorem userPte_proc :
    ∃ p, s.proc i = some p ∧ rootLevel.find p.root page = some e ∧
      page < rootLevel.span ∧ e.user = true := by
  obtain ⟨hpage, hfind, huser⟩ := userPte_eq_some.mp hpte
  obtain ⟨p, hproc, hleaf⟩ := Option.bind_eq_some_iff.mp hfind
  exact ⟨p, hproc, hleaf, hpage.trans_le userPages_lt, huser⟩

theorem userPtes_pos : s.userPtes e.frame ≠ 0 := by
  obtain ⟨p, hproc, hleaf, _, huser⟩ := userPte_proc hpte
  have hmem := rootLevel_lawful.leaf_mem hleaf huser
  have hcount := leaves_le hproc e.frame
  have hpos := List.count_pos_iff.mpr hmem
  omega

theorem refs_pos : s.refs e.frame ≠ 0 := by
  have hpos := userPtes_pos hpte
  rw [refs]
  omega

theorem userPtes_pair (hpte' : s.userPte j page' = some e') (hne : (i, page) ≠ (j, page'))
    (hframe : e.frame = e'.frame) : 2 ≤ s.userPtes e.frame := by
  obtain ⟨p, hproc, hleaf, hspan, huser⟩ := userPte_proc hpte
  obtain ⟨p', hproc', hleaf', hspan', huser'⟩ := userPte_proc hpte'
  by_cases hij : i = j
  · subst hij
    rw [hproc, Option.some.injEq] at hproc'
    subst hproc'
    have hpages : page ≠ page' := fun heq => hne (by rw [heq])
    have htwo := rootLevel_lawful.leaf_pair hspan hspan' hpages hleaf hleaf' huser huser' hframe
    exact htwo.trans (leaves_le hproc e.frame)
  · have hone := List.count_pos_iff.mpr (rootLevel_lawful.leaf_mem hleaf huser)
    have hone' := List.count_pos_iff.mpr (rootLevel_lawful.leaf_mem hleaf' huser')
    rw [← hframe] at hone'
    have hcount := @count_pair_le_collect Proc
      (fun p => rootLevel.leaves p.root) _ _ _ _ _ e.frame hij hproc hproc'
    exact (Nat.add_le_add hone hone').trans hcount

end

theorem Pte.user_frames (huser : e.user = true) : e.frames = [e.frame] := by
  rw [Pte.frames, if_pos huser]

/-! ## Memory behind leaves -/

theorem Pte.byteAddr_div (e : Pte) (addr : ℕ) : e.byteAddr addr / pageSize = e.frame := by
  simp only [Pte.byteAddr, pageSize]
  omega

theorem Pte.byteAddr_congr (hframe : e'.frame = e.frame) (addr : ℕ) :
    e'.byteAddr addr = e.byteAddr addr := by
  rw [Pte.byteAddr, Pte.byteAddr, hframe]

/-- Bytes of a referenced frame are no metadata. -/
theorem Consistent.off_metadata (hcons : Consistent kept s) {x : ℕ}
    (hrefs : s.refs (x / pageSize) ≠ 0) : ¬s.pmm.Metadata x := by
  intro hmeta
  obtain ⟨hlt, hnot⟩ := hcons.holds.pool _ hrefs
  exact hnot (hcons.holds.metadata x hmeta hlt)

/-- An operation that only touches free frames keeps the bytes behind leaves. -/
theorem Consistent.mem_kept (hcons : Consistent kept s)
    (hkeeps : Keeps (FreeFrame s.pmm kept s.refs) s.pmm pmm)
    (hpte : s.userPte i page = some e) (addr : ℕ) :
    pmm.mem (e.byteAddr addr) = s.pmm.mem (e.byteAddr addr) := by
  have hrefs := refs_pos hpte
  rw [← e.byteAddr_div addr] at hrefs
  refine hkeeps.data _ (hcons.off_metadata hrefs) ?_
  rintro ⟨_, _, hzero⟩
  exact hrefs hzero

/-- What a process reads depends on the frames of its leaves and their bytes. -/
theorem readByte_congr {addr : ℕ} (hframe : (s'.userPte j (addr / pageSize)).map Pte.frame =
      (s.userPte i (addr / pageSize)).map Pte.frame)
    (hmem : ∀ e, s.userPte i (addr / pageSize) = some e →
      s'.pmm.mem (e.byteAddr addr) = s.pmm.mem (e.byteAddr addr)) :
    s'.readByte j addr = s.readByte i addr := by
  rw [readByte, readByte]
  cases hold : s.userPte i (addr / pageSize) with
  | none =>
    rw [hold, map_none, map_eq_none_iff] at hframe
    rw [hframe]
    rfl
  | some e =>
    rw [hold, map_some, map_eq_some_iff] at hframe
    obtain ⟨e', hnew, heq⟩ := hframe
    rw [hnew, map_some, map_some, Pte.byteAddr_congr heq, hmem e hold]

/-- A step that keeps the system consistent and what the pages of `reader` show
to their processes. -/
structure Isolates (kept : ℕ → Prop) (s s' : System) (reader : ℕ → ℕ → Prop) :
    Prop where
  consistent : Consistent kept s'
  slots : s.procs.length ≤ s'.procs.length
  shared : ∀ j page, reader j page → s'.sharedPage j page = s.sharedPage j page
  reads : ∀ j addr, reader j (addr / pageSize) →
    s'.readByte j addr = s.readByte j addr

theorem Isolates.mono {reader fewer : ℕ → ℕ → Prop} (hstep : Isolates kept s s' reader)
    (hfewer : ∀ j page, fewer j page → reader j page) :
    Isolates kept s s' fewer :=
  ⟨hstep.consistent, hstep.slots, fun j page hj => hstep.shared j page (hfewer j page hj),
    fun j addr hj => hstep.reads j addr (hfewer j _ hj)⟩

theorem Consistent.unchanged (hcons : Consistent kept s)
    (reader : ℕ → ℕ → Prop) : Isolates kept s s reader :=
  ⟨hcons, le_rfl, fun _ _ _ => rfl, fun _ _ _ => rfl⟩

/-! ## Replacing a leaf -/

theorem proc_setPte (hproc : s.proc i = some p) (page : ℕ) (e' : Pte) (j : ℕ) :
    (s.setPte i page e').proc j =
      if j = i then some { p with root := rootLevel.set p.root page e' }
      else s.proc j :=
  getD_modify hproc

theorem sharedPage_setPte (hproc : s.proc i = some p) (page : ℕ) (e' : Pte) (j page' : ℕ) :
    (s.setPte i page e').sharedPage j page' = s.sharedPage j page' := by
  rw [sharedPage, sharedPage, proc_setPte hproc]
  split_ifs with hij
  · rw [hij, hproc]
    rfl
  · rfl

theorem userPte_setPte (hpte : s.userPte i page = some e) (huser : e'.user = true) (j page' : ℕ) :
    (s.setPte i page e').userPte j page' =
      if (i, page) = (j, page') then some e' else s.userPte j page' := by
  obtain ⟨p, hproc, hleaf, hspan, _⟩ := userPte_proc hpte
  have hbound := (userPte_eq_some.mp hpte).1
  by_cases hpage' : page' < userPages
  · have hspan' := hpage'.trans_le userPages_lt
    rw [userPte, userPte, if_pos hpage', if_pos hpage', pte,
      proc_setPte hproc, pte]
    by_cases hij : j = i
    · subst hij
      rw [if_pos rfl, bind_some, hproc, bind_some,
        rootLevel_lawful.find_set hleaf e' page' hspan hspan']
      by_cases hpages : page' = page
      · subst hpages
        simp [huser]
      · rw [if_neg hpages, if_neg (by simpa using Ne.symm hpages)]
    · rw [if_neg hij, if_neg (by simp [Ne.symm hij])]
  · have hother : (i, page) ≠ (j, page') := by
      intro heq
      rw [Prod.mk.injEq] at heq
      exact hpage' (heq.2 ▸ hbound)
    rw [if_neg hother, userPte, userPte, if_neg hpage', if_neg hpage']

theorem userPtes_setPte (hpte : s.userPte i page = some e) (huser : e'.user = true) (f : ℕ) :
    (s.setPte i page e').userPtes f + [e.frame].count f = s.userPtes f + [e'.frame].count f := by
  obtain ⟨p, hproc, hleaf, _, hold⟩ := userPte_proc hpte
  have hprocs := @collect_modify Proc (fun p => rootLevel.leaves p.root) _ _ _
    (fun p => { p with root := rootLevel.set p.root page e' }) f hproc
  have hleaves := rootLevel_lawful.leaves_set hleaf e' f
  rw [Pte.user_frames hold, Pte.user_frames huser] at hleaves
  simp only [userPtes, setPte] at hprocs ⊢
  omega

theorem tableUses_setPte (s : System) (i page : ℕ) (e' : Pte) (f : ℕ) :
    (s.setPte i page e').tableUses f = s.tableUses f := by
  have hsame := @collect_modify_same Proc (fun p => rootLevel.tables p.root) s.procs
    (fun p => { p with root := rootLevel.set p.root page e' })
    (fun p => rootLevel_lawful.tables_set p.root page e') i
  rw [tableUses, setPte, hsame, tableUses]

/-- A leaf that comes from a leaf of process `k`, on the same frame and with no
more rights. -/
def Inherits (s : System) (k page : ℕ) (x : Pte) : Prop :=
  ∃ y, s.userPte k page = some y ∧ x.frame = y.frame ∧
    (x.writable = true → y.writable = true)

section

variable (hcons : Consistent kept s)
include hcons

/-- Leaves that come from leaves of the process `origin`, where a page that stayed writable in
one of two processes with one origin lies in a shared area. -/
theorem Consistent.exclusive_of_origin (origin : ℕ → ℕ)
    (hleaf : ∀ {j page x}, s'.userPte j page = some x → Inherits s (origin j) page x ∧
      s'.sharedPage j page = s.sharedPage (origin j) page)
    (htwins : ∀ {j k page x}, j ≠ k → origin j = origin k → s'.userPte j page = some x →
      x.writable = true → s.sharedPage (origin j) page = true) : s'.Exclusive := by
  intro a b pageA pageB x y hx hy hne hframe hwritable
  obtain ⟨⟨x₀, hx₀, hframeX, hrights⟩, hsharedA⟩ := hleaf hx
  obtain ⟨⟨y₀, hy₀, hframeY, _⟩, hsharedB⟩ := hleaf hy
  rw [hsharedA, hsharedB]
  by_cases hsame : (origin a, pageA) = (origin b, pageB)
  · obtain ⟨horigin, rfl⟩ := Prod.mk.inj hsame
    have hshared := htwins (fun hab => hne (by rw [hab])) horigin hx hwritable
    exact ⟨hshared, horigin ▸ hshared⟩
  · exact hcons.exclusive _ _ pageA pageB x₀ y₀ hx₀ hy₀ hsame
      (hframeX.symm.trans (hframe.trans hframeY)) (hrights hwritable)

/-- A frame that no other leaf maps may become writable. -/
theorem Consistent.exclusive_setPte (hpte : s.userPte i page = some e) (huser : e'.user = true)
    (halone : ∀ j page' x, s.userPte j page' = some x → (i, page) ≠ (j, page') →
      x.frame ≠ e'.frame) : (s.setPte i page e').Exclusive := by
  obtain ⟨p, hproc, _⟩ := userPte_proc hpte
  intro a b pageA pageB x y hx hy hne hframe hwritable
  rw [userPte_setPte hpte huser] at hx hy
  rw [sharedPage_setPte hproc, sharedPage_setPte hproc]
  split_ifs at hx with hA
  · rw [Option.some.injEq] at hx
    rw [if_neg (fun hB => hne (hA.symm.trans hB))] at hy
    exact absurd (hx ▸ hframe.symm) (halone b pageB y hy fun hB => hne (hA.symm.trans hB))
  · split_ifs at hy with hB
    · rw [Option.some.injEq] at hy
      exact absurd (hy ▸ hframe) (halone a pageA x hx hA)
    · exact hcons.exclusive a b pageA pageB x y hx hy hne hframe hwritable

/-! ## Write faults -/

/-- What a resolved write fault leaves behind. -/
structure Resolved (kept : ℕ → Prop) (s : System) (i page : ℕ) (s' : System) :
    Prop extends Isolates kept s s' fun _ _ => True where
  leaf : ∃ e, s'.userPte i page = some e ∧ e.writable = true

/-- The last reference to a frame: the leaf becomes writable as it is. -/
theorem Consistent.resolve_in_place (hpte : s.userPte i page = some e)
    (hlast : s.refs e.frame ≤ 1) :
    Resolved kept s i page (s.setPte i page (e.resolved e.frame)) := by
  obtain ⟨p, hproc, _, _, huser⟩ := userPte_proc hpte
  have hnew : (e.resolved e.frame).user = true := huser
  have hrefs : (s.setPte i page (e.resolved e.frame)).refs = s.refs := by
    funext f
    have hcount : _ + [e.frame].count f = _ + [e.frame].count f := userPtes_setPte hpte hnew f
    rw [refs, refs, tableUses_setPte, Nat.add_right_cancel hcount]
    rfl
  have hslots : s.procs.length ≤ (s.setPte i page (e.resolved e.frame)).procs.length :=
    (length_modify ..).ge
  refine ⟨⟨⟨hrefs ▸ hcons.holds, ?_, ?_⟩, hslots,
    fun j page' _ => sharedPage_setPte hproc _ _ j page', fun j addr _ => ?_⟩,
    ⟨e.resolved e.frame, ?_, rfl⟩⟩
  · intro f hf
    rw [tableUses_setPte] at hf
    exact hrefs ▸ hcons.tables f hf
  · refine hcons.exclusive_setPte hpte hnew fun j page' x hx hne hframe => ?_
    have htwo := userPtes_pair hpte hx hne hframe.symm
    rw [refs] at hlast
    omega
  · refine readByte_congr ?_ fun _ _ => rfl
    rw [userPte_setPte hpte hnew]
    split_ifs with heq
    · rw [Prod.mk.injEq] at heq
      rw [← heq.1, ← heq.2, hpte]
      rfl
    · rfl
  · rw [userPte_setPte hpte hnew, if_pos rfl]

/-- A further reference: the leaf moves to a copy of the frame. -/
theorem Consistent.resolve_copy (hpte : s.userPte i page = some e)
    (halloc : Allocated s.pmm kept s.refs idx 1 pmm) :
    Resolved kept s i page { s.setPte i page (e.resolved idx) with
      pmm := { pmm with
        mem := copyBytes pmm.mem (idx * pageSize) (e.frame * pageSize) pageSize }
      pending := e.frame :: s.pending } := by
  obtain ⟨p, hproc, _, _, huser⟩ := userPte_proc hpte
  have hnew : (e.resolved idx).user = true := huser
  have hidx : inRun idx 1 idx := ⟨le_rfl, Nat.lt_succ_self _⟩
  obtain ⟨hidxLt, hidxPool, hidxFree⟩ := halloc.run idx hidx
  -- every leaf of the old state is on another frame than the copy
  have hother : ∀ {j page' x}, s.userPte j page' = some x → x.frame ≠ idx :=
    fun hx heq => refs_pos hx (heq ▸ hidxFree)
  set s' : System := { s.setPte i page (e.resolved idx) with
    pmm := { pmm with
      mem := copyBytes pmm.mem (idx * pageSize) (e.frame * pageSize) pageSize }
    pending := e.frame :: s.pending } with hs'
  have hptes : ∀ j page', s'.userPte j page' =
      if (i, page) = (j, page') then some (e.resolved idx)
      else s.userPte j page' := userPte_setPte hpte hnew
  have hrefs : s'.refs = claimed s.refs idx 1 := by
    funext f
    have hcount : s'.userPtes f + [e.frame].count f = s.userPtes f + [idx].count f :=
      userPtes_setPte hpte hnew f
    have htables : s'.tableUses f = s.tableUses f := tableUses_setPte s i page _ f
    have hpending : s'.pending.count f = s.pending.count f + [e.frame].count f := by
      rw [hs', count_cons, count_singleton]
    rw [claimed_one hidxFree, refs, refs]
    omega
  have hmem : s'.pmm.mem = copyBytes pmm.mem (idx * pageSize) (e.frame * pageSize) pageSize := rfl
  have hmeta : ∀ x, pmm.Metadata x →
      copyBytes pmm.mem (idx * pageSize) (e.frame * pageSize) pageSize x = pmm.mem x := by
    intro x hx
    have hoff := @View.off_metadata _ _ _ idx 1 hcons.holds.toView
      (fun g hg => ⟨(halloc.run g hg).1, (halloc.run g hg).2.1⟩) x
      ((halloc.keeps.metadata x).mp hx)
    rw [Nat.one_mul] at hoff
    exact copyBytes_outside hoff
  have hkeeps : Keeps (FreeFrame s.pmm kept s.refs) s.pmm pmm :=
    halloc.keeps.mono fun f hf => halloc.run f hf
  refine ⟨⟨⟨?_, ?_, ?_⟩, (length_modify ..).ge,
    fun j page' _ => sharedPage_setPte hproc _ _ j page', fun j addr _ => ?_⟩,
    ⟨e.resolved idx, ?_, rfl⟩⟩
  · rw [hrefs]
    exact halloc.holds.with_mem hmeta
  · intro f hf
    have hold : s.tableUses f ≠ 0 := by
      rwa [← tableUses_setPte s i page (e.resolved idx) f]
    have hone := hcons.tables f hold
    have hne : f ≠ idx := fun heq => by rw [heq, hidxFree] at hone; omega
    rw [hrefs, claimed_outside (by simp only [inRun]; omega), hone]
  · exact hcons.exclusive_setPte hpte hnew fun j page' x hx _ => hother hx
  · rw [readByte, readByte, hptes]
    split_ifs with heq
    · rw [Prod.mk.injEq] at heq
      have hne := hother hpte
      have hapart : idx * pageSize + pageSize ≤ e.frame * pageSize ∨
          e.frame * pageSize + pageSize ≤ idx * pageSize := by
        simp only [pageSize]
        omega
      rw [← heq.1, ← heq.2, hpte, map_some, map_some,
        ← hcons.mem_kept hkeeps hpte addr, Pte.byteAddr, Pte.byteAddr, hmem,
        Pte.resolved, copyBytes_inside hapart (Nat.mod_lt _ (by decide))]
    · cases hx : s.userPte j (addr / pageSize) with
      | none => rfl
      | some x =>
        have hne := hother hx
        have hmod := Nat.mod_lt addr (by decide : 0 < pageSize)
        have hout : x.byteAddr addr < idx * pageSize ∨
            idx * pageSize + pageSize ≤ x.byteAddr addr := by
          simp only [Pte.byteAddr, pageSize] at hmod ⊢
          omega
        rw [map_some, map_some, ← hcons.mem_kept hkeeps hx addr, hmem, copyBytes_outside hout]
  · rw [hptes, if_pos rfl]

theorem handleCowFault_sound (hfault : handleCowFault s i page = some s') :
    Resolved kept s i page s' := by
  rw [handleCowFault] at hfault
  cases hpte : s.userPte i page with
  | none =>
    rw [hpte] at hfault
    simp at hfault
  | some e =>
    rw [hpte] at hfault
    simp only [hcons.holds.refcount] at hfault
    by_cases hcow : e.cow = false
    · rw [if_pos hcow] at hfault
      simp at hfault
    rw [if_neg hcow] at hfault
    split at hfault
    · rename_i hlast
      rw [Option.some.injEq] at hfault
      exact hfault ▸ hcons.resolve_in_place hpte hlast
    · rcases pmmAllocFrame_spec hcons.holds with
        ⟨hnone, _⟩ | ⟨idx, pmm, hsome, halloc, _⟩
      · rw [hnone] at hfault
        simp at hfault
      · rw [hsome] at hfault
        by_cases hzero : idx * pageSize = 0
        · simp [hzero] at hfault
        · simp only [hzero, if_false, frame_addr, Option.some.injEq] at hfault
          exact hfault ▸ hcons.resolve_copy hpte halloc

/-! ## Stores -/

/-- The pages that a store by process `i` to `page` must not change. -/
def Apart (s : System) (i page j page' : ℕ) : Prop :=
  (i, page) ≠ (j, page') ∧ (s.sharedPage i page = false ∨ s.sharedPage j page' = false)

theorem Consistent.store (hpte : s.userPte i page = some e) (hwritable : e.writable = true)
    (addr : ℕ) (byte : Byte) :
    Isolates kept s (s.store (e.byteAddr addr) byte) (Apart s i page) := by
  have hoff : ¬s.pmm.Metadata (e.byteAddr addr) :=
    hcons.off_metadata (by rw [e.byteAddr_div]; exact refs_pos hpte)
  have hmem : ∀ x, x ≠ e.byteAddr addr → (s.store (e.byteAddr addr) byte).pmm.mem x = s.pmm.mem x :=
    fun x hx => update_of_ne hx _ _
  refine ⟨⟨?_, hcons.tables, hcons.exclusive⟩, le_rfl, fun _ _ _ => rfl, ?_⟩
  · exact hcons.holds.with_mem fun x hx => hmem x fun heq => hoff (heq ▸ hx)
  · intro j x ⟨hne, hprivate⟩
    refine readByte_congr rfl fun e' he' => hmem _ fun heq => ?_
    -- the same byte would be the same frame, mapped writable on both sides
    have hframe : e.frame = e'.frame := by
      rw [← e.byteAddr_div addr, ← e'.byteAddr_div x, heq]
    obtain ⟨hi, hj⟩ := hcons.exclusive i j page _ e e' hpte he' hne hframe hwritable
    rw [hi, hj] at hprivate
    simp at hprivate

theorem Consistent.write (i addr : ℕ) (byte : Byte) :
    Isolates kept s (s.write i addr byte) (Apart s i (addr / pageSize)) := by
  rw [System.write]
  cases hpte : s.userPte i (addr / pageSize) with
  | none => exact hcons.unchanged _
  | some e =>
    by_cases hwritable : e.writable = true
    · simp only [hwritable, if_true]
      exact hcons.store hpte hwritable addr byte
    · simp only [hwritable]
      cases hfault : handleCowFault s i (addr / pageSize) with
      | none => exact hcons.unchanged _
      | some s' =>
        have hresolved := handleCowFault_sound hcons hfault
        obtain ⟨e', hpte', hwritable'⟩ := hresolved.leaf
        have hstore := hresolved.consistent.store hpte' hwritable' addr byte
        have hapart : ∀ j page, Apart s i (addr / pageSize) j page →
            Apart s' i (addr / pageSize) j page := by
          intro j page hapart
          rwa [Apart, hresolved.shared _ _ trivial, hresolved.shared _ _ trivial]
        simp only [Bool.false_eq_true, if_false, hpte']
        exact ⟨hstore.consistent, hresolved.slots.trans hstore.slots,
          fun j page hj => (hstore.shared j page (hapart j page hj)).trans
            (hresolved.shared j page trivial),
          fun j x hj => (hstore.reads j x (hapart j _ hj)).trans (hresolved.reads j x trivial)⟩

/-! ## Releases -/

theorem Consistent.settle (k : ℕ) : Isolates kept s (s.settle k) fun _ _ => True := by
  rw [System.settle]
  cases hk : s.pending[k]? with
  | none => exact hcons.unchanged _
  | some f =>
    obtain ⟨hlt, hget⟩ := List.getElem?_eq_some_iff.mp hk
    have hpending : ∀ g, s.pending.count g = (s.pending.eraseIdx k).count g + [f].count g := by
      intro g
      rw [(getElem_cons_eraseIdx_perm hlt).symm.count_eq g, hget, count_cons, count_singleton]
    have hpos : s.refs f ≠ 0 := by
      have hf := hpending f
      rw [count_singleton_self] at hf
      rw [refs]
      omega
    obtain ⟨hholds, hkeeps⟩ := pmmFreeFrame_spec hcons.holds ((frame_addr f).symm ▸ hpos)
    rw [frame_addr] at hholds
    set s' : System := { s with
      pmm := pmmFreeFrame s.pmm (f * pageSize)
      pending := s.pending.eraseIdx k }
    have hrefs : s'.refs = update s.refs f (s.refs f - 1) := by
      funext g
      have hg : _ = s'.pending.count g + _ := hpending g
      have hsame : s'.refs g = s.userPtes g + s.tableUses g + s'.pending.count g :=
        rfl
      by_cases hgf : g = f
      · rw [hgf, count_singleton_self] at hg
        rw [hgf, update_self, ← hgf, hsame, hgf, refs]
        omega
      · rw [update_of_ne hgf, hsame, refs, hg]
        simp [Ne.symm hgf]
    refine ⟨⟨hrefs ▸ hholds, ?_, hcons.exclusive⟩, le_rfl, fun _ _ _ => rfl, ?_⟩
    · intro g hg
      have hone := hcons.tables g hg
      have hgf : g ≠ f := by
        intro heq
        have hf := hpending f
        have htable : s.tableUses g ≠ 0 := hg
        rw [count_singleton_self] at hf
        rw [heq, refs] at hone
        rw [heq] at htable
        omega
      rw [hrefs, update_of_ne hgf, hone]
    · intro j addr _
      exact readByte_congr rfl fun e he => hcons.mem_kept hkeeps.of_noFrame he addr

/-- A teardown turns the references of the space into pending releases. -/
theorem Consistent.exit (i : ℕ) : Isolates kept s (s.exit i) fun j _ => j ≠ i := by
  rw [System.exit]
  cases hproc : s.proc i with
  | none => exact hcons.unchanged _
  | some p =>
    set s' : System := { s with
      procs := s.procs.set i none
      pending := rootLevel.frames p.root ++ s.pending } with hs'
    have hprocs : ∀ j, s'.proc j = if j = i then none else s.proc j :=
      fun j => getD_set hproc none
    have hpte : ∀ {j page e}, s'.userPte j page = some e → j ≠ i ∧ s.userPte j page = some e := by
      intro j page e hpte
      rw [userPte, pte, hprocs] at hpte
      by_cases hji : j = i
      · simp [hji] at hpte
      · rw [if_neg hji] at hpte
        exact ⟨hji, hpte⟩
    have htables : ∀ f, s'.tableUses f + (rootLevel.tables p.root).count f =
        s.tableUses f := fun f =>
      @collect_set_none Proc (fun p => rootLevel.tables p.root) _ _ _ hproc f
    have hrefs : s'.refs = s.refs := by
      funext f
      have hleaves : s'.userPtes f + (rootLevel.leaves p.root).count f = s.userPtes f :=
        @collect_set_none Proc (fun p => rootLevel.leaves p.root) _ _ _ hproc f
      have htable := htables f
      have hframes := rootLevel_lawful.frames_count p.root f
      have hpending : s'.pending.count f = (rootLevel.frames p.root).count f + s.pending.count f :=
        count_append
      rw [refs, refs]
      omega
    have hshared : ∀ j page, j ≠ i → s'.sharedPage j page = s.sharedPage j page := by
      intro j page hji
      rw [sharedPage, hprocs, if_neg hji, sharedPage]
    show Isolates kept s s' _
    refine ⟨⟨hrefs ▸ hcons.holds, ?_, ?_⟩, (length_set ..).ge, hshared, ?_⟩
    · intro f hf
      have htable := htables f
      exact hrefs ▸ hcons.tables f (by omega)
    · exact hcons.exclusive_of_origin id
        (fun {j page x} hx => ⟨⟨x, (hpte hx).2, rfl, id⟩, hshared j page (hpte hx).1⟩)
        fun hne heq => absurd heq hne
    · intro j addr hji
      refine readByte_congr ?_ fun _ _ => rfl
      rw [userPte, pte, hprocs, if_neg hji, userPte, pte]

end

/-! ## Forks -/

theorem protectUser_filter (shared : Bool) (leaf : Option Pte) :
    (leaf.map (protectUser shared)).filter (·.user) =
      (leaf.filter (·.user)).map (protect shared) := by
  cases leaf with
  | none => rfl
  | some e =>
    cases huser : e.user <;>
      simp [protectUser, huser, filter_some, (Pte.protect_frame shared e).2]

theorem cloneUser_filter (shared : Bool) (leaf : Option Pte) :
    (leaf.bind (cloneUser shared)).filter (·.user) =
      (leaf.filter (·.user)).map (protect shared) := by
  cases leaf with
  | none => rfl
  | some e =>
    cases huser : e.user <;>
      simp [cloneUser, huser, filter_some, (Pte.protect_frame shared e).2]

/-- Only pages of shared areas stay writable in a fork. -/
theorem protect_writable {shared : Bool} (hwritable : (protect shared e).writable = true) :
    shared = true ∧ e.writable = true := by
  rw [protect] at hwritable
  split_ifs at hwritable with hprivate
  refine ⟨?_, hwritable⟩
  by_contra hshared
  exact hprivate ⟨by simpa using hshared, .inl hwritable⟩

end AuraLite.Paging

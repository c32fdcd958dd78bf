import AuraLite.Mm.CowInvariant

/-!
# Copy-on-write isolation

A fork shares every user frame between two processes, so its own step is where
isolation could be lost.  With it the steps are complete: reference counts stay
exact, and no process sees the stores of another one outside shared areas.
-/

namespace AuraLite.Paging

open Option List ByteMemory Pmm Reachability

variable {s s' : System} {kept : ℕ → Prop} {i j page page' f : ℕ}
variable {e e' : Pte} {p : Proc} {root : Pml4} {r : CloneResult Pml4}

/-! ## The parent -/

/-- Replace the tables of process `i`. -/
def System.withRoot (s : System) (i : ℕ) (root : Pml4) : System :=
  { s with procs := s.procs.modify i (Option.map fun p => { p with root := root }) }

section

variable (hproc : s.proc i = some p)
include hproc

open AuraLite.Paging.System

theorem proc_withRoot (root : Pml4) (j : ℕ) : (s.withRoot i root).proc j =
      if j = i then some { p with root := root } else s.proc j :=
  getD_modify hproc

theorem sharedPage_withRoot (root : Pml4)
    (j page : ℕ) : (s.withRoot i root).sharedPage j page = s.sharedPage j page := by
  rw [sharedPage, sharedPage, proc_withRoot hproc]
  split_ifs with hji
  · rw [hji, hproc]
    rfl
  · rfl

theorem userPtes_withRoot (hleaves : rootLevel.leaves root = rootLevel.leaves p.root) (f : ℕ) :
    (s.withRoot i root).userPtes f = s.userPtes f := by
  have hcount := @collect_modify Proc (fun p => rootLevel.leaves p.root) _ _ _
    (fun p => { p with root := root }) f hproc
  rw [hleaves] at hcount
  exact Nat.add_right_cancel hcount

theorem tableUses_withRoot (htables : rootLevel.tables root = rootLevel.tables p.root) (f : ℕ) :
    (s.withRoot i root).tableUses f = s.tableUses f := by
  have hcount := @collect_modify Proc (fun p => rootLevel.tables p.root) _ _ _
    (fun p => { p with root := root }) f hproc
  rw [htables] at hcount
  exact Nat.add_right_cancel hcount

theorem userPte_of_proc (page : ℕ) : s.userPte i page =
      if page < userPages then (rootLevel.find p.root page).filter (·.user)
      else none := by
  rw [userPte, pte, hproc, bind_some]

theorem userPte_withRoot_of_ne (hji : j ≠ i)
    (page : ℕ) : (s.withRoot i root).userPte j page = s.userPte j page := by
  rw [userPte, pte, proc_withRoot hproc, if_neg hji, userPte, pte]

theorem sharedPage_of_proc (page : ℕ) : s.sharedPage i page = p.sharedVma page := by
  rw [sharedPage, hproc]
  rfl

end

/-- The leaves of the parent, protected or not. -/
theorem Cloned.parent_userPte (hcloned : Cloned rootLevel p.sharedVma kept s.refs 0 p.root s.pmm r)
    (hproc : s.proc i = some p) (page : ℕ) :
    (s.withRoot i r.parent).userPte i page = s.userPte i page ∨
      (s.withRoot i r.parent).userPte i page =
        (s.userPte i page).map (protect (s.sharedPage i page)) := by
  have hnew : (s.withRoot i r.parent).proc i = some { p with root := r.parent } := by
    rw [proc_withRoot hproc, if_pos rfl]
  rw [userPte_of_proc hnew, userPte_of_proc hproc, sharedPage_of_proc hproc]
  by_cases hpage : page < userPages
  · rw [if_pos hpage, if_pos hpage, ← protectUser_filter]
    have hfind := (hcloned.pages page (hpage.trans_le userPages_lt)).1
    rw [Nat.zero_add] at hfind
    exact hfind.imp (congrArg _) (congrArg _)
  · simp only [if_neg hpage, true_or]

theorem map_protect_frame (shared : Bool) (leaf : Option Pte) :
    (leaf.map (protect shared)).map Pte.frame = leaf.map Pte.frame := by
  cases leaf with
  | none => rfl
  | some x => exact congrArg some (Pte.protect_frame shared x).1

theorem Cloned.parent_frame (hcloned : Cloned rootLevel p.sharedVma kept s.refs 0 p.root s.pmm r)
    (hproc : s.proc i = some p) (j page : ℕ) :
    ((s.withRoot i r.parent).userPte j page).map Pte.frame = (s.userPte j page).map Pte.frame := by
  by_cases hji : j = i
  · subst hji
    rcases hcloned.parent_userPte hproc page with hsame | hprotected
    · rw [hsame]
    · rw [hprotected, map_protect_frame]
  · rw [userPte_withRoot_of_ne hproc hji]

/-! ## Leaves of a forked system -/

theorem Inherits.of_protect (h : (s.userPte i page).map (protect (s.sharedPage i page)) = some e) :
    Inherits s i page e ∧ (e.writable = true → s.sharedPage i page = true) := by
  obtain ⟨y, hy, heq⟩ := map_eq_some_iff.mp h
  subst heq
  exact ⟨⟨y, hy, (Pte.protect_frame _ y).1, fun hw => (protect_writable hw).2⟩,
    fun hw => (protect_writable hw).1⟩

theorem Cloned.parent_inherits (hcloned : Cloned rootLevel p.sharedVma kept s.refs 0 p.root s.pmm r)
    (hproc : s.proc i = some p) (hpte : (s.withRoot i r.parent).userPte j page = some e) :
    Inherits s j page e := by
  by_cases hji : j = i
  · subst hji
    rcases hcloned.parent_userPte hproc page with hsame | hprotected
    · exact ⟨e, hsame ▸ hpte, rfl, id⟩
    · exact (Inherits.of_protect (hprotected ▸ hpte)).1
  · rw [userPte_withRoot_of_ne hproc hji] at hpte
    exact ⟨e, hpte, rfl, id⟩

/-! ## Forks -/

section

variable (hcloned : Cloned rootLevel p.sharedVma kept s.refs 0 p.root s.pmm r)
  (hcons : Consistent kept s) (hproc : s.proc i = some p)
include hcloned hcons hproc

/-- Frames of page tables have one reference, also those of the child. -/
theorem Cloned.tables_once (htable : s.tableUses f ≠ 0 ∨ f ∈ Level.child rootLevel.tables r.child) :
    s.refs f + (Level.child rootLevel.frames r.child).count f = 1 := by
  have hcount := hcloned.shares.count f
  by_cases hold : s.tableUses f = 0
  · have hmem := htable.resolve_left (not_not.mpr hold)
    have hfresh := hcloned.shares.tables_fresh f hmem
    have honce := hcloned.shares.once f hfresh
    have hpos := List.count_pos_iff.mpr hmem
    omega
  · have hone := hcons.tables f hold
    have hleaf : f ∉ Level.child rootLevel.leaves r.child := by
      intro hmem
      have hparent := List.count_pos_iff.mpr (hcloned.shares.leaves_old f hmem)
      have hle := leaves_le hproc f
      rw [System.refs] at hone
      omega
    have hfresh : f ∉ Level.child rootLevel.tables r.child := by
      intro hmem
      have hzero := hcloned.shares.tables_fresh f hmem
      omega
    rw [count_eq_zero_of_not_mem hleaf, count_eq_zero_of_not_mem hfresh] at hcount
    omega

/-- A fork that fails leaves its frames to be released. -/
theorem Consistent.fork_fails :
    Isolates kept s
      { pmm := r.pmm, procs := (s.withRoot i r.parent).procs,
        pending := Level.child rootLevel.frames r.child ++ s.pending }
      fun _ _ => True := by
  set s' : System :=
    { pmm := r.pmm, procs := (s.withRoot i r.parent).procs,
      pending := Level.child rootLevel.frames r.child ++ s.pending }
  have htables : ∀ f, s'.tableUses f = s.tableUses f := tableUses_withRoot hproc hcloned.tables
  have hshared : ∀ j page, s'.sharedPage j page = s.sharedPage j page :=
    sharedPage_withRoot hproc r.parent
  have hrefs : s'.refs = fun f =>
      s.refs f + (Level.child rootLevel.frames r.child).count f := by
    funext f
    have hleaves : s'.userPtes f = s.userPtes f := userPtes_withRoot hproc hcloned.leaves f
    have hpending : s'.pending.count f =
        (Level.child rootLevel.frames r.child).count f + s.pending.count f :=
      count_append
    rw [System.refs, System.refs, hleaves, htables, hpending]
    omega
  refine ⟨⟨hrefs ▸ hcloned.shares.holds, ?_, ?_⟩, (length_modify ..).ge,
    fun j page _ => hshared j page, fun j addr _ => ?_⟩
  · intro f hf
    rw [hrefs]
    exact hcloned.tables_once hcons hproc (.inl (htables f ▸ hf))
  · exact hcons.exclusive_of_origin id
      (fun {j page _} hx => ⟨hcloned.parent_inherits hproc hx, hshared j page⟩)
      fun hne heq => absurd heq hne
  · exact readByte_congr (hcloned.parent_frame hproc j _) fun e he =>
      hcons.mem_kept hcloned.shares.keeps he addr

end

/-- A fork that succeeds: the child is a new process that reads what its parent
reads. -/
theorem Consistent.fork_succeeds {child : Pml4}
    (hcloned : Cloned rootLevel p.sharedVma kept s.refs 0 p.root s.pmm r)
    (hcons : Consistent kept s) (hproc : s.proc i = some p) (hok : r.ok = true)
    (hchild : r.child = some child) :
    let s' : System := { s with
      pmm := r.pmm
      procs := (s.withRoot i r.parent).procs ++ [some ⟨child, p.sharedVma⟩] }
    Isolates kept s s' (fun j _ => j ≠ s.procs.length) ∧
      ∀ addr, s'.readByte s.procs.length addr = s.readByte i addr := by
  intro s'
  have hlength : (s.withRoot i r.parent).procs.length = s.procs.length := length_modify ..
  have hprocs : ∀ j, s'.proc j = if j = s.procs.length then some ⟨child, p.sharedVma⟩
      else (s.withRoot i r.parent).proc j := by
    intro j
    rw [← hlength]
    exact getD_concat _ _ j
  have hfamily : ∀ j page, j = s.procs.length ∨ j = i →
      s'.userPte j page = (s.userPte i page).map (protect (s.sharedPage i page)) := by
    intro j page hj
    rw [userPte_of_proc hproc, sharedPage_of_proc hproc]
    by_cases hpage : page < userPages
    · obtain ⟨hparent, hkid⟩ := (hcloned.pages page (hpage.trans_le userPages_lt)).2 hok
      rw [Nat.zero_add] at hparent hkid
      rw [hchild, bind_some] at hkid
      rw [System.userPte, System.pte, hprocs, if_pos hpage, if_pos hpage]
      split_ifs with hnew
      · rw [bind_some, ← cloneUser_filter, ← hkid]
      · rw [hj.resolve_left hnew, proc_withRoot hproc, if_pos rfl, bind_some, ← protectUser_filter, ← hparent]
    · rw [System.userPte, if_neg hpage, if_neg hpage]
      rfl
  have hother : ∀ j page, j ≠ s.procs.length →
      s'.userPte j page = (s.withRoot i r.parent).userPte j page := by
    intro j page hj
    rw [System.userPte, System.pte, hprocs, if_neg hj, System.userPte, System.pte]
  have hshared : ∀ j page, j ≠ s.procs.length → s'.sharedPage j page = s.sharedPage j page := by
    intro j page hj
    rw [← sharedPage_withRoot hproc r.parent, System.sharedPage, hprocs, if_neg hj,
      System.sharedPage]
  have htables : ∀ f, s'.tableUses f =
      s.tableUses f + (Level.child rootLevel.tables r.child).count f := by
    intro f
    rw [← tableUses_withRoot hproc hcloned.tables, hchild]
    exact count_collect_concat _ _ f
  have hrefs : s'.refs = fun f =>
      s.refs f + (Level.child rootLevel.frames r.child).count f := by
    funext f
    have hleaves : s'.userPtes f =
        s.userPtes f + (Level.child rootLevel.leaves r.child).count f := by
      rw [← userPtes_withRoot hproc hcloned.leaves, hchild]
      exact count_collect_concat _ _ f
    have hcount := hcloned.shares.count f
    have hpending : s'.pending = s.pending := rfl
    rw [System.refs, System.refs, hleaves, htables, hpending]
    omega
  refine ⟨⟨⟨hrefs ▸ hcloned.shares.holds, ?_, ?_⟩, ?_, hshared, fun j addr hj => ?_⟩,
    fun addr => ?_⟩
  · intro f hf
    rw [hrefs]
    refine hcloned.tables_once hcons hproc ?_
    rw [htables] at hf
    by_cases hold : s.tableUses f = 0
    · exact .inr (List.count_pos_iff.mp (by omega))
    · exact .inl hold
  · refine hcons.exclusive_of_origin (fun j => if j = s.procs.length then i else j) ?_ ?_
    · intro j page x hx
      split_ifs with hnew
      · refine ⟨(Inherits.of_protect (hfamily j page (.inl hnew) ▸ hx)).1, ?_⟩
        rw [System.sharedPage, hprocs, if_pos hnew, sharedPage_of_proc hproc]
        rfl
      · exact ⟨hcloned.parent_inherits hproc (hother j page hnew ▸ hx), hshared j page hnew⟩
    · -- of two leaves with one origin, one is in the child and one in the parent
      intro j k page x hne heq hx hwritable
      have hj : j = s.procs.length ∨ j = i := by grind
      have horigin : (if j = s.procs.length then i else j) = i := by grind
      rw [horigin]
      exact (Inherits.of_protect (hfamily j page hj ▸ hx)).2 hwritable
  · rw [length_append, hlength]
    exact Nat.le_add_right _ _
  · refine readByte_congr ?_ fun e he => hcons.mem_kept hcloned.shares.keeps he addr
    rw [hother j _ hj, hcloned.parent_frame hproc]
  · refine readByte_congr ?_ fun e he => hcons.mem_kept hcloned.shares.keeps he addr
    rw [hfamily _ _ (.inl rfl), map_protect_frame]

/-- A fork shows no reader anything new, and the child it makes, if it makes
one, reads what the parent reads. -/
theorem Consistent.fork (hcons : Consistent kept s) (hallowed : Event.Allowed s (.fork i)) :
    Isolates kept s (s.fork i) (fun j _ => j ≠ s.procs.length) ∧
      ((s.fork i).procs.length ≠ s.procs.length →
        ∀ addr, (s.fork i).readByte s.procs.length addr = s.readByte i addr) := by
  rw [System.fork]
  cases hproc : s.proc i with
  | none => exact ⟨hcons.unchanged _, fun hne => absurd rfl hne⟩
  | some p =>
    have hmapped : ∀ f ∈ rootLevel.leaves p.root, s.refs f ≠ 0 := by
      intro f hf
      have hle := leaves_le hproc f
      have hpos := List.count_pos_iff.mpr hf
      rw [System.refs]
      omega
    have hroom : ∀ f, s.refs f + (rootLevel.frames p.root).length < 2 ^ 32 :=
      fun f => hcons.holds.refcount f ▸ hallowed p hproc f
    have hcloned := cloneUserSpace_sound p.sharedVma hcons.holds hmapped hroom
    simp only
    generalize cloneUserSpace p.sharedVma p.root s.pmm = r at hcloned
    have hfails := hcons.fork_fails hcloned hproc
    have hfailed : ∀ {s' : System}, Isolates kept s s' (fun _ _ => True) →
        s'.procs.length = s.procs.length →
        Isolates kept s s' (fun j _ => j ≠ s.procs.length) ∧ (s'.procs.length ≠ s.procs.length →
            ∀ addr, s'.readByte s.procs.length addr = s.readByte i addr) :=
      fun hs hlength => ⟨hs.mono fun _ _ _ => trivial, fun hne => absurd hlength hne⟩
    cases hchild : r.child with
    | none =>
      rw [hchild] at hfails
      cases r.ok <;> exact hfailed hfails (length_modify ..)
    | some child =>
      cases hok : r.ok with
      | false =>
        rw [hchild] at hfails
        exact hfailed hfails (length_modify ..)
      | true =>
        obtain ⟨hs, hreads⟩ := hcons.fork_succeeds hcloned hproc hok hchild
        exact ⟨hs, fun _ => hreads⟩

/-! ## Runs -/

/-- The pages whose bytes an event has to leave as their process reads them. -/
def Event.Leaves (s : System) (j page : ℕ) : Event → Prop
  | .fork _ => j ≠ s.procs.length
  | .write i addr _ => Apart s i (addr / pageSize) j page
  | .exit i => j ≠ i
  | .settle _ => True

theorem Consistent.step {event : Event} (hcons : Consistent kept s) (hallowed : event.Allowed s) :
    Isolates kept s (s.step event) fun j page => event.Leaves s j page := by
  cases event with
  | fork i => exact (hcons.fork hallowed).1
  | write i addr byte => exact hcons.write i addr byte
  | exit i => exact hcons.exit i
  | settle k => exact (hcons.settle k).mono fun _ _ _ => trivial

theorem Consistent.run {s₀ : System} (hstart : Consistent kept s₀)
    (hrun : Reaches (guarded (fun s event => Event.Allowed s event) System.Step) s₀ s) :
    Consistent kept s :=
  hrun.kept hstart fun hcons hallowed => (hcons.step hallowed).consistent

/-- Neither a store of process `j` to the page nor the teardown of `j`. -/
def Event.Spares (j page : ℕ) : Event → Prop
  | .write i addr _ => (i, addr / pageSize) ≠ (j, page)
  | .exit i => i ≠ j
  | _ => True

/-- What a run that spares a private page does not change. -/
structure Untouched (kept : ℕ → Prop) (s₀ : System) (j page : ℕ) (s : System) :
    Prop where
  consistent : Consistent kept s
  slot : j < s.procs.length
  private_page : s.sharedPage j page = false
  reads : ∀ addr, addr / pageSize = page → s.readByte j addr = s₀.readByte j addr

theorem Untouched.step {s₀ : System} {event : Event}
    (hpage : Untouched kept s₀ j page s) (hallowed : event.Allowed s)
    (hspares : event.Spares j page) : Untouched kept s₀ j page (s.step event) := by
  have hstep := hpage.consistent.step hallowed
  have hleaves : event.Leaves s j page := by
    cases event with
    | fork i => exact hpage.slot.ne
    | write i addr byte => exact ⟨hspares, .inr hpage.private_page⟩
    | exit i => exact Ne.symm hspares
    | settle k => trivial
  refine ⟨hstep.consistent, hpage.slot.trans_le hstep.slots,
    (hstep.shared j page hleaves).trans hpage.private_page, fun addr haddr => ?_⟩
  subst haddr
  exact (hstep.reads j addr hleaves).trans (hpage.reads addr rfl)

/-- Copy-on-write isolation, from every state that a run reaches: exact reference
counts, private stores that no other process sees, private pages that keep their
bytes until their process stores to them, and a child that starts with the bytes
of its parent. -/
theorem cow_isolation {s₀ : System} (hstart : Consistent kept s₀)
    (hrun : Reaches (guarded (fun s event => Event.Allowed s event) System.Step) s₀ s) :
    (∀ f, pmmGetFrameRefcount s.pmm (f * pageSize) =
      s.userPtes f + s.tableUses f + s.pending.count f) ∧
    (∀ i addr byte, s.sharedPage i (addr / pageSize) = false →
      ∀ j x, j ≠ i → (s.write i addr byte).readByte j x = s.readByte j x) ∧
    (∀ j page, j < s.procs.length → s.sharedPage j page = false → ∀ s',
      Reaches (guarded (fun s event => Event.Allowed s event ∧ event.Spares j page)
        System.Step) s s' →
      ∀ addr, addr / pageSize = page → s'.readByte j addr = s.readByte j addr) ∧
    (∀ i, Event.Allowed s (.fork i) → (s.fork i).procs.length ≠ s.procs.length →
      ∀ addr, (s.fork i).readByte s.procs.length addr = s.readByte i addr) := by
  have hcons := hstart.run hrun
  refine ⟨hcons.holds.refcount, ?_, ?_, ?_⟩
  · intro i addr byte hprivate j x hji
    refine (hcons.write i addr byte).reads j x ⟨?_, .inl hprivate⟩
    exact fun heq => hji (congrArg Prod.fst heq).symm
  · intro j page hslot hprivate s' hrun' addr haddr
    have hfirst : Untouched kept s j page s := ⟨hcons, hslot, hprivate, fun _ _ => rfl⟩
    have hlast : Untouched kept s j page s' :=
      hrun'.kept hfirst fun hpage hfits => hpage.step hfits.1 hfits.2
    exact hlast.reads addr haddr
  · intro i hallowed hmore
    exact (hcons.fork hallowed).2 hmore

/-! ## Small systems -/

/-- A pool of twelve frames: frame `0` holds the metadata, the frames after it
have the given reference counts and the others are free. -/
def smallPool (counts : List ℕ) : PmmState where
  mem x :=
    if x < 2 then Fin.ofNat 256 ((2 ^ (counts.length + 1) - 1) / 256 ^ x)
    else if x % 4 = 2 then Fin.ofNat 256 ((0 :: counts).getD (x / 4) 0)
    else 0
  bitmap := 0
  refcount := 2
  nframes := 12
  freeFrames := 11 - counts.length

/-- An address space with one writable page, at address `0`. -/
def onePage (table frame : ℕ) : Pml4 :=
  ⟨table, [some ⟨table + 1, [some ⟨table + 2, [some ⟨table + 3,
    [some ⟨frame, true, true, false⟩]⟩]⟩]⟩]⟩

/-- One process with one page, in a shared area or not. -/
def oneProcess (shared : Bool) : System where
  pmm := smallPool [1, 1, 1, 1, 1]
  procs := [some ⟨onePage 1 5, fun _ => shared⟩]
  pending := []

theorem find_single {Entry : Type} {level : Level Entry} {frame : ℕ} {entry : Entry}
    (hfind : (tableLevel level).find ⟨frame, [some entry]⟩ page = some e) :
    page / level.span = 0 ∧ level.find entry (page % level.span) = some e := by
  obtain ⟨entry', hslot, hleaf⟩ := bind_eq_some_iff.mp hfind
  by_cases hzero : page / level.span = 0
  · rw [hzero] at hslot
    simp only [getD_cons_zero, some.injEq] at hslot
    exact ⟨hzero, hslot ▸ hleaf⟩
  · obtain ⟨k, hk⟩ := Nat.exists_eq_succ_of_ne_zero hzero
    simp [hk] at hslot

theorem oneProcess_userPte {shared : Bool}
    (hpte : (oneProcess shared).userPte i page = some e) : (i, page) = (0, 0) := by
  obtain ⟨p, hproc, hleaf, _⟩ := userPte_proc hpte
  have hi : i = 0 := by
    by_contra hne
    obtain ⟨k, rfl⟩ := Nat.exists_eq_succ_of_ne_zero hne
    simp [System.proc, oneProcess] at hproc
  subst hi
  have hp : p.root = onePage 1 5 := by
    simp only [System.proc, oneProcess, getD_cons_zero, some.injEq] at hproc
    rw [← hproc]
  rw [hp] at hleaf
  obtain ⟨hpml4, hpdpt⟩ := find_single hleaf
  obtain ⟨hpdpt, hpd⟩ := find_single hpdpt
  obtain ⟨hpd, hpt⟩ := find_single hpd
  obtain ⟨hpt, _⟩ := find_single hpt
  simp only [tableLevel, pteLevel] at hpml4 hpdpt hpd hpt
  have hpage : page = 0 := by omega
  rw [hpage]

theorem oneProcess_refs (shared : Bool) (f : ℕ) :
    (oneProcess shared).tableUses f = [4, 3, 2, 1].count f ∧
      (oneProcess shared).refs f = [5, 4, 3, 2, 1].count f := by
  constructor
  · rfl
  · show [5].count f + [4, 3, 2, 1].count f + [].count f = _
    rw [← count_append, count_nil]
    rfl

theorem oneProcess_consistent (shared : Bool) :
    Consistent (· = 0) (oneProcess shared) where
  holds :=
    { layout := (by decide : 0 + 12 / 8 ≤ 2)
      frames_le := (by decide : 12 ≤ 2 ^ 32)
      zero := rfl
      metadata := by
        intro x hx _
        have hlt : x < 2 + 4 * 12 := hx.2
        simp only [pageSize]
        omega
      pool := by
        intro f hf
        rw [(oneProcess_refs shared f).2, ← Nat.pos_iff_ne_zero, count_pos_iff] at hf
        have hlt : f < 12 ∧ f ≠ 0 := by
          simp only [mem_cons, not_mem_nil, or_false] at hf
          omega
        exact hlt
      bit := by cases shared <;> decide +kernel
      ref := by
        have href : ∀ f < 12, f ≠ 0 → (oneProcess shared).pmm.ref f =
            (oneProcess shared).refs f := by
          cases shared <;> decide +kernel
        exact fun f hne hlt => href f hlt hne
      free := by cases shared <;> decide +kernel }
  tables := by
    intro f hf
    rw [(oneProcess_refs shared f).1, ← Nat.pos_iff_ne_zero, count_pos_iff] at hf
    rw [(oneProcess_refs shared f).2]
    simp only [mem_cons, not_mem_nil, or_false] at hf
    rcases hf with rfl | rfl | rfl | rfl <;> decide
  exclusive := by
    intro i j page page' e e' hx hy hne
    exact absurd ((oneProcess_userPte hx).trans (oneProcess_userPte hy).symm) hne

theorem oneProcess_fork_allowed (shared : Bool) : Event.Allowed (oneProcess shared) (.fork 0) := by
  intro p hproc f
  have hp : (oneProcess shared).proc 0 = some ⟨onePage 1 5, fun _ => shared⟩ := rfl
  rw [hp, some.injEq] at hproc
  subst hproc
  rw [(oneProcess_consistent shared).holds.refcount, (oneProcess_refs shared f).2]
  have hcount := @count_le_length ℕ _ f [5, 4, 3, 2, 1]
  have hlength : (rootLevel.frames (onePage 1 5)).length = 5 := rfl
  simp only [length_cons, length_nil] at hcount
  simp only [hlength]
  omega

/-- After a fork of a process with a private page the child stores to it, and
the parent still reads `0`. -/
theorem cow_isolation_after_fork : Consistent (· = 0) (oneProcess false) ∧
      Event.Allowed (oneProcess false) (.fork 0) ∧
      ((oneProcess false).fork 0).procs.length = 2 ∧
      ((oneProcess false).fork 0).readByte 0 0 = some 0 ∧
      (((oneProcess false).fork 0).write 1 0 7).readByte 1 0 = some 7 ∧
      (((oneProcess false).fork 0).write 1 0 7).readByte 0 0 =
        ((oneProcess false).fork 0).readByte 0 0 := by
  have hstart := oneProcess_consistent false
  have hallowed := oneProcess_fork_allowed false
  have hrun : Reaches (guarded (fun s event => Event.Allowed s event) System.Step)
      (oneProcess false) ((oneProcess false).fork 0) :=
    (Reaches.refl _ _).tail ⟨hallowed, rfl⟩
  have hprivate : ((oneProcess false).fork 0).sharedPage 1 (0 / pageSize) = false := by
    decide +kernel
  exact ⟨hstart, hallowed, by decide +kernel, by decide +kernel, by decide +kernel,
    (cow_isolation hstart hrun).2.1 1 0 7 hprivate 0 0 (by decide)⟩

/-- Two processes that map frame `5` writable outside shared areas. -/
def twoWriters : System where
  pmm := smallPool [1, 1, 1, 1, 2, 1, 1, 1, 1]
  procs := [some ⟨onePage 1 5, fun _ => false⟩, some ⟨onePage 6 5, fun _ => false⟩]
  pending := []

/-- A page of a shared area is not kept for the parent: the child's store
changes it.  And reference counts that equal the number of user leaves do not
make a start state: where two processes already map a frame writable, a private
store of one is read by the other. -/
theorem cow_isolation_shared_and_bad_start : (Consistent (· = 0) (oneProcess true) ∧
      Event.Allowed (oneProcess true) (.fork 0) ∧
      ((oneProcess true).fork 0).readByte 0 0 = some 0 ∧
      (((oneProcess true).fork 0).write 1 0 7).readByte 0 0 = some 7) ∧
    ((∀ f < twoWriters.pmm.nframes, twoWriters.userPtes f ≠ 0 →
        pmmGetFrameRefcount twoWriters.pmm (f * pageSize) = twoWriters.userPtes f) ∧
      twoWriters.sharedPage 0 0 = false ∧
      twoWriters.readByte 1 0 = some 0 ∧
      (twoWriters.write 0 0 7).readByte 1 0 = some 7) := by
  refine ⟨⟨oneProcess_consistent true, oneProcess_fork_allowed true, ?_, ?_⟩, ?_, ?_, ?_, ?_⟩
  all_goals decide +kernel

end AuraLite.Paging

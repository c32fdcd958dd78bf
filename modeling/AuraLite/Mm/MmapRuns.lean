import AuraLite.Mm.Mmap

/-!
# The areas of a process over its whole life

`mmap` and `shmat` look for room among the present page-table entries, not in
the list of areas.  The list stays well formed in every run in which the areas
above the point where they start to look have been touched; without that an
area can be inserted over another one.
-/

namespace AuraLite.Mmap

open IntervalList Pmm Reachability Word64

variable {p p' : Process} {s : Space} {env : Env} {pages : ℕ → ℕ}
variable {addr len start candidate found fuel : ℕ} {v : Vma} {list : List Vma}

/-- What every call preserves. -/
structure Process.Tidy (p : Process) : Prop where
  areas : Areas p.vmas
  aligned : ∀ v ∈ p.vmas, v.Aligned
  next : p.mmapNext ≤ 2 ^ 47
  attached : ∀ a ∈ p.attachments, pageSize ∣ a.va

/-! ## Free ranges -/

theorem userRangeIsFree_page (hfree : userRangeIsFree pages addr len = true)
    (haddr : pageSize ∣ addr) {page : ℕ} (hlow : addr ≤ page * pageSize)
    (hhigh : page * pageSize < addr + len) : pages page = 0 := by
  obtain ⟨first, rfl⟩ := haddr
  rw [userRangeIsFree, List.all_eq_true] at hfree
  have hfirst : first ≤ page :=
    Nat.le_of_mul_le_mul_right (Nat.mul_comm pageSize first ▸ hlow) (by decide)
  have hcount : page - first < (len + (pageSize - 1)) / pageSize := by
    simp only [pageSize] at *
    omega
  have hpage : (pageSize * first + (page - first) * pageSize) / pageSize = page := by
    simp only [pageSize]
    omega
  have hzero := hfree (page - first) (List.mem_range.mpr hcount)
  rw [hpage] at hzero
  exact beq_iff_eq.mp hzero

/-- A range without present pages meets no area whose pages in the range are all
present. -/
theorem outside_of_free (hv : v.Aligned) (haddr : pageSize ∣ addr) (hlen : 0 < len)
    (hfree : userRangeIsFree pages addr len = true)
    (hpresent : ∀ page, v.contains (page * pageSize) = true →
      addr ≤ page * pageSize → page * pageSize < addr + len → pages page ≠ 0)
    (hnonempty : v.vaStart < v.vaEnd) : Outside addr (addr + len) v := by
  by_contra hmeets
  rw [Outside, Clear, not_or, not_le, not_le] at hmeets
  obtain ⟨first, hfirst⟩ := haddr
  obtain ⟨low, hlow⟩ := hv.1
  -- the first page of the area that lies in the range
  have hpage : max first low * pageSize = max addr v.vaStart := by
    rw [hfirst, hlow, Nat.mul_comm, Nat.mul_max_mul_left]
  have hin : v.contains (max first low * pageSize) = true := by
    rw [hpage, Vma.contains, decide_eq_true_eq]
    omega
  have hlowBound : addr ≤ max first low * pageSize := by omega
  have hhighBound : max first low * pageSize < addr + len := by omega
  exact hpresent _ hin hlowBound hhighBound
    (userRangeIsFree_page hfree ⟨first, hfirst⟩ hlowBound hhighBound)

theorem mmapSearch_some (hlen : len ≤ userMmapMax) (hstart : candidate ≤ 2 ^ 48)
    (haligned : pageSize ∣ candidate) (hsize : pageSize ∣ len)
    (hfound : mmapSearch pages len fuel candidate = some found) :
    candidate ≤ found ∧ pageSize ∣ found ∧ found + len ≤ userMmapMax ∧
      userRangeIsFree pages found len = true := by
  induction fuel generalizing candidate with
  | zero => simp [mmapSearch] at hfound
  | succ fuel ih =>
    have hmax : userMmapMax < 2 ^ 47 := by decide
    have hwrap : wrap64 (candidate + len) = candidate + len := wrap64_of_lt (by omega)
    rw [mmapSearch, hwrap] at hfound
    split_ifs at hfound with hwindow hfree hlast
    · rw [← Option.some.inj hfound]
      exact ⟨le_rfl, haligned, hwindow.2, hfree⟩
    · obtain ⟨hle, hrest⟩ := ih (by omega) (Nat.dvd_add haligned hsize) hfound
      exact ⟨(Nat.le_add_right _ _).trans hle, hrest⟩

theorem shmScan_some (hlen : len ≤ 2 ^ 47) (hstart : candidate ≤ 2 ^ 48)
    (haligned : pageSize ∣ candidate)
    (hfound : shmScan pages len fuel candidate = some found) :
    candidate ≤ found ∧ pageSize ∣ found ∧ found + len ≤ 0x7FFFFFFFFFFF ∧
      userRangeIsFree pages found len = true := by
  induction fuel generalizing candidate with
  | zero => simp [shmScan] at hfound
  | succ fuel ih =>
    have hpage : pageSize = 4096 := rfl
    have hwrap : wrap64 (candidate + len) = candidate + len := wrap64_of_lt (by omega)
    have hnext : wrap64 (candidate + pageSize) = candidate + pageSize := wrap64_of_lt (by omega)
    rw [shmScan, hwrap, hnext] at hfound
    split_ifs at hfound with hwindow hfree
    · rw [← Option.some.inj hfound]
      exact ⟨le_rfl, haligned, hwindow.2, hfree⟩
    · have hbound : candidate + pageSize ≤ 2 ^ 48 := by omega
      obtain ⟨hle, hrest⟩ := ih hbound (Nat.dvd_add haligned (Nat.dvd_refl _)) hfound
      exact ⟨(Nat.le_add_right _ _).trans hle, hrest⟩

theorem alignUp_le_start {value : ℕ} (hvalue : value ≤ 2 ^ 47) :
    alignUp value pageSize ≤ 2 ^ 48 := by
  have hpage : pageSize = 4096 := rfl
  rw [alignUp_of_lt (by omega), hpage]
  omega

theorem Process.Tidy.mmapStart_le (htidy : p.Tidy) (addr : ℕ) : p.mmapStart addr ≤ 2 ^ 48 := by
  have hnext := htidy.next
  have hmax : userMmapMax ≤ 2 ^ 47 := by decide
  have hbase : userMmapBase ≤ 2 ^ 47 := by decide
  apply alignUp_le_start
  split_ifs <;> omega

theorem Process.Tidy.shmStart_le (htidy : p.Tidy) : p.shmStart ≤ 2 ^ 48 := by
  have hnext := htidy.next
  have hbase : userMmapBase ≤ 2 ^ 47 := by decide
  apply alignUp_le_start
  split_ifs <;> omega

/-! ## The list after one call -/

theorem Process.Tidy.discard (htidy : p.Tidy) (haddr : pageSize ∣ addr)
    (hlen : pageSize ∣ len) (slab : List Bool) :
    (p.discard addr len slab).1.Tidy :=
  ⟨vmaRemoveRange_areas htidy.areas (Nat.le_add_right _ _) slab,
    vmaRemoveRange_aligned htidy.aligned haddr (Nat.dvd_add haddr hlen) slab,
    htidy.next, htidy.attached⟩

theorem Process.Tidy.link (htidy : p.Tidy) {new : Vma}
    (hnew : new.vaStart < new.vaEnd) (haligned : new.Aligned)
    (houtside : ∀ v ∈ p.vmas, Outside new.vaStart new.vaEnd v) :
    { p with vmas := vmaLink p.vmas new, pages := pages }.Tidy := by
  refine ⟨htidy.areas.insert hnew houtside, fun v hv => ?_, htidy.next, htidy.attached⟩
  rcases mem_vmaLink.mp hv with rfl | hv
  · exact haligned
  · exact htidy.aligned v hv

/-- The area that `mmap` inserts has the bounds it was called for. -/
theorem mmapVmas_ok {prot flags fd off : ℕ} {slab : List Bool}
    (hvmas : p.mmapVmas env addr len prot flags fd off slab = .ok list) :
    ∃ new : Vma, new.vaStart = addr ∧ new.vaEnd = addr + len ∧ list = vmaLink p.vmas new := by
  simp only [Process.mmapVmas] at hvmas
  generalize (if hasFlag flags mapAnonymous then none else env.files fd) = file at hvmas
  split_ifs at hvmas with hbad hshared
  · cases hshmem : env.shmem with
    | none => simp [hshmem] at hvmas
    | some shmid =>
      rw [hshmem, Option.bind_some] at hvmas
      split at hvmas
      · simp at hvmas
      · rename_i vmas hinsert
        rw [← Except.ok.inj hvmas]
        exact ⟨_, rfl, rfl, vmaInsertShmem_some hinsert⟩
  · split at hvmas
    · simp at hvmas
    · rename_i vmas hinsert
      rw [← Except.ok.inj hvmas]
      exact ⟨_, rfl, rfl, vmaInsert_some hinsert⟩

theorem Process.Tidy.mmapInsert (htidy : p.Tidy) (haddr : pageSize ∣ addr)
    (hlen : pageSize ∣ len) (hpos : 0 < len)
    (houtside : ∀ v ∈ p.vmas, Outside addr (addr + len) v)
    (env : Env) (prot flags fd off : ℕ) (slab : List Bool) (freed : List ℕ) :
    (p.mmapInsert env addr len prot flags fd off slab freed).proc.Tidy := by
  rw [Process.mmapInsert]
  cases hvmas : p.mmapVmas env addr len prot flags fd off slab with
  | error e => exact htidy
  | ok vmas =>
    obtain ⟨new, hstart, hstop, rfl⟩ := mmapVmas_ok hvmas
    refine htidy.link (by omega) ⟨hstart ▸ haddr, hstop ▸ Nat.dvd_add haddr hlen⟩ ?_
    rw [hstart, hstop]
    exact houtside

/-! ## Calls -/

/-- Every page of an area that lies in `range` has been touched. -/
def Process.Touched (p : Process) (range : ℕ → Prop) : Prop :=
  ∀ v ∈ p.vmas, ∀ page, v.contains (page * pageSize) = true →
    range (page * pageSize) → p.pages page ≠ 0

/-- The condition on the calls that look for room: all pages of areas at or above
the address where `mmap` or `shmat` start to look, and those under a hint of
`shmat`, are present; the hint is page aligned; and `MAP_FIXED` gets the two
nodes it may need. -/
def Call.Fits (s : Space) : Call → Prop
  | .mmap env addr _ _ flags _ _ =>
    if hasFlag flags mapFixed then env.slab.take 2 = [true, true]
    else s.proc.Touched fun va => s.proc.mmapStart addr ≤ va
  | .shmat _ shmid shmaddr shmflg =>
    let hint := shmHint shmaddr (hasFlag shmflg 0x2000)
    pageSize ∣ hint ∧ ∀ m, s.shms shmid = some m → s.proc.Touched fun va =>
      s.proc.shmStart ≤ va ∨ (hint ≠ 0 ∧ hint ≤ va ∧ va < hint + m.size)
  | _ => True

theorem Shm.size_spec (m : Shm) : pageSize ∣ m.size ∧ 0 < m.size ∧ m.size ≤ 2 ^ 25 := by
  have hpos := List.length_pos_of_ne_nil m.nonempty
  have hle := m.bounded
  refine ⟨Nat.dvd_mul_left _ _, Nat.mul_pos hpos (by decide), ?_⟩
  simp only [Shm.size, pageSize]
  omega

section

variable (htidy : p.Tidy)
include htidy

theorem Process.Tidy.outside {range : ℕ → Prop}
    (htouched : p.Touched range) (haddr : pageSize ∣ addr) (hpos : 0 < len)
    (hfree : userRangeIsFree p.pages addr len = true)
    (hrange : ∀ va, addr ≤ va → va < addr + len → range va) :
    ∀ v ∈ p.vmas, Outside addr (addr + len) v :=
  fun v hv => outside_of_free (htidy.aligned v hv) haddr hpos hfree
    (fun page hin hlow hhigh => htouched v hv page hin (hrange _ hlow hhigh))
    (htidy.areas.nonempty v hv)

theorem Process.Tidy.mmap (env : Env) (addr len prot flags fd off : ℕ)
    (hfits : if hasFlag flags mapFixed then env.slab.take 2 = [true, true]
      else p.Touched fun va => p.mmapStart addr ≤ va) :
    (syscallMmap p env addr len prot flags fd off).proc.Tidy := by
  have hsize := dvd_alignUp len pageSize
  rw [syscallMmap]
  generalize alignUp len pageSize = size at hsize
  simp only
  split_ifs with hbad hrange hfixed haddr hwindow
  · exact htidy
  · exact htidy
  · exact htidy
  · exact htidy
  · -- `MAP_FIXED` cuts the range out first
    rw [if_pos hfixed] at hfits
    have hpos : 0 < size := Nat.pos_of_ne_zero fun hzero => hrange (.inl hzero)
    have haligned : pageSize ∣ addr := Nat.dvd_of_mod_eq_zero (not_not.mp haddr)
    obtain ⟨rest, hslab⟩ : ∃ rest, env.slab = true :: true :: rest :=
      ⟨env.slab.drop 2, by rw [← List.take_append_drop 2 env.slab, hfits]; simp⟩
    refine (htidy.discard haligned hsize env.slab).mmapInsert haligned hsize hpos ?_
      env prot flags fd off _ _
    rw [hslab]
    exact vmaRemoveRange_outside htidy.areas
  · rw [if_neg hfixed] at hfits
    have hpos : 0 < size := Nat.pos_of_ne_zero fun hzero => hrange (.inl hzero)
    cases hsearch : mmapSearch p.pages size (userMmapMax / pageSize) (p.mmapStart addr) with
    | none => exact htidy
    | some found =>
      have hmax : userMmapMax < 2 ^ 47 := by decide
      obtain ⟨hlow, haligned, hhigh, hfree⟩ := mmapSearch_some (by omega)
        (htidy.mmapStart_le addr) (dvd_alignUp _ _) hsize hsearch
      have hnext : { p with mmapNext := found + size }.Tidy :=
        { htidy with next := (show found + size ≤ 2 ^ 47 by omega) }
      exact hnext.mmapInsert haligned hsize hpos
        (htidy.outside hfits haligned hpos hfree fun va hva _ => hlow.trans hva)
        env prot flags fd off _ _

theorem Process.Tidy.munmap (env : Env) (addr len : ℕ) :
    (syscallMunmap p env addr len).proc.Tidy := by
  rw [syscallMunmap]
  simp only
  split_ifs with hbad
  · exact htidy
  · rw [not_or, not_or, not_not] at hbad
    exact htidy.discard (Nat.dvd_of_mod_eq_zero hbad.2.1) (dvd_alignUp _ _) env.slab

theorem Process.Tidy.mprotect (addr len prot : ℕ) :
    (syscallMprotect p addr len prot).proc.Tidy := by
  rw [syscallMprotect]
  split_ifs with hbad
  · exact htidy
  · cases hupdate : mprotectUpdateVmaRange p.vmas addr (alignUp len pageSize) prot with
    | none => exact htidy
    | some vmas =>
      obtain ⟨hareas, haligned⟩ := areas_of_bounds
        (mprotectUpdateVmaRange_bounds hupdate) htidy.areas htidy.aligned
      exact ⟨hareas, haligned, htidy.next, htidy.attached⟩

/-- The address `shmat` chooses lies on a page boundary and meets no area. -/
theorem Process.Tidy.shmAllocAddr {hint next : ℕ} {rnd : Bool}
    {m : Shm} (hhint : pageSize ∣ shmHint hint rnd)
    (htouched : p.Touched fun va => p.shmStart ≤ va ∨
      (shmHint hint rnd ≠ 0 ∧ shmHint hint rnd ≤ va ∧ va < shmHint hint rnd + m.size))
    (halloc : p.shmAllocAddr hint m.size rnd = some (addr, next)) :
    pageSize ∣ addr ∧ next ≤ 2 ^ 47 ∧ ∀ v ∈ p.vmas, Outside addr (addr + m.size) v := by
  obtain ⟨_, hpos, hsmall⟩ := m.size_spec
  rw [Process.shmAllocAddr] at halloc
  split_ifs at halloc with hused
  · obtain ⟨rfl, rfl⟩ := Prod.mk.inj (Option.some.inj halloc)
    exact ⟨hhint, htidy.next, htidy.outside htouched hhint hpos hused.2
      fun va hlow hhigh => .inr ⟨hused.1, hlow, hhigh⟩⟩
  · obtain ⟨found, hscan, heq⟩ := Option.map_eq_some_iff.mp halloc
    obtain ⟨rfl, rfl⟩ := Prod.mk.inj heq
    obtain ⟨hlow, haligned, hhigh, hfree⟩ := shmScan_some (by omega)
      htidy.shmStart_le (dvd_alignUp _ _) hscan
    exact ⟨haligned, by omega, htidy.outside htouched haligned hpos hfree
      fun va hva _ => .inl (hlow.trans hva)⟩

theorem Process.Tidy.with_pages (pages : ℕ → ℕ) : { p with pages := pages }.Tidy :=
  { htidy with }

theorem Process.Tidy.fault (env : Env) (cr2 : ℕ)
    (write exec : Bool) (phys : ℕ) : (p.fault env cr2 write exec phys).Tidy := by
  rw [Process.fault]
  split
  · exact htidy
  · split_ifs
    · exact htidy
    · exact htidy.with_pages _

theorem Process.Tidy.cowFault (page phys : ℕ) : (p.cowFault page phys).Tidy := by
  rw [Process.cowFault]
  split_ifs
  · exact htidy
  · exact htidy.with_pages _

end

theorem Process.Tidy.shmAttach (htidy : s.proc.Tidy) {m : Shm} {va next : ℕ}
    (haligned : pageSize ∣ va) (hnext : next ≤ 2 ^ 47)
    (houtside : ∀ v ∈ s.proc.vmas, Outside va (va + m.size) v) (env : Env)
    (shmid shmflg : ℕ) : (s.shmAttach env shmid shmflg m va next).2.proc.Tidy := by
  obtain ⟨hsize, hpos, _⟩ := m.size_spec
  have hmoved : ∀ pages, { s.proc with mmapNext := next, pages := pages }.Tidy :=
    fun pages => { htidy with next := hnext }
  simp only [Space.shmAttach]
  generalize hflags : vmaShared ||| vmaRead |||
    (if hasFlag shmflg 0x1000 then 0 else vmaWrite) = vflags
  cases hinsert : vmaInsert s.proc.vmas ⟨va, va + m.size, vflags, none, 0, 0⟩ env.slab with
  | mk inserted slab =>
    cases inserted with
    | none => exact hmoved _
    | some vmas =>
      have hlinked : ∀ pages,
          { s.proc with vmas := vmas, mmapNext := next, pages := pages }.Tidy := by
        intro pages
        rw [vmaInsert_some (congrArg Prod.fst hinsert)]
        exact (hmoved pages).link (Nat.lt_add_of_pos_right hpos)
          ⟨haligned, Nat.dvd_add haligned hsize⟩ houtside
      simp only
      split_ifs
      · have hlinked := hlinked (mapSegment env.tables va m.pages s.proc.pages)
        refine { hlinked with attached := fun a ha => ?_ }
        rcases List.mem_cons.mp ha with rfl | ha
        · exact haligned
        · exact htidy.attached a ha
      · exact { (hlinked s.proc.pages).discard haligned hsize slab with }

theorem Process.Tidy.shmat (htidy : s.proc.Tidy) (env : Env) (shmid shmaddr shmflg : ℕ)
    (hfits : Call.Fits s (.shmat env shmid shmaddr shmflg)) :
    (sysvShmat s env shmid shmaddr shmflg).2.proc.Tidy := by
  obtain ⟨hhint, htouched⟩ := hfits
  rw [sysvShmat]
  cases hm : (if shmid < 32 then s.shms shmid else none) with
  | none => exact htidy
  | some m =>
    have hshm : s.shms shmid = some m := by
      split_ifs at hm
      exact hm
    simp only
    split_ifs
    · exact htidy
    · cases halloc : s.proc.shmAllocAddr shmaddr m.size (hasFlag shmflg 0x2000) with
      | none => exact htidy
      | some chosen =>
        obtain ⟨haligned, hnext, houtside⟩ := htidy.shmAllocAddr hhint (htouched m hshm) halloc
        exact htidy.shmAttach haligned hnext houtside env shmid shmflg

theorem Process.Tidy.shmdt (htidy : s.proc.Tidy) (env : Env) (shmaddr : ℕ) :
    (sysvShmdt s env shmaddr).2.proc.Tidy := by
  rw [sysvShmdt]
  cases hfind : s.proc.attachments.find? (·.va == shmaddr) with
  | none => exact htidy
  | some a =>
    have hattached : ∀ b ∈ s.proc.attachments.erase a, pageSize ∣ b.va :=
      fun b hb => htidy.attached b (List.mem_of_mem_erase hb)
    simp only
    split
    · exact { htidy with attached := hattached }
    · rename_i m _
      have hva := htidy.attached a (List.mem_of_find?_eq_some hfind)
      exact { htidy.discard hva m.size_spec.1 env.slab with attached := hattached }

theorem Process.Tidy.call (htidy : s.proc.Tidy) {call : Call}
    (hfits : call.Fits s) : (s.call call).proc.Tidy := by
  cases call with
  | mmap env addr len prot flags fd off =>
    exact htidy.mmap env addr len prot flags fd off hfits
  | munmap env addr len => exact htidy.munmap env addr len
  | mprotect addr len prot => exact htidy.mprotect addr len prot
  | shmat env shmid shmaddr shmflg => exact htidy.shmat env shmid shmaddr shmflg hfits
  | shmdt env shmaddr => exact htidy.shmdt env shmaddr
  | fault env cr2 write exec phys => exact htidy.fault env cr2 write exec phys
  | cowFault page phys => exact htidy.cowFault page phys
  | segments shms => exact htidy

/-- In every run whose calls meet the condition the list of areas stays sorted,
disjoint and without empty areas, and an address lies in at most one area. -/
theorem vma_list_wellFormed {s₀ : Space} (hstart : s₀.proc.Tidy)
    (hrun : Reaches (guarded (fun s call => Call.Fits s call) Space.Step) s₀ s) :
    WellFormed s.proc.vmas ∧ ∀ va, ∀ v ∈ s.proc.vmas, ∀ w ∈ s.proc.vmas,
        v.contains va = true → w.contains va = true → v = w := by
  have htidy : s.proc.Tidy :=
    @Reaches.kept _ _ _ _ _ _ (fun s => s.proc.Tidy) hrun hstart fun htidy hfits =>
      htidy.call hfits
  refine ⟨wellFormed_iff.mpr htidy.areas, fun va v hv w hw hinV hinW => ?_⟩
  exact htidy.areas.unique hv hw (of_decide_eq_true hinV) (of_decide_eq_true hinW)

/-! ## Two calls without a touch in between -/

def emptySpace : Space where
  proc := ⟨[], 0, fun _ => 0, []⟩
  shms _ := none

/-- A kernel with memory to spare and no open files. -/
def plainEnv : Env where
  slab := [true, true, true]
  files _ := none
  shmem := none
  frames := []
  tables _ := true
  permitted := true
  kmalloc := true

/-- An anonymous private mapping of one page. -/
def mapOnePage (addr : ℕ) : Call :=
  .mmap plainEnv addr 4096 3 (mapPrivate ||| mapAnonymous) 0 0

theorem emptySpace_tidy : emptySpace.proc.Tidy :=
  ⟨.nil, by simp [emptySpace], by decide, by simp [emptySpace]⟩

/-- The process after its first mapping, whose page it has touched. -/
def touchedSpace : Space :=
  (emptySpace.call (mapOnePage 0)).call
    (.fault plainEnv userMmapBase false false 4096)

/-- After the page has been touched, a second mapping with the same hint goes
above it. -/
theorem vma_list_wellFormed_touched : emptySpace.proc.Tidy ∧
      Reaches (guarded (fun s call => Call.Fits s call) Space.Step) emptySpace
        (touchedSpace.call (mapOnePage userMmapBase)) ∧
      (touchedSpace.call (mapOnePage userMmapBase)).proc.vmas.length = 2 ∧
      WellFormed (touchedSpace.call (mapOnePage userMmapBase)).proc.vmas := by
  have hfirst : Call.Fits emptySpace (mapOnePage 0) := by
    intro v hv
    simp [emptySpace] at hv
  have hfault : Call.Fits (emptySpace.call (mapOnePage 0))
      (.fault plainEnv userMmapBase false false 4096) := trivial
  have htouched : Call.Fits touchedSpace (mapOnePage userMmapBase) := by
    have hvmas : touchedSpace.proc.vmas =
        [⟨userMmapBase, userMmapBase + 4096, 25, none, 0, 0⟩] := by decide +kernel
    have hpresent : touchedSpace.proc.pages (userMmapBase / pageSize) ≠ 0 := by
      decide +kernel
    show Process.Touched _ _
    intro v hv page hin _
    rw [hvmas, List.mem_singleton] at hv
    subst hv
    have hpage : page = userMmapBase / pageSize := by
      have hbounds := of_decide_eq_true hin
      simp only [userMmapBase, pageSize] at hbounds ⊢
      omega
    rw [hpage]
    exact hpresent
  have hrun : Reaches (guarded (fun s call => Call.Fits s call) Space.Step) emptySpace
      (touchedSpace.call (mapOnePage userMmapBase)) :=
    (((Reaches.refl _ _).tail ⟨hfirst, rfl⟩).tail ⟨hfault, rfl⟩).tail ⟨htouched, rfl⟩
  exact ⟨emptySpace_tidy, hrun, by decide +kernel, (vma_list_wellFormed emptySpace_tidy hrun).1⟩

/-- Before the page is touched, a second mapping with the first one's address as
its hint is put over it: both calls succeed and the list has the same range
twice. -/
theorem vma_list_overlaps_untouched :
    (syscallMmap emptySpace.proc plainEnv 0 4096 3 (mapPrivate ||| mapAnonymous) 0
        0).result = .ok userMmapBase ∧
      (syscallMmap (emptySpace.call (mapOnePage 0)).proc plainEnv userMmapBase 4096 3
        (mapPrivate ||| mapAnonymous) 0 0).result = .ok userMmapBase ∧
      ((emptySpace.call (mapOnePage 0)).call (mapOnePage userMmapBase)).proc.vmas.map
          (fun v => (v.vaStart, v.vaEnd)) =
        [(userMmapBase, userMmapBase + 4096), (userMmapBase, userMmapBase + 4096)] ∧
      ¬WellFormed ((emptySpace.call (mapOnePage 0)).call (mapOnePage userMmapBase)).proc.vmas := by
  refine ⟨rfl, rfl, by decide +kernel, fun hwell => ?_⟩
  have hsorted := hwell.sorted
  revert hsorted
  decide +kernel

end AuraLite.Mmap

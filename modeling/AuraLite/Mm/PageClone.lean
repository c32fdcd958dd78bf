import AuraLite.Mm.PageTree
import AuraLite.Mm.PmmPool

/-!
# Cloning the user half

The nested loops of `paging_clone_user_space`.  Every table of the parent gets a
new frame, every user leaf gets one more reference, and writable leaves outside
shared areas become read-only in both spaces.  A failure anywhere stops all
loops: the child keeps what was linked so far and the parent what was already
protected.
-/

namespace AuraLite.Paging

open List Option Pmm

/-- What cloning one entry left behind; `child` is the entry that was linked. -/
structure CloneResult (Entry : Type) where
  pmm : PmmState
  parent : Entry
  child : Option Entry
  ok : Bool

structure SlotsResult (Entry : Type) where
  pmm : PmmState
  parent : List (Option Entry)
  child : List (Option Entry)
  ok : Bool

/-- The flags of a cloned leaf, in the parent and in the child. -/
def protect (sharedVma : Bool) (e : Pte) : Pte :=
  if sharedVma = false ∧ (e.writable = true ∨ e.cow = true) then
    { e with writable := false, cow := true }
  else e

/-- The innermost loop body; `sharedVma` tells which pages lie in a `VMA_SHARED`
area of the parent. -/
def clonePte (sharedVma : ℕ → Bool) (page : ℕ) (e : Pte) (pmm : PmmState) :
    CloneResult Pte :=
  if e.user = false then ⟨pmm, e, none, true⟩
  else
    match pmmIncFrameRef pmm (e.frame * pageSize) with
    | (pmm, false) => ⟨pmm, e, none, false⟩
    | (pmm, true) =>
      let e := protect (sharedVma page) e
      ⟨pmm, e, some e, true⟩

variable {Entry : Type}

/-- The loop over the slots of one table, whose entries cover `span` pages. -/
def cloneSlots (span : ℕ) (clone : ℕ → Entry → PmmState → CloneResult Entry) :
    ℕ → List (Option Entry) → PmmState → SlotsResult Entry
  | _, [], pmm => ⟨pmm, [], [], true⟩
  | page, none :: rest, pmm =>
    let r := cloneSlots span clone (page + span) rest pmm
    ⟨r.pmm, none :: r.parent, none :: r.child, r.ok⟩
  | page, some e :: rest, pmm =>
    let c := clone page e pmm
    if c.ok then
      let r := cloneSlots span clone (page + span) rest c.pmm
      ⟨r.pmm, some c.parent :: r.parent, c.child :: r.child, r.ok⟩
    else
      ⟨c.pmm, some c.parent :: rest, c.child :: rest.map fun _ => none, false⟩

/-- One table: allocate its copy, link it, clone the slots. -/
def cloneTable (span : ℕ) (clone : ℕ → Entry → PmmState → CloneResult Entry)
    (page : ℕ) (t : Table Entry) (pmm : PmmState) : CloneResult (Table Entry) :=
  let new := pmmAllocFrame pmm
  if new.2 = 0 then ⟨new.1, t, none, false⟩
  else
    let r := cloneSlots span clone page t.slots new.1
    ⟨r.pmm, { t with slots := r.parent }, some ⟨new.2 / pageSize, r.child⟩, r.ok⟩

/-- `paging_clone_user_space`. -/
def cloneUserSpace (sharedVma : ℕ → Bool) :
    Pml4 → PmmState → CloneResult Pml4 :=
  cloneTable (512 ^ 3)
    (cloneTable (512 ^ 2) (cloneTable 512 (cloneTable 1 (clonePte sharedVma)))) 0

/-! ## What a clone has to do -/

/-- The frames of an entry that may be absent. -/
def Level.child (frames : Entry → List ℕ) (entry : Option Entry) : List ℕ :=
  (entry.map frames).getD []

/-- A leaf of the parent after a complete clone. -/
def protectUser (sharedVma : Bool) (e : Pte) : Pte :=
  if e.user then protect sharedVma e else e

/-- The leaf of the child, which only has user pages. -/
def cloneUser (sharedVma : Bool) (e : Pte) : Option Pte :=
  if e.user then some (protect sharedVma e) else none

/-- A page after a clone that may have stopped before it: as it was or protected, and after a
complete clone protected and with its copy in the child. -/
def PageCloned (sharedVma ok : Bool) (old new child : Option Pte) : Prop :=
  (new = old ∨ new = old.map (protectUser sharedVma)) ∧
    (ok = true → new = old.map (protectUser sharedVma) ∧ child = old.bind (cloneUser sharedVma))

/-- What is known about the references of a piece `old` of the parent, its new
state and the piece of the child. -/
structure Shares (kept : ℕ → Prop) (refs : ℕ → ℕ) (pmm pmm' : PmmState)
    (old leaves tables frames : List ℕ) (oldSize : ℕ) : Prop where
  holds : Holds pmm' kept fun f => refs f + frames.count f
  keeps : Keeps (FreeFrame pmm kept refs) pmm pmm'
  count : ∀ f, frames.count f = leaves.count f + tables.count f
  size : frames.length ≤ oldSize
  leaves_old : ∀ f ∈ leaves, f ∈ old
  tables_fresh : ∀ f ∈ tables, refs f = 0
  once : ∀ f, refs f = 0 → frames.count f ≤ 1

/-- A clone of `e`, whose pages start at `page`. -/
structure Cloned (level : Level Entry) (sharedVma : ℕ → Bool) (kept : ℕ → Prop)
    (refs : ℕ → ℕ) (page : ℕ) (e : Entry) (pmm : PmmState)
    (r : CloneResult Entry) : Prop where
  shares : Shares kept refs pmm r.pmm (level.leaves e)
    (Level.child level.leaves r.child) (Level.child level.tables r.child)
    (Level.child level.frames r.child) (level.frames e).length
  leaves : level.leaves r.parent = level.leaves e
  tables : level.tables r.parent = level.tables e
  pages : ∀ i < level.span, PageCloned (sharedVma (page + i)) r.ok (level.find e i)
    (level.find r.parent i) (r.child.bind (level.find · i))

/-- A cloning function is sound when it works on every entry whose leaves are
referenced, as long as no count can reach `2 ^ 32`. -/
def CloneSound (level : Level Entry) (sharedVma : ℕ → Bool)
    (clone : ℕ → Entry → PmmState → CloneResult Entry) : Prop :=
  ∀ kept refs page e pmm, Holds pmm kept refs →
    (∀ f ∈ level.leaves e, refs f ≠ 0) →
    (∀ f, refs f + (level.frames e).length < 2 ^ 32) →
    Cloned level sharedVma kept refs page e pmm (clone page e pmm)

variable {level : Level Entry} {sharedVma : ℕ → Bool} {kept : ℕ → Prop}
variable {refs : ℕ → ℕ} {pmm pmm' pmm'' : PmmState} {page : ℕ}
variable {old leaves tables tables' frames frames' : List ℕ}

/-! ## Leaves -/

theorem Pte.protect_frame (sharedVma : Bool) (e : Pte) : (protect sharedVma e).frame = e.frame ∧
      (protect sharedVma e).user = e.user := by
  rw [protect]
  split_ifs <;> exact ⟨rfl, rfl⟩

theorem Pte.protect_frames (sharedVma : Bool) (e : Pte) :
    (protect sharedVma e).frames = e.frames := by
  obtain ⟨hframe, huser⟩ := Pte.protect_frame sharedVma e
  rw [Pte.frames, Pte.frames, hframe, huser]

theorem Shares.nothing (hholds : Holds pmm kept refs) (old : List ℕ) (size : ℕ) :
    Shares kept refs pmm pmm old [] [] [] size where
  holds := hholds
  keeps := .refl _ _
  count _ := rfl
  size := Nat.zero_le _
  leaves_old := by simp
  tables_fresh := by simp
  once := by simp

theorem clonePte_sound (sharedVma : ℕ → Bool) :
    CloneSound pteLevel sharedVma (clonePte sharedVma) := by
  intro kept refs page e pmm hholds hmapped hroom
  by_cases huser : e.user = false
  · have hclone : clonePte sharedVma page e pmm = ⟨pmm, e, none, true⟩ := by
      rw [clonePte, if_pos huser]
    rw [hclone]
    refine ⟨Shares.nothing hholds _ _, rfl, rfl, fun i _ => ?_⟩
    simp [PageCloned, pteLevel, protectUser, cloneUser, huser]
  · have huser' : e.user = true := by simpa using huser
    have hframes : e.frames = [e.frame] := by rw [Pte.frames, if_pos huser']
    have hne : refs (e.frame * pageSize / pageSize) ≠ 0 := by
      rw [frame_addr]
      exact hmapped e.frame (by simp [pteLevel, hframes])
    have hlt : refs (e.frame * pageSize / pageSize) + 1 < 2 ^ 32 := by
      have := hroom (e.frame * pageSize / pageSize)
      simpa [pteLevel, hframes] using this
    obtain ⟨pmm', hinc, hholds', hkeeps⟩ := pmmIncFrameRef_spec hholds hne hlt
    rw [frame_addr] at hholds' hne
    have hclone : clonePte sharedVma page e pmm =
        ⟨pmm', protect (sharedVma page) e, some (protect (sharedVma page) e), true⟩ := by
      rw [clonePte, if_neg huser, hinc]
    have hchild : (protect (sharedVma page) e).frames = [e.frame] := by
      rw [Pte.protect_frames, hframes]
    have hrefs : Function.update refs e.frame (refs e.frame + 1) =
        fun f => refs f + [e.frame].count f := by
      funext f
      by_cases hf : f = e.frame
      · rw [hf, Function.update_self]
        simp
      · rw [Function.update_of_ne hf]
        simp [Ne.symm hf]
    rw [hclone]
    refine ⟨⟨?_, hkeeps.of_noFrame, fun f => rfl, ?_, ?_, ?_, ?_⟩, ?_, rfl, ?_⟩
    · simp only [Level.child, pteLevel, map_some, getD_some, hchild]
      rw [← hrefs]
      exact hholds'
    · simp [Level.child, pteLevel, hchild, hframes]
    · simp [Level.child, pteLevel, hchild, hframes]
    · simp [Level.child, pteLevel]
    · intro f hf
      have hout : f ≠ e.frame := fun heq => hne (heq ▸ hf)
      simp [Level.child, pteLevel, hchild, Ne.symm hout]
    · exact Pte.protect_frames _ _
    · intro i hi
      have hzero : i = 0 := Nat.lt_one_iff.mp hi
      simp [PageCloned, pteLevel, protectUser, cloneUser, huser', hzero]

/-! ## Slots -/

theorem Shares.append {old' leaves' : List ℕ} {size size' : ℕ}
    (hfirst : Shares kept refs pmm pmm' old leaves tables frames size)
    (hsecond : Shares kept (fun f => refs f + frames.count f) pmm' pmm'' old' leaves'
      tables' frames' size') (hmapped : ∀ f ∈ old', refs f ≠ 0) :
    Shares kept refs pmm pmm'' (old ++ old') (leaves ++ leaves')
      (tables ++ tables') (frames ++ frames') (size + size') where
  holds := by
    have heq : (fun f => refs f + (frames ++ frames').count f) =
        fun f => refs f + frames.count f + frames'.count f := by
      funext f
      rw [count_append, Nat.add_assoc]
    rw [heq]
    exact hsecond.holds
  keeps := by
    refine hfirst.keeps.trans (hsecond.keeps.mono ?_)
    rintro f ⟨hlt, hkept, hzero⟩
    exact ⟨hfirst.keeps.nframes ▸ hlt, hkept, Nat.eq_zero_of_add_eq_zero_right hzero⟩
  count f := by
    have hone := hfirst.count f
    have htwo := hsecond.count f
    simp only [count_append]
    omega
  size := by
    rw [length_append]
    exact Nat.add_le_add hfirst.size hsecond.size
  leaves_old := by
    intro f hf
    rcases List.mem_append.mp hf with hf | hf
    · exact mem_append_left _ (hfirst.leaves_old f hf)
    · exact mem_append_right _ (hsecond.leaves_old f hf)
  tables_fresh := by
    intro f hf
    rcases List.mem_append.mp hf with hf | hf
    · exact hfirst.tables_fresh f hf
    · exact Nat.eq_zero_of_add_eq_zero_right (hsecond.tables_fresh f hf)
  once := by
    intro f hf
    rw [count_append]
    have hone := hfirst.once f hf
    by_cases hused : frames.count f = 0
    · have htwo := hsecond.once f (by rw [hf, hused])
      omega
    · -- a frame taken for the first piece is neither fresh nor an old leaf
      have hleaf : leaves'.count f = 0 := by
        rw [count_eq_zero]
        exact fun hmem => hmapped f (hsecond.leaves_old f hmem) hf
      have htable : tables'.count f = 0 := by
        rw [count_eq_zero]
        intro hmem
        have := hsecond.tables_fresh f hmem
        omega
      have htwo := hsecond.count f
      omega

/-- A clone of the slots of a table. -/
structure SlotsCloned (level : Level Entry) (sharedVma : ℕ → Bool)
    (kept : ℕ → Prop) (refs : ℕ → ℕ) (page : ℕ) (slots : List (Option Entry))
    (pmm : PmmState) (r : SlotsResult Entry) : Prop where
  shares : Shares kept refs pmm r.pmm (Table.collect level.leaves slots)
    (Table.collect level.leaves r.child) (Table.collect level.tables r.child)
    (Table.collect level.frames r.child) (Table.collect level.frames slots).length
  leaves : Table.collect level.leaves r.parent = Table.collect level.leaves slots
  tables : Table.collect level.tables r.parent = Table.collect level.tables slots
  pages : ∀ k, ∀ i < level.span, PageCloned (sharedVma (page + k * level.span + i)) r.ok
    ((slots.getD k none).bind (level.find · i)) ((r.parent.getD k none).bind (level.find · i))
    ((r.child.getD k none).bind (level.find · i))

theorem collect_map_none {frames : Entry → List ℕ} (slots : List (Option Entry)) :
    Table.collect frames (slots.map fun _ => none) = [] := by
  induction slots with
  | nil => rfl
  | cons slot slots ih =>
    rw [map_cons, collect_cons, ih]
    rfl

variable {clone : ℕ → Entry → PmmState → CloneResult Entry}

theorem cloneSlots_sound (hclone : CloneSound level sharedVma clone) {slots : List (Option Entry)}
    (hholds : Holds pmm kept refs)
    (hmapped : ∀ f ∈ Table.collect level.leaves slots, refs f ≠ 0)
    (hroom : ∀ f, refs f + (Table.collect level.frames slots).length < 2 ^ 32) :
    SlotsCloned level sharedVma kept refs page slots pmm
      (cloneSlots level.span clone page slots pmm) := by
  induction slots generalizing refs pmm page with
  | nil =>
    refine ⟨.nothing hholds _ _, rfl, rfl, fun k i _ => ?_⟩
    simp [PageCloned, cloneSlots]
  | cons slot rest ih =>
    have hshift : ∀ k i, page + (k + 1) * level.span + i =
        page + level.span + k * level.span + i := by
      intro k i
      rw [Nat.succ_mul]
      omega
    rw [collect_cons] at hmapped hroom
    simp only [mem_append, or_imp, forall_and] at hmapped
    cases slot with
    | none =>
      have hrest := @ih refs pmm (page + level.span) hholds hmapped.2 (by simpa using hroom)
      rw [cloneSlots]
      refine ⟨by simpa using hrest.shares, by simpa using hrest.leaves,
        by simpa using hrest.tables, fun k i hi => ?_⟩
      cases k with
      | zero => simp [PageCloned]
      | succ k =>
        simp only [getD_cons_succ, hshift]
        exact hrest.pages k i hi
    | some e =>
      simp only [map_some, getD_some, length_append] at hmapped hroom
      have hentry := hclone kept refs page e pmm hholds hmapped.1
        (fun f => by have := hroom f; omega)
      have hsize : ∀ f, (Level.child level.frames (clone page e pmm).child).count f ≤
          (level.frames e).length :=
        fun f => List.count_le_length.trans hentry.shares.size
      rw [cloneSlots]
      by_cases hok : (clone page e pmm).ok = true
      · have hrest := @ih _ (clone page e pmm).pmm (page + level.span) hentry.shares.holds
          (fun f hf => by have := hmapped.2 f hf; omega)
          (fun f => by have := hroom f; have := hsize f; omega)
        simp only [hok, if_true]
        refine ⟨?_, ?_, ?_, fun k i hi => ?_⟩
        · have happend := hentry.shares.append hrest.shares hmapped.2
          simp only [collect_cons, length_append, map_some, getD_some]
          exact happend
        · rw [collect_cons, collect_cons, hrest.leaves, map_some, map_some, hentry.leaves]
        · rw [collect_cons, collect_cons, hrest.tables, map_some, map_some, hentry.tables]
        · cases k with
          | zero =>
            obtain ⟨hparent, hcomplete⟩ := hentry.pages i hi
            simpa using ⟨hparent, fun _ => hcomplete hok⟩
          | succ k =>
            simp only [getD_cons_succ, hshift]
            exact hrest.pages k i hi
      · simp only [hok, Bool.false_eq_true, if_false]
        refine ⟨?_, ?_, ?_, fun k i hi => ⟨?_, by simp⟩⟩
        · have happend := hentry.shares.append (Shares.nothing hentry.shares.holds
              (Table.collect level.leaves rest)
              (Table.collect level.frames rest).length) hmapped.2
          simp only [collect_cons, collect_map_none, length_append, map_some, getD_some]
          exact happend
        · simp [hentry.leaves]
        · simp [hentry.tables]
        · cases k with
          | zero => simpa using (hentry.pages i hi).1
          | succ k => exact .inl rfl

/-! ## Tables -/

theorem claimed_one {idx : ℕ} (hzero : refs idx = 0) (f : ℕ) :
    claimed refs idx 1 f = refs f + [idx].count f := by
  by_cases hf : f = idx
  · have hin : inRun idx 1 f := by simp only [inRun]; omega
    rw [claimed, if_pos hin, hf, hzero]
    simp
  · have hout : ¬inRun idx 1 f := by simp only [inRun]; omega
    rw [claimed_outside hout]
    simp [Ne.symm hf]

theorem Shares.alloc {idx : ℕ} (halloc : Allocated pmm kept refs idx 1 pmm')
    (hzero : refs idx = 0) : Shares kept refs pmm pmm' [] [] [idx] [idx] 1 where
  holds := funext (claimed_one hzero) ▸ halloc.holds
  keeps := halloc.keeps.mono fun f hf => halloc.run f hf
  count _ := (Nat.zero_add _).symm
  size := Nat.le_refl 1
  leaves_old := nofun
  tables_fresh _ hf := List.mem_singleton.mp hf ▸ hzero
  once _ _ := count_le_length

theorem Shares.perm {size : ℕ} (h : Shares kept refs pmm pmm' old leaves tables frames size)
    (htables : tables.Perm tables') (hframes : frames.Perm frames') :
    Shares kept refs pmm pmm' old leaves tables' frames' size :=
  { h with
    holds := by simpa only [hframes.count_eq] using h.holds
    count := fun f => by rw [← hframes.count_eq, ← htables.count_eq, h.count f]
    size := hframes.length_eq ▸ h.size
    tables_fresh := fun f hf => h.tables_fresh f (htables.mem_iff.mpr hf)
    once := fun f hf => hframes.count_eq f ▸ h.once f hf }

theorem cloneTable_sound (hspan : 0 < level.span) (hclone : CloneSound level sharedVma clone) :
    CloneSound (tableLevel level) sharedVma (cloneTable level.span clone) := by
  intro kept refs page t pmm hholds hmapped hroom
  rcases pmmAllocFrame_spec hholds with ⟨hnone, _⟩ | ⟨idx, pmm', hsome, halloc, _⟩
  · have hresult : cloneTable level.span clone page t pmm = ⟨pmm, t, none, false⟩ := by
      rw [cloneTable, hnone]
      rfl
    rw [hresult]
    exact ⟨.nothing hholds _ _, rfl, rfl, fun i _ => ⟨.inl rfl, by simp⟩⟩
  · obtain ⟨_, hkept, hzero⟩ := halloc.run idx (by simp only [inRun]; omega)
    have haddr : idx * pageSize ≠ 0 := Nat.mul_ne_zero (hholds.ne_zero hkept) (by decide)
    have hnew := Shares.alloc halloc hzero
    have hslots := @cloneSlots_sound _ level sharedVma kept _
      pmm' page clone hclone t.slots hnew.holds
      (fun f hf => by have := hmapped f hf; omega)
      (fun f => by
        have hlt := hroom f
        have hle : [idx].count f ≤ 1 := count_le_length
        simp only [tableLevel, length_append, length_singleton] at hlt
        omega)
    have hresult : cloneTable level.span clone page t pmm =
        ⟨(cloneSlots level.span clone page t.slots pmm').pmm,
          { t with slots := (cloneSlots level.span clone page t.slots pmm').parent },
          some ⟨idx, (cloneSlots level.span clone page t.slots pmm').child⟩,
          (cloneSlots level.span clone page t.slots pmm').ok⟩ := by
      rw [cloneTable, hsome]
      simp only [haddr, if_false, frame_addr]
    rw [hresult]
    generalize cloneSlots level.span clone page t.slots pmm' = r at hslots
    have hpage : ∀ i, page + i / level.span * level.span + i % level.span = page + i := by
      intro i
      rw [Nat.add_assoc, Nat.div_add_mod']
    refine ⟨?_, hslots.leaves, ?_, fun i _ => ?_⟩
    · have htable := (hnew.append hslots.shares hmapped).perm perm_append_comm perm_append_comm
      rw [Nat.add_comm] at htable
      simp only [tableLevel, Level.child, map_some, getD_some, length_append, length_singleton]
      exact htable
    · simp only [tableLevel]
      rw [hslots.tables]
    · have hfound := hslots.pages (i / level.span) (i % level.span) (Nat.mod_lt _ hspan)
      rw [hpage] at hfound
      exact hfound

/-- The four nested loops. -/
theorem cloneUserSpace_sound (sharedVma : ℕ → Bool) {root : Pml4} (hholds : Holds pmm kept refs)
    (hmapped : ∀ f ∈ rootLevel.leaves root, refs f ≠ 0)
    (hroom : ∀ f, refs f + (rootLevel.frames root).length < 2 ^ 32) :
    Cloned rootLevel sharedVma kept refs 0 root pmm (cloneUserSpace sharedVma root pmm) := by
  have htableLaws := tableLevel_lawful pteLevel_lawful
  have hdirLaws := tableLevel_lawful htableLaws
  have hpdptLaws := tableLevel_lawful hdirLaws
  have htable := cloneTable_sound Nat.one_pos (clonePte_sound sharedVma)
  have hdir := cloneTable_sound htableLaws.span_pos htable
  have hpdpt := cloneTable_sound hdirLaws.span_pos hdir
  have hroot := cloneTable_sound hpdptLaws.span_pos hpdpt
  exact hroot kept refs 0 root pmm hholds hmapped hroom

end AuraLite.Paging

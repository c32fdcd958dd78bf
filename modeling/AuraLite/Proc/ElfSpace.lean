import AuraLite.Mm.Pmm

/-!
# The user pages of a loader

The pages of an address space with their contents and protections, and the page loops
of the ELF loader: `merge_page_flags` over the pages of a segment, and
`copy_into_user_mapping` and `zero_user_mapping`, which write a range page by page.
-/

namespace AuraLite.Elf

open Option ByteMemory Pmm
open Function (update update_self update_of_ne)

structure Page where
  bytes : ℕ → Byte
  writable : Bool
  exec : Bool

/-- The mapped user pages by page number. -/
abbrev Space := ℕ → Option Page

def Space.byte (as : Space) (addr : ℕ) : Option Byte :=
  (as (addr / pageSize)).map fun p => p.bytes (addr % pageSize)

/-- What the allocator does for a page that is not mapped yet: no frame, no table for
`paging_map`, or both. -/
inductive Grant
  | noFrame
  | noTable
  | mapped
deriving DecidableEq

/-- The protections a segment wants: writable and executable. -/
structure Wanted where
  writable : Bool
  exec : Bool

def mergePageFlags (existing : Option Page) (wanted : Wanted) : Wanted where
  writable := (existing.map (·.writable)).getD false || wanted.writable
  exec := (existing.map (·.exec)).getD false || wanted.exec

/-- One page of the loop of `load_segment`. -/
def mapPage (grant : ℕ → Grant) (as : Space) (page : ℕ) (wanted : Wanted) :
    Option Space :=
  let merged := mergePageFlags (as page) wanted
  match as page with
  | some p =>
    some (update as page (some ⟨p.bytes, merged.writable, merged.exec⟩))
  | none =>
    match grant page with
    | .noFrame => none
    | .noTable => some as
    | .mapped =>
      some (update as page (some ⟨fun _ => 0, merged.writable, merged.exec⟩))

/-- The first `count` pages of the loop. -/
def mapPages (grant : ℕ → Grant) (as : Space) (first : ℕ) (wanted : Wanted) :
    ℕ → Option Space
  | 0 => some as
  | count + 1 =>
    (mapPages grant as first wanted count).bind fun as' =>
      mapPage grant as' (first + count) wanted

/-- The loop of `copy_into_user_mapping` and `zero_user_mapping` from `done` on. -/
def writeLoop (dst len : ℕ) (value : ℕ → Byte) : ℕ → Space → ℕ → Option Space
  | 0, as, done => if done < len then none else some as
  | fuel + 1, as, done =>
    if done < len then
      let page := (dst + done) / pageSize
      let off := (dst + done) % pageSize
      let chunk := min (pageSize - off) (len - done)
      match as page with
      | none => none
      | some p =>
        writeLoop dst len value fuel
          (update as page (some { p with
            bytes := fun o =>
              if off ≤ o ∧ o < off + chunk then value (done + (o - off))
              else p.bytes o }))
          (done + chunk)
    else some as

/-- `copy_into_user_mapping` for bytes of the image. -/
def copyIntoUserMapping (as : Space) (dst : ℕ) (image : Mem) (offset len : ℕ) :
    Option Space :=
  writeLoop dst len (fun i => image (offset + i)) len as 0

def zeroUserMapping (as : Space) (dst len : ℕ) : Option Space :=
  writeLoop dst len (fun _ => 0) len as 0

/-! ## Mapping a range -/

/-- A page of the range after the loop. -/
def mappedPage (grant : ℕ → Grant) (as : Space) (wanted : Wanted) (page : ℕ) :
    Option Page :=
  let merged := mergePageFlags (as page) wanted
  match as page with
  | some p => some ⟨p.bytes, merged.writable, merged.exec⟩
  | none =>
    if grant page = .mapped then some ⟨fun _ => 0, merged.writable, merged.exec⟩ else none

theorem mapPage_eq {grant : ℕ → Grant} {page : ℕ} {wanted : Wanted}
    (hmap : mapPage grant as page wanted = some as') (other : ℕ) :
    as' other = if other = page then mappedPage grant as wanted page else as other := by
  have hupdate : ∀ new : Option Page, update as page new other =
      if other = page then new else as other := fun new => by
    split_ifs with hself
    · rw [hself, update_self]
    · rw [update_of_ne hself]
  rw [mapPage] at hmap
  rw [mappedPage]
  cases hpage : as page with
  | some p =>
    rw [hpage] at hmap
    rw [← some.inj hmap]
    exact hupdate _
  | none =>
    rw [hpage] at hmap
    cases hgrant : grant page with
    | noFrame =>
      rw [hgrant] at hmap
      cases hmap
    | noTable =>
      rw [hgrant] at hmap
      rw [← some.inj hmap]
      simp only [reduceCtorEq, if_false]
      split_ifs with hself
      · rw [hself, hpage]
      · rfl
    | mapped =>
      rw [hgrant] at hmap
      rw [← some.inj hmap]
      simp only [if_true]
      exact hupdate _

theorem mapPages_eq {grant : ℕ → Grant} {first count : ℕ}
    {wanted : Wanted} (hmap : mapPages grant as first wanted count = some as')
    (page : ℕ) :
    as' page = if first ≤ page ∧ page < first + count then mappedPage grant as wanted page
      else as page := by
  induction count generalizing as' with
  | zero =>
    have hnot : ¬ (first ≤ page ∧ page < first + 0) := by omega
    rw [if_neg hnot, ← some.inj hmap]
  | succ count ih =>
    rw [mapPages] at hmap
    obtain ⟨mid, hmid, hlast⟩ := bind_eq_some_iff.mp hmap
    have hbefore := ih hmid
    rw [mapPage_eq hlast]
    by_cases hself : page = first + count
    · -- the page of this round has not been touched before
      have hnot : ¬ (first ≤ page ∧ page < first + count) := by omega
      have hin : first ≤ page ∧ page < first + (count + 1) := by omega
      rw [if_neg hnot] at hbefore
      rw [if_pos hself, if_pos hin, ← hself, mappedPage, mappedPage, hbefore]
    · rw [if_neg hself, hbefore]
      split_ifs
      all_goals first | rfl | omega

/-! ## Writing a range -/

variable {as as' as'' : Space} {lo mid hi dst len : ℕ}
variable {value : ℕ → Byte}

/-- The bytes of `[lo, hi)` are replaced and nothing else changes. -/
structure Written (as as' : Space) (lo hi : ℕ) (value : ℕ → Byte) : Prop where
  mapped : ∀ page, (as' page).isSome = (as page).isSome
  inside : ∀ addr, lo ≤ addr → addr < hi → (as (addr / pageSize)).isSome
  flags : ∀ page p p', as page = some p → as' page = some p' →
    p'.writable = p.writable ∧ p'.exec = p.exec
  bytes : ∀ addr, as'.byte addr =
    if lo ≤ addr ∧ addr < hi then some (value addr) else as.byte addr

theorem Written.refl (as : Space) (hle : hi ≤ lo) : Written as as lo hi value where
  mapped := fun _ => rfl
  inside := fun addr hlo hhi => absurd (hhi.trans_le hle) (Nat.not_lt.mpr hlo)
  flags := fun page p p' hp hp' => by
    rw [hp, some.injEq] at hp'
    rw [hp']
    exact ⟨rfl, rfl⟩
  bytes := fun addr => by
    have hnot : ¬ (lo ≤ addr ∧ addr < hi) := by omega
    rw [if_neg hnot]

theorem Written.trans (hfirst : Written as as' lo mid value)
    (hsecond : Written as' as'' mid hi value) (hlo : lo ≤ mid) (hhi : mid ≤ hi) :
    Written as as'' lo hi value where
  mapped := fun page => (hsecond.mapped page).trans (hfirst.mapped page)
  inside := fun addr hlow hhigh => by
    by_cases hmid : addr < mid
    · exact hfirst.inside addr hlow hmid
    · rw [← hfirst.mapped]
      exact hsecond.inside addr (Nat.le_of_not_lt hmid) hhigh
  flags := fun page p p'' hp hp'' => by
    have hsome : (as' page).isSome := by
      rw [hfirst.mapped, hp]
      rfl
    obtain ⟨p', hp'⟩ := isSome_iff_exists.mp hsome
    obtain ⟨hwritable, hexec⟩ := hfirst.flags page p p' hp hp'
    obtain ⟨hwritable', hexec'⟩ := hsecond.flags page p' p'' hp' hp''
    exact ⟨hwritable'.trans hwritable, hexec'.trans hexec⟩
  bytes := fun addr => by
    rw [hsecond.bytes, hfirst.bytes]
    split_ifs
    all_goals first | rfl | omega

theorem Written.congr {value' : ℕ → Byte} (hwritten : Written as as' lo hi value)
    (heq : ∀ addr, lo ≤ addr → addr < hi → value addr = value' addr) :
    Written as as' lo hi value' where
  __ := hwritten
  bytes := fun addr => by
    rw [hwritten.bytes]
    split_ifs with hin
    · rw [heq addr hin.1 hin.2]
    · rfl

theorem div_eq_page {page addr : ℕ} :
    addr / pageSize = page ↔ page * pageSize ≤ addr ∧ addr < page * pageSize + pageSize := by
  rw [pageSize]
  omega

theorem written_chunk {start chunk : ℕ} {p : Page} (hpage : as (start / pageSize) = some p)
    (hchunk : start % pageSize + chunk ≤ pageSize) :
    Written as (update as (start / pageSize) (some { p with
      bytes := fun o =>
        if start % pageSize ≤ o ∧ o < start % pageSize + chunk then
          value (start - start % pageSize + o)
        else p.bytes o })) start (start + chunk) value := by
  have hsplit : start = start / pageSize * pageSize + start % pageSize := by
    rw [Nat.mul_comm]
    exact (Nat.div_add_mod start pageSize).symm
  have hin : ∀ addr, start ≤ addr → addr < start + chunk → addr / pageSize = start / pageSize := by
    intro addr hlow hhigh
    rw [div_eq_page]
    omega
  refine ⟨fun page => ?_, fun addr hlow hhigh => ?_, fun page q q' hq hq' => ?_, fun addr => ?_⟩
  · by_cases hself : page = start / pageSize
    · rw [hself, update_self, hpage]
      rfl
    · rw [update_of_ne hself]
  · rw [hin addr hlow hhigh, hpage]
    rfl
  · by_cases hself : page = start / pageSize
    · rw [hself, update_self, some.injEq] at hq'
      rw [hself, hpage, some.injEq] at hq
      rw [← hq', ← hq]
      exact ⟨rfl, rfl⟩
    · rw [update_of_ne hself, hq, some.injEq] at hq'
      rw [hq']
      exact ⟨rfl, rfl⟩
  · rw [Space.byte, Space.byte]
    by_cases hself : addr / pageSize = start / pageSize
    · have haddr : addr = start / pageSize * pageSize + addr % pageSize := by
        rw [← hself, Nat.mul_comm]
        exact (Nat.div_add_mod addr pageSize).symm
      rw [hself, update_self, hpage, map_some, map_some]
      have hrange : start % pageSize ≤ addr % pageSize ∧
          addr % pageSize < start % pageSize + chunk ↔ start ≤ addr ∧ addr < start + chunk := by
        omega
      have hvalue : start - start % pageSize + addr % pageSize = addr := by omega
      simp only [hrange, hvalue]
      split_ifs <;> rfl
    · have hrange : ¬ (start ≤ addr ∧ addr < start + chunk) := fun hrange =>
        hself (hin addr hrange.1 hrange.2)
      rw [update_of_ne hself, if_neg hrange]

theorem writeLoop_written {fuel done : ℕ} (hdone : done ≤ len)
    (hloop : writeLoop dst len value fuel as done = some as') :
    Written as as' (dst + done) (dst + len) fun addr => value (addr - dst) := by
  induction fuel generalizing as done with
  | zero =>
    rw [writeLoop] at hloop
    split_ifs at hloop with hlt
    rw [← some.inj hloop]
    exact .refl as (by omega)
  | succ fuel ih =>
    rw [writeLoop] at hloop
    split_ifs at hloop with hlt
    · simp only at hloop
      cases hpage : as ((dst + done) / pageSize) with
      | none =>
        rw [hpage] at hloop
        cases hloop
      | some p =>
        rw [hpage] at hloop
        simp only at hloop
        have hmod : (dst + done) % pageSize < pageSize := Nat.mod_lt _ (by decide)
        generalize hchunk : min (pageSize - (dst + done) % pageSize) (len - done) = chunk at hloop
        have hfits : (dst + done) % pageSize + chunk ≤ pageSize := by omega
        have hvalue : (fun o =>
            if (dst + done) % pageSize ≤ o ∧ o < (dst + done) % pageSize + chunk then
              value (done + (o - (dst + done) % pageSize)) else p.bytes o) =
            fun o =>
              if (dst + done) % pageSize ≤ o ∧ o < (dst + done) % pageSize + chunk then
                value (dst + done - (dst + done) % pageSize + o - dst)
              else p.bytes o := by
          funext o
          have hmodle : (dst + done) % pageSize ≤ dst + done := Nat.mod_le _ _
          split_ifs with ho
          · congr 1
            omega
          · rfl
        rw [hvalue] at hloop
        have hfirst := @written_chunk as (fun addr => value (addr - dst))
          (dst + done) chunk p hpage hfits
        have hrest := ih (by omega) hloop
        rw [← Nat.add_assoc] at hrest
        exact hfirst.trans hrest (by omega) (by omega)
    · rw [← some.inj hloop]
      exact .refl as (by omega)

end AuraLite.Elf

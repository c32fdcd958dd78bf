import AuraLite.Proc.ElfSpace
import AuraLite.Mm.Vma

/-!
# The ELF loader

`elf_load_at` from the bytes of the image to the mapped pages, the areas and the break,
and the image it describes: each address holds what the last segment that covers it
says.
-/

namespace AuraLite.Elf

open Option List ByteMemory IntervalList Mmap Pmm Word64

def userVaddrTop : ℕ := 0x800000000000

/-- The fields of `struct elf64_phdr` the loader reads. -/
structure Phdr where
  pType : ℕ
  pFlags : ℕ
  pOffset : ℕ
  pVaddr : ℕ
  pFilesz : ℕ
  pMemsz : ℕ
deriving DecidableEq

def ptLoad : ℕ := 1
def ptPhdr : ℕ := 6

def pfX : ℕ := 1
def pfW : ℕ := 2
def pfR : ℕ := 4

def readPhdr (image : Mem) (base : ℕ) : Phdr where
  pType := readLE image base 4
  pFlags := readLE image (base + 4) 4
  pOffset := readLE image (base + 8) 8
  pVaddr := readLE image (base + 16) 8
  pFilesz := readLE image (base + 32) 8
  pMemsz := readLE image (base + 40) 8

def eEntry (image : Mem) : ℕ := readLE image 24 8
def ePhoff (image : Mem) : ℕ := readLE image 32 8
def ePhnum (image : Mem) : ℕ := readLE image 56 2

def phdrs (image : Mem) : List Phdr :=
  (List.range (ePhnum image)).map fun i => readPhdr image (ePhoff image + 56 * i)

def validateElf (image : Mem) (size bias : ℕ) : Bool :=
  decide (64 ≤ size) && image 0 == 0x7F && image 1 == 0x45 && image 2 == 0x4C &&
    image 3 == 0x46 && image 4 == 2 && image 5 == 1 && readLE image 18 2 == 62 &&
    decide (64 ≤ readLE image 52 2) && readLE image 54 2 == 56 &&
    decide (eEntry image + bias < 2 ^ 64) && eEntry image + bias != 0 &&
    decide (eEntry image + bias < userVaddrTop) && decide (ePhoff image ≤ size) &&
    decide (ePhnum image * 56 ≤ size - ePhoff image)

/-- The address at which the segment begins. -/
def Phdr.vaddr (ph : Phdr) (bias : ℕ) : ℕ := wrap64 (bias + ph.pVaddr)

def validateSegment (ph : Phdr) (size bias : ℕ) : Bool :=
  decide (ph.pFilesz ≤ ph.pMemsz) &&
    decide (ph.pOffset + ph.pFilesz < 2 ^ 64 ∧ ph.pOffset + ph.pFilesz ≤ size) &&
    decide (pageSize ≤ ph.vaddr bias) &&
    (ph.pMemsz == 0 ||
      decide (ph.vaddr bias + (ph.pMemsz - 1) < 2 ^ 64 ∧
        ph.vaddr bias + (ph.pMemsz - 1) < userVaddrTop))

def elfPageFlags (pFlags : ℕ) : Wanted := ⟨hasFlag pFlags pfW, hasFlag pFlags pfX⟩

/-- The page boundary at which the segment ends. -/
def Phdr.stop (ph : Phdr) (bias : ℕ) : ℕ := alignUp (ph.vaddr bias + ph.pMemsz) pageSize

/-- `load_segment`; `none` is the return value `0`. -/
def loadSegment (grant : ℕ → Grant) (as : Space) (image : Mem) (size bias : ℕ)
    (ph : Phdr) : Option Space :=
  if validateSegment ph size bias then
    if ph.pMemsz = 0 then some as
    else
      let vaddr := ph.vaddr bias
      let first := vaddr / pageSize
      (mapPages grant as first (elfPageFlags ph.pFlags)
          (ph.stop bias / pageSize - first)).bind fun as =>
        (if ph.pFilesz ≠ 0 then copyIntoUserMapping as vaddr image ph.pOffset ph.pFilesz
          else some as).bind fun as =>
          if ph.pFilesz < ph.pMemsz then
            zeroUserMapping as (vaddr + ph.pFilesz) (ph.pMemsz - ph.pFilesz)
          else some as
  else none

/-- What the loader depends on beside the image: the frames and tables it gets, the
outcomes of `vma_alloc`, and whether there is a current thread to own the areas. -/
structure Env where
  grant : ℕ → Grant
  slab : List Bool
  owner : Bool

structure Loaded where
  space : Space
  vmas : List Vma
  slab : List Bool
  segsLoaded : ℕ
  highestEnd : ℕ
  phdrVaddr : ℕ

def Phdr.area (ph : Phdr) (bias : ℕ) : Vma where
  vaStart := alignDown (ph.vaddr bias) pageSize
  vaEnd := ph.stop bias
  flags := vmaAnon ||| (if hasFlag ph.pFlags pfR then vmaRead else 0) |||
    (if hasFlag ph.pFlags pfW then vmaWrite else 0) |||
    (if hasFlag ph.pFlags pfX then vmaExec else 0)
  file := none
  fileOff := 0
  shmid := 0

/-- The break and the area of a segment that is not empty.  The result of `vma_insert`
is dropped. -/
def Loaded.describe (l : Loaded) (owner : Bool) (bias : ℕ) (ph : Phdr) : Loaded :=
  let inserted := vmaInsert l.vmas (ph.area bias) l.slab
  { l with
    highestEnd := max l.highestEnd (ph.stop bias)
    vmas := if owner then inserted.1.getD l.vmas else l.vmas
    slab := if owner then inserted.2 else l.slab }

/-- The address of the program headers from the segment whose file range holds them. -/
def Loaded.locate (l : Loaded) (phoff : ℕ) (ph : Phdr) : Loaded :=
  if l.phdrVaddr = 0 ∧ ph.pOffset ≤ phoff ∧ phoff < ph.pOffset + ph.pFilesz then
    { l with phdrVaddr := wrap64 (ph.pVaddr + (phoff - ph.pOffset)) }
  else l

/-- One round of the loop of `elf_load_at`. -/
def loadPhdr (env : Env) (image : Mem) (size bias : ℕ) (l : Loaded) (ph : Phdr) :
    Option Loaded :=
  let l := if ph.pType = ptPhdr then { l with phdrVaddr := ph.pVaddr } else l
  if ph.pType = ptLoad then
    (loadSegment env.grant l.space image size bias ph).map fun space =>
      let l := { l with space := space, segsLoaded := l.segsLoaded + 1 }
      let l := if ph.pMemsz ≠ 0 then l.describe env.owner bias ph else l
      l.locate (ePhoff image) ph
  else some l

def loadPhdrs (env : Env) (image : Mem) (size bias : ℕ) :
    List Phdr → Loaded → Option Loaded
  | [], l => some l
  | ph :: rest, l =>
    (loadPhdr env image size bias l ph).bind (loadPhdrs env image size bias rest)

/-- The return value and what the loader leaves behind. -/
structure Result where
  entry : ℕ
  brk : ℕ
  phdr : ℕ
  phnum : ℕ
  space : Space
  vmas : List Vma

/-- `elf_load_at` into an empty address space; `none` is the return value `0`. -/
def elfLoadAt (env : Env) (image : Mem) (size bias : ℕ) : Option Result :=
  if validateElf image size bias then
    (loadPhdrs env image size bias (phdrs image)
        ⟨fun _ => none, [], env.slab, 0, 0, 0⟩).bind fun l =>
      if l.segsLoaded = 0 then none
      else some
        { entry := wrap64 (bias + eEntry image)
          brk := l.highestEnd
          phdr := wrap64 (bias + l.phdrVaddr)
          phnum := ePhnum image
          space := l.space
          vmas := l.vmas }
  else none

/-! ## The image the headers describe -/

def segments (image : Mem) : List Phdr := (phdrs image).filter (·.pType == ptLoad)

def Phdr.covers (ph : Phdr) (bias addr : ℕ) : Bool :=
  decide (ph.vaddr bias ≤ addr ∧ addr < ph.vaddr bias + ph.pMemsz)

/-- The byte of the segment: from the file, or zero behind `p_filesz`. -/
def Phdr.byteAt (ph : Phdr) (image : Mem) (bias addr : ℕ) : Byte :=
  if addr - ph.vaddr bias < ph.pFilesz then image (ph.pOffset + (addr - ph.vaddr bias)) else 0

/-- The segment has bytes in the page. -/
def Phdr.Touches (ph : Phdr) (bias page : ℕ) : Prop :=
  ph.pMemsz ≠ 0 ∧ ph.vaddr bias / pageSize ≤ page ∧
    page * pageSize < ph.vaddr bias + ph.pMemsz

/-- What the last segment that covers the address says; zero if none does. -/
def imageByte (image : Mem) (bias : ℕ) (segs : List Phdr) (addr : ℕ) : Byte :=
  match segs.reverse.find? (·.covers bias addr) with
  | some ph => ph.byteAt image bias addr
  | none => 0

structure Described (image : Mem) (bias : ℕ) (as : Space) (segs : List Phdr) : Prop where
  mapped : ∀ page, (as page).isSome ↔ ∃ ph ∈ segs, ph.Touches bias page
  bytes : ∀ addr b, as.byte addr = some b → b = imageByte image bias segs addr
  writable : ∀ page p, as page = some p →
    (p.writable = true ↔ ∃ ph ∈ segs, ph.Touches bias page ∧ hasFlag ph.pFlags pfW = true)
  exec : ∀ page p, as page = some p →
    (p.exec = true ↔ ∃ ph ∈ segs, ph.Touches bias page ∧ hasFlag ph.pFlags pfX = true)

variable {env : Env} {image : Mem} {size bias : ℕ} {as as' : Space} {ph : Phdr}
  {segs : List Phdr}

theorem imageByte_append (addr : ℕ) : imageByte image bias (segs ++ [ph]) addr =
    if ph.covers bias addr then ph.byteAt image bias addr
    else imageByte image bias segs addr := by
  rw [imageByte, reverse_append, reverse_singleton, singleton_append, find?_cons]
  cases hcovers : ph.covers bias addr with
  | true => rfl
  | false => rfl

theorem Phdr.Touches.of_covers {addr : ℕ} (hcovers : ph.covers bias addr = true) :
    ph.Touches bias (addr / pageSize) := by
  have hin : ph.vaddr bias ≤ addr ∧ addr < ph.vaddr bias + ph.pMemsz := of_decide_eq_true hcovers
  have hpage : addr / pageSize * pageSize ≤ addr := Nat.div_mul_le_self addr pageSize
  refine ⟨by omega, Nat.div_le_div_right hin.1, by omega⟩

/-- An address no segment covers is zero in the described image. -/
theorem imageByte_of_untouched {addr : ℕ}
    (hnone : ¬ ∃ ph ∈ segs, ph.Touches bias (addr / pageSize)) :
    imageByte image bias segs addr = 0 := by
  have hfind : segs.reverse.find? (·.covers bias addr) = none := by
    rw [find?_eq_none]
    intro ph hmem hcovers
    exact hnone ⟨ph, List.mem_reverse.mp hmem, .of_covers hcovers⟩
  rw [imageByte, hfind]

variable {page : ℕ}

theorem Phdr.Touches.address (htouches : ph.Touches bias page) :
    ∃ addr, ph.vaddr bias ≤ addr ∧ addr < ph.vaddr bias + ph.pMemsz ∧ addr / pageSize = page := by
  obtain ⟨hsize, hfirst, hlast⟩ := htouches
  refine ⟨max (page * pageSize) (ph.vaddr bias), Nat.le_max_right _ _, by omega, ?_⟩
  rw [div_eq_page]
  rw [pageSize] at *
  omega

theorem validateSegment_bounds (hvalid : validateSegment ph size bias = true)
    (hsize : ph.pMemsz ≠ 0) : ph.pFilesz ≤ ph.pMemsz ∧ pageSize ≤ ph.vaddr bias ∧
      ph.vaddr bias + ph.pMemsz ≤ userVaddrTop := by
  simp only [validateSegment, Bool.and_eq_true, Bool.or_eq_true, beq_iff_eq,
    decide_eq_true_eq] at hvalid
  obtain ⟨⟨⟨hfile, -⟩, hlow⟩, hrange⟩ := hvalid
  have hhigh := (hrange.resolve_left hsize).2
  exact ⟨hfile, hlow, by omega⟩

theorem stop_bounds (htop : ph.vaddr bias + ph.pMemsz ≤ userVaddrTop) :
    ph.vaddr bias + ph.pMemsz ≤ ph.stop bias ∧ ph.stop bias < ph.vaddr bias + ph.pMemsz + pageSize ∧
      ph.stop bias / pageSize * pageSize = ph.stop bias := by
  have hstop : ph.stop bias = (ph.vaddr bias + ph.pMemsz + 4095) / 4096 * 4096 := by
    refine alignUp_of_lt ?_
    rw [userVaddrTop] at htop
    rw [pageSize]
    omega
  rw [hstop, pageSize]
  omega

section

variable (hsize : ph.pMemsz ≠ 0) (htop : ph.vaddr bias + ph.pMemsz ≤ userVaddrTop)
include hsize htop

/-- The pages of the mapping loop are those the segment touches. -/
theorem touches_iff (page : ℕ) :
    ph.vaddr bias / pageSize ≤ page ∧
        page < ph.vaddr bias / pageSize + (ph.stop bias / pageSize - ph.vaddr bias / pageSize) ↔
      ph.Touches bias page := by
  obtain ⟨hle, hlt, hstop⟩ := stop_bounds htop
  rw [Phdr.Touches]
  rw [pageSize] at *
  constructor
  · rintro ⟨hfirst, hlast⟩
    exact ⟨hsize, hfirst, by omega⟩
  · rintro ⟨-, hfirst, hlast⟩
    exact ⟨hfirst, by omega⟩

theorem area_contains (addr : ℕ) :
    (ph.area bias).contains addr = true ↔ ph.Touches bias (addr / pageSize) := by
  obtain ⟨hle, hlt, hstop⟩ := stop_bounds htop
  rw [Vma.contains, decide_eq_true_eq, Phdr.Touches]
  change alignDown (ph.vaddr bias) pageSize ≤ addr ∧ addr < ph.stop bias ↔ _
  rw [alignDown]
  rw [pageSize] at *
  constructor
  · rintro ⟨hlow, hhigh⟩
    exact ⟨hsize, by omega, by omega⟩
  · rintro ⟨-, hlow, hhigh⟩
    exact ⟨by omega, by omega⟩

theorem area_nonempty : (ph.area bias).vaStart < (ph.area bias).vaEnd := by
  obtain ⟨hle, -, -⟩ := stop_bounds htop
  refine (Nat.div_mul_le_self _ _).trans_lt ?_
  change ph.vaddr bias < ph.stop bias
  omega

end

/-! ## One segment -/

theorem fill_written {mid : Space} (hfile : ph.pFilesz ≤ ph.pMemsz) (hcopy : (if ph.pFilesz ≠ 0 then
        copyIntoUserMapping as (ph.vaddr bias) image ph.pOffset ph.pFilesz
      else some as) = some mid)
    (hzero : (if ph.pFilesz < ph.pMemsz then
        zeroUserMapping mid (ph.vaddr bias + ph.pFilesz) (ph.pMemsz - ph.pFilesz)
      else some mid) = some as') :
    Written as as' (ph.vaddr bias) (ph.vaddr bias + ph.pMemsz) (ph.byteAt image bias) := by
  have hfirst : Written as mid (ph.vaddr bias) (ph.vaddr bias + ph.pFilesz)
      (ph.byteAt image bias) := by
    split_ifs at hcopy with hsize
    · rw [copyIntoUserMapping] at hcopy
      refine (writeLoop_written (Nat.zero_le _) hcopy).congr fun addr hlow hhigh => ?_
      have hin : addr - ph.vaddr bias < ph.pFilesz := by omega
      rw [Phdr.byteAt, if_pos hin]
    · rw [← some.inj hcopy]
      exact .refl as (by omega)
  have hsecond : Written mid as' (ph.vaddr bias + ph.pFilesz)
      (ph.vaddr bias + ph.pMemsz) (ph.byteAt image bias) := by
    split_ifs at hzero with hmore
    · rw [zeroUserMapping] at hzero
      have hwritten := writeLoop_written (Nat.zero_le _) hzero
      have hend : ph.vaddr bias + ph.pFilesz + (ph.pMemsz - ph.pFilesz) =
          ph.vaddr bias + ph.pMemsz := by omega
      rw [hend, Nat.add_zero] at hwritten
      refine hwritten.congr fun addr hlow hhigh => ?_
      have hout : ¬ addr - ph.vaddr bias < ph.pFilesz := by omega
      rw [Phdr.byteAt, if_neg hout]
    · rw [← some.inj hzero]
      exact .refl mid (by omega)
  exact hfirst.trans hsecond (Nat.le_add_right _ _) (by omega)

theorem loadSegment_cases {grant : ℕ → Grant}
    (hload : loadSegment grant as image size bias ph = some as') :
    validateSegment ph size bias = true ∧ (ph.pMemsz = 0 ∧ as' = as ∨ ph.pMemsz ≠ 0 ∧ ∃ mapped,
        (∀ page, ph.Touches bias page →
          mapped page = mappedPage grant as (elfPageFlags ph.pFlags) page) ∧
        (∀ page, ¬ ph.Touches bias page → mapped page = as page) ∧
        Written mapped as' (ph.vaddr bias) (ph.vaddr bias + ph.pMemsz) (ph.byteAt image bias)) := by
  rw [loadSegment] at hload
  split at hload
  swap
  · cases hload
  rename_i hvalid
  split at hload
  · rename_i hempty
    exact ⟨hvalid, .inl ⟨hempty, (some.inj hload).symm⟩⟩
  · rename_i hempty
    obtain ⟨hfile, -, htop⟩ := validateSegment_bounds hvalid hempty
    obtain ⟨mapped, hmap, hrest⟩ := bind_eq_some_iff.mp hload
    obtain ⟨mid, hcopy, hzero⟩ := bind_eq_some_iff.mp hrest
    refine ⟨hvalid, .inr ⟨hempty, mapped, fun page htouches => ?_, fun page hnot => ?_,
      fill_written hfile hcopy hzero⟩⟩
    · rw [mapPages_eq hmap, if_pos ((touches_iff hempty htop page).mpr htouches)]
    · rw [mapPages_eq hmap, if_neg fun hin => hnot ((touches_iff hempty htop page).mp hin)]

theorem mem_append_one {P : Phdr → Prop} :
    (∃ q ∈ segs ++ [ph], P q) ↔ (∃ q ∈ segs, P q) ∨ P ph := by
  simp only [List.mem_append, List.mem_singleton, or_and_right, exists_or, exists_eq_left]

theorem Described.empty (hdesc : Described image bias as segs) (hempty : ph.pMemsz = 0) :
    Described image bias as (segs ++ [ph]) := by
  have htouches : ∀ page, ¬ ph.Touches bias page := fun page htouches => htouches.1 hempty
  refine ⟨fun page => ?_, fun addr b hbyte => ?_, fun page p hpage => ?_, fun page p hpage => ?_⟩
  · rw [mem_append_one, or_iff_left (htouches page)]
    exact hdesc.mapped page
  · have hcovers : ph.covers bias addr = false := by
      rw [Phdr.covers, hempty]
      exact decide_eq_false (by omega)
    rw [imageByte_append, hcovers]
    exact hdesc.bytes addr b hbyte
  · rw [mem_append_one, or_iff_left fun h => htouches page h.1]
    exact hdesc.writable page p hpage
  · rw [mem_append_one, or_iff_left fun h => htouches page h.1]
    exact hdesc.exec page p hpage

/-- The protections of a page after the mapping loop. -/
theorem mappedPage_flags {grant : ℕ → Grant} {wanted : Wanted} {p' : Page}
    (hpage : mappedPage grant as wanted page = some p') :
    p'.writable = (mergePageFlags (as page) wanted).writable ∧
      p'.exec = (mergePageFlags (as page) wanted).exec ∧
      ((∃ p, as page = some p ∧ p'.bytes = p.bytes) ∨ as page = none ∧ p'.bytes = fun _ => 0) := by
  simp only [mappedPage] at hpage
  cases hold : as page with
  | some p =>
    rw [hold] at hpage
    rw [← some.inj hpage]
    exact ⟨rfl, rfl, .inl ⟨p, rfl, rfl⟩⟩
  | none =>
    rw [hold] at hpage
    simp only at hpage
    split_ifs at hpage
    rw [← some.inj hpage]
    exact ⟨rfl, rfl, .inr ⟨rfl, rfl⟩⟩

/-- A protection is set by an earlier segment of the page or by this one. -/
theorem flag_iff {flag : Page → Bool} {bit : ℕ} {p : Page}
    (hmapped : (as page).isSome ↔ ∃ q ∈ segs, q.Touches bias page)
    (hflag : ∀ p, as page = some p →
      (flag p = true ↔ ∃ q ∈ segs, q.Touches bias page ∧ hasFlag q.pFlags bit = true))
    (hin : ph.Touches bias page →
      flag p = (((as page).map flag).getD false || hasFlag ph.pFlags bit))
    (hout : ¬ ph.Touches bias page → as page = some p) :
    flag p = true ↔ ∃ q ∈ segs ++ [ph], q.Touches bias page ∧ hasFlag q.pFlags bit = true := by
  rw [mem_append_one]
  by_cases htouches : ph.Touches bias page
  · rw [hin htouches, Bool.or_eq_true, and_iff_right htouches]
    refine or_congr ?_ .rfl
    cases hold : as page with
    | some p => exact hflag p hold
    | none =>
      have hnone : ¬ ∃ q ∈ segs, q.Touches bias page := by
        rw [← hmapped, hold]
        exact Bool.false_ne_true
      refine ⟨nofun, ?_⟩
      rintro ⟨q, hmem, hq, -⟩
      exact absurd ⟨q, hmem, hq⟩ hnone
  · rw [or_iff_left fun h => htouches h.1]
    exact hflag p (hout htouches)

theorem Described.segment (hdesc : Described image bias as segs)
    (hload : loadSegment env.grant as image size bias ph = some as') :
    Described image bias as' (segs ++ [ph]) := by
  obtain ⟨-, ⟨hempty, rfl⟩ | ⟨hsize, mapped, hin, hout, hwritten⟩⟩ := loadSegment_cases hload
  · exact hdesc.empty hempty
  -- a page of the final space with its protections comes from the mapping loop
  have hback : ∀ page p', as' page = some p' → ∃ p, mapped page = some p ∧
      p'.writable = p.writable ∧ p'.exec = p.exec := by
    intro page p' hpage
    have hsome : (mapped page).isSome := by
      rw [← hwritten.mapped, hpage]
      rfl
    obtain ⟨p, hp⟩ := isSome_iff_exists.mp hsome
    exact ⟨p, hp, hwritten.flags page p p' hp hpage⟩
  refine ⟨fun page => ?_, fun addr b hbyte => ?_, fun page p' hpage => ?_, fun page p' hpage => ?_⟩
  · rw [mem_append_one, hwritten.mapped]
    by_cases htouches : ph.Touches bias page
    · obtain ⟨addr, hlow, hhigh, rfl⟩ := htouches.address
      exact iff_of_true (hwritten.inside addr hlow hhigh) (.inr htouches)
    · rw [hout page htouches, or_iff_left htouches]
      exact hdesc.mapped page
  · rw [hwritten.bytes] at hbyte
    rw [imageByte_append]
    by_cases hcovers : ph.vaddr bias ≤ addr ∧ addr < ph.vaddr bias + ph.pMemsz
    · have hyes : ph.covers bias addr = true := decide_eq_true hcovers
      rw [if_pos hcovers] at hbyte
      rw [if_pos hyes]
      exact (some.inj hbyte).symm
    · have hno : ¬ ph.covers bias addr = true := fun h => hcovers (of_decide_eq_true h)
      rw [if_neg hcovers] at hbyte
      rw [if_neg hno]
      by_cases htouches : ph.Touches bias (addr / pageSize)
      · obtain ⟨p, hp, rfl⟩ := map_eq_some_iff.mp hbyte
        rw [hin _ htouches] at hp
        obtain ⟨-, -, ⟨q, hq, hsame⟩ | ⟨hnone, hzero⟩⟩ := mappedPage_flags hp
        · refine hdesc.bytes addr _ ?_
          rw [Space.byte, hq, hsame]
          rfl
        · -- a new page is zero, and no earlier segment has bytes in it
          rw [hzero, imageByte_of_untouched]
          rw [← hdesc.mapped, hnone]
          exact Bool.false_ne_true
      · refine hdesc.bytes addr b ?_
        rw [Space.byte, ← hout _ htouches]
        exact hbyte
  · obtain ⟨p, hp, hwritable, -⟩ := hback page p' hpage
    rw [hwritable]
    refine flag_iff (hdesc.mapped page) (hdesc.writable page) (fun h => ?_) fun h => ?_
    · exact (mappedPage_flags ((hin page h).symm.trans hp)).1
    · exact (hout page h).symm.trans hp
  · obtain ⟨p, hp, -, hexec⟩ := hback page p' hpage
    rw [hexec]
    refine flag_iff (hdesc.mapped page) (hdesc.exec page) (fun h => ?_) fun h => ?_
    · exact (mappedPage_flags ((hin page h).symm.trans hp)).2.1
    · exact (hout page h).symm.trans hp

/-! ## The table of headers -/

/-- The least page boundary at or above all segments. -/
structure IsBreak (bias : ℕ) (segs : List Phdr) (brk : ℕ) : Prop where
  aligned : pageSize ∣ brk
  above : ∀ ph ∈ segs, ph.pMemsz ≠ 0 → ph.vaddr bias + ph.pMemsz ≤ brk
  least : ∀ b, pageSize ∣ b →
    (∀ ph ∈ segs, ph.pMemsz ≠ 0 → ph.vaddr bias + ph.pMemsz ≤ b) → brk ≤ b

theorem IsBreak.empty {brk : ℕ} (hbreak : IsBreak bias segs brk) (hempty : ph.pMemsz = 0) :
    IsBreak bias (segs ++ [ph]) brk where
  aligned := hbreak.aligned
  above := forall_mem_append.mpr
    ⟨hbreak.above, forall_mem_singleton.mpr fun hsize => absurd hempty hsize⟩
  least := fun b hb habove =>
    hbreak.least b hb fun q hmem => habove q (mem_append_left _ hmem)

theorem IsBreak.segment {brk : ℕ} (hbreak : IsBreak bias segs brk) (hsize : ph.pMemsz ≠ 0)
    (htop : ph.vaddr bias + ph.pMemsz ≤ userVaddrTop) :
    IsBreak bias (segs ++ [ph]) (max brk (ph.stop bias)) := by
  obtain ⟨hle, hlt, hstop⟩ := stop_bounds htop
  refine ⟨?_, forall_mem_append.mpr ⟨fun q hold hq => ?_, ?_⟩, fun b hb habove => ?_⟩
  · rcases max_choice brk (ph.stop bias) with h | h
    · rw [h]
      exact hbreak.aligned
    · rw [h, ← hstop]
      exact Nat.dvd_mul_left _ _
  · exact (hbreak.above q hold hq).trans (Nat.le_max_left _ _)
  · exact forall_mem_singleton.mpr fun _ => hle.trans (Nat.le_max_right _ _)
  · have hold := hbreak.least b hb fun q hmem => habove q (mem_append_left _ hmem)
    have hnew := habove ph (mem_append_right _ mem_cons_self) hsize
    obtain ⟨k, rfl⟩ := hb
    rw [pageSize] at *
    omega

/-- The segments with bytes whose areas `vma_alloc` grants. -/
def granted : List Bool → List Phdr → List Phdr
  | _, [] => []
  | slab, ph :: rest =>
    if ph.pMemsz = 0 then granted slab rest
    else if (vmaAlloc slab).1 then ph :: granted (vmaAlloc slab).2 rest
    else granted (vmaAlloc slab).2 rest

/-- The segments that get an area: none without a current thread. -/
def Env.describes (env : Env) (slab : List Bool) (segs : List Phdr) : List Phdr :=
  if env.owner then granted slab segs else []

theorem mem_granted {q : Phdr} {slab : List Bool} (hq : q ∈ granted slab segs) :
    q ∈ segs ∧ q.pMemsz ≠ 0 := by
  induction segs generalizing slab with
  | nil => cases hq
  | cons ph rest ih =>
    rw [granted] at hq
    split_ifs at hq with hempty hok
    · exact (ih hq).imp_left (mem_cons_of_mem ph)
    · rcases mem_cons.mp hq with rfl | hq
      · exact ⟨mem_cons_self, hempty⟩
      · exact (ih hq).imp_left (mem_cons_of_mem ph)
    · exact (ih hq).imp_left (mem_cons_of_mem ph)

/-- Areas lie apart if and only if their segments share no page. -/
theorem area_apart {q : Phdr} (hq : q.pMemsz ≠ 0)
    (hqtop : q.vaddr bias + q.pMemsz ≤ userVaddrTop) (hsize : ph.pMemsz ≠ 0)
    (htop : ph.vaddr bias + ph.pMemsz ≤ userVaddrTop) :
    ((q.area bias).vaEnd ≤ (ph.area bias).vaStart ∨ (ph.area bias).vaEnd ≤ (q.area bias).vaStart) ↔
      ∀ page, ¬ (q.Touches bias page ∧ ph.Touches bias page) := by
  have hq' := area_contains hq hqtop
  have hph' := area_contains hsize htop
  simp only [Vma.contains, decide_eq_true_eq] at hq' hph'
  constructor
  · rintro hapart page ⟨hqpage, hpage⟩
    have hpages : page * pageSize / pageSize = page := Nat.mul_div_cancel _ (by decide)
    rw [← hpages] at hqpage hpage
    have hqin := (hq' _).mpr hqpage
    have hin := (hph' _).mpr hpage
    omega
  · intro hapart
    -- the greater of the two starts would lie in both areas
    have hboth := hapart (max (q.area bias).vaStart (ph.area bias).vaStart / pageSize)
    rw [← hq', ← hph'] at hboth
    have hqne := area_nonempty hq hqtop
    have hphne := area_nonempty hsize htop
    omega

theorem area_insert (vmas : List Vma) (slab : List Bool) :
    vmaInsert vmas (ph.area bias) slab =
      (if (vmaAlloc slab).1 then some (vmaLink vmas (ph.area bias)) else none,
        (vmaAlloc slab).2) := by
  have hfile : hasFlag (ph.area bias).flags vmaFile = false := by
    change hasFlag (vmaAnon ||| (if hasFlag ph.pFlags pfR then vmaRead else 0) |||
      (if hasFlag ph.pFlags pfW then vmaWrite else 0) |||
      (if hasFlag ph.pFlags pfX then vmaExec else 0)) vmaFile = false
    cases hasFlag ph.pFlags pfR <;> cases hasFlag ph.pFlags pfW <;>
      cases hasFlag ph.pFlags pfX <;> rfl
  rw [vmaInsert, hfile]
  rfl

/-! ## Whole tables -/

/-- What holds after the segments `segs` whatever the table: the pages, the bounds of
user space and the break. -/
structure Progress (image : Mem) (bias : ℕ) (l : Loaded) (segs : List Phdr) : Prop where
  described : Described image bias l.space segs
  bounds : ∀ ph ∈ segs, ph.pMemsz ≠ 0 →
    pageSize ≤ ph.vaddr bias ∧ ph.vaddr bias + ph.pMemsz ≤ userVaddrTop
  brk : IsBreak bias segs l.highestEnd

variable {l l' : Loaded}

/-- The fields of the state that the address of the program headers leaves alone. -/
theorem locate_fields (l : Loaded) (phoff : ℕ) (ph : Phdr) :
    (l.locate phoff ph).space = l.space ∧ (l.locate phoff ph).vmas = l.vmas ∧
      (l.locate phoff ph).slab = l.slab ∧
      (l.locate phoff ph).highestEnd = l.highestEnd := by
  rw [Loaded.locate]
  split_ifs <;> exact ⟨rfl, rfl, rfl, rfl⟩

/-- One round: another kind of header, a segment without bytes, or a segment that is
loaded and described. -/
theorem loadPhdr_cases (hround : loadPhdr env image size bias l ph = some l') :
    (ph.pType ≠ ptLoad ∧ l'.space = l.space ∧ l'.vmas = l.vmas ∧ l'.slab = l.slab ∧
        l'.highestEnd = l.highestEnd) ∨
      (ph.pType = ptLoad ∧ loadSegment env.grant l.space image size bias ph = some l'.space ∧
        (ph.pMemsz = 0 ∧ l'.vmas = l.vmas ∧ l'.slab = l.slab ∧ l'.highestEnd = l.highestEnd ∨
          ph.pMemsz ≠ 0 ∧ l'.highestEnd = max l.highestEnd (ph.stop bias) ∧
            l'.vmas = (if env.owner then (vmaInsert l.vmas (ph.area bias) l.slab).1.getD l.vmas
              else l.vmas) ∧
            l'.slab = if env.owner then (vmaInsert l.vmas (ph.area bias) l.slab).2 else l.slab)) := by
  rw [loadPhdr] at hround
  by_cases hload : ph.pType = ptLoad
  · have hother : ¬ ph.pType = ptPhdr := by
      rw [hload]
      decide
    simp only [if_neg hother, if_pos hload] at hround
    obtain ⟨space, hsegment, rfl⟩ := map_eq_some_iff.mp hround
    by_cases hempty : ph.pMemsz = 0
    · rw [if_neg (not_not.mpr hempty)]
      obtain ⟨h₁, h₂, h₃, h₄⟩ := locate_fields
        { l with space := space, segsLoaded := l.segsLoaded + 1 } (ePhoff image) ph
      rw [h₁, h₂, h₃, h₄]
      exact .inr ⟨hload, hsegment, .inl ⟨hempty, rfl, rfl, rfl⟩⟩
    · rw [if_pos hempty]
      obtain ⟨h₁, h₂, h₃, h₄⟩ := locate_fields
        (Loaded.describe { l with space := space, segsLoaded := l.segsLoaded + 1 }
          env.owner bias ph) (ePhoff image) ph
      rw [h₁, h₂, h₃, h₄]
      exact .inr ⟨hload, hsegment, .inr ⟨hempty, rfl, rfl, rfl⟩⟩
  · simp only [if_neg hload] at hround
    rw [← some.inj hround]
    refine .inl ⟨hload, ?_⟩
    split_ifs <;> exact ⟨rfl, rfl, rfl, rfl⟩

theorem Progress.segment (hprog : Progress image bias l segs)
    (hload : loadSegment env.grant l.space image size bias ph = some l'.space)
    (hbreak : ph.pMemsz = 0 ∧ l'.highestEnd = l.highestEnd ∨
      ph.pMemsz ≠ 0 ∧ l'.highestEnd = max l.highestEnd (ph.stop bias)) :
    Progress image bias l' (segs ++ [ph]) := by
  have hvalid := (loadSegment_cases hload).1
  refine ⟨hprog.described.segment hload, forall_mem_append.mpr ⟨hprog.bounds, ?_⟩, ?_⟩
  · exact forall_mem_singleton.mpr fun hsize => (validateSegment_bounds hvalid hsize).2
  · rcases hbreak with ⟨hempty, hsame⟩ | ⟨hsize, hmax⟩
    · rw [hsame]
      exact hprog.brk.empty hempty
    · rw [hmax]
      exact hprog.brk.segment hsize (validateSegment_bounds hvalid hsize).2.2

/-- No two segments have bytes in one page. -/
def Apart (bias : ℕ) (segs : List Phdr) : Prop :=
  segs.Pairwise fun a b => ∀ page, ¬ (a.Touches bias page ∧ b.Touches bias page)

/-- The run of the loop over the rest of the table adds the areas that are granted. -/
theorem Progress.run {phs : List Phdr} (hprog : Progress image bias l segs)
    (hrun : loadPhdrs env image size bias phs l = some l') :
    Progress image bias l' (segs ++ phs.filter (·.pType == ptLoad)) ∧
      l'.vmas.Perm ((env.describes l.slab (phs.filter (·.pType == ptLoad))).map (·.area bias) ++
        l.vmas) := by
  induction phs generalizing l segs with
  | nil =>
    rw [← some.inj hrun, filter_nil, append_nil, Env.describes, granted, ite_self]
    exact ⟨hprog, .rfl⟩
  | cons ph rest ih =>
    obtain ⟨mid, hround, hrest⟩ := bind_eq_some_iff.mp hrun
    rcases loadPhdr_cases hround with
      ⟨hother, hspace, hvmas, hsame, hend⟩ | ⟨hload, hsegment, hcases⟩
    · rw [filter_cons_of_neg (by simpa using hother), ← hvmas, ← hsame]
      exact ih ⟨hspace ▸ hprog.described, hprog.bounds, hend ▸ hprog.brk⟩ hrest
    · have hbreak := hcases.imp (fun h => And.intro h.1 h.2.2.2) fun h => And.intro h.1 h.2.1
      rw [filter_cons_of_pos (by simpa using hload), append_cons]
      obtain ⟨hdone, hperm⟩ := ih (hprog.segment hsegment hbreak) hrest
      refine ⟨hdone, hperm.trans ?_⟩
      rcases hcases with ⟨hempty, hvmas, hsame, -⟩ | ⟨hsize, -, hvmas, hsame⟩
      · rw [hvmas, hsame, Env.describes, Env.describes, granted, if_pos hempty]
      · rw [hvmas, hsame, area_insert, Env.describes, Env.describes, granted, if_neg hsize]
        cases env.owner with
        | false => exact .rfl
        | true =>
          cases (vmaAlloc l.slab).1 with
          | false => exact .rfl
          | true =>
            -- the new area is linked in its place among the others
            exact ((perm_orderedInsert _ _ _).append_left _).trans perm_middle

theorem elfLoadAt_run {r : Result} (hload : elfLoadAt env image size bias = some r) :
    ∃ l, loadPhdrs env image size bias (phdrs image)
        ⟨fun _ => none, [], env.slab, 0, 0, 0⟩ = some l ∧
      r.space = l.space ∧ r.vmas = l.vmas ∧ r.brk = l.highestEnd := by
  rw [elfLoadAt] at hload
  split at hload
  swap
  · cases hload
  obtain ⟨l, hrun, hresult⟩ := bind_eq_some_iff.mp hload
  split at hresult
  · cases hresult
  · rw [← some.inj hresult]
    exact ⟨l, hrun, rfl, rfl, rfl⟩

theorem Progress.start (slab : List Bool) :
    Progress image bias ⟨fun _ => none, [], slab, 0, 0, 0⟩ [] := by
  refine ⟨⟨fun page => ?_, fun addr b hbyte => ?_, fun page p hpage => ?_,
    fun page p hpage => ?_⟩, fun q hmem => ?_, ⟨?_, fun q hmem => ?_, fun b _ _ => ?_⟩⟩
  · exact ⟨nofun, fun ⟨_, hmem, _⟩ => absurd hmem not_mem_nil⟩
  · cases hbyte
  · cases hpage
  · cases hpage
  · cases hmem
  · exact Nat.dvd_zero _
  · cases hmem
  · exact Nat.zero_le b

/-- Every page of a successful load lies in user space above page zero. -/
theorem Progress.page_bounds (hprog : Progress image bias l segs) (hpage : (l.space page).isSome) :
    page ≠ 0 ∧ (page + 1) * pageSize ≤ userVaddrTop := by
  obtain ⟨ph, hmem, hsize, hfirst, hlast⟩ := (hprog.described.mapped page).mp hpage
  obtain ⟨hlow, htop⟩ := hprog.bounds ph hmem hsize
  rw [pageSize] at *
  rw [userVaddrTop] at *
  exact ⟨by omega, by omega⟩

/-- The loader maps the described image and reports its break.  The areas are disjoint and
cover the pages if and only if no two segments that get an area share a page and every page of
a segment is one of a segment that gets an area. -/
theorem elf_loads_described_image (env : Env) (image : Mem) (size bias : ℕ) (r : Result)
    (hload : elfLoadAt env image size bias = some r) :
    Described image bias r.space (segments image) ∧
      (∀ page, (r.space page).isSome → page ≠ 0 ∧ (page + 1) * pageSize ≤ userVaddrTop) ∧
      IsBreak bias (segments image) r.brk ∧
      ((r.vmas.Pairwise (fun v w => v.vaEnd ≤ w.vaStart ∨ w.vaEnd ≤ v.vaStart) ∧
          ∀ addr, (∃ v ∈ r.vmas, v.contains addr = true) ↔ (r.space (addr / pageSize)).isSome) ↔
        Apart bias (env.describes env.slab (segments image)) ∧
          ∀ ph ∈ segments image, ∀ page, ph.Touches bias page →
            ∃ q ∈ env.describes env.slab (segments image), q.Touches bias page) := by
  obtain ⟨l, hrun, hspace, hvmas, hbrk⟩ := elfLoadAt_run hload
  obtain ⟨hprog, hperm⟩ := (Progress.start env.slab).run hrun
  rw [hspace, hvmas, hbrk]
  refine ⟨hprog.described, fun page => hprog.page_bounds, hprog.brk, ?_⟩
  rw [append_nil] at hperm
  have hmem : ∀ q ∈ env.describes env.slab (segments image), q ∈ segments image ∧
      q.pMemsz ≠ 0 ∧ q.vaddr bias + q.pMemsz ≤ userVaddrTop := by
    intro q hq
    rw [Env.describes] at hq
    split_ifs at hq
    · obtain ⟨hseg, hsize⟩ := mem_granted hq
      exact ⟨hseg, hsize, (hprog.bounds q hseg hsize).2⟩
    · cases hq
  refine and_congr ?_ ?_
  · refine (hperm.pairwise_iff Or.symm).trans ?_
    rw [List.pairwise_map]
    constructor <;> refine fun hpairs => hpairs.imp_of_mem fun {a b} ha hb hab => ?_
    · exact (area_apart (hmem a ha).2.1 (hmem a ha).2.2 (hmem b hb).2.1 (hmem b hb).2.2).mp hab
    · exact (area_apart (hmem a ha).2.1 (hmem a ha).2.2 (hmem b hb).2.1 (hmem b hb).2.2).mpr hab
  · have hcover : ∀ addr, (∃ v ∈ l.vmas, v.contains addr = true) ↔
        ∃ q ∈ env.describes env.slab (segments image), q.Touches bias (addr / pageSize) := by
      intro addr
      simp only [hperm.mem_iff, List.mem_map, exists_exists_and_eq_and]
      refine exists_congr fun q => and_congr_right fun hq => ?_
      exact area_contains (hmem q hq).2.1 (hmem q hq).2.2 addr
    simp only [hcover, hprog.described.mapped]
    constructor
    · intro hall ph hph page htouches
      have hpage : page * pageSize / pageSize = page := Nat.mul_div_cancel _ (by decide)
      have hpages := (hall (page * pageSize)).mpr
      rw [hpage] at hpages
      exact hpages ⟨ph, hph, htouches⟩
    · intro hall addr
      refine ⟨fun ⟨q, hq, htouches⟩ => ⟨q, (hmem q hq).1, htouches⟩, ?_⟩
      rintro ⟨ph, hph, htouches⟩
      exact hall ph hph _ htouches

/-- An image of two segments: its own bytes at `0x1000`, and sixteen bytes of them and
sixteen zeroes at `256 * second`. -/
def twoSegments (second : Byte) : Mem := fun addr =>
  ([(0, 0x7F), (1, 0x45), (2, 0x4C), (3, 0x46), (4, 2), (5, 1), (18, 62), (25, 0x10),
    (32, 64), (52, 64), (54, 56), (56, 2),
    (64, 1), (68, 5), (81, 0x10), (96, 176), (104, 176),
    (120, 1), (124, 6), (137, second), (152, 0x10), (160, 0x20)].lookup addr).getD 0

def roomyEnv : Env := ⟨fun _ => .mapped, [true, true], true⟩

theorem elf_loads_described_image_apart :
    ∃ r, elfLoadAt roomyEnv (twoSegments 0x40) 176 0 = some r ∧
      Described (twoSegments 0x40) 0 r.space (segments (twoSegments 0x40)) ∧
      IsBreak 0 (segments (twoSegments 0x40)) r.brk ∧
      r.vmas.Pairwise (fun v w => v.vaEnd ≤ w.vaStart ∨ w.vaEnd ≤ v.vaStart) ∧
      ∀ addr, (∃ v ∈ r.vmas, v.contains addr = true) ↔ (r.space (addr / pageSize)).isSome := by
  have hsome : (elfLoadAt roomyEnv (twoSegments 0x40) 176 0).isSome = true := by
    decide +kernel
  obtain ⟨r, hload⟩ := isSome_iff_exists.mp hsome
  obtain ⟨hdesc, -, hbreak, hareas⟩ := elf_loads_described_image _ _ _ _ _ hload
  have hsegs : segments (twoSegments 0x40) =
      [⟨1, 5, 0, 0x1000, 176, 176⟩, ⟨1, 6, 0, 0x4000, 16, 32⟩] := by
    decide +kernel
  have hall : roomyEnv.describes roomyEnv.slab (segments (twoSegments 0x40)) =
      segments (twoSegments 0x40) := by
    rw [hsegs]
    decide
  have hapart : Apart 0 (segments (twoSegments 0x40)) := by
    rw [hsegs, Apart, pairwise_pair]
    rintro page ⟨⟨-, -, hlast⟩, -, hfirst, -⟩
    simp only [Phdr.vaddr, wrap64, pageSize] at hlast hfirst
    omega
  rw [hall] at hareas
  exact ⟨r, hload, hdesc, hbreak, hareas.mpr ⟨hapart, fun ph hph _ h => ⟨ph, hph, h⟩⟩⟩

/-- With the second segment at `0x1800` both areas are `[0x1000, 0x2000)`; and if no area
can be had, pages are mapped that no area covers. -/
theorem elf_areas_fail : (∃ r, elfLoadAt roomyEnv (twoSegments 0x18) 176 0 = some r ∧
      ¬ r.vmas.Pairwise fun v w => v.vaEnd ≤ w.vaStart ∨ w.vaEnd ≤ v.vaStart) ∧
    ∃ r, elfLoadAt { roomyEnv with slab := [false, false] } (twoSegments 0x40) 176 0 =
        some r ∧ (r.space (0x1000 / pageSize)).isSome ∧
      ¬ ∃ v ∈ r.vmas, v.contains 0x1000 = true := by
  constructor
  · have hvmas : (elfLoadAt roomyEnv (twoSegments 0x18) 176 0).map (·.vmas) =
        some [⟨0x1000, 0x2000, 25, none, 0, 0⟩, ⟨0x1000, 0x2000, 41, none, 0, 0⟩] := by
      decide +kernel
    obtain ⟨r, hload, hlist⟩ := map_eq_some_iff.mp hvmas
    refine ⟨r, hload, ?_⟩
    rw [hlist]
    decide
  · have hresult : (elfLoadAt { roomyEnv with slab := [false, false] } (twoSegments 0x40)
        176 0).map (fun r => (r.vmas, (r.space (0x1000 / pageSize)).isSome)) = some ([], true) := by
      decide +kernel
    obtain ⟨r, hload, hpair⟩ := map_eq_some_iff.mp hresult
    obtain ⟨hlist, hmapped⟩ := Prod.ext_iff.mp hpair
    refine ⟨r, hload, hmapped, ?_⟩
    rintro ⟨v, hmem, -⟩
    have hnil : r.vmas = [] := hlist
    rw [hnil] at hmem
    cases hmem

end AuraLite.Elf

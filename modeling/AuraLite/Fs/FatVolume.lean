import AuraLite.Lib.ByteMemory

/-!
# FAT32 volumes

The boot sector, the table and the allocator of `fat32.c`, on a device of sectors.  The
geometry comes from the boot sector in arithmetic of 32 bits.
-/

namespace AuraLite.Fat

open Option ByteMemory

def u32 (n : ℕ) : ℕ := n % 2 ^ 32

/-- `a - b` in 32 bits. -/
def sub32 (a b : ℕ) : ℕ := (a + 2 ^ 32 - b) % 2 ^ 32

/-- `FAT_EOC`. -/
def eoc : ℕ := 0x0FFFFFFF

/-- Sectors of 512 bytes; some cannot be accessed. -/
structure Device where
  sectors : ℕ → Mem
  fails : ℕ → Bool

/-- `read_sect_abs`. -/
def Device.read (d : Device) (lba : ℕ) : Option Mem :=
  if d.fails lba then none else some (d.sectors lba)

/-- `write_sect_abs`. -/
def Device.write (d : Device) (lba : ℕ) (m : Mem) : Device × Bool :=
  if d.fails lba then (d, false)
  else ({ d with sectors := Function.update d.sectors lba m }, true)

/-- `fs_write_block`: sectors one after the other. -/
def Device.writeBlocks (d : Device) (lba : ℕ) (m : Mem) : ℕ → Device × Bool
  | 0 => (d, true)
  | count + 1 =>
    if (d.write lba m).2 then
      (d.write lba m).1.writeBlocks (u32 (lba + 1)) (fun i => m (512 + i)) count
    else ((d.write lba m).1, false)

/-- `struct fat32_mount`, the part that comes from the boot sector. -/
structure Geometry where
  baseLba : ℕ
  sectPerClus : ℕ
  reserved : ℕ
  numFats : ℕ
  fatSectors : ℕ
  totalSectors : ℕ
  rootCluster : ℕ
  fsinfoSect : ℕ
  fatLba : ℕ
  dataLba : ℕ
  clusterCount : ℕ
  bytesPerClus : ℕ
deriving DecidableEq

/-! ## The boot sector -/

def read16 (m : Mem) (addr : ℕ) : ℕ := readLE m addr 2

/-- The boot sector of a volume. -/
def looksFat (boot : Mem) : Bool :=
  decide (boot 510 = 0x55) && decide (boot 511 = 0xAA) &&
    decide ([boot 82, boot 83, boot 84, boot 85, boot 86] = [70, 65, 84, 51, 50])

def derive (baseLba sectPerClus reserved numFats fatSectors totalSectors rootCluster
    fsinfoSect : ℕ) : Geometry where
  baseLba := baseLba
  sectPerClus := sectPerClus
  reserved := reserved
  numFats := numFats
  fatSectors := fatSectors
  totalSectors := totalSectors
  rootCluster := rootCluster
  fsinfoSect := fsinfoSect
  fatLba := u32 (baseLba + reserved)
  dataLba := u32 (u32 (baseLba + reserved) + numFats * fatSectors)
  clusterCount := sub32 totalSectors
    (sub32 (u32 (u32 (baseLba + reserved) + numFats * fatSectors)) baseLba)
  bytesPerClus := u32 (sectPerClus * 512)

/-- The end of `parse_or_format`. -/
def geometryOf (baseLba : ℕ) (boot : Mem) : Option Geometry :=
  if read16 boot 11 ≠ 512 then none
  else if (boot 13 : ℕ) < 1 ∨ (boot 16 : ℕ) < 1 then none
  else some (derive baseLba (boot 13) (read16 boot 14) (boot 16) (read32 boot 36)
    (read32 boot 32) (read32 boot 44) (read16 boot 48))

/-- The geometry of `format_default`. -/
def defaultGeometry : Geometry := derive 64 1 32 1 64 8192 2 1

def putBytes (m : Mem) (addr : ℕ) (bytes : List Byte) : Mem := fun x =>
  if addr ≤ x then bytes.getD (x - addr) (m x) else m x

def emptySector : Mem := fun _ => 0

/-- The boot sector that `format_default` writes. -/
def bootSector (g : Geometry) : Mem :=
  let m := putBytes emptySector 0 [0xEB, 0x58, 0x90, 65, 85, 82, 65, 76, 73, 84, 69]
  let m := writeLE m 11 2 512
  let m := writeLE m 13 1 g.sectPerClus
  let m := writeLE m 14 2 g.reserved
  let m := writeLE m 16 1 g.numFats
  let m := write32 m 32 g.totalSectors
  let m := putBytes m 21 [0xF8]
  let m := writeLE m 24 2 63
  let m := writeLE m 26 2 255
  let m := write32 m 28 g.baseLba
  let m := write32 m 36 g.fatSectors
  let m := write32 m 44 g.rootCluster
  let m := writeLE m 48 2 1
  let m := writeLE m 50 2 6
  let m := putBytes m 64 [0x80]
  let m := putBytes m 66 [0x29]
  let m := write32 m 67 0xA2026022
  let m := putBytes m 71 [65, 85, 82, 65, 76, 73, 84, 69, 32, 32, 32]
  let m := putBytes m 82 [70, 65, 84, 51, 50, 32, 32, 32]
  putBytes m 510 [0x55, 0xAA]

/-! ## The table -/

structure Volume where
  geometry : Geometry
  device : Device
  freeCount : ℕ
  nextFree : ℕ

def Geometry.clusterToLba (g : Geometry) (cl : ℕ) : ℕ :=
  u32 (g.dataLba + sub32 cl 2 * g.sectPerClus)

/-- The sector of an entry in a copy of the table. -/
def Geometry.entryLba (g : Geometry) (copy cl : ℕ) : ℕ :=
  u32 (g.fatLba + copy * g.fatSectors + u32 (cl * 4) / 512)

def Geometry.entryOff (cl : ℕ) : ℕ := u32 (cl * 4) % 512

/-- The numbers of clusters. -/
def Geometry.InRange (g : Geometry) (cl : ℕ) : Prop := 2 ≤ cl ∧ cl < u32 (g.clusterCount + 2)

instance (g : Geometry) (cl : ℕ) : Decidable (g.InRange cl) :=
  inferInstanceAs (Decidable (_ ∧ _))

def Volume.fatGet (v : Volume) (cl : ℕ) : ℕ :=
  if v.geometry.InRange cl then
    (v.device.read (v.geometry.entryLba 0 cl)).elim eoc fun sector =>
      read32 sector (Geometry.entryOff cl) % 2 ^ 28
  else eoc

/-- The copies of the table, one after the other. -/
def setCopies (g : Geometry) (cl value : ℕ) : List ℕ → Device → Device × Bool
  | [], d => (d, true)
  | copy :: copies, d =>
    match d.read (g.entryLba copy cl) with
    | none => (d, false)
    | some sector =>
      let previous := read32 sector (Geometry.entryOff cl)
      let written := d.write (g.entryLba copy cl) (write32 sector (Geometry.entryOff cl)
        (previous / 2 ^ 28 * 2 ^ 28 + value % 2 ^ 28))
      if written.2 then setCopies g cl value copies written.1 else (written.1, false)

def Volume.fatSetAll (v : Volume) (cl value : ℕ) : Volume × Bool :=
  if v.geometry.InRange cl then
    let set := setCopies v.geometry cl value (List.range v.geometry.numFats) v.device
    ({ v with device := set.1 }, set.2)
  else (v, false)

def Volume.writeCluster (v : Volume) (cl : ℕ) (m : Mem) : Volume × Bool :=
  let written := v.device.writeBlocks (v.geometry.clusterToLba cl) m v.geometry.sectPerClus
  ({ v with device := written.1 }, written.2)

def Volume.fsinfoSave (v : Volume) : Volume :=
  if v.geometry.fsinfoSect = 0 then v
  else
    match v.device.read (u32 (v.geometry.baseLba + v.geometry.fsinfoSect)) with
    | none => v
    | some sector =>
      { v with device := (v.device.write (u32 (v.geometry.baseLba + v.geometry.fsinfoSect))
          (write32 (write32 sector 488 v.freeCount) 492 v.nextFree)).1 }

def Volume.fsinfoLoad (v : Volume) : Volume :=
  if v.geometry.fsinfoSect = 0 then v
  else
    match v.device.read (u32 (v.geometry.baseLba + v.geometry.fsinfoSect)) with
    | none => v
    | some sector =>
      if read32 sector 0 ≠ 0x41615252 ∨ read32 sector 484 ≠ 0x61417272 ∨
          read32 sector 508 ≠ 0xAA550000 then
        { v with freeCount := 0xFFFFFFFF, nextFree := 3 }
      else
        { v with
          freeCount := read32 sector 488
          nextFree := if v.geometry.InRange (read32 sector 492) then read32 sector 492 else 3 }

/-! ## Allocation -/

/-- The order in which `alloc_cluster` scans. -/
def Volume.candidates (v : Volume) : List ℕ :=
  let start := if 2 ≤ v.nextFree then v.nextFree else 3
  List.range' start (u32 (v.geometry.clusterCount + 2) - start) ++ List.range' 2 (start - 2)

/-- The cluster is linked behind another. -/
def Volume.linkAfter (v : Volume) (link cl : ℕ) : Volume × Bool :=
  if link ≠ 0 then v.fatSetAll link cl else (v, true)

/-- The cluster has been taken. -/
def Volume.took (v : Volume) (cl : ℕ) : Volume :=
  { v with
    nextFree := u32 (cl + 1)
    freeCount :=
      if v.freeCount ≠ 0xFFFFFFFF ∧ 0 < v.freeCount then v.freeCount - 1 else v.freeCount }

def Volume.claim (v : Volume) (cl link : ℕ) : Volume × ℕ :=
  let marked := v.fatSetAll cl eoc
  if marked.2 then
    let linked := marked.1.linkAfter link cl
    if linked.2 then
      let zeroed := linked.1.writeCluster cl emptySector
      if zeroed.2 then ((zeroed.1.took cl).fsinfoSave, cl) else (zeroed.1, 0)
    else (linked.1, 0)
  else (marked.1, 0)

def Volume.allocCluster (v : Volume) (link : ℕ) : Volume × ℕ :=
  match v.candidates.find? fun cl => decide (v.fatGet cl = 0) with
  | none => (v, 0)
  | some cl => v.claim cl link

/-! ## Mounting -/

def zeroSectors (d : Device) (lba : ℕ) : ℕ → Device
  | 0 => d
  | count + 1 => zeroSectors (d.write lba emptySector).1 (u32 (lba + 1)) count

/-- `format_default`. -/
def format (d : Device) : Device × Bool :=
  let g := defaultGeometry
  let boot := d.write g.baseLba (bootSector g)
  if boot.2 then
    let d := (boot.1.write (g.baseLba + 6) (bootSector g)).1
    let info := write32 (write32 (write32 (write32 (write32 emptySector 0 0x41615252)
      484 0x61417272) 488 (g.clusterCount - 1)) 492 3) 508 0xAA550000
    let d := (d.write (g.baseLba + 1) info).1
    let d := zeroSectors d g.fatLba (g.numFats * g.fatSectors)
    let head := write32 (write32 (write32 emptySector 0 0x0FFFFFF8) 4 eoc) 8 eoc
    let d := (d.write g.fatLba head).1
    ((d.writeBlocks (g.clusterToLba g.rootCluster) emptySector g.sectPerClus).1, true)
  else (boot.1, false)

/-- The volume of a boot sector. -/
def Device.load (d : Device) (baseLba : ℕ) : Option Volume :=
  (d.read baseLba).bind fun boot =>
    (geometryOf baseLba boot).map fun g => Volume.fsinfoLoad ⟨g, d, 0, 0⟩

/-- `parse_or_format`; `found` tells that a partition table gave the base. -/
def Device.mount (d : Device) (baseLba : ℕ) (found : Bool) : Option Volume :=
  (d.read baseLba).bind fun boot =>
    if looksFat boot then d.load baseLba
    else if found then none
    else if (format d).2 then (format d).1.load 64
    else none

/-! ## The place of a cluster -/

def Geometry.dataStart (g : Geometry) : ℕ := g.baseLba + g.reserved + g.numFats * g.fatSectors

def Geometry.volumeEnd (g : Geometry) : ℕ := g.baseLba + g.totalSectors

/-- The entries of the cluster are in the copies of the table, its sectors behind the tables
and inside the volume. -/
structure Geometry.Inside (g : Geometry) (cl : ℕ) : Prop where
  entry : ∀ copy < g.numFats,
    g.baseLba + g.reserved + copy * g.fatSectors ≤ g.entryLba copy cl ∧
      g.entryLba copy cl < g.baseLba + g.reserved + (copy + 1) * g.fatSectors
  sectors : ∀ k < g.sectPerClus,
    g.dataStart ≤ g.clusterToLba cl + k ∧ g.clusterToLba cl + k < g.volumeEnd

/-- One sector to a cluster, tables that end inside the volume and have an entry for every
sector behind them (a table of `2 ^ 23` sectors holds every entry that 32 bits reach), and
sector numbers of 32 bits. -/
structure Geometry.Fits (g : Geometry) : Prop where
  sector : g.sectPerClus = 1
  tables : g.reserved + g.numFats * g.fatSectors ≤ g.totalSectors
  room : g.totalSectors + 2 ≤ g.reserved + g.numFats * g.fatSectors + 128 * g.fatSectors ∨
    2 ^ 23 ≤ g.fatSectors
  addressed : g.baseLba + g.totalSectors ≤ 2 ^ 32

/-- The geometry is of a boot sector that is accepted, with the derived fields from the
others. -/
structure Geometry.Derived (g : Geometry) : Prop where
  derive : g = derive g.baseLba g.sectPerClus g.reserved g.numFats g.fatSectors g.totalSectors
    g.rootCluster g.fsinfoSect
  total : g.totalSectors < 2 ^ 32
  clusters : 0 < g.sectPerClus
  fats : 0 < g.numFats

variable {g : Geometry} {v v' : Volume} {d d' : Device} {cl link lba : ℕ}

theorem Geometry.Fits.clusterCount (h : g.Fits) (hderived : g.Derived) :
    g.clusterCount = g.totalSectors - (g.reserved + g.numFats * g.fatSectors) := by
  obtain ⟨hderive, htotal, -, -⟩ := hderived
  have htables := h.tables
  have hend := h.addressed
  rw [hderive]
  simp only [derive, sub32, u32]
  omega

theorem Geometry.Fits.dataLba (h : g.Fits) (hderived : g.Derived)
    (hsome : g.reserved + g.numFats * g.fatSectors < g.totalSectors) :
    g.dataLba = g.dataStart := by
  have hend := h.addressed
  rw [Geometry.dataStart, hderived.derive]
  simp only [derive, u32]
  omega

theorem Geometry.Fits.fatLba (h : g.Fits) (hderived : g.Derived)
    (hsome : g.reserved + g.numFats * g.fatSectors < g.totalSectors) :
    g.fatLba = g.baseLba + g.reserved := by
  have hend := h.addressed
  rw [hderived.derive]
  simp only [derive, u32]
  omega

theorem Geometry.InRange.le (h : g.InRange cl) : 2 ≤ cl ∧ cl < g.clusterCount + 2 :=
  ⟨h.1, Nat.lt_of_lt_of_le h.2 (Nat.mod_le _ _)⟩

/-- In a geometry that fits, every cluster number is inside. -/
theorem Geometry.Fits.inside (h : g.Fits) (hderived : g.Derived) (hrange : g.InRange cl) :
    g.Inside cl := by
  have hcount := h.clusterCount hderived
  obtain ⟨hlow, hhigh⟩ := hrange.le
  have hsome : g.reserved + g.numFats * g.fatSectors < g.totalSectors := by omega
  have htotal := hderived.total
  have hend := h.addressed
  have hroom := h.room
  constructor
  · intro copy hcopy
    have hcopies : (copy + 1) * g.fatSectors ≤ g.numFats * g.fatSectors :=
      Nat.mul_le_mul_right _ hcopy
    rw [Nat.add_mul, Nat.one_mul] at hcopies ⊢
    have hentry : u32 (cl * 4) / 512 < g.fatSectors := by
      have hless : u32 (cl * 4) ≤ cl * 4 := Nat.mod_le _ _
      have hword : u32 (cl * 4) < 2 ^ 32 := Nat.mod_lt _ (by decide)
      omega
    rw [Geometry.entryLba, h.fatLba hderived hsome]
    generalize u32 (cl * 4) / 512 = row at hentry
    rw [u32]
    omega
  · intro k hk
    rw [h.sector] at hk
    have hsub : sub32 cl 2 = cl - 2 := by
      rw [sub32]
      omega
    have hdata := h.dataLba hderived hsome
    rw [Geometry.clusterToLba, h.sector, hsub, Nat.mul_one, hdata]
    rw [Geometry.dataStart, Geometry.volumeEnd, u32]
    omega

/-- In a geometry in which every cluster number is inside, the last one has its entry and
its only sector there. -/
theorem Geometry.fits_of_inside (hderived : g.Derived) (hsome : g.InRange cl)
    (hinside : ∀ cl, g.InRange cl → g.Inside cl) : g.Fits := by
  have htwo : g.InRange 2 := ⟨le_rfl, hsome.1.trans_lt hsome.2⟩
  obtain ⟨hderive, htotal, hclus, hfats⟩ := hderived
  have hfirst := (hinside 2 htwo).sectors 0 hclus
  have hdata : g.dataLba = u32 (u32 (g.baseLba + g.reserved) + g.numFats * g.fatSectors) :=
    congrArg Geometry.dataLba hderive
  have hfat : g.fatLba = u32 (g.baseLba + g.reserved) := congrArg Geometry.fatLba hderive
  have hcount : g.clusterCount = sub32 g.totalSectors (sub32 g.dataLba g.baseLba) := by
    rw [hdata]
    exact congrArg Geometry.clusterCount hderive
  have hlba : g.clusterToLba 2 = u32 g.dataLba := by
    rw [Geometry.clusterToLba, sub32, Nat.add_sub_cancel_left]
    simp
  rw [hlba, Geometry.dataStart, Geometry.volumeEnd] at hfirst
  have hstart : g.dataLba = g.dataStart ∧ g.dataStart < 2 ^ 32 := by
    rw [Geometry.dataStart]
    simp only [u32] at hdata hfirst
    omega
  rw [Geometry.dataStart] at hstart
  have hword : u32 g.dataLba = g.dataLba := by
    rw [u32]
    omega
  rw [hword] at hfirst
  have hcount : g.clusterCount =
      g.totalSectors - (g.reserved + g.numFats * g.fatSectors) := by
    simp only [sub32] at hcount
    omega
  have hrange : ∀ j < g.clusterCount, g.InRange (j + 2) := by
    intro j hj
    have hlast := htwo.2
    rw [Geometry.InRange]
    simp only [u32] at hlast ⊢
    omega
  have hplace : ∀ j < g.clusterCount, ∀ k < g.sectPerClus,
      g.dataLba ≤ u32 (g.dataLba + j * g.sectPerClus) + k ∧
        u32 (g.dataLba + j * g.sectPerClus) + k < g.volumeEnd := by
    intro j hj k hk
    have hin := (hinside (j + 2) (hrange j hj)).sectors k hk
    have hsub : sub32 (j + 2) 2 = j := by
      rw [sub32]
      omega
    rw [Geometry.clusterToLba, hsub, Geometry.dataStart, ← hstart.1] at hin
    exact hin
  have hone : g.sectPerClus = 1 := by
    by_contra hmore
    -- the cluster with the first sector that is not of the volume
    have hless := Nat.div_lt_self (by omega : 0 < g.clusterCount) (by omega : 1 < g.sectPerClus)
    have hbelow := Nat.div_mul_le_self g.clusterCount g.sectPerClus
    have habove := Nat.lt_div_mul_add hclus (a := g.clusterCount)
    have hlow := hplace _ hless 0 hclus
    have hhigh := hplace _ hless (g.sectPerClus - 1) (by omega)
    rw [Geometry.volumeEnd] at hlow hhigh
    simp only [u32] at hlow hhigh
    omega
  refine ⟨hone, by omega, ?_, ?_⟩
  · by_contra hroom
    -- the cluster whose entry would be the first one behind a table
    obtain ⟨j, hj, hrow⟩ : ∃ j < g.clusterCount, u32 ((j + 2) * 4) / 512 = g.fatSectors := by
      simp only [u32]
      by_cases hnone : g.fatSectors = 0
      · exact ⟨0, by omega, by omega⟩
      · exact ⟨128 * g.fatSectors - 2, by omega, by omega⟩
    have hentry := ((hinside (j + 2) (hrange j hj)).entry 0 hfats).2
    have hcopies : 1 * g.fatSectors ≤ g.numFats * g.fatSectors := Nat.mul_le_mul_right _ hfats
    rw [Geometry.entryLba, hrow, hfat] at hentry
    simp only [u32] at hentry
    omega
  · have hlast := hplace (g.clusterCount - 1) (by omega) 0 hclus
    rw [hone, Geometry.volumeEnd] at hlast
    simp only [u32] at hlast
    omega

/-! ## What the allocator returns -/

theorem fatGet_free (h : v.fatGet cl = 0) : v.geometry.InRange cl := by
  by_contra hout
  rw [Volume.fatGet, if_neg hout] at h
  cases h

theorem claim_result (v : Volume) (cl link : ℕ) :
    (v.claim cl link).2 = 0 ∨ (v.claim cl link).2 = cl := by
  simp only [Volume.claim]
  split_ifs
  · exact .inr rfl
  · exact .inl rfl
  · exact .inl rfl
  · exact .inl rfl

theorem alloc_inRange (h : (v.allocCluster link).2 ≠ 0) :
    v.geometry.InRange (v.allocCluster link).2 := by
  rw [Volume.allocCluster] at h ⊢
  cases hfound : v.candidates.find? fun cl => decide (v.fatGet cl = 0) with
  | none =>
    rw [hfound] at h
    exact absurd rfl h
  | some cl =>
    rw [hfound] at h
    have hdecided := List.find?_some hfound
    have hfree : v.fatGet cl = 0 := of_decide_eq_true hdecided
    have hcl : (v.claim cl link).2 = cl := (claim_result v cl link).resolve_left h
    change v.geometry.InRange (v.claim cl link).2
    rw [hcl]
    exact fatGet_free hfree

theorem write_other (hne : lba ≠ cl) (m : Mem) : (d.write cl m).1.sectors lba = d.sectors lba := by
  rw [Device.write]
  split_ifs
  · rfl
  · exact Function.update_of_ne hne m d.sectors

theorem writeBlocks_one (d : Device) (lba : ℕ) (m : Mem) :
    (d.writeBlocks lba m 1).1 = (d.write lba m).1 := by
  rw [Device.writeBlocks]
  split_ifs <;> rfl

/-- What is written to an inside cluster changes no sector outside the data. -/
theorem writeCluster_outside (hfits : v.geometry.Fits) (hinside : v.geometry.Inside cl)
    (hout : lba < v.geometry.dataStart ∨ v.geometry.volumeEnd ≤ lba) (m : Mem) :
    (v.writeCluster cl m).1.device.sectors lba = v.device.sectors lba := by
  have hone : v.geometry.sectPerClus = 1 := hfits.sector
  obtain ⟨hlow, hhigh⟩ := hinside.sectors 0 (by rw [hone]; exact Nat.one_pos)
  rw [Nat.add_zero] at hlow hhigh
  have hne : lba ≠ v.geometry.clusterToLba cl := by omega
  change (v.device.writeBlocks (v.geometry.clusterToLba cl) m
    v.geometry.sectPerClus).1.sectors lba = _
  rw [hone, writeBlocks_one]
  exact write_other hne m

/-! ## Every cluster number can be returned -/

def blankDevice : Device := ⟨fun _ => emptySector, fun _ => false⟩

theorem write_ok (hd : d.fails = fun _ => false) (lba : ℕ) (m : Mem) :
    (d.write lba m).2 = true ∧ (d.write lba m).1.fails = fun _ => false := by
  rw [Device.write, hd]
  exact ⟨rfl, rfl⟩

theorem setCopies_ok (hd : d.fails = fun _ => false) (cl value : ℕ) (copies : List ℕ) :
    (setCopies g cl value copies d).2 = true ∧
      (setCopies g cl value copies d).1.fails = fun _ => false := by
  induction copies generalizing d with
  | nil => exact ⟨rfl, hd⟩
  | cons copy copies ih =>
    have hread : d.read (g.entryLba copy cl) = some (d.sectors (g.entryLba copy cl)) := by
      rw [Device.read, hd]
      rfl
    have hwrite := write_ok hd (g.entryLba copy cl)
    simp only [setCopies, hread, (hwrite _).1, if_true]
    exact ih (hwrite _).2

theorem writeBlocks_ok (hd : d.fails = fun _ => false) (lba : ℕ) (m : Mem) (count : ℕ) :
    (d.writeBlocks lba m count).2 = true := by
  induction count generalizing d lba m with
  | zero => rfl
  | succ count ih =>
    rw [Device.writeBlocks, if_pos (write_ok hd lba m).1]
    exact ih (write_ok hd lba m).2 _ _

theorem alloc_hint (hrange : g.InRange cl) :
    (Volume.allocCluster ⟨g, blankDevice, 0, cl⟩ 0).2 = cl := by
  obtain ⟨n, hn⟩ : ∃ n, u32 (g.clusterCount + 2) - cl = n + 1 :=
    Nat.exists_eq_succ_of_ne_zero (Nat.sub_ne_zero_of_lt hrange.2)
  have hfree : Volume.fatGet ⟨g, blankDevice, 0, cl⟩ cl = 0 := by
    rw [Volume.fatGet, if_pos hrange]
    rfl
  have hfound : (Volume.candidates ⟨g, blankDevice, 0, cl⟩).find?
      (fun c => decide (Volume.fatGet ⟨g, blankDevice, 0, cl⟩ c = 0)) = some cl := by
    simp only [Volume.candidates, if_pos hrange.1, hn, List.range'_succ, List.cons_append]
    exact List.find?_cons_of_pos (decide_eq_true hfree)
  have hset := setCopies_ok (g := g) (d := blankDevice) rfl cl eoc (List.range g.numFats)
  rw [Volume.allocCluster, hfound]
  simp [Volume.claim, Volume.fatSetAll, hrange, hset.1, Volume.linkAfter, Volume.writeCluster,
    writeBlocks_ok hset.2]

/-! ## Mounted volumes -/

theorem geometryOf_derived {baseLba : ℕ} {boot : Mem} (h : geometryOf baseLba boot = some g) :
    g.Derived := by
  rw [geometryOf] at h
  split_ifs at h with hbytes hcounts
  cases h
  have hpos := not_or.mp hcounts
  exact ⟨rfl, read32_lt boot 32, Nat.not_lt.mp hpos.1, Nat.not_lt.mp hpos.2⟩

theorem fsinfoLoad_geometry (v : Volume) : v.fsinfoLoad.geometry = v.geometry := by
  rw [Volume.fsinfoLoad]
  split_ifs
  · rfl
  · cases v.device.read (u32 (v.geometry.baseLba + v.geometry.fsinfoSect)) with
    | none => rfl
    | some sector =>
      dsimp only
      by_cases hsigned : read32 sector 0 ≠ 0x41615252 ∨ read32 sector 484 ≠ 0x61417272 ∨
          read32 sector 508 ≠ 0xAA550000
      · rw [if_pos hsigned]
      · rw [if_neg hsigned]

theorem load_geometry {baseLba : ℕ} (h : d.load baseLba = some v) :
    ∃ boot, d.read baseLba = some boot ∧ geometryOf baseLba boot = some v.geometry := by
  rw [Device.load] at h
  obtain ⟨boot, hboot, hmap⟩ := bind_eq_some_iff.mp h
  obtain ⟨g, hg, hv⟩ := map_eq_some_iff.mp hmap
  refine ⟨boot, hboot, ?_⟩
  rw [hg, ← hv, fsinfoLoad_geometry]

theorem mount_derived {baseLba : ℕ} {found : Bool} (h : d.mount baseLba found = some v) :
    v.geometry.Derived := by
  rw [Device.mount] at h
  obtain ⟨boot, -, hmount⟩ := bind_eq_some_iff.mp h
  split_ifs at hmount
  · obtain ⟨boot', -, hgeometry⟩ := load_geometry hmount
    exact geometryOf_derived hgeometry
  · obtain ⟨boot', -, hgeometry⟩ := load_geometry hmount
    exact geometryOf_derived hgeometry

theorem defaultGeometry_fits : defaultGeometry.Fits := by
  constructor
  · rfl
  · decide
  · decide
  · decide

theorem zeroSectors_other {count start : ℕ} (hbelow : lba < start)
    (hend : start + count < 2 ^ 32) : (zeroSectors d start count).sectors lba = d.sectors lba := by
  induction count generalizing d start with
  | zero => rfl
  | succ count ih =>
    have hnext : u32 (start + 1) = start + 1 := Nat.mod_eq_of_lt (by omega)
    rw [zeroSectors, hnext, ih (by omega) (by omega)]
    exact write_other (Nat.ne_of_lt hbelow) emptySector

theorem format_boot (hok : (format d).2 = true) :
    (format d).1.sectors 64 = bootSector defaultGeometry := by
  have hwritten : (d.write 64 (bootSector defaultGeometry)).2 = true := by
    by_contra hfails
    have hfails' : ¬ (d.write defaultGeometry.baseLba (bootSector defaultGeometry)).2 = true :=
      hfails
    rw [format, if_neg hfails'] at hok
    cases hok
  have hboot : (d.write 64 (bootSector defaultGeometry)).1.sectors 64 =
      bootSector defaultGeometry := by
    rw [Device.write] at hwritten ⊢
    split_ifs at hwritten ⊢
    exact Function.update_self 64 _ d.sectors
  have hformat : (d.write defaultGeometry.baseLba (bootSector defaultGeometry)).2 = true := hwritten
  rw [format, if_pos hformat]
  have hroot : defaultGeometry.clusterToLba defaultGeometry.rootCluster = 160 := by decide
  have hone : defaultGeometry.sectPerClus = 1 := rfl
  have hfat : defaultGeometry.fatLba = 96 := by decide
  have hcount : defaultGeometry.numFats * defaultGeometry.fatSectors = 64 := by decide
  have hbase : defaultGeometry.baseLba = 64 := rfl
  dsimp only
  rw [hone, writeBlocks_one, hroot, hfat, hcount, hbase]
  rw [write_other (by decide), write_other (by decide),
    zeroSectors_other (by decide) (by decide), write_other (by decide), write_other (by decide)]
  exact hboot

theorem format_geometry (hplain : looksFat (d.sectors 64) = false)
    (h : d.mount 64 false = some v) : v.geometry = defaultGeometry := by
  rw [Device.mount] at h
  obtain ⟨boot, hboot, hmount⟩ := bind_eq_some_iff.mp h
  have hsector : boot = d.sectors 64 := by
    rw [Device.read] at hboot
    split_ifs at hboot
    exact (some_inj.mp hboot).symm
  rw [hsector, hplain, if_neg Bool.false_ne_true, if_neg Bool.false_ne_true] at hmount
  split at hmount
  · rename_i hok
    obtain ⟨boot', hread, hgeometry⟩ := load_geometry hmount
    have hboot' : boot' = bootSector defaultGeometry := by
      rw [← format_boot hok]
      rw [Device.read] at hread
      split_ifs at hread
      exact (some_inj.mp hread).symm
    have hparsed : geometryOf 64 (bootSector defaultGeometry) = some defaultGeometry := by
      decide +kernel
    rw [hboot', hparsed] at hgeometry
    exact (some_inj.mp hgeometry).symm
  · cases hmount

/-- An allocated cluster is inside, and writing it changes no sector of the boot area, of a
table or behind the volume. -/
def Volume.Allocates (v : Volume) (link : ℕ) : Prop :=
  (v.allocCluster link).2 ≠ 0 →
    v.geometry.Inside (v.allocCluster link).2 ∧
    ∀ (w : Volume) (m : Mem) (lba : ℕ), w.geometry = v.geometry →
      (lba < v.geometry.dataStart ∨ v.geometry.volumeEnd ≤ lba) →
      (w.writeCluster (v.allocCluster link).2 m).1.device.sectors lba = w.device.sectors lba

theorem allocates_of_fits (hfits : v.geometry.Fits) (hderived : v.geometry.Derived) (link : ℕ) :
    v.Allocates link := by
  intro hfound
  have hinside := hfits.inside hderived (alloc_inRange hfound)
  refine ⟨hinside, fun w m lba hsame hout => ?_⟩
  rw [← hsame] at hfits hinside hout
  exact writeCluster_outside hfits hinside hout m

/-- On a mounted volume the allocator stays inside the volume, whatever the tables and the
hint have become, if and only if there is no cluster or the geometry fits.  On a volume that
was just formatted it always does. -/
theorem allocation_inside (d : Device) (v : Volume) :
    (∀ baseLba found, d.mount baseLba found = some v →
      ((∀ (w : Volume) (link : ℕ), w.geometry = v.geometry → w.Allocates link) ↔
        (∀ cl, ¬ v.geometry.InRange cl) ∨ v.geometry.Fits)) ∧
    (looksFat (d.sectors 64) = false → d.mount 64 false = some v →
      ∀ (w : Volume) (link : ℕ), w.geometry = v.geometry → w.Allocates link) := by
  constructor
  · intro baseLba found hmount
    have hderived := mount_derived hmount
    refine ⟨fun hall => or_iff_not_imp_left.mpr fun hsome => ?_, ?_⟩
    · obtain ⟨cl, hcl⟩ := not_forall_not.mp hsome
      apply Geometry.fits_of_inside hderived hcl
      intro cl hrange
      have halloc := hall ⟨v.geometry, blankDevice, 0, cl⟩ 0 rfl
      rw [Volume.Allocates, alloc_hint hrange] at halloc
      exact (halloc (Nat.ne_of_gt (Nat.lt_of_lt_of_le Nat.two_pos hrange.1))).1
    · rintro (hnone | hfits) w link hsame
      · intro hfound
        have hrange := alloc_inRange hfound
        rw [hsame] at hrange
        exact absurd hrange (hnone _)
      · rw [← hsame] at hfits hderived
        exact allocates_of_fits hfits hderived link
  · intro hplain hmount w link hsame
    apply allocates_of_fits
    · rw [hsame, format_geometry hplain hmount]
      exact defaultGeometry_fits
    · rw [hsame]
      exact mount_derived hmount

theorem allocation_inside_blank :
    ∃ v, blankDevice.mount 64 false = some v ∧ (v.allocCluster 0).2 = 3 ∧ v.geometry.Inside 3 := by
  have hmounted : (blankDevice.mount 64 false).isSome = true := by decide +kernel
  obtain ⟨v, hv⟩ := isSome_iff_exists.mp hmounted
  have hthree : ((blankDevice.mount 64 false).map fun w => (w.allocCluster 0).2) = some 3 := by
    decide +kernel
  rw [hv, map_some, some_inj] at hthree
  have hinside := (allocation_inside blankDevice v).2 (by decide) hv v 0 rfl (by
    rw [hthree]
    decide)
  rw [hthree] at hinside
  exact ⟨v, hv, hthree, hinside.1⟩

/-- A volume of a hundred sectors with two sectors to a cluster; its clusters from 2 to 34
are in use. -/
def smallGeometry : Geometry := derive 64 2 32 1 1 100 2 1

def smallDevice : Device where
  sectors lba :=
    if lba = 64 then bootSector smallGeometry
    else if lba = 96 then
      fun x => if 8 ≤ x ∧ x < 140 then (if x % 4 = 3 then 0x0F else 0xFF) else 0
    else emptySector
  fails _ := false

/-- The volume ends at sector 164; its clusters are counted in sectors, and the next one to be
allocated reaches past the end. -/
theorem allocation_outside : ((smallDevice.mount 64 false).map fun v =>
      (decide (v.geometry = smallGeometry), (v.allocCluster 0).2,
        v.geometry.clusterToLba (v.allocCluster 0).2 + 1, v.geometry.volumeEnd)) =
      some (true, 35, 164, 164) := by
  decide +kernel

end AuraLite.Fat

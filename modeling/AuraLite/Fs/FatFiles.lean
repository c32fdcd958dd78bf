import AuraLite.Fs.FatVolume

/-!
# Files and directories of a FAT32 volume

The chains, the directories and the file operations of `fat32.c` on a device without
errors.  The table is a function of the cluster number, and a cluster has its bytes.
Directories are read and written in slots of 32 bytes; vnodes live in a pool and keep
their own copy of what the directory says.
-/

namespace AuraLite.FatFs

open ByteMemory

export Fat (eoc)

/-- `FAT_BAD`. -/
def bad : ℕ := 0x0FFFFFF7

/-- `struct fat_vinfo`; `valid` tells that the embedded vnode has its `fs_data`. -/
structure Vinfo where
  inUse : Bool
  path : List Byte
  first : ℕ
  size : ℕ
  parent : ℕ
  off : ℕ
  isDir : Bool
  hintIdx : ℕ
  hintCluster : ℕ
  valid : Bool
deriving DecidableEq

structure Vol where
  count : ℕ
  bpc : ℕ
  root : ℕ
  fat : ℕ → ℕ
  content : ℕ → Mem
  nextFree : ℕ
  pool : List Vinfo

/-! ## The table -/

def Live (cl : ℕ) : Prop := 2 ≤ cl ∧ cl < bad

instance (cl : ℕ) : Decidable (Live cl) := inferInstanceAs (Decidable (_ ∧ _))

def Vol.InRange (v : Vol) (cl : ℕ) : Prop := 2 ≤ cl ∧ cl < v.count + 2

instance (v : Vol) (cl : ℕ) : Decidable (v.InRange cl) := inferInstanceAs (Decidable (_ ∧ _))

def Vol.fatGet (v : Vol) (cl : ℕ) : ℕ := if v.InRange cl then v.fat cl else eoc

def Vinfo.clearHint (x : Vinfo) : Vinfo := { x with hintIdx := 0, hintCluster := 0 }

/-- `fat_set_all`, with `vinfo_hints_invalidate`. -/
def Vol.fatSet (v : Vol) (cl value : ℕ) : Vol :=
  if v.InRange cl then
    { v with
      fat := Function.update v.fat cl (value % 2 ^ 28)
      pool := v.pool.map Vinfo.clearHint }
  else v

def zeroCluster : Mem := fun _ => 0

/-- The order in which `alloc_cluster` scans. -/
def Vol.candidates (v : Vol) : List ℕ :=
  let start := if 2 ≤ v.nextFree then v.nextFree else 3
  List.range' start (v.count + 2 - start) ++ List.range' 2 (start - 2)

/-- The free cluster is taken, behind `link` if that is one. -/
def Vol.claim (v : Vol) (cl link : ℕ) : Vol × ℕ :=
  let marked := v.fatSet cl eoc
  if link ≠ 0 ∧ ¬ v.InRange link then (marked, 0)
  else
    let linked := if link ≠ 0 then marked.fatSet link cl else marked
    ({ linked with
      content := Function.update linked.content cl zeroCluster
      nextFree := cl + 1 }, cl)

/-- `alloc_cluster`. -/
def Vol.alloc (v : Vol) (link : ℕ) : Vol × ℕ :=
  match v.candidates.find? fun cl => decide (v.fatGet cl = 0) with
  | none => (v, 0)
  | some cl => v.claim cl link

/-- The loop of `free_chain`. -/
def Vol.freeFrom (v : Vol) : ℕ → ℕ → Vol
  | 0, _ => v
  | fuel + 1, cl =>
    if Live cl then (v.fatSet cl 0).freeFrom fuel (v.fatGet cl) else v

def Vol.freeChain (v : Vol) (first : ℕ) : Vol := v.freeFrom (v.count + 2) first

/-- The loop of `chain_at`. -/
def Vol.walk (v : Vol) : ℕ → ℕ → ℕ
  | 0, cl => cl
  | idx + 1, cl => if Live cl then v.walk idx (v.fatGet cl) else cl

def Vol.chainAt (v : Vol) (first idx : ℕ) : ℕ :=
  if Live (v.walk idx first) then v.walk idx first else 0

/-- The loop of `ensure_chain`. -/
def Vol.extend (v : Vol) (cl : ℕ) : ℕ → Vol × Bool
  | 0 => (v, true)
  | needed + 1 =>
    if bad ≤ v.fatGet cl ∨ v.fatGet cl = 0 then
      if (v.alloc cl).2 = 0 then ((v.alloc cl).1, false)
      else (v.alloc cl).1.extend (v.alloc cl).2 needed
    else v.extend (v.fatGet cl) needed

/-- The head of a chain, made when there is none. -/
def Vol.ensureHead (v : Vol) (first : ℕ) : Vol × ℕ :=
  if first = 0 then v.alloc 0 else (v, first)

def Vol.ensureChain (v : Vol) (first needed : ℕ) : Vol × ℕ :=
  if needed = 0 then (v, first)
  else if (v.ensureHead first).2 = 0 then ((v.ensureHead first).1, 0)
  else
    let extended := (v.ensureHead first).1.extend (v.ensureHead first).2 (needed - 1)
    (extended.1, if extended.2 then (v.ensureHead first).2 else 0)

/-- The loop of `truncate_chain`: the last cluster to be kept. -/
def Vol.lastKept (v : Vol) : ℕ → ℕ → Option ℕ
  | 0, cl => some cl
  | keep + 1, cl =>
    if Live cl then
      if bad ≤ v.fatGet cl then none else v.lastKept keep (v.fatGet cl)
    else some cl

/-- The chain ends at `cl`, and what was behind it is freed. -/
def Vol.cutAfter (v : Vol) (cl : ℕ) : Vol :=
  if Live (v.fatGet cl) then (v.fatSet cl eoc).freeChain (v.fatGet cl) else v.fatSet cl eoc

def Vol.truncateChain (v : Vol) (first keep : ℕ) : Vol :=
  if first = 0 then v
  else if keep = 0 then v.freeChain first
  else (v.lastKept (keep - 1) first).elim v v.cutAfter

/-- The length of a chain, for `dir_chain_bytes`. -/
def Vol.chainLength (v : Vol) : ℕ → ℕ → ℕ
  | 0, _ => 0
  | fuel + 1, cl => if Live cl then v.chainLength fuel (v.fatGet cl) + 1 else 0

/-! ## Slots of a directory -/

def window (m : Mem) (off : ℕ) : Mem := fun i => if i < 32 then m (off + i) else 0

def splice (m : Mem) (off : ℕ) (slot : Mem) : Mem := fun x =>
  if off ≤ x ∧ x < off + 32 then slot (x - off) else m x

/-- `dir_read_entry`. -/
def Vol.dirRead (v : Vol) (dir off : ℕ) : Option Mem :=
  if v.chainAt dir (off / v.bpc) = 0 then none
  else some (window (v.content (v.chainAt dir (off / v.bpc))) (off % v.bpc))

def Vol.putSlot (v : Vol) (cl off : ℕ) (slot : Mem) : Vol :=
  { v with content := Function.update v.content cl (splice (v.content cl) off slot) }

/-- The slot is written if its cluster is there. -/
def Vol.dirPut (v : Vol) (dir off : ℕ) (slot : Mem) : Vol × Bool :=
  if v.chainAt dir (off / v.bpc) = 0 then (v, false)
  else (v.putSlot (v.chainAt dir (off / v.bpc)) (off % v.bpc) slot, true)

/-- `dir_write_entry`. -/
def Vol.dirWrite (v : Vol) (dir off : ℕ) (slot : Mem) : Vol × Bool :=
  if v.chainAt dir (off / v.bpc) = 0 then
    let extended := v.ensureChain dir (off / v.bpc + 1)
    if extended.2 = 0 then (extended.1, false) else extended.1.dirPut dir off slot
  else v.dirPut dir off slot

/-- `dir_chain_bytes`. -/
def Vol.dirBytes (v : Vol) (dir : ℕ) : ℕ := v.chainLength (v.count + 2) dir * v.bpc

/-! ## Short entries -/

/-- Bit 3 of the attributes marks labels, all of the low four bits long names. -/
def isLong (slot : Mem) : Bool := decide ((slot 11 : ℕ) % 16 = 15)
def isLabel (slot : Mem) : Bool := decide ((slot 11 : ℕ) / 8 % 2 = 1)
def isDirectory (attr : Byte) : Bool := decide ((attr : ℕ) / 16 % 2 = 1)

def name83 (slot : Mem) : List Byte := (List.range 11).map slot

def clusterOf (slot : Mem) : ℕ := readLE slot 20 2 * 65536 + readLE slot 26 2

def sizeOf (slot : Mem) : ℕ := read32 slot 28

/-- The fields that `update_sfn_entry` sets. -/
def setFields (slot : Mem) (first size : ℕ) : Mem :=
  write32 (writeLE (writeLE slot 20 2 (first / 65536)) 26 2 first) 28 size

/-- `build_sfn_entry`. -/
def buildEntry (name : List Byte) (attr : Byte) (first size : ℕ) : Mem :=
  setFields (fun i => if i < 11 then name.getD i 32 else if i = 11 then attr else 0) first size

/-! ## Names -/

def upcase (c : Byte) : Byte := if 97 ≤ c ∧ c ≤ 122 then c - 32 else c

def lfnChecksum (name : List Byte) : Byte :=
  name.foldl (fun (sum c : Byte) => lowByte (sum.val % 2 * 128 + sum.val / 2 + c.val)) 0

def allowed (c : Byte) : Bool :=
  (65 ≤ c && c ≤ 90) || (48 ≤ c && c ≤ 57) || c == 95 || c == 45

/-- The name up to its last dot, and what follows that dot. -/
def splitDot (name : List Byte) : List Byte × List Byte :=
  if name.contains 46 then
    ((name.reverse.dropWhile (· ≠ 46)).tail.reverse, (name.reverse.takeWhile (· ≠ 46)).reverse)
  else (name, [])

def pad (width : ℕ) (name : List Byte) : List Byte :=
  (name ++ List.replicate width 32).take width

def plain (c : Byte) : Byte := if allowed (upcase c) then upcase c else 95

/-- `to_name83`; an empty name has none. -/
def toName83 (name : List Byte) (index : ℕ) : Option (List Byte) :=
  if name = [] then none
  else
    let base := (splitDot name).1
    let ext := (splitDot name).2
    let needsAlias := decide (8 < base.length) || decide (3 < ext.length) ||
      base.any fun c => !(allowed (upcase c) || upcase c == 32)
    if !needsAlias && index == 0 then
      some (pad 8 ((base.map upcase).filter (· ≠ 32)) ++ pad 3 (ext.map upcase))
    else
      some (pad 8 ((base.map plain).take 6 ++ [126, lowByte (48 + min (max index 1) 9)]) ++
        pad 3 (ext.map plain))

/-- `name83_to_display`. -/
def display (name : List Byte) : List Byte :=
  (name.take 8).takeWhile (· ≠ 32) ++
    (if (name.drop 8).all (· == 32) then []
      else 46 :: (name.drop 8).takeWhile (· ≠ 32))

/-- The places of the thirteen characters in a slot of a long name. -/
def longPlaces : List ℕ := [1, 3, 5, 7, 9, 14, 16, 18, 20, 22, 24, 28, 30]

/-- `lfn_decode`, of slots in the order of the disk. -/
def decodeLong (slots : List Mem) : List Byte :=
  (((slots.reverse.flatMap fun slot => longPlaces.map fun place => readLE slot place 2).takeWhile
    fun unit => decide (unit ≠ 0) && decide (unit ≠ 65535)).map
      fun unit => if unit < 128 then lowByte unit else 63).take 127

/-- The characters of one slot of a long name. -/
def longUnit (name : List Byte) (index : ℕ) : ℕ :=
  if index < name.length then (name.getD index 0 : ℕ)
  else if index = name.length then 0 else 65535

/-- One slot of `lfn_build`: the number of the slot, then the thirteen characters. -/
def buildLong (name : List Byte) (checksum : Byte) (count i : ℕ) : Mem :=
  (List.range 13).foldl
    (fun slot k => writeLE slot (longPlaces.getD k 0) 2
      (longUnit name ((count - i - 1) * 13 + k)))
    (fun x =>
      if x = 0 then lowByte (count - i + if i = 0 then 64 else 0)
      else if x = 11 then 15 else if x = 13 then checksum
      else if x = 12 ∨ x = 26 ∨ x = 27 ∨ 32 ≤ x then 0 else 255)

/-! ## Scanning a directory -/

/-- What `dir_iter_next` reports. -/
structure Found where
  name : List Byte
  slot : Mem
  off : ℕ
  span : ℕ

/-- The name that is shown: the long one if its checksum fits. -/
def shownName (slot : Mem) (pending : List Mem) : List Byte :=
  let long := decodeLong pending
  if (pending.getLast?.map fun last => last 13) = some (lfnChecksum (name83 slot)) ∧ long ≠ []
  then long else display (name83 slot)

/-- The entries from an offset on; `pending` has the slots of a long name. -/
def Vol.scan (v : Vol) (dir : ℕ) : ℕ → ℕ → List Mem → List Found
  | 0, _, _ => []
  | fuel + 1, off, pending =>
    match v.dirRead dir off with
    | none => []
    | some slot =>
      if slot 0 = 0 then []
      else if slot 0 = 0xE5 then v.scan dir fuel (off + 32) []
      else if isLong slot then
        v.scan dir fuel (off + 32)
          (if pending.length < 20 then pending ++ [slot] else pending)
      else if isLabel slot then v.scan dir fuel (off + 32) []
      else
        ⟨shownName slot pending, slot, off, pending.length⟩ ::
          v.scan dir fuel (off + 32) []

def Vol.entries (v : Vol) (dir : ℕ) : List Found :=
  v.scan dir ((v.count + 2) * v.bpc) 0 []

def Vol.dirFind (v : Vol) (dir : ℕ) (name : List Byte) : Option Found :=
  (v.entries dir).find? fun found => found.name.map upcase == name.map upcase

/-- The components of a path; `path_resolve` cuts them after 127 characters. -/
def components : ℕ → List Byte → List (List Byte)
  | 0, _ => []
  | fuel + 1, path =>
    let rest := path.dropWhile (· == 47)
    if rest = [] then []
    else
      let component := (rest.takeWhile (· ≠ 47)).take 127
      component :: components fuel (rest.drop component.length)

/-- Where a path leads: its directory, its last component and the entry if there is one. -/
structure Resolved where
  parent : ℕ
  base : List Byte
  found : Option Found

/-- The loop of `path_resolve`. -/
def Vol.resolveFrom (v : Vol) (dir : ℕ) : List (List Byte) → Option Resolved
  | [] => none
  | [component] => some ⟨dir, component, v.dirFind dir component⟩
  | component :: rest =>
    (v.dirFind dir component).bind fun found =>
      if isDirectory (found.slot 11) then
        v.resolveFrom
          (if clusterOf found.slot = 0 then v.root else clusterOf found.slot) rest
      else none

/-- `path_resolve` for a path below the root. -/
def Vol.resolve (v : Vol) (path : List Byte) : Option Resolved :=
  v.resolveFrom v.root (components (path.length + 1) path)

def isRoot (path : List Byte) : Bool := path.all (· == 47)

/-! ## Making and removing entries -/

/-- How the search for free slots ends. -/
inductive RunSearch
  | found (off : ℕ)
  | exhausted (barrier : Option ℕ)
  | failed

/-- The loop of `find_free_run`; `barrier` is the first slot that was never used. -/
def Vol.searchRun (v : Vol) (dir count : ℕ) :
    ℕ → ℕ → ℕ → ℕ → Option ℕ → RunSearch
  | 0, _, _, _, barrier => .exhausted barrier
  | slots + 1, off, run, start, barrier =>
    match v.dirRead dir off with
    | none => .failed
    | some slot =>
      let barrier := if slot 0 = 0 ∧ barrier = none then some off else barrier
      if slot 0 = 0 ∨ slot 0 = 0xE5 then
        let start := if run = 0 then off else start
        if count ≤ run + 1 ∧ start ≤ barrier.getD 0xFFFFFFFF then .found start
        else v.searchRun dir count slots (off + 32) (run + 1) start barrier
      else v.searchRun dir count slots (off + 32) 0 start barrier

def Vol.findFreeRun (v : Vol) (dir count : ℕ) : Vol × Option ℕ :=
  match v.searchRun dir count (v.dirBytes dir / 32) 0 0 0 none with
  | .found off => (v, some off)
  | .failed => (v, none)
  | .exhausted barrier =>
    let start := barrier.getD (v.dirBytes dir)
    let clusters := max 1 ((start + count * 32 + v.bpc - 1) / v.bpc)
    let extended := v.ensureChain dir clusters
    (extended.1, if extended.2 = 0 then none else some start)

def Vol.writeSlots (v : Vol) (dir : ℕ) : ℕ → List Mem → Vol × Bool
  | _, [] => (v, true)
  | off, slot :: slots =>
    if (v.dirWrite dir off slot).2 then
      (v.dirWrite dir off slot).1.writeSlots dir (off + 32) slots
    else ((v.dirWrite dir off slot).1, false)

def Vol.sfnTaken (v : Vol) (dir : ℕ) (name : List Byte) : Bool :=
  (v.entries dir).any fun found => name83 found.slot == name

/-- The first short name that is not taken, and its number. -/
def Vol.pickAlias (v : Vol) (dir : ℕ) (name : List Byte) : Option (ℕ × List Byte) :=
  (List.range 10).findSome? fun index =>
    (toName83 name index).bind fun short =>
      if v.sfnTaken dir short then none else some (index, short)

/-- The slots of the long name, if the name needs one. -/
def longSlots (name short : List Byte) (index : ℕ) : List Mem :=
  if 0 < index ∨ display short ≠ name then
    let count := (name.length + 12) / 13
    (List.range count).map (buildLong name (lfnChecksum short) count)
  else []

/-- `dir_create_entry`. -/
def Vol.createEntry (v : Vol) (dir : ℕ) (name : List Byte) (attr : Byte) (first size : ℕ) :
    Vol × Option ℕ :=
  match v.pickAlias dir name with
  | none => (v, none)
  | some (index, short) =>
    let long := longSlots name short index
    let run := v.findFreeRun dir (long.length + 1)
    match run.2 with
    | none => (run.1, none)
    | some off =>
      let written := run.1.writeSlots dir off (long ++ [buildEntry short attr first size])
      (written.1, if written.2 then some (off + long.length * 32) else none)

def deleted (slot : Mem) : Mem := Function.update slot 0 0xE5

/-- One slot of `dir_mark_deleted`. -/
def Vol.deleteSlot (v : Vol) (dir off : ℕ) : Vol × Bool :=
  match v.dirRead dir off with
  | none => (v, false)
  | some slot => v.dirWrite dir off (deleted slot)

def Vol.deleteSlots (v : Vol) (dir : ℕ) : List ℕ → Vol × Bool
  | [] => (v, true)
  | off :: offs =>
    if (v.deleteSlot dir off).2 then (v.deleteSlot dir off).1.deleteSlots dir offs
    else ((v.deleteSlot dir off).1, false)

/-- `dir_mark_deleted`: the slots of the long name, then the entry. -/
def Vol.markDeleted (v : Vol) (dir off span : ℕ) : Vol × Bool :=
  v.deleteSlots dir ((List.range span).map (fun i => off - (span - i) * 32) ++ [off])

/-- `update_sfn_entry`. -/
def Vol.updateEntry (v : Vol) (dir off first size : ℕ) : Vol :=
  match v.dirRead dir off with
  | none => v
  | some slot => (v.dirWrite dir off (setFields slot first size)).1

/-! ## Vnodes -/

def Vol.setVinfo (v : Vol) (i : ℕ) (f : Vinfo → Vinfo) : Vol := { v with pool := v.pool.modify i f }

/-- `vinfo_intern`. -/
def Vol.intern (v : Vol) (path : List Byte) (parent off first size : ℕ) (isDir : Bool) : Vol :=
  match v.pool.findIdx? fun x => x.inUse && x.path == path with
  | some i => v.setVinfo i fun x =>
    { x with first := first, size := size, parent := parent, off := off, isDir := isDir }
  | none =>
    match v.pool.findIdx? fun x => !x.inUse with
    | some i => v.setVinfo i fun _ =>
      ⟨true, path.take 255, first, size, parent, off, isDir, 0, 0, true⟩
    | none => v

/-- `vinfo_evict_by_path`. -/
def Vol.evict (v : Vol) (path : List Byte) : Vol :=
  match v.pool.findIdx? fun x => x.inUse && x.path == path with
  | some i => v.setVinfo i fun x => { x with inUse := false }
  | none => v

/-! ## Operations -/

/-- `fat32_lookup_impl`. -/
def Vol.lookup (v : Vol) (path : List Byte) : Vol :=
  if isRoot path then v.intern path v.root 0 v.root 0 true
  else
    match v.resolve path with
    | some ⟨parent, _, some found⟩ =>
      v.intern path parent found.off (clusterOf found.slot) (sizeOf found.slot)
        (isDirectory (found.slot 11))
    | _ => v

/-- `fat32_create_impl`. -/
def Vol.create (v : Vol) (path : List Byte) : Vol :=
  match v.resolve path with
  | some ⟨parent, _, some found⟩ =>
    if isDirectory (found.slot 11) then v
    else v.intern path parent found.off (clusterOf found.slot) (sizeOf found.slot) false
  | some ⟨parent, base, none⟩ =>
    let made := v.createEntry parent base 0x20 0 0
    made.2.elim made.1 fun off => made.1.intern path parent off 0 0 false
  | none => v

def Vol.newDirectory (v : Vol) (cl parent : ℕ) : Vol :=
  let dot := buildEntry (pad 11 [46]) 0x10 cl 0
  let dotdot := buildEntry (pad 11 [46, 46]) 0x10 (if parent = v.root then 0 else parent) 0
  { v with content := Function.update v.content cl (splice (splice zeroCluster 0 dot) 32 dotdot) }

/-- `fat32_mkdir_op_impl`. -/
def Vol.mkdir (v : Vol) (path : List Byte) : Vol :=
  match v.resolve path with
  | some ⟨parent, base, none⟩ =>
    let taken := v.alloc 0
    if taken.2 = 0 then taken.1
    else
      let made := (taken.1.newDirectory taken.2 parent).createEntry parent base 0x10 taken.2 0
      if made.2 = none then made.1.freeChain taken.2 else made.1
  | _ => v

/-- The chain goes, then the entry, then the vnode. -/
def Vol.remove (v : Vol) (path : List Byte) (parent : ℕ) (found : Found) : Vol :=
  let marked := (v.freeChain (clusterOf found.slot)).markDeleted parent found.off found.span
  if marked.2 then marked.1.evict path else marked.1

/-- `fat32_unlink_op_impl`. -/
def Vol.unlink (v : Vol) (path : List Byte) : Vol :=
  match v.resolve path with
  | some ⟨parent, _, some found⟩ =>
    if isDirectory (found.slot 11) then v else v.remove path parent found
  | _ => v

def Vol.dirIsEmpty (v : Vol) (cl : ℕ) : Bool :=
  (v.entries cl).all fun found => found.name == [46] || found.name == [46, 46]

/-- `fat32_rmdir_op_impl`; the root has no entry and its first slot is taken for one. -/
def Vol.rmdir (v : Vol) (path : List Byte) : Vol :=
  if isRoot path then
    if v.dirIsEmpty v.root then
      let marked := (v.freeChain v.root).markDeleted v.root 0 0
      if marked.2 then marked.1.evict path else marked.1
    else v
  else
    match v.resolve path with
    | some ⟨parent, _, some found⟩ =>
      if isDirectory (found.slot 11) ∧ clusterOf found.slot ≠ 0 ∧
          v.dirIsEmpty (clusterOf found.slot) then
        v.remove path parent found
      else v
    | _ => v

/-- The entry is made anew at its target. -/
def Vol.moveEntry (v : Vol) (source : List Byte) (parent off span : ℕ) (attr : Byte)
    (first size target : ℕ) (base : List Byte) : Vol :=
  let marked := v.markDeleted parent off span
  if marked.2 then
    let made := marked.1.createEntry target base attr first size
    if made.2 = none then made.1 else made.1.evict source
  else marked.1

/-- `fat32_rename_op_impl`. -/
def Vol.rename (v : Vol) (source target : List Byte) : Vol :=
  match v.resolve target with
  | some ⟨parent, base, none⟩ =>
    if isRoot source then v.moveEntry source v.root 0 0 0x10 v.root 0 parent base
    else
      match v.resolve source with
      | some ⟨dir, _, some found⟩ =>
        v.moveEntry source dir found.off found.span (found.slot 11)
          (clusterOf found.slot) (sizeOf found.slot) parent base
      | _ => v
  | _ => v

/-- `chain_at_hinted`: from the cursor of the vnode if it is not behind. -/
def Vol.chainAtHinted (v : Vol) (x : Vinfo) (idx : ℕ) : ℕ :=
  let cl :=
    if x.hintCluster ≠ 0 ∧ x.hintIdx ≤ idx then v.walk (idx - x.hintIdx) x.hintCluster
    else v.walk idx x.first
  if Live cl then cl else 0

/-- The cursor of a vnode. -/
def Vol.setHint (v : Vol) (i idx cl : ℕ) : Vol :=
  if cl = 0 then v else v.setVinfo i fun x => { x with hintIdx := idx, hintCluster := cl }

/-- Bytes in a cluster. -/
def Vol.putBytes (v : Vol) (cl off : ℕ) (bytes : List Byte) : Vol :=
  { v with content := Function.update v.content cl (Fat.putBytes (v.content cl) off bytes) }

def Vol.nextCluster (v : Vol) (cl : ℕ) : ℕ := if Live (v.fatGet cl) then v.fatGet cl else 0

/-- The loop of `fat32_write_impl`. -/
def Vol.writeLoop (v : Vol) (i : ℕ) : ℕ → ℕ → ℕ → List Byte → Vol
  | 0, _, _, _ => v
  | fuel + 1, cl, pos, bytes =>
    if bytes = [] ∨ cl = 0 then v
    else
      let chunk := min (v.bpc - pos % v.bpc) bytes.length
      let written := v.putBytes cl (pos % v.bpc) (bytes.take chunk)
      if (pos + chunk) % v.bpc = 0 then
        (written.setHint i ((pos + chunk) / v.bpc % 2 ^ 32) (v.nextCluster cl)).writeLoop i
          fuel (v.nextCluster cl) (pos + chunk) (bytes.drop chunk)
      else written.writeLoop i fuel cl (pos + chunk) (bytes.drop chunk)

/-- The bytes go into a chain that is long enough, and the entry is updated. -/
def Vol.writeChain (v : Vol) (i : ℕ) (x : Vinfo) (head pos : ℕ) (bytes : List Byte) : Vol :=
  let v := v.setVinfo i fun x => { x with first := head }
  let cursor := (v.pool[i]?).elim 0 fun x => v.chainAtHinted x (pos / v.bpc % 2 ^ 32)
  if cursor = 0 then v
  else
    let size := if x.size < pos + bytes.length then (pos + bytes.length) % 2 ^ 32 else x.size
    let written := (v.setHint i (pos / v.bpc % 2 ^ 32) cursor).writeLoop i (bytes.length + 1)
      cursor pos bytes
    (written.setVinfo i fun x => { x with size := size }).updateEntry x.parent x.off head size

/-- `fat32_write_impl`. -/
def Vol.write (v : Vol) (i pos : ℕ) (bytes : List Byte) : Vol :=
  match v.pool[i]? with
  | none => v
  | some x =>
    if x.valid = false ∨ x.isDir = true ∨ bytes = [] ∨ 2 ^ 64 ≤ pos + bytes.length then v
    else
      let clusters := (pos + bytes.length + v.bpc - 1) / v.bpc % 2 ^ 32
      let ensured := v.ensureChain x.first clusters
      if ensured.2 = 0 then ensured.1 else ensured.1.writeChain i x ensured.2 pos bytes

/-- The chain of a truncated file and its head; no head when the volume is full. -/
def Vol.resize (v : Vol) (first need : ℕ) : Vol × Option ℕ :=
  if need = 0 then (if first = 0 then v else v.freeChain first, some 0)
  else
    let ensured := v.ensureChain first need
    if ensured.2 = 0 then (ensured.1, none)
    else if first = 0 then (ensured.1, some ensured.2)
    else (ensured.1.truncateChain ensured.2 need, some ensured.2)

/-- `fat32_truncate_op_impl`. -/
def Vol.truncate (v : Vol) (i size : ℕ) : Vol :=
  match v.pool[i]? with
  | none => v
  | some x =>
    if x.valid = false ∨ x.isDir = true ∨ 0xFFFFFFFF < size then v
    else
      let resized := v.resize x.first ((size + v.bpc - 1) / v.bpc)
      resized.2.elim
        (if x.first = 0 then resized.1.setVinfo i fun x => { x with first := 0 }
          else resized.1)
        fun head => (resized.1.setVinfo i fun x =>
          { x with first := head, size := size }).updateEntry x.parent x.off head size

inductive Call
  | lookup (path : List Byte)
  | create (path : List Byte)
  | write (vnode pos : ℕ) (bytes : List Byte)
  | truncate (vnode size : ℕ)
  | unlink (path : List Byte)
  | mkdir (path : List Byte)
  | rmdir (path : List Byte)
  | rename (source target : List Byte)

def Vol.step (v : Vol) : Call → Vol
  | .lookup path => v.lookup path
  | .create path => v.create path
  | .write i pos bytes => v.write i pos bytes
  | .truncate i size => v.truncate i size
  | .unlink path => v.unlink path
  | .mkdir path => v.mkdir path
  | .rmdir path => v.rmdir path
  | .rename source target => v.rename source target

end AuraLite.FatFs

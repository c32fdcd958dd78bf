import Mathlib.Data.Finset.Card
import AuraLite.Fs.Tmpfs

/-!
# Open files of a tmpfs volume

An open file description points to the vnode inside a slot of the table of names.  Beside
the volume runs its meaning: files as identities, each with the bytes written to it.  A
descriptor reads its own file as long as no new name takes the slot it points to.
-/

namespace AuraLite.OpenFile

open Vfs Fallible Reachability SlashPath
open Function (update update_self update_of_ne)

def dataAt (v : Volume) (i : ℕ) : Option ℕ := (v.files i).bind (·.data)

/-- The bytes that a read at `pos` copies. -/
def readAt (bytes : List ℕ) (pos count : ℕ) : List ℕ :=
  if bytes.length ≤ pos then []
  else (bytes.drop pos).take
    (if bytes.length < pos + count then bytes.length - pos else count)

/-- `tmpfs_read`.  A slot that was cleared has no data; its vnode has no `ops` either, which
`vfs_read` and `vfs_write` follow without a check. -/
def tmpfsRead (v : Volume) (i pos count : ℕ) : List ℕ :=
  match (dataAt v i).bind v.blocks with
  | none => []
  | some b => readAt b.bytes pos count

/-- An open file description: where its vnode is, and the file it was opened on. -/
structure Descriptor where
  slot : ℕ
  file : ℕ
deriving DecidableEq

/-- The descriptors of all processes; `content` is what was written to each file. -/
structure Session where
  vol : Volume
  fds : List Descriptor
  content : ℕ → List ℕ

inductive Call
  | openFile (path : Name) (creat mem : Bool)
  | write (fd pos : ℕ) (buf : List ℕ) (mem : Bool)
  | close (fd : ℕ)
  | unlink (path : Name)
  | rename (src dst : Name)

/-- `vfs_open` on the volume: the vnode that is found or created. -/
def openVnode (v : Volume) (path : Name) (creat mem : Bool) : Option (ℕ × Volume) :=
  match v.findFile path with
  | some i => some (i, v)
  | none => if creat then tmpfsCreate path mem v else none

def Session.ofdAlloc (s : Session) : Option (ℕ × Volume) → Session
  | none => s
  | some (i, v) =>
    match dataAt v i with
    | none => { s with vol := v }
    | some file => { s with vol := v, fds := s.fds ++ [⟨i, file⟩] }

def Session.write (s : Session) (o : Descriptor) (pos : ℕ) (buf : List ℕ) (mem : Bool) :
    Session :=
  match (tmpfsWrite o.slot pos buf mem).run s.vol with
  | .error _ v => { s with vol := v }
  | .ok _ v => ⟨v, s.fds,
      update s.content o.file (writeAt (s.content o.file) pos buf)⟩

def Session.step (s : Session) : Call → Session
  | .openFile path creat mem => s.ofdAlloc (openVnode s.vol path creat mem)
  | .write fd pos buf mem => s.fds[fd]?.elim s fun o => s.write o pos buf mem
  | .close fd => { s with fds := s.fds.eraseIdx fd }
  | .unlink path => { s with vol := after (tmpfsUnlink path) s.vol }
  | .rename src dst => { s with vol := after (tmpfsRename src dst) s.vol }

def Session.Step (s : Session) (call : Call) (s' : Session) : Prop := s.step call = s'

/-- A file is not created in a slot that a descriptor still points to. -/
def Session.Fits (s : Session) : Call → Prop
  | .openFile path creat _ =>
    creat = true → s.vol.findFile path = none → ∀ o ∈ s.fds, s.vol.freeSlot ≠ some o.slot
  | _ => True

instance (s : Session) (call : Call) : Decidable (s.Fits call) := by
  cases call <;> unfold Session.Fits <;> infer_instance

/-- The volume stands for the files: a block holds what was written to its file and lives as
long as a name has it, and a descriptor has its file behind it or nothing. -/
structure Session.Sound (s : Session) : Prop where
  block : ∀ i ino, dataAt s.vol i = some ino → ∃ b, s.vol.blocks ino = some b ∧
    b.bytes = s.content ino ∧
    ∀ slots : Finset ℕ, (∀ j ∈ slots, dataAt s.vol j = some ino) → slots.card ≤ b.refs
  known : ∀ i ino, dataAt s.vol i = some ino → ino ≤ s.vol.nextIno
  blank : ∀ ino, s.vol.nextIno < ino → s.content ino = []
  opened : ∀ o ∈ s.fds, o.file ≤ s.vol.nextIno ∧
    (dataAt s.vol o.slot = none ∨ dataAt s.vol o.slot = some o.file)

section Steps

variable {s : Session} {v w : Volume}

open Session

open Volume

theorem dataAt_setFile (v : Volume) (i : ℕ) (f : Option Entry) :
    dataAt (v.setFile i f) = update (dataAt v) i (f.bind (·.data)) := by
  funext j
  by_cases hj : j = i <;> simp [dataAt, setFile, update, hj]

theorem dataAt_dataRelease (v : Volume) (ino : Option ℕ) :
    dataAt (v.dataRelease ino) = dataAt v := by
  funext j
  rw [dataAt, dataAt, dataRelease_files]

theorem nextIno_dataRelease (v : Volume) (ino : Option ℕ) :
    (v.dataRelease ino).nextIno = v.nextIno := by
  cases ino with
  | none => rfl
  | some ino =>
    rw [dataRelease]
    split <;> rfl

/-- A write ends in the block of the slot, or changes nothing. -/
theorem tmpfsWrite_exits (v : Volume) (i pos : ℕ) (buf : List ℕ) (mem : Bool) :
    Exits (tmpfsWrite i pos buf mem) v
      (fun _ w => dataAt w = dataAt v ∧ w.nextIno = v.nextIno ∧ ∃ ino b,
        dataAt v i = some ino ∧ v.blocks ino = some b ∧ w.blocks =
          update v.blocks ino (some { b with bytes := writeAt b.bytes pos buf }))
      fun _ w => w = v := by
  refine .get_bind ?_
  cases hfile : v.files i with
  | none => exact .throw rfl
  | some f =>
    simp only
    cases hdata : f.data.bind fun ino => (v.blocks ino).map fun b => (ino, b) with
    | none => exact .throw rfl
    | some found =>
      obtain ⟨ino, hino, hblock⟩ := Option.bind_eq_some_iff.mp hdata
      obtain ⟨b, hb, rfl⟩ := Option.map_eq_some_iff.mp hblock
      refine .unless rfl fun _ => ?_
      refine .unless rfl fun _ => ?_
      have hi : dataAt v i = some ino := by simp [dataAt, hfile, hino]
      refine ⟨(dataAt_setFile _ i _).trans ?_, rfl, ino, b, hi, hb, rfl⟩
      exact Function.update_eq_self_iff.mpr (hino.trans hi.symm)

section

variable (h : s.Sound)
include h

theorem Session.Sound.of_dataAt (hdata : dataAt v = dataAt s.vol)
    (hblocks : v.blocks = s.vol.blocks) (hnext : v.nextIno = s.vol.nextIno) :
    Session.Sound { s with vol := v } := by
  constructor <;> simp only [hdata, hblocks, hnext]
  exacts [h.block, h.known, h.blank, h.opened]

theorem Session.Sound.setName (i : ℕ) (name : Name) :
    Session.Sound { s with vol := s.vol.setName i name } := by
  refine h.of_dataAt ?_ rfl rfl
  rw [Volume.setName, dataAt_setFile, Function.update_eq_self_iff, dataAt]
  cases s.vol.files i <;> rfl

/-- The block of one name goes with it only if no other name has it. -/
theorem Session.Sound.released {i t ino : ℕ} (hne : i ≠ t)
    (hdata : dataAt s.vol i = some ino) :
    ∃ b, (s.vol.dataRelease (dataAt s.vol t)).blocks ino = some b ∧
      b.bytes = s.content ino ∧ ∀ slots : Finset ℕ, t ∉ slots →
        (∀ j ∈ slots, dataAt s.vol j = some ino) → slots.card ≤ b.refs := by
  obtain ⟨b, hb, hbytes, hrefs⟩ := h.block i ino hdata
  by_cases ht : dataAt s.vol t = some ino
  · have hwith : ∀ slots : Finset ℕ, t ∉ slots → (∀ j ∈ slots, dataAt s.vol j = some ino) →
        slots.card + 1 ≤ b.refs := by
      intro slots hmem hall
      rw [← Finset.card_insert_of_notMem hmem]
      exact hrefs _ (Finset.forall_mem_insert _ _ _ |>.mpr ⟨ht, hall⟩)
    have htwo : ¬ b.refs ≤ 1 := by
      have := hwith {i} (by simpa using hne.symm) (by simpa using hdata)
      rw [Finset.card_singleton] at this
      omega
    refine ⟨{ b with refs := b.refs - 1 }, ?_, hbytes, fun slots hmem hall => ?_⟩
    · simp [ht, dataRelease, hb, htwo, setBlock]
    · exact Nat.le_sub_one_of_lt (hwith slots hmem hall)
  · refine ⟨b, ?_, hbytes, fun slots _ hall => hrefs slots hall⟩
    cases hfreed : dataAt s.vol t with
    | none => exact hb
    | some other =>
      have hother : ino ≠ other := fun heq => ht (heq ▸ hfreed)
      rw [dataRelease]
      split
      · exact hb
      · simp [setBlock, update_of_ne hother, hb]

/-- What is left when the name in slot `t` is gone, with or without its share of the data. -/
theorem Session.Sound.remove (t : ℕ) (hv : v = s.vol ∨
    v = s.vol.dataRelease (dataAt s.vol t)) :
    Session.Sound { s with vol := v.setFile t none } := by
  have hdata : dataAt (v.setFile t none) = update (dataAt s.vol) t none := by
    rcases hv with rfl | rfl <;> simp [dataAt_setFile, dataAt_dataRelease]
  have hnext : v.nextIno = s.vol.nextIno := by
    rcases hv with rfl | rfl <;> simp [nextIno_dataRelease]
  have hkept : ∀ {i ino}, dataAt (v.setFile t none) i = some ino →
      i ≠ t ∧ dataAt s.vol i = some ino := by
    intro i ino hi
    by_cases hit : i = t <;> simp_all [update]
  constructor
  · intro i ino hi
    obtain ⟨hit, hold⟩ := hkept hi
    rcases hv with rfl | rfl
    · obtain ⟨b, hb, hbytes, hrefs⟩ := h.block i ino hold
      exact ⟨b, hb, hbytes, fun slots hall => hrefs slots fun j hj => (hkept (hall j hj)).2⟩
    · obtain ⟨b, hb, hbytes, hrefs⟩ := h.released hit hold
      exact ⟨b, hb, hbytes, fun slots hall => hrefs slots
        (fun hmem => (hkept (hall t hmem)).1 rfl) fun j hj => (hkept (hall j hj)).2⟩
  · intro i ino hi
    exact hnext ▸ h.known i ino (hkept hi).2
  · intro ino hino
    exact h.blank ino (hnext ▸ hino)
  · intro o ho
    obtain ⟨hfile, hslot⟩ := h.opened o ho
    refine ⟨hnext ▸ hfile, ?_⟩
    by_cases hot : o.slot = t <;> simp_all [update]

theorem Session.Sound.unlink (path : Name) : (s.step (.unlink path)).Sound := by
  have hexits : Leaves (tmpfsUnlink path) s.vol fun v => Sound { s with vol := v } := by
    apply tmpfsUnlink_exits.leaves h
    rintro _ v ⟨i, -, rfl⟩
    exact h.remove i (.inr rfl)
  exact hexits.after

theorem Session.Sound.rename (src dst : Name) : (s.step (.rename src dst)).Sound := by
  have hexits : Leaves (tmpfsRename src dst) s.vol fun v => Sound { s with vol := v } :=
    tmpfsRename_rule h (fun _ i name hw => hw.setName i name)
      (fun t _ _ => ⟨h.remove t (.inl rfl), h.remove t (.inr rfl)⟩)
      fun _ i _ => ⟨fun _ => h, fun _ hw => hw.setName i dst⟩
  exact hexits.after

theorem Session.Sound.addFile {i : ℕ} (path : Name)
    (hslot : ∀ o ∈ s.fds, i ≠ o.slot) :
    Session.Sound { s with vol := s.vol.addFile i path } := by
  have hdata : dataAt (s.vol.addFile i path) = update (dataAt s.vol) i (some (s.vol.nextIno + 1)) :=
    dataAt_setFile { s.vol with nextIno := s.vol.nextIno + 1 } i _
  have hcases : ∀ {j ino}, dataAt (s.vol.addFile i path) j = some ino →
      j = i ∧ ino = s.vol.nextIno + 1 ∨ dataAt s.vol j = some ino ∧ ino ≤ s.vol.nextIno := by
    intro j ino hj
    by_cases hji : j = i
    · simp_all
    · rw [hdata, update_of_ne hji] at hj
      exact .inr ⟨hj, h.known j ino hj⟩
  constructor
  · intro j ino hj
    rcases hcases hj with ⟨rfl, rfl⟩ | ⟨hold, hle⟩
    · refine ⟨⟨[], 1⟩, update_self .., (h.blank _ (Nat.lt_succ_self _)).symm, ?_⟩
      intro slots hall
      refine (Finset.card_le_card (t := {j}) fun k hk => ?_).trans_eq (Finset.card_singleton j)
      rcases hcases (hall k hk) with ⟨rfl, -⟩ | ⟨-, hle⟩
      · exact Finset.mem_singleton_self k
      · omega
    · obtain ⟨b, hb, hbytes, hrefs⟩ := h.block j ino hold
      refine ⟨b, (update_of_ne (by omega) ..).trans hb, hbytes, fun slots hall => ?_⟩
      refine hrefs slots fun k hk => ?_
      rcases hcases (hall k hk) with ⟨-, rfl⟩ | ⟨hk, -⟩
      · omega
      · exact hk
  · intro j ino hj
    change ino ≤ s.vol.nextIno + 1
    rcases hcases hj with ⟨-, rfl⟩ | ⟨-, hle⟩ <;> omega
  · intro ino hino
    exact h.blank ino (Nat.lt_of_succ_lt hino)
  · intro o ho
    obtain ⟨hfile, hold⟩ := h.opened o ho
    refine ⟨Nat.le_succ_of_le hfile, ?_⟩
    simpa only [hdata, update_of_ne (hslot o ho).symm] using hold

theorem Session.Sound.openFile {path : Name} {creat mem : Bool}
    (hfits : s.Fits (.openFile path creat mem)) : (s.step (.openFile path creat mem)).Sound := by
  have hvol : ∀ i v, openVnode s.vol path creat mem = some (i, v) →
      Sound { s with vol := v } := by
    intro i v hopen
    rw [openVnode] at hopen
    cases hfind : s.vol.findFile path with
    | some k =>
      rw [hfind] at hopen
      cases hopen
      exact h
    | none =>
      have hcreate : creat = true ∧ tmpfsCreate path mem s.vol = some (i, v) := by
        cases creat <;> simp_all
      obtain ⟨hfree, rfl⟩ := tmpfsCreate_new hfind hcreate.2
      exact h.addFile path fun o ho heq => hfits hcreate.1 hfind o ho (heq ▸ hfree)
  rw [step]
  cases hopen : openVnode s.vol path creat mem with
  | none => exact h
  | some found =>
    have hsound := hvol found.1 found.2 hopen
    rw [ofdAlloc]
    cases hdata : dataAt found.2 found.1 with
    | none => exact hsound
    | some file =>
      refine { hsound with opened := fun o ho => ?_ }
      rcases List.mem_append.mp ho with ho | ho
      · exact hsound.opened o ho
      · rw [List.mem_singleton.mp ho]
        exact ⟨hsound.known _ _ hdata, .inr hdata⟩

theorem Session.Sound.write {o : Descriptor} (ho : o ∈ s.fds) (pos : ℕ)
    (buf : List ℕ) (mem : Bool) : (s.write o pos buf mem).Sound := by
  have hexits := tmpfsWrite_exits s.vol o.slot pos buf mem
  rw [Session.write]
  cases hrun : (tmpfsWrite o.slot pos buf mem).run s.vol with
  | error e v => exact (hexits.error hrun).symm ▸ h
  | ok a v =>
    obtain ⟨hdata, hnext, ino, b, hino, hb, hblocks⟩ := hexits.ok hrun
    obtain ⟨hfile, hslot⟩ := h.opened o ho
    obtain rfl : ino = o.file := by simp_all
    obtain ⟨b', hb', hbytes, hrefs⟩ := h.block o.slot _ hino
    cases hb.symm.trans hb'
    constructor <;> simp only [hdata, hnext, hblocks]
    · intro i other hi
      by_cases hother : other = o.file
      · subst hother
        exact ⟨_, update_self .., by simp [hbytes], hrefs⟩
      · simpa only [update_of_ne hother] using h.block i other hi
    · exact h.known
    · intro other hlt
      rw [update_of_ne (by omega)]
      exact h.blank other hlt
    · exact h.opened

theorem Session.Sound.step {call : Call} (hfits : s.Fits call) :
    (s.step call).Sound := by
  cases call with
  | openFile path creat mem => exact h.openFile hfits
  | write fd pos buf mem =>
    rw [Session.step]
    cases hfd : s.fds[fd]? with
    | none => exact h
    | some o => exact h.write (List.mem_of_getElem? hfd) pos buf mem
  | close fd =>
    exact { h with opened := fun o ho => h.opened o (List.mem_of_mem_eraseIdx ho) }
  | unlink path => exact h.unlink path
  | rename src dst => exact h.rename src dst

theorem Session.Sound.read {i ino : ℕ} (hdata : dataAt s.vol i = some ino) :
    tmpfsRead s.vol i = readAt (s.content ino) := by
  obtain ⟨b, hb, hbytes, -⟩ := h.block i ino hdata
  funext pos count
  rw [tmpfsRead, hdata, Option.bind_some, hb, ← hbytes]

end

end Steps

/-- As long as no file is created in a slot that a descriptor points to, a descriptor reads
what was written to its file, or nothing once its name is gone, every name reads what was
written to the file it names, and a file made later is none of those that are open. -/
theorem descriptors_read_their_file {s₀ s : Session} (hstart : s₀.Sound)
    (hrun : Reaches (guarded Session.Fits Session.Step) s₀ s) :
    (∀ o ∈ s.fds, o.file ≤ s.vol.nextIno ∧ (tmpfsRead s.vol o.slot = readAt (s.content o.file) ∨
        dataAt s.vol o.slot = none ∧ tmpfsRead s.vol o.slot = fun _ _ => [])) ∧
    ∀ i ino, dataAt s.vol i = some ino → tmpfsRead s.vol i = readAt (s.content ino) := by
  have hsound : s.Sound :=
    hrun.kept hstart fun hbefore hfits => hbefore.step hfits
  refine ⟨fun o ho => ?_, fun i ino => hsound.read⟩
  obtain ⟨hfile, hgone | hslot⟩ := hsound.opened o ho
  · refine ⟨hfile, .inr ⟨hgone, ?_⟩⟩
    funext pos count
    rw [tmpfsRead, hgone, Option.bind_none]
  · exact ⟨hfile, .inl (hsound.read hslot)⟩

/-- A volume after `tmpfs_init`. -/
def boot : Session := ⟨⟨0, true, ⟨0o777, 0, 0⟩, fun _ => none, fun _ => none, 0⟩, [], fun _ => []⟩

theorem boot_sound : boot.Sound :=
  ⟨fun _ _ h => by simp [boot, dataAt] at h, fun _ _ h => by simp [boot, dataAt] at h,
    fun _ _ => rfl, nofun⟩

/-- Two files; the second takes the name of the first, and a third one is created. -/
def replaced : List Call :=
  [.openFile ['a'] true true, .write 0 0 [7] true, .close 0, .openFile ['b'] true true,
    .rename ['b'] ['a'], .write 0 0 [9] true, .openFile ['c'] true true]

theorem descriptors_read_their_file_replaced : tmpfsRead (replaced.foldl Session.step boot).vol 1 =
      readAt ((replaced.foldl Session.step boot).content 2) := by
  have hread := @descriptors_read_their_file boot (replaced.foldl .step boot) boot_sound
    (reaches_foldl (by decide +kernel))
  exact hread.2 1 2 (by decide +kernel)

/-- The descriptor of an unlinked file reads and changes the file that was created next. -/
theorem recycled_slot_shared : ∃ s, Reaches Session.Step boot s ∧ ⟨0, 1⟩ ∈ s.fds ∧
    tmpfsRead s.vol 0 0 2 = [9, 5] ∧ readAt (s.content 1) 0 2 = [0, 5] ∧
    dataAt s.vol 0 = some 2 ∧ readAt (s.content 2) 0 2 = [9] := by
  refine ⟨_, reaches_run .step [.openFile ['a'] true true, .unlink ['a'],
    .openFile ['b'] true true, .write 1 0 [9] true, .write 0 1 [5] true] boot, ?_⟩
  decide +kernel

end AuraLite.OpenFile

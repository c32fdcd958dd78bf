import AuraLite.Lib.Reachability
import Mathlib.Data.List.TakeDrop
import Mathlib.Order.Nat

/-!
# Canonical input of a terminal

`tty_input` edits a line and commits it to the input buffer, from which `read` takes one line
at a time.  A line that was ended by `VEOF` has no delimiter in the buffer, so that a reader
finds its end only if nothing comes behind it.
-/

namespace AuraLite.CanonicalInput

open List Reachability

abbrev Byte := ℕ

/-- The flags of a terminal in canonical mode, and its control characters. -/
structure Termios where
  igncr : Bool
  icrnl : Bool
  inlcr : Bool
  isig : Bool
  noflsh : Bool
  signals : List Byte
  verase : Byte
  vkill : Byte
  veof : Byte
  veol : Byte

/-- The edit buffer and the input buffer.  There for the statements: the lines that were
committed, without what has been read. -/
structure Tty where
  line : List Byte
  rbuf : List Byte
  lines : List (List Byte)

/-- `TTY_CANON_MAX`, which is also `SYSCALL_IO_CHUNK`. -/
def canonMax : ℕ := 256

/-- `TTY_IBUF_SIZE`. -/
def ibufSize : ℕ := 1024

/-! ## Input -/

/-- What an input byte does. -/
inductive Action
  | skip
  | flush
  | erase
  | kill
  | finish (delimiter : Option Byte)
  | char (c : Byte)
deriving DecidableEq

variable (tm : Termios)

/-- The mapping of CR and NL. -/
def Termios.map (c : Byte) : Option Byte :=
  if c = 13 then if tm.igncr then none else if tm.icrnl then some 10 else some 13
  else if c = 10 ∧ tm.inlcr then some 13
  else some c

/-- The cases of `tty_input`. -/
def Termios.action (c : Byte) : Action :=
  match tm.map c with
  | none => .skip
  | some c =>
    if tm.isig ∧ c ∈ tm.signals then if tm.noflsh then .skip else .flush
    else if c = tm.verase then .erase
    else if c = tm.vkill then .kill
    else if c = tm.veof then .finish none
    else if c = 10 ∨ c = tm.veol then .finish (some c)
    else .char c

/-- `commit_line`. -/
def Tty.commit (t : Tty) (line : List Byte) : Tty :=
  ⟨[], (t.rbuf ++ line).take ibufSize, t.lines ++ [line]⟩

def Tty.input (t : Tty) (c : Byte) : Tty :=
  match tm.action c with
  | .skip => t
  | .flush => ⟨[], [], []⟩
  | .erase => { t with line := t.line.dropLast }
  | .kill => { t with line := [] }
  | .finish none => t.commit t.line
  | .finish (some c) => t.commit (if t.line.length < canonMax then t.line ++ [c] else t.line)
  | .char c => { t with line := if t.line.length < canonMax - 1 then t.line ++ [c] else t.line }

/-! ## Reads -/

/-- The end of a line for the reader, which compares a `char` with `VEOL`. -/
def Termios.stops (c : Byte) : Prop := c = 10 ∨ (c = tm.veol ∧ c < 128)

instance (c : Byte) : Decidable (tm.stops c) := inferInstanceAs (Decidable (_ ∨ _))

/-- `tty_read_available`. -/
def readAvailable : ℕ → List Byte → List Byte × List Byte
  | 0, buf => ([], buf)
  | _, [] => ([], [])
  | n + 1, c :: buf =>
    if tm.stops c then ([c], buf)
    else (c :: (readAvailable n buf).1, (readAvailable n buf).2)

/-- The loop of `syscall_vfs_read`. -/
def readChunks : ℕ → ℕ → List Byte → List Byte × List Byte
  | 0, _, buf => ([], buf)
  | fuel + 1, len, buf =>
    let got := readAvailable tm (min len canonMax) buf
    if got.1.length < min len canonMax ∨ len ≤ canonMax then got
    else
      let more := readChunks fuel (len - canonMax) got.2
      (got.1 ++ more.1, more.2)

/-- What a read should return: bytes of the next line, or none as long as there is no line. -/
def nextLine (len : ℕ) : List (List Byte) → Option (List Byte) × List (List Byte)
  | [] => (none, [])
  | l :: rest => (some (l.take len), if l.length ≤ len then rest else l.drop len :: rest)

/-- `syscall_vfs_read`; without a result the caller waits. -/
def Tty.read (t : Tty) (len : ℕ) : Tty × Option (List Byte) :=
  if len = 0 then (t, some [])
  else if t.rbuf = [] then ({ t with lines := (nextLine len t.lines).2 }, none)
  else
    ({ t with
        rbuf := (readChunks tm len len t.rbuf).2
        lines := (nextLine len t.lines).2 },
      some (readChunks tm len len t.rbuf).1)

inductive Event
  | input (c : Byte)
  | read (len : ℕ)

def Tty.step (t : Tty) : Event → Tty
  | .input c => t.input tm c
  | .read len => (t.read tm len).1

def start : Tty := ⟨[], [], []⟩

/-! ## Lines -/

/-- A read returns the bytes of one line, in order. -/
def Tty.Delivers (t : Tty) (len : ℕ) : Prop :=
  (t.read tm len).2 = if len = 0 then some [] else (nextLine len t.lines).1

/-- The line has its delimiter. -/
def Termios.whole (l : List Byte) : Prop := ∃ c ∈ l.getLast?, tm.stops c

instance (l : List Byte) : Decidable (tm.whole l) :=
  inferInstanceAs (Decidable (∃ c ∈ l.getLast?, _))

/-- No byte but the last one ends the line for a reader. -/
def Termios.Line (l : List Byte) : Prop := l ≠ [] ∧ ∀ c ∈ l.dropLast, ¬ tm.stops c

/-- A line is committed only if it has a byte, all lines that wait have their delimiter and there
is room, and a line that fills a chunk is not read with a larger buffer. -/
def Tty.Fits (t : Tty) : Event → Prop
  | .input c =>
    match tm.action c with
    | .finish delimiter => t.line ++ delimiter.toList ≠ [] ∧ (∀ l ∈ t.lines, tm.whole l) ∧
        t.rbuf.length + (t.line ++ delimiter.toList).length ≤ ibufSize
    | _ => True
  | .read len => len ≤ canonMax ∨ ∀ l ∈ t.lines.head?, l.length < canonMax

/-- A reader finds the lines in the buffer: only the last one may lack its delimiter. -/
structure Tty.Framed (t : Tty) : Prop where
  short : t.line.length < canonMax
  line : ∀ c ∈ t.line, ¬ tm.stops c
  rbuf : t.rbuf = t.lines.flatten
  lines : ∀ l ∈ t.lines, tm.Line l
  whole : ∀ l ∈ t.lines.dropLast, tm.whole l

variable {tm} {t : Tty} {l more : List Byte} {len : ℕ}

theorem readAvailable_line (hl : tm.Line l) (hend : tm.whole l ∨ more = []) (n : ℕ) :
    readAvailable tm n (l ++ more) = (l.take n, l.drop n ++ more) := by
  induction l generalizing n with
  | nil => exact absurd rfl hl.1
  | cons c l ih =>
    cases n with
    | zero => rfl
    | succ n =>
      cases l with
      | nil =>
        by_cases hc : tm.stops c
        · simp [readAvailable, hc]
        · have hmore : more = [] := hend.resolve_left (by simpa [Termios.whole] using hc)
          cases n <;> simp [readAvailable, hc, hmore]
      | cons d l =>
        have hc : ¬ tm.stops c := hl.2 c mem_cons_self
        have hrest := ih ⟨cons_ne_nil d l, fun b hb => hl.2 b (mem_cons_of_mem c hb)⟩
          (by simpa [Termios.whole] using hend) n
        rw [cons_append, readAvailable, if_neg hc, hrest]
        rfl

theorem readChunks_line (hl : tm.Line l) (hend : tm.whole l ∨ more = []) (hpos : len ≠ 0)
    (hfits : len ≤ canonMax ∨ l.length < canonMax) :
    readChunks tm len len (l ++ more) = (l.take len, l.drop len ++ more) := by
  obtain ⟨fuel, rfl⟩ := Nat.exists_eq_succ_of_ne_zero hpos
  rw [readChunks, readAvailable_line hl hend]
  rcases Nat.lt_or_ge canonMax (fuel + 1) with hlt | hle
  swap
  · rw [Nat.min_eq_left hle, if_pos (.inr hle)]
  · have hshort : l.length < canonMax := hfits.resolve_left (Nat.not_le_of_lt hlt)
    rw [Nat.min_eq_right hlt.le, take_of_length_le hshort.le, if_pos (.inl hshort),
      drop_of_length_le hshort.le, take_of_length_le (hshort.trans hlt).le,
      drop_of_length_le (hshort.trans hlt).le]

theorem Tty.Framed.read (hf : t.Framed tm) (hpos : len ≠ 0) (hfits : t.Fits tm (.read len)) :
    t.read tm len = ({ t with
      rbuf := (nextLine len t.lines).2.flatten
      lines := (nextLine len t.lines).2 }, (nextLine len t.lines).1) := by
  obtain ⟨line, rbuf, lines⟩ := t
  obtain rfl : rbuf = lines.flatten := hf.rbuf
  cases lines with
  | nil => simp [Tty.read, nextLine, hpos]
  | cons l rest =>
    have hl := hf.lines l mem_cons_self
    have hend : tm.whole l ∨ rest.flatten = [] := by
      cases rest with
      | nil => exact .inr rfl
      | cons l' rest => exact .inl (hf.whole l mem_cons_self)
    have hchunk := readChunks_line hl hend hpos (hfits.imp_right fun h => h l rfl)
    rw [Tty.read, if_neg hpos, if_neg (by simp [hl.1])]
    simp only [flatten_cons, hchunk, nextLine]
    split_ifs with hlen
    · rw [drop_of_length_le hlen, nil_append]
    · rfl

theorem Tty.Framed.delivers (hf : t.Framed tm) (hfits : t.Fits tm (.read len)) :
    t.Delivers tm len := by
  by_cases hpos : len = 0
  · simp [Tty.Delivers, Tty.read, hpos]
  · rw [Tty.Delivers, hf.read hpos hfits, if_neg hpos]

theorem Tty.Framed.read_framed (hf : t.Framed tm) (hfits : t.Fits tm (.read len)) :
    (t.read tm len).1.Framed tm := by
  by_cases hpos : len = 0
  · rwa [Tty.read, if_pos hpos]
  rw [hf.read hpos hfits]
  obtain ⟨line, rbuf, lines⟩ := t
  cases lines with
  | nil => exact ⟨hf.short, hf.line, rfl, hf.lines, hf.whole⟩
  | cons l rest =>
    obtain ⟨⟨-, hbody⟩, hrest⟩ := forall_mem_cons.mp hf.lines
    have hwhole : (rest ≠ [] → tm.whole l) ∧ ∀ m ∈ rest.dropLast, tm.whole m := by
      cases rest with
      | nil => exact ⟨fun h => absurd rfl h, nofun⟩
      | cons l' rest => exact (forall_mem_cons.mp hf.whole).imp_left fun h _ => h
    simp only [nextLine]
    split_ifs with hlen
    · exact ⟨hf.short, hf.line, rfl, hrest, hwhole.2⟩
    · refine ⟨hf.short, hf.line, rfl, forall_mem_cons.mpr ⟨⟨?_, ?_⟩, hrest⟩, ?_⟩
      · simpa using hlen
      · intro c hc
        rw [dropLast_drop_eq_drop_dropLast] at hc
        exact hbody c (mem_of_mem_drop hc)
      · cases rest with
        | nil => exact nofun
        | cons l' rest =>
          refine forall_mem_cons.mpr ⟨?_, hwhole.2⟩
          rw [Termios.whole, getLast?_drop, if_neg hlen]
          exact hwhole.1 (cons_ne_nil _ _)

theorem Tty.Framed.commit (hf : t.Framed tm) (hl : tm.Line l) (hwhole : ∀ l ∈ t.lines, tm.whole l)
    (hroom : t.rbuf.length + l.length ≤ ibufSize) :
    (t.commit l).Framed tm where
  short := Nat.zero_lt_succ _
  line := forall_mem_nil _
  rbuf := by
    rw [Tty.commit, take_of_length_le (by simpa using hroom), hf.rbuf]
    simp
  lines := by
    intro m hm
    rcases mem_append.mp hm with hold | hnew
    · exact hf.lines m hold
    · obtain rfl := mem_singleton.mp hnew
      exact hl
  whole := by simpa [Tty.commit] using hwhole

theorem action_char {c d : Byte} (haction : tm.action c = .char d) : ¬ tm.stops d := by
  unfold Termios.action at haction
  split at haction
  · cases haction
  · split_ifs at haction with hsig hflush herase hkill heof hend
    cases haction
    exact fun hstops => hend (hstops.imp_right And.left)

theorem Tty.Framed.input {c : Byte} (hf : t.Framed tm) (hfits : t.Fits tm (.input c)) :
    (t.input tm c).Framed tm := by
  unfold Tty.input
  split
  · exact hf
  · exact ⟨Nat.zero_lt_succ _, nofun, rfl, nofun, nofun⟩
  · refine { hf with short := ?_, line := fun c hc => hf.line c (dropLast_subset _ hc) }
    exact (dropLast_sublist _).length_le.trans_lt hf.short
  · exact { hf with short := Nat.zero_lt_succ _, line := nofun }
  · next haction =>
    simp only [Tty.Fits, haction] at hfits
    obtain ⟨hl, hwhole, hroom⟩ := hfits
    rw [Option.toList_none, append_nil] at hl hroom
    exact hf.commit ⟨hl, fun c hc => hf.line c (dropLast_subset _ hc)⟩ hwhole hroom
  · next d haction =>
    simp only [Tty.Fits, haction] at hfits
    obtain ⟨hl, hwhole, hroom⟩ := hfits
    rw [if_pos hf.short]
    refine hf.commit ⟨hl, ?_⟩ hwhole hroom
    rw [dropLast_concat]
    exact hf.line
  · next d haction =>
    have hd := action_char haction
    split_ifs with hroom
    · refine { hf with short := ?_, line := ?_ }
      · rw [length_append]
        exact Nat.add_lt_of_lt_sub hroom
      · exact forall_mem_append.mpr ⟨hf.line, forall_mem_singleton.mpr hd⟩
    · exact hf

/-- Every read returns bytes of the oldest line, up to its end, as long as lines are committed
with a byte, behind lines that have their delimiter, and with room for them. -/
theorem lines_delivered (tm : Termios) (t : Tty) (len : ℕ)
    (hrun : Reaches (guarded (fun t event => t.Fits tm event) fun t event t' =>
      t.step tm event = t') start t) (hfits : t.Fits tm (.read len)) : t.Delivers tm len := by
  have hstart : start.Framed tm := ⟨Nat.zero_lt_succ _, nofun, rfl, nofun, nofun⟩
  have hframed : t.Framed tm := by
    apply hrun.kept hstart
    intro before event hbefore hfits
    cases event with
    | input c => exact hbefore.input hfits
    | read len => exact hbefore.read_framed hfits
  exact hframed.delivers hfits

/-! ## Lines of one or two bytes -/

instance (tm : Termios) (t : Tty) (event : Event) : Decidable (t.Fits tm event) := by
  unfold Tty.Fits
  split <;> try split
  all_goals infer_instance

instance (tm : Termios) (t : Tty) (len : ℕ) : Decidable (t.Delivers tm len) :=
  inferInstanceAs (Decidable (_ = _))

/-- The settings of `tty_init`. -/
def cooked : Termios := ⟨false, true, false, true, false, [3, 28, 26], 127, 21, 4, 0⟩

/-- A line with a byte that is erased, and a first read of one byte. -/
def editRun : List Event := [.input 97, .input 98, .input 127, .input 99, .input 13, .read 1]

theorem lines_delivered_edited : ((editRun.foldl (Tty.step cooked) start).read cooked 10).2 =
    some [99, 10] := by
  have hread := lines_delivered cooked (editRun.foldl (Tty.step cooked) start) 10
    (reaches_foldl (by decide +kernel)) (by decide +kernel)
  rw [hread]
  decide +kernel

/-- A line ended by `VEOF` and the next line. -/
def joinRun : List Event := [.input 97, .input 4, .input 98, .input 10]

/-- The read returns the bytes of two lines; and `VEOF` on an empty line ends no read. -/
theorem lines_joined : ((joinRun.foldl (Tty.step cooked) start).read cooked 10).2 =
      some [97, 98, 10] ∧
    ¬ (joinRun.foldl (Tty.step cooked) start).Delivers cooked 10 ∧
    ((Tty.step cooked start (.input 4)).read cooked 10).2 = none ∧
    ¬ (Tty.step cooked start (.input 4)).Delivers cooked 10 := by
  decide +kernel

end AuraLite.CanonicalInput

import AuraLite.Lib.Patches
import AuraLite.Lib.Reachability
import AuraLite.Lib.SeqArith

/-!
# Reassembly of IPv4 fragments

The table of `ip_reasm.c`.  An entry keeps the bytes of one datagram, a bitmap of those
that have come in and their number; it is complete when the number is the total that the
last fragment has given.
-/

namespace AuraLite.IpReasm

open List Patches Reachability SeqArith Bool
open Function (update update_self update_of_ne)

/-- `IPREASM_MAX_ENTRIES`. -/
def maxEntries : ℕ := 8

/-- `IPREASM_CAP`. -/
def cap : ℕ := 8192

/-- `ipreasm_key_t`. -/
structure Key where
  src : ℕ
  dst : ℕ
  proto : ℕ
  id : ℕ
deriving DecidableEq

/-- `ipreasm_entry_t`; `log` has the fragments that went into the entry, for the
statements. -/
structure Entry where
  used : Bool
  key : Key
  firstSeen : ℕ
  haveBytes : ℕ
  expectedLen : ℕ
  data : ℕ → UInt8
  bitmap : ℕ → Bool
  log : List (Patch UInt8)

abbrev Table := Fin maxEntries → Entry

/-- The arguments of `ipreasm_input`. -/
structure Call where
  now : ℕ
  timeout : ℕ
  key : Key
  expected : ℕ
  off : ℕ
  payload : List UInt8
  outCap : ℕ

/-- What `ipreasm_input` returns, with the bytes that it copies out. -/
inductive Outcome
  | pending
  | complete (len : ℕ) (out : List UInt8)
  | refused
deriving DecidableEq

/-! ## The entry -/

def Entry.fresh (key : Key) (now : ℕ) : Entry where
  used := true
  key := key
  firstSeen := now
  haveBytes := 0
  expectedLen := 0
  data := fun _ => 0
  bitmap := fun _ => false
  log := []

def Entry.expired (e : Entry) (now timeout : ℕ) : Bool :=
  decide (timeout < minus now e.firstSeen)

/-- The first loop over the payload: a byte that has come in with another value. -/
def Entry.conflicts (e : Entry) : ℕ → List UInt8 → Bool
  | _, [] => false
  | pos, byte :: rest =>
    (e.bitmap pos && decide (e.data pos ≠ byte)) || e.conflicts (pos + 1) rest

/-- A byte comes in. -/
def Entry.mark (e : Entry) (pos : ℕ) (byte : UInt8) : Entry :=
  { e with
    bitmap := update e.bitmap pos true
    data := update e.data pos byte
    haveBytes := e.haveBytes + 1 }

/-- One turn of the second loop. -/
def Entry.put (e : Entry) (pos : ℕ) (byte : UInt8) : Entry :=
  if e.bitmap pos then e else e.mark pos byte

/-- The second loop over the payload. -/
def Entry.store (e : Entry) : ℕ → List UInt8 → Entry
  | _, [] => e
  | pos, byte :: rest => (e.put pos byte).store (pos + 1) rest

/-- A last fragment gives the total. -/
def Entry.pin (e : Entry) (expected : ℕ) : Entry :=
  if expected ≠ 0 then { e with expectedLen := expected } else e

def Call.patch (c : Call) : Patch UInt8 := ⟨c.off, c.payload⟩

/-- The new bytes go in. -/
def Entry.take (e : Entry) (c : Call) : Entry :=
  { e.store c.off c.payload with log := e.log ++ [c.patch] }

/-- Everything below the total has come in, by number. -/
def Entry.done (e : Entry) : Bool :=
  decide (e.expectedLen ≠ 0) && decide (e.haveBytes = e.expectedLen)

/-- The end of `ipreasm_input`. -/
def Entry.finish (e : Entry) (outCap : ℕ) : Entry × Outcome :=
  if e.done then
    ({ e with used := false },
      .complete e.expectedLen ((range (min e.expectedLen outCap)).map e.data))
  else (e, .pending)

/-- `ipreasm_input` from the point where the entry is known. -/
def Entry.accept (e : Entry) (c : Call) : Entry × Outcome :=
  if c.expected ≠ 0 ∧ e.expectedLen ≠ 0 ∧ e.expectedLen ≠ c.expected then (e, .refused)
  else if (e.pin c.expected).expectedLen ≠ 0 ∧
      (e.pin c.expected).expectedLen < c.off + c.payload.length then
    (e.pin c.expected, .refused)
  else if (e.pin c.expected).conflicts c.off c.payload then (e.pin c.expected, .refused)
  else ((e.pin c.expected).take c).finish c.outCap

/-! ## The table -/

/-- `ipreasm_init`. -/
def Table.init : Table := fun _ => { Entry.fresh ⟨0, 0, 0, 0⟩ 0 with used := false }

/-- `ipreasm_sweep`. -/
def Table.sweep (t : Table) (now timeout : ℕ) : Table := fun i =>
  if (t i).used && (t i).expired now timeout then { t i with used := false } else t i

def Table.forget (t : Table) (key : Key) : Table := fun i =>
  if (t i).used && decide ((t i).key = key) then { t i with used := false } else t i

def Table.find (t : Table) (key : Key) : Option (Fin maxEntries) :=
  (finRange maxEntries).find? fun i => (t i).used && decide ((t i).key = key)

def Table.free (t : Table) : Option (Fin maxEntries) :=
  (finRange maxEntries).find? fun i => !(t i).used

/-- The oldest entry of a full table, the last one of several. -/
def Table.oldest (t : Table) (now : ℕ) : Fin maxEntries :=
  ((finRange maxEntries).foldl
    (fun (best : ℕ × Fin maxEntries) i =>
      if best.1 ≤ minus now (t i).firstSeen then (minus now (t i).firstSeen, i) else best)
    (0, ⟨0, by decide⟩)).2

def Table.slot (t : Table) (now : ℕ) (key : Key) : Fin maxEntries :=
  (t.find key).getD (t.free.getD (t.oldest now))

/-- The entry of a fragment, made when there is none. -/
def Table.entry (t : Table) (now : ℕ) (key : Key) : Entry :=
  (t.find key).elim (Entry.fresh key now) t

/-- A fragment that passed the checks goes to its entry. -/
def Table.deliver (t : Table) (c : Call) : Table × Outcome :=
  (update t (t.slot c.now c.key) ((t.entry c.now c.key).accept c).1,
    ((t.entry c.now c.key).accept c).2)

/-- `ipreasm_input`. -/
def Table.input (t : Table) (c : Call) : Table × Outcome :=
  if c.payload = [] ∨ c.off % 8 ≠ 0 then (t, .refused)
  else if cap < c.off + c.payload.length then
    ((t.sweep c.now c.timeout).forget c.key, .refused)
  else if cap < c.expected ∨ (c.expected ≠ 0 ∧ c.off + c.payload.length ≠ c.expected) then
    (t.sweep c.now c.timeout, .refused)
  else (t.sweep c.now c.timeout).deliver c

inductive Event
  | input (c : Call)
  | sweep (now timeout : ℕ)

def Table.step (t : Table) : Event → Table
  | .input c => (t.input c).1
  | .sweep now timeout => t.sweep now timeout

def Table.Step (before : Table) (event : Event) (after : Table) : Prop :=
  before.step event = after

/-! ## What an entry holds -/

/-- The byte at a position, when it has come in. -/
def Entry.content (e : Entry) (i : ℕ) : Option UInt8 :=
  if e.bitmap i then some (e.data i) else none

/-- The positions that have come in. -/
def Entry.marks (e : Entry) : Finset ℕ := (Finset.range cap).filter fun i => e.bitmap i = true

/-- Bytes, bitmap and number are those of the fragments that went in. -/
structure Entry.Sound (e : Entry) : Prop where
  content : ∀ i, e.content i = first e.log i
  bounded : ∀ i, e.bitmap i = true → i < cap
  count : e.haveBytes = e.marks.card

variable {e e' : Entry} {t t' : Table} {c : Call} {key : Key} {i j : Fin maxEntries} {pos n : ℕ}
  {payload : List UInt8}

theorem content_of_bitmap (h : e.bitmap pos = true) : e.content pos = some (e.data pos) := if_pos h

theorem content_isSome : (e.content pos).isSome ↔ e.bitmap pos = true := by
  rw [Entry.content]
  split_ifs with hset
  · exact iff_of_true rfl hset
  · exact iff_of_false false_ne_true hset

theorem mark_content (e : Entry) (pos : ℕ) (byte : UInt8) :
    (e.mark pos byte).content = update e.content pos (some byte) := by
  funext i
  have hbitmap : (e.mark pos byte).bitmap = update e.bitmap pos true := rfl
  have hdata : (e.mark pos byte).data = update e.data pos byte := rfl
  rw [Entry.content, hbitmap, hdata]
  by_cases hhere : i = pos
  · rw [hhere, update_self, update_self, update_self, if_pos rfl]
  · rw [update_of_ne hhere, update_of_ne hhere, update_of_ne hhere, Entry.content]

theorem content_put (e : Entry) (pos : ℕ) (byte : UInt8) (i : ℕ) :
    (e.put pos byte).content i = (e.content i).or (if i = pos then some byte else none) := by
  rw [Entry.put]
  split
  · rename_i hset
    by_cases hhere : i = pos
    · rw [hhere, content_of_bitmap hset, Option.some_or]
    · rw [if_neg hhere, Option.or_none]
  · rename_i hset
    rw [mark_content]
    by_cases hhere : i = pos
    · rw [hhere, if_pos rfl, update_self, Entry.content, if_neg hset, Option.none_or]
    · rw [if_neg hhere, Option.or_none, update_of_ne hhere]

theorem content_store (e : Entry) (pos : ℕ) (bytes : List UInt8) (i : ℕ) :
    (e.store pos bytes).content i = (e.content i).or (Patch.valueAt ⟨pos, bytes⟩ i) := by
  induction bytes generalizing e pos with
  | nil => rw [Entry.store, valueAt_nil, Option.or_none]
  | cons byte rest ih =>
    rw [Entry.store, ih, content_put, valueAt_cons, Option.or_assoc]
    split_ifs with hhere
    · rw [Option.some_or]
    · rw [Option.none_or]

theorem exists_store (e : Entry) (pos : ℕ) (bytes : List UInt8) :
    ∃ bitmap data haveBytes, e.store pos bytes =
      { e with bitmap := bitmap, data := data, haveBytes := haveBytes } := by
  induction bytes generalizing e pos with
  | nil => exact ⟨e.bitmap, e.data, e.haveBytes, rfl⟩
  | cons byte rest ih =>
    obtain ⟨bitmap, data, haveBytes, hrest⟩ := ih (e.put pos byte) (pos + 1)
    refine ⟨bitmap, data, haveBytes, ?_⟩
    rw [Entry.store, hrest, Entry.put]
    split_ifs <;> rfl

/-- The bitmap stays below the cap and is counted. -/
def Entry.Counted (e : Entry) : Prop :=
  (∀ i, e.bitmap i = true → i < cap) ∧ e.haveBytes = e.marks.card

theorem mem_marks (hbounded : ∀ i, e.bitmap i = true → i < cap) :
    pos ∈ e.marks ↔ e.bitmap pos = true := by
  rw [Entry.marks, Finset.mem_filter, Finset.mem_range]
  exact and_iff_right_of_imp (hbounded pos)

theorem put_counted (h : e.Counted) (hpos : pos < cap) (byte : UInt8) :
    (e.put pos byte).Counted := by
  rw [Entry.put]
  split_ifs with hset
  · exact h
  · have hfresh : pos ∉ e.marks := fun hmem => hset ((mem_marks h.1).mp hmem)
    have hbit : ∀ i, (e.mark pos byte).bitmap i = true ↔ i = pos ∨ e.bitmap i = true := by
      intro i
      rw [← content_isSome, ← content_isSome, mark_content]
      by_cases hhere : i = pos
      · rw [hhere, update_self]
        exact iff_of_true rfl (.inl rfl)
      · rw [update_of_ne hhere, or_iff_right hhere]
    have hbounded : ∀ i, (e.mark pos byte).bitmap i = true → i < cap := by
      intro i hi
      rcases (hbit i).mp hi with hhere | hold
      · exact hhere ▸ hpos
      · exact h.1 i hold
    have hmarks : (e.mark pos byte).marks = insert pos e.marks := by
      ext i
      rw [mem_marks hbounded, Finset.mem_insert, mem_marks h.1, hbit]
    refine ⟨hbounded, ?_⟩
    rw [hmarks, Finset.card_insert_of_notMem hfresh, ← h.2]
    rfl

theorem store_counted {bytes : List UInt8} (h : e.Counted) (hend : pos + bytes.length ≤ cap) :
    (e.store pos bytes).Counted := by
  induction bytes generalizing e pos with
  | nil => exact h
  | cons byte rest ih =>
    rw [length_cons] at hend
    rw [Entry.store]
    apply ih
    · exact put_counted h (by omega) byte
    · omega

theorem pin_sound (h : e.Sound) (expected : ℕ) : (e.pin expected).Sound := by
  rw [Entry.pin]
  split_ifs
  · exact { h with }
  · exact h

theorem take_log (e : Entry) (c : Call) : (e.take c).log = e.log ++ [c.patch] := rfl

theorem take_same (e : Entry) (c : Call) : (e.take c).used = e.used ∧ (e.take c).key = e.key ∧
      (e.take c).expectedLen = e.expectedLen := by
  obtain ⟨bitmap, data, haveBytes, hstore⟩ := exists_store e c.off c.payload
  rw [Entry.take, hstore]
  exact ⟨rfl, rfl, rfl⟩

theorem take_sound (h : e.Sound) (hend : c.off + c.payload.length ≤ cap) : (e.take c).Sound := by
  have hcounted : (e.store c.off c.payload).Counted := store_counted ⟨h.bounded, h.count⟩ hend
  refine ⟨fun i => ?_, hcounted.1, hcounted.2⟩
  rw [take_log, first_append, ← h.content i]
  exact content_store e c.off c.payload i

/-- Whether a fragment is accepted. -/
def Entry.Admits (e : Entry) (c : Call) : Prop :=
  ¬ (c.expected ≠ 0 ∧ e.expectedLen ≠ 0 ∧ e.expectedLen ≠ c.expected) ∧
    ((e.pin c.expected).expectedLen ≠ 0 →
      c.off + c.payload.length ≤ (e.pin c.expected).expectedLen) ∧
    (e.pin c.expected).conflicts c.off c.payload = false

theorem accept_admits (h : e.Admits c) :
    e.accept c = ((e.pin c.expected).take c).finish c.outCap := by
  rw [Entry.accept, if_neg h.1, if_neg, if_neg]
  · rw [h.2.2]
    exact false_ne_true
  · rintro ⟨hpinned, hlong⟩
    exact Nat.not_le_of_lt hlong (h.2.1 hpinned)

/-- What can come of a fragment: the entry stays, the total is pinned, or its bytes go in. -/
theorem accept_cases (e : Entry) (c : Call) : e.accept c = (e, .refused) ∨
      (¬ (c.expected ≠ 0 ∧ e.expectedLen ≠ 0 ∧ e.expectedLen ≠ c.expected) ∧
        e.accept c = (e.pin c.expected, .refused)) ∨ e.Admits c := by
  by_cases hother : c.expected ≠ 0 ∧ e.expectedLen ≠ 0 ∧ e.expectedLen ≠ c.expected
  · rw [Entry.accept, if_pos hother]
    exact .inl rfl
  · right
    by_cases hlong : (e.pin c.expected).expectedLen ≠ 0 ∧
        (e.pin c.expected).expectedLen < c.off + c.payload.length
    · rw [Entry.accept, if_neg hother, if_pos hlong]
      exact .inl ⟨hother, rfl⟩
    · by_cases hconflict : (e.pin c.expected).conflicts c.off c.payload = true
      · rw [Entry.accept, if_neg hother, if_neg hlong, if_pos hconflict]
        exact .inl ⟨hother, rfl⟩
      · refine .inr ⟨hother, fun hpinned => ?_, eq_false_iff.mpr hconflict⟩
        exact Nat.le_of_not_lt fun hlt => hlong ⟨hpinned, hlt⟩

theorem finish_entry (e : Entry) (outCap : ℕ) :
    (e.finish outCap).1 = { e with used := e.used && !e.done } := by
  rw [Entry.finish]
  cases hdone : e.done with
  | true => rw [if_pos rfl, Bool.not_true, Bool.and_false]
  | false =>
    rw [if_neg Bool.false_ne_true, Bool.not_false, Bool.and_true]

theorem finish_sound (h : e.Sound) (outCap : ℕ) : (e.finish outCap).1.Sound := by
  rw [finish_entry]
  exact { h with }

theorem accept_sound (h : e.Sound) (hend : c.off + c.payload.length ≤ cap) :
    (e.accept c).1.Sound := by
  rcases accept_cases e c with hsame | ⟨-, hpinned⟩ | hadmits
  · rw [hsame]
    exact h
  · rw [hpinned]
    exact pin_sound h c.expected
  · rw [accept_admits hadmits]
    exact finish_sound (take_sound (pin_sound h c.expected) hend) c.outCap

theorem pin_same (e : Entry) (expected : ℕ) :
    (e.pin expected).key = e.key ∧ (e.pin expected).log = e.log ∧
      (e.pin expected).used = e.used := by
  rw [Entry.pin]
  split_ifs <;> exact ⟨rfl, rfl, rfl⟩

theorem accept_key (e : Entry) (c : Call) : (e.accept c).1.key = e.key := by
  rcases accept_cases e c with hsame | ⟨-, hpinned⟩ | hadmits
  · rw [hsame]
  · rw [hpinned]
    exact (pin_same e c.expected).1
  · rw [accept_admits hadmits, finish_entry]
    exact (take_same _ c).2.1.trans (pin_same e c.expected).1

/-! ## No byte behind the total -/

/-- No fragment that went in reaches past the total. -/
def Entry.Within (e : Entry) : Prop :=
  e.expectedLen ≠ 0 → ∀ p ∈ e.log, p.stop ≤ e.expectedLen

/-- The first fragment that gives the total finds no fragment that reaches past it. -/
def Entry.Fits (e : Entry) (c : Call) : Prop :=
  c.expected ≠ 0 → e.expectedLen = 0 → ∀ p ∈ e.log, p.stop ≤ c.expected

instance (e : Entry) (c : Call) : Decidable (e.Fits c) :=
  inferInstanceAs (Decidable (_ → _ → _))

theorem pin_within (h : e.Within) (hfits : e.Fits c)
    (hother : ¬ (c.expected ≠ 0 ∧ e.expectedLen ≠ 0 ∧ e.expectedLen ≠ c.expected)) :
    (e.pin c.expected).Within := by
  rw [Entry.pin]
  split_ifs with hlast
  · intro _ p hp
    by_cases hpinned : e.expectedLen = 0
    · exact hfits hlast hpinned p hp
    · have hsame : e.expectedLen = c.expected := by
        by_contra hne
        exact hother ⟨hlast, hpinned, hne⟩
      rw [← hsame]
      exact h hpinned p hp
  · exact h

theorem take_within (h : e.Within)
    (hend : e.expectedLen ≠ 0 → c.off + c.payload.length ≤ e.expectedLen) :
    (e.take c).Within := by
  intro hpinned p hp
  rw [(take_same e c).2.2] at hpinned ⊢
  rw [take_log] at hp
  rcases mem_append.mp hp with hold | hnew
  · exact h hpinned p hold
  · rw [mem_singleton.mp hnew]
    exact hend hpinned

theorem accept_within (h : e.Within) (hfits : e.Fits c) : (e.accept c).1.Within := by
  rcases accept_cases e c with hsame | ⟨hother, hpinned⟩ | hadmits
  · rw [hsame]
    exact h
  · rw [hpinned]
    exact pin_within h hfits hother
  · rw [accept_admits hadmits, finish_entry]
    exact take_within (pin_within h hfits hadmits.1) hadmits.2.1

/-- All positions below the total have come in when the number is the total. -/
theorem marks_of_done (h : e.Sound) (hbelow : ∀ i, e.bitmap i = true → i < e.expectedLen)
    (hdone : e.done = true) : e.marks = Finset.range e.expectedLen := by
  apply marked_of_card
  · intro i hi
    exact hbelow i ((mem_marks h.bounded).mp hi)
  · rw [← h.count]
    exact of_decide_eq_true (and_eq_true_iff.mp hdone).2

theorem finish_complete {out : List UInt8} {outCap : ℕ} (h : e.Sound) (hwithin : e.Within)
    (hresult : (e.finish outCap).2 = .complete n out) :
    ∀ i < n, ∃ byte, first e.log i = some byte ∧ (i < outCap → out[i]? = some byte) := by
  rw [Entry.finish] at hresult
  split at hresult
  · rename_i hdone
    injection hresult with hn hout
    subst hn hout
    have hpinned : e.expectedLen ≠ 0 := of_decide_eq_true (and_eq_true_iff.mp hdone).1
    have hbelow : ∀ i, e.bitmap i = true → i < e.expectedLen := by
      intro i hi
      rw [← content_isSome, h.content, first_isSome] at hi
      obtain ⟨p, hp, -, hstop⟩ := hi
      exact Nat.lt_of_lt_of_le hstop (hwithin hpinned p hp)
    intro i hi
    have hmark : i ∈ e.marks := by
      rw [marks_of_done h hbelow hdone]
      exact Finset.mem_range.mpr hi
    refine ⟨e.data i, ?_, fun hcap => ?_⟩
    · rw [← h.content, content_of_bitmap ((mem_marks h.bounded).mp hmark)]
    · rw [getElem?_map, getElem?_range (Nat.lt_min.mpr ⟨hi, hcap⟩)]
      rfl
  · cases hresult

theorem accept_complete {out : List UInt8} (h : e.Sound) (hwithin : e.Within) (hfits : e.Fits c)
    (hend : c.off + c.payload.length ≤ cap) (hresult : (e.accept c).2 = .complete n out) :
    ∀ i < n, ∃ byte, first (e.log ++ [c.patch]) i = some byte ∧
      (i < c.outCap → out[i]? = some byte) := by
  rcases accept_cases e c with hsame | ⟨-, hpinned⟩ | hadmits
  · rw [hsame] at hresult
    cases hresult
  · rw [hpinned] at hresult
    cases hresult
  · rw [accept_admits hadmits] at hresult
    have hlog : ((e.pin c.expected).take c).log = e.log ++ [c.patch] := by
      rw [take_log, (pin_same e c.expected).2.1]
    rw [← hlog]
    apply finish_complete _ _ hresult
    · exact take_sound (pin_sound h c.expected) hend
    · exact take_within (pin_within hwithin hfits hadmits.1) hadmits.2.1

end AuraLite.IpReasm

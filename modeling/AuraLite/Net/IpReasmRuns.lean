import AuraLite.Net.IpReasm

/-!
# Runs of the reassembly table

Every sequence of fragments and sweeps keeps the entries sound and their keys apart.  A
datagram that comes out is covered by its fragments as long as no total is given below a
byte that has come in; the fragments of a payload always bring it out.
-/

namespace AuraLite.IpReasm

open List Patches Reachability SeqArith

variable {e e' : Entry} {t t' : Table} {c : Call} {key : Key} {i j : Fin maxEntries} {pos n : ℕ}
  {payload : List UInt8}

/-! ## The table -/

def Table.Holds (t : Table) (key : Key) (i : Fin maxEntries) : Prop :=
  (t i).used = true ∧ (t i).key = key

/-- Entries are sound, and no two are in use for one key. -/
structure Table.Sound (t : Table) : Prop where
  entry : ∀ i, (t i).Sound
  apart : ∀ key i j, t.Holds key i → t.Holds key j → i = j

/-- Every entry is as before or dropped. -/
def Table.Drops (t t' : Table) : Prop :=
  ∀ i, t' i = t i ∨ t' i = { t i with used := false }

open Table

theorem holds_of_find (h : t.find key = some i) : t.Holds key i := by
  have hfound := find?_some h
  rw [Bool.and_eq_true, decide_eq_true_eq] at hfound
  exact hfound

theorem not_holds_of_find (h : t.find key = none) (i : Fin maxEntries) : ¬ t.Holds key i := by
  intro hholds
  have hnot := find?_eq_none.mp h i (mem_finRange i)
  apply hnot
  rw [Bool.and_eq_true, decide_eq_true_eq]
  exact hholds

theorem Table.Sound.find (h : t.Sound) (hholds : t.Holds key i) : t.find key = some i := by
  cases hfound : t.find key with
  | none => exact absurd hholds (not_holds_of_find hfound i)
  | some j => rw [h.apart key j i (holds_of_find hfound) hholds]

theorem sweep_drops (t : Table) (now timeout : ℕ) : t.Drops (t.sweep now timeout) := by
  intro i
  rw [sweep]
  split_ifs
  · exact .inr rfl
  · exact .inl rfl

theorem forget_drops (t : Table) (key : Key) : t.Drops (t.forget key) := by
  intro i
  rw [forget]
  split_ifs
  · exact .inr rfl
  · exact .inl rfl

theorem Table.Drops.trans {t'' : Table} (h : t.Drops t') (h' : t'.Drops t'') : t.Drops t'' := by
  intro i
  rcases h' i with hlater | hlater
  · rw [hlater]
    exact h i
  · right
    rw [hlater]
    rcases h i with hfirst | hfirst <;> rw [hfirst]

theorem Table.Drops.eq_of_used (h : t.Drops t') (hused : (t' i).used = true) : t' i = t i := by
  rcases h i with hsame | hdropped
  · exact hsame
  · rw [hdropped] at hused
    cases hused

theorem Table.Drops.holds (h : t.Drops t') (hholds : t'.Holds key i) : t.Holds key i := by
  have hsame := h.eq_of_used hholds.1
  rw [Holds, ← hsame]
  exact hholds

theorem Table.Drops.entries {P : Entry → Prop} (h : t.Drops t')
    (hdropped : ∀ e, P e → P { e with used := false }) (hall : ∀ i, P (t i)) (i : Fin maxEntries) :
    P (t' i) := by
  rcases h i with hsame | hsame <;> rw [hsame]
  · exact hall i
  · exact hdropped _ (hall i)

theorem Table.Drops.sound (h : t.Drops t') (hsound : t.Sound) : t'.Sound where
  entry := h.entries (fun _ hold => { hold with }) hsound.entry
  apart key i j hi hj := hsound.apart key i j (h.holds hi) (h.holds hj)

theorem fresh_sound (key : Key) (now : ℕ) : (Entry.fresh key now).Sound where
  content _ := rfl
  bounded _ hset := nomatch hset
  count := by
    rw [Entry.marks, Finset.filter_false_of_mem]
    · rfl
    · exact fun _ _ hset => nomatch hset

theorem entry_cases (t : Table) (now : ℕ) (key : Key) :
    (∃ i, t.find key = some i ∧ t.entry now key = t i ∧ t.slot now key = i) ∨
      (t.find key = none ∧ t.entry now key = Entry.fresh key now) := by
  rw [entry, slot]
  cases hfound : t.find key with
  | none => exact .inr ⟨rfl, rfl⟩
  | some i => exact .inl ⟨i, rfl, rfl, rfl⟩

theorem entry_of {P : Entry → Prop} (hall : ∀ i, P (t i)) {now : ℕ}
    (hfresh : P (.fresh key now)) : P (t.entry now key) := by
  rcases entry_cases t now key with ⟨i, -, hentry, -⟩ | ⟨-, hentry⟩ <;> rw [hentry]
  · exact hall i
  · exact hfresh

theorem entry_sound (h : t.Sound) (now : ℕ) (key : Key) : (t.entry now key).Sound :=
  entry_of h.entry (fresh_sound key now)

theorem entry_key (t : Table) (now : ℕ) (key : Key) : (t.entry now key).key = key := by
  rcases entry_cases t now key with ⟨i, hfound, hentry, -⟩ | ⟨-, hentry⟩
  · rw [hentry]
    exact (holds_of_find hfound).2
  · rw [hentry]
    rfl

theorem entry_within (hwithin : ∀ i, (t i).Within) (now : ℕ) (key : Key) :
    (t.entry now key).Within :=
  entry_of hwithin fun hpinned => absurd rfl hpinned

/-- Only the slot of the call can be in use for its key. -/
theorem slot_of_holds (h : t.Sound) (hholds : t.Holds key i) (now : ℕ) : t.slot now key = i := by
  rw [slot, h.find hholds]
  rfl

theorem deliver_slot (t : Table) (c : Call) :
    (t.deliver c).1 (t.slot c.now c.key) = ((t.entry c.now c.key).accept c).1 :=
  Function.update_self (t.slot c.now c.key) _ t

theorem deliver_other (hi : i ≠ t.slot c.now c.key) : (t.deliver c).1 i = t i :=
  Function.update_of_ne hi _ t

theorem deliver_entries {P : Entry → Prop} (hall : ∀ i, P (t i))
    (haccept : P ((t.entry c.now c.key).accept c).1) : ∀ i, P ((t.deliver c).1 i) :=
  (Function.forall_update_iff t fun _ => P).mpr ⟨haccept, fun i _ => hall i⟩

theorem deliver_sound (h : t.Sound) (hend : c.off + c.payload.length ≤ cap) :
    (t.deliver c).1.Sound := by
  have hkey : ((t.entry c.now c.key).accept c).1.key = c.key := by
    rw [accept_key, entry_key]
  -- An entry other than the slot is not in use for the key of the call.
  have hclash : ∀ key i, i ≠ t.slot c.now c.key → t.Holds key i →
      ¬ (t.deliver c).1.Holds key (t.slot c.now c.key) := by
    rintro key i hi hholds ⟨-, hslot⟩
    rw [deliver_slot, hkey] at hslot
    subst hslot
    exact hi (slot_of_holds h hholds c.now).symm
  constructor
  · exact deliver_entries h.entry (accept_sound (entry_sound h c.now c.key) hend)
  · have hother : ∀ {key i}, i ≠ t.slot c.now c.key → (t.deliver c).1.Holds key i →
        t.Holds key i := by
      intro key i hi hholds
      rw [Holds, deliver_other hi] at hholds
      exact hholds
    intro key i j hi hj
    by_cases hislot : i = t.slot c.now c.key
    · by_cases hjslot : j = t.slot c.now c.key
      · rw [hislot, hjslot]
      · exact absurd (hislot ▸ hi) (hclash key j hjslot (hother hjslot hj))
    · by_cases hjslot : j = t.slot c.now c.key
      · exact absurd (hjslot ▸ hj) (hclash key i hislot (hother hislot hi))
      · exact h.apart key i j (hother hislot hi) (hother hjslot hj)

/-- A fragment that is looked at. -/
def Call.Checked (c : Call) : Prop :=
  c.payload ≠ [] ∧ c.off % 8 = 0 ∧ c.off + c.payload.length ≤ cap ∧
    (c.expected ≠ 0 → c.off + c.payload.length = c.expected)

theorem input_checked (t : Table) (h : c.Checked) :
    t.input c = (t.sweep c.now c.timeout).deliver c := by
  obtain ⟨hpayload, hoff, hend, hlast⟩ := h
  rw [input, if_neg, if_neg (Nat.not_lt_of_le hend), if_neg]
  · rintro (hlarge | ⟨hgiven, hne⟩)
    · have hgiven : c.expected ≠ 0 := by omega
      rw [hlast hgiven] at hend
      exact Nat.not_le_of_lt hlarge hend
    · exact hne (hlast hgiven)
  · rintro (hempty | hodd)
    · exact hpayload hempty
    · exact hodd hoff

/-- A fragment either goes to its entry or drops entries at most. -/
theorem input_cases (t : Table) (c : Call) :
    c.Checked ∨ (t.Drops (t.input c).1 ∧ (t.input c).2 = .refused) := by
  rw [input]
  split
  · exact .inr ⟨fun _ => .inl rfl, rfl⟩
  · rename_i hshape
    by_cases hend : cap < c.off + c.payload.length
    · rw [if_pos hend]
      exact .inr ⟨(sweep_drops t c.now c.timeout).trans (forget_drops _ c.key), rfl⟩
    · rw [if_neg hend]
      by_cases hlast : cap < c.expected ∨ (c.expected ≠ 0 ∧ c.off + c.payload.length ≠ c.expected)
      · rw [if_pos hlast]
        exact .inr ⟨sweep_drops t c.now c.timeout, rfl⟩
      · rw [not_or, not_not] at hshape
        refine .inl ⟨hshape.1, hshape.2, Nat.le_of_not_lt hend, fun hgiven => ?_⟩
        by_contra hne
        exact hlast (.inr ⟨hgiven, hne⟩)

theorem step_sound (h : t.Sound) (event : Event) : (t.step event).Sound := by
  cases event with
  | sweep now timeout => exact (sweep_drops t now timeout).sound h
  | input c =>
    rw [step]
    rcases input_cases t c with hchecked | ⟨hdrops, -⟩
    · rw [input_checked t hchecked]
      exact deliver_sound ((sweep_drops t c.now c.timeout).sound h) hchecked.2.2.1
    · exact hdrops.sound h

theorem init_sound : Table.init.Sound where
  entry _ :=
    let h := fresh_sound ⟨0, 0, 0, 0⟩ 0
    { h with }
  apart _ _ _ hi := nomatch hi.1

theorem sound_of_run (hrun : Reaches Table.Step Table.init t) : t.Sound := by
  apply hrun.invariant init_sound
  rintro before event after hbefore rfl
  exact step_sound hbefore event

/-! ## What comes out was covered -/

/-- The entry that a call finds or makes. -/
def Table.target (t : Table) (c : Call) : Entry :=
  (t.sweep c.now c.timeout).entry c.now c.key

/-- The fragments that were accepted for the key of a call since its entry was made, with
that of the call. -/
def Table.accepted (t : Table) (c : Call) : List (Patch UInt8) :=
  (t.target c).log ++ [c.patch]

/-- A total is not given below a byte that has come in, by a fragment that is looked at. -/
def Table.Fits (t : Table) : Event → Prop
  | .input c => c.Checked → (t.target c).Fits c
  | .sweep _ _ => True

instance (t : Table) (event : Event) : Decidable (t.Fits event) := by
  cases event <;> unfold Table.Fits <;> dsimp only [Call.Checked] <;> infer_instance

variable {event : Event}

theorem step_within (hwithin : ∀ i, (t i).Within) (hfits : t.Fits event) :
    ∀ i, (t.step event i).Within := by
  cases event with
  | sweep now timeout => exact (sweep_drops t now timeout).entries (fun _ => id) hwithin
  | input c =>
    rw [step]
    rcases input_cases t c with hchecked | ⟨hdrops, -⟩
    · rw [input_checked t hchecked]
      have hswept := (sweep_drops t c.now c.timeout).entries (fun _ => id) hwithin
      exact deliver_entries hswept (accept_within (entry_within hswept c.now c.key)
        (hfits hchecked))
    · exact hdrops.entries (fun _ => id) hwithin

theorem within_of_run (hrun : Reaches (guarded Table.Fits Table.Step) Table.init t) :
    t.Sound ∧ ∀ i, (t i).Within := by
  apply hrun.invariant ⟨init_sound, fun _ hpinned => absurd rfl hpinned⟩
  rintro before event after ⟨hsound, hwithin⟩ ⟨hfits, rfl⟩
  exact ⟨step_sound hsound event, step_within hwithin hfits⟩

theorem input_complete {out : List UInt8} (hsound : t.Sound) (hwithin : ∀ i, (t i).Within)
    (hfits : t.Fits (.input c)) (hresult : (t.input c).2 = .complete n out) :
    ∀ i < n, ∃ byte, first (t.accepted c) i = some byte ∧ (i < c.outCap → out[i]? = some byte) := by
  rcases input_cases t c with hchecked | ⟨-, hrefused⟩
  · rw [input_checked t hchecked] at hresult
    have hdrops := sweep_drops t c.now c.timeout
    apply accept_complete _ _ (hfits hchecked) hchecked.2.2.1 hresult
    · exact entry_sound (hdrops.sound hsound) c.now c.key
    · exact entry_within (hdrops.entries (fun _ => id) hwithin) c.now c.key
  · rw [hrefused] at hresult
    cases hresult

/-! ## The fragments of a payload -/

/-- The call brings a fragment of the payload. -/
structure Call.Piece (c : Call) (payload : List UInt8) : Prop where
  aligned : c.off % 8 = 0
  nonempty : c.payload ≠ []
  inside : c.off + c.payload.length ≤ payload.length
  bytes : c.payload = (payload.drop c.off).take c.payload.length
  expected : c.expected =
    if c.off + c.payload.length = payload.length then payload.length else 0

/-- The entry has fragments of the payload. -/
structure Entry.Gathers (e : Entry) (payload : List UInt8) : Prop where
  agrees : ∀ p ∈ e.log, ∀ i byte, p.valueAt i = some byte → payload[i]? = some byte
  total : e.expectedLen = 0 ∨ e.expectedLen = payload.length
  last : ∀ p ∈ e.log, p.stop = payload.length → e.expectedLen = payload.length

/-- The fragments cover the payload. -/
def Whole (patches : List (Patch UInt8)) (payload : List UInt8) : Prop :=
  ∀ i < payload.length, (first patches i).isSome

theorem Call.Piece.checked (h : c.Piece payload) (hcap : payload.length ≤ cap) : c.Checked := by
  refine ⟨h.nonempty, h.aligned, Nat.le_trans h.inside hcap, fun hgiven => ?_⟩
  rw [h.expected] at hgiven ⊢
  split_ifs at hgiven ⊢ with hlast
  · exact hlast
  · exact absurd rfl hgiven

theorem Call.Piece.agrees (h : c.Piece payload) {byte : UInt8}
    (hbyte : c.patch.valueAt pos = some byte) : payload[pos]? = some byte := by
  have hin := valueAt_isSome.mp (hbyte ▸ rfl : (c.patch.valueAt pos).isSome = true)
  have hoff : c.off ≤ pos := hin.1
  have hstop : pos - c.off < c.payload.length := (Nat.sub_lt_iff_lt_add' hoff).mpr hin.2
  have hvalue : c.payload[pos - c.off]? = some byte := by
    rw [Patch.valueAt] at hbyte
    rwa [if_pos hin.1] at hbyte
  rw [h.bytes, getElem?_take_of_lt hstop, getElem?_drop, Nat.add_sub_cancel' hoff] at hvalue
  exact hvalue

/-- A conflict is a byte of the patch that has come in with another value. -/
theorem exists_of_conflicts {bytes : List UInt8} (h : e.conflicts pos bytes = true) :
    ∃ i byte, Patch.valueAt ⟨pos, bytes⟩ i = some byte ∧ e.bitmap i = true ∧ e.data i ≠ byte := by
  induction bytes generalizing pos with
  | nil => cases h
  | cons byte rest ih =>
    rw [Entry.conflicts, Bool.or_eq_true, Bool.and_eq_true, decide_eq_true_eq] at h
    rcases h with ⟨hset, hne⟩ | hrest
    · refine ⟨pos, byte, ?_, hset, hne⟩
      rw [valueAt_cons, if_pos rfl]
    · obtain ⟨i, other, hvalue, hset, hne⟩ := ih hrest
      refine ⟨i, other, ?_, hset, hne⟩
      have hbehind := (valueAt_isSome.mp (hvalue ▸ rfl :
        (Patch.valueAt ⟨pos + 1, rest⟩ i).isSome = true)).1
      rw [valueAt_cons, if_neg (Nat.ne_of_gt hbehind), hvalue]

section

variable (h : e.Gathers payload)
include h

theorem Entry.Gathers.value (hsound : e.Sound)
    (hset : e.bitmap pos = true) : payload[pos]? = some (e.data pos) := by
  have hfirst : first e.log pos = some (e.data pos) := by
    rw [← hsound.content, content_of_bitmap hset]
  obtain ⟨p, hp, hvalue⟩ := exists_of_first hfirst
  exact h.agrees p hp pos _ hvalue

theorem Entry.Gathers.pin (hpiece : c.Piece payload) : (e.pin c.expected).Gathers payload ∧
      (c.patch.stop = payload.length → (e.pin c.expected).expectedLen = payload.length) := by
  have hnonempty : payload.length ≠ 0 := by
    have hpos := length_pos_iff.mpr hpiece.nonempty
    have hinside := hpiece.inside
    omega
  rw [Entry.pin, hpiece.expected]
  by_cases hlast : c.off + c.payload.length = payload.length
  · rw [if_pos hlast, if_pos hnonempty]
    exact ⟨⟨h.agrees, .inr rfl, fun _ _ _ => rfl⟩, fun _ => rfl⟩
  · rw [if_neg hlast, if_neg (fun hne => hne rfl)]
    exact ⟨h, fun hstop => absurd hstop hlast⟩

theorem Entry.Gathers.admits (hsound : e.Sound) (hpiece : c.Piece payload) : e.Admits c := by
  obtain ⟨hpinned, -⟩ := h.pin hpiece
  refine ⟨?_, fun hgiven => ?_, Bool.eq_false_iff.mpr fun hconflict => ?_⟩
  · rintro ⟨hgiven, hold, hne⟩
    rw [hpiece.expected] at hgiven hne
    split_ifs at hgiven hne with hlast
    · exact hne (h.total.resolve_left hold)
    · exact hgiven rfl
  · rw [hpinned.total.resolve_left hgiven]
    exact hpiece.inside
  · obtain ⟨i, byte, hvalue, hset, hne⟩ := exists_of_conflicts hconflict
    have hhere := hpinned.value (pin_sound hsound c.expected) hset
    rw [hpiece.agrees hvalue] at hhere
    exact hne (Option.some_inj.mp hhere).symm

theorem Entry.Gathers.take (hpiece : c.Piece payload) :
    ((e.pin c.expected).take c).Gathers payload := by
  obtain ⟨hpinned, hlast⟩ := h.pin hpiece
  refine ⟨fun p hp i byte hvalue => ?_, ?_, fun p hp hstop => ?_⟩
  · rw [take_log] at hp
    rcases mem_append.mp hp with hold | hnew
    · exact hpinned.agrees p hold i byte hvalue
    · rw [mem_singleton.mp hnew] at hvalue
      exact hpiece.agrees hvalue
  · rw [(take_same _ c).2.2]
    exact hpinned.total
  · rw [(take_same _ c).2.2]
    rw [take_log] at hp
    rcases mem_append.mp hp with hold | hnew
    · exact hpinned.last p hold hstop
    · rw [mem_singleton.mp hnew] at hstop
      exact hlast hstop

theorem Entry.Gathers.stop_le {p : Patch UInt8} (hp : p ∈ e.log)
    (hin : pos < p.stop) (hoff : p.off ≤ pos) : p.stop ≤ payload.length := by
  have hlast : (p.valueAt (p.stop - 1)).isSome = true := valueAt_isSome.mpr (by omega)
  obtain ⟨byte, hvalue⟩ := Option.isSome_iff_exists.mp hlast
  obtain ⟨hbound, -⟩ := List.getElem?_eq_some_iff.mp (h.agrees p hp _ byte hvalue)
  omega

/-- The entry is complete when the fragments cover the payload, and only then. -/
theorem Entry.Gathers.done (hsound : e.Sound)
    (hpayload : payload ≠ []) : e.done = true ↔ Whole e.log payload := by
  have hbelow : ∀ i, e.bitmap i = true → i < payload.length := by
    intro i hset
    exact (List.getElem?_eq_some_iff.mp (h.value hsound hset)).1
  constructor
  · intro hdone i hi
    have hpinned : e.expectedLen ≠ 0 := of_decide_eq_true (Bool.and_eq_true_iff.mp hdone).1
    have htotal := h.total.resolve_left hpinned
    have hmarks := marks_of_done hsound (htotal ▸ hbelow) hdone
    have hmark : i ∈ e.marks := by
      rw [hmarks, htotal]
      exact Finset.mem_range.mpr hi
    rw [← hsound.content]
    exact content_isSome.mpr ((mem_marks hsound.bounded).mp hmark)
  · intro hwhole
    have hpositive := length_pos_iff.mpr hpayload
    have htotal : e.expectedLen = payload.length := by
      obtain ⟨p, hp, hoff, hstop⟩ :=
        first_isSome.mp (hwhole (payload.length - 1) (Nat.sub_lt hpositive Nat.one_pos))
      apply h.last p hp
      apply Nat.le_antisymm
      · exact h.stop_le hp hstop hoff
      · exact Nat.le_of_pred_lt hstop
    have hmarks : e.marks = Finset.range payload.length := by
      ext i
      rw [mem_marks hsound.bounded, Finset.mem_range]
      refine ⟨hbelow i, fun hi => ?_⟩
      rw [← content_isSome, hsound.content]
      exact hwhole i hi
    rw [Entry.done, Bool.and_eq_true, decide_eq_true_eq, decide_eq_true_eq, hsound.count,
      hmarks, Finset.card_range, htotal]
    exact ⟨Nat.ne_of_gt hpositive, rfl⟩

theorem Entry.Gathers.copied (hsound : e.Sound) (hwhole : Whole e.log payload) (outCap : ℕ) :
    (range (min payload.length outCap)).map e.data = payload.take outCap := by
  apply ext_getElem?
  intro i
  by_cases hi : i < min payload.length outCap
  · have hset : e.bitmap i = true := by
      rw [← content_isSome, hsound.content]
      exact hwhole i (Nat.lt_min.mp hi).1
    rw [getElem?_map, getElem?_range hi,
      getElem?_take_of_lt (Nat.lt_min.mp hi).2, h.value hsound hset]
    rfl
  · rw [getElem?_eq_none, getElem?_eq_none]
    · rw [length_take, Nat.min_comm]
      exact Nat.le_of_not_lt hi
    · rw [length_map, length_range]
      exact Nat.le_of_not_lt hi

/-- A fragment of the payload brings out the payload when it is the last that was missing. -/
theorem Entry.Gathers.accept (hsound : e.Sound)
    (hpiece : c.Piece payload) (hcap : payload.length ≤ cap) :
    (Whole (e.log ++ [c.patch]) payload →
      (e.accept c).2 = .complete payload.length (payload.take c.outCap)) ∧
    (¬ Whole (e.log ++ [c.patch]) payload → (e.accept c).1 = (e.pin c.expected).take c) := by
  have htaken := h.take hpiece
  have hsound' : ((e.pin c.expected).take c).Sound :=
    take_sound (pin_sound hsound c.expected) (Nat.le_trans hpiece.inside hcap)
  have hpayload : payload ≠ [] := by
    rintro rfl
    exact hpiece.nonempty (length_eq_zero_iff.mp (Nat.le_zero.mp
      (Nat.le_trans (Nat.le_add_left _ _) hpiece.inside)))
  have hlog : ((e.pin c.expected).take c).log = e.log ++ [c.patch] := by
    rw [take_log, (pin_same e c.expected).2.1]
  have hdone := htaken.done hsound' hpayload
  rw [hlog] at hdone
  rw [accept_admits (h.admits hsound hpiece), Entry.finish]
  constructor
  · intro hwhole
    have hpinned : ((e.pin c.expected).take c).expectedLen = payload.length :=
      htaken.total.resolve_left (of_decide_eq_true (Bool.and_eq_true_iff.mp (hdone.mpr hwhole)).1)
    rw [if_pos (hdone.mpr hwhole), hpinned, htaken.copied hsound' (hlog.symm ▸ hwhole) c.outCap]
  · intro hpart
    rw [if_neg fun hfull => hpart (hdone.mp hfull)]

end

/-! ## Events -/

def Event.patches (key : Key) : Event → List (Patch UInt8)
  | .input c => if c.key = key then [c.patch] else []
  | .sweep _ _ => []

def fragments (key : Key) (events : List Event) : List (Patch UInt8) :=
  events.flatMap (Event.patches key)

/-- The entry of the key is neither dropped by time nor evicted. -/
def Table.Spares (t : Table) (key : Key) : Event → Prop
  | .input c =>
    if c.key = key then (t.sweep c.now c.timeout).find key ≠ none
    else (t.step (.input c)).find key ≠ none
  | .sweep now timeout => (t.step (.sweep now timeout)).find key ≠ none

instance (t : Table) (key : Key) (event : Event) : Decidable (t.Spares key event) := by
  cases event <;> unfold Table.Spares <;> infer_instance

def Undisturbed (key : Key) : Table → List Event → Prop
  | _, [] => True
  | t, event :: rest => t.Spares key event ∧ Undisturbed key (t.step event) rest

def Table.run (t : Table) (events : List Event) : Table := events.foldl Table.step t

/-- The first event is a fragment that finds no entry of its key, and the entry that it
makes is left alone. -/
def Started (t : Table) (key : Key) : List Event → Prop
  | .input c :: rest =>
    c.key = key ∧ (t.sweep c.now c.timeout).find key = none ∧
      Undisturbed key (t.step (.input c)) rest
  | _ => False

/-- The entry of the key has the fragments `seen` of the payload. -/
def Table.Gathering (t : Table) (key : Key) (payload : List UInt8)
    (seen : List (Patch UInt8)) : Prop :=
  ∃ i, t.Holds key i ∧ (t i).Gathers payload ∧ (t i).log = seen

variable {seen : List (Patch UInt8)} {events : List Event}

theorem Whole.append (h : Whole seen payload) (later : List (Patch UInt8)) :
    Whole (seen ++ later) payload := by
  intro i hi
  obtain ⟨p, hp, hin⟩ := first_isSome.mp (h i hi)
  exact first_isSome.mpr ⟨p, mem_append_left later hp, hin⟩

/-- An entry that an event of another key leaves in use is as before. -/
theorem step_other (hother : ∀ c, event = .input c → c.key ≠ key)
    (hholds : (t.step event).Holds key j) : t.step event j = t j := by
  cases event with
  | sweep now timeout => exact (sweep_drops t now timeout).eq_of_used hholds.1
  | input c =>
    rw [step] at hholds ⊢
    rcases input_cases t c with hchecked | ⟨hdrops, -⟩
    · rw [input_checked t hchecked] at hholds ⊢
      have hslot : j ≠ (t.sweep c.now c.timeout).slot c.now c.key := by
        rintro rfl
        apply hother c rfl
        rw [← hholds.2, deliver_slot, accept_key, entry_key]
      rw [Holds, deliver_other hslot] at hholds
      rw [deliver_other hslot]
      exact (sweep_drops t c.now c.timeout).eq_of_used hholds.1
    · exact hdrops.eq_of_used hholds.1

theorem gathering_other (h : t.Sound) (hgathering : t.Gathering key payload seen)
    (hother : ∀ c, event = .input c → c.key ≠ key) (hkept : (t.step event).find key ≠ none) :
    (t.step event).Gathering key payload seen := by
  obtain ⟨i, hholds, hgathers, rfl⟩ := hgathering
  obtain ⟨j, hj⟩ := Option.ne_none_iff_exists'.mp hkept
  have hlive := holds_of_find hj
  have hsame := step_other hother hlive
  have hindex : i = j := by
    apply h.apart key i j hholds
    rw [Holds, ← hsame]
    exact hlive
  subst hindex
  exact ⟨i, hlive, hsame ▸ hgathers, congrArg Entry.log hsame⟩

theorem undisturbed_append (h : Undisturbed key t (events ++ [event])) :
    Undisturbed key t events ∧ (t.run events).Spares key event := by
  induction events generalizing t with
  | nil => exact ⟨trivial, h.1⟩
  | cons first rest ih =>
    obtain ⟨hrest, hlast⟩ := ih h.2
    exact ⟨⟨h.1, hrest⟩, hlast⟩

section

variable (h : t.Sound) (hcap : payload.length ≤ cap)
include h hcap

theorem deliver_piece (hpiece : c.Piece payload)
    (hentry : t.entry c.now c.key = e) (hused : e.used = true) (hgathers : e.Gathers payload) :
    (Whole (e.log ++ [c.patch]) payload →
      (t.deliver c).2 = .complete payload.length (payload.take c.outCap)) ∧
    (¬ Whole (e.log ++ [c.patch]) payload →
      (t.deliver c).1.Gathering c.key payload (e.log ++ [c.patch])) := by
  subst hentry
  have haccept := hgathers.accept (entry_sound h c.now c.key) hpiece hcap
  refine ⟨haccept.1, fun hpart => ⟨t.slot c.now c.key, ?_⟩⟩
  have htaken := take_same ((t.entry c.now c.key).pin c.expected) c
  have hpinned := pin_same (t.entry c.now c.key) c.expected
  rw [Holds, deliver_slot, haccept.2 hpart, take_log, hpinned.2.1]
  refine ⟨⟨?_, ?_⟩, hgathers.take hpiece, rfl⟩
  · rw [htaken.1, hpinned.2.2, hused]
  · rw [htaken.2.1, hpinned.1, entry_key]

theorem input_piece (hgathering : t.Gathering key payload seen) (hpiece : c.Piece payload)
    (hkey : c.key = key) (hspared : t.Spares key (.input c)) :
    (Whole (seen ++ [c.patch]) payload →
      (t.input c).2 = .complete payload.length (payload.take c.outCap)) ∧
    (¬ Whole (seen ++ [c.patch]) payload →
      (t.input c).1.Gathering key payload (seen ++ [c.patch])) := by
  obtain ⟨i, hholds, hgathers, rfl⟩ := hgathering
  have hdrops := sweep_drops t c.now c.timeout
  rw [Spares, if_pos hkey] at hspared
  obtain ⟨j, hj⟩ := Option.ne_none_iff_exists'.mp hspared
  have hlive := holds_of_find hj
  have hsame : i = j := h.apart key i j hholds (hdrops.holds hlive)
  subst hsame
  have hentry : (t.sweep c.now c.timeout).entry c.now c.key = t i := by
    rw [entry, hkey, hj, ← hdrops.eq_of_used hlive.1]
    rfl
  rw [input_checked t (hpiece.checked hcap), ← hkey]
  exact deliver_piece (hdrops.sound h) hcap hpiece hentry hholds.1 hgathers

theorem input_first (hnone : (t.sweep c.now c.timeout).find key = none)
    (hpiece : c.Piece payload) (hkey : c.key = key) :
    (Whole [c.patch] payload → (t.input c).2 = .complete payload.length (payload.take c.outCap)) ∧
    (¬ Whole [c.patch] payload → (t.input c).1.Gathering key payload [c.patch]) := by
  have hentry : (t.sweep c.now c.timeout).entry c.now c.key = .fresh c.key c.now := by
    rw [entry, hkey, hnone]
    rfl
  rw [input_checked t (hpiece.checked hcap), ← hkey]
  exact deliver_piece ((sweep_drops t c.now c.timeout).sound h) hcap hpiece hentry rfl
    ⟨fun _ hp => (not_mem_nil hp).elim, .inl rfl, fun _ hp => (not_mem_nil hp).elim⟩

theorem gathering_step (hgathering : t.Gathering key payload seen) (hspared : t.Spares key event)
    (hpieces : ∀ c, event = .input c → c.key = key → c.Piece payload)
    (hpart : ¬ Whole (seen ++ event.patches key) payload) :
    (t.step event).Gathering key payload (seen ++ event.patches key) := by
  cases event with
  | sweep now timeout =>
    rw [Event.patches, append_nil]
    exact gathering_other h hgathering (fun _ hevent => nomatch hevent) hspared
  | input c =>
    rw [Event.patches] at hpart ⊢
    by_cases hkey : c.key = key
    · rw [if_pos hkey] at hpart ⊢
      exact (input_piece h hcap hgathering (hpieces c rfl hkey) hkey hspared).2 hpart
    · rw [if_neg hkey, append_nil]
      rw [Spares, if_neg hkey] at hspared
      apply gathering_other h hgathering _ hspared
      intro c' hevent
      injection hevent with hcall
      exact hcall ▸ hkey

/-- The entry gathers the fragments as long as they do not cover the payload. -/
theorem gathering_run (hgathering : t.Gathering key payload seen)
    (hspared : Undisturbed key t events)
    (hpieces : ∀ c, .input c ∈ events → c.key = key → c.Piece payload)
    (hpart : ¬ Whole (seen ++ fragments key events) payload) :
    (t.run events).Sound ∧ (t.run events).Gathering key payload (seen ++ fragments key events) := by
  induction events generalizing t seen with
  | nil =>
    rw [fragments, flatMap_nil, append_nil]
    exact ⟨h, hgathering⟩
  | cons event rest ih =>
    rw [fragments, flatMap_cons, ← append_assoc] at hpart ⊢
    have hfirst : ¬ Whole (seen ++ event.patches key) payload :=
      fun hwhole => hpart (hwhole.append _)
    apply ih (step_sound h event) _ hspared.2 _ hpart
    · apply gathering_step h hcap hgathering hspared.1 _ hfirst
      rintro c rfl
      exact hpieces c mem_cons_self
    · exact fun c hc => hpieces c (mem_cons_of_mem event hc)

/-- The fragment that covers the last of the payload brings it out. -/
theorem input_last (hstarted : Started t key (events ++ [.input c])) (hkey : c.key = key)
    (hpieces : ∀ c', .input c' ∈ events ++ [.input c] → c'.key = key → c'.Piece payload)
    (hpart : ¬ Whole (fragments key events) payload)
    (hwhole : Whole (fragments key (events ++ [.input c])) payload) :
    ((t.run events).input c).2 = .complete payload.length (payload.take c.outCap) := by
  have hpiece : c.Piece payload :=
    hpieces c (mem_append_right events (mem_singleton.mpr rfl)) hkey
  have happend : fragments key (events ++ [.input c]) = fragments key events ++ [c.patch] := by
    rw [fragments, flatMap_append, flatMap_singleton, Event.patches, if_pos hkey]
    rfl
  rw [happend] at hwhole
  cases events with
  | nil => exact (input_first h hcap hstarted.2.1 hpiece hkey).1 hwhole
  | cons event rest =>
    cases event with
    | sweep now timeout => exact hstarted.elim
    | input c₀ =>
      obtain ⟨hkey₀, hnone, hundisturbed⟩ := hstarted
      obtain ⟨hspared, hlast⟩ := undisturbed_append hundisturbed
      have hcons : fragments key (.input c₀ :: rest) = [c₀.patch] ++ fragments key rest := by
        rw [fragments, flatMap_cons, Event.patches, if_pos hkey₀]
        rfl
      rw [hcons] at hpart hwhole
      have hpiece₀ : c₀.Piece payload := hpieces c₀ mem_cons_self hkey₀
      have hmade : (t.step (.input c₀)).Gathering key payload [c₀.patch] :=
        (input_first h hcap hnone hpiece₀ hkey₀).2 fun hfull => hpart (hfull.append _)
      obtain ⟨hsound, hgathering⟩ := gathering_run (step_sound h (.input c₀)) hcap hmade
        hspared (fun c' hc' => hpieces c' (mem_cons_of_mem _ (mem_append_left _ hc'))) hpart
      exact (input_piece hsound hcap hgathering hpiece hkey hlast).1 hwhole

end

/-- What comes out is covered by the fragments that were accepted, each byte by the first
of them, when no total is given below a byte that has come in; and the fragments of a
payload, in any order and with any duplicates, bring out the payload. -/
theorem datagrams_complete (t : Table) :
    (Reaches (guarded Table.Fits Table.Step) Table.init t → ∀ c, t.Fits (.input c) →
      ∀ n out, (t.input c).2 = .complete n out → ∀ i < n,
        ∃ byte, first (t.accepted c) i = some byte ∧ (i < c.outCap → out[i]? = some byte)) ∧
    (Reaches Table.Step Table.init t → ∀ key payload events c,
      payload.length ≤ cap → Started t key (events ++ [.input c]) → c.key = key →
      (∀ c', .input c' ∈ events ++ [.input c] → c'.key = key → c'.Piece payload) →
      ¬ Whole (fragments key events) payload →
      Whole (fragments key (events ++ [.input c])) payload →
      ((t.run events).input c).2 = .complete payload.length (payload.take c.outCap)) := by
  constructor
  · intro hrun c hfits n out hresult
    obtain ⟨hsound, hwithin⟩ := within_of_run hrun
    exact input_complete hsound hwithin hfits hresult
  · intro hrun key payload events c hcap hstarted hkey hpieces hpart hwhole
    exact input_last (sound_of_run hrun) hcap hstarted hkey hpieces hpart hwhole

/-- A fragment of one datagram. -/
def fragment (off expected : ℕ) (payload : List UInt8) : Call where
  now := 0
  timeout := 10000
  key := ⟨1, 2, 17, 7⟩
  expected := expected
  off := off
  payload := payload
  outCap := cap

theorem datagrams_complete_two :
    (∃ byte, first ((Table.init.step (.input (fragment 8 12 [9, 10, 11, 12]))).accepted
      (fragment 0 0 [1, 2, 3, 4, 5, 6, 7, 8])) 3 = some byte) ∧
    ((Table.init.run [.input (fragment 8 12 [9, 10, 11, 12])]).input
      (fragment 0 0 [1, 2, 3, 4, 5, 6, 7, 8])).2 =
        .complete 12 [1, 2, 3, 4, 5, 6, 7, 8, 9, 10, 11, 12] := by
  have hwhole : ∀ patches, (range 12).all (fun i => (first patches i).isSome) = true →
      Whole patches [1, 2, 3, 4, 5, 6, 7, 8, 9, 10, 11, 12] := by
    intro patches hall i hi
    exact all_eq_true.mp hall i (mem_range.mpr hi)
  constructor
  · have hrun : Reaches (guarded Fits Step) init
        (init.step (.input (fragment 8 12 [9, 10, 11, 12]))) :=
      (Reaches.refl _ _).tail ⟨by decide +kernel, rfl⟩
    obtain ⟨byte, hbyte, -⟩ := (datagrams_complete _).1 hrun
      (fragment 0 0 [1, 2, 3, 4, 5, 6, 7, 8]) (by decide +kernel) 12
      [1, 2, 3, 4, 5, 6, 7, 8, 9, 10, 11, 12] (by decide +kernel) 3 (by decide)
    exact ⟨byte, hbyte⟩
  · apply (datagrams_complete init).2 (Reaches.refl _ _) ⟨1, 2, 17, 7⟩
      [1, 2, 3, 4, 5, 6, 7, 8, 9, 10, 11, 12]
    · decide
    · exact ⟨rfl, by decide +kernel, by decide +kernel, trivial⟩
    · rfl
    · intro c hc _
      rcases mem_append.mp hc with hfirst | hlast
      · injection mem_singleton.mp hfirst with hcall
        subst hcall
        exact ⟨rfl, cons_ne_nil _ _, by decide, rfl, rfl⟩
      · injection mem_singleton.mp hlast with hcall
        subst hcall
        exact ⟨rfl, cons_ne_nil _ _, by decide, rfl, rfl⟩
    · intro hfull
      exact absurd (hfull 0 (by decide)) (by decide +kernel)
    · exact hwhole _ (by decide +kernel)

/-- A fragment behind the total counts towards it: the datagram comes out with a hole at
its start. -/
theorem datagram_with_hole : Reaches Table.Step Table.init
      (Table.init.step (.input (fragment 16 0 [1, 1, 1, 1, 1, 1, 1, 1]))) ∧
    ((Table.init.step (.input (fragment 16 0 [1, 1, 1, 1, 1, 1, 1, 1]))).input
      (fragment 8 16 [2, 2, 2, 2, 2, 2, 2, 2])).2 =
        .complete 16 [0, 0, 0, 0, 0, 0, 0, 0, 2, 2, 2, 2, 2, 2, 2, 2] ∧
    first ((Table.init.step (.input (fragment 16 0 [1, 1, 1, 1, 1, 1, 1, 1]))).accepted
      (fragment 8 16 [2, 2, 2, 2, 2, 2, 2, 2])) 0 = none :=
  ⟨(Reaches.refl _ _).tail rfl, by decide +kernel, by decide +kernel⟩

/-- After any fragments and sweeps an entry has, at every position, the byte of the first
fragment that was accepted for it, counts each position once, and is alone with its key. -/
theorem first_fragments_kept (events : List Event) : (Table.init.run events).Sound :=
  sound_of_run (reaches_run Table.step events Table.init)

end AuraLite.IpReasm

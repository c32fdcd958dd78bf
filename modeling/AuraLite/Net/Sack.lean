import AuraLite.Net.TcpRetransmit
import AuraLite.Lib.BigEndian

/-!
# Selective acknowledgements

The blocks that a peer reports in the options of a segment, as `tcp_m6d.h` encodes and decodes
them, and the segments of the queue that they mark.  Both ends of a block are compared by
signed differences, which lose their meaning half the sequence space away.
-/

namespace AuraLite.TcpRetx

open List SeqArith

/-! ## The option -/

/-- `TCPM6D_MAX_BLOCKS`. -/
def maxBlocks : ℕ := 4

def blockBytes (block : ℕ × ℕ) : List UInt8 :=
  BigEndian.encode 4 block.1 ++ BigEndian.encode 4 block.2

/-- `tcpm6d_encode`; behind the two NOPs the option ends on a word, so nothing is padded. -/
def encode (blocks : List (ℕ × ℕ)) : List UInt8 :=
  if blocks = [] then []
  else [1, 1, 5, UInt8.ofNat (2 + 8 * (blocks.take maxBlocks).length)] ++
    (blocks.take maxBlocks).flatMap blockBytes

def blockAt (bytes : List UInt8) : ℕ × ℕ :=
  (BigEndian.value (bytes.take 4), BigEndian.value ((bytes.drop 4).take 4))

/-- The blocks of one option; one whose end does not follow its start is left out. -/
def readBlocks : ℕ → List UInt8 → List (ℕ × ℕ) → List (ℕ × ℕ)
  | 0, _, found => found
  | count + 1, bytes, found =>
    if maxBlocks ≤ found.length then found
    else readBlocks count (bytes.drop 8)
      (if 0 < diff (blockAt bytes).2 (blockAt bytes).1 then found ++ [blockAt bytes] else found)

/-- The loop of `tcpm6d_decode`; every turn takes a byte at least, so the fuel is enough. -/
def decodeFrom : ℕ → List UInt8 → List (ℕ × ℕ) → List (ℕ × ℕ)
  | 0, _, found => found
  | _, [], found => found
  | fuel + 1, kind :: rest, found =>
    if kind = 0 then found
    else if kind = 1 then decodeFrom fuel rest found
    else match rest with
      | [] => found
      | olen :: body =>
        if olen.toNat < 2 ∨ body.length + 2 < olen.toNat then found
        else decodeFrom fuel (body.drop (olen.toNat - 2))
          (if kind = 5 ∧ 10 ≤ olen.toNat ∧ (olen.toNat - 2) % 8 = 0 then
            readBlocks ((olen.toNat - 2) / 8) body found else found)

/-- `tcpm6d_decode`. -/
def decode (options : List UInt8) : List (ℕ × ℕ) := decodeFrom options.length options []

/-- The end follows the start. -/
structure Proper (block : ℕ × ℕ) : Prop where
  start : block.1 < 2 ^ 32
  stop : block.2 < 2 ^ 32
  follows : 0 < diff block.2 block.1

theorem value_take_lt (bytes : List UInt8) : BigEndian.value (bytes.take 4) < 2 ^ 32 :=
  (BigEndian.value_lt _).trans_le (Nat.pow_le_pow_right (by norm_num) (length_take_le 4 bytes))

theorem readBlocks_proper (count : ℕ) (bytes : List UInt8) {found : List (ℕ × ℕ)}
    (h : ∀ block ∈ found, Proper block) : ∀ block ∈ readBlocks count bytes found, Proper block := by
  induction count generalizing bytes found with
  | zero => exact h
  | succ count ih =>
    rw [readBlocks]
    split_ifs with hfull hfollows
    · exact h
    · apply ih
      intro block hblock
      rcases mem_append.mp hblock with hold | hnew
      · exact h block hold
      · cases mem_singleton.mp hnew
        exact ⟨value_take_lt _, value_take_lt _, hfollows⟩
    · exact ih _ h

theorem decodeFrom_proper (fuel : ℕ) (options : List UInt8) {found : List (ℕ × ℕ)}
    (h : ∀ block ∈ found, Proper block) :
    ∀ block ∈ decodeFrom fuel options found, Proper block := by
  fun_induction decodeFrom fuel options found with
  | case1 | case2 | case3 | case5 | case6 => exact h
  | case4 _ _ _ _ ih => exact ih h
  | case7 _ _ _ _ _ _ _ _ ih =>
    apply ih
    split_ifs
    · exact readBlocks_proper _ _ h
    · exact h

theorem length_blockBytes (block : ℕ × ℕ) : (blockBytes block).length = 8 := by
  rw [blockBytes, length_append, BigEndian.length_encode, BigEndian.length_encode]

theorem blockAt_bytes {block : ℕ × ℕ} (h : Proper block) (rest : List UInt8) :
    blockAt (blockBytes block ++ rest) = block := by
  have hlength (n : ℕ) : (BigEndian.encode 4 n).length = 4 := BigEndian.length_encode 4 n
  rw [blockAt, blockBytes, append_assoc, take_left' (hlength _), drop_left' (hlength _),
    take_left' (hlength _), BigEndian.value_encode_of_lt h.start,
    BigEndian.value_encode_of_lt h.stop]

theorem readBlocks_encoded (blocks found : List (ℕ × ℕ)) (h : ∀ block ∈ blocks, Proper block)
    (hroom : found.length + blocks.length ≤ maxBlocks) :
    readBlocks blocks.length (blocks.flatMap blockBytes) found = found ++ blocks := by
  induction blocks generalizing found with
  | nil => rw [length_nil, readBlocks, append_nil]
  | cons block blocks ih =>
    have hproper := h block mem_cons_self
    rw [length_cons] at hroom
    rw [length_cons, readBlocks, if_neg (by omega), flatMap_cons, blockAt_bytes hproper,
      drop_left' (length_blockBytes block), if_pos hproper.follows,
      ih _ (fun other hother => h other (mem_cons_of_mem _ hother)), append_assoc]
    · rfl
    · rw [length_append, length_singleton]
      omega

theorem decode_encode {blocks : List (ℕ × ℕ)} (hsome : blocks ≠ [])
    (hcount : blocks.length ≤ maxBlocks) (h : ∀ block ∈ blocks, Proper block) :
    decode (encode blocks) = blocks := by
  have hbytes : (blocks.flatMap blockBytes).length = 8 * blocks.length := by
    simp only [length_flatMap, length_blockBytes, map_const', sum_replicate_nat,
      Nat.mul_comm]
  have hfour : blocks.length ≤ 4 := hcount
  have hpos := length_pos_iff.mpr hsome
  have holen : (UInt8.ofNat (2 + 8 * blocks.length)).toNat = 2 + 8 * blocks.length := by
    rw [UInt8.toNat_ofNat']
    omega
  rw [encode, if_neg hsome, take_of_length_le hcount]
  simp only [decode, cons_append, nil_append, length_cons, hbytes]
  -- Two NOPs, the option, and the end of the bytes.
  rw [decodeFrom, if_neg (by decide), if_pos rfl, decodeFrom, if_neg (by decide), if_pos rfl,
    decodeFrom, if_neg (by decide), if_neg (by decide)]
  simp only [holen]
  rw [if_neg (by omega), if_pos ⟨trivial, by omega, by omega⟩, Nat.add_sub_cancel_left,
    Nat.mul_div_cancel_left _ (by norm_num), readBlocks_encoded blocks [] h (by simpa using hcount),
    drop_of_length_le (Nat.le_of_eq hbytes)]
  cases 8 * blocks.length <;> rfl

/-! ## The marks -/

def InBlock (block : ℕ × ℕ) (n : ℕ) : Prop := minus n block.1 < minus block.2 block.1

/-- Every sequence number of the segment is in a block that was reported. -/
def Covered (blocks : List (ℕ × ℕ)) (seg : Seg) : Prop :=
  ∀ k < seg.len, ∃ block ∈ blocks, InBlock block (SeqArith.seq (seg.seq + k))

/-- The segment starts less than half the sequence space behind the start of the block and ends
more than that behind its end. -/
def Straddles (block : ℕ × ℕ) (seg : Seg) : Prop :=
  minus seg.seq block.1 < 2 ^ 31 ∧ minus block.2 block.1 + 2 ^ 31 < minus seg.seq block.1 + seg.len

/-- The segment is in the block as a whole, or straddles it. -/
def Touches (block : ℕ × ℕ) (seg : Seg) : Prop := Covered [block] seg ∨ Straddles block seg

instance (block : ℕ × ℕ) (n : ℕ) : Decidable (InBlock block n) := inferInstanceAs (Decidable (_ < _))

instance (blocks : List (ℕ × ℕ)) (seg : Seg) : Decidable (Covered blocks seg) :=
  inferInstanceAs (Decidable (∀ k < _, _))

instance (block : ℕ × ℕ) (seg : Seg) : Decidable (Straddles block seg) :=
  inferInstanceAs (Decidable (_ ∧ _))

instance (block : ℕ × ℕ) (seg : Seg) : Decidable (Touches block seg) :=
  inferInstanceAs (Decidable (_ ∨ _))

/-- A segment as it is queued. -/
structure Queued (seg : Seg) : Prop where
  seq : seg.seq < 2 ^ 32
  some : 1 ≤ seg.len
  short : seg.len ≤ 65535

/-- Only what was reported is marked, and the hole is the first segment of which a sequence
number was not. -/
structure MarksSound (queue : List Seg) (blocks : List (ℕ × ℕ)) : Prop where
  marked : ∀ (i : ℕ) seg, queue[i]? = some seg → seg.sacked = false →
    (mark queue blocks)[i]? = some { seg with sacked := true } → Covered blocks seg
  hole : nextHole (mark queue blocks) =
    queue.find? fun seg => !(seg.sacked || decide (Covered blocks seg))

/-- A segment that straddles a block was reported; and the first one that was not marked and
touches no block was not reported in several. -/
structure BlocksFit (queue : List Seg) (blocks : List (ℕ × ℕ)) : Prop where
  straddles : ∀ seg ∈ queue, seg.sacked = false → ∀ block ∈ blocks, Straddles block seg →
    Covered blocks seg
  first : ∀ seg, (queue.find? fun seg => !(seg.sacked || blocks.any (Touches · seg))) = some seg →
    ¬ Covered blocks seg

variable {seg : Seg} {queue : List Seg} {blocks : List (ℕ × ℕ)}

theorem covered_single {block : ℕ × ℕ} (hblock : Proper block) (hseg : Queued seg) :
    Covered [block] seg ↔ minus seg.seq block.1 + seg.len ≤ minus block.2 block.1 := by
  obtain ⟨hstart, hstop, hfollows⟩ := hblock
  obtain ⟨hseq, hsome, hshort⟩ := hseg
  rw [diff] at hfollows
  simp only [Covered, InBlock, mem_singleton, exists_eq_left, minus, SeqArith.seq] at hfollows ⊢
  constructor
  · intro h
    have hfirst := h 0 hsome
    have hlast := h (seg.len - 1) (by omega)
    split_ifs at hfollows <;> omega
  · intro h k hk
    omega

theorem covers_iff {block : ℕ × ℕ} (hblock : Proper block) (hseg : Queued seg) :
    covers block seg = true ↔ Touches block seg := by
  rw [Touches, covered_single hblock hseg]
  obtain ⟨hstart, hstop, hfollows⟩ := hblock
  obtain ⟨hseq, hsome, hshort⟩ := hseg
  rw [covers, Straddles, Bool.and_eq_true, decide_eq_true_eq, decide_eq_true_eq]
  simp only [diff, minus, SeqArith.seq] at hfollows ⊢
  split_ifs at hfollows ⊢ <;> omega

theorem mark_eq (hqueue : ∀ seg ∈ queue, Queued seg) (hblocks : ∀ block ∈ blocks, Proper block) :
    mark queue blocks =
      queue.map fun seg => { seg with sacked := seg.sacked || blocks.any (Touches · seg) } := by
  refine map_congr_left fun seg hseg => ?_
  have hany : blocks.any (covers · seg) = blocks.any (Touches · seg) := by
    rw [Bool.eq_iff_iff, any_eq_true, any_eq_true]
    refine exists_congr fun block => and_congr_right fun hblock => ?_
    rw [decide_eq_true_eq]
    exact covers_iff (hblocks block hblock) (hqueue seg hseg)
  rw [hany]

theorem nextHole_map (want : Seg → Bool) :
    nextHole (queue.map fun seg => { seg with sacked := seg.sacked || want seg }) =
      queue.find? fun seg => !(seg.sacked || want seg) := by
  rw [nextHole, find?_map, Function.comp_def]
  cases hfound : queue.find? fun seg => !(seg.sacked || want seg) with
  | none => rfl
  | some seg =>
    have hclear := Bool.not_eq_true' _ ▸ find?_some hfound
    rw [Option.map_some, hclear, ← (Bool.or_eq_false_iff.mp hclear).1]

theorem find?_eq_of_first {α : Type*} {p q : α → Bool} {l : List α}
    (hp : ∀ x ∈ l, q x = true → p x = true) (hq : ∀ x, l.find? p = some x → q x = true) :
    l.find? p = l.find? q := by
  cases hfound : l.find? p with
  | none =>
    rw [find?_eq_none] at hfound
    exact (find?_eq_none.mpr fun x hx hqx => hfound x hx (hp x hx hqx)).symm
  | some x =>
    have hqx := hq x hfound
    obtain ⟨-, before, after, rfl, hbefore⟩ := find?_eq_some_iff_append.mp hfound
    refine (find?_eq_some_iff_append.mpr ⟨hqx, before, after, rfl, fun y hy => ?_⟩).symm
    have hpy := hbefore y hy
    rw [Bool.not_eq_true', Bool.eq_false_iff] at hpy ⊢
    exact fun hqy => hpy (hp y (mem_append_left _ hy) hqy)

theorem covered_of_touches (h : ∀ block ∈ blocks, Straddles block seg → Covered blocks seg)
    (hany : blocks.any (Touches · seg) = true) : Covered blocks seg := by
  obtain ⟨block, hblock, htouches⟩ := any_eq_true.mp hany
  rcases of_decide_eq_true htouches with hsingle | hstraddles
  · intro k hk
    obtain ⟨other, hother, hin⟩ := hsingle k hk
    exact ⟨other, mem_singleton.mp hother ▸ hblock, hin⟩
  · exact h block hblock hstraddles

/-- Marks and hole are right exactly when every segment that straddles a block was reported and
the first that touches none was not reported in several; and one to four blocks are decoded
from their encoding. -/
theorem sack_marks_iff (queue : List Seg) (hqueue : ∀ seg ∈ queue, Queued seg)
    (options : List UInt8) :
    (MarksSound queue (decode options) ↔ BlocksFit queue (decode options)) ∧
    ∀ blocks : List (ℕ × ℕ), 1 ≤ blocks.length → blocks.length ≤ 4 →
      (∀ block ∈ blocks, Proper block) → decode (encode blocks) = blocks := by
  refine ⟨?_, fun blocks hsome => decode_encode (length_pos_iff.mp hsome)⟩
  have hblocks : ∀ block ∈ decode options, Proper block := decodeFrom_proper _ _ nofun
  have hmark := mark_eq hqueue hblocks
  have hhole := @nextHole_map queue fun seg => (decode options).any (Touches · seg)
  constructor
  · rintro ⟨hmarked, hsame⟩
    rw [hmark, hhole] at hsame
    refine ⟨fun seg hseg hclear block hblock hstraddles => ?_, fun seg hfound hcovered => ?_⟩
    · obtain ⟨i, hi⟩ := mem_iff_getElem?.mp hseg
      apply hmarked i seg hi hclear
      have hany : (decode options).any (Touches · seg) = true :=
        any_eq_true.mpr ⟨block, hblock, decide_eq_true (.inr hstraddles)⟩
      rw [hmark, getElem?_map, hi, Option.map_some, hany, Bool.or_true]
    · have hnot := find?_some (hsame ▸ hfound)
      rw [decide_eq_true hcovered, Bool.or_true] at hnot
      cases hnot
  · rintro ⟨hstraddles, hfirst⟩
    have hreported : ∀ seg ∈ queue, (seg.sacked || (decode options).any (Touches · seg)) = true →
        (seg.sacked || decide (Covered (decode options) seg)) = true := by
      intro seg hseg htouches
      cases hsacked : seg.sacked with
      | true => rfl
      | false =>
        rw [hsacked] at htouches
        exact decide_eq_true (covered_of_touches (hstraddles seg hseg hsacked) htouches)
    refine ⟨fun i seg hi hclear hset => ?_, ?_⟩
    · rw [hmark, getElem?_map, hi, Option.map_some] at hset
      have hnow := hreported seg (mem_of_getElem? hi) (congrArg Seg.sacked (Option.some_inj.mp hset))
      rw [hclear] at hnow
      exact of_decide_eq_true hnow
    · rw [hmark, hhole]
      apply find?_eq_of_first
      · intro seg hseg hopen
        rw [Bool.not_eq_true', Bool.eq_false_iff] at hopen ⊢
        exact fun htouches => hopen (hreported seg hseg htouches)
      · intro seg hfound
        have hclear := Bool.not_eq_true' _ ▸ find?_some hfound
        rw [(Bool.or_eq_false_iff.mp hclear).1, decide_eq_false (hfirst seg hfound)]
        rfl

/-- A report of the three bytes at 4099. -/
def sackOption : List UInt8 := encode [(4099, 4102)]

theorem sack_marks_next : nextHole (mark [⟨4099, 3, false⟩, ⟨4102, 3, false⟩]
      (decode sackOption)) = some ⟨4102, 3, false⟩ := by
  obtain ⟨hmarks, -⟩ := sack_marks_iff [⟨4099, 3, false⟩, ⟨4102, 3, false⟩] (by
    rintro seg (_ | ⟨_, _ | ⟨_, ⟨⟩⟩⟩)
    · exact ⟨by decide, by decide, by decide⟩
    · exact ⟨by decide, by decide, by decide⟩) sackOption
  refine (hmarks.mpr ⟨by decide +kernel, fun seg hfound => ?_⟩).hole.trans (by decide +kernel)
  rw [Option.some_inj.mp (hfound.symm.trans (by decide +kernel :
    _ = some (⟨4102, 3, false⟩ : Seg)))]
  decide +kernel

/-- A block of one byte, half the sequence space before a segment of three: the segment is
marked, though no byte of it was reported, and there is no hole.  And a segment of which each
half was reported as a block is a hole. -/
theorem sack_marks_far : decode (encode [(2147487745, 2147487746)]) =
        [(2147487745, 2147487746)] ∧
      mark [⟨4096, 3, false⟩] [(2147487745, 2147487746)] = [⟨4096, 3, true⟩] ∧
      ¬ Covered [(2147487745, 2147487746)] ⟨4096, 3, false⟩ ∧
      nextHole (mark [⟨4096, 3, false⟩] [(2147487745, 2147487746)]) = none ∧
      Covered [(4096, 4098), (4098, 4100)] ⟨4096, 4, false⟩ ∧
      nextHole (mark [⟨4096, 4, false⟩] [(4096, 4098), (4098, 4100)]) =
        some ⟨4096, 4, false⟩ := by
  decide +kernel

end AuraLite.TcpRetx

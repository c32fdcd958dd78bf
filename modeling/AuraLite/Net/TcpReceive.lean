import AuraLite.Lib.Reachability
import AuraLite.Lib.SeqArith

/-!
# Receiving on a TCP connection

`tcp_recv` with the sequencer of `tcp_x5.h`: segments are classified by their sequence
number; one segment ahead of its turn is held and folded in when its turn comes; what
does not fit the caller's buffer stays in the stash for the next call.
-/

namespace AuraLite.Tcp

open List SeqArith

/-- `tcp_state_t`. -/
inductive Phase
  | closed
  | listen
  | synSent
  | established
  | finWait1
  | finWait2
  | closing
  | closeWait
  | lastAck
  | timeWait
deriving DecidableEq

/-- `tcp_state_can_recv`. -/
def Phase.canRecv : Phase → Bool
  | .established | .finWait2 | .closeWait => true
  | _ => false

/-- Where a FIN leads. -/
def Phase.onFin : Phase → Phase
  | .established => .closeWait
  | .finWait2 => .timeWait
  | .finWait1 => .closing
  | _ => .closed

/-- A segment that is held ahead of its turn.  Its place in the stream is there for the
statements only. -/
structure Gap (α : Type) where
  seq : ℕ
  data : List α
  place : ℕ
deriving DecidableEq

/-- The receiving side of a connection. -/
structure Conn (α : Type) where
  state : Phase
  ack : ℕ
  rcvWnd : ℕ
  gap : Option (Gap α)
  dstPort : ℕ
deriving DecidableEq

/-- A segment as it is received; the place as in `Gap`. -/
structure Packet (α : Type) where
  seq : ℕ
  data : List α
  fin : Bool
  rst : Bool
  place : ℕ
deriving DecidableEq

/-- `TCP_RX_STAGE_SIZE`. -/
def stageSize : ℕ := 1600

/-- `TCPX5_OOO_CAP`. -/
def oooCap : ℕ := 8192

/-- `TCP_RX_STASH_SIZE`. -/
def stashSize : ℕ := stageSize + oooCap

def tcpWindow : ℕ := 64240

def eConnReset : ℤ := -104

/-- The port of the peer for whom `tcp_recv_segment_timeout` makes up a request. -/
def simPort : ℕ := 54321

def simReq : List ℕ := "GET / HTTP/1.0\r\nHost: localhost:8080\r\n\r\n".toList.map Char.toNat

/-! ## The sequencer -/

inductive Class
  | inOrder
  | dup
  | partialDup
  | ooo
  | oooFar
deriving DecidableEq

/-- `tcpx5_classify`. -/
def classify (expected segSeq segLen rcvWnd : ℕ) : Class :=
  if segLen = 0 then .inOrder
  else if segSeq = expected then .inOrder
  else if 0 ≤ diff segSeq expected then
    if (diff segSeq expected).toNat ≤ rcvWnd then .ooo else .oooFar
  else if segLen ≤ (-diff segSeq expected).toNat then .dup
  else .partialDup

/-- `tcpx5_dup_prefix`. -/
def dupPrefix (expected segSeq : ℕ) : ℕ := minus expected segSeq

variable {α : Type}

/-! ## Delivery -/

/-- `tcp_rx_deliver`: what the caller gets, and the stash then. -/
def deliver (bufsize : ℕ) (payload stash : List α) : List α × List α :=
  (payload.take bufsize,
    if bufsize < payload.length then (payload.drop bufsize).take stashSize else stash)

/-- The bytes that `tcp_x5_drain_ooo` acknowledges. -/
def Conn.due (c : Conn α) : List α :=
  match c.gap with
  | some g => if g.seq = c.ack then g.data else []
  | none => []

/-- `tcp_x5_drain_ooo` on the connection. -/
def Conn.drain (c : Conn α) : Conn α :=
  match c.gap with
  | some g =>
    if g.seq = c.ack then { c with ack := SeqArith.seq (c.ack + g.data.length), gap := none }
    else c
  | none => c

/-- `tcp_x5_drain_ooo` on the stash. -/
def foldIn (stash due : List α) : List α :=
  if stash.length + due.length ≤ stashSize then stash ++ due else stash

/-- What a call returns, what it leaves, and the bytes it has acknowledged. -/
structure Result (α : Type) where
  reply : Except ℤ (List α)
  conn : Conn α
  stash : List α
  acked : List α

/-- Payload and FIN are accepted. -/
def accept (bufsize : ℕ) (payload : List α) (fin : Bool) (c : Conn α) (stash : List α) :
    Result α :=
  let taken : Conn α :=
    { c with
      ack := SeqArith.seq (c.ack + (payload.length + fin.toNat))
      state := if fin then c.state.onFin else c.state }
  let out := deliver bufsize payload stash
  ⟨.ok out.1, taken.drain, foldIn out.2 taken.due, payload ++ taken.due⟩

/-- The branch for segments ahead of their turn. -/
def Conn.hold (c : Conn α) (p : Packet α) : Conn α :=
  if c.gap = none ∧ p.data ≠ [] ∧ p.data.length ≤ oooCap then
    { c with gap := some ⟨p.seq, p.data, p.place⟩ }
  else c

/-- The payload that is left when the prefix that was received before is cut off, or
nothing if the segment is not for now. -/
def Conn.sequenced (c : Conn α) (p : Packet α) : Option (List α) :=
  match classify c.ack p.seq p.data.length c.rcvWnd with
  | .partialDup => some (p.data.drop (dupPrefix c.ack p.seq))
  | .inOrder => some p.data
  | _ => none

/-- Whether the loop goes on behind a segment that was sequenced: an acknowledgement
without data, or a FIN for bytes that did not come. -/
def Conn.passes (c : Conn α) (p : Packet α) (payload : List α) : Prop :=
  payload = [] ∧ (p.fin = true → p.seq ≠ c.ack)

instance (c : Conn α) (p : Packet α) (payload : List α) :
    Decidable (c.passes p payload) :=
  inferInstanceAs (Decidable (payload = [] ∧ (p.fin = true → p.seq ≠ c.ack)))

/-- What becomes of a segment that is not accepted. -/
def Conn.refuse (c : Conn α) (p : Packet α) : Conn α :=
  if classify c.ack p.seq p.data.length c.rcvWnd = .ooo then c.hold p else c

/-- The loop of `tcp_recv` over the segments that come in; without more of them it ends
with the timeout, or, for a peer at `simPort`, with the request that is made up then and
stands where the next byte is expected. -/
def receiveLoop [NatCast α] (bufsize : ℕ) : List (Packet α) → Conn α → List α → Result α
  | [], c, stash =>
    if c.dstPort = simPort then accept bufsize (simReq.map Nat.cast) false c stash
    else ⟨.ok [], c, stash, []⟩
  | p :: rest, c, stash =>
    if p.rst then ⟨.error eConnReset, { c with state := .closed, gap := none }, [], []⟩
    else
      match c.sequenced p with
      | none => receiveLoop bufsize rest (c.refuse p) stash
      | some payload =>
        if c.passes p payload then receiveLoop bufsize rest c stash
        else accept bufsize payload p.fin c stash

/-- The copy into `rx_staging`. -/
def Packet.staged (p : Packet α) : Packet α := { p with data := p.data.take stageSize }

def tcpRecv [NatCast α] (bufsize : ℕ) (packets : List (Packet α)) (c : Conn α)
    (stash : List α) : Result α :=
  if c.state.canRecv = false then ⟨.error (-1), c, stash, []⟩
  else if stash ≠ [] then ⟨.ok (stash.take bufsize), c, stash.drop bufsize, []⟩
  else receiveLoop bufsize (packets.map Packet.staged) c stash

/-! ## A stream and its segments -/

open Reachability

/-- The bytes of a stream from a place on. -/
def slice (stream : List α) (place len : ℕ) : List α := (stream.drop place).take len

variable {len : ℕ}

open Conn

theorem length_slice {place : ℕ} (hfits : place + len ≤ stream.length) :
    (slice stream place len).length = len := by
  rw [slice, length_take, length_drop]
  omega

theorem drop_slice (stream : List α) (place len skip : ℕ) :
    (slice stream place len).drop skip = slice stream (place + skip) (len - skip) := by
  rw [slice, slice, drop_take, drop_drop]

/-- A segment of the peer: a slice of its stream, the last one perhaps with the FIN. -/
structure Segment where
  place : ℕ
  len : ℕ
  fin : Bool
deriving DecidableEq

structure Segment.Valid (stream : List α) (seg : Segment) : Prop where
  len : seg.len ≤ stageSize
  within : seg.place + seg.len ≤ stream.length
  fin : seg.fin = true → seg.place + seg.len = stream.length

def Segment.packet (stream : List α) (first : ℕ) (seg : Segment) : Packet α :=
  ⟨seq (first + seg.place), slice stream seg.place seg.len, seg.fin, false, seg.place⟩

/-- A connection with the bytes that were returned and the segments that arrived. -/
structure Session (α : Type) where
  conn : Conn α
  stash : List α
  returned : List α
  arrived : List Segment

/-- A call of `tcp_recv`, with the segments that arrive for it. -/
structure Recv where
  bufsize : ℕ
  segments : List Segment

def Session.start (first rcvWnd port : ℕ) : Session α :=
  ⟨⟨.established, seq first, rcvWnd, none, port⟩, [], [], []⟩

def Session.recv [NatCast α] (stream : List α) (first : ℕ) (s : Session α) (call : Recv) :
    Session α :=
  let result := tcpRecv call.bufsize (call.segments.map (Segment.packet stream first)) s.conn s.stash
  { conn := result.conn
    stash := result.stash
    returned := s.returned ++ result.reply.toOption.getD []
    arrived := s.arrived ++ call.segments }

/-- The bytes that were returned or are held for the next calls. -/
def Session.bytes (s : Session α) : List α := s.returned ++ s.stash

/-- A FIN that was accepted counts as one. -/
def Conn.finMark (c : Conn α) : ℕ := if c.state = .closeWait then 1 else 0

/-- How far the stream is acknowledged. -/
def Session.place (s : Session α) : ℕ := s.bytes.length + s.conn.finMark

/-- The segments are slices of the stream, less than half a turn of the sequence numbers
away; a segment that is held is not a whole turn behind; and nothing is made up for the
peer. -/
structure Recv.Fits (stream : List α) (s : Session α) (call : Recv) : Prop where
  valid : ∀ seg ∈ call.segments, seg.Valid stream
  ahead : ∀ seg ∈ call.segments, seg.place < s.place + 2 ^ 31
  behind : ∀ seg ∈ call.segments, s.place < seg.place + 2 ^ 31
  gap : ∀ g, s.conn.gap = some g → s.place + stageSize + 1 < g.place + 2 ^ 32
  peer : s.conn.dstPort ≠ simPort

/-! ## The invariant -/

/-- Every byte of a range is in a segment that arrived. -/
def Covered (arrived : List Segment) (place len : ℕ) : Prop :=
  ∀ i, place ≤ i → i < place + len → ∃ seg ∈ arrived, seg.place ≤ i ∧ i < seg.place + seg.len

/-- What is known of a segment that is held. -/
structure Gap.Holds (stream : List α) (first place : ℕ) (arrived : List Segment) (g : Gap α) :
    Prop where
  seq : g.seq = SeqArith.seq (first + g.place)
  data : ∃ len, len ≤ stageSize ∧ g.place + len ≤ stream.length ∧ g.data = slice stream g.place len ∧
    Covered arrived g.place len
  ahead : g.place < place + 2 ^ 31

/-- The connection has acknowledged the stream up to a place. -/
structure Conn.Sound (stream : List α) (first count : ℕ) (arrived : List Segment) (c : Conn α) :
    Prop where
  within : count ≤ stream.length
  ack : c.ack = seq (first + (count + c.finMark))
  phase : c.state = .established ∨ c.state = .closeWait ∧ count = stream.length
  covered : Covered arrived 0 count
  gap : ∀ g, c.gap = some g → g.Holds stream first (count + c.finMark) arrived

structure Session.Sound (stream : List α) (first : ℕ) (s : Session α) : Prop where
  bytes : s.bytes = stream.take s.bytes.length
  conn : s.conn.Sound stream first s.bytes.length s.arrived

variable {stream : List α} {first count : ℕ} {arrived : List Segment} {c : Conn α} {seg : Segment}
variable {place : ℕ} {arrived' : List Segment}

theorem Covered.mono (h : Covered arrived place len) (hsubset : ∀ seg ∈ arrived, seg ∈ arrived') :
    Covered arrived' place len := by
  intro i hlow hhigh
  obtain ⟨seg, hseg, hin⟩ := h i hlow hhigh
  exact ⟨seg, hsubset seg hseg, hin⟩

theorem Covered.append {len' : ℕ} (h : Covered arrived place len)
    (h' : Covered arrived (place + len) len') : Covered arrived place (len + len') := by
  intro i hlow hhigh
  rcases Nat.lt_or_ge i (place + len) with hleft | hright
  · exact h i hlow hleft
  · exact h' i hright (by omega)

section

variable (h : c.Sound stream first count arrived)
include h

theorem Conn.Sound.mono (hsubset : ∀ seg ∈ arrived, seg ∈ arrived') :
    c.Sound stream first count arrived' where
  __ := h
  covered := h.covered.mono hsubset
  gap g hg := by
    obtain ⟨hseq, ⟨len, hlen, hwithin, hdata, hcovered⟩, hahead⟩ := h.gap g hg
    exact ⟨hseq, ⟨len, hlen, hwithin, hdata, hcovered.mono hsubset⟩, hahead⟩

theorem Conn.Sound.finMark :
    c.state = .established ∧ c.finMark = 0 ∨
      c.state = .closeWait ∧ c.finMark = 1 ∧ count = stream.length := by
  rcases h.phase with hstate | ⟨hstate, hcount⟩
  · left
    rw [Conn.finMark, hstate]
    exact ⟨rfl, rfl⟩
  · right
    rw [Conn.finMark, hstate]
    exact ⟨rfl, rfl, hcount⟩

/-- A place below the end of the stream cannot be the one behind the FIN. -/
theorem Conn.Sound.established (hlt : count + c.finMark ≤ stream.length) :
    c.state = .established ∧ c.finMark = 0 := by
  rcases h.finMark with hopen | ⟨-, hmark, hcount⟩
  · exact hopen
  · omega

end

/-! ## One segment -/

/-- The segment is near what the connection expects. -/
structure Near (place : ℕ) (seg : Segment) : Prop where
  ahead : seg.place < place + 2 ^ 31
  behind : place < seg.place + 2 ^ 31

theorem Near.diff (h : Near (count + c.finMark) seg) (hsound : c.Sound stream first count arrived) :
    diff (seg.packet stream first).seq c.ack = (seg.place : ℤ) - (count + c.finMark : ℕ) := by
  have hahead := h.ahead
  have hbehind := h.behind
  rw [hsound.ack, Segment.packet, diff_seq (by omega) (by omega)]
  omega

theorem Near.place_eq (h : Near (count + c.finMark) seg)
    (hsound : c.Sound stream first count arrived)
    (hseq : (seg.packet stream first).seq = c.ack) : seg.place = count + c.finMark := by
  have hahead := h.ahead
  have hbehind := h.behind
  rw [hsound.ack, Segment.packet] at hseq
  have hplace := eq_of_seq_eq hseq (by omega) (by omega)
  omega

/-- What is accepted of a segment continues the stream. -/
structure Continues (stream : List α) (count : ℕ) (seg : Segment) (payload : List α) (len : ℕ) :
    Prop where
  payload : payload = slice stream count len
  within : count + len ≤ stream.length
  short : len ≤ stageSize
  covered : Covered [seg] count len

variable {payload : List α}

theorem Continues.length (h : Continues stream count seg payload len) : payload.length = len := by
  rw [h.payload, length_slice h.within]

theorem covered_self (hlow : seg.place ≤ place) (hhigh : place + len ≤ seg.place + seg.len) :
    Covered [seg] place len := by
  intro i hi hi'
  exact ⟨seg, mem_singleton_self seg, by omega, by omega⟩

theorem packet_length (hvalid : seg.Valid stream) :
    (seg.packet stream first).data.length = seg.len :=
  length_slice hvalid.within

theorem packet_staged (hvalid : seg.Valid stream) :
    (seg.packet stream first).staged = seg.packet stream first := by
  rw [Packet.staged, take_of_length_le]
  rw [packet_length hvalid]
  exact hvalid.len

/-- A held segment is less than a turn behind, whatever is accepted next. -/
def Conn.Fresh (place : ℕ) (c : Conn α) : Prop :=
  ∀ g, c.gap = some g → place + stageSize + 1 < g.place + 2 ^ 32

/-- What the caller gets and what stays behind make up what was received. -/
theorem deliver_foldIn {due : List α} (bufsize : ℕ) (hpayload : payload.length ≤ stageSize)
    (hdue : due.length ≤ oooCap) :
    (deliver bufsize payload []).1 ++ foldIn (deliver bufsize payload []).2 due =
      payload ++ due := by
  have hrest : (deliver bufsize payload []).2 = payload.drop bufsize := by
    rw [deliver]
    split_ifs with hlong
    · apply take_of_length_le
      rw [length_drop]
      exact Nat.le_trans (Nat.sub_le _ _) (Nat.le_trans hpayload (by decide))
    · exact (drop_eq_nil_of_le (Nat.le_of_not_lt hlong)).symm
  have hfits : (payload.drop bufsize).length + due.length ≤ stashSize := by
    rw [length_drop, stashSize]
    omega
  rw [hrest, foldIn, if_pos hfits, deliver, ← append_assoc, take_append_drop]

/-- A result continues the stream from a place on. -/
def Result.Continues (stream : List α) (first count : ℕ) (arrived : List Segment)
    (result : Result α) : Prop :=
  ∃ out len, result.reply = .ok out ∧ out ++ result.stash = slice stream count len ∧
    result.conn.Sound stream first (count + len) arrived

theorem slice_append (stream : List α) (place len len' : ℕ) :
    slice stream place len ++ slice stream (place + len) len' = slice stream place (len + len') := by
  rw [slice, slice, slice, ← drop_drop]
  exact List.take_add.symm

section

variable (h : c.Sound stream first count arrived)
include h

/-- A segment that does not pass is accepted, on a connection without FIN. -/
theorem Conn.Sound.accepts (hvalid : seg.Valid stream) (hnear : Near (count + c.finMark) seg)
    (hpayload : c.sequenced (seg.packet stream first) = some payload)
    (hpass : ¬ c.passes (seg.packet stream first) payload) :
    ∃ len, Continues stream count seg payload len ∧ (c.state = .established ∧ c.finMark = 0) ∧
      (seg.fin = true → count + len = stream.length) := by
  have hwithin := hvalid.within
  have hlength := @packet_length α stream first seg hvalid
  -- What follows the bytes that were received before is the stream from `count` on.
  have hrest : ∀ skip, seg.place + skip = count + c.finMark → skip ≤ seg.len →
      (seg.packet stream first).data.drop skip = payload →
      ∃ len, Continues stream count seg payload len ∧ (c.state = .established ∧ c.finMark = 0) ∧
        (seg.fin = true → count + len = stream.length) := by
    intro skip hplace hskip hdrop
    obtain ⟨hstate, hmark⟩ := h.established (by omega)
    rw [hmark, Nat.add_zero] at hplace
    refine ⟨seg.len - skip, ⟨?_, by omega, (Nat.sub_le _ _).trans hvalid.len,
      covered_self (by omega) (by omega)⟩, ⟨hstate, hmark⟩, fun hfin => ?_⟩
    · rw [← hdrop, Segment.packet, drop_slice, hplace]
    · have hend := hvalid.fin hfin
      omega
  rw [sequenced, classify, hlength] at hpayload
  by_cases hlen : seg.len = 0
  · simp only [if_pos hlen, Option.some_inj] at hpayload
    have hempty : payload = [] := by
      rw [← hpayload, ← length_eq_zero_iff, hlength, hlen]
    rw [passes, not_and, Classical.not_imp, not_not] at hpass
    exact hrest 0 (hnear.place_eq h (hpass hempty).2) (Nat.zero_le _) hpayload
  by_cases hseq : (seg.packet stream first).seq = c.ack
  · simp only [if_neg hlen, if_pos hseq, Option.some_inj] at hpayload
    exact hrest 0 (hnear.place_eq h hseq) (Nat.zero_le _) hpayload
  simp only [if_neg hlen, if_neg hseq] at hpayload
  split_ifs at hpayload with hahead hwnd hdup
  have hbehind := hnear.behind
  rw [hnear.diff h] at hahead hdup
  have hskip : dupPrefix c.ack (seg.packet stream first).seq = count + c.finMark - seg.place := by
    rw [dupPrefix, h.ack, Segment.packet, minus_seq (by omega) (by omega)]
    omega
  exact hrest _ (by omega) (by omega) (hskip ▸ Option.some_inj.mp hpayload)

/-- A segment that is not accepted is dropped, or held ahead of its turn. -/
theorem Conn.Sound.refuse (hvalid : seg.Valid stream)
    (hnear : Near (count + c.finMark) seg) (hseg : seg ∈ arrived)
    (hfresh : c.Fresh (count + c.finMark)) :
    (c.refuse (seg.packet stream first)).Sound stream first count arrived ∧
      (c.refuse (seg.packet stream first)).finMark = c.finMark ∧
      (c.refuse (seg.packet stream first)).Fresh (count + c.finMark) := by
  rw [Conn.refuse]
  split_ifs with hclass
  · rw [hold]
    split_ifs with hhold
    · have hahead : 0 ≤ diff (seg.packet stream first).seq c.ack := by
        by_contra hbehind
        rw [classify] at hclass
        split_ifs at hclass
      have hfar := hnear.ahead
      rw [hnear.diff h] at hahead
      refine ⟨{ h with gap := ?_ }, rfl, ?_⟩
      · intro g hg
        cases hg
        refine ⟨rfl, ⟨seg.len, hvalid.len, hvalid.within, rfl, ?_⟩, hfar⟩
        exact (covered_self le_rfl le_rfl).mono fun other hother =>
          List.mem_singleton.mp hother ▸ hseg
      · intro g hg
        cases hg
        change count + c.finMark + stageSize + 1 < seg.place + 2 ^ 32
        rw [stageSize]
        omega
    · exact ⟨h, rfl, hfresh⟩
  · exact ⟨h, rfl, hfresh⟩

omit h in
theorem refuse_dstPort (c : Conn α) (p : Packet α) : (c.refuse p).dstPort = c.dstPort := by
  rw [Conn.refuse, hold]
  split_ifs <;> rfl

/-- The held segment is folded in exactly when its turn has come. -/
theorem Conn.Sound.drain (hfresh : ∀ g, c.gap = some g → count + c.finMark < g.place + 2 ^ 32) :
    ∃ len, c.due = slice stream count len ∧ len ≤ stageSize ∧
      c.drain.Sound stream first (count + len) arrived := by
  have hnone : [] = slice stream count 0 := by rw [slice, take_zero]
  rw [Conn.due, Conn.drain]
  cases hgap : c.gap with
  | none => exact ⟨0, hnone, Nat.zero_le _, h⟩
  | some g =>
    simp only
    split_ifs with hturn
    · obtain ⟨hseq, ⟨len, hlen, hwithin, hdata, hcovered⟩, hahead⟩ := h.gap g hgap
      have hplace : g.place = count + c.finMark := by
        have hbehind := hfresh g hgap
        rw [hseq, h.ack] at hturn
        have hsame := eq_of_seq_eq hturn (by omega) (by omega)
        omega
      obtain ⟨hstate, hmark⟩ := h.established (by omega)
      rw [hmark, Nat.add_zero] at hplace
      rw [hplace] at hwithin hdata hcovered
      refine ⟨len, hdata, hlen, hwithin, ?_, .inl hstate, ?_, nofun⟩
      · have hmark' : ({ c with ack := seq (c.ack + g.data.length), gap := none } :
            Conn α).finMark = 0 := hmark
        rw [hmark', h.ack, hmark, hdata, length_slice hwithin, seq_add]
        exact congrArg seq (Nat.add_assoc first count len)
      · exact h.covered.append (by rw [Nat.zero_add]; exact hcovered)
    · exact ⟨0, hnone, Nat.zero_le _, h⟩

theorem Conn.Sound.accept {len : ℕ}
    (hcontinues : Continues stream count seg payload len) (hseg : seg ∈ arrived)
    (hopen : c.state = .established ∧ c.finMark = 0)
    (hfin : seg.fin = true → count + len = stream.length)
    (hfresh : c.Fresh (count + c.finMark)) (bufsize : ℕ) :
    (accept bufsize payload seg.fin c []).Continues stream first count arrived := by
  obtain ⟨hstate, hmark⟩ := hopen
  have hlength := hcontinues.length
  have hshort := hcontinues.short
  have hfinMark : ∀ taken : Conn α, taken.state = (if seg.fin then c.state.onFin else c.state) →
      taken.finMark = seg.fin.toNat := by
    intro taken htaken
    rw [Conn.finMark, htaken, hstate]
    cases seg.fin <;> rfl
  have htaken : ({ c with
      ack := seq (c.ack + (payload.length + seg.fin.toNat))
      state := if seg.fin then c.state.onFin else c.state } : Conn α).Sound stream first
        (count + len) arrived := by
    refine ⟨hcontinues.within, ?_, ?_, ?_, ?_⟩
    · rw [hfinMark _ rfl, h.ack, hmark, seq_add, hlength]
      exact congrArg seq (by omega)
    · change (if seg.fin then c.state.onFin else c.state) = _ ∨
        (if seg.fin then c.state.onFin else c.state) = _ ∧ _
      rw [hstate]
      cases hcase : seg.fin with
      | true => exact .inr ⟨rfl, hfin hcase⟩
      | false => exact .inl rfl
    · refine h.covered.append ?_
      rw [Nat.zero_add]
      exact hcontinues.covered.mono fun other hother => List.mem_singleton.mp hother ▸ hseg
    · intro g hg
      obtain ⟨hseq, hdata, hahead⟩ := h.gap g hg
      refine ⟨hseq, hdata, ?_⟩
      rw [hfinMark _ rfl]
      rw [hmark] at hahead
      omega
  obtain ⟨len', hdue, hshort', hdrained⟩ := htaken.drain (by
    intro g hg
    have hbefore := hfresh g hg
    have hbit : seg.fin.toNat ≤ 1 := Bool.toNat_le seg.fin
    rw [hfinMark _ rfl]
    rw [hmark, stageSize] at hbefore
    rw [stageSize] at hshort
    omega)
  refine ⟨_, len + len', rfl, ?_, ?_⟩
  · have hduelen : (slice stream (count + len) len').length ≤ oooCap :=
      Nat.le_trans (length_take_le _ _) (Nat.le_trans hshort' (by decide))
    change (deliver bufsize payload []).1 ++ foldIn (deliver bufsize payload []).2 (due _) = _
    rw [hdue, deliver_foldIn bufsize (hlength ▸ hshort) hduelen, hcontinues.payload, slice_append]
  · rw [← Nat.add_assoc]
    exact hdrained

theorem receiveLoop_continues [NatCast α] (bufsize : ℕ) (segments : List Segment)
    (hpeer : c.dstPort ≠ simPort)
    (hvalid : ∀ seg ∈ segments, seg.Valid stream) (hseg : ∀ seg ∈ segments, seg ∈ arrived)
    (hnear : ∀ seg ∈ segments, Near (count + c.finMark) seg)
    (hfresh : c.Fresh (count + c.finMark)) :
    (receiveLoop bufsize (segments.map (Segment.packet stream first)) c []).Continues stream first
      count arrived := by
  induction segments generalizing c with
  | nil =>
    rw [map_nil, receiveLoop, if_neg hpeer]
    exact ⟨[], 0, rfl, by rw [slice, take_zero]; rfl, h⟩
  | cons seg rest ih =>
    obtain ⟨hvalid, hvalid'⟩ := forall_mem_cons.mp hvalid
    obtain ⟨hseg, hseg'⟩ := forall_mem_cons.mp hseg
    obtain ⟨hnear, hnear'⟩ := forall_mem_cons.mp hnear
    rw [map_cons, receiveLoop, if_neg (by exact Bool.false_ne_true)]
    cases hpayload : c.sequenced (seg.packet stream first) with
    | none =>
      obtain ⟨hsound, hmark, hfresh'⟩ := h.refuse hvalid hnear hseg hfresh
      apply ih hsound _ hvalid' hseg'
      · rw [hmark]
        exact hnear'
      · rw [hmark]
        exact hfresh'
      · rw [refuse_dstPort]
        exact hpeer
    | some payload =>
      simp only
      split_ifs with hpass
      · exact ih h hpeer hvalid' hseg' hnear' hfresh
      · obtain ⟨len, hcontinues, hopen, hfin⟩ := h.accepts hvalid hnear hpayload hpass
        exact h.accept hcontinues hseg hopen hfin hfresh bufsize

end

/-! ## Runs -/

theorem Session.Sound.start (stream : List α) (first rcvWnd port : ℕ) :
    (Session.start first rcvWnd port).Sound stream first where
  bytes := rfl
  conn := ⟨Nat.zero_le _, rfl, .inl rfl, fun i _ hi => absurd hi (Nat.not_lt_zero i),
    nofun⟩

theorem Conn.Sound.canRecv (h : c.Sound stream first count arrived) : c.state.canRecv = true := by
  rcases h.phase with hstate | ⟨hstate, -⟩
  · rw [hstate]
    rfl
  · rw [hstate]
    rfl

theorem Session.Sound.recv [NatCast α] {s : Session α} (h : s.Sound stream first) (call : Recv)
    (hfits : call.Fits stream s) : (s.recv stream first call).Sound stream first := by
  have hconn : s.conn.Sound stream first s.bytes.length (s.arrived ++ call.segments) :=
    h.conn.mono fun seg hseg => mem_append_left _ hseg
  have hready : ¬ s.conn.state.canRecv = false := by
    rw [h.conn.canRecv]
    exact nofun
  by_cases hstash : s.stash = []
  · have hbytes : s.bytes = s.returned := by rw [Session.bytes, hstash, append_nil]
    obtain ⟨out, len, hreply, hout, hsound⟩ := receiveLoop_continues hconn call.bufsize
      call.segments hfits.peer hfits.valid (fun seg hseg => mem_append_right _ hseg)
      (fun seg hseg => ⟨hfits.ahead seg hseg, hfits.behind seg hseg⟩) hfits.gap
    have hstaged : (call.segments.map (Segment.packet stream first)).map Packet.staged =
        call.segments.map (Segment.packet stream first) := by
      rw [map_map]
      apply map_congr_left
      intro seg hseg
      exact packet_staged (hfits.valid seg hseg)
    have hresult : tcpRecv call.bufsize (call.segments.map (Segment.packet stream first)) s.conn
        s.stash = receiveLoop call.bufsize (call.segments.map (Segment.packet stream first))
          s.conn [] := by
      rw [tcpRecv, if_neg hready, if_neg (not_not.mpr hstash), hstash, hstaged]
    have hlonger : (s.recv stream first call).bytes = s.bytes ++ slice stream s.bytes.length len := by
      rw [Session.bytes, Session.recv, hresult, hreply, ← hout, hbytes, append_assoc]
      rfl
    have hwhole : s.bytes ++ slice stream s.bytes.length len =
        stream.take (s.bytes.length + len) := by
      rw [List.take_add, ← h.bytes]
      rfl
    have hcount : (s.bytes ++ slice stream s.bytes.length len).length = s.bytes.length + len := by
      rw [hwhole, length_take_of_le hsound.within]
    refine ⟨?_, ?_⟩
    · rw [hlonger, hcount, hwhole]
    · rw [hlonger, hcount, Session.recv, hresult]
      exact hsound
  · have hresult : tcpRecv call.bufsize (call.segments.map (Segment.packet stream first)) s.conn
        s.stash = ⟨.ok (s.stash.take call.bufsize), s.conn, s.stash.drop call.bufsize, []⟩ := by
      rw [tcpRecv, if_neg hready, if_pos hstash]
    have hsame : (s.recv stream first call).bytes = s.bytes := by
      rw [Session.bytes, Session.recv, hresult, Session.bytes, append_assoc]
      exact congrArg (s.returned ++ ·) (take_append_drop call.bufsize s.stash)
    refine ⟨?_, ?_⟩
    · rw [hsame]
      exact h.bytes
    · rw [hsame, Session.recv, hresult]
      exact hconn

/-- The bytes that are returned are a prefix of the stream; what is acknowledged is what
was returned, what is held, and the FIN; and all of it has arrived. -/
theorem received_in_sequence [NatCast α] (stream : List α) (first rcvWnd port : ℕ)
    (s : Session α)
    (hrun : Reaches (guarded (fun s call => Recv.Fits stream s call)
      fun before call after => before.recv stream first call = after)
      (Session.start first rcvWnd port) s) :
    s.returned <+: stream ∧ s.returned ++ s.stash <+: stream ∧
    s.conn.ack = seq (first + (s.returned.length + s.stash.length + s.conn.finMark)) ∧
    (s.conn.finMark = 1 → s.returned ++ s.stash = stream) ∧
    ∀ i < s.returned.length + s.stash.length,
      ∃ seg ∈ s.arrived, seg.place ≤ i ∧ i < seg.place + seg.len := by
  have hsound : s.Sound stream first :=
    hrun.kept (.start stream first rcvWnd port) fun hbefore hfits => hbefore.recv _ hfits
  have hinit : s.returned ++ s.stash <+: stream := by
    have hbytes := hsound.bytes
    rw [Session.bytes] at hbytes
    rw [hbytes]
    exact take_prefix _ stream
  have hlength : s.bytes.length = s.returned.length + s.stash.length := length_append
  refine ⟨(prefix_append _ _).trans hinit, hinit, ?_, ?_, ?_⟩
  · rw [hsound.conn.ack, hlength]
  · intro hmark
    rcases hsound.conn.finMark with ⟨-, hzero⟩ | ⟨-, -, hcount⟩
    · rw [hzero] at hmark
      cases hmark
    · exact hinit.eq_of_length hcount
  · intro i hi
    exact hsound.conn.covered i (Nat.zero_le i) (by rw [Nat.zero_add, hlength]; exact hi)

instance (seg : Segment) : Decidable (seg.Valid stream) :=
  decidable_of_iff (seg.len ≤ stageSize ∧ seg.place + seg.len ≤ stream.length ∧
      (seg.fin = true → seg.place + seg.len = stream.length))
    ⟨fun h => ⟨h.1, h.2.1, h.2.2⟩, fun h => ⟨h.len, h.within, h.fin⟩⟩

instance (s : Session α) (call : Recv) : Decidable (call.Fits stream s) :=
  decidable_of_iff ((∀ seg ∈ call.segments, seg.Valid stream) ∧
      (∀ seg ∈ call.segments, seg.place < s.place + 2 ^ 31) ∧
      (∀ seg ∈ call.segments, s.place < seg.place + 2 ^ 31) ∧
      (∀ g ∈ s.conn.gap, s.place + stageSize + 1 < g.place + 2 ^ 32) ∧
      s.conn.dstPort ≠ simPort)
    ⟨fun h => ⟨h.1, h.2.1, h.2.2.1, h.2.2.2.1, h.2.2.2.2⟩,
      fun h => ⟨h.valid, h.ahead, h.behind, h.gap, h.peer⟩⟩

/-- A segment ahead of its turn, the one before it, and one that overlaps and ends the
stream; the sequence numbers wrap. -/
def shuffled : List Recv :=
  [⟨1, [⟨2, 2, false⟩, ⟨0, 2, false⟩]⟩, ⟨10, []⟩, ⟨10, [⟨0, 2, false⟩, ⟨3, 2, true⟩]⟩]

def afterShuffle : Session ℕ :=
  shuffled.foldl (Session.recv [1, 2, 3, 4, 5] (2 ^ 32 - 2))
    (Session.start (2 ^ 32 - 2) 64240 80)

theorem received_in_sequence_shuffled :
    afterShuffle.returned = [1, 2, 3, 4, 5] ∧ afterShuffle.conn.ack = 4 ∧
      afterShuffle.returned <+: [1, 2, 3, 4, 5] ∧
      afterShuffle.conn.ack = seq (2 ^ 32 - 2 + (afterShuffle.returned.length +
        afterShuffle.stash.length + afterShuffle.conn.finMark)) := by
  obtain ⟨hinit, -, hack, -⟩ := received_in_sequence [1, 2, 3, 4, 5] (2 ^ 32 - 2) 64240 80
    afterShuffle (reaches_foldl (by decide +kernel))
  exact ⟨by decide +kernel, by decide +kernel, hinit, hack⟩

/-- One byte with the FIN. -/
def afterFin : Session ℕ := Session.recv [7] 0 (Session.start 0 64240 80) ⟨1, [⟨0, 1, true⟩]⟩

/-- A held segment, and a longer one that overtakes it. -/
def overtaken : Session ℕ :=
  Session.recv [0, 1, 2] 0 (Session.start 0 64240 80) ⟨3, [⟨1, 1, false⟩, ⟨0, 3, false⟩]⟩

/-- The same held segment, `2 ^ 32` bytes later. -/
def comeRound : Result ℕ :=
  tcpRecv 1 [⟨0, [5], false, false, 2 ^ 32⟩] { overtaken.conn with ack := 0 } []

/-- A call to which nothing comes, from a peer at `simPort`. -/
def madeUp : Session ℕ := Session.recv [0, 1, 2] 0 (Session.start 0 64240 simPort) ⟨3, []⟩

/-- A FIN is acknowledged with the byte before it, so that two are acknowledged and one
is returned.  A held segment stays when it is overtaken; and when the sequence numbers
come round to it, its bytes are delivered in the place of others.  For a peer at `simPort`
bytes are returned and acknowledged that nobody sent. -/
theorem acknowledged_beyond_bytes :
    afterFin.conn.ack = 2 ∧ afterFin.returned.length + afterFin.stash.length = 1 ∧
    overtaken.conn.ack = 3 ∧ overtaken.conn.gap = some ⟨1, [1], 1⟩ ∧
    comeRound.reply.toOption = some [5] ∧ comeRound.stash = [1] ∧ comeRound.conn.ack = 2 ∧
    madeUp.arrived = [] ∧ madeUp.returned = [71, 69, 84] ∧ madeUp.conn.ack = 40 := by
  decide +kernel

end AuraLite.Tcp

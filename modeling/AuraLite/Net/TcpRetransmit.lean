import AuraLite.Net.TcpSend
import AuraLite.Lib.ByteMemory

/-!
# Retransmission

What a TCP connection keeps of the bytes that were not acknowledged, and what it puts on the
wire when it retransmits.  The bytes are in one buffer, that of the segment sent last; the
queue of segments that selective acknowledgements mark has no bytes.
-/

namespace AuraLite.TcpRetx

open List ByteMemory SeqArith Reachability Tcp Bool

/-! ## The queue -/

/-- `tcpm6c_seg_t`. -/
structure Seg where
  seq : ℕ
  len : ℕ
  sacked : Bool
deriving DecidableEq

/-- `TCPM6C_RETXQ_DEPTH`. -/
def depth : ℕ := 8

/-- `tcpm6c_retxq_push`; a full queue stays as it is. -/
def push (queue : List Seg) (seg : Seg) : List Seg :=
  if depth ≤ queue.length then queue else queue ++ [seg]

/-- `tcpm6c_retxq_ack`. -/
def retire (queue : List Seg) (ack : ℕ) : List Seg :=
  queue.dropWhile fun seg => decide (0 ≤ diff ack (SeqArith.seq (seg.seq + seg.len)))

def covers (block : ℕ × ℕ) (seg : Seg) : Bool :=
  decide (0 ≤ diff seg.seq block.1) &&
    decide (0 ≤ diff block.2 (SeqArith.seq (seg.seq + seg.len)))

/-- `tcpm6d_mark`. -/
def mark (queue : List Seg) (blocks : List (ℕ × ℕ)) : List Seg :=
  queue.map fun seg => { seg with sacked := seg.sacked || blocks.any (covers · seg) }

/-- `tcpm6d_next_hole`. -/
def nextHole (queue : List Seg) : Option Seg := queue.find? fun seg => !seg.sacked

/-! ## The connection -/

def tcpMss : ℕ := 1460

/-- What is put on the wire. -/
structure Segment where
  seq : ℕ
  bytes : List Byte
deriving DecidableEq

/-- The sending side with its buffer.  `accepted` and `acked` are for the statements: the bytes
taken so far, and how many of them were acknowledged. -/
structure Conn where
  sender : Sender
  data : List Byte
  queue : List Seg
  sackOk : Bool
  isn : ℕ
  accepted : List Byte
  acked : ℕ

/-- `tcp_send_retx_segment`, with `tcp_record_retx`. -/
def Conn.transmit (c : Conn) (bytes : List Byte) : Conn × Option Segment :=
  ({ c with
      sender := c.sender.transmit bytes.length
      data := bytes
      queue := push c.queue ⟨c.sender.seq, bytes.length, false⟩
      accepted := c.accepted ++ bytes },
    some ⟨c.sender.seq, bytes⟩)

/-- `tcp_retransmit_last`. -/
def Conn.retransmitLast (c : Conn) : Conn × Option Segment :=
  if c.sender.retx.valid then
    let len := min c.sender.retx.len c.sender.effMss
    ({ c with
        sender := c.sender.retransmitLast
        data := if len < c.sender.retx.len then c.data.drop len else c.data },
      some ⟨c.sender.retx.seq, c.data.take len⟩)
  else (c, none)

/-- The progress that an acknowledgement makes. -/
def Conn.progress (c : Conn) (ack : ℕ) (dup : DupAck) (kind : AckKind) : Conn :=
  { c with
    sender := c.sender.onKind ack dup kind
    queue := if c.sender.una < ack then retire c.queue ack else c.queue
    acked := if c.sender.una < ack then c.acked + minus ack c.sender.una else c.acked }

/-- Congestion control takes new values. -/
def Conn.control (c : Conn) (dup : DupAck) (ssthresh cwnd : ℕ) : Conn :=
  { c with sender := { c.sender with dup := dup, ssthresh := ssthresh, cwnd := cwnd } }

/-- Three duplicates. -/
def Conn.enterRecovery (c : Conn) (dup : DupAck) : Conn :=
  c.control dup (recoverySsthresh (minus c.sender.nxt c.sender.una) c.sender.effMss)
    (recoveryCwnd (recoverySsthresh (minus c.sender.nxt c.sender.una) c.sender.effMss)
      c.sender.effMss dup.dupCount)

/-- What is done about an acknowledgement, by its kind; the hole that the queue shows is only
reported. -/
def Conn.onKind (c : Conn) (ack : ℕ) (dup : DupAck) : AckKind → Conn × Option Segment
  | .fastRetx => (c.enterRecovery dup).retransmitLast
  | .inRecovery => ({ c with sender := c.sender.onKind ack dup .inRecovery }, none)
  | kind => (c.progress ack dup kind, none)

/-- The sender as it classifies an acknowledgement. -/
def Conn.classify (c : Conn) (ack window : ℕ) (hasData : Bool) : AckKind × DupAck :=
  let s := c.sender.setWindow window
  onAck s.dup s.una ack s.nxt hasData (decide (window ≠ s.wnd))

/-- A segment that comes in while the window is full. -/
def Conn.receive (c : Conn) (ack window : ℕ) (hasData rst : Bool) (blocks : List (ℕ × ℕ)) :
    Conn × Option Segment :=
  if rst then ({ c with sender := c.sender.receive ack window hasData true }, none)
  else
    Conn.onKind { c with sender := c.sender.setWindow window, queue := mark c.queue blocks } ack
      (c.classify ack window hasData).2 (c.classify ack window hasData).1

def Conn.expire (c : Conn) : Conn × Option Segment :=
  if maxTimeouts < c.sender.consecTmo + 1 then ({ c with sender := c.sender.expire }, none)
  else Conn.retransmitLast { c with sender := c.sender.backOff }

/-- A turn of the loop: the bytes to go, what would end a wait, and its selective
acknowledgements. -/
structure Turn where
  rest : List Byte
  event : Event
  blocks : List (ℕ × ℕ)

/-- One turn of the loop of `tcp_send`, which ends when nothing is left. -/
def Conn.turn (c : Conn) (t : Turn) : Conn × Option Segment :=
  if t.rest = [] ∨ c.sender.established = false then (c, none)
  else if c.sender.chunk t.rest.length ≠ 0 then
    c.transmit (t.rest.take (c.sender.chunk t.rest.length))
  else
    match t.event with
    | .segment ack window hasData rst => c.receive ack window hasData rst t.blocks
    | .timeout => c.expire

/-- `tcp_send` up to the next turn of its loop.  For a peer at `simPort` there is no loop: all
bytes count as sent. -/
def Conn.send (port : ℕ) (c : Conn) (t : Turn) : Conn × Option Segment :=
  if port = simPort ∧ c.sender.established = true then
    ({ c with
        sender := { c.sender with seq := SeqArith.seq (c.sender.seq + t.rest.length) }
        accepted := c.accepted ++ t.rest }, none)
  else c.turn t

def Conn.start (isn wnd : ℕ) (sackOk : Bool) : Conn where
  sender := Sender.start isn wnd
  data := []
  queue := []
  sackOk := sackOk
  isn := isn
  accepted := []
  acked := 0

/-! ## The sender below -/

variable {c c' : Conn} {t : Turn}

theorem chunk_le (s : Sender) (want : ℕ) : s.chunk want ≤ want ∧ s.chunk want ≤ s.effMss := by
  rw [Sender.chunk, sendChunk]
  split_ifs
  all_goals omega

/-! ## What is held -/

/-- The byte that the buffer has for a sequence number. -/
def Conn.held (c : Conn) (n : ℕ) : Option Byte :=
  if c.sender.retx.valid = true ∧ minus n c.sender.retx.seq < c.sender.retx.len then
    c.data[minus n c.sender.retx.seq]?
  else none

/-- The loop waits in this turn. -/
def Conn.waits (c : Conn) (t : Turn) : Bool := !t.rest.isEmpty && c.sender.waits t.rest.length

theorem turn_of_waits (hwaits : c.waits t = true) : c.turn t =
      match t.event with
      | .segment ack window hasData rst => c.receive ack window hasData rst t.blocks
      | .timeout => c.expire := by
  rw [Conn.waits, and_eq_true, Sender.waits, and_eq_true, not_eq_true', decide_eq_true_eq] at hwaits
  obtain ⟨hrest, hopen, hchunk⟩ := hwaits
  rw [Conn.turn, if_neg, if_neg (not_not.mpr hchunk)]
  rintro (hnil | hclosed)
  · rw [hnil] at hrest
    cases hrest
  · cases hopen.symm.trans hclosed

/-- A timeout or the third duplicate triggers a retransmission. -/
def Conn.triggers (c : Conn) (t : Turn) : Bool :=
  c.waits t &&
    match t.event with
    | .timeout => decide (c.sender.consecTmo < maxTimeouts)
    | .segment ack window hasData rst =>
      !rst && decide ((c.classify ack window hasData).1 = .fastRetx)

/-- The size of segments with which a turn would retransmit. -/
def Conn.retxMss (c : Conn) (t : Turn) : ℕ :=
  match t.event with
  | .timeout => mssLadder (c.sender.consecTmo + 1)
  | .segment _ _ _ _ => c.sender.effMss

/-- One segment at a time: a new one is sent when nothing is in flight, an acknowledgement covers
all of it or nothing, it is retransmitted as a whole, and the call does not fail. -/
structure Conn.Fits (c : Conn) (t : Turn) : Prop where
  alone : c.waits t = false → t.rest ≠ [] → c.sender.una = c.sender.nxt
  acks : ∀ ack, t.rest ≠ [] → c.sender.takes t.rest.length t.event = some ack →
    ack ≤ c.sender.una ∨ ack = c.sender.nxt
  goes : t.rest ≠ [] → c.sender.fails t.rest.length t.event = false
  whole : c.triggers t = true → c.sender.retx.len ≤ c.retxMss t

/-- The buffer has what was sent and not acknowledged. -/
structure Conn.Sound (c : Conn) : Prop where
  established : c.sender.established = true
  una : c.sender.una = SeqArith.seq (c.isn + c.acked)
  nxt : c.sender.nxt = SeqArith.seq (c.isn + c.accepted.length)
  seq : c.sender.seq = c.sender.nxt
  mss : 0 < c.sender.effMss ∧ c.sender.effMss ≤ tcpMss
  bound : c.acked ≤ c.accepted.length
  flight : c.accepted.length ≤ c.acked + tcpMss
  record : c.acked < c.accepted.length →
    c.sender.retx = ⟨true, c.sender.una, c.accepted.length - c.acked⟩ ∧
      c.data = c.accepted.drop c.acked

open Conn

theorem mssLadder_bounds (timeouts : ℕ) : 0 < mssLadder timeouts ∧ mssLadder timeouts ≤ tcpMss := by
  rw [mssLadder]
  generalize (if timeouts < 3 then 0 else (timeouts - 1) / 2) = step
  match step with
  | 0 => decide
  | 1 => decide
  | 2 => decide
  | 3 => decide
  | _ + 4 => exact (by decide : 0 < 536 ∧ 536 ≤ tcpMss)

/-- A segment that is retransmitted as a whole stays in the buffer. -/
theorem retransmitLast_whole (hwhole : c.sender.retx.len ≤ c.sender.effMss) :
    c.retransmitLast.1 = c := by
  rw [retransmitLast]
  by_cases hvalid : c.sender.retx.valid = true
  · have hsender : c.sender.retransmitLast = c.sender := by
      rw [Sender.retransmitLast, if_neg fun hlong => Nat.not_le_of_lt hlong.2 hwhole]
    rw [if_pos hvalid, Nat.min_eq_left hwhole, hsender]
    dsimp only
    rw [if_neg (Nat.lt_irrefl _)]
  · rw [if_neg hvalid]

theorem control_whole (hwhole : c.sender.retx.len ≤ c.sender.effMss) (dup : DupAck)
    (ssthresh cwnd : ℕ) : (c.control dup ssthresh cwnd).sender.retx.len ≤
      (c.control dup ssthresh cwnd).sender.effMss :=
  hwhole

section

variable (h : c.Sound)
include h

theorem Conn.Sound.in_flight :
    minus c.sender.nxt c.sender.una = c.accepted.length - c.acked := by
  have hbound := h.bound
  have hflight := h.flight
  rw [tcpMss] at hflight
  rw [h.nxt, h.una, minus_seq (by omega) (by omega)]
  omega

theorem Conn.Sound.idle_iff :
    c.sender.una = c.sender.nxt ↔ c.acked = c.accepted.length := by
  have hbound := h.bound
  have hflight := h.flight
  rw [tcpMss] at hflight
  constructor
  · intro hsame
    rw [h.una, h.nxt] at hsame
    have hplace := eq_of_seq_eq hsame (by omega) (by omega)
    omega
  · intro hsame
    rw [h.una, h.nxt, hsame]

theorem Conn.Sound.pending (hflight : c.sender.una ≠ c.sender.nxt) :
    c.acked < c.accepted.length :=
  Nat.lt_of_le_of_ne h.bound fun hsame => hflight (h.idle_iff.mpr hsame)

theorem Conn.Sound.adjust (dup : DupAck) (wnd cwnd ssthresh consecTmo : ℕ)
    {effMss : ℕ} (hmss : 0 < effMss ∧ effMss ≤ tcpMss) (queue : List Seg) :
    ({ c with
      sender := { c.sender with
        dup := dup, wnd := wnd, cwnd := cwnd, ssthresh := ssthresh, consecTmo := consecTmo,
        effMss := effMss }
      queue := queue } : Conn).Sound :=
  { h with mss := hmss }

theorem transmit_sound (hidle : c.sender.una = c.sender.nxt) {bytes : List Byte}
    (hlength : bytes.length ≤ c.sender.effMss) :
    (c.transmit bytes).1.Sound := by
  have hacked := h.idle_iff.mp hidle
  have hmss := h.mss
  refine ⟨h.established, h.una, ?_, rfl, h.mss, ?_, ?_, fun _ => ⟨?_, ?_⟩⟩
  · change seq (c.sender.seq + bytes.length) =
      seq (c.isn + (c.accepted ++ bytes).length)
    rw [h.seq, h.nxt, seq_add, length_append, Nat.add_assoc]
  · change c.acked ≤ (c.accepted ++ bytes).length
    rw [length_append]
    omega
  · change (c.accepted ++ bytes).length ≤ c.acked + tcpMss
    rw [length_append]
    omega
  · change (⟨true, c.sender.seq, bytes.length⟩ : Retx) =
      ⟨true, c.sender.una, (c.accepted ++ bytes).length - c.acked⟩
    rw [h.seq, hidle, length_append, hacked, Nat.add_sub_cancel_left]
  · change bytes = (c.accepted ++ bytes).drop c.acked
    rw [hacked, drop_left]

theorem slide_sound (hwindow : c.sender.una < c.sender.nxt) (wasRecovery : Bool)
    (dup : DupAck) (queue : List Seg) :
    ({ c with
      sender := Sender.slide { c.sender with dup := dup } c.sender.nxt wasRecovery
      queue := queue
      acked := c.acked + minus c.sender.nxt c.sender.una } : Conn).Sound := by
  have hless := h.pending (Nat.ne_of_lt hwindow)
  have hall : c.acked + minus c.sender.nxt c.sender.una = c.accepted.length := by
    rw [h.in_flight]
    omega
  refine ⟨h.established, ?_, h.nxt, h.seq, mssLadder_bounds 0, Nat.le_of_eq hall, ?_,
    fun hmore => ?_⟩
  · change c.sender.nxt = seq (c.isn + (c.acked + minus c.sender.nxt c.sender.una))
    rw [hall, h.nxt]
  · change c.accepted.length ≤ c.acked + minus c.sender.nxt c.sender.una + tcpMss
    omega
  · change c.acked + minus c.sender.nxt c.sender.una < c.accepted.length at hmore
    omega

theorem progress_sound {ack : ℕ}
    (hack : ack ≤ c.sender.una ∨ ack = c.sender.nxt) (dup : DupAck) {kind : AckKind}
    (hkind : c.sender.onKind ack dup kind = if c.sender.una < ack then
      Sender.slide { c.sender with dup := dup } ack c.sender.dup.inRecovery
      else { c.sender with dup := dup }) : (c.progress ack dup kind).Sound := by
  rw [progress, hkind]
  by_cases hnew : c.sender.una < ack
  · have hall : ack = c.sender.nxt := hack.resolve_left (Nat.not_le_of_lt hnew)
    subst hall
    rw [if_pos hnew, if_pos hnew, if_pos hnew]
    exact slide_sound h hnew _ dup _
  · rw [if_neg hnew, if_neg hnew, if_neg hnew]
    exact h.adjust dup _ _ _ _ h.mss c.queue

theorem control_sound (dup : DupAck) (ssthresh cwnd : ℕ) :
    (c.control dup ssthresh cwnd).Sound :=
  h.adjust dup _ _ _ _ h.mss c.queue

theorem onKind_sound {ack : ℕ}
    (hack : ack ≤ c.sender.una ∨ ack = c.sender.nxt) (dup : DupAck) {kind : AckKind}
    (hwhole : kind = .fastRetx → c.sender.retx.len ≤ c.sender.effMss) :
    (c.onKind ack dup kind).1.Sound := by
  cases kind with
  | fastRetx =>
    rw [onKind, enterRecovery, retransmitLast_whole (control_whole (hwhole rfl) dup _ _)]
    exact control_sound h dup _ _
  | inRecovery =>
    rw [onKind, Sender.onKind]
    exact h.adjust dup _ _ _ _ h.mss c.queue
  | _ => exact progress_sound h hack dup rfl

theorem expire_sound (hgoes : c.sender.consecTmo < maxTimeouts)
    (hwhole : c.sender.retx.len ≤ mssLadder (c.sender.consecTmo + 1)) : c.expire.1.Sound := by
  have hbacked : ({ c with sender := c.sender.backOff } : Conn).sender.retx.len ≤
      ({ c with sender := c.sender.backOff } : Conn).sender.effMss := hwhole
  rw [expire, if_neg (Nat.not_lt_of_le hgoes), retransmitLast_whole hbacked]
  exact h.adjust _ _ _ _ _ (mssLadder_bounds _) c.queue

theorem turn_sound (hfits : c.Fits t) : (c.turn t).1.Sound := by
  rw [turn]
  by_cases hdone : t.rest = []
  · rw [if_pos (.inl hdone)]
    exact h
  have hopen : ¬ (t.rest = [] ∨ c.sender.established = false) := by
    rw [h.established]
    exact not_or.mpr ⟨hdone, Bool.noConfusion⟩
  have hempty : t.rest.isEmpty = false := by
    cases hrest : t.rest with
    | nil => exact absurd hrest hdone
    | cons _ _ => rfl
  rw [if_neg hopen]
  split_ifs with hchunk
  · have hlength : (t.rest.take (c.sender.chunk t.rest.length)).length =
        c.sender.chunk t.rest.length := by
      rw [length_take, Nat.min_eq_left (chunk_le _ _).1]
    apply transmit_sound h (hfits.alone _ hdone)
    · rw [hlength]
      exact (chunk_le _ _).2
    · rw [waits, Sender.waits, decide_eq_false hchunk, Bool.and_false, Bool.and_false]
  · have hsender : c.sender.waits t.rest.length = true := by
      rw [Sender.waits, h.established, decide_eq_true (not_not.mp hchunk)]
      rfl
    have hwaits : c.waits t = true := by
      rw [waits, hempty, hsender]
      rfl
    have hgoes := hfits.goes hdone
    have hwhole := hfits.whole
    have hacks := hfits.acks
    rw [triggers, hwaits, Bool.true_and, retxMss] at hwhole
    cases hevent : t.event with
    | timeout =>
      rw [hevent] at hgoes hwhole
      rw [Sender.fails, hsender, Bool.true_and, decide_eq_false_iff_not] at hgoes
      exact expire_sound h (Nat.lt_of_not_le hgoes)
        (hwhole (decide_eq_true (Nat.lt_of_not_le hgoes)))
    | segment ack window hasData rst =>
      rw [hevent] at hgoes hwhole hacks
      cases rst with
      | true =>
        rw [Sender.fails, hsender] at hgoes
        cases hgoes
      | false =>
        dsimp only at hwhole ⊢
        have hset : ({ c with
            sender := c.sender.setWindow window
            queue := mark c.queue t.blocks } : Conn).Sound :=
          h.adjust _ _ _ _ _ h.mss _
        rw [receive, if_neg Bool.false_ne_true]
        apply onKind_sound hset (hacks ack hdone (by rw [Sender.takes, if_pos hsender]))
        intro hkind
        exact hwhole (by rw [hkind]; rfl)

end

/-! ## What goes out -/

theorem retransmitLast_out (hvalid : c.sender.retx.valid = true) : c.retransmitLast.2 =
      some ⟨c.sender.retx.seq, c.data.take (min c.sender.retx.len c.sender.effMss)⟩ := by
  rw [retransmitLast, if_pos hvalid]

theorem turn_out (h : c.Sound) (htriggers : c.triggers t = true)
    (hflight : c.sender.una ≠ c.sender.nxt) :
    (c.turn t).2 = some ⟨c.sender.una,
      (c.accepted.drop c.acked).take (min (c.accepted.length - c.acked) (c.retxMss t))⟩ := by
  obtain ⟨hretx, hdata⟩ := h.record (h.pending hflight)
  have hvalid : c.sender.retx.valid = true := by rw [hretx]
  rw [triggers, and_eq_true] at htriggers
  obtain ⟨hwaits, hevent⟩ := htriggers
  have hseq : c.sender.retx.seq = c.sender.una := by rw [hretx]
  have hlen : c.sender.retx.len = c.accepted.length - c.acked := by rw [hretx]
  rw [turn_of_waits hwaits, retxMss, ← hdata, ← hlen, ← hseq]
  cases htevent : t.event with
  | timeout =>
    rw [htevent, decide_eq_true_eq] at hevent
    dsimp only
    rw [expire, if_neg (Nat.not_lt_of_le hevent)]
    exact retransmitLast_out hvalid
  | segment ack window hasData rst =>
    rw [htevent, and_eq_true, decide_eq_true_eq, not_eq_true'] at hevent
    obtain ⟨hrst, hkind⟩ := hevent
    dsimp only
    rw [receive, hrst, if_neg Bool.false_ne_true, hkind, onKind, enterRecovery]
    exact retransmitLast_out hvalid

/-- The stream of a peer when a segment arrives that may overlap with it. -/
def deliver (isn : ℕ) (got : List Byte) (segment : Segment) : List Byte :=
  if minus (SeqArith.seq (isn + got.length)) segment.seq ≤ segment.bytes.length then
    got ++ segment.bytes.drop (minus (SeqArith.seq (isn + got.length)) segment.seq)
  else got

/-- A segment with all that was not acknowledged completes the stream. -/
theorem deliver_all (h : c.Sound) {n : ℕ} (hacked : c.acked ≤ n) (hn : n ≤ c.accepted.length) :
    deliver c.isn (c.accepted.take n) ⟨c.sender.una, c.accepted.drop c.acked⟩ = c.accepted := by
  have hflight := h.flight
  have hbound := h.bound
  rw [tcpMss] at hflight
  have hold : minus (seq (c.isn + (c.accepted.take n).length)) c.sender.una =
      n - c.acked := by
    rw [length_take, Nat.min_eq_left hn, h.una, minus_seq (by omega) (by omega)]
    omega
  rw [deliver, hold, length_drop, if_pos (by omega), drop_drop,
    Nat.add_sub_cancel' hacked, take_append_drop]

theorem start_sound {isn : ℕ} (hisn : isn < 2 ^ 32) (wnd : ℕ) (sackOk : Bool) :
    (Conn.start isn wnd sackOk).Sound where
  established := rfl
  una := (seq_of_lt hisn).symm
  nxt := (seq_of_lt hisn).symm
  seq := rfl
  mss := (by decide : 0 < 1460 ∧ 1460 ≤ tcpMss)
  bound := Nat.le_refl _
  flight := Nat.zero_le _
  record hless := absurd hless (Nat.lt_irrefl 0)

/-- The byte at a place that was not acknowledged is in the buffer. -/
theorem Conn.Sound.held (h : c.Sound) {k : ℕ} (hk : k < minus c.sender.nxt c.sender.una) :
    ∃ byte, c.accepted[c.acked + k]? = some byte ∧
      c.held (SeqArith.seq (c.sender.una + k)) = some byte := by
  rw [h.in_flight] at hk
  have hflight := h.flight
  have hbound := h.bound
  rw [tcpMss] at hflight
  have hlt : c.acked + k < c.accepted.length := by omega
  obtain ⟨hretx, hdata⟩ := h.record (by omega)
  have hplace : minus (SeqArith.seq (c.sender.una + k)) c.sender.una = k := by
    rw [h.una, seq_add, minus_seq (by omega) (by omega)]
    omega
  refine ⟨c.accepted[c.acked + k], getElem?_eq_getElem hlt, ?_⟩
  rw [Conn.held, hretx, hdata, if_pos ⟨rfl, by rw [hplace]; exact hk⟩, hplace, getElem?_drop]
  exact getElem?_eq_getElem hlt

def Step (port : ℕ) (before : Conn) (t : Turn) (after : Conn) : Prop :=
  (before.send port t).1 = after

theorem send_eq {port : ℕ} (hport : port ≠ simPort) (c : Conn) (t : Turn) :
    c.send port t = c.turn t :=
  if_neg fun hexit => hport hexit.1

/-- Where a retransmission may begin: at the oldest byte that was not acknowledged or, with
selective acknowledgements, at the first hole. -/
def Conn.Begins (c : Conn) (t : Turn) (segment : Segment) : Prop :=
  segment.seq = c.sender.una ∨
    c.sackOk = true ∧ ∃ hole, nextHole (mark c.queue t.blocks) = some hole ∧
      segment.seq = hole.seq

/-- In every run of turns that fit, each byte that was sent and not acknowledged is held, every
retransmission begins with the oldest of them, and a peer that receives it has all bytes. -/
theorem unacknowledged_held {isn wnd port : ℕ} {sackOk : Bool} (hisn : isn < 2 ^ 32)
    (hport : port ≠ simPort)
    (hrun : Reaches (guarded Conn.Fits (Step port)) (Conn.start isn wnd sackOk) c) :
    c.acked + minus c.sender.nxt c.sender.una = c.accepted.length ∧
    (∀ k < minus c.sender.nxt c.sender.una, ∃ byte, c.accepted[c.acked + k]? = some byte ∧
      c.held (SeqArith.seq (c.sender.una + k)) = some byte) ∧
    ∀ t, c.triggers t = true → c.sender.una ≠ c.sender.nxt →
      ∃ segment, (c.send port t).2 = some segment ∧ c.Begins t segment ∧
        (c.Fits t → ∀ n, c.acked ≤ n → n ≤ c.accepted.length →
          deliver c.isn (c.accepted.take n) segment = c.accepted) := by
  have hsound : c.Sound :=
    hrun.kept (start_sound hisn wnd sackOk) fun hbefore hfits => by
      rw [send_eq hport]
      exact turn_sound hbefore hfits
  refine ⟨?_, fun k hk => hsound.held hk, fun t htriggers hflight => ?_⟩
  · rw [hsound.in_flight, Nat.add_sub_cancel' hsound.bound]
  · rw [send_eq hport]
    refine ⟨_, turn_out hsound htriggers hflight, .inl rfl, fun hfits n hacked hn => ?_⟩
    have hwhole := hfits.whole htriggers
    rw [(hsound.record (hsound.pending hflight)).1] at hwhole
    rw [Nat.min_eq_left hwhole, take_of_length_le (Nat.le_of_eq length_drop)]
    exact deliver_all hsound hacked hn

/-- Three bytes in a window of three. -/
def threeSent : Conn := ((Conn.start 4096 3 false).turn ⟨[1, 2, 3], .timeout, []⟩).1

theorem unacknowledged_held_three : (∃ byte, threeSent.accepted[0 + 2]? = some byte ∧
      threeSent.held (SeqArith.seq (threeSent.sender.una + 2)) = some byte) ∧
      ∃ segment, (threeSent.send 80 ⟨[4], .timeout, []⟩).2 = some segment ∧
        threeSent.Begins ⟨[4], .timeout, []⟩ segment := by
  have hfits : (start 4096 3 false).Fits ⟨[1, 2, 3], .timeout, []⟩ := by
    refine ⟨fun _ _ => rfl, nofun, ?_, ?_⟩
    · exact fun _ => by decide +kernel
    intro htriggers
    have hnone : (start 4096 3 false).triggers ⟨[1, 2, 3], .timeout, []⟩ = false := by
      decide +kernel
    cases hnone.symm.trans htriggers
  have hstep : guarded Fits (Step 80) (start 4096 3 false) ⟨[1, 2, 3], .timeout, []⟩
      threeSent := ⟨hfits, rfl⟩
  obtain ⟨-, hheld, hretx⟩ :=
    unacknowledged_held (by decide) (by decide) ((Reaches.refl _ (start 4096 3 false)).tail hstep)
  obtain ⟨segment, hout, hbegins, -⟩ := hretx ⟨[4], .timeout, []⟩ (by decide +kernel)
    (by decide +kernel)
  exact ⟨hheld 2 (by decide +kernel), segment, hout, hbegins⟩

/-- Two segments are in flight and the window is full. -/
def twoSent : Conn :=
  [Turn.mk [1, 2] .timeout [], ⟨[3, 4], .timeout, []⟩].foldl (fun c t => (c.send 80 t).1)
    (Conn.start 4096 4 true)

/-- An acknowledgement that repeats the first number and reports the second segment. -/
def duplicate : Turn := ⟨[5], .segment 4096 4 false false, [(4098, 4100)]⟩

/-- Two such acknowledgements have come. -/
def twoDuplicates : Conn := [duplicate, duplicate].foldl (fun c t => (c.send 80 t).1) twoSent

/-- Two bytes for a peer at `simPort`. -/
def unsent : Conn × Option Segment := (Conn.start 4096 4 true).send simPort ⟨[1, 2], .timeout, []⟩

/-- Of two segments only the second is held, and it is the second that is retransmitted, by a
timeout and by the third duplicate, even where the first is known to be the hole.  To a peer at
`simPort` nothing is sent, and nothing is held. -/
theorem first_segment_lost : Reaches (Step 80) (Conn.start 4096 4 true) twoSent ∧
      twoSent.sender.una = 4096 ∧ twoSent.sender.nxt = 4100 ∧ twoSent.held 4096 = none ∧
      twoSent.triggers ⟨[5], .timeout, []⟩ = true ∧
      (twoSent.send 80 ⟨[5], .timeout, []⟩).2 = some ⟨4098, [3, 4]⟩ ∧
      Reaches (Step 80) (Conn.start 4096 4 true) twoDuplicates ∧
      twoDuplicates.triggers duplicate = true ∧
      (twoDuplicates.send 80 duplicate).2 = some ⟨4098, [3, 4]⟩ ∧
      ¬ twoDuplicates.Begins duplicate ⟨4098, [3, 4]⟩ ∧
      unsent.1.accepted = [1, 2] ∧ unsent.2 = none ∧ unsent.1.held 4096 = none := by
  have hrun : Reaches (Step 80) (start 4096 4 true) twoSent :=
    reaches_run (fun c t => (send 80 c t).1) _ _
  have hrun' : Reaches (Step 80) twoSent twoDuplicates :=
    reaches_run (fun c t => (send 80 c t).1) _ _
  refine ⟨hrun, by decide +kernel, by decide +kernel, by decide +kernel, by decide +kernel,
    by decide +kernel, Relation.ReflTransGen.trans hrun hrun', by decide +kernel,
    by decide +kernel, ?_, by decide +kernel, by decide +kernel, by decide +kernel⟩
  rintro (hfirst | ⟨-, hole, hhole, hseq⟩)
  · have huna : twoDuplicates.sender.una = 4096 := by decide +kernel
    rw [huna] at hfirst
    cases hfirst
  · have hnext : nextHole (mark twoDuplicates.queue duplicate.blocks) =
        some ⟨4096, 2, false⟩ := by decide +kernel
    rw [hnext] at hhole
    cases Option.some_inj.mp hhole
    cases hseq

end AuraLite.TcpRetx

import AuraLite.Net.TcpReceive

/-!
# Sending on a TCP connection

The loop of `tcp_send` with the send scheduler of `tcp_x5.h`, the classification of
acknowledgements of `tcp_m6.h` and the congestion window of `tcp_cc.h`.  One turn of the
loop either sends a chunk or, when the window is full, waits for a segment or the
timeout.
-/

namespace AuraLite.Tcp

open SeqArith Reachability

/-- `tcpm6_dupack_t`. -/
structure DupAck where
  lastAck : ℕ
  dupCount : ℕ
  inRecovery : Bool
  recover : ℕ
deriving DecidableEq

/-- The segment that is kept for retransmission. -/
structure Retx where
  valid : Bool
  seq : ℕ
  len : ℕ
deriving DecidableEq

/-- The sending side of a connection; `sent` counts the bytes, for the statements. -/
structure Sender where
  established : Bool
  seq : ℕ
  una : ℕ
  nxt : ℕ
  wnd : ℕ
  cwnd : ℕ
  ssthresh : ℕ
  effMss : ℕ
  consecTmo : ℕ
  dup : DupAck
  retx : Retx
  sent : ℕ
deriving DecidableEq

/-- `TCP_X5_MAX_TMO`. -/
def maxTimeouts : ℕ := 10

/-! ## Policy -/

/-- `tcpx5_mss_ladder`. -/
def mssLadder (timeouts : ℕ) : ℕ :=
  [1460, 1200, 1024, 536].getD (if timeouts < 3 then 0 else (timeouts - 1) / 2) 536

/-- `tcpx5_send_chunk`. -/
def sendChunk (una nxt cwnd wnd effMss want : ℕ) : ℕ :=
  let budget := if cwnd < wnd then cwnd else wnd
  let inFlight := minus nxt una
  if budget ≤ inFlight then 0
  else min (min want (budget - inFlight)) effMss

inductive AckKind
  | progress
  | dup
  | fastRetx
  | inRecovery
  | old
deriving DecidableEq

/-- `tcpm6_on_ack`. -/
def onAck (d : DupAck) (una ack nxt : ℕ) (hasData winChanged : Bool) : AckKind × DupAck :=
  if 0 < diff ack una then
    (.progress, { d with
      lastAck := ack
      dupCount := 0
      inRecovery := d.inRecovery && !decide (0 ≤ diff ack d.recover) })
  else if diff ack una < 0 then (.old, d)
  else if hasData || winChanged then (.old, d)
  else if nxt = una then (.old, d)
  else if d.inRecovery then (.inRecovery, { d with dupCount := d.dupCount + 1 })
  else if d.dupCount + 1 = 3 then (.fastRetx, ⟨ack, d.dupCount + 1, true, nxt⟩)
  else (.dup, { d with lastAck := ack, dupCount := d.dupCount + 1 })

/-- `tcpm6_recovery_ssthresh`. -/
def recoverySsthresh (flight mss : ℕ) : ℕ := max (flight / 2) (2 * mss)

/-- `tcpm6_recovery_cwnd`. -/
def recoveryCwnd (ssthresh mss dupacks : ℕ) : ℕ := seq (ssthresh + max 3 dupacks * mss)

/-- `tcpcc_ack_grow`. -/
def ackGrow (cwnd ssthresh mss acked cap : ℕ) : ℕ :=
  let inc := if cwnd < ssthresh then min acked mss else max 1 (mss * mss / max cwnd 1)
  if seq (cwnd + inc) < cwnd then cap else min (seq (cwnd + inc)) cap

/-! ## The loop -/

/-- What ends a wait. -/
inductive Event
  | segment (ack window : ℕ) (hasData rst : Bool)
  | timeout

/-- The first transmission of a chunk. -/
def Sender.transmit (s : Sender) (chunk : ℕ) : Sender :=
  { s with
    retx := ⟨true, s.seq, chunk⟩
    seq := SeqArith.seq (s.seq + chunk)
    nxt := SeqArith.seq (s.seq + chunk)
    sent := s.sent + chunk }

/-- `tcp_retransmit_last`: a long segment is sent in part and its record moves on. -/
def Sender.retransmitLast (s : Sender) : Sender :=
  if s.retx.valid ∧ s.effMss < s.retx.len then
    { s with retx := ⟨true, SeqArith.seq (s.retx.seq + s.effMss), s.retx.len - s.effMss⟩ }
  else s

/-- The slide over what an acknowledgement covers. -/
def Sender.slide (s : Sender) (ack : ℕ) (wasRecovery : Bool) : Sender :=
  let effMss := mssLadder 0
  let cwnd :=
    if wasRecovery ∧ s.dup.inRecovery = false ∧ s.ssthresh < s.cwnd ∧ 0 < s.ssthresh then
      s.ssthresh
    else s.cwnd
  { s with
    una := ack
    consecTmo := 0
    effMss := effMss
    retx := { s.retx with
      valid := s.retx.valid && decide (ack < SeqArith.seq (s.retx.seq + s.retx.len)) }
    cwnd := ackGrow cwnd s.ssthresh effMss (minus ack s.una) tcpWindow }

/-- What is done about an acknowledgement, by its kind. -/
def Sender.onKind (s : Sender) (ack : ℕ) (dup : DupAck) : AckKind → Sender
  | .fastRetx =>
    let ssthresh := recoverySsthresh (minus s.nxt s.una) s.effMss
    Sender.retransmitLast { s with
      dup := dup
      ssthresh := ssthresh
      cwnd := recoveryCwnd ssthresh s.effMss dup.dupCount }
  | .inRecovery => { s with dup := dup, cwnd := SeqArith.seq (s.cwnd + s.effMss) }
  | _ =>
    if s.una < ack then Sender.slide { s with dup := dup } ack s.dup.inRecovery
    else { s with dup := dup }

/-- The window that a segment announces. -/
def Sender.setWindow (s : Sender) (window : ℕ) : Sender :=
  { s with wnd := if window = 0 then tcpWindow else window }

/-- A segment that comes in while the window is full. -/
def Sender.receive (s : Sender) (ack window : ℕ) (hasData rst : Bool) : Sender :=
  let s := s.setWindow window
  if rst then { s with established := false, retx := { s.retx with valid := false } }
  else
    let classified := onAck s.dup s.una ack s.nxt hasData (decide (window ≠ s.wnd))
    s.onKind ack classified.2 classified.1

/-- The sender slows down. -/
def Sender.backOff (s : Sender) : Sender :=
  { s with
    consecTmo := s.consecTmo + 1
    effMss := mssLadder (s.consecTmo + 1)
    ssthresh := recoverySsthresh (minus s.nxt s.una) (mssLadder (s.consecTmo + 1))
    cwnd := mssLadder (s.consecTmo + 1) }

def Sender.expire (s : Sender) : Sender :=
  if maxTimeouts < s.consecTmo + 1 then
    { s.backOff with retx := { s.retx with valid := false } }
  else s.backOff.retransmitLast

/-- The window is full. -/
def Sender.wait (s : Sender) : Event → Sender
  | .segment ack window hasData rst => s.receive ack window hasData rst
  | .timeout => s.expire

def Sender.chunk (s : Sender) (want : ℕ) : ℕ :=
  sendChunk s.una s.nxt s.cwnd s.wnd s.effMss want

/-- One turn of the loop of `tcp_send` with `want` bytes to go. -/
def Sender.turn (s : Sender) (want : ℕ) (event : Event) : Sender :=
  if s.established = false then s
  else if s.chunk want ≠ 0 then s.transmit (s.chunk want)
  else s.wait event

def Sender.start (isn wnd : ℕ) : Sender where
  established := true
  seq := isn
  una := isn
  nxt := isn
  wnd := wnd
  cwnd := 14600
  ssthresh := tcpWindow
  effMss := 1460
  consecTmo := 0
  dup := ⟨0, 0, false, 0⟩
  retx := ⟨false, 0, 0⟩
  sent := 0

/-! ## Acknowledgements -/

def Sender.waits (s : Sender) (want : ℕ) : Bool :=
  s.established && decide (s.chunk want = 0)

/-- The acknowledgement that a turn takes in. -/
def Sender.takes (s : Sender) (want : ℕ) : Event → Option ℕ
  | .segment ack _ _ false => if s.waits want then some ack else none
  | _ => none

/-- The call fails in the turn: a reset, or one timeout too many. -/
def Sender.fails (s : Sender) (want : ℕ) : Event → Bool
  | .segment _ _ _ rst => s.waits want && rst
  | .timeout => s.waits want && decide (maxTimeouts ≤ s.consecTmo)

/-- The number is behind `una` and not behind `nxt`, in sequence arithmetic. -/
def Acceptable (una nxt ack : ℕ) : Prop := 0 < minus ack una ∧ minus ack una ≤ minus nxt una

instance (una nxt ack : ℕ) : Decidable (Acceptable una nxt ack) :=
  inferInstanceAs (Decidable (_ ∧ _))

/-- The bytes in flight do not straddle the wrap, and the acknowledgement is not beyond
them. -/
def Sender.Fits (s : Sender) (want : ℕ) (event : Event) : Prop :=
  ∀ ack, s.takes want event = some ack → s.una ≤ s.nxt ∧ ack ≤ s.nxt

structure Sender.Sound (s : Sender) : Prop where
  seq : s.seq = s.nxt
  una : s.una < 2 ^ 32
  nxt : s.nxt < 2 ^ 32
  flight : minus s.nxt s.una ≤ s.sent
  record : s.retx.valid = true → SeqArith.seq (s.retx.seq + s.retx.len) = s.nxt

variable {s s' : Sender} {ack : ℕ}

open Sender

theorem minus_after_send (hnxt : s.nxt < 2 ^ 32) (huna : s.una < 2 ^ 32) (chunk : ℕ) :
    minus (seq (s.nxt + chunk)) s.una ≤ minus s.nxt s.una + chunk := by
  rw [minus, minus, SeqArith.seq]
  omega

/-! ## One turn -/

/-- Window and record are as before. -/
structure Sender.Same (s s' : Sender) : Prop where
  seq : s'.seq = s.seq
  una : s'.una = s.una
  nxt : s'.nxt = s.nxt
  sent : s'.sent = s.sent
  valid : s'.retx.valid = s.retx.valid
  record : s.retx.valid = true →
    SeqArith.seq (s'.retx.seq + s'.retx.len) = SeqArith.seq (s.retx.seq + s.retx.len)

theorem Sender.Same.trans {s'' : Sender} (h : s.Same s') (h' : s'.Same s'') : s.Same s'' where
  seq := h'.seq.trans h.seq
  una := h'.una.trans h.una
  nxt := h'.nxt.trans h.nxt
  sent := h'.sent.trans h.sent
  valid := h'.valid.trans h.valid
  record hvalid := (h'.record (h.valid.trans hvalid)).trans (h.record hvalid)

theorem Sender.Same.sound (h : s.Same s') (hsound : s.Sound) : s'.Sound where
  seq := by rw [h.seq, h.nxt, hsound.seq]
  una := by rw [h.una]; exact hsound.una
  nxt := by rw [h.nxt]; exact hsound.nxt
  flight := by rw [h.nxt, h.una, h.sent]; exact hsound.flight
  record hvalid := by
    rw [h.valid] at hvalid
    rw [h.record hvalid, h.nxt]
    exact hsound.record hvalid

theorem retransmitLast_same (s : Sender) : s.Same s.retransmitLast := by
  rw [retransmitLast]
  split_ifs with hlong
  · refine ⟨rfl, rfl, rfl, rfl, hlong.1.symm, fun _ => ?_⟩
    rw [seq_add, Nat.add_assoc, Nat.add_sub_cancel' (Nat.le_of_lt hlong.2)]
  · exact ⟨rfl, rfl, rfl, rfl, rfl, fun _ => rfl⟩

theorem transmit_sound (h : s.Sound) (chunk : ℕ) : (s.transmit chunk).Sound where
  seq := rfl
  una := h.una
  nxt := seq_lt _
  flight := by
    have hgrown := minus_after_send h.nxt h.una chunk
    have hflight := h.flight
    change minus (SeqArith.seq (s.seq + chunk)) s.una ≤ s.sent + chunk
    rw [h.seq]
    exact Nat.le_trans hgrown (Nat.add_le_add_right hflight chunk)
  record _ := rfl

/-- The record of a sound sender is dropped only by an acknowledgement of all there is. -/
theorem slide_sound (h : s.Sound) (hwindow : s.una ≤ s.nxt) (hack : ack ≤ s.nxt)
    (hnew : s.una < ack) (wasRecovery : Bool) :
    (s.slide ack wasRecovery).Sound ∧
      (s.retx.valid = true → (s.slide ack wasRecovery).retx.valid = false → ack = s.nxt) := by
  refine ⟨⟨h.seq, Nat.lt_of_le_of_lt hack h.nxt, h.nxt, ?_, ?_⟩, ?_⟩
  · have hnxt := h.nxt
    have hless : minus s.nxt ack ≤ minus s.nxt s.una := by
      rw [minus, minus]
      omega
    exact Nat.le_trans hless h.flight
  · intro hvalid
    exact h.record (Bool.and_eq_true_iff.mp hvalid).1
  · intro hvalid hdropped
    have hend := h.record hvalid
    have hcompare : (s.retx.valid && decide (ack < SeqArith.seq (s.retx.seq + s.retx.len))) =
        false := hdropped
    rw [hvalid, hend, Bool.true_and, decide_eq_false_iff_not] at hcompare
    omega

/-- What a turn does to window and record. -/
structure TakesIn (s : Sender) (ack : ℕ) (s' : Sender) : Prop where
  sound : s'.Sound
  una : s'.una = if Acceptable s.una s.nxt ack then ack else s.una
  record : s.retx.valid = true → s'.retx.valid = false → ack = s.nxt

theorem Sender.Same.takesIn (h : s.Same s') (hsound : s.Sound)
    (hold : ¬ Acceptable s.una s.nxt ack) : TakesIn s ack s' where
  sound := h.sound hsound
  una := by rw [if_neg hold, h.una]
  record hvalid hdropped := by
    rw [h.valid, hvalid] at hdropped
    cases hdropped

/-- Only an acknowledgement that repeats `una` counts as a duplicate. -/
theorem onAck_duplicate {d : DupAck} {una nxt : ℕ} {hasData winChanged : Bool}
    (hkind : (onAck d una ack nxt hasData winChanged).1 = .fastRetx ∨
      (onAck d una ack nxt hasData winChanged).1 = .inRecovery) : diff ack una = 0 := by
  rw [onAck] at hkind
  by_cases hpos : 0 < diff ack una
  · rw [if_pos hpos] at hkind
    rcases hkind with hkind | hkind <;> cases hkind
  · by_cases hneg : diff ack una < 0
    · rw [if_neg hpos, if_pos hneg] at hkind
      rcases hkind with hkind | hkind <;> cases hkind
    · omega

theorem not_acceptable_of_diff (hzero : diff ack s.una = 0) : ¬ Acceptable s.una s.nxt ack := by
  rintro ⟨hpos, -⟩
  have hbound : minus ack s.una < 2 ^ 32 := Nat.mod_lt _ (by norm_num)
  rw [diff] at hzero
  split_ifs at hzero with hsmall <;> omega

theorem onKind_takesIn (h : s.Sound) (hwindow : s.una ≤ s.nxt) (hack : ack ≤ s.nxt)
    (dup : DupAck) {kind : AckKind}
    (hduplicate : kind = .fastRetx ∨ kind = .inRecovery → ¬ Acceptable s.una s.nxt ack) :
    TakesIn s ack (s.onKind ack dup kind) := by
  have hsame : ∀ (cwnd ssthresh : ℕ),
      s.Same { s with dup := dup, cwnd := cwnd, ssthresh := ssthresh } :=
    fun _ _ => ⟨rfl, rfl, rfl, rfl, rfl, fun _ => rfl⟩
  -- A kind that is no duplicate comes down to the comparison of raw numbers.
  have hrest : TakesIn s ack (if s.una < ack then
      slide { s with dup := dup } ack s.dup.inRecovery else { s with dup := dup }) := by
    have hbase := hsame s.cwnd s.ssthresh
    have hnxt := h.nxt
    -- without the wrap, raw numbers compare as sequence numbers do
    have hraw : Acceptable s.una s.nxt ack ↔ s.una < ack := by
      rw [Acceptable, minus, minus]
      omega
    split_ifs with hnew
    · obtain ⟨hsound, hrecord⟩ := slide_sound (hbase.sound h) hwindow hack hnew s.dup.inRecovery
      exact ⟨hsound, (if_pos (hraw.mpr hnew)).symm, hrecord⟩
    · exact hbase.takesIn h fun hin => hnew (hraw.mp hin)
  cases kind with
  | fastRetx =>
    apply Same.takesIn _ h (hduplicate (.inl rfl))
    exact (hsame _ _).trans (retransmitLast_same _)
  | inRecovery =>
    apply Same.takesIn _ h (hduplicate (.inr rfl))
    exact hsame _ _
  | _ => exact hrest

theorem setWindow_same (s : Sender) (window : ℕ) : s.Same (s.setWindow window) :=
  ⟨rfl, rfl, rfl, rfl, rfl, fun _ => rfl⟩

theorem receive_takesIn (h : s.Sound) (hwindow : s.una ≤ s.nxt) (hack : ack ≤ s.nxt)
    (window : ℕ) (hasData : Bool) : TakesIn s ack (s.receive ack window hasData false) := by
  have hsound := (setWindow_same s window).sound h
  have htakes : TakesIn (s.setWindow window) ack (s.receive ack window hasData false) := by
    rw [receive, if_neg Bool.false_ne_true]
    apply onKind_takesIn hsound hwindow hack
    intro hkind
    exact not_acceptable_of_diff (onAck_duplicate hkind)
  exact { htakes with }

theorem receive_reset (h : s.Sound) (window : ℕ) (hasData : Bool) :
    (s.receive ack window hasData true).Sound ∧
      (s.receive ack window hasData true).una = s.una := by
  rw [receive, if_pos rfl]
  exact ⟨{ h with record := nofun }, rfl⟩

/-- A timeout moves nothing; the last one drops the record. -/
theorem expire_same (s : Sender) (hgoes : s.consecTmo < maxTimeouts) : s.Same s.expire := by
  have hbacked : s.Same s.backOff := ⟨rfl, rfl, rfl, rfl, rfl, fun _ => rfl⟩
  rw [expire, if_neg (Nat.not_lt_of_le hgoes)]
  exact hbacked.trans (retransmitLast_same s.backOff)

theorem expire_last (h : s.Sound) (hlast : maxTimeouts ≤ s.consecTmo) :
    s.expire.Sound ∧ s.expire.una = s.una := by
  rw [expire, if_pos (Nat.lt_succ_of_le hlast)]
  exact ⟨{ h with record := nofun }, rfl⟩

/-- What a turn does to the window and the record. -/
structure TurnOf (s : Sender) (want : ℕ) (event : Event) (s' : Sender) : Prop where
  sound : s'.Sound
  una : s'.una = (s.takes want event).elim s.una fun ack =>
    if Acceptable s.una s.nxt ack then ack else s.una
  record : s.retx.valid = true → s'.retx.valid = false →
    s.takes want event = some s.nxt ∨ s.fails want event = true

theorem Sender.Same.turnOf {want : ℕ} {event : Event} (h : s.Same s') (hsound : s.Sound)
    (hnone : s.takes want event = none) : TurnOf s want event s' where
  sound := h.sound hsound
  una := by rw [hnone, h.una]; rfl
  record hvalid hdropped := by
    rw [h.valid, hvalid] at hdropped
    cases hdropped

theorem takes_of_not_waits {want : ℕ} {event : Event} (hwaits : s.waits want = false) :
    s.takes want event = none := by
  cases event with
  | timeout => rfl
  | segment ack window hasData rst =>
    cases rst with
    | true => rfl
    | false => rw [takes, hwaits]; rfl

theorem wait_turnOf (h : s.Sound) {want : ℕ} (event : Event) (hfits : s.Fits want event)
    (hwaits : s.waits want = true) : TurnOf s want event (s.wait event) := by
  cases event with
  | timeout =>
    rw [wait]
    rcases Nat.lt_or_ge s.consecTmo maxTimeouts with hgoes | hlast
    · exact (expire_same s hgoes).turnOf h rfl
    · obtain ⟨hsound, huna⟩ := expire_last h hlast
      refine ⟨hsound, huna, fun _ _ => .inr ?_⟩
      rw [fails, hwaits, decide_eq_true hlast]
      rfl
  | segment ack window hasData rst =>
    rw [wait]
    cases rst with
    | true =>
      obtain ⟨hsound, huna⟩ := @receive_reset s ack h window hasData
      refine ⟨hsound, huna, fun _ _ => .inr ?_⟩
      rw [fails, hwaits]
      rfl
    | false =>
      have htakes : s.takes want (.segment ack window hasData false) = some ack := by
        rw [takes, if_pos hwaits]
      obtain ⟨hwindow, hack⟩ := hfits ack htakes
      obtain ⟨hsound, huna, hrecord⟩ := receive_takesIn h hwindow hack window hasData
      refine ⟨hsound, ?_, fun hvalid hdropped => .inl ?_⟩
      · rw [htakes, Option.elim_some]
        exact huna
      · rw [htakes, hrecord hvalid hdropped]

theorem turn_turnOf (h : s.Sound) (want : ℕ) (event : Event) (hfits : s.Fits want event) :
    TurnOf s want event (s.turn want event) := by
  have hself : s.Same s := ⟨rfl, rfl, rfl, rfl, rfl, fun _ => rfl⟩
  rw [turn]
  by_cases hclosed : s.established = false
  · rw [if_pos hclosed]
    apply hself.turnOf h
    apply takes_of_not_waits
    rw [waits, hclosed, Bool.false_and]
  rw [if_neg hclosed]
  split_ifs with hchunk
  · have hnone : s.takes want event = none := by
      apply takes_of_not_waits
      rw [waits, decide_eq_false hchunk, Bool.and_false]
    refine ⟨transmit_sound h _, ?_, nofun⟩
    rw [hnone]
    rfl
  · apply wait_turnOf h event hfits
    rw [waits, Bool.eq_true_of_not_eq_false hclosed, decide_eq_true (not_not.mp hchunk)]
    rfl

/-! ## Runs -/

/-- A turn of the loop: the bytes to go, and what would end a wait. -/
structure Turn where
  want : ℕ
  event : Event

theorem start_sound {isn : ℕ} (hisn : isn < 2 ^ 32) (wnd : ℕ) : (Sender.start isn wnd).Sound where
  seq := rfl
  una := hisn
  nxt := hisn
  flight := by
    change minus isn isn ≤ 0
    rw [minus, Nat.add_sub_cancel_left, Nat.mod_self]
  record hvalid := nomatch hvalid

/-- As long as the bytes in flight do not straddle the wrap and no acknowledgement is
beyond them, they are at most what was sent; `una` moves exactly with the
acknowledgements in the window; and the record is dropped only by one that covers it, or
when the call fails. -/
theorem send_window (isn : ℕ) (hisn : isn < 2 ^ 32) (wnd : ℕ) (s : Sender)
    (hrun : Reaches (guarded (fun s turn => Sender.Fits s turn.want turn.event)
      fun before (turn : Turn) after => before.turn turn.want turn.event = after)
      (Sender.start isn wnd) s) :
    minus s.nxt s.una ≤ s.sent ∧
    ∀ want event, s.Fits want event →
      (s.turn want event).una = (s.takes want event).elim s.una (fun ack =>
        if Acceptable s.una s.nxt ack then ack else s.una) ∧
      (s.retx.valid = true → (s.turn want event).retx.valid = false →
        (∃ ack, s.takes want event = some ack ∧
          0 ≤ diff ack (seq (s.retx.seq + s.retx.len))) ∨ s.fails want event = true) := by
  have hsound : s.Sound :=
    hrun.kept (start_sound hisn wnd) fun hbefore hfits => (turn_turnOf hbefore _ _ hfits).sound
  refine ⟨hsound.flight, fun want event hfits => ?_⟩
  obtain ⟨-, huna, hrecord⟩ := turn_turnOf hsound want event hfits
  refine ⟨huna, fun hvalid hdropped => ?_⟩
  rcases hrecord hvalid hdropped with htakes | hfails
  · refine .inl ⟨s.nxt, htakes, ?_⟩
    have hzero : minus s.nxt s.nxt = 0 := by
      rw [minus, Nat.add_sub_cancel_left, Nat.mod_self]
    rw [hsound.record hvalid, diff, hzero]
    decide
  · exact .inr hfails

/-- Ten bytes in a window of ten, and the acknowledgement of six of them. -/
def sixOfTen : Sender := (Sender.start 4096 10).turn 10 .timeout

theorem send_window_six : minus sixOfTen.nxt sixOfTen.una ≤ sixOfTen.sent ∧
      (sixOfTen.turn 5 (.segment 4102 10 false false)).una = 4102 := by
  have hfirst : (start 4096 10).Fits 10 .timeout := nofun
  have hrun : Reaches (guarded (fun s turn => Fits s turn.want turn.event)
      fun before (turn : Turn) after => before.turn turn.want turn.event = after)
      (start 4096 10) sixOfTen :=
    (Reaches.refl _ _).tail (⟨hfirst, rfl⟩ : guarded (fun s turn =>
      Fits s turn.want turn.event) (fun before (turn : Turn) after =>
        before.turn turn.want turn.event = after) _ ⟨10, .timeout⟩ _)
  have hfits : sixOfTen.Fits 5 (.segment 4102 10 false false) := by
    intro ack hack
    have htakes : sixOfTen.takes 5 (.segment 4102 10 false false) = some 4102 := by decide +kernel
    cases htakes.symm.trans hack
    decide +kernel
  obtain ⟨hflight, hturns⟩ := send_window 4096 (by norm_num) 10 sixOfTen hrun
  refine ⟨hflight, ?_⟩
  rw [(hturns 5 _ hfits).1]
  decide +kernel

/-- The same ten bytes across the wrap. -/
def wrapped : Sender := (Sender.start (2 ^ 32 - 5) 10).turn 10 .timeout

/-- An acknowledgement a thousand bytes beyond what was sent is taken; and one that
covers everything is not, when the sequence numbers have wrapped. -/
theorem send_window_broken : (sixOfTen.takes 5 (.segment 5096 10 false false) = some 5096 ∧
      ¬ Acceptable sixOfTen.una sixOfTen.nxt 5096 ∧
      (sixOfTen.turn 5 (.segment 5096 10 false false)).una = 5096 ∧
      minus (sixOfTen.turn 5 (.segment 5096 10 false false)).nxt 5096 = 2 ^ 32 - 990 ∧
      (sixOfTen.turn 5 (.segment 5096 10 false false)).sent = 10) ∧
    (wrapped.takes 5 (.segment 5 10 false false) = some 5 ∧ Acceptable wrapped.una wrapped.nxt 5 ∧
      (wrapped.turn 5 (.segment 5 10 false false)).una = wrapped.una) := by
  decide +kernel

end AuraLite.Tcp

import AuraLite.Net.TcpRetransmit

/-!
# What the peer allows

The limits of a sender: the segment size that the peer announced in its SYN and that of the
network below, and the window of the segment that came in last.  The code keeps one segment
size, which the SYN lowers and which the ladder of timeouts sets anew.
-/

namespace AuraLite.TcpRetx

open List SeqArith Reachability Tcp

/-- `mss` of the operations for IPv4 and IPv6. -/
def l3Mss (v6 : Bool) : ℕ := if v6 then 1440 else 1460

/-- How a connection came to be; `mss` is zero when the SYN of the peer had none, and `queued`
says that the SYN waited in the backlog. -/
structure Handshake where
  isn : ℕ
  window : ℕ
  mss : ℕ
  v6 : Bool
  passive : Bool
  queued : Bool
  sackOk : Bool

/-- A SYN with a segment size lowers the one in use. -/
def Conn.lower (c : Conn) (mss : ℕ) : Conn :=
  { c with sender := { c.sender with
      effMss := if mss ≠ 0 ∧ mss < c.sender.effMss then mss else c.sender.effMss } }

/-- A connection, with what the peer announced. -/
structure Peer where
  conn : Conn
  limit : ℕ
  advertised : ℕ

/-- `tcp_open_addr`, and `tcp_accept`, which does not look at the options of the SYN and does
not keep the window of one that was queued. -/
def Handshake.peer (h : Handshake) : Peer where
  conn :=
    let c := Conn.start h.isn (if h.window = 0 ∨ h.queued = true then tcpWindow else h.window)
      h.sackOk
    if h.passive then c else c.lower h.mss
  limit := if h.mss = 0 then l3Mss h.v6 else min h.mss (l3Mss h.v6)
  advertised := h.window

/-- A segment that is taken in elsewhere, or a turn of the loop of `tcp_send`.  A SYN that ends
the wait of a turn is seen before the turn. -/
inductive Input
  | seen (window syn : ℕ)
  | turn (t : Turn)

/-- The window that the peer has announced after a turn. -/
def Peer.window (p : Peer) (t : Turn) : ℕ :=
  match p.conn.waits t, t.event with
  | true, .segment _ window _ _ => window
  | _, _ => p.advertised

/-- What the input does, and the segment that is put on the wire. -/
def Peer.step (p : Peer) : Input → Peer × Option Segment
  | .seen window syn =>
    ({ p with
        conn := { p.conn.lower syn with sender := (p.conn.lower syn).sender.setWindow window }
        advertised := window }, none)
  | .turn t =>
    ({ p with conn := (p.conn.turn t).1, advertised := p.window t }, (p.conn.turn t).2)

/-- The input is a turn that sends a chunk. -/
def Peer.Sends (p : Peer) : Input → Prop
  | .turn t => t.rest ≠ [] ∧ p.conn.sender.established = true ∧
      p.conn.sender.chunk t.rest.length ≠ 0
  | .seen _ _ => False

/-- What goes out with an input is within the limits. -/
structure Peer.Obeys (p : Peer) (input : Input) : Prop where
  payload : ∀ segment, (p.step input).2 = some segment → segment.bytes.length ≤ p.limit
  flight : p.Sends input →
    minus (p.step input).1.conn.sender.nxt (p.step input).1.conn.sender.una ≤ p.advertised

/-- No window of zero; progress only with full segments allowed, and a timeout only with the
step of the ladder that it leads to. -/
def Peer.Fits (p : Peer) : Input → Prop
  | .seen window _ => window ≠ 0
  | .turn t => p.conn.waits t = true →
    match t.event with
    | .segment ack window _ _ =>
      window ≠ 0 ∧ ack < 2 ^ 32 ∧ (p.conn.sender.una < ack → mssLadder 0 ≤ p.limit)
    | .timeout => mssLadder (p.conn.sender.consecTmo + 1) ≤ p.limit

/-- Full segments are allowed or the SYN was read and allows no more than the network below;
its window is not zero and was kept. -/
structure Handshake.Fits (h : Handshake) : Prop where
  isn : h.isn < 2 ^ 32
  window : h.window ≠ 0
  kept : h.queued = false
  passive : h.passive = true → h.v6 = false ∧ (h.mss = 0 ∨ 1460 ≤ h.mss)
  v6 : h.v6 = true → h.mss ≠ 0 ∧ h.mss ≤ 1440

/-- The sender has taken over the limits. -/
structure Within (limit window : ℕ) (s : Sender) : Prop where
  mss : s.effMss ≤ limit
  wnd : s.wnd = window
  seq : s.seq = s.nxt
  una : s.una < 2 ^ 32
  nxt : s.nxt < 2 ^ 32

/-- So does the connection, after it put on the wire no more than they allow. -/
structure Keeps (limit window : ℕ) (r : Conn × Option Segment) : Prop where
  within : Within limit window r.1.sender
  payload : ∀ segment, r.2 = some segment → segment.bytes.length ≤ limit

variable {c : Conn} {limit window : ℕ}

open Conn

theorem Within.quiet (h : Within limit window c.sender) : Keeps limit window (c, none) := ⟨h, nofun⟩

theorem Within.lower (h : Within limit window c.sender) (mss : ℕ) :
    Within limit window (c.lower mss).sender := by
  refine { h with mss := ?_ }
  rw [Conn.lower]
  have hmss := h.mss
  dsimp only
  split_ifs <;> omega

theorem Within.setWindow {s : Sender} (h : Within limit window s) {window' : ℕ}
    (hopen : window' ≠ 0) : Within limit window' (s.setWindow window') :=
  { h with wnd := if_neg hopen }

section

variable (h : Within limit window c.sender)
include h

theorem Within.retransmitLast :
    Keeps limit window c.retransmitLast := by
  have hmss := h.mss
  rw [Conn.retransmitLast]
  split_ifs
  · refine ⟨?_, fun segment hsegment => ?_⟩
    · change Within limit window c.sender.retransmitLast
      rw [Sender.retransmitLast]
      split_ifs
      · exact { h with }
      · exact h
    · cases hsegment
      exact (length_take_le _ _).trans ((Nat.min_le_right _ _).trans hmss)
  · exact h.quiet

theorem Within.control (dup : DupAck) (ssthresh cwnd : ℕ) :
    Within limit window (c.control dup ssthresh cwnd).sender :=
  { h with }

theorem Within.onKind {ack : ℕ} (hack : ack < 2 ^ 32)
    (hfull : c.sender.una < ack → mssLadder 0 ≤ limit) (dup : DupAck) (kind : AckKind) :
    Keeps limit window (c.onKind ack dup kind) := by
  have hprogress : Within limit window (if c.sender.una < ack then
      Sender.slide { c.sender with dup := dup } ack c.sender.dup.inRecovery
      else { c.sender with dup := dup }) := by
    split_ifs with hnew
    · exact { h with mss := hfull hnew, una := hack }
    · exact { h with }
  cases kind with
  | fastRetx =>
    rw [Conn.onKind, enterRecovery]
    exact (h.control dup _ _).retransmitLast
  | inRecovery => exact ⟨{ h with }, by rintro _ ⟨⟩⟩
  | _ => exact ⟨hprogress, by rintro _ ⟨⟩⟩

theorem Within.expire
    (hladder : mssLadder (c.sender.consecTmo + 1) ≤ limit) : Keeps limit window c.expire := by
  have hbacked : Within limit window c.sender.backOff := { h with mss := hladder }
  rw [Conn.expire]
  split_ifs with hlast
  · refine ⟨?_, by rintro _ ⟨⟩⟩
    rw [Sender.expire, if_pos hlast]
    exact { hbacked with }
  · exact Within.retransmitLast hbacked

theorem Within.transmit {bytes : List ByteMemory.Byte}
    (hlength : bytes.length ≤ c.sender.effMss) : Keeps limit window (c.transmit bytes) := by
  refine ⟨⟨h.mss, h.wnd, rfl, h.una, seq_lt _⟩, fun segment hsegment => ?_⟩
  cases hsegment
  exact hlength.trans h.mss

theorem Within.turn_busy {t : Turn} (hbusy : c.waits t = false) :
    Keeps limit window (c.turn t) := by
  rw [Conn.turn]
  split_ifs with hdone hchunk
  · exact h.quiet
  · apply h.transmit
    rw [length_take]
    exact (Nat.min_le_left _ _).trans (chunk_le _ _).2
  · rw [not_or] at hdone
    rw [waits, Sender.waits, Bool.eq_true_of_not_eq_false hdone.2,
      decide_eq_true (not_not.mp hchunk)] at hbusy
    exact absurd (List.isEmpty_iff.mp (by simpa using hbusy)) hdone.1

theorem Within.receive {window' ack : ℕ} (hopen : window' ≠ 0)
    (hack : ack < 2 ^ 32) (hfull : c.sender.una < ack → mssLadder 0 ≤ limit) (hasData rst : Bool)
    (blocks : List (ℕ × ℕ)) : Keeps limit window' (c.receive ack window' hasData rst blocks) := by
  have hset := h.setWindow hopen
  cases rst with
  | true => exact ⟨{ hset with }, nofun⟩
  | false =>
    rw [Conn.receive, if_neg Bool.false_ne_true]
    apply Within.onKind _ hack
    · exact hfull
    · exact hset

end

theorem chunk_room {s : Sender} {want : ℕ} (hchunk : s.chunk want ≠ 0) :
    minus s.nxt s.una + s.chunk want ≤ s.wnd := by
  rw [Sender.chunk, sendChunk] at hchunk ⊢
  split_ifs at hchunk ⊢ <;> omega

variable {p : Peer} {input : Input}

theorem Peer.step_keeps (h : Within p.limit p.advertised p.conn.sender) (hfits : p.Fits input) :
    Keeps p.limit (p.step input).1.advertised ((p.step input).1.conn, (p.step input).2) := by
  cases input with
  | seen window syn => exact ⟨(h.lower syn).setWindow hfits, nofun⟩
  | turn t =>
    change Keeps p.limit (p.window t) (p.conn.turn t)
    rw [Peer.window]
    cases hwaits : p.conn.waits t with
    | false => exact h.turn_busy hwaits
    | true =>
      have hfits := hfits hwaits
      rw [turn_of_waits hwaits]
      cases hevent : t.event with
      | timeout =>
        rw [hevent] at hfits
        exact h.expire hfits
      | segment ack window hasData rst =>
        rw [hevent] at hfits
        exact h.receive hfits.1 hfits.2.1 hfits.2.2 hasData rst t.blocks

theorem Peer.flight_le (h : Within p.limit p.advertised p.conn.sender) (hsends : p.Sends input) :
    minus (p.step input).1.conn.sender.nxt (p.step input).1.conn.sender.una ≤ p.advertised := by
  cases input with
  | seen window syn => exact hsends.elim
  | turn t =>
    obtain ⟨hrest, hopen, hchunk⟩ := hsends
    have hlength : (t.rest.take (p.conn.sender.chunk t.rest.length)).length =
        p.conn.sender.chunk t.rest.length := by
      rw [length_take, Nat.min_eq_left (chunk_le _ _).1]
    have hturn : (p.conn.turn t).1.sender =
        p.conn.sender.transmit (p.conn.sender.chunk t.rest.length) := by
      rw [Conn.turn, if_neg (not_or.mpr ⟨hrest, by simp [hopen]⟩), if_pos hchunk, Conn.transmit,
        hlength]
    change minus (p.conn.turn t).1.sender.nxt (p.conn.turn t).1.sender.una ≤ p.advertised
    rw [hturn, ← h.wnd]
    refine (minus_after_send h.nxt h.una _).trans' ?_ |>.trans (chunk_room hchunk)
    rw [← h.seq]
    exact Nat.le_refl _

theorem Handshake.Fits.within {h : Handshake} (hfits : h.Fits) :
    Within h.peer.limit h.peer.advertised h.peer.conn.sender := by
  obtain ⟨isn, window, mss, v6, passive, queued, sackOk⟩ := h
  obtain ⟨hisn, hwindow, hkept, hpassive, hv6⟩ := hfits
  dsimp only at hisn hwindow hkept hpassive hv6
  subst hkept
  have hkeeps : (if window = 0 ∨ false = true then tcpWindow else window) = window :=
    if_neg (not_or.mpr ⟨hwindow, Bool.false_ne_true⟩)
  cases passive with
  | true =>
    obtain ⟨rfl, hmss⟩ := hpassive rfl
    refine ⟨?_, hkeeps, rfl, hisn, hisn⟩
    change 1460 ≤ if mss = 0 then 1460 else min mss 1460
    split_ifs <;> omega
  | false =>
    refine ⟨?_, hkeeps, rfl, hisn, hisn⟩
    change (if mss ≠ 0 ∧ mss < 1460 then mss else 1460) ≤
      if mss = 0 then l3Mss v6 else min mss (l3Mss v6)
    cases v6 with
    | true =>
      have hbelow := hv6 rfl
      rw [l3Mss, if_pos rfl, if_neg hbelow.1]
      split_ifs <;> omega
    | false =>
      rw [l3Mss, if_neg Bool.false_ne_true]
      split_ifs <;> omega

def Peer.Step (before : Peer) (input : Input) (after : Peer) : Prop := (before.step input).1 = after

/-- In every run of inputs that fit, what goes out is within the limits of the peer. -/
theorem send_limits (h : Handshake) (hfits : h.Fits) (p : Peer)
    (hrun : Reaches (guarded Peer.Fits Peer.Step) h.peer p) (input : Input)
    (hinput : p.Fits input) : p.Obeys input := by
  have hwithin : Within p.limit p.advertised p.conn.sender := by
    apply hrun.invariant hfits.within
    rintro before input after hbefore ⟨hinput, rfl⟩
    have hkeeps := (Peer.step_keeps hbefore hinput).within
    cases input <;> exact hkeeps
  exact ⟨(Peer.step_keeps hwithin hinput).payload, Peer.flight_le hwithin⟩

/-- The peer takes segments of two bytes, and two of them. -/
def twoBytes : Handshake := ⟨4096, 2, 2, false, false, false, false⟩

/-- The same with full segments. -/
def fullSize : Handshake := { twoBytes with mss := 1460 }

/-- Two bytes are sent, and acknowledged while the third waits. -/
theorem send_limits_two : twoBytes.peer.Obeys (.turn ⟨[1, 2, 3], .timeout, []⟩) ∧
    ∃ p, Reaches (guarded Peer.Fits Peer.Step) fullSize.peer p ∧ p.conn.sender.una = 4098 ∧
      p.Obeys (.turn ⟨[3], .timeout, []⟩) := by
  constructor
  · exact send_limits twoBytes ⟨by decide, by decide, rfl, nofun, nofun⟩ _ (Reaches.refl _ _) _
      fun hwaits => absurd hwaits (by decide)
  · let sent := (fullSize.peer.step (.turn ⟨[1, 2, 3], .timeout, []⟩)).1
    have hsends : guarded Peer.Fits Peer.Step fullSize.peer (.turn ⟨[1, 2, 3], .timeout, []⟩) sent :=
      ⟨fun hwaits => absurd hwaits (by decide), rfl⟩
    have hwaits : guarded Peer.Fits Peer.Step sent
        (.turn ⟨[3], .segment 4098 10 false false, []⟩) _ :=
      ⟨fun _ => ⟨by decide, by decide, fun _ => by decide⟩, rfl⟩
    have hrun := ((Reaches.refl _ _).tail hsends).tail hwaits
    exact ⟨_, hrun, by decide +kernel, send_limits fullSize
      ⟨by decide, by decide, rfl, nofun, nofun⟩ _ hrun _ fun hwaits => absurd hwaits (by decide +kernel)⟩

/-- Two bytes were sent, and acknowledged with a window of ten. -/
def twoAcked : Peer :=
  [Input.turn ⟨[1, 2, 3], .timeout, []⟩, .turn ⟨[3], .segment 4098 10 false false, []⟩].foldl
    (fun p input => (p.step input).1) twoBytes.peer

/-- The third segment has three bytes; and three bytes are sent into a window of zero. -/
theorem limits_exceeded : Reaches Peer.Step twoBytes.peer twoAcked ∧
      ¬ twoAcked.Obeys (.turn ⟨[3, 4, 5], .timeout, []⟩) ∧
      ¬ (Handshake.peer ⟨4096, 0, 0, false, false, false, false⟩).Obeys
        (.turn ⟨[1, 2, 3], .timeout, []⟩) := by
  refine ⟨reaches_run _ _ _, fun h => ?_, fun h => ?_⟩
  · have hsent : (twoAcked.step (.turn ⟨[3, 4, 5], .timeout, []⟩)).2 = some ⟨4098, [3, 4, 5]⟩ := by
      decide +kernel
    exact absurd (h.payload _ hsent) (by decide +kernel)
  · exact absurd (h.flight ⟨nofun, rfl, by decide +kernel⟩) (by decide +kernel)

end AuraLite.TcpRetx

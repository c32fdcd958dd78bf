import AuraLite.Lib.BigEndian

/-!
# Frames and the lengths they declare

How a received frame is taken apart: the IPv4 or IPv6 header by `netl3.h`, then the TCP
segment by `tcp_recv_segment_timeout`.  The length of the packet, that of the IP header and
that of the TCP header are in the frame; the length of the frame itself is what was received.
-/

namespace AuraLite.NetL3

open List BigEndian

/-- `netl3_addr_t`. -/
structure Addr where
  v6 : Bool
  octets : List UInt8
deriving DecidableEq

/-- `netl3_pkt_t`; the frame is passed along beside it. -/
structure Pkt where
  src : Addr
  dst : Addr
  proto : ℕ
  l3HdrLen : ℕ
  l3Total : ℕ
  l4Off : ℕ
deriving DecidableEq

/-- The field of `width` bytes at a place of the frame. -/
def field (frame : List UInt8) (place width : ℕ) : ℕ := value ((frame.drop place).take width)

/-- The length of the IPv4 header in bytes. -/
def ihl (frame : List UInt8) : ℕ := field frame 14 1 % 16 * 4

/-- `netl3_v4_parse`. -/
def v4Parse (frame : List UInt8) : Option Pkt :=
  if frame.length < 34 ∨ field frame 12 2 ≠ 0x0800 ∨ field frame 14 1 / 16 ≠ 4 ∨
      ihl frame < 20 ∨ frame.length < 14 + ihl frame ∨ field frame 16 2 < ihl frame then none
  else some {
    src := ⟨false, (frame.drop 26).take 4⟩
    dst := ⟨false, (frame.drop 30).take 4⟩
    proto := field frame 23 1
    l3HdrLen := ihl frame
    l3Total := field frame 16 2
    l4Off := 14 + ihl frame }

/-- `netl3_v6_parse`: a short frame is accepted when it has room for a TCP header. -/
def v6Parse (frame : List UInt8) : Option Pkt :=
  if frame.length < 54 ∨ field frame 12 2 ≠ 0x86DD ∨ field frame 14 1 / 16 ≠ 6 ∨
      frame.length < 54 + field frame 18 2 ∧ frame.length < 74 then none
  else some {
    src := ⟨true, (frame.drop 22).take 16⟩
    dst := ⟨true, (frame.drop 38).take 16⟩
    proto := field frame 20 1
    l3HdrLen := 40
    l3Total := (40 + field frame 18 2) % 2 ^ 16
    l4Off := 54 }

/-- `netl3_input`, for a frame as the reassembly of fragments hands it on. -/
def input (frame : List UInt8) : Option Pkt :=
  if frame.length < 14 then none
  else if field frame 12 2 = 0x86DD then v6Parse frame
  else if field frame 12 2 ≠ 0x0800 then none
  else v4Parse frame

/-- What a connection knows of its peer. -/
structure Conn where
  peer : Addr
  dstPort : ℕ
  srcPort : ℕ
  sackOk : Bool

/-- `tcp_hdr_bytes`: the length of the TCP header. -/
def tcpHdrBytes (frame : List UInt8) (pkt : Pkt) : ℕ := field frame (pkt.l4Off + 12) 1 / 16 * 4

/-- The packet is a segment of the connection. -/
def Conn.Matches (c : Conn) (frame : List UInt8) (pkt : Pkt) : Prop :=
  pkt.proto = 6 ∧ pkt.src = c.peer ∧ pkt.l4Off + 20 ≤ frame.length ∧
    field frame pkt.l4Off 2 = c.dstPort ∧ field frame (pkt.l4Off + 2) 2 = c.srcPort ∧
    20 ≤ tcpHdrBytes frame pkt

/-- The options are looked at: those of a SYN, or selective acknowledgements. -/
def Conn.Looks (c : Conn) (frame : List UInt8) (pkt : Pkt) : Prop :=
  (field frame (pkt.l4Off + 13) 1).testBit 1 = true ∨ c.sackOk = true

instance (c : Conn) (frame : List UInt8) (pkt : Pkt) : Decidable (c.Matches frame pkt) :=
  inferInstanceAs (Decidable (_ ∧ _))

instance (c : Conn) (frame : List UInt8) (pkt : Pkt) : Decidable (c.Looks frame pkt) :=
  inferInstanceAs (Decidable (_ ∨ _))

/-- The places of the frame that options and payload are taken from. -/
structure Taken where
  options : List ℕ
  payload : List ℕ
deriving DecidableEq

/-- `tcp_recv_segment_timeout` on one frame, with room for `maxData` bytes of payload. -/
def recvSegment (c : Conn) (maxData : ℕ) (frame : List UInt8) : Option Taken :=
  (input frame).bind fun pkt =>
    if c.Matches frame pkt then some {
      options := if c.Looks frame pkt then
        range' (pkt.l4Off + 20) (tcpHdrBytes frame pkt - 20) else []
      payload := range' (pkt.l4Off + tcpHdrBytes frame pkt)
        (min (pkt.l3Total - pkt.l3HdrLen - tcpHdrBytes frame pkt) maxData) }
    else none

/-! ## Lengths -/

/-- The packet ends within the frame. -/
def Pkt.Received (pkt : Pkt) (frame : List UInt8) : Prop :=
  (pkt.l4Off : ℤ) + (pkt.l3Total - pkt.l3HdrLen) ≤ frame.length

/-- What a parser accepts was received, and so was all that is taken from a segment. -/
structure Describes (c : Conn) (maxData : ℕ) (frame : List UInt8) : Prop where
  packet : ∀ pkt, v4Parse frame = some pkt ∨ v6Parse frame = some pkt → pkt.Received frame
  segment : ∀ taken, recvSegment c maxData frame = some taken →
    ∀ place ∈ taken.options ++ taken.payload, place < frame.length

/-- The lengths that an accepted frame declares are not beyond its end; an IPv6 length that
wraps declares nothing, and that of the TCP header matters when there are options. -/
structure Fits (c : Conn) (frame : List UInt8) : Prop where
  v4 : (v4Parse frame).isSome = true → 14 + field frame 16 2 ≤ frame.length
  v6 : (v6Parse frame).isSome = true → field frame 18 2 < 2 ^ 16 - 40 →
    54 + field frame 18 2 ≤ frame.length
  options : ∀ pkt, input frame = some pkt → c.Matches frame pkt → c.Looks frame pkt →
    20 < tcpHdrBytes frame pkt → pkt.l4Off + tcpHdrBytes frame pkt ≤ frame.length

variable {c : Conn} {maxData : ℕ} {frame : List UInt8} {pkt : Pkt}

theorem v4Parse_received (h : v4Parse frame = some pkt) :
    pkt.Received frame ↔ 14 + field frame 16 2 ≤ frame.length := by
  rw [v4Parse] at h
  split_ifs at h with hbad
  cases h
  simp only [Pkt.Received]
  omega

theorem field_lt (frame : List UInt8) (place width : ℕ) : field frame place width < 256 ^ width :=
  (value_lt _).trans_le (Nat.pow_le_pow_right (by norm_num) (length_take_le _ _))

theorem v6Parse_received (h : v6Parse frame = some pkt) : pkt.Received frame ↔
      (field frame 18 2 < 2 ^ 16 - 40 → 54 + field frame 18 2 ≤ frame.length) := by
  have hlt := field_lt frame 18 2
  rw [v6Parse] at h
  split_ifs at h with hbad
  cases h
  simp only [Pkt.Received]
  omega

theorem input_accepts (h : input frame = some pkt) :
    v4Parse frame = some pkt ∨ v6Parse frame = some pkt := by
  rw [input] at h
  split_ifs at h
  · exact .inr h
  · exact .inl h

/-- Accepted frames describe what was received exactly when no length that they declare goes
beyond their end. -/
theorem frames_describe_iff (c : Conn) (maxData : ℕ) (frame : List UInt8) :
    Describes c maxData frame ↔ Fits c frame := by
  constructor
  · rintro ⟨hpacket, hsegment⟩
    refine ⟨fun hsome => ?_, fun hsome => ?_, fun pkt hinput hmatch hlooks hlong => ?_⟩
    · obtain ⟨pkt, hpkt⟩ := Option.isSome_iff_exists.mp hsome
      exact (v4Parse_received hpkt).mp (hpacket pkt (.inl hpkt))
    · obtain ⟨pkt, hpkt⟩ := Option.isSome_iff_exists.mp hsome
      exact (v6Parse_received hpkt).mp (hpacket pkt (.inr hpkt))
    · rw [recvSegment, hinput, Option.bind_some, if_pos hmatch, if_pos hlooks] at hsegment
      -- The last byte of the header is an option.
      have hlast := hsegment _ rfl (pkt.l4Off + tcpHdrBytes frame pkt - 1)
        (mem_append_left _ (mem_range'_1.mpr (by omega)))
      omega
  · rintro ⟨h4, h6, hoptions⟩
    have hpacket : ∀ pkt, v4Parse frame = some pkt ∨ v6Parse frame = some pkt →
        pkt.Received frame := by
      rintro pkt (hpkt | hpkt)
      · exact (v4Parse_received hpkt).mpr (h4 (Option.isSome_iff_exists.mpr ⟨pkt, hpkt⟩))
      · exact (v6Parse_received hpkt).mpr (h6 (Option.isSome_iff_exists.mpr ⟨pkt, hpkt⟩))
    refine ⟨hpacket, fun taken htaken place hplace => ?_⟩
    obtain ⟨pkt, hinput, htaken⟩ := Option.bind_eq_some_iff.mp htaken
    obtain ⟨hmatch, htaken⟩ := Option.ite_none_right_eq_some.mp htaken
    cases htaken
    rcases mem_append.mp hplace with hplace | hplace
    · obtain ⟨hlooks, hplace⟩ := mem_ite_nil_right.mp hplace
      have hin := mem_range'_1.mp hplace
      have hend := hoptions pkt hinput hmatch hlooks (by omega)
      omega
    · have hin := mem_range'_1.mp hplace
      have hle := hpacket pkt (input_accepts hinput)
      rw [Pkt.Received] at hle
      omega

/-- An IPv4 header of a packet with `total` bytes, and the TCP header behind it. -/
def sample (total dataOffset : UInt8) : List UInt8 :=
  replicate 12 0 ++ [8, 0, 0x45, 0, 0, total, 0, 0, 0, 0, 64, 6, 0, 0, 10, 0, 2, 2, 10, 0,
    2, 15, 0, 80, 0x9c, 0x40, 0, 0, 0, 0, 0, 0, 0, 0, dataOffset, 0x12, 0, 0, 0, 0, 0, 0]

/-- A connection to port 80 of the host that the frame comes from. -/
def sampleConn : Conn := ⟨⟨false, [10, 0, 2, 2]⟩, 80, 40000, false⟩

/-- 54 bytes that declare 200, of which 160 are copied as payload; and 54 bytes that declare
54, with a TCP header of 60 bytes. -/
theorem frames_declare_more : ¬ Describes sampleConn 1600 (sample 200 0x50) ∧
      recvSegment sampleConn 1600 (sample 200 0x50) = some ⟨[], range' 54 160⟩ ∧
      ¬ Describes sampleConn 1600 (sample 40 0xf0) ∧
      recvSegment sampleConn 1600 (sample 40 0xf0) = some ⟨range' 54 40, []⟩ ∧
      (sample 200 0x50).length = 54 ∧ (sample 40 0xf0).length = 54 := by
  have hlong : recvSegment sampleConn 1600 (sample 200 0x50) = some ⟨[], range' 54 160⟩ := by
    decide +kernel
  have hheader : recvSegment sampleConn 1600 (sample 40 0xf0) = some ⟨range' 54 40, []⟩ := by
    decide +kernel
  refine ⟨fun h => ?_, hlong, fun h => ?_, hheader, rfl, rfl⟩
  · exact absurd (h.segment _ hlong 54 (by decide)) (by decide)
  · exact absurd (h.segment _ hheader 54 (by decide)) (by decide)

end AuraLite.NetL3

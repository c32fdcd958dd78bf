import Mathlib.Data.Nat.Notation
import AuraLite.Lib.Reachability

/-!
# The bytes of an HTTP connection

`ahttp.c` keeps one connection open between requests, with two buffers in it: `rbuf`, from
which the TLS layer is fed, and the buffer of the reader, from which the response is parsed.
A byte is kept together with the connection it was received on, and a byte that is consumed
is logged with the connection it is consumed for.  What the TLS layer asks for, how much the
parser takes and what the peer sends is left open.
-/

namespace AuraLite.Http

open Reachability

abbrev Bytes := List UInt8

/-- A byte and the connection it was received on. -/
structure Tagged where
  origin : ℕ
  byte : UInt8
  deriving DecidableEq

/-! ## Buffers -/

/-- The first bytes of a buffer, as many as are valid, and the offset of the next one. -/
structure Buffer where
  bytes : List Tagged
  off : ℕ

def Buffer.rest (b : Buffer) : List Tagged := b.bytes.drop b.off

/-- At most `n` of the bytes that are left. -/
def Buffer.take (b : Buffer) (n : ℕ) : List Tagged × Buffer :=
  (b.rest.take n, { b with off := b.off + min n b.rest.length })

/-- What `recv` stores in a buffer of 4096 bytes. -/
def received (conn : ℕ) (answer : Bytes) : Buffer :=
  ⟨(answer.take 4096).map fun byte => ⟨conn, byte⟩, 0⟩

/-- `tls_recv_cb` with room for `call.1` bytes.  `call.2` is what `recv` has to give; it is
empty at the end of the stream and after an error. -/
def tlsRecvCb (conn : ℕ) (b : Buffer) (call : ℕ × Bytes) : List Tagged × Buffer :=
  if b.off ≥ b.bytes.length ∧ call.2 ≠ [] then (received conn call.2).take call.1
  else b.take call.1

/-- The calls the TLS layer makes for one handshake or one read. -/
def tlsRecvCbs (conn : ℕ) : Buffer → List (ℕ × Bytes) → List Tagged × Buffer
  | b, [] => ([], b)
  | b, call :: calls =>
    let first := tlsRecvCb conn b call
    let others := tlsRecvCbs conn first.2 calls
    (first.1 ++ others.1, others.2)

/-- What is left in the buffer came from one connection. -/
def Buffer.From (b : Buffer) (conn : ℕ) : Prop := ∀ x ∈ b.rest, x.origin = conn

theorem Buffer.From.take {b : Buffer} {conn : ℕ} (h : b.From conn) (n : ℕ) :
    (∀ x ∈ (b.take n).1, x.origin = conn) ∧ (b.take n).2.From conn := by
  refine ⟨fun x hx => h x (List.mem_of_mem_take hx), fun x hx => h x ?_⟩
  have hdrop : (b.take n).2.rest = b.rest.drop (min n b.rest.length) := by
    simp [Buffer.take, Buffer.rest, List.drop_drop]
  rw [hdrop] at hx
  exact List.mem_of_mem_drop hx

theorem received_from (conn : ℕ) (answer : Bytes) : (received conn answer).From conn := by
  intro x hx
  obtain ⟨byte, -, rfl⟩ := List.mem_map.mp hx
  rfl

theorem tlsRecvCb_from {b : Buffer} {conn : ℕ} (h : b.From conn) (call : ℕ × Bytes) :
    (∀ x ∈ (tlsRecvCb conn b call).1, x.origin = conn) ∧ (tlsRecvCb conn b call).2.From conn := by
  rw [tlsRecvCb]
  split
  · exact (received_from conn call.2).take call.1
  · exact h.take call.1

theorem tlsRecvCbs_from {b : Buffer} {conn : ℕ} (h : b.From conn) (calls : List (ℕ × Bytes)) :
    (∀ x ∈ (tlsRecvCbs conn b calls).1, x.origin = conn) ∧
      (tlsRecvCbs conn b calls).2.From conn := by
  induction calls generalizing b with
  | nil => exact ⟨nofun, h⟩
  | cons call calls ih =>
    obtain ⟨hfirst, hbuffer⟩ := tlsRecvCb_from h call
    obtain ⟨hothers, hlast⟩ := ih hbuffer
    refine ⟨fun x hx => ?_, hlast⟩
    exact (List.mem_append.mp hx).elim (hfirst x) (hothers x)

/-! ## The client -/

/-- `scheme`, `host` and `port` of a URL. -/
structure Target where
  https : Bool
  host : Bytes
  port : ℕ
  deriving DecidableEq

/-- `transport`.  `conn` is the connection `fd` stands for, counted from one, and zero for -1. -/
structure Transport where
  conn : ℕ
  isTls : Bool
  /-- `tls` is not null. -/
  tls : Bool
  rbuf : Buffer

/-- Where `client_exchange` stands. -/
inductive Phase where
  | idle
  /-- It is about to call `transport_connect`. -/
  | opening (target : Target)
  /-- It sends the request and reads the response; a request that is safe is tried again when
  a reused connection fails. -/
  | exchanging (reused safe : Bool)
  deriving DecidableEq

/-- `ahttp_client`, with the number of connections made and the log of consumed bytes. -/
structure Client where
  t : Transport
  rd : Buffer
  target : Target
  connOpen : Bool
  phase : Phase
  made : ℕ
  consumed : List (ℕ × Tagged)

/-- `ahttp_client_new`. -/
def Client.new : Client where
  t := ⟨0, false, false, ⟨[], 0⟩⟩
  rd := ⟨[], 0⟩
  target := ⟨false, [], 0⟩
  connOpen := false
  phase := .idle
  made := 0
  consumed := []

/-- Bytes are consumed for the current connection. -/
def Client.consume (c : Client) (bytes : List Tagged) : Client :=
  { c with consumed := c.consumed ++ bytes.map (c.t.conn, ·) }

/-- The TLS layer asks for bytes. -/
def Client.feedTls (c : Client) (calls : List (ℕ × Bytes)) : Client :=
  let result := tlsRecvCbs c.t.conn c.t.rbuf calls
  { c with t := { c.t with rbuf := result.2 } }.consume result.1

/-- How `transport_connect` goes. -/
inductive Dial where
  /-- The name has no address. -/
  | unresolved
  /-- No address answers. -/
  | refused
  /-- There is a connection; for `https` the calls of the handshake and its result follow. -/
  | connected (calls : List (ℕ × Bytes)) (trusted : Bool)

/-- The new connection is kept, with a fresh reader. -/
def Client.keep (c : Client) (target : Target) : Client :=
  { c with target := target, rd := ⟨[], 0⟩, connOpen := true, phase := .exchanging false false }

/-- The descriptor of a new connection.  What is left in `rbuf` stays there. -/
def Client.openSocket (c : Client) (https : Bool) : Client :=
  { c with t := { c.t with conn := c.made + 1, isTls := https, tls := https }, made := c.made + 1 }

/-- `transport_connect` and what `client_exchange` does with its result. -/
def Client.connect (c : Client) (target : Target) : Dial → Client
  | .unresolved =>
    { c with t := { c.t with isTls := target.https, tls := false }, phase := .idle }
  | .refused =>
    { c with t := { c.t with conn := 0, isTls := target.https, tls := false }, phase := .idle }
  | .connected calls trusted =>
    let c := c.openSocket target.https
    if target.https then
      let c := c.feedTls calls
      if trusted then c.keep target
      else { c with t := { c.t with tls := false }, phase := .idle }
    else c.keep target

/-- `client_conn_drop`, then `phase`. -/
def Client.drop (c : Client) (phase : Phase) : Client :=
  if c.connOpen then
    { c with t := { c.t with conn := 0, tls := false }, connOpen := false, phase := phase }
  else { c with phase := phase }

/-- `reader_fill`.  A read of the TLS layer makes `calls` and gives `answer`; without TLS the
answer is that of `recv`. -/
def Client.fill (c : Client) (calls : List (ℕ × Bytes)) (answer : Bytes) : Client :=
  if c.rd.off < c.rd.bytes.length then c
  else
    let c := if c.t.isTls && c.t.tls then c.feedTls calls else c
    if answer = [] then c else { c with rd := received c.t.conn answer }

/-- The parser takes bytes of the reader. -/
def Client.parse (c : Client) (n : ℕ) : Client :=
  { c with rd := (c.rd.take n).2 }.consume (c.rd.take n).1

/-- How an exchange ends: the connection is kept or closed, or it broke before the response
was read. -/
inductive Outcome where
  | keep
  | close
  | broken
  deriving DecidableEq

/-- The end of `client_exchange`: after a failure a safe request on a reused connection is tried
again. -/
def Client.finish (c : Client) (reused safe : Bool) : Outcome → Client
  | .keep => { c with phase := .idle }
  | .close => c.drop .idle
  | .broken => c.drop (if reused && safe then .opening c.target else .idle)

inductive Event where
  /-- `client_exchange` is called; a redirect makes such a call as well. -/
  | request (target : Target) (safe : Bool)
  | dial (dial : Dial)
  | fill (calls : List (ℕ × Bytes)) (answer : Bytes)
  | parse (n : ℕ)
  | finish (outcome : Outcome)

def Client.step (c : Client) : Event → Client
  | .request target safe =>
    if c.phase ≠ .idle then c
    else if c.connOpen ∧ c.target = target then { c with phase := .exchanging true safe }
    else c.drop (.opening target)
  | .dial dial =>
    match c.phase with
    | .opening target => c.connect target dial
    | _ => c
  | .fill calls answer =>
    match c.phase with
    | .exchanging _ _ => c.fill calls answer
    | _ => c
  | .parse n =>
    match c.phase with
    | .exchanging _ _ => c.parse n
    | _ => c
  | .finish outcome =>
    match c.phase with
    | .exchanging reused safe => c.finish reused safe outcome
    | _ => c

def Client.Step (c : Client) (event : Event) (c' : Client) : Prop := c.step event = c'

/-! ## Whose bytes are consumed -/

/-- Every byte was consumed for the connection it was received on. -/
def Client.OwnBytes (c : Client) : Prop := ∀ entry ∈ c.consumed, entry.1 = entry.2.origin

/-- The invariant: while a connection is open, both buffers hold bytes of it. -/
structure Client.Clean (c : Client) : Prop where
  own : c.OwnBytes
  reader : c.connOpen = true → c.rd.From c.t.conn
  rbuf : c.connOpen = true → c.t.isTls = true → c.t.rbuf.From c.t.conn
  opening : ∀ target, c.phase = .opening target → c.connOpen = false
  exchanging : ∀ reused safe, c.phase = .exchanging reused safe → c.connOpen = true

/-- The connection to be made is one for `https`. -/
def Phase.opensTls : Phase → Bool
  | .opening target => target.https
  | _ => false

/-- An `https` connection is made only when `rbuf` has been used up. -/
def Client.Fits (c : Client) : Event → Prop
  | .dial (.connected _ _) => c.phase.opensTls = true → c.t.rbuf.bytes.length ≤ c.t.rbuf.off
  | _ => True

instance (c : Client) (event : Event) : Decidable (c.Fits event) := by
  unfold Client.Fits
  split <;> infer_instance

theorem Client.OwnBytes.consume {c : Client} (h : c.OwnBytes) {bytes : List Tagged}
    (hbytes : ∀ x ∈ bytes, x.origin = c.t.conn) : (c.consume bytes).OwnBytes := by
  intro entry hentry
  rcases List.mem_append.mp hentry with hold | hnew
  · exact h entry hold
  · obtain ⟨x, hx, rfl⟩ := List.mem_map.mp hnew
    exact (hbytes x hx).symm

theorem Client.OwnBytes.feedTls {c : Client} (h : c.OwnBytes) (hrbuf : c.t.rbuf.From c.t.conn)
    (calls : List (ℕ × Bytes)) :
    (c.feedTls calls).OwnBytes ∧ (c.feedTls calls).t.rbuf.From c.t.conn := by
  obtain ⟨hbytes, hrest⟩ := tlsRecvCbs_from hrbuf calls
  exact ⟨.consume (c := { c with t := { c.t with rbuf := _ } }) h hbytes, hrest⟩

section Steps

variable {c : Client} (h : c.Clean)

include h

theorem Client.Clean.drop {phase : Phase}
    (hphase : ∀ reused safe, phase ≠ .exchanging reused safe) : (c.drop phase).Clean := by
  rw [Client.drop]
  split
  · exact ⟨h.own, nofun, nofun, fun _ _ => rfl, fun _ _ heq => absurd heq (hphase _ _)⟩
  · next hclosed =>
      exact ⟨h.own, h.reader, h.rbuf, fun _ _ => Bool.eq_false_iff.mpr hclosed,
        fun _ _ heq => absurd heq (hphase _ _)⟩

/-- A connection is made with an empty `rbuf`, or without TLS. -/
theorem Client.Clean.connect {target : Target} (hphase : c.phase = .opening target)
    {dial : Dial} (hfits : c.Fits (.dial dial)) : (c.connect target dial).Clean := by
  have hclosed := h.opening target hphase
  cases dial with
  | unresolved => exact ⟨h.own, h.reader, by simp [hclosed, Client.connect], nofun, nofun⟩
  | refused =>
    exact ⟨h.own, by simp [hclosed, Client.connect], by simp [hclosed, Client.connect], nofun,
      nofun⟩
  | connected calls trusted =>
    rw [Client.connect]
    dsimp only
    have hreader : (⟨[], 0⟩ : Buffer).From (c.made + 1) := nofun
    by_cases hhttps : target.https = true
    · have hempty : (c.openSocket target.https).t.rbuf.From (c.made + 1) := by
        intro x hx
        have hnil : c.t.rbuf.rest = [] :=
          List.drop_eq_nil_of_le (hfits (by rw [hphase]; exact hhttps))
        exact absurd (hnil ▸ hx) List.not_mem_nil
      obtain ⟨hown, hrbuf⟩ :=
        Client.OwnBytes.feedTls (c := c.openSocket target.https) h.own hempty calls
      rw [if_pos hhttps]
      split
      · exact ⟨hown, fun _ => hreader, fun _ _ => hrbuf, nofun, fun _ _ _ => rfl⟩
      · have hstill : ((c.openSocket target.https).feedTls calls).connOpen = false := hclosed
        exact ⟨hown, by simp [hstill], by simp [hstill], nofun, nofun⟩
    · rw [if_neg hhttps]
      exact ⟨h.own, fun _ => hreader, fun _ htls => absurd htls hhttps, nofun, fun _ _ _ => rfl⟩

theorem Client.Clean.fill (hopen : c.connOpen = true) (calls : List (ℕ × Bytes))
    (answer : Bytes) : (c.fill calls answer).Clean := by
  rw [Client.fill]
  split
  · exact h
  have hfed : (if c.t.isTls && c.t.tls then c.feedTls calls else c).Clean := by
    split
    · next htls =>
        obtain ⟨hown, hrbuf⟩ := h.own.feedTls (h.rbuf hopen (Bool.and_eq_true_iff.mp htls).1) calls
        exact { h with own := hown, rbuf := fun _ _ => hrbuf }
    · exact h
  dsimp only
  split
  · exact hfed
  · exact { hfed with reader := fun _ => received_from _ _ }

theorem Client.Clean.parse (hopen : c.connOpen = true) (n : ℕ) : (c.parse n).Clean := by
  obtain ⟨hbytes, hrest⟩ := (h.reader hopen).take n
  exact { h with
    own := .consume (c := { c with rd := _ }) h.own hbytes
    reader := fun _ => hrest }

theorem Client.Clean.finish (reused safe : Bool) (outcome : Outcome) :
    (c.finish reused safe outcome).Clean := by
  cases outcome with
  | keep => exact ⟨h.own, h.reader, h.rbuf, nofun, nofun⟩
  | close => exact h.drop nofun
  | broken =>
    apply h.drop
    cases reused <;> cases safe <;> nofun

theorem Client.Clean.step {event : Event} (hfits : c.Fits event) : (c.step event).Clean := by
  cases event with
  | request target safe =>
    rw [Client.step]
    split
    · exact h
    split
    · next hreuse => exact ⟨h.own, h.reader, h.rbuf, nofun, fun _ _ _ => hreuse.1⟩
    · exact h.drop nofun
  | dial dial =>
    rw [Client.step]
    split
    · next target hphase => exact h.connect hphase hfits
    · exact h
  | fill calls answer =>
    rw [Client.step]
    split
    · next hphase => exact h.fill (h.exchanging _ _ hphase) calls answer
    · exact h
  | parse n =>
    rw [Client.step]
    split
    · next hphase => exact h.parse (h.exchanging _ _ hphase) n
    · exact h
  | finish outcome =>
    rw [Client.step]
    split
    · exact h.finish _ _ outcome
    · exact h

end Steps

theorem Client.clean_new : Client.new.Clean := ⟨nofun, nofun, nofun, nofun, nofun⟩

/-- As long as `https` connections are made with an empty `rbuf`, every byte that the TLS layer
or the parser takes was received on the connection it is taken for. -/
theorem connections_read_own_bytes {c : Client}
    (hrun : Reaches (guarded Client.Fits Client.Step) Client.new c) : c.OwnBytes := by
  have hclean : c.Clean :=
    hrun.kept Client.clean_new fun hbefore hfits => hbefore.step hfits
  exact hclean.own

/-- One exchange with an `https` server: the handshake reads one record, and the response comes
in one record, followed by what else is in the segment. -/
def httpsExchange (more : Bytes) (outcome : Outcome) : List Event :=
  [.request ⟨true, [97], 443⟩ true, .dial (.connected [(5, [22, 3, 3, 0, 1, 2]), (1, [])] true),
    .fill [(5, [23, 3, 3, 0, 1, 7] ++ more), (1, [])] [72], .parse 1, .finish outcome]

theorem connections_read_own_bytes_twice :
    ((httpsExchange [] .close ++ httpsExchange [] .keep).foldl
      Client.step Client.new).OwnBytes :=
  connections_read_own_bytes (reaches_foldl (by decide +kernel))

/-- The server sends `close_notify` in the segment of its last record: the alert is left in
`rbuf`, and the handshake of the next connection starts with it. -/
theorem alert_left_for_next_connection :
    ∃ c, Reaches Client.Step Client.new c ∧ (2, ⟨1, 21⟩) ∈ c.consumed ∧ ¬ c.OwnBytes := by
  refine ⟨_, reaches_run Client.step
    (httpsExchange [21, 3, 3, 0, 2, 1, 0] .close ++ httpsExchange [] .keep) Client.new, ?_⟩
  have hmem : ((2, ⟨1, 21⟩) : ℕ × Tagged) ∈
      ((httpsExchange [21, 3, 3, 0, 2, 1, 0] .close ++ httpsExchange [] .keep).foldl
        Client.step Client.new).consumed := by
    decide +kernel
  exact ⟨hmem, fun hown => absurd (hown _ hmem) (by decide)⟩

end AuraLite.Http

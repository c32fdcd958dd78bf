import AuraLite.Net.TcpReceive

/-!
# Handles that share the receive stash

The connections of `tcp.c` are kept per handle, while `rx_stash` is one buffer for all of
them: `tcp_recv_h` serves it first whatever the handle, and `tcp_open_addr`, `tcp_accept`
and `tcp_close_h` empty it.
-/

namespace AuraLite.Tcp

open List SeqArith Reachability
open Function (update update_self update_of_ne)

variable {α : Type}

/-- The part of `tcp_conn_t` that concerns receiving. -/
structure Slot (α : Type) where
  inUse : Bool
  conn : Conn α

/-- The connection table and the stash.  Kept for the statements only: the handle on
which the stash was filled, and for each handle what was acknowledged and returned. -/
structure Table (α : Type) where
  slots : ℕ → Slot α
  stash : List α
  owner : ℕ
  acked : ℕ → List α
  returned : ℕ → List α

/-- `TCP_MAX_CONNS`. -/
def maxConns : ℕ := 16

/-- `handle_valid`. -/
def Table.valid (t : Table α) (h : ℕ) : Bool := decide (h < maxConns) && (t.slots h).inUse

/-- The slots in TIME_WAIT whose time is over become free. -/
def Table.retire (t : Table α) (expired : ℕ → Bool) : Table α :=
  { t with slots := fun h =>
      if (t.slots h).inUse ∧ (t.slots h).conn.state = .timeWait ∧ expired h then
        { t.slots h with inUse := false }
      else t.slots h }

/-- `alloc_handle`: the first free slot. -/
def Table.alloc (t : Table α) : Option ℕ :=
  (List.range maxConns).find? fun h => !(t.slots h).inUse

/-- A new life of a handle. -/
def Table.renew (t : Table α) (h : ℕ) (slot : Slot α) : Table α :=
  { t with
    slots := update t.slots h slot
    acked := update t.acked h []
    returned := update t.returned h [] }

/-- A connection after the handshake. -/
def connected (isn port : ℕ) : Slot α :=
  ⟨true, ⟨.established, seq (isn + 1), tcpWindow, none, port⟩⟩

def unused : Slot α := ⟨false, ⟨.closed, 0, 0, none, 0⟩⟩

/-- What becomes of an active open. -/
inductive Opening
  | unreachable
  | failed
  | connected (isn port : ℕ)

inductive Call (α : Type)
  | recv (h bufsize : ℕ) (packets : List (Packet α))
  /-- `reset` tells whether a RST comes in while the call waits. -/
  | send (h : ℕ) (reset : Bool)
  | openAddr (expired : ℕ → Bool) (result : Opening)
  /-- The initial sequence number and the port of a peer, unless the wait times out. -/
  | accept (h : ℕ) (expired : ℕ → Bool) (syn : Option (ℕ × ℕ))
  | close (h : ℕ)

def Table.setConn (t : Table α) (h : ℕ) (conn : Conn α) : ℕ → Slot α :=
  update t.slots h ⟨(t.slots h).inUse, conn⟩

/-- `tcp_recv_h`. -/
def Table.recv [NatCast α] (t : Table α) (h bufsize : ℕ) (packets : List (Packet α)) : Table α :=
  if t.valid h = false then t
  else
    let result := tcpRecv bufsize packets (t.slots h).conn t.stash
    { slots := t.setConn h result.conn
      stash := result.stash
      owner := if t.stash = [] then h else t.owner
      acked := update t.acked h (t.acked h ++ result.acked)
      returned := update t.returned h
        (t.returned h ++ result.reply.toOption.getD []) }

/-- `tcp_send_h`, which drops the data of the segments it reads. -/
def Table.send (t : Table α) (h : ℕ) (reset : Bool) : Table α :=
  if t.valid h = false ∨ (t.slots h).conn.state ≠ .established ∨ reset = false then t
  else { t with slots := t.setConn h { (t.slots h).conn with state := .closed } }

/-- `tcp_open_addr`. -/
def Table.openAddr (t : Table α) (expired : ℕ → Bool) (result : Opening) : Table α :=
  let t := t.retire expired
  match t.alloc with
  | none => t
  | some h =>
    match result with
    | .unreachable => t.renew h unused
    | .failed => { t.renew h unused with stash := [] }
    | .connected isn port => { t.renew h (Tcp.connected isn port) with stash := [] }

/-- `tcp_accept`. -/
def Table.accept (t : Table α) (h : ℕ) (expired : ℕ → Bool) (syn : Option (ℕ × ℕ)) : Table α :=
  if t.valid h = false ∨ (t.slots h).conn.state ≠ .listen then t
  else
    match syn with
    | none => t
    | some (isn, port) =>
      let t := t.retire expired
      match t.alloc with
      | none => t
      | some h' => { t.renew h' (Tcp.connected isn port) with stash := [] }

/-- `tcp_close_h`. -/
def Table.close (t : Table α) (h : ℕ) : Table α :=
  if t.valid h = false then t
  else { t.renew h unused with stash := [] }

def Table.call [NatCast α] (t : Table α) : Call α → Table α
  | .recv h bufsize packets => t.recv h bufsize packets
  | .send h reset => t.send h reset
  | .openAddr expired result => t.openAddr expired result
  | .accept h expired syn => t.accept h expired syn
  | .close h => t.close h

/-- What is in the stash for a handle. -/
def Table.held (t : Table α) (h : ℕ) : List α := if t.owner = h then t.stash else []

/-- The stash is empty, or it was filled on the handle of the call. -/
def Call.Fits (t : Table α) : Call α → Prop
  | .recv h _ _ => t.stash = [] ∨ t.owner = h
  | .send _ _ => True
  | .openAddr _ _ => t.stash = []
  | .accept _ _ _ => t.stash = []
  | .close h => t.stash = [] ∨ t.owner = h

/-! ## Conservation in one call -/

def Conn.Small (c : Conn α) : Prop := ∀ g, c.gap = some g → g.data.length ≤ oooCap

/-- The bytes that a result hands out and keeps are those there were before and those
that it has acknowledged. -/
structure Result.Conserves (stash : List α) (result : Result α) : Prop where
  bytes : result.reply.toOption.getD [] ++ result.stash = stash ++ result.acked
  small : result.conn.Small

variable {c : Conn α}

open Table

theorem Conn.Small.due (h : c.Small) : c.due.length ≤ oooCap := by
  rw [Conn.due]
  cases hgap : c.gap with
  | none => exact Nat.zero_le _
  | some g =>
    simp only
    split_ifs
    · exact h g hgap
    · exact Nat.zero_le _

theorem Conn.Small.drain (h : c.Small) : c.drain.Small := by
  rw [Conn.drain]
  cases hgap : c.gap with
  | none => exact h
  | some g =>
    simp only
    split_ifs
    · rintro _ ⟨⟩
    · exact h

theorem Conn.Small.refuse (h : c.Small) (p : Packet α) : (c.refuse p).Small := by
  rw [Conn.refuse]
  split_ifs
  · rw [Conn.hold]
    split_ifs with hhold
    · intro g hg
      cases hg
      exact hhold.2.2
    · exact h
  · exact h

theorem Conn.sequenced_length {p : Packet α} {payload : List α}
    (hpayload : c.sequenced p = some payload) : payload.length ≤ p.data.length := by
  rw [Conn.sequenced] at hpayload
  split at hpayload
  · cases hpayload
    rw [length_drop]
    exact Nat.sub_le _ _
  · cases hpayload
    exact Nat.le_refl _
  · cases hpayload

theorem accept_conserves (h : c.Small) {payload : List α} (hpayload : payload.length ≤ stageSize)
    (bufsize : ℕ) (fin : Bool) : (accept bufsize payload fin c []).Conserves [] := by
  have htaken : ({ c with
      ack := seq (c.ack + (payload.length + fin.toNat))
      state := if fin then c.state.onFin else c.state } : Conn α).Small := h
  exact ⟨deliver_foldIn bufsize hpayload htaken.due, htaken.drain⟩

theorem receiveLoop_conserves [NatCast α] (bufsize : ℕ) (packets : List (Packet α))
    (hpackets : ∀ p ∈ packets, p.data.length ≤ stageSize) (h : c.Small) :
    (receiveLoop bufsize packets c []).Conserves [] := by
  induction packets generalizing c with
  | nil =>
    rw [receiveLoop]
    split_ifs
    · apply accept_conserves h
      rw [length_map]
      decide +kernel
    · exact ⟨rfl, h⟩
  | cons p rest ih =>
    have hrest : ∀ other ∈ rest, other.data.length ≤ stageSize := fun other hother =>
      hpackets other (mem_cons_of_mem p hother)
    rw [receiveLoop]
    split_ifs
    · exact ⟨rfl, by rintro _ ⟨⟩⟩
    · cases hpayload : c.sequenced p with
      | none => exact ih hrest (h.refuse p)
      | some payload =>
        simp only
        split_ifs
        · exact ih hrest h
        · apply accept_conserves h
          exact Nat.le_trans (Conn.sequenced_length hpayload) (hpackets p mem_cons_self)

theorem tcpRecv_conserves [NatCast α] (h : c.Small) (bufsize : ℕ) (packets : List (Packet α))
    (stash : List α) : (tcpRecv bufsize packets c stash).Conserves stash := by
  rw [tcpRecv]
  split_ifs with hstate hstash
  · exact ⟨(append_nil stash).symm, h⟩
  · refine ⟨?_, h⟩
    change stash.take bufsize ++ stash.drop bufsize = stash ++ []
    rw [take_append_drop, append_nil]
  · rw [not_not.mp hstash]
    apply receiveLoop_conserves bufsize _ _ h
    intro p hp
    obtain ⟨whole, -, rfl⟩ := List.mem_map.mp hp
    exact length_take_le _ _

/-! ## Conservation in runs -/

/-- What was acknowledged on a handle was returned on it, or is in the stash for it. -/
structure Table.Sound (t : Table α) : Prop where
  small : ∀ h, (t.slots h).conn.Small
  bytes : ∀ h, t.acked h = t.returned h ++ t.held h

variable {t : Table α}
variable {h : ℕ} {t' : Table α} {payload : List α}

theorem held_of_empty (hstash : t.stash = []) (h : ℕ) : t.held h = [] := by
  rw [held, hstash, ite_self]

/-- The stash is for the handle of a call that fits. -/
theorem held_of_fits (hfits : t.stash = [] ∨ t.owner = h) : t.held h = t.stash := by
  rcases hfits with hstash | howner
  · rw [held_of_empty hstash, hstash]
  · rw [held, if_pos howner]

variable {k : ℕ}

theorem held_of_fits_ne (hfits : t.stash = [] ∨ t.owner = h) (hne : h ≠ k) : t.held k = [] := by
  rcases hfits with hstash | howner
  · exact held_of_empty hstash k
  · rw [held, if_neg (howner ▸ hne)]

theorem setConn_small (h : t.Sound) (k : ℕ) {conn : Conn α} (hconn : conn.Small) (k' : ℕ) :
    (t.setConn k conn k').conn.Small := by
  by_cases hk : k' = k
  · rw [hk, setConn, update_self]
    exact hconn
  · rw [setConn, update_of_ne hk]
    exact h.small k'

theorem Table.Sound.retire (h : t.Sound) (expired : ℕ → Bool) : (t.retire expired).Sound where
  small k := by
    simp only [Table.retire]
    split_ifs <;> exact h.small k
  bytes := h.bytes

theorem Table.Sound.renew (h : t.Sound) (hfits : t.stash = [] ∨ t.owner = k) {slot : Slot α}
    (hslot : slot.conn.Small) : ({ t.renew k slot with stash := [] } : Table α).Sound where
  small k' := by
    by_cases hk : k' = k
    · simp only [Table.renew, hk, update_self]
      exact hslot
    · simp only [Table.renew, update_of_ne hk]
      exact h.small k'
  bytes k' := by
    have hheld : ({ t.renew k slot with stash := [] } : Table α).held k' = [] :=
      held_of_empty rfl k'
    rw [hheld]
    by_cases hk : k' = k
    · simp only [Table.renew, hk, update_self, append_nil]
    · simp only [Table.renew, update_of_ne hk]
      rw [h.bytes k', held_of_fits_ne hfits (Ne.symm hk)]

theorem unused_small : (unused : Slot α).conn.Small := nofun

theorem connected_small (isn port : ℕ) : (connected isn port : Slot α).conn.Small := nofun

theorem Table.Sound.recv [NatCast α] (h : t.Sound) {bufsize : ℕ} {packets : List (Packet α)}
    (hfits : t.stash = [] ∨ t.owner = k) : (t.recv k bufsize packets).Sound := by
  rw [Table.recv]
  by_cases hvalid : t.valid k = false
  · rw [if_pos hvalid]
    exact h
  rw [if_neg hvalid]
  obtain ⟨hbytes, hsmall⟩ := tcpRecv_conserves (h.small k) bufsize packets t.stash
  have howner : (if t.stash = [] then k else t.owner) = k := by
    split_ifs with hstash
    · rfl
    · exact hfits.resolve_left hstash
  refine ⟨setConn_small h k hsmall, fun k' => ?_⟩
  by_cases hk : k' = k
  · simp only [held, hk, howner, update_self, if_true]
    rw [h.bytes k, held_of_fits hfits, append_assoc, ← hbytes, append_assoc]
  · simp only [held, howner, update_of_ne hk, if_neg (Ne.symm hk)]
    rw [h.bytes k', held_of_fits_ne hfits (Ne.symm hk)]

theorem Table.Sound.send (h : t.Sound) (k : ℕ) (reset : Bool) : (t.send k reset).Sound := by
  rw [Table.send]
  split_ifs
  · exact h
  · exact ⟨setConn_small h k (h.small k), h.bytes⟩

/-- What the calls that open a connection make of a table with an empty stash. -/
inductive Opened (t : Table α) (expired : ℕ → Bool) : Table α → Prop
  | same : Opened t expired t
  | retired : Opened t expired (t.retire expired)
  | renewed {h : ℕ} {slot : Slot α} (halloc : (t.retire expired).alloc = some h)
      (hslot : slot.conn.Small) :
      Opened t expired { (t.retire expired).renew h slot with stash := [] }

variable {expired : ℕ → Bool}

theorem opened_openAddr (result : Opening) (hstash : (t.retire expired).stash = []) :
    Opened t expired (t.openAddr expired result) := by
  simp only [openAddr]
  cases halloc : (t.retire expired).alloc with
  | none => exact .retired
  | some k =>
    cases result with
    | unreachable =>
      have hempty : ((t.retire expired).renew k unused).stash = [] := hstash
      have hrenewed := Opened.renewed halloc (@unused_small α)
      rw [← hempty] at hrenewed
      exact hrenewed
    | failed => exact .renewed halloc unused_small
    | connected isn port => exact .renewed halloc (connected_small isn port)

theorem opened_accept (k : ℕ) (syn : Option (ℕ × ℕ)) : Opened t expired (t.accept k expired syn) := by
  unfold Table.accept
  split_ifs
  · exact .same
  · cases syn with
    | none => exact .same
    | some peer =>
      simp only
      cases halloc : (t.retire expired).alloc with
      | none => exact .retired
      | some k' => exact .renewed halloc (connected_small peer.1 peer.2)

theorem Opened.sound (hopened : Opened t expired t') (h : t.Sound) (hstash : t.stash = []) :
    t'.Sound := by
  cases hopened with
  | same => exact h
  | retired => exact h.retire expired
  | renewed _ hslot => exact (h.retire expired).renew (.inl hstash) hslot

theorem Table.Sound.close (h : t.Sound) (hfits : t.stash = [] ∨ t.owner = k) :
    (t.close k).Sound := by
  rw [Table.close]
  split_ifs
  · exact h
  · exact h.renew hfits unused_small

theorem Table.Sound.call [NatCast α] (h : t.Sound) (call : Call α) (hfits : call.Fits t) :
    (t.call call).Sound := by
  cases call with
  | recv k bufsize packets => exact h.recv hfits
  | send k reset => exact h.send k reset
  | openAddr expired result => exact (opened_openAddr result hfits).sound h hfits
  | accept k expired syn => exact (opened_accept k syn).sound h hfits
  | close k => exact h.close hfits

/-! ## Other handles -/

/-- The call is not about the handle: it names another one, or it opens a connection
while the handle is in use. -/
def Call.Other (t : Table α) (k : ℕ) : Call α → Prop
  | .recv h _ _ => h ≠ k
  | .send _ _ => True
  | .openAddr expired _ => (t.retire expired).valid k = true
  | .accept _ expired _ => (t.retire expired).valid k = true
  | .close h => h ≠ k

/-- Nothing of a handle is delivered or discarded. -/
structure Untouched (t t' : Table α) (k : ℕ) : Prop where
  held : t'.held k = t.held k
  returned : t'.returned k = t.returned k
  acked : t'.acked k = t.acked k

theorem Untouched.refl (t : Table α) (k : ℕ) : Untouched t t k := ⟨rfl, rfl, rfl⟩

theorem Untouched.of_retire (h : Untouched (t.retire expired) t' k) : Untouched t t' k :=
  { h with }

theorem renew_untouched (hne : h ≠ k) (slot : Slot α) (hheld : t.held k = []) :
    Untouched t { t.renew h slot with stash := [] } k where
  held := (held_of_empty rfl k).trans hheld.symm
  returned := by simp only [renew, update_of_ne (Ne.symm hne)]
  acked := by simp only [renew, update_of_ne (Ne.symm hne)]

theorem alloc_ne (halloc : t.alloc = some h) (hvalid : t.valid k = true) : h ≠ k := by
  rintro rfl
  have hfree : (!(t.slots h).inUse) = true := by simpa using find?_some halloc
  rw [valid, Bool.and_eq_true] at hvalid
  rw [hvalid.2] at hfree
  cases hfree

theorem Opened.untouched (hopened : Opened t expired t') (hstash : t.stash = [])
    (hvalid : (t.retire expired).valid k = true) : Untouched t t' k := by
  cases hopened with
  | same => exact .refl t k
  | retired => exact .of_retire (.refl _ k)
  | renewed halloc _ =>
    apply Untouched.of_retire
    exact renew_untouched (alloc_ne halloc hvalid) _ (held_of_empty hstash k)

theorem call_untouched [NatCast α] (call : Call α) (hfits : call.Fits t) (hother : call.Other t k) :
    Untouched t (t.call call) k := by
  have hself := Untouched.refl t k
  cases call with
  | recv h bufsize packets =>
    change Untouched t (t.recv h bufsize packets) k
    rw [recv]
    by_cases hvalid : t.valid h = false
    · rw [if_pos hvalid]
      exact hself
    rw [if_neg hvalid]
    refine ⟨?_, update_of_ne (Ne.symm hother) _ t.returned, update_of_ne (Ne.symm hother) _ t.acked⟩
    have howner : (if t.stash = [] then h else t.owner) ≠ k := by
      split_ifs with hstash
      · exact hother
      · rw [hfits.resolve_left hstash]
        exact hother
    rw [held_of_fits_ne hfits hother]
    exact if_neg howner
  | send h reset =>
    change Untouched t (t.send h reset) k
    rw [send]
    split_ifs
    · exact hself
    · exact ⟨rfl, rfl, rfl⟩
  | openAddr expired result => exact (opened_openAddr result hfits).untouched hfits hother
  | accept h expired syn => exact (opened_accept h syn).untouched hfits hother
  | close h =>
    change Untouched t (t.close h) k
    rw [close]
    split_ifs
    · exact hself
    · exact renew_untouched hother unused (held_of_fits_ne hfits hother)

/-- As long as the stash is empty, or belongs to the handle of the call, what is
acknowledged on a handle is returned on it or waits for it, and calls for other handles
leave it alone. -/
theorem handles_apart [NatCast α] (start : Table α) (hsmall : ∀ h, (start.slots h).conn.Small)
    (hempty : start.stash = [] ∧ ∀ h, start.acked h = [] ∧ start.returned h = [])
    (t : Table α)
    (hrun : Reaches (guarded (fun t call => Call.Fits t call)
      fun before call after => before.call call = after) start t) :
    (∀ h, t.acked h = t.returned h ++ t.held h) ∧
    ∀ (call : Call α) (k : ℕ), call.Fits t → call.Other t k → Untouched t (t.call call) k := by
  have hstart : start.Sound := by
    refine ⟨hsmall, fun h => ?_⟩
    rw [(hempty.2 h).1, (hempty.2 h).2, held_of_empty hempty.1, append_nil]
  have hsound : t.Sound :=
    hrun.kept hstart fun hbefore hfits => hbefore.call _ hfits
  exact ⟨hsound.bytes, fun call k hfits hother => call_untouched call hfits hother⟩

def pair : Table ℕ :=
  ⟨fun h => if h < 2 then connected 0 80 else unused, [], 0, fun _ => [], fun _ => []⟩

/-- Two bytes for the first handle, and room for one. -/
def oversized : Call ℕ := .recv 0 1 [⟨1, [7, 8], false, false, 0⟩]

/-- The rest is read before the other handle is used. -/
def drained : Table ℕ := ((pair.call oversized).call (.recv 0 1 [])).call (.recv 1 1 [])

theorem handles_apart_drained : drained.acked 0 = [7, 8] ∧ drained.returned 0 = [7, 8] ∧
      drained.acked 0 = drained.returned 0 ++ drained.held 0 := by
  have hfits : oversized.Fits pair := .inl rfl
  have hfits' : Call.Fits (pair.call oversized) (.recv 0 1 []) := .inr (by decide +kernel)
  have hfits'' : Call.Fits ((pair.call oversized).call (.recv 0 1 [])) (.recv 1 1 []) :=
    .inl (by decide +kernel)
  have hrun : Reaches (guarded (fun t call => Call.Fits t call)
      fun before call after => before.call call = after) pair drained :=
    (((Reaches.refl _ pair).tail ⟨hfits, rfl⟩).tail ⟨hfits', rfl⟩).tail ⟨hfits'', rfl⟩
  have hsmall : ∀ h, (pair.slots h).conn.Small := by
    intro h
    simp only [pair]
    split_ifs
    · exact connected_small 0 80
    · exact unused_small
  have hapart := handles_apart pair hsmall ⟨rfl, fun _ => ⟨rfl, rfl⟩⟩ drained hrun
  exact ⟨by decide +kernel, by decide +kernel, hapart.1 0⟩

/-- The rest of the first handle's bytes is returned on the second one; or it is thrown
away when the second one is closed, or when a third one is opened. -/
theorem handles_share_stash :
    ((pair.call oversized).acked 0, (pair.call oversized).returned 0) = ([7, 8], [7]) ∧
    (((pair.call oversized).call (.recv 1 1 [])).acked 1,
      ((pair.call oversized).call (.recv 1 1 [])).returned 1) = ([], [8]) ∧
    (((pair.call oversized).call (.close 1)).call (.recv 0 1 [])).returned 0 = [7] ∧
    (((pair.call oversized).call (.openAddr (fun _ => false) (.connected 0 80))).call
      (.recv 0 1 [])).returned 0 = [7] := by
  decide +kernel

end AuraLite.Tcp

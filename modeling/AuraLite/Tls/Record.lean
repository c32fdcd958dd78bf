import AuraLite.Lib.Aead
import AuraLite.Lib.BigEndian

/-!
# The TLS record layer

The protected records of the TLS client (`atls_tls_keys.c`).  A record carries a
five-byte header and a ciphertext whose plaintext is a payload, one byte of
content type and, when the sender pads, a run of zeros.  Both ends number the
records of one key; the number enters the nonce and is never sent.
-/

namespace AuraLite.Tls

open List Aead BigEndian

/-- `ATLS_TLS_MAX_RECORD`. -/
def maxRecord : ℕ := 16640

/-- `ATLS_CT_APPLICATION_DATA`, the outer type of every protected record. -/
def applicationData : UInt8 := 23

/-- `atls_tls_keys`: the key material of one direction. -/
structure Keys (Key : Type) where
  key : Key
  iv : List UInt8
  seq : UInt64
  iv_length : iv.length = 12

variable {Key : Type}

/-- `k->seq++`. -/
def Keys.next (k : Keys Key) : Keys Key := { k with seq := k.seq + 1 }

/-- `build_nonce`: the sequence number, big-endian in the last eight of twelve
bytes, xored with the IV. -/
def buildNonce (iv : List UInt8) (seq : UInt64) : List UInt8 :=
  zipWith (· ^^^ ·) iv (replicate 4 0 ++ encode 8 seq.toNat)

def Keys.nonce (k : Keys Key) : List UInt8 := buildNonce k.iv k.seq

/-- The record header, which is also the associated data. -/
def header (length : ℕ) : List UInt8 := [applicationData, 3, 3] ++ encode 2 length

variable (cipher : Cipher Key (List UInt8) 16)

/-- `atls_tls_encrypt_record`: no padding, and no record when the plaintext does
not fit its buffer. -/
def encryptRecord (k : Keys Key) (type : UInt8) (payload : List UInt8) :
    Option (List UInt8) × Keys Key :=
  if payload.length + 1 > maxRecord + 1 then (none, k)
  else
    let head := header (payload.length + 1 + 16)
    (some (head ++ cipher.protect k.key k.nonce head (payload ++ [type])), k.next)

/-- The error codes of `atls_tls_decrypt_record`. -/
inductive Refusal where
  | truncated
  | badLength
  | auth
  | badEncoding
  deriving DecidableEq

inductive Outcome where
  | accepted (type : UInt8) (payload : List UInt8)
  | rejected (refusal : Refusal)
  /-- The plaintext is written past the end of its buffer. -/
  | overrun
  deriving DecidableEq

/-- `atls_tls_decrypt_record`. -/
def decryptRecord (opens : Opener Key (List UInt8)) (k : Keys Key) (record : List UInt8) :
    Outcome × Keys Key :=
  if record.length < 5 + 16 then (.rejected .truncated, k)
  else if value ((record.drop 3).take 2) + 5 ≠ record.length then (.rejected .badLength, k)
  -- The buffer `plain` holds `ATLS_TLS_MAX_RECORD` bytes and its size is not checked.
  else if record.length - 5 - 16 > maxRecord then (.overrun, k)
  else
    match opens k.key k.nonce (record.take 5) (record.drop 5) with
    | none => (.rejected .auth, k)
    | some plain =>
      match plain.getLast? with
      | none => (.rejected .badEncoding, k)
      -- The last byte is the type; zeros behind the type are not stripped.
      | some type => (.accepted type plain.dropLast, k.next)

/-- Records handed to `atls_tls_decrypt_record` one after the other. -/
def receive (opens : Opener Key (List UInt8)) (k : Keys Key) :
    List (List UInt8) → List Outcome × Keys Key
  | [] => ([], k)
  | record :: wire =>
    let (outcome, k') := decryptRecord opens k record
    let (outcomes, k'') := receive opens k' wire
    (outcome :: outcomes, k'')

/-- Payloads handed to `atls_tls_encrypt_record` one after the other. -/
def encryptAll (k : Keys Key) : List (UInt8 × List UInt8) → List (Option (List UInt8))
  | [] => []
  | (type, payload) :: calls =>
    let (record, k') := encryptRecord cipher k type payload
    record :: encryptAll k' calls

/-- The nonces under which those calls seal something. -/
def noncesUsed (k : Keys Key) : List (UInt8 × List UInt8) → List (List UInt8)
  | [] => []
  | (type, payload) :: calls =>
    match encryptRecord cipher k type payload with
    | (some _, k') => k.nonce :: noncesUsed k' calls
    | (none, k') => noncesUsed k' calls

/-! ## The sender of RFC 8446 -/

/-- What a sender protects in one record: content, its type, and zeros. -/
structure Message where
  type : UInt8
  payload : List UInt8
  padding : ℕ

/-- A non-zero type, at most `2 ^ 14` bytes of payload, and padding that keeps the
inner plaintext within `2 ^ 14 + 1` bytes. -/
def Message.Permitted (m : Message) : Prop :=
  m.type ≠ 0 ∧ m.payload.length ≤ 2 ^ 14 ∧ m.payload.length + 1 + m.padding ≤ 2 ^ 14 + 1

/-- `TLSInnerPlaintext`. -/
def Message.inner (m : Message) : List UInt8 :=
  m.payload ++ m.type :: replicate m.padding 0

/-- `TLSCiphertext` for one message under the current number. -/
def rfcRecord (k : Keys Key) (m : Message) : List UInt8 :=
  let head := header (m.inner.length + 16)
  head ++ cipher.protect k.key k.nonce head m.inner

/-- The records of a sequence of messages. -/
def rfcSend : Keys Key → List Message → List (List UInt8)
  | _, [] => []
  | k, m :: messages => rfcRecord cipher k m :: rfcSend k.next messages

/-- What the sender's cipher has sealed. -/
def rfcLog : Keys Key → List Message → List (Sealed Key (List UInt8))
  | _, [] => []
  | k, m :: messages =>
    let head := header (m.inner.length + 16)
    ⟨k.key, k.nonce, head, cipher.protect k.key k.nonce head m.inner, m.inner⟩ ::
      rfcLog k.next messages

/-! ## Nonces -/

/-- The keys after `count` records. -/
def Keys.after (k : Keys Key) (count : ℕ) : Keys Key :=
  { k with seq := k.seq + UInt64.ofNat count }

@[simp]
theorem Keys.after_zero (k : Keys Key) : k.after 0 = k := by
  rw [Keys.after, show UInt64.ofNat 0 = 0 from rfl, UInt64.add_zero]

theorem Keys.after_next (k : Keys Key) (count : ℕ) : k.next.after count = k.after (count + 1) := by
  rw [Keys.after, Keys.after, Keys.next, UInt64.ofNat_add, UInt64.add_assoc,
    UInt64.add_comm (UInt64.ofNat count)]
  rfl

theorem Keys.next_after (k : Keys Key) (count : ℕ) :
    (k.after count).next = k.after (count + 1) := by
  rw [Keys.after, Keys.after, Keys.next, UInt64.ofNat_add, UInt64.add_assoc]
  rfl

theorem zipWith_xor_inj {iv left right : List UInt8} (hleft : left.length = iv.length)
    (hright : right.length = iv.length)
    (heq : zipWith (· ^^^ ·) iv left = zipWith (· ^^^ ·) iv right) : left = right := by
  apply ext_getElem (hleft.trans hright.symm)
  intro i hi hi'
  have hbyte := congrArg (fun bytes => bytes[i]?) heq
  have hiv : i < iv.length := hleft ▸ hi
  simp only [getElem?_zipWith, getElem?_eq_getElem hi, getElem?_eq_getElem hi',
    getElem?_eq_getElem hiv, Option.some_inj] at hbyte
  exact UInt8.xor_right_inj _ |>.mp hbyte

theorem buildNonce_inj {iv : List UInt8} {left right : UInt64} (hiv : iv.length = 12)
    (heq : buildNonce iv left = buildNonce iv right) : left = right := by
  have hlength : ∀ seq : UInt64,
      (replicate 4 (0 : UInt8) ++ encode 8 seq.toNat).length = iv.length := by
    intro seq
    rw [length_append, length_replicate, length_encode, hiv]
  have hbytes := append_cancel_left (zipWith_xor_inj (hlength left) (hlength right) heq)
  apply UInt64.toNat_inj.mp
  have hvalue := congrArg value hbytes
  rwa [value_encode_of_lt left.toNat_lt, value_encode_of_lt right.toNat_lt] at hvalue

variable {k : Keys Key}

theorem Keys.after_nonce_inj {left right : ℕ} (hleft : left < 2 ^ 64)
    (hright : right < 2 ^ 64) (heq : (k.after left).nonce = (k.after right).nonce) :
    left = right := by
  have hseq : k.seq + UInt64.ofNat left = k.seq + UInt64.ofNat right :=
    buildNonce_inj k.iv_length heq
  have hcount := congrArg UInt64.toNat (UInt64.add_right_inj k.seq |>.mp hseq)
  rwa [UInt64.toNat_ofNat_of_lt' hleft, UInt64.toNat_ofNat_of_lt' hright] at hcount

theorem noncesUsed_eq (k : Keys Key) (calls : List (UInt8 × List UInt8)) :
    noncesUsed cipher k calls =
      (range (noncesUsed cipher k calls).length).map fun i => (k.after i).nonce := by
  induction calls generalizing k with
  | nil => rfl
  | cons call calls ih =>
    obtain ⟨type, payload⟩ := call
    rw [noncesUsed, encryptRecord]
    split_ifs with hlong
    · exact ih k
    · dsimp only
      rw [length_cons, range_succ_eq_map, map_cons, map_map, Keys.after_zero]
      congr 1
      rw [ih k.next, length_map, length_range]
      apply map_congr_left
      intro i _
      rw [Function.comp_apply, Keys.after_next]

/-- Fewer than `2 ^ 64` records never share a nonce. -/
theorem nodup_noncesUsed (k : Keys Key) (calls : List (UInt8 × List UInt8))
    (hfew : (noncesUsed cipher k calls).length < 2 ^ 64) :
    (noncesUsed cipher k calls).Nodup := by
  rw [noncesUsed_eq]
  apply List.Nodup.map_on _ nodup_range
  intro left hleft right hright heq
  rw [mem_range] at hleft hright
  exact Keys.after_nonce_inj (hleft.trans hfew) (hright.trans hfew) heq

/-! ## Round trips -/

@[simp]
theorem length_header (length : ℕ) : (header length).length = 5 := by
  rw [header, length_append, length_encode]
  rfl

theorem Message.length_inner (m : Message) : m.inner.length = m.payload.length + 1 + m.padding := by
  rw [Message.inner, length_append, length_cons, length_replicate]
  omega

variable {opens : Opener Key (List UInt8)}

/-- A record is accepted when the opening function accepts its ciphertext, and its
last plaintext byte is taken as the type. -/
theorem decryptRecord_of_opens {k : Keys Key} {cipher plain : List UInt8} {type : UInt8}
    (hlength : cipher.length = plain.length + 16) (hsmall : plain.length ≤ maxRecord)
    (hopens : opens k.key k.nonce (header (plain.length + 16)) cipher = some plain)
    (hlast : plain.getLast? = some type) :
    decryptRecord opens k (header (plain.length + 16) ++ cipher) =
      (.accepted type plain.dropLast, k.next) := by
  have hbound : plain.length ≤ 16640 := hsmall
  have hlengths : (header (plain.length + 16) ++ cipher).length = 5 + 16 + plain.length := by
    rw [length_append, length_header]
    omega
  have hrlen : value (((header (plain.length + 16) ++ cipher).drop 3).take 2) =
      plain.length + 16 := by
    have hfield : ((header (plain.length + 16) ++ cipher).drop 3).take 2 =
        encode 2 (plain.length + 16) := by
      rw [header, append_assoc, drop_left' (by rfl), take_left' (length_encode _ _)]
    rw [hfield]
    apply value_encode_of_lt
    omega
  rw [decryptRecord, if_neg (by omega), if_neg (by rw [hrlen]; omega),
    if_neg (by rw [hlengths, maxRecord]; omega), take_left' (length_header _),
    drop_left' (length_header _), hopens]
  dsimp only
  rw [hlast]

/-- What the receiver makes of a permitted message. -/
def Message.read (m : Message) : Outcome :=
  .accepted (m.inner.getLast?.getD 0) m.inner.dropLast

theorem Message.read_eq_iff {m : Message} :
    m.read = .accepted m.type m.payload ↔ m.padding = 0 := by
  constructor
  · intro hread
    have hlength := congrArg length (Outcome.accepted.inj hread).2
    rw [length_dropLast, length_inner] at hlength
    omega
  · intro hunpadded
    rw [Message.read, Message.inner, hunpadded, replicate_zero, getLast?_append, dropLast_concat]
    rfl

theorem Message.getLast?_inner (m : Message) :
    m.inner.getLast? = some (m.inner.getLast?.getD 0) := by
  have hne : m.inner ≠ [] := by
    rw [Message.inner]
    exact append_ne_nil_of_right_ne_nil _ (cons_ne_nil _ _)
  rw [getLast?_eq_getLast_of_ne_nil hne]
  rfl

/-- The record of a permitted message is accepted by every opening function that
accepts its ciphertext. -/
theorem decryptRecord_rfcRecord {m : Message} (hpermitted : m.Permitted)
    (hopens : opens k.key k.nonce (header (m.inner.length + 16))
      (cipher.protect k.key k.nonce (header (m.inner.length + 16)) m.inner) = some m.inner) :
    decryptRecord opens k (rfcRecord cipher k m) = (m.read, k.next) := by
  have hsmall : m.inner.length ≤ maxRecord := by
    rw [Message.length_inner, maxRecord]
    have := hpermitted.2.2
    omega
  exact decryptRecord_of_opens (cipher.length_protect _ _ _ _) hsmall hopens m.getLast?_inner

/-- In step, the receiver reads the sequence the sender sent. -/
theorem receive_rfcSend (k : Keys Key) (messages : List Message)
    (hpermitted : ∀ m ∈ messages, m.Permitted) :
    receive cipher.unprotect k (rfcSend cipher k messages) =
      (messages.map Message.read, k.after messages.length) := by
  induction messages generalizing k with
  | nil => rw [rfcSend, receive, map_nil, length_nil, Keys.after_zero]
  | cons m messages ih =>
    have hm : m.Permitted := hpermitted m mem_cons_self
    have hrest := ih k.next fun m' hm' => hpermitted m' (mem_cons_of_mem _ hm')
    rw [rfcSend, receive, decryptRecord_rfcRecord cipher hm (cipher.unprotect_protect _ _ _ _)]
    dsimp only
    rw [hrest, Keys.after_next, map_cons, length_cons]

/-- `atls_tls_encrypt_record` seals as the sender without padding does. -/
theorem encryptRecord_eq_rfcRecord {m : Message} (hpermitted : m.Permitted) (hunpadded : m.padding = 0) :
    encryptRecord cipher k m.type m.payload = (some (rfcRecord cipher k m), k.next) := by
  have hsmall : ¬ m.payload.length + 1 > maxRecord + 1 := by
    rw [maxRecord]
    have := hpermitted.2.1
    omega
  have hinner : m.inner = m.payload ++ [m.type] := by
    rw [Message.inner, hunpadded, replicate_zero]
  rw [encryptRecord, if_neg hsmall, rfcRecord, hinner, length_append, length_singleton]

theorem encryptAll_eq_rfcSend (k : Keys Key) (messages : List Message)
    (hpermitted : ∀ m ∈ messages, m.Permitted)
    (hunpadded : ∀ m ∈ messages, m.padding = 0) :
    encryptAll cipher k (messages.map fun m => (m.type, m.payload)) =
      (rfcSend cipher k messages).map some := by
  induction messages generalizing k with
  | nil => rfl
  | cons m messages ih =>
    have hrest := ih k.next (fun m' hm' => hpermitted m' (mem_cons_of_mem _ hm'))
      (fun m' hm' => hunpadded m' (mem_cons_of_mem _ hm'))
    rw [map_cons, encryptAll, encryptRecord_eq_rfcRecord cipher
      (hpermitted m mem_cons_self) (hunpadded m mem_cons_self)]
    dsimp only
    rw [hrest, rfcSend, map_cons]

/-! ## An ideal cipher -/

/-- The entry of the log for one message. -/
def sealedEntry (k : Keys Key) (m : Message) : Sealed Key (List UInt8) :=
  ⟨k.key, k.nonce, header (m.inner.length + 16),
    cipher.protect k.key k.nonce (header (m.inner.length + 16)) m.inner, m.inner⟩

theorem rfcRecord_eq (k : Keys Key) (m : Message) :
    rfcRecord cipher k m = (sealedEntry cipher k m).aad ++ (sealedEntry cipher k m).cipher :=
  rfl

theorem getElem?_rfcSend (k : Keys Key) (messages : List Message) (i : ℕ) :
    (rfcSend cipher k messages)[i]? = messages[i]?.map (rfcRecord cipher (k.after i)) := by
  induction messages generalizing k i with
  | nil => rfl
  | cons m messages ih =>
    cases i with
    | zero => rw [rfcSend, getElem?_cons_zero, getElem?_cons_zero, Keys.after_zero, Option.map_some]
    | succ i => rw [rfcSend, getElem?_cons_succ, getElem?_cons_succ, ih, Keys.after_next]

theorem getElem?_rfcLog (k : Keys Key) (messages : List Message) (i : ℕ) :
    (rfcLog cipher k messages)[i]? = messages[i]?.map (sealedEntry cipher (k.after i)) := by
  induction messages generalizing k i with
  | nil => rfl
  | cons m messages ih =>
    cases i with
    | zero =>
      rw [rfcLog, getElem?_cons_zero, getElem?_cons_zero, Keys.after_zero]
      rfl
    | succ i => rw [rfcLog, getElem?_cons_succ, getElem?_cons_succ, ih, Keys.after_next]

section Channel

variable {cipher} {messages : List Message} (hideal : Ideal opens (rfcLog cipher k messages))
  (hfew : messages.length < 2 ^ 64) (hpermitted : ∀ m ∈ messages, m.Permitted) {i : ℕ}
include hideal hfew

/-- At number `i` an ideal opening function accepts the ciphertext of message `i` and
no other. -/
theorem opens_after_iff (hi : i ≤ messages.length) {aad sent plain : List UInt8} :
    opens (k.after i).key (k.after i).nonce aad sent = some plain ↔
      ∃ m, messages[i]? = some m ∧ sealedEntry cipher (k.after i) m =
        ⟨(k.after i).key, (k.after i).nonce, aad, sent, plain⟩ := by
  rw [hideal]
  constructor
  · intro hmem
    obtain ⟨j, hj⟩ := getElem?_of_mem hmem
    rw [getElem?_rfcLog] at hj
    obtain ⟨m, hm, hentry⟩ := Option.map_eq_some_iff.mp hj
    have hjlt : j < messages.length := (List.getElem?_eq_some_iff.mp hm).1
    have hnonce : (k.after j).nonce = (k.after i).nonce := congrArg Sealed.nonce hentry
    have hsame : j = i := Keys.after_nonce_inj (by omega) (by omega) hnonce
    subst hsame
    exact ⟨m, hm, hentry⟩
  · rintro ⟨m, hm, hentry⟩
    apply mem_of_getElem? (i := i)
    rw [getElem?_rfcLog, hm, Option.map_some, hentry]

include hpermitted in
/-- Record `i` is accepted by the receiver that has accepted `i` records. -/
theorem decryptRecord_expected {m : Message} (hm : messages[i]? = some m) :
    decryptRecord opens (k.after i) (rfcRecord cipher (k.after i) m) =
      (m.read, k.after (i + 1)) := by
  have hi : i < messages.length := (List.getElem?_eq_some_iff.mp hm).1
  rw [← Keys.next_after]
  apply decryptRecord_rfcRecord cipher (hpermitted m (mem_of_getElem? hm))
  rw [opens_after_iff hideal hfew hi.le]
  exact ⟨m, hm, rfl⟩

/-- Every other record is refused and does not advance the number. -/
theorem decryptRecord_unexpected (hi : i ≤ messages.length) {record : List UInt8}
    (hlength : record.length ≤ 5 + 16 + maxRecord)
    (hother : (rfcSend cipher k messages)[i]? ≠ some record) :
    ∃ refusal, decryptRecord opens (k.after i) record = (.rejected refusal, k.after i) := by
  rw [decryptRecord]
  by_cases hshort : record.length < 5 + 16
  · exact ⟨.truncated, if_pos hshort⟩
  rw [if_neg hshort]
  by_cases hfield : value ((record.drop 3).take 2) + 5 ≠ record.length
  · exact ⟨.badLength, if_pos hfield⟩
  rw [if_neg hfield, if_neg (by omega)]
  cases hopen : opens (k.after i).key (k.after i).nonce (record.take 5) (record.drop 5) with
  | none => exact ⟨.auth, rfl⟩
  | some plain =>
    -- The log knows this ciphertext under number `i` only, so it is record `i` after all.
    obtain ⟨m, hm, hentry⟩ := (opens_after_iff hideal hfew hi).mp hopen
    have hrecord : rfcRecord cipher (k.after i) m = record := by
      rw [rfcRecord_eq, hentry, take_append_drop]
    exact absurd (by rw [getElem?_rfcSend, hm, Option.map_some, hrecord]) hother

/-- The messages that came out of a list of records. -/
def delivered (outcomes : List Outcome) : List Outcome :=
  outcomes.filter fun outcome => match outcome with
    | .accepted _ _ => true
    | _ => false

include hpermitted in
/-- Whatever is put on the wire, the receiver delivers the next messages of the sender,
in order and once each, and has advanced by their number. -/
theorem receive_ideal (wire : List (List UInt8))
    (hlengths : ∀ record ∈ wire, record.length ≤ 5 + 16 + maxRecord) (hi : i ≤ messages.length) :
    ∃ n, i ≤ n ∧ n ≤ messages.length ∧ (receive opens (k.after i) wire).2 = k.after n ∧
      delivered (receive opens (k.after i) wire).1 =
        ((messages.take n).drop i).map Message.read := by
  induction wire generalizing i with
  | nil =>
    refine ⟨i, le_rfl, hi, rfl, ?_⟩
    rw [drop_eq_nil_of_le (length_take_le i messages)]
    rfl
  | cons record wire ih =>
    have hrecord := hlengths record mem_cons_self
    have hwire : ∀ record' ∈ wire, record'.length ≤ 5 + 16 + maxRecord :=
      fun record' hmem => hlengths record' (mem_cons_of_mem _ hmem)
    by_cases hexpected : (rfcSend cipher k messages)[i]? = some record
    · rw [getElem?_rfcSend] at hexpected
      obtain ⟨m, hm, rfl⟩ := Option.map_eq_some_iff.mp hexpected
      have hilt : i < messages.length := (List.getElem?_eq_some_iff.mp hm).1
      obtain ⟨n, hin, hn, hkeys, hdelivered⟩ := ih hwire hilt
      refine ⟨n, by omega, hn, ?_, ?_⟩
      · rw [receive, decryptRecord_expected hideal hfew hpermitted hm]
        exact hkeys
      · have hnext : (messages.take n).drop i = m :: (messages.take n).drop (i + 1) := by
          have htake : (messages.take n)[i]? = some m := by
            rw [getElem?_take_of_lt (by omega), hm]
          obtain ⟨hlt, hget⟩ := List.getElem?_eq_some_iff.mp htake
          rw [drop_eq_getElem_cons hlt, hget]
        rw [hnext, map_cons, ← hdelivered, receive,
          decryptRecord_expected hideal hfew hpermitted hm]
        rfl
    · obtain ⟨refusal, hrefused⟩ := decryptRecord_unexpected hideal hfew hi hrecord hexpected
      obtain ⟨n, hin, hn, hkeys, hdelivered⟩ := ih hwire hi
      refine ⟨n, hin, hn, ?_, ?_⟩
      · rw [receive, hrefused]
        exact hkeys
      · rw [← hdelivered, receive, hrefused]
        rfl

end Channel

/-- The record layer as a channel.  Messages are read back in order if and only if they are
sealed without padding.  No nonce is used twice.  `atls_tls_encrypt_record` is such a sender,
and with an ideal cipher a receiver that has accepted `i` records accepts record `i`, refuses
every other record without advancing, and so delivers an initial part of what was sent. -/
theorem record_channel (cipher : Cipher Key (List UInt8) 16) (k : Keys Key)
    (messages : List Message) (hpermitted : ∀ m ∈ messages, m.Permitted) :
    ((receive cipher.unprotect k (rfcSend cipher k messages)).1 =
      messages.map (fun m => .accepted m.type m.payload) ↔ ∀ m ∈ messages, m.padding = 0) ∧
    (∀ calls, (noncesUsed cipher k calls).length < 2 ^ 64 → (noncesUsed cipher k calls).Nodup) ∧
    ((∀ m ∈ messages, m.padding = 0) →
      encryptAll cipher k (messages.map fun m => (m.type, m.payload)) =
        (rfcSend cipher k messages).map some ∧
      (∀ opens, Ideal opens (rfcLog cipher k messages) → messages.length < 2 ^ 64 →
        (∀ i m, messages[i]? = some m →
          decryptRecord opens (k.after i) (rfcRecord cipher (k.after i) m) =
            (.accepted m.type m.payload, k.after (i + 1))) ∧
        (∀ i ≤ messages.length, ∀ record, record.length ≤ 5 + 16 + maxRecord →
          (rfcSend cipher k messages)[i]? ≠ some record →
          ∃ refusal, decryptRecord opens (k.after i) record = (.rejected refusal, k.after i)) ∧
        (∀ wire, (∀ record ∈ wire, record.length ≤ 5 + 16 + maxRecord) →
          ∃ n ≤ messages.length, (receive opens k wire).2 = k.after n ∧
            delivered (receive opens k wire).1 =
              (messages.take n).map fun m => .accepted m.type m.payload))) := by
  refine ⟨?_, nodup_noncesUsed cipher k, fun hunpadded =>
    ⟨encryptAll_eq_rfcSend cipher k messages hpermitted hunpadded, ?_⟩⟩
  · rw [receive_rfcSend cipher k messages hpermitted, map_inj_left]
    exact forall₂_congr fun m _ => Message.read_eq_iff
  · intro opens hideal hfew
    refine ⟨?_, ?_, ?_⟩
    · intro i m hm
      rw [decryptRecord_expected hideal hfew hpermitted hm,
        Message.read_eq_iff.mpr (hunpadded m (mem_of_getElem? hm))]
    · intro i hi record hlength hother
      exact decryptRecord_unexpected hideal hfew hi hlength hother
    · intro wire hlengths
      obtain ⟨n, -, hn, hkeys, hdelivered⟩ :=
        receive_ideal hideal hfew hpermitted wire hlengths (Nat.zero_le _)
      rw [Keys.after_zero] at hkeys hdelivered
      refine ⟨n, hn, hkeys, ?_⟩
      rw [hdelivered, drop_zero]
      apply map_congr_left
      intro m hm
      exact Message.read_eq_iff.mpr (hunpadded m (mem_of_mem_take hm))

/-- A cipher that leaves the plaintext as it is and appends a tag of zeros. -/
def clearCipher (Key : Type) : Cipher Key (List UInt8) 16 where
  protect _ _ _ plain := plain ++ replicate 16 0
  unprotect _ _ _ sent := some (sent.take (sent.length - 16))
  unprotect_protect _ _ _ plain := by
    rw [length_append, length_replicate, Nat.add_sub_cancel, take_left' rfl]
  length_protect _ _ _ plain := by
    rw [length_append, length_replicate]

def firstKeys : Keys Unit := ⟨(), replicate 12 0, 0, rfl⟩

/-- Two messages arrive as they were sent, and the second record sent first is refused. -/
theorem record_channel_two : (receive (clearCipher Unit).unprotect firstKeys
      (rfcSend (clearCipher Unit) firstKeys [⟨23, [104, 105], 0⟩, ⟨22, [24, 0, 0, 1, 0], 0⟩])).1 =
      [.accepted 23 [104, 105], .accepted 22 [24, 0, 0, 1, 0]] ∧
    ∃ refusal, decryptRecord
      (openLog (rfcLog (clearCipher Unit) firstKeys [⟨23, [104, 105], 0⟩, ⟨22, [24, 0, 0, 1, 0], 0⟩]))
      (firstKeys.after 0)
      (rfcRecord (clearCipher Unit) (firstKeys.after 1) ⟨22, [24, 0, 0, 1, 0], 0⟩) =
      (.rejected refusal, firstKeys.after 0) := by
  obtain ⟨hreceived, -, hunpadded⟩ := record_channel (clearCipher Unit) firstKeys
    [⟨23, [104, 105], 0⟩, ⟨22, [24, 0, 0, 1, 0], 0⟩] (by simp [Message.Permitted])
  obtain ⟨-, hideal⟩ := hunpadded (by simp)
  refine ⟨hreceived.mpr (by simp), ?_⟩
  have hfresh : ((rfcLog (clearCipher Unit) firstKeys
      [⟨23, [104, 105], 0⟩, ⟨22, [24, 0, 0, 1, 0], 0⟩]).map Sealed.nonce).Nodup := by decide
  apply (hideal _ (ideal_openLog hfresh) (by decide)).2.1 0 (by decide)
  · decide
  · decide

/-- One byte of padding: the receiver takes the padding for the content type and the type
for the last byte of the payload. -/
theorem padded_message_misread : (Message.mk 23 [104] 1).Permitted ∧
    ∀ (cipher : Cipher Unit (List UInt8) 16) (k : Keys Unit),
      (receive cipher.unprotect k (rfcSend cipher k [⟨23, [104], 1⟩])).1 =
        [.accepted 0 [104, 23]] := by
  have hpermitted : (Message.mk 23 [104] 1).Permitted := by
    refine ⟨by decide, by decide, by decide⟩
  refine ⟨hpermitted, fun cipher k => ?_⟩
  rw [receive_rfcSend cipher k _ (by simpa using hpermitted)]
  rfl

end AuraLite.Tls
